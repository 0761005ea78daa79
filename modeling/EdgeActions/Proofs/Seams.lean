import EdgeActions.Action.Sequence
import Mathlib.Data.List.Chain

/-!
# Seams

Whether steps can be executed in order on one edge is a matter of neighbours:
no step that updates the stack stands in front of another one, and no condition
behind one.  A list of steps is legal exactly when every two neighbours join,
and two legal lists can be put together exactly when they join at the seam.
-/

namespace EdgeActions

def Step.joins (earlier later : Step) : Bool :=
  !earlier.updatesStack && !later.isCondition

namespace Action

theorem joins_iff {earlier later : Step} :
    earlier.joins later = true ↔
      earlier.updatesStack = false ∧ later.isCondition = false := by
  simp [Step.joins]

/-- A step in front of legal steps only has to join the first of them. -/
theorem legal_cons_cons_iff {first second : Step} {steps : List Step} :
    Legal (first :: second :: steps) ↔
      first.joins second = true ∧ Legal (second :: steps) := by
  constructor
  · rintro ⟨-, hconditions, hupdates⟩
    refine ⟨joins_iff.2 ⟨?_, ?_⟩, List.cons_ne_nil _ _, ?_, ?_⟩
    · exact hupdates first (by simp)
    · exact hconditions second (by simp)
    · intro step hstep
      exact hconditions step (List.mem_cons_of_mem second hstep)
    · intro step hstep
      exact hupdates step (List.mem_cons_of_mem first hstep)
  · rintro ⟨hjoins, -, hconditions, hupdates⟩
    obtain ⟨hfirst, hsecond⟩ := joins_iff.1 hjoins
    refine ⟨List.cons_ne_nil _ _, ?_, ?_⟩
    · intro step hstep
      rcases List.mem_cons.1 hstep with rfl | hstep
      · exact hsecond
      · exact hconditions step hstep
    · intro step hstep
      rcases List.mem_cons.1 hstep with rfl | hstep
      · exact hfirst
      · exact hupdates step hstep

/-- Legality is decided between neighbours. -/
theorem legal_iff_isChain {steps : List Step} :
    Legal steps ↔ steps ≠ [] ∧ steps.IsChain fun earlier later => earlier.joins later := by
  induction steps with
  | nil => exact iff_of_false (fun h => h.nonempty rfl) (fun h => h.1 rfl)
  | cons first steps ih =>
    cases steps with
    | nil => exact iff_of_true (legal_singleton first) ⟨List.cons_ne_nil _ _, .singleton first⟩
    | cons second steps =>
      rw [legal_cons_cons_iff, ih, List.isChain_cons_cons]
      simp

/-- A step that joins the next one joins every later step of a legal list. -/
theorem legal_iff_pairwise {steps : List Step} :
    Legal steps ↔ steps ≠ [] ∧ steps.Pairwise fun earlier later => earlier.joins later := by
  have htrans : Trans (fun earlier later : Step => earlier.joins later = true)
      (fun earlier later => earlier.joins later = true)
      (fun earlier later => earlier.joins later = true) := by
    refine ⟨fun {earlier middle later} hfront hback => ?_⟩
    exact joins_iff.2 ⟨(joins_iff.1 hfront).1, (joins_iff.1 hback).2⟩
  rw [legal_iff_isChain, List.isChain_iff_pairwise]

/-- Two legal lists are legal together exactly when they join at the seam. -/
theorem legal_append_iff {front back : List Step} (hfront : Legal front) (hback : Legal back) :
    Legal (front ++ back) ↔
      ∀ earlier ∈ front.getLast?, ∀ later ∈ back.head?, earlier.joins later = true := by
  rw [legal_iff_isChain] at hfront hback ⊢
  rw [List.isChain_append]
  have hnonempty : front ++ back ≠ [] := List.append_ne_nil_of_left_ne_nil hfront.1 back
  exact ⟨fun h => h.2.2.2, fun h => ⟨hnonempty, hfront.2, hback.2, h⟩⟩

end Action

end EdgeActions
