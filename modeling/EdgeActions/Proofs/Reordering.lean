import EdgeActions.Proofs.Reachable
import EdgeActions.Proofs.StackView
import Mathlib.Data.List.Permutation
import Mathlib.Logic.Relation

/-!
# Reordering actions without conflict

The resources of an action bound what it does to the flag stacks: it leaves the
stack of a flag whose resource it does not write, and does not even look at one
whose resource it does not read either.  Two neighbours without conflict can
therefore change places on a path, as often as one likes, without any change to
whether the path is balanced or to the flags that it leaves open.
-/

namespace EdgeActions

/-- The resource of a flag is not that of another. -/
theorem Resource.ne_of_ofFlag_not_mem {flag other : String}
    (h : Resource.ofFlag flag ∉ [Resource.ofFlag other]) : other ≠ flag := by
  rintro rfl
  exact h (List.mem_singleton_self _)

namespace Step

variable {strict : Bool} {flag : String} {step : Step} {steps : List Step} {stack : List String}

/-- A step leaves the stack of a flag that it does not write, unless it is reported. -/
theorem onStack_of_not_mem_writes (hwrites : Resource.ofFlag flag ∉ step.writes)
    (stack : List String) :
    step.onStack strict flag stack = none ∨ step.onStack strict flag stack = some stack := by
  cases step with
  | pushFlag other value =>
    have hother := Resource.ne_of_ofFlag_not_mem hwrites
    exact Or.inr (congrArg some (if_neg hother))
  | popFlag other =>
    have hother := Resource.ne_of_ofFlag_not_mem hwrites
    exact Or.inr (if_neg hother)
  | filterFlag other value =>
    rw [onStack]
    split
    case isTrue => exact Or.inl rfl
    case isFalse => exact Or.inr rfl
  | reduce => exact Or.inr rfl
  | lookahead => exact Or.inr rfl
  | call => exact Or.inr rfl

/-- A step does nothing to the stack of a flag that it neither reads nor writes. -/
theorem onStack_of_not_mem (hreads : Resource.ofFlag flag ∉ step.reads)
    (hwrites : Resource.ofFlag flag ∉ step.writes) (stack : List String) :
    step.onStack strict flag stack = some stack := by
  refine (onStack_of_not_mem_writes hwrites stack).resolve_left fun hnone => ?_
  cases step with
  | filterFlag other value =>
    have hother := Resource.ne_of_ofFlag_not_mem hreads
    rw [onStack, if_neg fun h => hother h.1] at hnone
    cases hnone
  | popFlag other =>
    have hother := Resource.ne_of_ofFlag_not_mem hreads
    rw [onStack, if_neg hother] at hnone
    cases hnone
  | pushFlag => cases hnone
  | reduce => cases hnone
  | lookahead => cases hnone
  | call => cases hnone

theorem runOnStack_of_not_mem_writes
    (hwrites : ∀ step ∈ steps, Resource.ofFlag flag ∉ step.writes) (stack : List String) :
    runOnStack strict flag steps stack = none ∨
      runOnStack strict flag steps stack = some stack := by
  induction steps with
  | nil => exact Or.inr rfl
  | cons step steps ih =>
    obtain ⟨hstep, hothers⟩ := List.forall_mem_cons.1 hwrites
    rw [runOnStack]
    rcases onStack_of_not_mem_writes hstep stack with hnone | hsome
    · rw [hnone]
      exact Or.inl rfl
    · rw [hsome]
      exact ih hothers

theorem runOnStack_of_not_mem (hreads : ∀ step ∈ steps, Resource.ofFlag flag ∉ step.reads)
    (hwrites : ∀ step ∈ steps, Resource.ofFlag flag ∉ step.writes) (stack : List String) :
    runOnStack strict flag steps stack = some stack := by
  induction steps with
  | nil => rfl
  | cons step steps ih =>
    obtain ⟨hread, hreads⟩ := List.forall_mem_cons.1 hreads
    obtain ⟨hwrite, hwrites⟩ := List.forall_mem_cons.1 hwrites
    rw [runOnStack, onStack_of_not_mem hread hwrite]
    exact ih hreads hwrites

end Step

namespace Action

open Step (runOnStack)

variable {a b : Action} {flag : String}

/-- The resources recorded for an action bound what it does to the stack of a flag. -/
theorem runOnStack_children_of_not_mem_writes (ha : a.WellFormed)
    (hwrites : Resource.ofFlag flag ∉ a.writes) (strict : Bool) (stack : List String) :
    runOnStack strict flag a.children stack = none ∨
      runOnStack strict flag a.children stack = some stack := by
  rw [ha.writes_eq, List.mem_flatMap] at hwrites
  exact Step.runOnStack_of_not_mem_writes
    (fun step hstep hwrite => hwrites ⟨step, hstep, hwrite⟩) stack

theorem runOnStack_children_of_not_mem (ha : a.WellFormed)
    (hreads : Resource.ofFlag flag ∉ a.reads) (hwrites : Resource.ofFlag flag ∉ a.writes)
    (strict : Bool) (stack : List String) :
    runOnStack strict flag a.children stack = some stack := by
  rw [ha.reads_eq, List.mem_flatMap] at hreads
  rw [ha.writes_eq, List.mem_flatMap] at hwrites
  exact Step.runOnStack_of_not_mem (fun step hstep hread => hreads ⟨step, hstep, hread⟩)
    (fun step hstep hwrite => hwrites ⟨step, hstep, hwrite⟩) stack

/-- What one of two actions without conflict writes, the other one neither reads nor writes. -/
theorem not_mem_of_not_conflictsWith (h : a.conflictsWith b = false) (resource : Resource) :
    (resource ∈ a.writes → resource ∉ b.reads ∧ resource ∉ b.writes) ∧
      (resource ∈ b.writes → resource ∉ a.reads ∧ resource ∉ a.writes) := by
  have hnone : ¬ a.conflictsWith b = true := by
    rw [h]
    exact nofun
  rw [conflictsWith_iff] at hnone
  refine ⟨fun ha => ⟨fun hb => ?_, fun hb => ?_⟩, fun hb => ⟨fun ha => ?_, fun ha => ?_⟩⟩
  · exact hnone ⟨resource, Or.inr ⟨ha, Or.inr hb⟩⟩
  · exact hnone ⟨resource, Or.inr ⟨ha, Or.inl hb⟩⟩
  · exact hnone ⟨resource, Or.inl ⟨ha, hb⟩⟩
  · exact hnone ⟨resource, Or.inr ⟨ha, Or.inl hb⟩⟩

/-- Two actions without conflict have the same effect on every stack in either order. -/
theorem runOnStack_swap (ha : a.WellFormed) (hb : b.WellFormed)
    (h : a.conflictsWith b = false) (strict : Bool) (flag : String) (stack : List String) :
    runOnStack strict flag (a.children ++ b.children) stack =
      runOnStack strict flag (b.children ++ a.children) stack := by
  obtain ⟨hfirst, hsecond⟩ := not_mem_of_not_conflictsWith h (Resource.ofFlag flag)
  rw [Step.runOnStack_append, Step.runOnStack_append]
  by_cases hwrites : Resource.ofFlag flag ∈ a.writes
  · -- the second action has nothing to do with the flag
    have hpass := fun next =>
      runOnStack_children_of_not_mem hb (hfirst hwrites).1 (hfirst hwrites).2 strict next
    rw [hpass stack, Option.bind_some, funext hpass, Option.bind_fun_some]
  by_cases hwrites' : Resource.ofFlag flag ∈ b.writes
  · have hpass := fun next =>
      runOnStack_children_of_not_mem ha (hsecond hwrites').1 (hsecond hwrites').2 strict next
    rw [hpass stack, Option.bind_some, funext hpass, Option.bind_fun_some]
  · -- both may filter the flag
    rcases runOnStack_children_of_not_mem_writes ha hwrites strict stack with h₁ | h₁ <;>
      rcases runOnStack_children_of_not_mem_writes hb hwrites' strict stack with h₂ | h₂ <;>
      simp [h₁, h₂]

/-- Two neighbours without conflict change places on a path. -/
inductive Exchange : List Action → List Action → Prop where
  | swap (front : List Action) {a b : Action} (back : List Action)
      (h : a.conflictsWith b = false) :
      Exchange (front ++ a :: b :: back) (front ++ b :: a :: back)

variable {path path' : List Action}

theorem Exchange.perm (h : Exchange path path') : path.Perm path' := by
  obtain ⟨front, back, -⟩ := h
  exact (List.Perm.swap _ _ back).append_left front

theorem Exchange.runOnStack_eq (h : Exchange path path') (hpath : ∀ a ∈ path, a.WellFormed)
    (strict : Bool) (flag : String) (stack : List String) :
    runOnStack strict flag (path.flatMap children) stack =
      runOnStack strict flag (path'.flatMap children) stack := by
  obtain @⟨front, a, b, back, h⟩ := h
  have ha : a.WellFormed := hpath a (by simp)
  have hb : b.WellFormed := hpath b (by simp)
  simp only [List.flatMap_append, List.flatMap_cons]
  rw [Step.runOnStack_append, Step.runOnStack_append]
  refine Option.bind_congr fun next _ => ?_
  rw [← List.append_assoc, ← List.append_assoc, Step.runOnStack_append, runOnStack_swap ha hb h,
    ← Step.runOnStack_append]

theorem perm_of_exchanges (h : Relation.ReflTransGen Exchange path path') : path.Perm path' := by
  induction h with
  | refl => exact .refl path
  | tail _ hexchange ih => exact ih.trans hexchange.perm

/-- However often neighbours change places, every stack ends up the same. -/
theorem runOnStack_eq_of_exchanges (h : Relation.ReflTransGen Exchange path path')
    (hpath : ∀ a ∈ path, a.WellFormed) (strict : Bool) (flag : String) (stack : List String) :
    runOnStack strict flag (path.flatMap children) stack =
      runOnStack strict flag (path'.flatMap children) stack := by
  induction h with
  | refl => rfl
  | tail hbefore hexchange ih =>
    refine ih.trans (hexchange.runOnStack_eq (fun a ha => ?_) strict flag stack)
    exact hpath a ((perm_of_exchanges hbefore).mem_iff.2 ha)

end Action

namespace FlagChecker

open Step (runOnStack)

variable {c next next' : FlagChecker} {steps steps' : List Step}

/-- Steps that do the same to every stack succeed alike and leave the same stacks. -/
theorem visitSteps_congr
    (h : ∀ flag, runOnStack c.strict flag steps (c.flags.stack flag) =
      runOnStack c.strict flag steps' (c.flags.stack flag)) :
    ((∃ next, c.visitSteps steps = (next, .ok ())) ↔
      ∃ next, c.visitSteps steps' = (next, .ok ())) ∧
    ∀ next next', c.visitSteps steps = (next, .ok ()) → c.visitSteps steps' = (next', .ok ()) →
      ∀ flag, next.flags.stack flag = next'.flags.stack flag := by
  refine ⟨?_, fun next next' hnext hnext' flag => ?_⟩
  · rw [visitSteps_ok_iff, visitSteps_ok_iff]
    exact forall_congr' fun flag => by rw [h flag]
  · have hstack := (runOnStack_of_visitSteps hnext).2 flag
    rw [h flag, (runOnStack_of_visitSteps hnext').2 flag] at hstack
    exact (Option.some.inj hstack).symm

/--
Exchanging neighbours without conflict, as often as one likes, changes neither whether a
path is balanced nor which flags it leaves open.  For a single exchange this holds from
every state of the checker: both orders succeed or both fail, and after success every
flag has the same stack.
-/
theorem exchange_sound :
    (∀ path path' : List Action, (∀ a ∈ path, a.Reachable) →
      Relation.ReflTransGen Action.Exchange path path' → ∀ strict,
        (checkPath path strict = .ok () ↔ checkPath path' strict = .ok ()) ∧
        ∀ flags, checkPath path strict = .error (.unpoppedFlags flags) ↔
          checkPath path' strict = .error (.unpoppedFlags flags)) ∧
    ∀ a b : Action, a.Reachable → b.Reachable → a.conflictsWith b = false → ∀ c : FlagChecker,
      ((∃ next, c.visitPath [a, b] = (next, .ok ())) ↔
        ∃ next, c.visitPath [b, a] = (next, .ok ())) ∧
      ∀ next next', c.visitPath [a, b] = (next, .ok ()) →
        c.visitPath [b, a] = (next', .ok ()) → ∀ flag,
          next.flags.stack flag = next'.flags.stack flag ∧
          next.flags.depth flag = next'.flags.depth flag ∧
          next.flags.top? flag = next'.flags.top? flag := by
  constructor
  · intro path path' hpath hexchanges strict
    have hsame := Action.runOnStack_eq_of_exchanges hexchanges
      (fun a ha => (hpath a ha).wellFormed) strict
    refine ⟨?_, fun flags => ?_⟩
    · simp only [checkPath_eq_ok_iff, hsame]
    · simp only [checkPath_eq_unpoppedFlags_iff, hsame]
  · intro a b ha hb h c
    have hsame : ∀ flag, runOnStack c.strict flag ([a, b].flatMap Action.children)
        (c.flags.stack flag) = runOnStack c.strict flag ([b, a].flatMap Action.children)
        (c.flags.stack flag) := fun flag =>
      (Action.Exchange.swap [] [] h).runOnStack_eq (by simp [ha.wellFormed, hb.wellFormed]) _ flag _
    obtain ⟨hok, hstacks⟩ := visitSteps_congr hsame
    rw [visitPath_eq_visitSteps, visitPath_eq_visitSteps]
    refine ⟨hok, fun next next' hnext hnext' flag => ?_⟩
    have hstack := hstacks next next' hnext hnext' flag
    exact ⟨hstack, congrArg List.length hstack, congrArg List.head? hstack⟩

/-- The push of another flag moves to the front of a path that leaves both flags open. -/
theorem exchange_sound_front :
    let first := Action.single (.pushFlag "in" "x")
    let second := Action.build [.filterFlag "in" "x", .pushFlag "in" "y"]
    let third := Action.single (.pushFlag "yield" "z")
    (∀ a ∈ [first, second, third], a.Reachable) ∧
      Relation.ReflTransGen Action.Exchange [first, second, third] [third, first, second] ∧
      checkPath [first, second, third] true = .error (.unpoppedFlags ["in", "yield"]) ∧
      checkPath [third, first, second] true = .error (.unpoppedFlags ["in", "yield"]) ∧
      ∀ c : FlagChecker, (∃ next, c.visitPath [second, third] = (next, .ok ())) ↔
        ∃ next, c.visitPath [third, second] = (next, .ok ()) := by
  intro first second third
  have hwellFormed : ∀ a ∈ [first, second, third], a.WellFormed := by decide
  have hreachable : ∀ a ∈ [first, second, third], a.Reachable := fun a ha =>
    Action.reachable_iff_wellFormed.2 (hwellFormed a ha)
  have hexchanges :
      Relation.ReflTransGen Action.Exchange [first, second, third] [third, first, second] :=
    (Relation.ReflTransGen.single (.swap [first] [] (by decide))).tail (.swap [] [second] (by decide))
  have hopen : checkPath [first, second, third] true =
      .error (.unpoppedFlags ["in", "yield"]) := by cbv
  refine ⟨hreachable, hexchanges, hopen, ?_, fun c => ?_⟩
  · exact ((exchange_sound.1 _ _ hreachable hexchanges true).2 _).1 hopen
  · exact (exchange_sound.2 second third (hreachable second (by simp)) (hreachable third (by simp))
      (by decide) c).1

end FlagChecker

end EdgeActions
