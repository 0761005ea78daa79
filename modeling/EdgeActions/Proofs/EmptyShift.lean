import EdgeActions.Proofs.FusionInvariance

/-!
# Shifts of no symbols

A shift of no symbols adds nothing to any counter and takes nothing off any candidate, so
an action goes on as it is.  The exception is an assertion that needs to see no symbol:
an empty candidate is complete before the first one, and without candidates there is
nothing to wait for.  Every shift decides such an assertion, and an action that starts
with it does not go on as it is.
-/

namespace EdgeActions

theorem Reduction.shift_zero (r : Reduction) : r.shift 0 = .ok r := by
  rw [shift, Counter.advance_zero]
  rfl

theorem Call.shift_zero (c : Call) : c.shift 0 = .ok c := by
  rw [shift, Counter.advance_zero]
  rfl

namespace Lookahead

variable {l : Lookahead} {verdict : Bool}

/-- The verdict of an assertion that is decided before any symbol is seen. -/
inductive Settled (l : Lookahead) : Bool → Prop where
  /-- The empty candidate is found in front of any symbols. -/
  | found (h : [] ∈ l.candidates.items) : Settled l l.accept
  | exhausted (h : l.candidates.items = []) : Settled l (!l.accept)

theorem matches_nil_iff : l.Matches [] ↔ [] ∈ l.candidates.items := by
  simp only [Matches, List.prefix_nil, exists_eq_right]

theorem remainders_nil (l : Lookahead) : l.remainders [] = l.candidates.items := by
  have hwhole : remainder? [] = some := funext fun candidate =>
    remainder?_eq_some_iff.2 (List.nil_append candidate).symm
  rw [remainders, hwhole, List.filterMap_some]

theorem shift_nil_eq_resolved_iff : l.shift [] = .resolved verdict ↔ l.Settled verdict := by
  rw [shift_eq_resolved_iff, matches_nil_iff, remainders_nil]
  constructor
  · rintro (⟨hfound, rfl⟩ | ⟨-, hnone, rfl⟩)
    · exact .found hfound
    · exact .exhausted hnone
  · rintro (hfound | hnone)
    · exact Or.inl ⟨hfound, rfl⟩
    · refine Or.inr ⟨?_, hnone, rfl⟩
      rw [hnone]
      exact List.not_mem_nil

/-- An assertion that is not settled keeps all of its candidates. -/
theorem shift_nil_of_not_settled (h : ∀ verdict, ¬ l.Settled verdict) :
    l.shift [] = .continues l := by
  cases hshift : l.shift [] with
  | resolved verdict => exact absurd (shift_nil_eq_resolved_iff.1 hshift) (h verdict)
  | continues rest =>
    obtain ⟨-, -, hitems, haccept⟩ := shift_eq_continues_iff.1 hshift
    rw [remainders_nil] at hitems
    have hcandidates : rest.candidates = l.candidates := OrderedSet.ext hitems
    cases rest
    cases hcandidates
    cases haccept
    rfl

end Lookahead

namespace Step

variable {step : Step}

/-- Nothing shifted leaves a step as it is, if it is no assertion that is settled. -/
theorem advances_nil
    (h : ∀ assertion verdict, step = .lookahead assertion → ¬ assertion.Settled verdict) :
    Advances [] step step := by
  cases step with
  | reduce reduction => exact .reduce reduction.shift_zero
  | lookahead assertion =>
    exact .lookahead (Lookahead.shift_nil_of_not_settled fun verdict => h assertion verdict rfl)
  | filterFlag flag value => exact .filterFlag flag value
  | pushFlag flag value => exact .pushFlag flag value
  | popFlag flag => exact .popFlag flag
  | call c reads writes => exact .call c.shift_zero

theorem advances_nil_of_not_isCondition (h : step.isCondition = false) : Advances [] step step := by
  refine advances_nil fun assertion verdict hstep => ?_
  rw [hstep] at h
  cases h

theorem shift_nil_of_settled {assertion : Lookahead} {verdict : Bool}
    (h : assertion.Settled verdict) :
    (lookahead assertion).shift [] = .ok (.resolved verdict) := by
  rw [shift, Lookahead.shift_nil_eq_resolved_iff.2 h]
  rfl

end Step

namespace Action

variable {a : Action} {assertion : Lookahead} {verdict : Bool}

/-- Nothing shifted leaves an action as it is, if it does not start with a settled assertion. -/
theorem shift_nil_of_not_settled (ha : a.WellFormed)
    (h : ∀ assertion verdict, a.children.head? = some (.lookahead assertion) →
      ¬ assertion.Settled verdict) :
    a.shift [] = .ok (.continues a) := by
  have hsteps : List.Forall₂ (Step.Advances []) a.children a.children := by
    have hconditions := ha.legal.conditionsFirst
    obtain ⟨first, rest, hchildren⟩ := List.exists_cons_of_ne_nil ha.legal.nonempty
    rw [hchildren] at h hconditions ⊢
    rw [List.forall₂_same, List.forall_mem_cons]
    constructor
    · refine Step.advances_nil fun assertion verdict hfirst => h assertion verdict ?_
      rw [hfirst]
      rfl
    · exact fun step hstep => Step.advances_nil_of_not_isCondition (hconditions step hstep)
  have hsame : Reindexed [] a a := by
    cases a with
    | single step => exact .single (List.forall₂_cons.1 hsteps).1
    | seq steps reads writes =>
      have hbuilt : Reindexed [] (seq steps reads writes) (build steps) := .seq hsteps
      rwa [← ha.2] at hbuilt
  exact (reindexed_iff.1 hsame).1

/-- A settled assertion in front refutes the steps or is dropped, and no other step changes. -/
theorem shiftSteps_nil_of_settled (ha : Legal a.children)
    (hfirst : a.children.head? = some (.lookahead assertion)) (h : assertion.Settled verdict) :
    shiftSteps [] a.children =
      if verdict = true then .ok (.continues a.children.tail) else .ok (.resolved false) := by
  have hconditions := ha.conditionsFirst
  obtain ⟨rest, hchildren⟩ := List.head?_eq_some_iff.1 hfirst
  rw [hchildren] at hconditions ⊢
  rw [shiftSteps, Step.shift_nil_of_settled h]
  cases verdict with
  | false => rfl
  | true =>
    have hrest : List.Forall₂ (Step.Advances []) rest rest :=
      List.forall₂_same.2 fun step hstep =>
        Step.advances_nil_of_not_isCondition (hconditions step hstep)
    exact shiftSteps_eq_continues_iff.2 (remains_of_forall₂ hrest)

/-- A settled assertion in front refutes the action, or the other steps are left of it. -/
theorem shift_nil_of_settled (ha : Legal a.children)
    (hfirst : a.children.head? = some (.lookahead assertion)) (h : assertion.Settled verdict) :
    a.shift [] = .ok (if verdict = true then ofRemaining a.children.tail else .resolved false) := by
  cases a with
  | single step =>
    cases hfirst
    rw [shift, Step.shift_nil_of_settled h]
    cases verdict with
    | false => rfl
    | true => rfl
  | seq steps reads writes =>
    have hfewer : steps.tail.length < steps.length := by
      rw [List.length_tail]
      exact Nat.sub_lt (List.length_pos_of_ne_nil ha.nonempty) Nat.one_pos
    have hsteps := shiftSteps_nil_of_settled ha hfirst h
    rw [children_seq] at hsteps
    rw [shift, hsteps, children_seq]
    cases verdict with
    | false => rfl
    | true => exact congrArg Except.ok (if_pos hfewer)

theorem children_of_ofRemaining {steps : List Step} {rest : Action}
    (h : ofRemaining steps = .continues rest) : rest.children = steps := by
  unfold ofRemaining at h
  split at h
  · cases h
  · cases h; rfl
  · cases h; rfl

/-- An action with fewer steps than another one does not equal it. -/
theorem not_beq_of_children_eq_tail {rest : Action} (ha : a.children ≠ [])
    (hrest : rest.children = a.children.tail) : ¬ (rest == a) = true := by
  intro hsame
  have hlength := (beq_iff_relisted.1 hsame).children.length_eq
  rw [hrest, List.length_tail] at hlength
  have hpos := List.length_pos_of_ne_nil ha
  omega

/--
An action goes on as it is when nothing is shifted, unless it starts with an assertion
that has no candidates or the empty one among them.  Such an assertion is decided, as it
is by any other shift.  Where it does not hold, neither does the action.  Where it holds,
so does an action without other steps; of another one the other steps are left, a step of
its own or a sequence.
-/
theorem shift_nothing (ha : a.Reachable) :
    ((∃ b, a.shift [] = .ok (.continues b) ∧ (b == a) = true) ↔
      ∀ assertion verdict, a.children.head? = some (.lookahead assertion) →
        ¬ assertion.Settled verdict) ∧
    ∀ assertion verdict, a.children.head? = some (.lookahead assertion) →
      assertion.Settled verdict →
      (verdict = false → a.shift [] = .ok (.resolved false)) ∧
      (verdict = true →
        (a.children.tail = [] → a.shift [] = .ok (.resolved true)) ∧
        (∀ step, a.children.tail = [step] → a.shift [] = .ok (.continues (single step))) ∧
        (1 < a.children.tail.length →
          a.shift [] = .ok (.continues (build a.children.tail)))) := by
  have hwell := ha.wellFormed
  refine ⟨⟨?_, fun h => ⟨a, shift_nil_of_not_settled hwell h, BEq.rfl⟩⟩, ?_⟩
  · rintro ⟨b, hshift, hsame⟩ assertion verdict hfirst hsettled
    rw [shift_nil_of_settled hwell.legal hfirst hsettled] at hshift
    have hdecided := Except.ok.inj hshift
    split at hdecided
    case isTrue =>
      have hrest := children_of_ofRemaining hdecided
      exact not_beq_of_children_eq_tail hwell.legal.nonempty hrest hsame
    case isFalse => cases hdecided
  · intro assertion verdict hfirst hsettled
    rw [shift_nil_of_settled hwell.legal hfirst hsettled]
    refine ⟨fun hrefuted => ?_, fun hholds => ?_⟩
    · rw [hrefuted, if_neg Bool.false_ne_true]
    · rw [if_pos hholds]
      refine ⟨fun hnone => ?_, fun step hone => ?_, fun hseveral => ?_⟩
      · rw [hnone, ofRemaining]
      · rw [hone, ofRemaining]
      · rw [ofRemaining_of_one_lt hseveral]

/-- Nothing is left of an assertion with the empty candidate, which is found at once. -/
theorem shift_nothing_found :
    ¬ ∀ a : Action, a.Reachable → ∃ b, a.shift [] = .ok (.continues b) ∧ (b == a) = true := by
  intro hidentity
  let found := single (.lookahead ⟨.ofList [[]], true⟩)
  have hresolved : found.shift [] = .ok (.resolved true) := rfl
  obtain ⟨b, hshift, -⟩ := hidentity found (reachable_single _)
  rw [hresolved] at hshift
  cases hshift

/-- With its replay count at the bound a sequence goes on as it is, or without its assertion. -/
theorem shift_nothing_bound :
    let steps := [Step.call ⟨"f", [0], none, 3⟩ ["r"] ["w"],
      .reduce ⟨.named "E", 2, 18446744073709551615⟩]
    let undecided : Lookahead := ⟨.ofList [[.terminal "a"], [.terminal "b", .terminal "c"]], true⟩
    let kept := build (.lookahead undecided :: steps)
    let dropped := build (.lookahead ⟨.empty, false⟩ :: steps)
    kept.Reachable ∧ dropped.Reachable ∧
      (∃ b, kept.shift [] = .ok (.continues b) ∧ (b == kept) = true) ∧
      dropped.shift [] = .ok (.continues (build steps)) := by
  intro steps undecided kept dropped
  have hkept : kept.Reachable := reachable_iff_wellFormed.2 (wellFormed_build (by decide))
  have hdropped : dropped.Reachable := reachable_iff_wellFormed.2 (wellFormed_build (by decide))
  have hundecided : ∀ verdict, ¬ undecided.Settled verdict := by
    rintro verdict (hfound | hnone)
    · exact absurd hfound (by decide)
    · cases hnone
  refine ⟨hkept, hdropped, (shift_nothing hkept).1.2 ?_, ?_⟩
  · intro assertion verdict hfirst
    cases hfirst
    exact hundecided verdict
  · obtain ⟨-, hholds⟩ := (shift_nothing hdropped).2 ⟨.empty, false⟩ true rfl (.exhausted rfl)
    obtain ⟨-, -, hseveral⟩ := hholds rfl
    exact hseveral (Nat.lt_succ_self 1)

end Action

end EdgeActions
