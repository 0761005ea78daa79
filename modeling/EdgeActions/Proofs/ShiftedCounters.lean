import EdgeActions.Proofs.FusionInvariance

/-!
# Counters under a shift

What a shift does to each step of an action, in numbers: the replay count of a reduction
and the offset of a call grow by the number of shifted symbols, and the shift overflows
if one of them cannot.  A refuted assertion in front prevents that, because the counters
behind it are never advanced; an assertion that holds is all that can be missing from
what is left.
-/

namespace EdgeActions

namespace Step

inductive Overflows (count : Nat) : Step → Prop where
  | reduce {reduction : Reduction} (h : UInt64.size ≤ reduction.replay.toNat + count) :
      Overflows count (.reduce reduction)
  | call {c : Call} {reads writes : List Resource} (h : UInt64.size ≤ c.offset.toNat + count) :
      Overflows count (.call c reads writes)

/-- A step and what is left of it: its counter has counted the symbols, all else is as it was. -/
inductive Moved (shifted : List Symbol) : Step → Step → Prop where
  | reduce {reduction : Reduction} {replay : Counter}
      (h : replay.toNat = reduction.replay.toNat + shifted.length) :
      Moved shifted (.reduce reduction) (.reduce { reduction with replay })
  | lookahead {assertion left : Lookahead} (h : assertion.shift shifted = .continues left) :
      Moved shifted (.lookahead assertion) (.lookahead left)
  | filterFlag (flag value : String) :
      Moved shifted (.filterFlag flag value) (.filterFlag flag value)
  | pushFlag (flag value : String) : Moved shifted (.pushFlag flag value) (.pushFlag flag value)
  | popFlag (flag : String) : Moved shifted (.popFlag flag) (.popFlag flag)
  | call {c : Call} {offset : Counter} {reads writes : List Resource}
      (h : offset.toNat = c.offset.toNat + shifted.length) :
      Moved shifted (.call c reads writes) (.call { c with offset } reads writes)

variable {shifted : List Symbol} {step left : Step}

theorem shift_eq_error_iff :
    step.shift shifted = .error {} ↔ step.Overflows shifted.length := by
  constructor
  · intro h
    cases step with
    | reduce reduction =>
      simp only [shift] at h
      cases hshift : reduction.shift shifted.length <;> rw [hshift] at h <;> cases h
      exact .reduce (Reduction.shift_eq_error_iff.1 hshift)
    | call c reads writes =>
      simp only [shift] at h
      cases hshift : c.shift shifted.length <;> rw [hshift] at h <;> cases h
      exact .call (Call.shift_eq_error_iff.1 hshift)
    | lookahead | filterFlag | pushFlag | popFlag => cases h
  · rintro (h | h)
    · rw [shift, Reduction.shift_eq_error_iff.2 h]
      rfl
    · rw [shift, Call.shift_eq_error_iff.2 h]
      rfl

theorem Advances.moved (h : Advances shifted step left) : Moved shifted step left := by
  cases h with
  | reduce hshift =>
    obtain ⟨replay, hadvance, rfl⟩ := Reduction.shift_eq_ok_iff.1 hshift
    exact .reduce (Counter.advance_eq_ok_iff.1 hadvance)
  | lookahead hshift => exact .lookahead hshift
  | filterFlag flag value => exact .filterFlag flag value
  | pushFlag flag value => exact .pushFlag flag value
  | popFlag flag => exact .popFlag flag
  | call hshift =>
    obtain ⟨offset, hadvance, rfl⟩ := Call.shift_eq_ok_iff.1 hshift
    exact .call (Counter.advance_eq_ok_iff.1 hadvance)

end Step

namespace Action

variable {a : Action} {shifted : List Symbol} {step : Step} {steps rest : List Step}
  {verdict : Bool}

/-- The shifted symbols decide the assertion that the steps start with. -/
def Decided (shifted : List Symbol) (verdict : Bool) (steps : List Step) : Prop :=
  ∃ assertion, steps.head? = some (.lookahead assertion) ∧
    assertion.shift shifted = .resolved verdict

theorem decided_cons_iff :
    Decided shifted verdict (step :: steps) ↔ step.shift shifted = .ok (.resolved verdict) := by
  rw [Decided, List.head?_cons, Step.shift_eq_resolved_iff]
  simp only [Option.some.injEq]

/-- No legal step behind another one is decided. -/
theorem Legal.decided_of_mem (hsteps : Legal steps) (hmem : step ∈ steps)
    (h : step.shift shifted = .ok (.resolved verdict)) : Decided shifted verdict steps := by
  cases steps with
  | nil => cases hmem
  | cons first others =>
    rcases List.mem_cons.1 hmem with rfl | hlater
    · exact decided_cons_iff.2 h
    · have hcondition := Step.isCondition_of_shift_resolved h
      rw [hsteps.conditionsFirst step hlater] at hcondition
      cases hcondition

/-! ### Outcomes for steps -/

/-- Steps of which none is refuted overflow if any of them does. -/
theorem shiftSteps_eq_error_iff
    (h : ∀ step ∈ steps, step.shift shifted ≠ .ok (.resolved false)) :
    shiftSteps shifted steps = .error {} ↔
      ∃ step ∈ steps, step.Overflows shifted.length := by
  induction steps with
  | nil => exact iff_of_false nofun (by simp)
  | cons step steps ih =>
    obtain ⟨hstep, hothers⟩ := List.forall_mem_cons.1 h
    rw [List.exists_mem_cons_iff, ← Step.shift_eq_error_iff, ← ih hothers, shiftSteps]
    rcases hfirst : step.shift shifted with _ | ⟨(_ | _) | left⟩
    · exact iff_of_true rfl (Or.inl rfl)
    · exact absurd hfirst hstep
    · simp
    · cases shiftSteps shifted steps <;> simp [Except.map]

/-- A refuted assertion in front refutes the steps, whatever stands behind it. -/
theorem shiftSteps_eq_refuted_iff (hsteps : Legal steps) :
    shiftSteps shifted steps = .ok (.resolved false) ↔ Decided shifted false steps := by
  constructor
  · intro h
    obtain ⟨-, step, hmem, hstep⟩ := exists_refuted h
    exact hsteps.decided_of_mem hmem hstep
  · intro h
    obtain ⟨first, others, rfl⟩ := List.exists_cons_of_ne_nil hsteps.nonempty
    rw [shiftSteps, decided_cons_iff.1 h]

theorem shiftSteps_overflows_iff (hsteps : Legal steps) :
    shiftSteps shifted steps = .error {} ↔
      (∃ step ∈ steps, step.Overflows shifted.length) ∧ ¬ Decided shifted false steps := by
  by_cases hrefuted : Decided shifted false steps
  · rw [(shiftSteps_eq_refuted_iff hsteps).2 hrefuted]
    exact iff_of_false nofun fun h => h.2 hrefuted
  · rw [shiftSteps_eq_error_iff fun step hmem h => hrefuted (hsteps.decided_of_mem hmem h)]
    exact (and_iff_left hrefuted).symm

/-- All that can be missing from what is left of legal steps is an assertion that holds. -/
theorem forall₂_moved_of_remains (hsteps : Legal steps) (h : Remains shifted steps rest) :
    (Decided shifted true steps → List.Forall₂ (Step.Moved shifted) steps.tail rest) ∧
      (¬ Decided shifted true steps → List.Forall₂ (Step.Moved shifted) steps rest) := by
  have hmoved {others rest : List Step} (hothers : Remains shifted others rest)
      (hconditions : ∀ step ∈ others, step.isCondition = false) :
      List.Forall₂ (Step.Moved shifted) others rest :=
    (hothers.forall₂_advances (hothers.length_eq hconditions)).imp fun _ _ => Step.Advances.moved
  cases h with
  | nil => exact absurd rfl hsteps.nonempty
  | keep hstep hothers =>
    rw [decided_cons_iff, Step.shift_eq_continues_iff.2 hstep]
    exact ⟨nofun, fun _ => .cons hstep.moved (hmoved hothers hsteps.conditionsFirst)⟩
  | drop hstep hothers =>
    rw [decided_cons_iff]
    exact ⟨fun _ => hmoved hothers hsteps.conditionsFirst, fun hopen => absurd hstep hopen⟩

/-- Nothing is left of steps exactly when an assertion that holds is all there is. -/
theorem remains_nil_iff (hsteps : Legal steps) :
    Remains shifted steps [] ↔ Decided shifted true steps ∧ steps.tail = [] := by
  constructor
  · intro h
    obtain ⟨hholds, hopen⟩ := forall₂_moved_of_remains hsteps h
    by_cases hdecided : Decided shifted true steps
    · exact ⟨hdecided, List.forall₂_nil_right_iff.1 (hholds hdecided)⟩
    · exact absurd (List.forall₂_nil_right_iff.1 (hopen hdecided)) hsteps.nonempty
  · rintro ⟨hdecided, hothers⟩
    obtain ⟨first, others, rfl⟩ := List.exists_cons_of_ne_nil hsteps.nonempty
    cases hothers
    exact .drop (decided_cons_iff.1 hdecided) .nil

/-! ### Outcomes for actions -/

/--
A shift overflows exactly when the counter of some step cannot take the shifted symbols
and the action does not start with an assertion that they refute.  Such an assertion
refutes the action, and an assertion that holds is the verdict if there is no other step.
All else goes on with its steps in their order, without an assertion that holds: each
reduction replays the shifted symbols, too, each offset of a call counts them, and no
other part of a step has changed.
-/
theorem shift_outcomes {a : Action} (ha : a.Reachable) (shifted : List Symbol) :
    (a.shift shifted = .error {} ↔
      (∃ step ∈ a.children, step.Overflows shifted.length) ∧
        ¬ Decided shifted false a.children) ∧
    (a.shift shifted = .ok (.resolved false) ↔ Decided shifted false a.children) ∧
    (a.shift shifted = .ok (.resolved true) ↔
      Decided shifted true a.children ∧ a.children.tail = []) ∧
    ∀ b, a.shift shifted = .ok (.continues b) →
      (Decided shifted true a.children →
        List.Forall₂ (Step.Moved shifted) a.children.tail b.children) ∧
      (¬ Decided shifted true a.children →
        List.Forall₂ (Step.Moved shifted) a.children b.children) := by
  have hlegal := ha.wellFormed.legal
  rw [← shiftSteps_overflows_iff hlegal, ← shiftSteps_eq_refuted_iff hlegal,
    ← remains_nil_iff hlegal, ← shiftSteps_eq_continues_iff]
  rcases shift_cases hlegal.nonempty shifted with
    ⟨hsteps, hshift⟩ | ⟨hsteps, hshift⟩ | ⟨hsteps, hshift⟩ | ⟨left, hsteps, hleft, hshift⟩
  all_goals rw [hsteps, hshift]
  · simp
  · simp
  · simp
  · refine ⟨by simp, by simp, by simp [hleft], fun b hb => ?_⟩
    cases hb
    exact forall₂_moved_of_remains hlegal (shiftSteps_eq_continues_iff.1 hsteps)

/-- Two symbols are one too many for the replay count, unless they refute the assertion. -/
theorem shift_outcomes_bound :
    let a := build [.lookahead ⟨.ofList [[.terminal "a"], [.terminal "b", .terminal "c"]], true⟩,
      .call ⟨"f", [0], none, 3⟩ ["r"] ["w"], .reduce ⟨.named "E", 2, 18446744073709551614⟩]
    a.Reachable ∧ a.shift [.terminal "b", .terminal "c"] = .error {} ∧
      a.shift [.terminal "b", .terminal "d"] = .ok (.resolved false) ∧
      ∃ b, a.shift [.terminal "a"] = .ok (.continues b) ∧
        List.Forall₂ (Step.Moved [.terminal "a"]) a.children.tail b.children := by
  intro a
  have ha : a.Reachable := reachable_iff_wellFormed.2 (wellFormed_build (by decide))
  have hreduce : Step.reduce ⟨.named "E", 2, 18446744073709551614⟩ ∈ a.children := by
    simp [a]
  have hopen : ¬ Decided [.terminal "b", .terminal "c"] false a.children := by
    rw [children_build, decided_cons_iff]
    decide
  have hdecided : Decided [.terminal "b", .terminal "d"] false a.children :=
    decided_cons_iff.2 (by decide)
  have hshift : a.shift [.terminal "a"] = .ok (.continues (build [
      .call ⟨"f", [0], none, 4⟩ ["r"] ["w"], .reduce ⟨.named "E", 2, 18446744073709551615⟩])) := by
    decide
  refine ⟨ha, (shift_outcomes ha _).1.2 ⟨⟨_, hreduce, .reduce (by decide)⟩, hopen⟩,
    (shift_outcomes ha _).2.1.2 hdecided, _, hshift, ?_⟩
  exact ((shift_outcomes ha _).2.2.2 _ hshift).1 (decided_cons_iff.2 (by decide))

end Action

end EdgeActions
