import EdgeActions.Action.Basic
import EdgeActions.Proofs.Seams

/-!
# What a shift leaves

The outcome of a shift as a relation: which steps can be left of one step and
which of a list of steps.  What is left of a step is a condition, updates the
stack, reads and writes as the step did, so what is left of legal steps is
legal, although some of them may be gone.
-/

namespace EdgeActions

namespace Step

/-- What a shift can leave of a step that it does not decide. -/
inductive Advances (shifted : List Symbol) : Step → Step → Prop where
  | reduce {reduction left : Reduction} (hshift : reduction.shift shifted.length = .ok left) :
      Advances shifted (.reduce reduction) (.reduce left)
  | lookahead {assertion left : Lookahead} (hshift : assertion.shift shifted = .continues left) :
      Advances shifted (.lookahead assertion) (.lookahead left)
  | filterFlag (flag value : String) :
      Advances shifted (.filterFlag flag value) (.filterFlag flag value)
  | pushFlag (flag value : String) :
      Advances shifted (.pushFlag flag value) (.pushFlag flag value)
  | popFlag (flag : String) : Advances shifted (.popFlag flag) (.popFlag flag)
  | call {c left : Call} {reads writes : List Resource}
      (hshift : c.shift shifted.length = .ok left) :
      Advances shifted (.call c reads writes) (.call left reads writes)

theorem shift_eq_continues_iff {step left : Step} {shifted : List Symbol} :
    step.shift shifted = .ok (.continues left) ↔ Advances shifted step left := by
  constructor
  · intro h
    cases step with
    | reduce reduction =>
      simp only [shift] at h
      cases hshift : reduction.shift shifted.length <;> rw [hshift] at h <;> cases h
      exact .reduce hshift
    | lookahead assertion =>
      simp only [shift] at h
      cases hshift : assertion.shift shifted <;> rw [hshift] at h <;> cases h
      exact .lookahead hshift
    | filterFlag flag value => cases h; exact .filterFlag flag value
    | pushFlag flag value => cases h; exact .pushFlag flag value
    | popFlag flag => cases h; exact .popFlag flag
    | call c reads writes =>
      simp only [shift] at h
      cases hshift : c.shift shifted.length <;> rw [hshift] at h <;> cases h
      exact .call hshift
  · rintro (hshift | hshift | _ | _ | _ | hshift)
    · rw [shift, hshift]; rfl
    · rw [shift, hshift]; rfl
    · rfl
    · rfl
    · rfl
    · rw [shift, hshift]; rfl

/-- Only assertions are decided. -/
theorem shift_eq_resolved_iff {step : Step} {shifted : List Symbol} {verdict : Bool} :
    step.shift shifted = .ok (.resolved verdict) ↔
      ∃ assertion, step = .lookahead assertion ∧
        assertion.shift shifted = .resolved verdict := by
  constructor
  · intro h
    have hcondition := isCondition_of_shift_resolved h
    cases step with
    | lookahead assertion =>
      refine ⟨assertion, rfl, ?_⟩
      simp only [shift] at h
      cases hshift : assertion.shift shifted <;> rw [hshift] at h <;> cases h
      rfl
    | filterFlag => cases h
    | reduce => cases hcondition
    | pushFlag => cases hcondition
    | popFlag => cases hcondition
    | call => cases hcondition
  · rintro ⟨assertion, rfl, hshift⟩
    rw [shift, hshift]
    rfl

namespace Advances

variable {shifted : List Symbol} {step left : Step}

theorem isCondition (h : Advances shifted step left) :
    left.isCondition = step.isCondition := by
  cases h <;> rfl

theorem updatesStack (h : Advances shifted step left) :
    left.updatesStack = step.updatesStack := by
  cases h <;> rfl

theorem reads (h : Advances shifted step left) : left.reads = step.reads := by
  cases h <;> rfl

/-- The non-terminal of a reduction stays, and so does its resource. -/
theorem writes (h : Advances shifted step left) : left.writes = step.writes := by
  cases h with
  | reduce hshift =>
    obtain ⟨replay, -, rfl⟩ := Reduction.shift_eq_ok_iff.1 hshift
    rfl
  | _ => rfl

theorem joins {next after : Step} (hstep : Advances shifted step left)
    (hnext : Advances shifted next after) : left.joins after = step.joins next := by
  rw [Step.joins, Step.joins, hstep.updatesStack, hnext.isCondition]

end Advances

end Step

namespace Action

variable {shifted : List Symbol} {steps rest : List Step}

/-- What a shift can leave of a list of steps: an assertion that holds is dropped. -/
inductive Remains (shifted : List Symbol) : List Step → List Step → Prop where
  | nil : Remains shifted [] []
  | keep {step left : Step} {steps rest : List Step} (hstep : step.Advances shifted left)
      (hsteps : Remains shifted steps rest) : Remains shifted (step :: steps) (left :: rest)
  | drop {step : Step} {steps rest : List Step}
      (hstep : step.shift shifted = .ok (.resolved true))
      (hsteps : Remains shifted steps rest) : Remains shifted (step :: steps) rest

theorem shiftSteps_eq_continues_iff :
    shiftSteps shifted steps = .ok (.continues rest) ↔ Remains shifted steps rest := by
  constructor
  · intro h
    induction steps generalizing rest with
    | nil =>
      cases h
      exact .nil
    | cons step steps ih =>
      unfold shiftSteps at h
      split at h
      case h_1 => cases h
      case h_2 => cases h
      case h_3 hstep => exact .drop hstep (ih h)
      case h_4 left hstep =>
        cases hsteps : shiftSteps shifted steps with
        | error => rw [hsteps] at h; cases h
        | ok outcome =>
          rw [hsteps] at h
          cases outcome <;> cases h
          exact .keep (Step.shift_eq_continues_iff.1 hstep) (ih hsteps)
  · intro h
    induction h with
    | nil => rfl
    | keep hstep _ ih =>
      rw [shiftSteps, Step.shift_eq_continues_iff.2 hstep, ih]
      rfl
    | drop hstep _ ih =>
      rw [shiftSteps, hstep]
      exact ih

/-- The only verdict on steps is the refutation of one of them. -/
theorem exists_refuted {verdict : Bool} (h : shiftSteps shifted steps = .ok (.resolved verdict)) :
    verdict = false ∧ ∃ step ∈ steps, step.shift shifted = .ok (.resolved false) := by
  induction steps with
  | nil => cases h
  | cons step steps ih =>
    rw [shiftSteps] at h
    rcases hfirst : step.shift shifted with _ | ⟨(_ | _) | left⟩ <;> rw [hfirst] at h
    · cases h
    · cases h
      exact ⟨rfl, step, List.mem_cons_self, hfirst⟩
    · obtain ⟨hverdict, refuted, hmem, hrefuted⟩ := ih h
      exact ⟨hverdict, refuted, List.mem_cons_of_mem step hmem, hrefuted⟩
    · rcases hothers : shiftSteps shifted steps with _ | ⟨_ | _⟩ <;> rw [hothers] at h <;> cases h
      obtain ⟨hverdict, refuted, hmem, hrefuted⟩ := ih hothers
      exact ⟨hverdict, refuted, List.mem_cons_of_mem step hmem, hrefuted⟩

namespace Remains

theorem length_le (h : Remains shifted steps rest) : rest.length ≤ steps.length := by
  induction h with
  | nil => exact Nat.le_refl _
  | keep _ _ ih => exact Nat.succ_le_succ ih
  | drop _ _ ih => exact Nat.le_succ_of_le ih

/-- Only conditions are dropped. -/
theorem length_eq (h : Remains shifted steps rest)
    (hsteps : ∀ step ∈ steps, step.isCondition = false) : rest.length = steps.length := by
  induction h with
  | nil => rfl
  | keep _ _ ih => exact congrArg Nat.succ (ih (List.forall_mem_cons.1 hsteps).2)
  | drop hstep _ _ =>
    have hcondition := Step.isCondition_of_shift_resolved hstep
    rw [(List.forall_mem_cons.1 hsteps).1] at hcondition
    cases hcondition

/-- Every step that is left comes from a step of the list. -/
theorem exists_advances (h : Remains shifted steps rest) {left : Step} (hmem : left ∈ rest) :
    ∃ step ∈ steps, step.Advances shifted left := by
  induction h with
  | nil => cases hmem
  | @keep step first steps rest hstep _ ih =>
    rcases List.mem_cons.1 hmem with rfl | hmem
    · exact ⟨step, List.mem_cons_self, hstep⟩
    · obtain ⟨origin, horigin, hleft⟩ := ih hmem
      exact ⟨origin, List.mem_cons_of_mem step horigin, hleft⟩
  | @drop step steps rest _ _ ih =>
    obtain ⟨origin, horigin, hleft⟩ := ih hmem
    exact ⟨origin, List.mem_cons_of_mem step horigin, hleft⟩

theorem pairwise_joins (h : Remains shifted steps rest)
    (hjoins : steps.Pairwise fun earlier later => earlier.joins later) :
    rest.Pairwise fun earlier later => earlier.joins later := by
  induction h with
  | nil => exact .nil
  | keep hstep hsteps ih =>
    obtain ⟨hfirst, hothers⟩ := List.pairwise_cons.1 hjoins
    refine List.pairwise_cons.2 ⟨fun left hleft => ?_, ih hothers⟩
    obtain ⟨origin, horigin, hadvances⟩ := hsteps.exists_advances hleft
    rw [hstep.joins hadvances]
    exact hfirst origin horigin
  | drop _ _ ih => exact ih (List.pairwise_cons.1 hjoins).2

/-- What is left of legal steps is legal, unless nothing is left. -/
theorem legal (h : Remains shifted steps rest) (hsteps : Legal steps) (hrest : rest ≠ []) :
    Legal rest :=
  legal_iff_pairwise.2 ⟨hrest, h.pairwise_joins (legal_iff_pairwise.1 hsteps).2⟩

end Remains

/-! ### Actions -/

variable {a b : Action}

theorem wellFormed_build (hsteps : Legal steps) : (build steps).WellFormed :=
  ⟨hsteps, rfl⟩

/-- What a shift leaves of an action is a step of its own or a sequence built anew. -/
theorem remains_of_shift (ha : a.children ≠ []) (h : a.shift shifted = .ok (.continues b)) :
    Remains shifted a.children b.children ∧ b.children ≠ [] ∧
      ((∃ step, b = single step) ∨ b = build b.children) := by
  cases a with
  | single step =>
    cases hstep : step.shift shifted with
    | error => rw [shift, hstep] at h; cases h
    | ok outcome =>
      rw [shift, hstep] at h
      cases outcome <;> cases h
      exact ⟨.keep (Step.shift_eq_continues_iff.1 hstep) .nil, List.cons_ne_nil _ _,
        Or.inl ⟨_, rfl⟩⟩
  | seq steps reads writes =>
    cases hsteps : shiftSteps shifted steps with
    | error => rw [shift, hsteps] at h; cases h
    | ok outcome =>
      rw [shift, hsteps] at h
      cases outcome with
      | resolved verdict => cases h
      | continues rest =>
        have hremains := shiftSteps_eq_continues_iff.1 hsteps
        simp only [Except.map, Except.ok.injEq] at h
        split at h
        case isTrue hdropped =>
          match rest, h with
          | [step], rfl => exact ⟨hremains, List.cons_ne_nil _ _, Or.inl ⟨step, rfl⟩⟩
          | _ :: _ :: _, rfl => exact ⟨hremains, List.cons_ne_nil _ _, Or.inr rfl⟩
        case isFalse hkept =>
          cases h
          have hlength := List.length_pos_of_ne_nil ha
          have hsame : rest.length = steps.length :=
            Nat.le_antisymm hremains.length_le (Nat.le_of_not_lt hkept)
          refine ⟨hremains, List.ne_nil_of_length_pos ?_, Or.inr rfl⟩
          rwa [children_build, hsame]

theorem WellFormed.shift (ha : a.WellFormed) (h : a.shift shifted = .ok (.continues b)) :
    b.WellFormed := by
  obtain ⟨hremains, hnonempty, ⟨step, rfl⟩ | hb⟩ := remains_of_shift ha.legal.nonempty h
  · trivial
  · rw [hb]
    exact wellFormed_build (hremains.legal ha.legal hnonempty)

end Action

end EdgeActions
