import EdgeActions.FlagChecker
import EdgeActions.Proofs.Reachable

/-!
# What a shift leaves alone

A shift drops nothing but assertions, which have no resources and mean nothing to the
checker; what it leaves of any other step has the resources and the effect on the flags
of that step.  So an action that goes on keeps its dependencies, its conflicts and the
verdicts on every path that it is a part of.
-/

namespace EdgeActions

namespace Step

variable {shifted : List Symbol} {step left : Step}

/-- A step that is decided has no resources. -/
theorem reads_of_shift_resolved {verdict : Bool}
    (h : step.shift shifted = .ok (.resolved verdict)) : step.reads = [] := by
  obtain ⟨assertion, rfl, -⟩ := shift_eq_resolved_iff.1 h
  rfl

theorem writes_of_shift_resolved {verdict : Bool}
    (h : step.shift shifted = .ok (.resolved verdict)) : step.writes = [] := by
  obtain ⟨assertion, rfl, -⟩ := shift_eq_resolved_iff.1 h
  rfl

theorem visitStep_of_shift_resolved {verdict : Bool}
    (h : step.shift shifted = .ok (.resolved verdict)) (c : FlagChecker) :
    c.visitStep step = .ok c := by
  obtain ⟨assertion, rfl, -⟩ := shift_eq_resolved_iff.1 h
  rfl

namespace Advances

theorem visitStep (h : Advances shifted step left) (c : FlagChecker) :
    c.visitStep left = c.visitStep step := by
  cases h <;> rfl

/-- Of a reduction the same reduction is left, with more symbols to replay. -/
theorem exists_replay {reduction : Reduction} (h : Advances shifted (.reduce reduction) left) :
    ∃ replay, left = .reduce { reduction with replay } ∧
      replay.toNat = reduction.replay.toNat + shifted.length := by
  cases h with
  | reduce hshift =>
    obtain ⟨replay, hadvance, rfl⟩ := Reduction.shift_eq_ok_iff.1 hshift
    exact ⟨replay, rfl, Counter.advance_eq_ok_iff.1 hadvance⟩

end Advances

end Step

namespace Action

variable {shifted : List Symbol} {steps rest : List Step}

namespace Remains

/-- What steps have and decided steps lack is the same after a shift, in the same order. -/
theorem flatMap_eq {f : Step → List Resource} (h : Remains shifted steps rest)
    (hkeep : ∀ {step left : Step}, step.Advances shifted left → f left = f step)
    (hdrop : ∀ {step : Step}, step.shift shifted = .ok (.resolved true) → f step = []) :
    rest.flatMap f = steps.flatMap f := by
  induction h with
  | nil => rfl
  | keep hstep _ ih => rw [List.flatMap_cons, List.flatMap_cons, hkeep hstep, ih]
  | drop hstep _ ih => rw [List.flatMap_cons, hdrop hstep, List.nil_append, ih]

theorem visitSteps (h : Remains shifted steps rest) (c : FlagChecker) :
    c.visitSteps rest = c.visitSteps steps := by
  induction h generalizing c with
  | nil => rfl
  | keep hstep _ ih => exact FlagChecker.visitSteps_cons_congr (hstep.visitStep c) ih
  | drop hstep _ ih =>
    rw [FlagChecker.visitSteps, Step.visitStep_of_shift_resolved hstep]
    exact ih c

/-- What is left last is left of the last step, because no later step can be dropped. -/
theorem exists_getLast? (h : Remains shifted steps rest) (hsteps : Legal steps) (hrest : rest ≠ []) :
    ∃ step left, steps.getLast? = some step ∧ rest.getLast? = some left ∧
      step.Advances shifted left := by
  induction h with
  | nil => exact absurd rfl hrest
  | @keep step left steps rest hstep hremains ih =>
    cases steps with
    | nil =>
      cases hremains
      exact ⟨step, left, rfl, rfl, hstep⟩
    | cons second steps =>
      -- a step behind another one is no condition and so is not dropped
      have hlength := hremains.length_eq hsteps.conditionsFirst
      have hothers : rest ≠ [] := List.ne_nil_of_length_pos (hlength ▸ Nat.succ_pos _)
      obtain ⟨last, last', hlast, hlast', hadvances⟩ :=
        ih (legal_cons_cons_iff.1 hsteps).2 hothers
      refine ⟨last, last', ?_, ?_, hadvances⟩
      · rw [List.getLast?_cons_cons, hlast]
      · obtain ⟨next, others, rfl⟩ := List.exists_cons_of_ne_nil hothers
        rw [List.getLast?_cons_cons, hlast']
  | @drop step steps rest hstep hremains ih =>
    cases steps with
    | nil =>
      cases hremains
      exact absurd rfl hrest
    | cons second steps =>
      rw [List.getLast?_cons_cons]
      exact ih (legal_cons_cons_iff.1 hsteps).2 hrest

end Remains

/-! ### Actions -/

variable {a b : Action}

theorem reads_eq_of_shift (ha : a.WellFormed) (h : a.shift shifted = .ok (.continues b)) :
    b.reads = a.reads := by
  obtain ⟨hremains, -⟩ := remains_of_shift ha.legal.nonempty h
  rw [(ha.shift h).reads_eq, ha.reads_eq]
  exact hremains.flatMap_eq Step.Advances.reads Step.reads_of_shift_resolved

theorem writes_eq_of_shift (ha : a.WellFormed) (h : a.shift shifted = .ok (.continues b)) :
    b.writes = a.writes := by
  obtain ⟨hremains, -⟩ := remains_of_shift ha.legal.nonempty h
  rw [(ha.shift h).writes_eq, ha.writes_eq]
  exact hremains.flatMap_eq Step.Advances.writes Step.writes_of_shift_resolved

theorem exists_getLast?_of_shift (ha : a.WellFormed) (h : a.shift shifted = .ok (.continues b)) :
    ∃ step left, a.children.getLast? = some step ∧ b.children.getLast? = some left ∧
      step.Advances shifted left := by
  obtain ⟨hremains, hnonempty, -⟩ := remains_of_shift ha.legal.nonempty h
  exact hremains.exists_getLast? ha.legal hnonempty

theorem updatesStack_eq_of_shift (ha : a.WellFormed) (h : a.shift shifted = .ok (.continues b)) :
    b.updatesStack = a.updatesStack := by
  obtain ⟨step, left, hstep, hleft, hadvances⟩ := exists_getLast?_of_shift ha h
  rw [updatesStack, updatesStack, hstep, hleft]
  exact hadvances.updatesStack

/-- The reduction of an action stays its reduction and only replays more symbols. -/
theorem reduceWith_of_shift (ha : a.WellFormed) (h : a.shift shifted = .ok (.continues b))
    (hupdates : a.updatesStack = true) :
    ∃ reduction replay, a.reduceWith = .ok reduction ∧
      b.reduceWith = .ok { reduction with replay } ∧
      replay.toNat = reduction.replay.toNat + shifted.length := by
  obtain ⟨step, left, hstep, hleft, hadvances⟩ := exists_getLast?_of_shift ha h
  rw [updatesStack, hstep] at hupdates
  cases step with
  | reduce reduction =>
    obtain ⟨replay, rfl, hreplay⟩ := hadvances.exists_replay
    exact ⟨reduction, replay, reduceWith_eq_ok_iff.2 hstep, reduceWith_eq_ok_iff.2 hleft, hreplay⟩
  | lookahead => cases hupdates
  | filterFlag => cases hupdates
  | pushFlag => cases hupdates
  | popFlag => cases hupdates
  | call => cases hupdates

theorem visit_eq_of_shift (ha : a.WellFormed) (h : a.shift shifted = .ok (.continues b))
    (c : FlagChecker) : c.visit b = c.visit a := by
  obtain ⟨hremains, -⟩ := remains_of_shift ha.legal.nonempty h
  exact hremains.visitSteps c

end Action

/-- Edges that are followed alike make paths that are followed alike. -/
theorem FlagChecker.visitPath_eq_of_forall₂ {path path' : List Action}
    (h : List.Forall₂ (fun a b => ∀ c : FlagChecker, c.visit b = c.visit a) path path')
    (c : FlagChecker) : c.visitPath path' = c.visitPath path := by
  induction h generalizing c with
  | nil => rfl
  | cons hvisit _ ih =>
    rw [visitPath, visitPath, hvisit c]
    split
    case h_1 next _ => exact ih next
    case h_2 => rfl

namespace Action

/--
An action that goes on after a shift reads and writes the same resources in the same
order, and so has the same conflicts.  It performs the same reduction, if any, which
replays the shifted symbols, too.  The checker follows it in the same way from every
state, so a path has the same verdict before and after its actions are shifted.
-/
theorem shift_keeps_dependencies :
    (∀ a b : Action, a.Reachable → ∀ shifted, a.shift shifted = .ok (.continues b) →
      b.reads = a.reads ∧
      b.writes = a.writes ∧
      b.updatesStack = a.updatesStack ∧
      (a.updatesStack = true → ∃ reduction replay, a.reduceWith = .ok reduction ∧
        b.reduceWith = .ok { reduction with replay } ∧
        replay.toNat = reduction.replay.toNat + shifted.length) ∧
      (∀ c : Action, b.conflictsWith c = a.conflictsWith c ∧
        c.conflictsWith b = c.conflictsWith a) ∧
      ∀ c : FlagChecker, c.visit b = c.visit a) ∧
    ∀ path path' : List Action,
      List.Forall₂ (fun a b => a.Reachable ∧ ∃ shifted, a.shift shifted = .ok (.continues b))
        path path' →
      ∀ strict, FlagChecker.checkPath path' strict = FlagChecker.checkPath path strict := by
  refine ⟨fun a b hreachable shifted h => ?_, fun path path' hpath strict => ?_⟩
  · have ha := hreachable.wellFormed
    have hreads := reads_eq_of_shift ha h
    have hwrites := writes_eq_of_shift ha h
    refine ⟨hreads, hwrites, updatesStack_eq_of_shift ha h, reduceWith_of_shift ha h,
      fun c => ?_, visit_eq_of_shift ha h⟩
    simp only [conflictsWith, hreads, hwrites, and_self]
  · have hvisits :
        List.Forall₂ (fun a b => ∀ c : FlagChecker, c.visit b = c.visit a) path path' := by
      refine hpath.imp fun a b hshifts => ?_
      obtain ⟨ha, _, h⟩ := hshifts
      exact visit_eq_of_shift ha.wellFormed h
    rw [FlagChecker.checkPath, FlagChecker.visitPath_eq_of_forall₂ hvisits, FlagChecker.checkPath]

/-- The assertion of a sequence is dropped and a reduction with nothing before it is left. -/
theorem shift_keeps_dependencies_unwrapped :
    let a := build [.lookahead ⟨.ofList [[.terminal "a"], [.terminal "b", .terminal "c"]], true⟩,
      .reduce ⟨.named "E", 2, 1⟩]
    let b := single (.reduce ⟨.named "E", 2, 2⟩)
    a.Reachable ∧ a.shift [.terminal "a"] = .ok (.continues b) ∧
      b.writes = ["nt_E"] ∧ b.writes = a.writes ∧
      (∃ reduction replay, a.reduceWith = .ok reduction ∧
        b.reduceWith = .ok { reduction with replay } ∧
        replay.toNat = reduction.replay.toNat + 1) ∧
      FlagChecker.checkPath [single (.pushFlag "in" "x"), b] true =
        FlagChecker.checkPath [single (.pushFlag "in" "x"), a] true := by
  intro a b
  have ha : a.Reachable := reachable_iff_wellFormed.2 (by decide)
  have hshift : a.shift [.terminal "a"] = .ok (.continues b) := by decide
  obtain ⟨hactions, hpaths⟩ := shift_keeps_dependencies
  obtain ⟨-, hwrites, -, hreduction, -⟩ := hactions a b ha _ hshift
  refine ⟨ha, hshift, by decide, hwrites, hreduction (by decide), ?_⟩
  apply hpaths
  refine .cons ⟨reachable_single _, [.terminal "a"], rfl⟩ (.cons ⟨ha, _, hshift⟩ .nil)

end Action

end EdgeActions
