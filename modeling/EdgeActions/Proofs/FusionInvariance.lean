import EdgeActions.Proofs.FusionShift
import EdgeActions.Proofs.Interchange

/-!
# What does not depend on fusion

Fusion only moves the boundaries between edges.  The checker follows steps, so it sees
no difference, not even where it stops in the middle of an edge.  Bringing edges up to
date sees none either as long as nothing is decided: shifted actions fuse to the
shifted edges.
-/

namespace EdgeActions

namespace FlagChecker

/-- Where the edges of a path end and how its calls list their resources makes no difference. -/
theorem visitPath_eq_of_relisted {path path' : List Action}
    (h : List.Forall₂ Step.Relisted (path.flatMap Action.children)
      (path'.flatMap Action.children)) (c : FlagChecker) :
    c.visitPath path = c.visitPath path' := by
  rw [visitPath_eq_visitSteps, visitPath_eq_visitSteps, visitSteps_eq_of_relisted h]

theorem visitPath_fuseEdges (path : List Action) (c : FlagChecker) :
    c.visitPath (Action.fuseEdges path) = c.visitPath path := by
  rw [visitPath_eq_visitSteps, visitPath_eq_visitSteps, Action.flatMap_children_fuseEdges]

/--
Paths of equal steps, distributed over edges in any two ways, leave the checker in the
same state with the same result, wherever it starts and wherever it stops, and have the
same verdict.  In particular a path can be fused before it is checked.
-/
theorem checkPath_ignores_boundaries :
    (∀ path path' : List Action,
      List.Forall₂ (· == ·) (path.flatMap Action.children) (path'.flatMap Action.children) →
      (∀ strict, checkPath path strict = checkPath path' strict) ∧
      ∀ c : FlagChecker, c.visitPath path = c.visitPath path') ∧
    ∀ path : List Action,
      (∀ strict, checkPath (Action.fuseEdges path) strict = checkPath path strict) ∧
      ∀ c : FlagChecker, c.visitPath (Action.fuseEdges path) = c.visitPath path := by
  rw [Step.beq_eq_relisted]
  refine ⟨fun path path' hsteps => ?_, fun path => ?_⟩
  · have hvisit := visitPath_eq_of_relisted hsteps
    exact ⟨fun strict => by rw [checkPath, hvisit, checkPath], hvisit⟩
  · have hvisit := visitPath_fuseEdges path
    exact ⟨fun strict => by rw [checkPath, hvisit, checkPath], hvisit⟩

/-- A pop fails in the middle of an edge, and what the edge did before it stays done. -/
theorem checkPath_ignores_boundaries_stopped :
    let call := Step.call ⟨"f", [], none, 0⟩ ["x", "y"] []
    let call' := Step.call ⟨"f", [], none, 0⟩ ["y", "x"] []
    let path := [Action.single (.pushFlag "in" "x"), .single call, .single (.popFlag "yield"),
      .single (.popFlag "in")]
    let path' := [Action.build [.pushFlag "in" "x", call', .popFlag "yield"],
      .single (.popFlag "in")]
    List.Forall₂ (· == ·) (path.flatMap Action.children) (path'.flatMap Action.children) ∧
      (start true).visitPath path = (⟨⟨[("in", "x")]⟩, true⟩, .error (.unbalancedPop "yield")) ∧
      (start true).visitPath path' = (⟨⟨[("in", "x")]⟩, true⟩, .error (.unbalancedPop "yield")) ∧
      checkPath path true = checkPath path' true := by
  intro call call' path path'
  have hcall : (call == call') = true :=
    Step.beq_iff_relisted.2 (.call _ (.swap _ _ _) (.refl _))
  have hself : ∀ step : Step, (step == step) = true := fun step =>
    Step.beq_iff_relisted.2 (.same step)
  have hsteps : List.Forall₂ (· == ·) (path.flatMap Action.children)
      (path'.flatMap Action.children) :=
    .cons (hself _) (.cons hcall (.cons (hself _) (.cons (hself _) .nil)))
  have hstopped : (start true).visitPath path =
      (⟨⟨[("in", "x")]⟩, true⟩, .error (.unbalancedPop "yield")) := by decide
  obtain ⟨hchecks, hvisits⟩ := checkPath_ignores_boundaries.1 path path' hsteps
  exact ⟨hsteps, hstopped, (hvisits (start true)).symm.trans hstopped, hchecks true⟩

end FlagChecker

namespace Action

variable {shifted : List Symbol} {steps rest : List Step} {a a' b b' : Action}

/-! ### Shifts that decide nothing -/

/-- What is left of steps of which none is dropped is left of them one by one. -/
theorem Remains.forall₂_advances (h : Remains shifted steps rest)
    (hlength : rest.length = steps.length) :
    List.Forall₂ (Step.Advances shifted) steps rest := by
  induction h with
  | nil => exact .nil
  | keep hstep _ ih => exact .cons hstep (ih (Nat.succ.inj hlength))
  | drop _ hsteps _ =>
    rw [List.length_cons] at hlength
    exact absurd hsteps.length_le (by omega)

theorem remains_of_forall₂ (h : List.Forall₂ (Step.Advances shifted) steps rest) :
    Remains shifted steps rest := by
  induction h with
  | nil => exact .nil
  | cons hstep _ ih => exact .keep hstep ih

theorem legal_iff_of_advances (h : List.Forall₂ (Step.Advances shifted) steps rest) :
    Legal steps ↔ Legal rest := by
  induction h with
  | nil => exact Iff.rfl
  | cons hstep hsteps ih =>
    cases hsteps with
    | nil => exact iff_of_true (legal_singleton _) (legal_singleton _)
    | cons hnext hothers =>
      rw [legal_cons_cons_iff, legal_cons_cons_iff, hstep.joins hnext, ih]

/-- What a shift leaves of an action when it drops none of its steps. -/
inductive Reindexed (shifted : List Symbol) : Action → Action → Prop where
  | single {step left : Step} (h : step.Advances shifted left) :
      Reindexed shifted (single step) (single left)
  | seq {steps rest : List Step} {reads writes : List Resource}
      (h : List.Forall₂ (Step.Advances shifted) steps rest) :
      Reindexed shifted (seq steps reads writes) (build rest)

theorem children_of_regroup {count : Nat} (h : regroup count rest = .continues a) :
    a.children = rest := by
  cases rest with
  | nil =>
    unfold regroup at h
    split at h <;> cases h
    rfl
  | cons step others =>
    obtain ⟨left, hleft, hchildren⟩ :=
      exists_regroup_eq_continues count (List.cons_ne_nil step others)
    rw [hleft] at h
    cases h
    exact hchildren

theorem reindexed_iff :
    Reindexed shifted a b ↔
      a.shift shifted = .ok (.continues b) ∧ b.children.length = a.children.length := by
  constructor
  · rintro (hstep | hsteps)
    · refine ⟨?_, rfl⟩
      rw [shift, Step.shift_eq_continues_iff.2 hstep]
      rfl
    · refine ⟨?_, hsteps.length_eq.symm⟩
      rw [shift_seq, shiftSteps_eq_continues_iff.2 (remains_of_forall₂ hsteps), hsteps.length_eq]
      exact congrArg Except.ok (regroup_length _)
  · rintro ⟨hshift, hlength⟩
    cases a with
    | single step =>
      rw [shift] at hshift
      rcases hstep : step.shift shifted with _ | ⟨_ | left⟩ <;> rw [hstep] at hshift <;>
        cases hshift
      exact .single (Step.shift_eq_continues_iff.1 hstep)
    | seq steps reads writes =>
      rw [shift_seq] at hshift
      rcases hsteps : shiftSteps shifted steps with _ | ⟨_ | rest⟩ <;> rw [hsteps] at hshift
      · cases hshift
      · cases hshift
      · have hregroup : regroup steps.length rest = .continues b := by
          simpa [Shifted.andThen] using hshift
        rw [children_of_regroup hregroup, children_seq] at hlength
        rw [← hlength, regroup_length] at hregroup
        cases hregroup
        exact .seq ((shiftSteps_eq_continues_iff.1 hsteps).forall₂_advances hlength)

namespace Reindexed

theorem children (h : Reindexed shifted a a') :
    List.Forall₂ (Step.Advances shifted) a.children a'.children := by
  cases h with
  | single hstep => exact .cons hstep .nil
  | seq hsteps => exact hsteps

/-- Reindexed actions fuse when the actions do, to what is left of the fused action. -/
theorem fuse? (ha : Reindexed shifted a a') (hb : Reindexed shifted b b') :
    Option.Rel (Reindexed shifted) (a.fuse? b) (a'.fuse? b') := by
  have hsteps := List.rel_append ha.children hb.children
  by_cases hlegal : Legal (a.children ++ b.children)
  · have hlegal' := (legal_iff_of_advances hsteps).1 hlegal
    rw [fuse?_eq_some_iff.2 ⟨hlegal, rfl⟩, fuse?_eq_some_iff.2 ⟨hlegal', rfl⟩]
    exact .some (.seq hsteps)
  · have hillegal' := mt (legal_iff_of_advances hsteps).2 hlegal
    rw [fuse?_eq_none_iff_not_legal.2 hlegal, fuse?_eq_none_iff_not_legal.2 hillegal']
    exact .none

end Reindexed

/--
When a shift drops no step of any action of a chain, it drops none of the fused edges
either, and what it leaves of the edges are the edges fused from what it leaves of the
actions.
-/
theorem shift_fuseEdges {shifted : List Symbol} {actions lefts : List Action}
    (h : List.Forall₂ (fun a left => a.shift shifted = .ok (.continues left) ∧
      left.children.length = a.children.length) actions lefts) :
    List.Forall₂ (fun edge left => edge.shift shifted = .ok (.continues left) ∧
      left.children.length = edge.children.length) (fuseEdges actions) (fuseEdges lefts) := by
  have hactions : List.Forall₂ (Reindexed shifted) actions lefts :=
    h.imp fun _ _ hleft => reindexed_iff.2 hleft
  have hedges := forall₂_fuseEdges Reindexed.fuse? hactions
  exact hedges.imp fun _ _ hleft => reindexed_iff.1 hleft

/-- Three of four actions become one edge, on which the shift narrows the assertion. -/
theorem shift_fuseEdges_narrowed :
    let assertion : Lookahead :=
      ⟨.ofList [[.terminal "a", .terminal "b"], [.terminal "a", .terminal "c"], [.terminal "d"]], true⟩
    let narrowed : Lookahead := ⟨.ofList [[.terminal "b"], [.terminal "c"]], true⟩
    let actions := [single (.popFlag "in"), single (.lookahead assertion),
      build [.call ⟨"f", [0], none, 0⟩ ["x"] ["y"]], single (.reduce ⟨.named "E", 2, 0⟩)]
    let lefts := [single (.popFlag "in"), single (.lookahead narrowed),
      build [.call ⟨"f", [0], none, 1⟩ ["x"] ["y"]], single (.reduce ⟨.named "E", 2, 1⟩)]
    List.Forall₂ (fun a left => a.shift [.terminal "a"] = .ok (.continues left) ∧
        left.children.length = a.children.length) actions lefts ∧
      (fuseEdges actions).length = 2 ∧
      List.Forall₂ (fun edge left => edge.shift [.terminal "a"] = .ok (.continues left) ∧
        left.children.length = edge.children.length) (fuseEdges actions) (fuseEdges lefts) := by
  intro assertion narrowed actions lefts
  have hactions : List.Forall₂ (fun a left => a.shift [.terminal "a"] = .ok (.continues left) ∧
      left.children.length = a.children.length) actions lefts :=
    .cons (by decide) (.cons (by decide) (.cons (by decide) (.cons (by decide) .nil)))
  exact ⟨hactions, by decide, shift_fuseEdges hactions⟩

end Action

end EdgeActions
