import EdgeActions.Proofs.Remainders

/-!
# Reachable actions

The actions that finite combinations of the operations can make, and what all
of them have in common.  No operation makes an ill-formed sequence, not even a
shift, which builds one from what is left without checking it; and the resources
recorded for an action follow from its kind and from what was given for its
calls when they were made.  Every well-formed action can be reached, so that no
more can be said about all reachable ones.
-/

namespace EdgeActions

/-- The calls made from outside, each with the resources given for it. -/
abbrev Given := Call → List Resource → List Resource → Prop

namespace Action

/-- The actions that finite combinations of the operations make, with calls as given. -/
inductive MadeFrom (given : Given) : Action → Prop where
  | reduce (reduction : Reduction) : MadeFrom given (single (.reduce reduction))
  | lookahead (assertion : Lookahead) : MadeFrom given (single (.lookahead assertion))
  | filterFlag (flag value : String) : MadeFrom given (single (.filterFlag flag value))
  | pushFlag (flag value : String) : MadeFrom given (single (.pushFlag flag value))
  | popFlag (flag : String) : MadeFrom given (single (.popFlag flag))
  | call {c : Call} {reads writes : List Resource} (hgiven : given c reads writes) :
      MadeFrom given (single (.call c reads writes))
  | sequence {actions : List Action} {b : Action} (hactions : ∀ a ∈ actions, MadeFrom given a)
      (h : sequence actions = .ok b) : MadeFrom given b
  | fuse {a b fused : Action} (ha : MadeFrom given a) (hb : MadeFrom given b)
      (h : a.fuse? b = some fused) : MadeFrom given fused
  | fuseEdges {actions : List Action} {edge : Action}
      (hactions : ∀ a ∈ actions, MadeFrom given a) (h : edge ∈ fuseEdges actions) :
      MadeFrom given edge
  | shift {a rest : Action} {shifted : List Symbol} (ha : MadeFrom given a)
      (h : a.shift shifted = .ok (.continues rest)) : MadeFrom given rest
  | condition {a : Action} {step : Step} (ha : MadeFrom given a)
      (h : a.condition = .ok step) : MadeFrom given (single step)
  | child {a : Action} {step : Step} (ha : MadeFrom given a) (h : step ∈ a.children) :
      MadeFrom given (single step)

def Reachable (a : Action) : Prop :=
  a.MadeFrom fun _ _ _ => True

end Action

/-! ### What is recorded -/

/-- The resources to be recorded for a step; a call keeps those given when it was made. -/
inductive Step.Recorded (given : Given) : Step → List Resource → List Resource → Prop where
  | reduce (reduction : Reduction) :
      Recorded given (.reduce reduction) [] ["nt_" ++ reduction.nonTerminal.name]
  | lookahead (assertion : Lookahead) : Recorded given (.lookahead assertion) [] []
  | filterFlag (flag value : String) :
      Recorded given (.filterFlag flag value) ["flag_" ++ flag] []
  | pushFlag (flag value : String) :
      Recorded given (.pushFlag flag value) [] ["flag_" ++ flag]
  | popFlag (flag : String) :
      Recorded given (.popFlag flag) ["flag_" ++ flag] ["flag_" ++ flag]
  | call {made c : Call} {reads writes : List Resource} (hgiven : given made reads writes)
      (hsame : c = { made with offset := c.offset }) (hoffset : made.offset ≤ c.offset) :
      Recorded given (.call c reads writes) reads writes

/-- A shift changes nothing about what is recorded for a step. -/
theorem Step.Recorded.advances {given : Given} {shifted : List Symbol} {step left : Step}
    (h : step.Recorded given step.reads step.writes) (hleft : step.Advances shifted left) :
    left.Recorded given left.reads left.writes := by
  cases hleft with
  | reduce => exact .reduce _
  | lookahead => exact .lookahead _
  | filterFlag flag value => exact .filterFlag flag value
  | pushFlag flag value => exact .pushFlag flag value
  | popFlag flag => exact .popFlag flag
  | call hshift =>
    obtain ⟨offset, hadvance, rfl⟩ := Call.shift_eq_ok_iff.1 hshift
    cases h with
    | @call made _ _ _ hgiven hsame hoffset =>
      refine .call hgiven (by rw [hsame]) (UInt64.le_trans hoffset ?_)
      rw [UInt64.le_iff_toNat_le, Counter.advance_eq_ok_iff.1 hadvance]
      exact Nat.le_add_right _ _

namespace Action

variable {given : Given} {a b : Action} {actions : List Action}

/-- What every operation keeps: sequences are well-formed and steps are recorded. -/
structure Kept (given : Given) (a : Action) : Prop where
  wellFormed : a.WellFormed
  recorded : ∀ step ∈ a.children, step.Recorded given step.reads step.writes

namespace Kept

theorem single {step : Step} (h : step.Recorded given step.reads step.writes) :
    Kept given (single step) := by
  refine ⟨trivial, fun other hmem => ?_⟩
  rwa [List.mem_singleton.1 hmem]

theorem child (ha : Kept given a) {step : Step} (hmem : step ∈ a.children) :
    Kept given (.single step) :=
  single (ha.recorded step hmem)

/-- Building from the steps of several actions keeps what all of them keep. -/
theorem ofSteps {steps : List Step} (h : ofSteps steps = .ok b)
    (hsteps : ∀ step ∈ steps, step.Recorded given step.reads step.writes) : Kept given b := by
  obtain ⟨hlegal, rfl⟩ := ofSteps_eq_ok_iff.1 h
  exact ⟨wellFormed_build hlegal, hsteps⟩

theorem sequence (hactions : ∀ a ∈ actions, Kept given a) (h : sequence actions = .ok b) :
    Kept given b := by
  refine ofSteps h fun step hstep => ?_
  obtain ⟨a, ha, hmem⟩ := List.mem_flatMap.1 hstep
  exact (hactions a ha).recorded step hmem

theorem fuse {fused : Action} (ha : Kept given a) (hb : Kept given b)
    (h : a.fuse? b = some fused) : Kept given fused := by
  obtain ⟨hlegal, rfl⟩ := fuse?_eq_some_iff.1 h
  refine ⟨wellFormed_build hlegal, fun step hstep => ?_⟩
  rcases List.mem_append.1 hstep with hstep | hstep
  · exact ha.recorded step hstep
  · exact hb.recorded step hstep

theorem fuseFrom {edge : Action} (hedge : Kept given edge)
    (hactions : ∀ a ∈ actions, Kept given a) : ∀ e ∈ fuseFrom edge actions, Kept given e := by
  induction actions generalizing edge with
  | nil => simpa [Action.fuseFrom] using hedge
  | cons next actions ih =>
    obtain ⟨hnext, hothers⟩ := List.forall_mem_cons.1 hactions
    cases hfuse : edge.fuse? next with
    | some joint =>
      rw [fuseFrom_of_fused hfuse]
      exact ih (hedge.fuse hnext hfuse) hothers
    | none =>
      rw [fuseFrom_of_declined hfuse]
      exact List.forall_mem_cons.2 ⟨hedge, ih hnext hothers⟩

theorem fuseEdges (hactions : ∀ a ∈ actions, Kept given a) :
    ∀ e ∈ fuseEdges actions, Kept given e := by
  cases actions with
  | nil => simp [Action.fuseEdges]
  | cons first actions =>
    obtain ⟨hfirst, hothers⟩ := List.forall_mem_cons.1 hactions
    exact fuseFrom hfirst hothers

theorem shift {shifted : List Symbol} (ha : Kept given a)
    (h : a.shift shifted = .ok (.continues b)) : Kept given b := by
  refine ⟨ha.wellFormed.shift h, fun left hleft => ?_⟩
  obtain ⟨hremains, -⟩ := remains_of_shift ha.wellFormed.legal.nonempty h
  obtain ⟨step, hstep, hadvances⟩ := hremains.exists_advances hleft
  exact (ha.recorded step hstep).advances hadvances

end Kept

theorem MadeFrom.kept (ha : a.MadeFrom given) : Kept given a := by
  induction ha with
  | reduce reduction => exact .single (.reduce reduction)
  | lookahead assertion => exact .single (.lookahead assertion)
  | filterFlag flag value => exact .single (.filterFlag flag value)
  | pushFlag flag value => exact .single (.pushFlag flag value)
  | popFlag flag => exact .single (.popFlag flag)
  | call hgiven => exact .single (.call hgiven rfl (UInt64.le_refl _))
  | sequence _ h ih => exact .sequence ih h
  | fuse _ _ h iha ihb => exact iha.fuse ihb h
  | fuseEdges _ h ih => exact Kept.fuseEdges ih _ h
  | shift _ h ih => exact ih.shift h
  | condition _ h ih =>
    exact ih.child (List.mem_of_mem_head? (condition_eq_ok_iff.1 h).1)
  | child _ h ih => exact ih.child h

/-! ### Reachable is well-formed -/

theorem Reachable.wellFormed (ha : a.Reachable) : a.WellFormed :=
  MadeFrom.kept ha |>.wellFormed

theorem reachable_single (step : Step) : (single step).Reachable := by
  cases step with
  | reduce reduction => exact .reduce reduction
  | lookahead assertion => exact .lookahead assertion
  | filterFlag flag value => exact .filterFlag flag value
  | pushFlag flag value => exact .pushFlag flag value
  | popFlag flag => exact .popFlag flag
  | call c reads writes => exact .call trivial

/-- The sequence of steps of their own is built from these steps. -/
theorem sequence_map_single (steps : List Step) :
    sequence (steps.map single) = ofSteps steps := by
  rw [sequence, List.flatMap_map]
  congr 1
  exact List.flatMap_singleton' steps

theorem reachable_iff_wellFormed : a.Reachable ↔ a.WellFormed := by
  refine ⟨Reachable.wellFormed, fun ha => ?_⟩
  cases a with
  | single step => exact reachable_single step
  | seq steps reads writes =>
    obtain ⟨hlegal, hbuild⟩ := ha
    have hsequence : sequence (steps.map single) = .ok (seq steps reads writes) := by
      rw [sequence_map_single]
      exact ofSteps_eq_ok_iff.2 ⟨hlegal, hbuild⟩
    refine MadeFrom.sequence (fun a ha => ?_) hsequence
    obtain ⟨step, -, rfl⟩ := List.mem_map.1 ha
    exact reachable_single step

end Action

end EdgeActions
