import EdgeActions.Proofs.Reordering

/-!
# What a visit changes

A visit follows the steps of an edge from left to right up to the first one that is
reported.  The steps before it stay done, and the reported one does nothing, so the
checker can be used further, in either mode.  The stack of a flag whose resource the
action does not write is left alone in any case.  Being strict adds reports of filters
and changes nothing else.
-/

namespace EdgeActions.FlagChecker

open Step (runOnStack)

variable {c next stopped : FlagChecker} {a : Action} {step : Step} {steps : List Step}
  {flag : String} {e : Error}

/-- A checker reports the pop of a flag with an empty stack and, if it is strict, the filter. -/
inductive Reports (c : FlagChecker) : Step → Error → Prop where
  | pop {flag : String} (hempty : c.flags.depth flag = 0) :
      Reports c (.popFlag flag) (.unbalancedPop flag)
  | filter {flag : String} (value : String) (hstrict : c.strict = true)
      (hempty : c.flags.depth flag = 0) :
      Reports c (.filterFlag flag value) (.filterUnpushed flag)

theorem reports_iff : c.Reports step e ↔ c.visitStep step = .error e := by
  rw [visitStep_eq_error_iff]
  constructor
  · rintro (⟨hempty⟩ | ⟨value, hstrict, hempty⟩)
    · exact ⟨_, FlagStacks.depth_eq_zero_iff.1 hempty, Or.inl ⟨rfl, rfl⟩⟩
    · exact ⟨_, FlagStacks.depth_eq_zero_iff.1 hempty, Or.inr ⟨hstrict, ⟨value, rfl⟩, rfl⟩⟩
  · rintro ⟨flag, hempty, ⟨rfl, rfl⟩ | ⟨hstrict, ⟨value, rfl⟩, rfl⟩⟩
    · exact .pop (FlagStacks.depth_eq_zero_iff.2 hempty)
    · exact .filter value hstrict (FlagStacks.depth_eq_zero_iff.2 hempty)

/--
A checker comes to another one by steps of which none is reported: each can be visited by
itself, the mode stays, and every stack is what the steps make of it.
-/
structure Follows (c : FlagChecker) (steps : List Step) (next : FlagChecker) : Prop where
  visited : c.visitPath (steps.map .single) = (next, .ok ())
  strict_eq : next.strict = c.strict
  stack_eq : ∀ flag,
    runOnStack c.strict flag steps (c.flags.stack flag) = some (next.flags.stack flag)

/-- Steps are visited on edges of their own as they are on one edge. -/
theorem visitPath_map_single (c : FlagChecker) (steps : List Step) :
    c.visitPath (steps.map .single) = c.visitSteps steps := by
  rw [visitPath_eq_visitSteps, List.flatMap_map]
  exact congrArg c.visitSteps (List.flatMap_singleton' steps)

theorem follows_iff : c.Follows steps next ↔ c.visitSteps steps = (next, .ok ()) := by
  rw [← visitPath_map_single]
  refine ⟨Follows.visited, fun hvisited => ?_⟩
  have hsteps := hvisited
  rw [visitPath_map_single] at hsteps
  obtain ⟨hmode, hstacks⟩ := runOnStack_of_visitSteps hsteps
  exact ⟨hvisited, hmode, hstacks⟩

/-- Steps stop at the first one that is reported, with those before it done. -/
theorem visitSteps_eq_error_iff_reports :
    c.visitSteps steps = (stopped, .error e) ↔
      ∃ k step, steps[k]? = some step ∧ c.Follows (steps.take k) stopped ∧
        stopped.Reports step e := by
  rw [visitSteps_eq_error_iff]
  constructor
  · rintro ⟨front, step, back, rfl, hfront, hstep⟩
    refine ⟨front.length, step, by simp, ?_, reports_iff.2 hstep⟩
    rw [List.take_left]
    exact follows_iff.2 hfront
  · rintro ⟨k, step, hstep, hfront, hreports⟩
    refine ⟨steps.take k, step, steps.drop (k + 1), ?_, follows_iff.1 hfront,
      reports_iff.1 hreports⟩
    obtain ⟨hk, rfl⟩ := List.getElem?_eq_some_iff.1 hstep
    rw [← List.drop_eq_getElem_cons hk, List.take_append_drop]

/-! ### What is left alone -/

/-- What no step changes that is done, no visit changes, be it broken off or not. -/
theorem visitSteps_keeps {P : FlagChecker → Prop}
    (hkeeps : ∀ step ∈ steps, ∀ c next : FlagChecker,
      c.visitStep step = .ok next → P c → P next)
    (hc : P c) : P (c.visitSteps steps).1 := by
  induction steps generalizing c with
  | nil => exact hc
  | cons step steps ih =>
    obtain ⟨hfirst, hothers⟩ := List.forall_mem_cons.1 hkeeps
    rw [visitSteps]
    cases hstep : c.visitStep step with
    | ok next => exact ih hothers (hfirst c next hstep hc)
    | error e => exact hc

theorem strict_visitSteps (c : FlagChecker) (steps : List Step) :
    (c.visitSteps steps).1.strict = c.strict := by
  refine visitSteps_keeps (P := fun d => d.strict = c.strict) ?_ rfl
  intro step _ d next hstep hmode
  exact (onStack_of_visitStep hstep).1.trans hmode

/-- A step that is done leaves the stack of a flag alone whose resource it does not write. -/
theorem stack_of_visitStep_of_not_mem_writes (hwrites : Resource.ofFlag flag ∉ step.writes)
    (h : c.visitStep step = .ok next) : next.flags.stack flag = c.flags.stack flag := by
  have hstack := (onStack_of_visitStep h).2 flag
  rcases Step.onStack_of_not_mem_writes hwrites (c.flags.stack flag) with hnone | hsame
  · rw [hnone] at hstack
    cases hstack
  · exact Option.some.inj (hstack.symm.trans hsame)

theorem stack_visitSteps_of_not_mem_writes
    (hwrites : ∀ step ∈ steps, Resource.ofFlag flag ∉ step.writes) :
    (c.visitSteps steps).1.flags.stack flag = c.flags.stack flag := by
  refine visitSteps_keeps (P := fun d => d.flags.stack flag = c.flags.stack flag) ?_ rfl
  intro step hstep d next hdone hsame
  exact (stack_of_visitStep_of_not_mem_writes (hwrites step hstep) hdone).trans hsame

/-- The stack of a flag is left alone by an action that does not write its resource. -/
theorem stack_visit_of_not_mem_writes (ha : a.WellFormed)
    (hwrites : Resource.ofFlag flag ∉ a.writes) :
    (c.visit a).1.flags.stack flag = c.flags.stack flag := by
  rw [ha.writes_eq, List.mem_flatMap] at hwrites
  exact stack_visitSteps_of_not_mem_writes fun step hstep hwrite => hwrites ⟨step, hstep, hwrite⟩

/-! ### The mode -/

/-- A step that is not reported is not reported without the strict mode, and does the same. -/
theorem visitStep_lenient (h : c.visitStep step = .ok next) :
    visitStep { c with strict := false } step = .ok { next with strict := false } := by
  cases step with
  | pushFlag => cases h; rfl
  | popFlag flag =>
    simp only [visitStep] at h ⊢
    split at h
    case h_1 => cases h; rfl
    case h_2 => cases h
  | filterFlag flag value =>
    simp only [visitStep] at h ⊢
    split at h
    case isTrue => cases h
    case isFalse => cases h; simp
  | reduce => cases h; rfl
  | lookahead => cases h; rfl
  | call => cases h; rfl

theorem visitSteps_lenient (h : c.visitSteps steps = (next, .ok ())) :
    visitSteps { c with strict := false } steps = ({ next with strict := false }, .ok ()) := by
  induction steps generalizing c with
  | nil => cases h; rfl
  | cons step steps ih =>
    rw [visitSteps] at h ⊢
    split at h
    case h_1 middle hstep =>
      rw [visitStep_lenient hstep]
      exact ih h
    case h_2 => cases h

/-- What only a strict checker reports is the filter of a flag with an empty stack. -/
theorem filterUnpushed_of_lenient (h : c.visitSteps steps = (stopped, .error e))
    (hlenient : visitSteps { c with strict := false } steps = (next, .ok ())) :
    ∃ flag, e = .filterUnpushed flag ∧ stopped.flags.depth flag = 0 := by
  obtain ⟨front, step, back, rfl, hfront, hstep⟩ := visitSteps_eq_error_iff.1 h
  cases reports_iff.2 hstep with
  | filter value hstrict hempty => exact ⟨_, rfl, hempty⟩
  | @pop flag hempty =>
    -- the pop of an empty stack is reported in either mode
    have hpop : Reports { stopped with strict := false } (.popFlag flag) (.unbalancedPop flag) :=
      .pop hempty
    rw [visitSteps_eq_error_iff.2 ⟨front, _, back, rfl, visitSteps_lenient hfront,
      reports_iff.1 hpop⟩] at hlenient
    cases hlenient

/--
From every state of the checker, in either mode, a visit follows the steps of the action
in order.  It succeeds if none is reported, and otherwise stops at the first one that is:
all stacks are then as after the steps in front of it.  The mode stays, and so does the
stack of every flag whose resource the action does not write.  What a strict visit allows
is allowed with the same outcome to one that is not strict, and whatever only the strict
visit reports is the filter of a flag that is not pushed at this point.
-/
theorem visit_stops_at_first (c : FlagChecker) {a : Action} (ha : a.Reachable) :
    (∀ next, c.visit a = (next, .ok ()) ↔ c.Follows a.children next) ∧
    (∀ stopped e, c.visit a = (stopped, .error e) ↔
      ∃ k step, a.children[k]? = some step ∧ c.Follows (a.children.take k) stopped ∧
        stopped.Reports step e) ∧
    (c.visit a).1.strict = c.strict ∧
    (∀ flag, "flag_" ++ flag ∉ a.writes →
      (c.visit a).1.flags.stack flag = c.flags.stack flag) ∧
    (∀ next, visit { c with strict := true } a = (next, .ok ()) →
      visit { c with strict := false } a = ({ next with strict := false }, .ok ())) ∧
    ∀ next stopped e, visit { c with strict := false } a = (next, .ok ()) →
      visit { c with strict := true } a = (stopped, .error e) →
        ∃ flag, e = .filterUnpushed flag ∧ stopped.flags.depth flag = 0 := by
  refine ⟨fun next => follows_iff.symm, fun stopped e => visitSteps_eq_error_iff_reports,
    strict_visitSteps c a.children, fun flag hwrites => ?_, fun next hnext => ?_,
    fun next stopped e hlenient hstrict => ?_⟩
  · exact stack_visit_of_not_mem_writes ha.wellFormed hwrites
  · exact visitSteps_lenient (c := { c with strict := true }) hnext
  · exact filterUnpushed_of_lenient hstrict hlenient

/--
After a visit that was broken off, and made strict, a checker stops at the fourth step of
the next edge and keeps what the third one pushed.
-/
theorem visit_stops_at_first_again :
    let broken := Action.build [.pushFlag "in" "x", .popFlag "yield"]
    let a := Action.build [.filterFlag "in" "x", .popFlag "in", .pushFlag "out" "y",
      .popFlag "in", .reduce ⟨.named "E", 1, 0⟩]
    let c := { ((start false).visit broken).1 with strict := true }
    let stopped : FlagChecker := ⟨⟨[("out", "y")]⟩, true⟩
    a.Reachable ∧ c.Follows (a.children.take 3) stopped ∧
      c.visit a = (stopped, .error (.unbalancedPop "in")) ∧
      stopped.flags.stack "yield" = c.flags.stack "yield" := by
  intro broken a c stopped
  have ha : a.Reachable := Action.reachable_iff_wellFormed.2 (by decide)
  have hfollows : c.Follows (a.children.take 3) stopped := follows_iff.2 (by cbv)
  obtain ⟨-, herror, -, hframe, -⟩ := visit_stops_at_first c ha
  have hvisit : c.visit a = (stopped, .error (.unbalancedPop "in")) :=
    (herror _ _).2 ⟨3, .popFlag "in", rfl, hfollows, .pop rfl⟩
  have hyield := hframe "yield" (by decide)
  rw [hvisit] at hyield
  exact ⟨ha, hfollows, hvisit, hyield⟩

end EdgeActions.FlagChecker
