import EdgeActions.Proofs.StackView

/-!
# Balanced segments

Steps work on the tops of the stacks.  What they make of some stacks they also make of
stacks with more values underneath, and these values stay where they are.  So a segment
of a path that is balanced on its own leaves the stacks as it finds them, wherever it
stands, and the rest of the path cannot tell whether it was there.
-/

namespace EdgeActions

namespace Step

variable {strict : Bool} {flag : String} {step : Step} {steps : List Step}
variable {stack left : List String}

/-- A step that is not reported does not look below the top of the stack. -/
theorem onStack_append (h : step.onStack strict flag stack = some left) (below : List String) :
    step.onStack strict flag (stack ++ below) = some (left ++ below) := by
  cases step with
  | pushFlag other value =>
    cases h
    rw [onStack]
    split
    case isTrue => rfl
    case isFalse => rfl
  | popFlag other =>
    rw [onStack] at h ⊢
    split at h
    case isTrue hsame =>
      rw [if_pos hsame]
      cases stack with
      | nil => cases h
      | cons value stack => cases h; rfl
    case isFalse hsame =>
      cases h
      exact if_neg hsame
  | filterFlag other value =>
    rw [onStack] at h ⊢
    split at h
    case isTrue => cases h
    case isFalse hpassed =>
      cases h
      refine if_neg fun hreported => hpassed ?_
      obtain ⟨hsame, hstrict, hempty⟩ := hreported
      exact ⟨hsame, hstrict, (List.append_eq_nil_iff.1 hempty).1⟩
  | reduce => cases h; rfl
  | lookahead => cases h; rfl
  | call => cases h; rfl

theorem runOnStack_append_below (h : runOnStack strict flag steps stack = some left)
    (below : List String) :
    runOnStack strict flag steps (stack ++ below) = some (left ++ below) := by
  induction steps generalizing stack with
  | nil =>
    cases h
    rfl
  | cons step steps ih =>
    rw [runOnStack, Option.bind_eq_some_iff] at h
    obtain ⟨next, hstep, hsteps⟩ := h
    rw [runOnStack, onStack_append hstep, Option.bind_some]
    exact ih hsteps

end Step

namespace FlagChecker

open Step (runOnStack)

variable {c c' next : FlagChecker} {step : Step} {steps : List Step} {path : List Action}

/-! ### Values underneath -/

/-- Steps that succeed on the stack of every flag leave what they make of each. -/
theorem exists_visitSteps_of_runOnStack {left : String → List String}
    (h : ∀ flag, runOnStack c.strict flag steps (c.flags.stack flag) = some (left flag)) :
    ∃ next, c.visitSteps steps = (next, .ok ()) ∧ next.strict = c.strict ∧
      ∀ flag, next.flags.stack flag = left flag := by
  have hsucceeds : ∀ flag, runOnStack c.strict flag steps (c.flags.stack flag) ≠ none := by
    intro flag
    rw [h flag]
    exact nofun
  obtain ⟨next, hnext⟩ := visitSteps_ok_iff.2 hsucceeds
  obtain ⟨hmode, hstacks⟩ := runOnStack_of_visitSteps hnext
  refine ⟨next, hnext, hmode, fun flag => ?_⟩
  have hstack := hstacks flag
  rw [h flag] at hstack
  exact (Option.some.inj hstack).symm

/-- Steps that succeed do so on top of other values, too, and leave these alone. -/
theorem exists_visitSteps_below {below : String → List String} (hmode : c'.strict = c.strict)
    (hstacks : ∀ flag, c'.flags.stack flag = c.flags.stack flag ++ below flag)
    (h : c.visitSteps steps = (next, .ok ())) :
    ∃ next', c'.visitSteps steps = (next', .ok ()) ∧ next'.strict = next.strict ∧
      ∀ flag, next'.flags.stack flag = next.flags.stack flag ++ below flag := by
  obtain ⟨hkept, hruns⟩ := runOnStack_of_visitSteps h
  have hruns' : ∀ flag, runOnStack c'.strict flag steps (c'.flags.stack flag) =
      some (next.flags.stack flag ++ below flag) := by
    intro flag
    rw [hmode, hstacks]
    exact Step.runOnStack_append_below (hruns flag) (below flag)
  obtain ⟨next', hnext', hkept', hends⟩ := exists_visitSteps_of_runOnStack hruns'
  exact ⟨next', hnext', (hkept'.trans hmode).trans hkept.symm, hends⟩

/-! ### Checkers with the same stacks -/

/-- Checkers of one mode whose flags have the same stacks, in whatever order they were pushed. -/
structure SameStacks (c c' : FlagChecker) : Prop where
  strict : c.strict = c'.strict
  stack : ∀ flag, c.flags.stack flag = c'.flags.stack flag

namespace SameStacks

theorem symm (h : SameStacks c c') : SameStacks c' c :=
  ⟨h.strict.symm, fun flag => (h.stack flag).symm⟩

theorem visitStep_error (h : SameStacks c c') {e : Error} (hstep : c.visitStep step = .error e) :
    c'.visitStep step = .error e := by
  rw [visitStep_eq_error_iff] at hstep ⊢
  obtain ⟨flag, hempty, hreported⟩ := hstep
  rw [h.stack flag] at hempty
  rw [h.strict] at hreported
  exact ⟨flag, hempty, hreported⟩

theorem visitStep_ok (h : SameStacks c c') (hstep : c.visitStep step = .ok next) :
    ∃ next', c'.visitStep step = .ok next' ∧ SameStacks next next' := by
  cases hstep' : c'.visitStep step with
  | error e =>
    have hreported := h.symm.visitStep_error hstep'
    rw [hstep] at hreported
    cases hreported
  | ok next' =>
    obtain ⟨hmode, hstacks⟩ := onStack_of_visitStep hstep
    obtain ⟨hmode', hstacks'⟩ := onStack_of_visitStep hstep'
    refine ⟨next', rfl, ?_, fun flag => ?_⟩
    · rw [hmode, hmode', h.strict]
    · have hstack := hstacks flag
      rw [h.strict, h.stack flag, hstacks' flag] at hstack
      exact (Option.some.inj hstack).symm

/-- Steps come to the same result, and to the same stacks where they stop. -/
theorem visitSteps (h : SameStacks c c') (steps : List Step) :
    SameStacks (c.visitSteps steps).1 (c'.visitSteps steps).1 ∧
      (c.visitSteps steps).2 = (c'.visitSteps steps).2 := by
  induction steps generalizing c c' with
  | nil => exact ⟨h, rfl⟩
  | cons step steps ih =>
    rw [FlagChecker.visitSteps, FlagChecker.visitSteps]
    cases hstep : c.visitStep step with
    | error e =>
      rw [h.visitStep_error hstep]
      exact ⟨h, rfl⟩
    | ok next =>
      obtain ⟨next', hstep', hnext⟩ := h.visitStep_ok hstep
      rw [hstep']
      exact ih hnext

theorem finish (h : SameStacks c c') : c.finish = c'.finish := by
  have hopen : c.flags.openFlags = c'.flags.openFlags := by
    refine c.flags.pairwise_openFlags.eq_of_mem_iff c'.flags.pairwise_openFlags fun flag => ?_
    rw [FlagStacks.mem_openFlags_iff, FlagStacks.mem_openFlags_iff, h.stack flag]
  rw [FlagChecker.finish, FlagChecker.finish, hopen]

end SameStacks

/-! ### Balanced segments -/

/-- The result of steps on which a path ends: their error, or what the end of the path finds. -/
def checkSteps (c : FlagChecker) (steps : List Step) : Except Error Unit :=
  match c.visitSteps steps with
  | (next, .ok ()) => next.finish
  | (_, .error e) => .error e

theorem checkPath_eq_checkSteps (path : List Action) (strict : Bool) :
    checkPath path strict = (start strict).checkSteps (path.flatMap Action.children) :=
  checkPath_eq_visitSteps path strict

theorem SameStacks.checkSteps (h : SameStacks c c') (steps : List Step) :
    c.checkSteps steps = c'.checkSteps steps := by
  obtain ⟨hends, hresults⟩ := h.visitSteps steps
  unfold FlagChecker.checkSteps
  generalize c.visitSteps steps = outcome, c'.visitSteps steps = outcome' at hends hresults
  obtain ⟨stopped, result⟩ := outcome
  obtain ⟨stopped', result'⟩ := outcome'
  cases hresults
  cases result with
  | error e => rfl
  | ok => exact hends.finish

theorem checkSteps_append (c : FlagChecker) (front back : List Step) :
    c.checkSteps (front ++ back) =
      match c.visitSteps front with
      | (next, .ok ()) => next.checkSteps back
      | (_, .error e) => .error e := by
  rw [checkSteps, visitSteps_append]
  rcases c.visitSteps front with ⟨next, e | _⟩
  · rfl
  · rfl

/-- Steps that empty all stacks again leave any stacks as they find them. -/
theorem checkSteps_append_of_balanced
    (h : ∀ flag, runOnStack c.strict flag steps [] = some []) (back : List Step) :
    c.checkSteps (steps ++ back) = c.checkSteps back := by
  have hruns : ∀ flag, runOnStack c.strict flag steps (c.flags.stack flag) =
      some (c.flags.stack flag) := fun flag =>
    Step.runOnStack_append_below (h flag) (c.flags.stack flag)
  obtain ⟨next, hnext, hmode, hstacks⟩ := exists_visitSteps_of_runOnStack hruns
  have hsame : SameStacks next c := ⟨hmode, hstacks⟩
  rw [checkSteps_append, hnext]
  exact hsame.checkSteps back

/--
A segment that is balanced on its own can be inserted into a path or cut out of it
anywhere: the path has the same verdict, down to its error.  What is more, edges that are
followed without an error from some stacks are so from stacks with any values underneath,
and end with the same values on top of these.
-/
theorem checkPath_balanced_segment :
    (∀ (front segment back : List Action) (strict : Bool), checkPath segment strict = .ok () →
      checkPath (front ++ segment ++ back) strict = checkPath (front ++ back) strict) ∧
    ∀ (c c' next : FlagChecker) (path : List Action) (below : String → List String),
      c'.strict = c.strict →
      (∀ flag, c'.flags.stack flag = c.flags.stack flag ++ below flag) →
      c.visitPath path = (next, .ok ()) →
      ∃ next', c'.visitPath path = (next', .ok ()) ∧ next'.strict = next.strict ∧
        ∀ flag, next'.flags.stack flag = next.flags.stack flag ++ below flag := by
  constructor
  · intro front segment back strict hsegment
    rw [checkPath_eq_ok_iff] at hsegment
    rw [checkPath_eq_checkSteps, checkPath_eq_checkSteps, List.append_assoc, List.flatMap_append,
      List.flatMap_append, List.flatMap_append, checkSteps_append, checkSteps_append]
    rcases hfront : (start strict).visitSteps (front.flatMap Action.children) with ⟨middle, e | _⟩
    · rfl
    · -- the segment is followed in the mode of the whole path
      have hmode : middle.strict = strict := (runOnStack_of_visitSteps hfront).1
      rw [← hmode] at hsegment
      exact checkSteps_append_of_balanced hsegment _
  · intro c c' next path below hmode hstacks hvisit
    rw [visitPath_eq_visitSteps] at hvisit ⊢
    exact exists_visitSteps_below hmode hstacks hvisit

/-- A segment that pushes and pops two flags stands before a pop that fails. -/
theorem checkPath_balanced_segment_error :
    let front := [Action.single (.pushFlag "in" "x")]
    let segment := [Action.build [.pushFlag "in" "y", .pushFlag "yield" "z"],
      .build [.filterFlag "in" "y", .popFlag "in", .popFlag "yield"]]
    let back := [Action.build [.filterFlag "in" "x", .popFlag "yield"]]
    checkPath segment true = .ok () ∧
      checkPath (front ++ segment ++ back) true = checkPath (front ++ back) true ∧
      checkPath (front ++ back) true = .error (.unbalancedPop "yield") ∧
      (start true).visitPath segment = (start true, .ok ()) ∧
      ∃ next', (⟨⟨[("yield", "z"), ("in", "x")]⟩, true⟩ : FlagChecker).visitPath segment =
          (next', .ok ()) ∧
        next'.flags.stack "in" = ["x"] ∧ next'.flags.stack "yield" = ["z"] := by
  intro front segment back
  have hvisit : (start true).visitPath segment = (start true, .ok ()) := by decide
  have hbalanced : checkPath segment true = .ok () := by
    rw [checkPath, hvisit]
    exact finish_eq_ok_iff.2 fun _ => rfl
  obtain ⟨hpaths, hlocal⟩ := checkPath_balanced_segment
  let c' : FlagChecker := ⟨⟨[("yield", "z"), ("in", "x")]⟩, true⟩
  obtain ⟨next', hnext', -, hstacks⟩ :=
    hlocal (start true) c' (start true) segment c'.flags.stack rfl (fun _ => rfl) hvisit
  refine ⟨hbalanced, hpaths front segment back true hbalanced, by decide, hvisit, next', hnext',
    ?_, ?_⟩
  · exact hstacks "in"
  · exact hstacks "yield"

end FlagChecker

end EdgeActions
