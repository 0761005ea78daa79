import EdgeActions.FlagChecker
import Mathlib.Data.List.Sort

/-!
# The stack of one flag

A run of the checker seen from the stack of a single flag.  Every step does
something to that stack, nothing to it, or is reported because of it, and no other
stack plays a part.  A run succeeds exactly when it does so for every flag, and
then each stack is what the run makes of it alone.
-/

namespace EdgeActions

namespace Step

/-- What a step makes of the stack of one flag, unless it is reported because of it. -/
def onStack (strict : Bool) (flag : String) (step : Step) (stack : List String) :
    Option (List String) :=
  match step with
  | pushFlag other value => some (if other = flag then value :: stack else stack)
  | popFlag other => if other = flag then stack.tail? else some stack
  | filterFlag other _ =>
    if other = flag ∧ strict = true ∧ stack = [] then none else some stack
  | reduce _ => some stack
  | lookahead _ => some stack
  | call _ _ _ => some stack

def runOnStack (strict : Bool) (flag : String) : List Step → List String → Option (List String)
  | [], stack => some stack
  | step :: steps, stack => (step.onStack strict flag stack).bind (runOnStack strict flag steps)

theorem runOnStack_append {strict : Bool} {flag : String} (front back : List Step)
    (stack : List String) :
    runOnStack strict flag (front ++ back) stack =
      (runOnStack strict flag front stack).bind (runOnStack strict flag back) := by
  induction front generalizing stack with
  | nil => rfl
  | cons step front ih =>
    rw [List.cons_append, runOnStack, runOnStack, Option.bind_assoc]
    exact Option.bind_congr fun next _ => ih next

end Step

namespace FlagStacks

theorem nodup_eraseDups (names : List String) : names.eraseDups.Nodup :=
  match names with
  | [] => List.nodup_nil
  | name :: names => by
    have hlength := List.length_filter_le (fun other => !other == name) names
    rw [List.eraseDups_cons, List.nodup_cons, List.mem_eraseDups]
    exact ⟨by simp, nodup_eraseDups _⟩
termination_by names.length

/-- The open flags are named once each and in increasing order. -/
theorem pairwise_openFlags (s : FlagStacks) : s.openFlags.Pairwise (· < ·) := by
  have hnodup : s.openFlags.Nodup :=
    (Text.sorted_perm _).nodup_iff.2 (nodup_eraseDups _)
  refine (Text.pairwise_sorted _).imp₂ (fun _ _ hle hne => ?_) hnodup
  exact Std.lt_of_le_of_ne hle hne

end FlagStacks

namespace FlagChecker

open Step (runOnStack)

variable {c next stopped : FlagChecker} {step : Step} {steps : List Step} {e : Error}

/-! ### One step -/

/-- A step is reported for the empty stack of the flag that it pops or, strictly, filters. -/
theorem visitStep_eq_error_iff :
    c.visitStep step = .error e ↔
      ∃ flag, c.flags.stack flag = [] ∧
        ((step = .popFlag flag ∧ e = .unbalancedPop flag) ∨
          (c.strict = true ∧ (∃ value, step = .filterFlag flag value) ∧
            e = .filterUnpushed flag)) := by
  constructor
  · intro h
    cases step with
    | popFlag flag =>
      simp only [visitStep] at h
      split at h
      case h_1 => cases h
      case h_2 hpop =>
        cases h
        exact ⟨flag, FlagStacks.pop?_eq_none_iff.1 hpop, Or.inl ⟨rfl, rfl⟩⟩
    | filterFlag flag value =>
      simp only [visitStep] at h
      split at h
      case isTrue hreported =>
        cases h
        exact ⟨flag, FlagStacks.depth_eq_zero_iff.1 hreported.2,
          Or.inr ⟨hreported.1, ⟨value, rfl⟩, rfl⟩⟩
      case isFalse => cases h
    | reduce => cases h
    | lookahead => cases h
    | pushFlag => cases h
    | call => cases h
  · rintro ⟨flag, hempty, ⟨rfl, rfl⟩ | ⟨hstrict, ⟨value, rfl⟩, rfl⟩⟩
    · rw [visitStep, FlagStacks.pop?_eq_none_iff.2 hempty]
    · rw [visitStep, if_pos ⟨hstrict, FlagStacks.depth_eq_zero_iff.2 hempty⟩]

/-- A step that is not reported keeps the mode and makes of each stack what it makes of it alone. -/
theorem onStack_of_visitStep (h : c.visitStep step = .ok next) :
    next.strict = c.strict ∧
      ∀ flag, step.onStack c.strict flag (c.flags.stack flag) = some (next.flags.stack flag) := by
  cases step with
  | pushFlag other value =>
    cases h
    exact ⟨rfl, fun flag => congrArg some (FlagStacks.stack_push _ _ _ _).symm⟩
  | popFlag other =>
    simp only [visitStep] at h
    split at h
    case h_1 flags hpop =>
      cases h
      refine ⟨rfl, fun flag => ?_⟩
      rw [FlagStacks.stack_of_pop? hpop, Step.onStack]
      split
      case isTrue hsame =>
        subst hsame
        have hpushed : c.flags.stack other ≠ [] := by
          intro hempty
          rw [FlagStacks.pop?_eq_none_iff.2 hempty] at hpop
          cases hpop
        obtain ⟨value, stack, hstack⟩ := List.exists_cons_of_ne_nil hpushed
        rw [hstack]
        rfl
      case isFalse => rfl
    case h_2 => cases h
  | filterFlag other value =>
    simp only [visitStep] at h
    split at h
    case isTrue => cases h
    case isFalse hpushed =>
      cases h
      refine ⟨rfl, fun flag => if_neg ?_⟩
      rintro ⟨rfl, hstrict, hempty⟩
      exact hpushed ⟨hstrict, FlagStacks.depth_eq_zero_iff.2 hempty⟩
  | reduce => cases h; exact ⟨rfl, fun _ => rfl⟩
  | lookahead => cases h; exact ⟨rfl, fun _ => rfl⟩
  | call => cases h; exact ⟨rfl, fun _ => rfl⟩

/-- A step that is reported is so for the stack of some flag. -/
theorem exists_onStack_eq_none (h : c.visitStep step = .error e) :
    ∃ flag, step.onStack c.strict flag (c.flags.stack flag) = none := by
  obtain ⟨flag, hempty, ⟨rfl, -⟩ | ⟨hstrict, ⟨value, rfl⟩, -⟩⟩ := visitStep_eq_error_iff.1 h
  · refine ⟨flag, ?_⟩
    rw [hempty, Step.onStack, if_pos rfl]
    rfl
  · exact ⟨flag, if_pos ⟨rfl, hstrict, hempty⟩⟩

/-! ### Steps in a row -/

theorem runOnStack_of_visitSteps (h : c.visitSteps steps = (next, .ok ())) :
    next.strict = c.strict ∧
      ∀ flag, runOnStack c.strict flag steps (c.flags.stack flag) =
        some (next.flags.stack flag) := by
  induction steps generalizing c with
  | nil =>
    cases h
    exact ⟨rfl, fun _ => rfl⟩
  | cons step steps ih =>
    rw [visitSteps] at h
    split at h
    case h_1 middle hstep =>
      obtain ⟨hmode, hstacks⟩ := onStack_of_visitStep hstep
      obtain ⟨hmode', hstacks'⟩ := ih h
      refine ⟨hmode'.trans hmode, fun flag => ?_⟩
      rw [runOnStack, hstacks flag, Option.bind_some, ← hmode]
      exact hstacks' flag
    case h_2 => cases h

theorem exists_runOnStack_eq_none (h : c.visitSteps steps = (stopped, .error e)) :
    ∃ flag, runOnStack c.strict flag steps (c.flags.stack flag) = none := by
  induction steps generalizing c with
  | nil => cases h
  | cons step steps ih =>
    rw [visitSteps] at h
    split at h
    case h_1 middle hstep =>
      obtain ⟨hmode, hstacks⟩ := onStack_of_visitStep hstep
      obtain ⟨flag, hnone⟩ := ih h
      refine ⟨flag, ?_⟩
      rw [runOnStack, hstacks flag, Option.bind_some, ← hmode]
      exact hnone
    case h_2 hstep =>
      obtain ⟨flag, hnone⟩ := exists_onStack_eq_none hstep
      refine ⟨flag, ?_⟩
      rw [runOnStack, hnone]
      rfl

/-- Steps succeed exactly when they succeed on the stack of every flag. -/
theorem visitSteps_ok_iff :
    (∃ next, c.visitSteps steps = (next, .ok ())) ↔
      ∀ flag, runOnStack c.strict flag steps (c.flags.stack flag) ≠ none := by
  constructor
  · rintro ⟨next, h⟩ flag
    rw [(runOnStack_of_visitSteps h).2 flag]
    exact nofun
  · intro h
    rcases hvisit : c.visitSteps steps with ⟨next, e | _⟩
    · obtain ⟨flag, hnone⟩ := exists_runOnStack_eq_none hvisit
      exact absurd hnone (h flag)
    · exact ⟨next, rfl⟩

/-- The error of steps is that of the first one that is reported; those before it are done. -/
theorem visitSteps_eq_error_iff :
    c.visitSteps steps = (stopped, .error e) ↔
      ∃ front step back, steps = front ++ step :: back ∧
        c.visitSteps front = (stopped, .ok ()) ∧ stopped.visitStep step = .error e := by
  constructor
  · intro h
    induction steps generalizing c with
    | nil => cases h
    | cons first steps ih =>
      rw [visitSteps] at h
      split at h
      case h_1 middle hfirst =>
        obtain ⟨front, step, back, rfl, hfront, hstep⟩ := ih h
        refine ⟨first :: front, step, back, rfl, ?_, hstep⟩
        rw [visitSteps, hfirst]
        exact hfront
      case h_2 hfirst =>
        cases h
        exact ⟨[], first, steps, rfl, rfl, hfirst⟩
  · rintro ⟨front, step, back, rfl, hfront, hstep⟩
    rw [visitSteps_append, hfront]
    dsimp only
    rw [visitSteps, hstep]

/-! ### Paths -/

/-- The end of a path finds every stack empty, or names the flags whose stack is not. -/
theorem finish_eq_ok_iff : c.finish = .ok () ↔ ∀ flag, c.flags.stack flag = [] := by
  have hopen : c.flags.openFlags = [] ↔ ∀ flag, c.flags.stack flag = [] := by
    simp only [List.eq_nil_iff_forall_not_mem, FlagStacks.mem_openFlags_iff, ne_eq,
      Decidable.not_not]
  rw [← hopen, finish]
  cases c.flags.openFlags with
  | nil => exact iff_of_true rfl rfl
  | cons flag flags => exact iff_of_false nofun nofun

theorem finish_eq_error_iff :
    c.finish = .error e ↔
      ∃ flags, e = .unpoppedFlags flags ∧ flags ≠ [] ∧ flags.Pairwise (· < ·) ∧
        ∀ flag, flag ∈ flags ↔ c.flags.stack flag ≠ [] := by
  have hopen : c.finish = .error e ↔
      c.flags.openFlags ≠ [] ∧ e = .unpoppedFlags c.flags.openFlags := by
    rw [finish]
    cases c.flags.openFlags with
    | nil => exact iff_of_false nofun fun h => h.1 rfl
    | cons flag flags =>
      rw [Except.error.injEq, eq_comm]
      exact (and_iff_right (List.cons_ne_nil flag flags)).symm
  rw [hopen]
  constructor
  · rintro ⟨hsome, rfl⟩
    exact ⟨_, rfl, hsome, c.flags.pairwise_openFlags, fun _ => FlagStacks.mem_openFlags_iff⟩
  · rintro ⟨flags, rfl, hsome, hincreasing, hmem⟩
    obtain rfl : flags = c.flags.openFlags :=
      hincreasing.eq_of_mem_iff c.flags.pairwise_openFlags fun flag =>
        (hmem flag).trans FlagStacks.mem_openFlags_iff.symm
    exact ⟨hsome, rfl⟩

theorem checkPath_eq_visitSteps (path : List Action) (strict : Bool) :
    checkPath path strict =
      match (start strict).visitSteps (path.flatMap Action.children) with
      | (c, .ok ()) => c.finish
      | (_, .error e) => .error e := by
  rw [← visitPath_eq_visitSteps]
  rfl

/-- A path is balanced when its steps empty the stack of every flag again. -/
theorem checkPath_eq_ok_iff {path : List Action} {strict : Bool} :
    checkPath path strict = .ok () ↔
      ∀ flag, runOnStack strict flag (path.flatMap Action.children) [] = some [] := by
  rw [checkPath_eq_visitSteps]
  rcases hvisit : (start strict).visitSteps (path.flatMap Action.children) with ⟨next, e | _⟩
  · refine iff_of_false nofun fun hempty => ?_
    obtain ⟨flag, hnone⟩ := exists_runOnStack_eq_none hvisit
    have hsome := (hempty flag).symm.trans hnone
    cases hsome
  · obtain ⟨-, hstacks⟩ := runOnStack_of_visitSteps hvisit
    rw [finish_eq_ok_iff]
    refine forall_congr' fun flag => ?_
    have hstack : runOnStack strict flag (path.flatMap Action.children) [] =
        some (next.flags.stack flag) := hstacks flag
    rw [hstack, Option.some.injEq]

/-- Only the end of a path names open flags. -/
theorem visitSteps_ne_unpoppedFlags (flags : List String) :
    c.visitSteps steps ≠ (stopped, .error (.unpoppedFlags flags)) := by
  intro h
  obtain ⟨front, step, back, -, -, hstep⟩ := visitSteps_eq_error_iff.1 h
  obtain ⟨flag, -, ⟨-, he⟩ | ⟨-, -, he⟩⟩ := visitStep_eq_error_iff.1 hstep
  · cases he
  · cases he

/-- A path leaves flags open when none of its steps is reported and some stack is not empty. -/
theorem checkPath_eq_unpoppedFlags_iff {path : List Action} {strict : Bool}
    {flags : List String} :
    checkPath path strict = .error (.unpoppedFlags flags) ↔
      (∀ flag, runOnStack strict flag (path.flatMap Action.children) [] ≠ none) ∧
        flags ≠ [] ∧ flags.Pairwise (· < ·) ∧
        ∀ flag, flag ∈ flags ↔
          runOnStack strict flag (path.flatMap Action.children) [] ≠ some [] := by
  rw [checkPath_eq_visitSteps]
  rcases hvisit : (start strict).visitSteps (path.flatMap Action.children) with ⟨next, e | _⟩
  · refine iff_of_false (fun h => ?_) (fun h => ?_)
    · cases h
      exact visitSteps_ne_unpoppedFlags flags hvisit
    · obtain ⟨flag, hnone⟩ := exists_runOnStack_eq_none hvisit
      exact h.1 flag hnone
  · obtain ⟨-, hstacks⟩ := runOnStack_of_visitSteps hvisit
    have hstack : ∀ flag, runOnStack strict flag (path.flatMap Action.children) [] =
        some (next.flags.stack flag) := hstacks
    have hopen : ∀ flag, next.flags.stack flag ≠ [] ↔
        runOnStack strict flag (path.flatMap Action.children) [] ≠ some [] := by
      intro flag
      rw [hstack, ne_eq, ne_eq, Option.some.injEq]
    have hok : ∀ flag, runOnStack strict flag (path.flatMap Action.children) [] ≠ none := by
      intro flag
      rw [hstack]
      exact nofun
    change next.finish = _ ↔ _
    simp only [finish_eq_error_iff, Error.unpoppedFlags.injEq, exists_eq_left', hopen,
      and_iff_right hok]

end FlagChecker

end EdgeActions
