import EdgeActions.Action.Basic

/-!
# Checking flags along a path

A checker follows the flag stacks along a path of edges.  It reports a pop of
a flag that was not pushed on the path, when it is strict also a test of such a
flag, and at the end the flags that were not popped.  A step that is reported
changes nothing, and the steps before it on the same edge stay done.

Every flag has a stack of values.  All of them are held in one list of pushed
flags with their values; the stack of a flag is what that list says of it, and
`stack_push` and `stack_of_pop?` say that each operation changes the stack of
one flag only.
-/

namespace EdgeActions

/-! ### Flag stacks -/

structure FlagStacks where
  /-- The flags that are pushed, with their values, the last pushed in front. -/
  pushed : List (String × String)
  deriving DecidableEq, Repr

namespace FlagStacks

def empty : FlagStacks := ⟨[]⟩

/-- The values on the stack of one flag, the top in front. -/
def stack (s : FlagStacks) (flag : String) : List String :=
  (s.pushed.filter (·.1 == flag)).map (·.2)

def depth (s : FlagStacks) (flag : String) : Nat :=
  (s.stack flag).length

def top? (s : FlagStacks) (flag : String) : Option String :=
  (s.stack flag).head?

def push (s : FlagStacks) (flag value : String) : FlagStacks :=
  ⟨(flag, value) :: s.pushed⟩

def pop? (s : FlagStacks) (flag : String) : Option FlagStacks :=
  if s.pushed.any (·.1 == flag) then some ⟨s.pushed.eraseP (·.1 == flag)⟩ else none

/-- The flags that are pushed, each once, in increasing order. -/
def openFlags (s : FlagStacks) : List String :=
  Text.sorted (s.pushed.map (·.1)).eraseDups

@[simp]
theorem stack_empty (flag : String) : empty.stack flag = [] := rfl

theorem stack_push (s : FlagStacks) (flag value other : String) :
    (s.push flag value).stack other =
      if flag = other then value :: s.stack other else s.stack other := by
  unfold push stack
  split <;> simp_all

theorem depth_eq_zero_iff {s : FlagStacks} {flag : String} :
    s.depth flag = 0 ↔ s.stack flag = [] :=
  List.length_eq_zero_iff

theorem pop?_eq_none_iff {s : FlagStacks} {flag : String} :
    s.pop? flag = none ↔ s.stack flag = [] := by
  have pushed_iff : s.pushed.any (·.1 == flag) = true ↔ s.stack flag ≠ [] := by
    simp [stack]
  unfold pop?
  split
  case isTrue pushed => simp [pushed_iff.1 pushed]
  case isFalse unpushed =>
    simpa using mt pushed_iff.2 unpushed

/-- Erasing the last push of a flag takes the top off its stack, if there is one. -/
theorem stack_eraseP (pushed : List (String × String)) (flag other : String) :
    stack ⟨pushed.eraseP (·.1 == flag)⟩ other =
      if flag = other then (stack ⟨pushed⟩ other).tail else stack ⟨pushed⟩ other := by
  simp only [stack]
  induction pushed with
  | nil => simp
  | cons pair pushed ih =>
    by_cases found : pair.1 = flag
    · subst found
      split <;> simp_all
    · rw [List.eraseP_cons_of_neg (by simpa using found)]
      by_cases asked : pair.1 = other
      · have different : ¬flag = other := fun same => found (asked.trans same.symm)
        rw [if_neg different] at ih ⊢
        simp [asked, ih]
      · simp [asked, ih]

theorem stack_of_pop? {s t : FlagStacks} {flag : String} (h : s.pop? flag = some t)
    (other : String) :
    t.stack other = if flag = other then (s.stack other).tail else s.stack other := by
  unfold pop? at h
  split at h
  case isFalse => cases h
  case isTrue =>
    cases h
    exact stack_eraseP s.pushed flag other

theorem mem_openFlags_iff {s : FlagStacks} {flag : String} :
    flag ∈ s.openFlags ↔ s.stack flag ≠ [] := by
  rw [openFlags, (Text.sorted_perm _).mem_iff]
  simp [stack]

end FlagStacks

/-! ### Following a path -/

structure FlagChecker where
  flags : FlagStacks
  /-- Whether the test of a flag that was not pushed is an error. -/
  strict : Bool
  deriving DecidableEq, Repr

namespace FlagChecker

def start (strict : Bool) : FlagChecker := ⟨.empty, strict⟩

def visitStep (c : FlagChecker) : Step → Except Error FlagChecker
  | .pushFlag flag value => .ok { c with flags := c.flags.push flag value }
  | .popFlag flag =>
    match c.flags.pop? flag with
    | some flags => .ok { c with flags }
    | none => .error (.unbalancedPop flag)
  | .filterFlag flag _ =>
    if c.strict ∧ c.flags.depth flag = 0 then .error (.filterUnpushed flag) else .ok c
  | .reduce _ => .ok c
  | .lookahead _ => .ok c
  | .call _ _ _ => .ok c

/-- Follows steps up to the first one that is reported; the checker is then as before that step. -/
def visitSteps (c : FlagChecker) : List Step → FlagChecker × Except Error Unit
  | [] => (c, .ok ())
  | step :: steps =>
    match c.visitStep step with
    | .ok next => next.visitSteps steps
    | .error e => (c, .error e)

def visit (c : FlagChecker) (a : Action) : FlagChecker × Except Error Unit :=
  c.visitSteps a.children

def visitPath (c : FlagChecker) : List Action → FlagChecker × Except Error Unit
  | [] => (c, .ok ())
  | a :: path =>
    match c.visit a with
    | (next, .ok ()) => next.visitPath path
    | (stopped, .error e) => (stopped, .error e)

def finish (c : FlagChecker) : Except Error Unit :=
  match c.flags.openFlags with
  | [] => .ok ()
  | flags => .error (.unpoppedFlags flags)

/-- Checks that every flag pushed along a path is popped again, and none before it was pushed. -/
def checkPath (path : List Action) (strict : Bool) : Except Error Unit :=
  match (start strict).visitPath path with
  | (c, .ok ()) => c.finish
  | (_, .error e) => .error e

/-- Lists of steps are followed alike when their first steps and what is behind these are. -/
theorem visitSteps_cons_congr {c : FlagChecker} {step other : Step} {steps others : List Step}
    (first : c.visitStep step = c.visitStep other)
    (behind : ∀ next : FlagChecker, next.visitSteps steps = next.visitSteps others) :
    c.visitSteps (step :: steps) = c.visitSteps (other :: others) := by
  rw [visitSteps, visitSteps, first]
  cases c.visitStep other with
  | ok next => exact behind next
  | error e => rfl

/-- Following two lists of steps in turn is following the joint list. -/
theorem visitSteps_append (c : FlagChecker) (front back : List Step) :
    c.visitSteps (front ++ back) =
      match c.visitSteps front with
      | (next, .ok ()) => next.visitSteps back
      | (stopped, .error e) => (stopped, .error e) := by
  induction front generalizing c with
  | nil => rfl
  | cons step front ih =>
    simp only [List.cons_append, visitSteps]
    cases c.visitStep step with
    | ok next => exact ih next
    | error e => rfl

/-- A path is followed step by step; where its edges end makes no difference. -/
theorem visitPath_eq_visitSteps (c : FlagChecker) (path : List Action) :
    c.visitPath path = c.visitSteps (path.flatMap Action.children) := by
  induction path generalizing c with
  | nil => rfl
  | cons a path ih =>
    rw [List.flatMap_cons, visitSteps_append]
    simp only [visitPath, visit]
    split <;> simp_all

end FlagChecker

end EdgeActions
