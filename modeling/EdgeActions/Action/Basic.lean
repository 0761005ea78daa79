import EdgeActions.Step

/-!
# Actions

What is executed when an edge of a parse table is followed: one step, or a
sequence of steps in order.  Sequences hold steps and so are never nested; that
stored actions come to no more than that is shown for action trees.  The
condition of an action is that of its first step and the reduction that of its
last.  A sequence records the resources of its steps when it is built.

Under a shift the steps of an action are brought up to date in order.  A
refuted assertion refutes the whole action and the steps behind it are left
alone; an assertion that holds is dropped.  A sequence from which steps were
dropped and at most one is left is no sequence any more.
-/

namespace EdgeActions

/-! ### Errors

The reasons for which a facet of an action is missing, a sequence is refused or
a path of edges is unbalanced.  Actions are named by their text.
-/

inductive Error where
  | notACondition (action : String)
  | noStackUpdate (action : String)
  | emptySequence
  | conditionNotFirst (index : Nat) (action : String)
  | stackUpdateNotLast (index : Nat) (action : String)
  | unbalancedPop (flag : String)
  | filterUnpushed (flag : String)
  | unpoppedFlags (flags : List String)
  deriving DecidableEq, Repr

def Error.message : Error → String
  | notACondition action => "action " ++ action ++ " is not a condition"
  | noStackUpdate action => "action " ++ action ++ " does not update the stack"
  | emptySequence => "empty action sequence"
  | conditionNotFirst index action =>
    "condition " ++ action ++ " at position " ++ toString index ++
      " is not the first action"
  | stackUpdateNotLast index action =>
    "stack update " ++ action ++ " at position " ++ toString index ++
      " is not the last action"
  | unbalancedPop flag => "flag '" ++ flag ++ "' popped while not pushed"
  | filterUnpushed flag => "flag '" ++ flag ++ "' filtered while not pushed"
  | unpoppedFlags flags => "flags left pushed: " ++ Text.listed flags

/-! ### Actions of steps -/

inductive Action where
  | single (step : Step)
  | seq (steps : List Step) (reads writes : List Resource)
  deriving DecidableEq, Repr

namespace Action

def children : Action → List Step
  | single step => [step]
  | seq steps _ _ => steps

def reads : Action → List Resource
  | single step => step.reads
  | seq _ reads _ => reads

def writes : Action → List Resource
  | single step => step.writes
  | seq _ _ writes => writes

/-- The sequence of the given steps, with their resources in the order of the steps. -/
def build (steps : List Step) : Action :=
  seq steps (steps.flatMap Step.reads) (steps.flatMap Step.writes)

def isCondition (a : Action) : Bool :=
  a.children.head?.any Step.isCondition

def updatesStack (a : Action) : Bool :=
  a.children.getLast?.any Step.updatesStack

def text : Action → String
  | single step => step.text
  | seq steps _ _ => "Seq(" ++ Text.bracketed (steps.map Step.text) ++ ")"

def condition (a : Action) : Except Error Step :=
  match a.children.head? with
  | some step => if step.isCondition then .ok step else .error (.notACondition a.text)
  | none => .error (.notACondition a.text)

def reduceWith (a : Action) : Except Error Reduction :=
  match a.children.getLast? with
  | some (.reduce reduction) => .ok reduction
  | _ => .error (.noStackUpdate a.text)

/--
Whether two actions must keep their order, because one of them writes a resource
that the other one reads or writes.
-/
def conflictsWith (a b : Action) : Bool :=
  a.reads.any b.writes.contains ||
    a.writes.any fun resource => b.writes.contains resource || b.reads.contains resource

@[simp]
theorem children_single (step : Step) : (single step).children = [step] := rfl

@[simp]
theorem children_seq (steps : List Step) (reads writes : List Resource) :
    (seq steps reads writes).children = steps := rfl

@[simp]
theorem children_build (steps : List Step) : (build steps).children = steps := rfl

theorem condition_eq_ok_iff {a : Action} {step : Step} :
    a.condition = .ok step ↔ a.children.head? = some step ∧ step.isCondition = true := by
  unfold condition
  cases a.children.head? with
  | none => simp
  | some first =>
    dsimp only
    by_cases hfirst : first.isCondition = true
    · rw [if_pos hfirst, Except.ok.injEq, Option.some.injEq]
      exact ⟨fun h => ⟨h, h ▸ hfirst⟩, fun h => h.1⟩
    · rw [if_neg hfirst, Option.some.injEq]
      refine iff_of_false (fun h => nomatch h) ?_
      rintro ⟨rfl, hstep⟩
      exact hfirst hstep

theorem reduceWith_eq_ok_iff {a : Action} {reduction : Reduction} :
    a.reduceWith = .ok reduction ↔ a.children.getLast? = some (.reduce reduction) := by
  unfold reduceWith
  split
  case h_1 last hlast => rw [hlast, Except.ok.injEq, Option.some.injEq, Step.reduce.injEq]
  case h_2 hother => exact iff_of_false nofun (hother reduction)

theorem isCondition_iff {a : Action} :
    a.isCondition = true ↔ ∃ step, a.condition = .ok step := by
  unfold isCondition condition
  cases a.children.head? with
  | none => simp
  | some step => cases h : step.isCondition <;> simp [h]

theorem updatesStack_iff {a : Action} :
    a.updatesStack = true ↔ ∃ reduction, a.reduceWith = .ok reduction := by
  unfold updatesStack reduceWith
  cases a.children.getLast? with
  | none => simp
  | some step => cases step <;> simp [Step.updatesStack]

/-- Without a condition the action itself is reported, whatever its steps are. -/
theorem condition_of_not_isCondition {a : Action} (h : a.isCondition = false) :
    a.condition = .error (.notACondition a.text) := by
  unfold isCondition at h
  unfold condition
  cases hfirst : a.children.head? with
  | none => rfl
  | some step =>
    rw [hfirst, Option.any_some] at h
    exact if_neg (Bool.eq_false_iff.1 h)

theorem reduceWith_of_not_updatesStack {a : Action} (h : a.updatesStack = false) :
    a.reduceWith = .error (.noStackUpdate a.text) := by
  unfold updatesStack at h
  unfold reduceWith
  cases hlast : a.children.getLast? with
  | none => rfl
  | some step =>
    rw [hlast, Option.any_some] at h
    cases step with
    | reduce => cases h
    | lookahead | filterFlag | pushFlag | popFlag | call => rfl

/-- A conflict is a resource that one action writes and the other one reads or writes. -/
theorem conflictsWith_iff {a b : Action} :
    a.conflictsWith b = true ↔
      ∃ resource, (resource ∈ a.reads ∧ resource ∈ b.writes) ∨
        (resource ∈ a.writes ∧ (resource ∈ b.writes ∨ resource ∈ b.reads)) := by
  simp only [conflictsWith, Bool.or_eq_true, List.any_eq_true, List.contains_iff_mem]
  exact exists_or.symm

/-! ### Shifted symbols -/

/-- The steps after the shifted symbols without those that hold, or the refutation. -/
def shiftSteps (shifted : List Symbol) : List Step → Except Overflow (Shifted (List Step))
  | [] => .ok (.continues [])
  | step :: steps =>
    match step.shift shifted with
    | .error overflow => .error overflow
    | .ok (.resolved false) => .ok (.resolved false)
    | .ok (.resolved true) => shiftSteps shifted steps
    | .ok (.continues step) => (shiftSteps shifted steps).map (·.map (step :: ·))

/-- What is left of a sequence of which some steps were dropped. -/
def ofRemaining : List Step → Shifted Action
  | [] => .resolved true
  | [step] => .continues (single step)
  | steps => .continues (build steps)

theorem ofRemaining_of_one_lt {steps : List Step} (h : 1 < steps.length) :
    ofRemaining steps = .continues (build steps) := by
  match steps, h with
  | _ :: _ :: _, _ => rfl

def shift (a : Action) (shifted : List Symbol) : Except Overflow (Shifted Action) :=
  match a with
  | single step => (step.shift shifted).map (·.map single)
  | seq steps _ _ =>
    (shiftSteps shifted steps).map fun
      | .resolved verdict => .resolved verdict
      | .continues rest =>
        if rest.length < steps.length then ofRemaining rest else .continues (build rest)

end Action

end EdgeActions
