import EdgeActions.Action.Basic

/-!
# Building sequences

On one edge a condition has to be the first step and a stack update the last.
`Legal` states this rule on a list of steps.  `ofSteps` checks it and reports
the first step that breaks it; `ofSteps_eq_ok_iff` ties the two together.

Consecutive edges are merged from left to right: an action joins the edge in
front of it if their steps can be executed on one edge, and starts a new edge
otherwise.
-/

namespace EdgeActions.Action

/-- Whether steps can be executed in order on one edge. -/
structure Legal (steps : List Step) : Prop where
  nonempty : steps ≠ []
  conditionsFirst : ∀ step ∈ steps.tail, step.isCondition = false
  updatesLast : ∀ step ∈ steps.dropLast, step.updatesStack = false

instance (steps : List Step) : Decidable (Legal steps) :=
  decidable_of_iff
    (steps ≠ [] ∧ (∀ step ∈ steps.tail, step.isCondition = false) ∧
      ∀ step ∈ steps.dropLast, step.updatesStack = false)
    ⟨fun ⟨h₁, h₂, h₃⟩ => ⟨h₁, h₂, h₃⟩, fun h => ⟨h.1, h.2, h.3⟩⟩

/-- The rule for actions: a sequence holds legal steps and is recorded as it is built. -/
def WellFormed : Action → Prop
  | single _ => True
  | seq steps reads writes => Legal steps ∧ seq steps reads writes = build steps

instance : DecidablePred WellFormed
  | single _ => inferInstanceAs (Decidable True)
  | seq steps reads writes =>
    inferInstanceAs (Decidable (Legal steps ∧ seq steps reads writes = build steps))

theorem legal_singleton (step : Step) : Legal [step] :=
  ⟨List.cons_ne_nil _ _, by simp, by simp⟩

/-- A step of its own is legal, and so are the steps of every well-formed action. -/
theorem WellFormed.legal {a : Action} (h : a.WellFormed) : Legal a.children := by
  cases a with
  | single step => exact legal_singleton step
  | seq steps reads writes => exact h.1

/-- What is recorded for a well-formed action is what its steps read. -/
theorem WellFormed.reads_eq {a : Action} (h : a.WellFormed) :
    a.reads = a.children.flatMap Step.reads := by
  cases a with
  | single step => simp [reads]
  | seq steps reads writes => exact (seq.inj h.2).2.1

/-- What is recorded for a well-formed action is what its steps write. -/
theorem WellFormed.writes_eq {a : Action} (h : a.WellFormed) :
    a.writes = a.children.flatMap Step.writes := by
  cases a with
  | single step => simp [writes]
  | seq steps reads writes => exact (seq.inj h.2).2.2

def checkFrom (index : Nat) : List Step → Except Error Unit
  | [] => .ok ()
  | step :: steps =>
    if index ≠ 0 ∧ step.isCondition then
      .error (.conditionNotFirst index step.text)
    else if steps ≠ [] ∧ step.updatesStack then
      .error (.stackUpdateNotLast index step.text)
    else
      checkFrom (index + 1) steps

def ofSteps (steps : List Step) : Except Error Action :=
  if steps = [] then .error .emptySequence else (checkFrom 0 steps).map fun _ => build steps

def sequence (actions : List Action) : Except Error Action :=
  ofSteps (actions.flatMap children)

theorem checkFrom_eq_ok_iff {index : Nat} {steps : List Step} :
    checkFrom index steps = .ok () ↔
      (∀ step ∈ (if index = 0 then steps.tail else steps), step.isCondition = false) ∧
        ∀ step ∈ steps.dropLast, step.updatesStack = false := by
  induction steps generalizing index with
  | nil => simp [checkFrom]
  | cons step steps ih =>
    have tail := @ih (index + 1)
    rw [if_neg (Nat.succ_ne_zero index)] at tail
    unfold checkFrom
    split
    case isTrue misplaced =>
      obtain ⟨later, condition⟩ := misplaced
      simp [later, condition]
    case isFalse placed =>
      split
      case isTrue misplaced =>
        obtain ⟨more, update⟩ := misplaced
        simp [List.dropLast_cons_of_ne_nil more, update]
      case isFalse last =>
        rw [tail]
        by_cases first : index = 0
        · subst first
          cases steps with
          | nil => simp
          | cons next steps => simp_all
        · cases steps with
          | nil => simp_all
          | cons next steps => simp_all [and_assoc]

/-- Exactly the legal lists of steps are accepted, as they are. -/
theorem ofSteps_eq_ok_iff {steps : List Step} {a : Action} :
    ofSteps steps = .ok a ↔ Legal steps ∧ a = build steps := by
  unfold ofSteps
  split
  case isTrue empty =>
    constructor
    · intro h
      cases h
    · rintro ⟨legal, _⟩
      exact absurd empty legal.nonempty
  case isFalse nonempty =>
    have checked := @checkFrom_eq_ok_iff 0 steps
    rw [if_pos rfl] at checked
    cases outcome : checkFrom 0 steps with
    | error e =>
      rw [outcome] at checked
      constructor
      · intro h
        cases h
      · rintro ⟨legal, _⟩
        exact absurd (checked.2 ⟨legal.conditionsFirst, legal.updatesLast⟩) (by simp)
    | ok =>
      obtain ⟨conditions, updates⟩ := checked.1 outcome
      constructor
      · intro h
        cases h
        exact ⟨⟨nonempty, conditions, updates⟩, rfl⟩
      · rintro ⟨_, rfl⟩
        rfl

/-! ### Fusing edges -/

def fuse? (a b : Action) : Option Action :=
  (ofSteps (a.children ++ b.children)).toOption

/-- The edges that result when the given actions follow an edge that is being built. -/
def fuseFrom (edge : Action) : List Action → List Action
  | [] => [edge]
  | next :: actions =>
    match edge.fuse? next with
    | some fused => fuseFrom fused actions
    | none => edge :: fuseFrom next actions

def fuseEdges : List Action → List Action
  | [] => []
  | first :: actions => fuseFrom first actions

theorem fuse?_eq_some_iff {a b fused : Action} :
    a.fuse? b = some fused ↔
      Legal (a.children ++ b.children) ∧ fused = build (a.children ++ b.children) := by
  rw [← ofSteps_eq_ok_iff, fuse?]
  cases ofSteps (a.children ++ b.children) <;> simp [Except.toOption]

theorem fuse?_eq_none_iff_not_legal {a b : Action} :
    a.fuse? b = none ↔ ¬ Legal (a.children ++ b.children) := by
  constructor
  · intro declined legal
    rw [fuse?_eq_some_iff.2 ⟨legal, rfl⟩] at declined
    cases declined
  · intro illegal
    rw [Option.eq_none_iff_forall_ne_some]
    exact fun fused joined => illegal (fuse?_eq_some_iff.1 joined).1

theorem fuseFrom_of_fused {edge next joint : Action} (h : edge.fuse? next = some joint)
    (actions : List Action) : fuseFrom edge (next :: actions) = fuseFrom joint actions := by
  rw [fuseFrom, h]

theorem fuseFrom_of_declined {edge next : Action} (h : edge.fuse? next = none)
    (actions : List Action) :
    fuseFrom edge (next :: actions) = edge :: fuseFrom next actions := by
  rw [fuseFrom, h]

/-- Fusion keeps the steps and their order. -/
theorem flatMap_children_fuseFrom (edge : Action) (actions : List Action) :
    (fuseFrom edge actions).flatMap children =
      edge.children ++ actions.flatMap children := by
  induction actions generalizing edge with
  | nil => simp [fuseFrom]
  | cons next actions ih =>
    cases seam : edge.fuse? next with
    | some joint =>
      rw [fuseFrom_of_fused seam, ih, (fuse?_eq_some_iff.1 seam).2]
      simp
    | none =>
      rw [fuseFrom_of_declined seam]
      simp [ih]

theorem flatMap_children_fuseEdges (actions : List Action) :
    (fuseEdges actions).flatMap children = actions.flatMap children := by
  cases actions with
  | nil => rfl
  | cons first actions => exact flatMap_children_fuseFrom first actions

end EdgeActions.Action
