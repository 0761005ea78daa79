import EdgeActions.Proofs.Reachable
import EdgeActions.Proofs.Seams

/-!
# Facets of fused actions

Two actions can be fused if they join at the seam: the first one does not update the
stack and the second one is no condition.  The fused action starts as the first one does
and ends as the second one does, so it takes its condition from the first and its
reduction from the second.  What it does not have it reports in its own name.
-/

namespace EdgeActions.Action

variable {a b fused : Action}

/-- What a fused action has of the first action and what of the second. -/
structure Delegates (a b fused : Action) : Prop where
  children : fused.children = a.children ++ b.children
  isCondition : fused.isCondition = a.isCondition
  condition : a.isCondition = true →
    fused.condition = a.condition ∧ ∃ step, a.condition = .ok step ∧
      fused.children.head? = some step ∧
      ((∃ assertion, step = .lookahead assertion) ∨ ∃ flag value, step = .filterFlag flag value) ∧
      (single step).condition = .ok step
  notACondition : a.isCondition = false → fused.condition = .error (.notACondition fused.text)
  updatesStack : fused.updatesStack = b.updatesStack
  reduceWith : b.updatesStack = true →
    fused.reduceWith = b.reduceWith ∧ ∃ reduction, b.reduceWith = .ok reduction
  noStackUpdate : b.updatesStack = false → fused.reduceWith = .error (.noStackUpdate fused.text)

theorem fuse?_eq_toOption_sequence (a b : Action) :
    a.fuse? b = (sequence [a, b]).toOption := by
  rw [fuse?, sequence, List.flatMap_cons, List.flatMap_cons, List.flatMap_nil, List.append_nil]

/-- Whether the steps of two actions are legal together can be read off the actions. -/
theorem legal_children_append_iff (ha : Legal a.children) (hb : Legal b.children) :
    Legal (a.children ++ b.children) ↔ a.updatesStack = false ∧ b.isCondition = false := by
  rw [legal_append_iff ha hb, Action.updatesStack, Action.isCondition,
    List.getLast?_eq_some_getLast ha.nonempty, List.head?_eq_some_head hb.nonempty,
    Option.any_some, Option.any_some, ← joins_iff]
  constructor
  · intro hseam
    exact hseam _ rfl _ rfl
  · rintro hjoins earlier ⟨⟩ later ⟨⟩
    exact hjoins

theorem isSome_fuse?_iff (ha : Legal a.children) (hb : Legal b.children) :
    (a.fuse? b).isSome = true ↔ a.updatesStack = false ∧ b.isCondition = false := by
  rw [← legal_children_append_iff ha hb, Option.isSome_iff_exists]
  constructor
  · rintro ⟨fused, hfused⟩
    exact (fuse?_eq_some_iff.1 hfused).1
  · exact fun hlegal => ⟨_, fuse?_eq_some_iff.2 ⟨hlegal, rfl⟩⟩

/-! ### First and last steps -/

/-- The condition of an action is its first step, which is a condition of its own. -/
theorem exists_condition (h : a.isCondition = true) :
    ∃ step, a.condition = .ok step ∧ a.children.head? = some step ∧
      ((∃ assertion, step = .lookahead assertion) ∨ ∃ flag value, step = .filterFlag flag value) ∧
      (single step).condition = .ok step := by
  obtain ⟨step, hstep⟩ := isCondition_iff.1 h
  obtain ⟨hfirst, hcondition⟩ := condition_eq_ok_iff.1 hstep
  refine ⟨step, hstep, hfirst, ?_, condition_eq_ok_iff.2 ⟨rfl, hcondition⟩⟩
  cases step with
  | lookahead assertion => exact Or.inl ⟨assertion, rfl⟩
  | filterFlag flag value => exact Or.inr ⟨flag, value, rfl⟩
  | reduce | pushFlag | popFlag | call => cases hcondition

/-- Actions that start with the same step have the same condition. -/
theorem condition_eq_of_head?_eq (hfirst : a.children.head? = b.children.head?)
    (h : b.isCondition = true) : a.condition = b.condition := by
  obtain ⟨step, hstep⟩ := isCondition_iff.1 h
  rw [hstep, condition_eq_ok_iff, hfirst]
  exact condition_eq_ok_iff.1 hstep

/-- Actions that end with the same step have the same reduction. -/
theorem reduceWith_eq_of_getLast?_eq (hlast : a.children.getLast? = b.children.getLast?)
    (h : b.updatesStack = true) : a.reduceWith = b.reduceWith := by
  obtain ⟨reduction, hreduction⟩ := updatesStack_iff.1 h
  rw [hreduction, reduceWith_eq_ok_iff, hlast]
  exact reduceWith_eq_ok_iff.1 hreduction

theorem delegates_of_fuse? (ha : a.children ≠ []) (hb : b.children ≠ [])
    (h : a.fuse? b = some fused) : Delegates a b fused := by
  obtain ⟨-, rfl⟩ := fuse?_eq_some_iff.1 h
  have hfirst : (build (a.children ++ b.children)).children.head? = a.children.head? :=
    List.head?_append_of_ne_nil _ ha
  have hlast : (build (a.children ++ b.children)).children.getLast? = b.children.getLast? :=
    List.getLast?_append_of_ne_nil _ hb
  have hcondition : (build (a.children ++ b.children)).isCondition = a.isCondition :=
    congrArg (·.any Step.isCondition) hfirst
  have hupdates : (build (a.children ++ b.children)).updatesStack = b.updatesStack :=
    congrArg (·.any Step.updatesStack) hlast
  constructor
  case children => rfl
  case isCondition => exact hcondition
  case updatesStack => exact hupdates
  case condition =>
    intro hstarts
    rw [hfirst]
    exact ⟨condition_eq_of_head?_eq hfirst hstarts, exists_condition hstarts⟩
  case notACondition =>
    intro hstarts
    exact condition_of_not_isCondition (hcondition.trans hstarts)
  case reduceWith =>
    intro hends
    exact ⟨reduceWith_eq_of_getLast?_eq hlast hends, updatesStack_iff.1 hends⟩
  case noStackUpdate =>
    intro hends
    exact reduceWith_of_not_updatesStack (hupdates.trans hends)

/--
Fusing two actions is building a sequence of them.  It succeeds exactly when the first
one does not update the stack and the second one is no condition, and then the fused
action has the steps of both, the condition of the first one and the reduction of the
second, or reports in its own name that it has none.
-/
theorem fuse?_delegates (ha : a.Reachable) (hb : b.Reachable) :
    a.fuse? b = (sequence [a, b]).toOption ∧
    ((a.fuse? b).isSome = true ↔ a.updatesStack = false ∧ b.isCondition = false) ∧
    ∀ fused, a.fuse? b = some fused → Delegates a b fused := by
  have hfront := ha.wellFormed.legal
  have hback := hb.wellFormed.legal
  exact ⟨fuse?_eq_toOption_sequence a b, isSome_fuse?_iff hfront hback, fun fused hfused =>
    delegates_of_fuse? hfront.nonempty hback.nonempty hfused⟩

/-- Two sequences are fused in one order only; all four steps have the condition of the first. -/
theorem fuse?_delegates_filter :
    let a := build [.filterFlag "in" "x", .pushFlag "in" "y"]
    let b := build [.popFlag "in", .call ⟨"f", [0], none, 1⟩ ["r"] ["w"]]
    a.Reachable ∧ b.Reachable ∧ (b.fuse? a).isSome = false ∧
      ∃ fused, a.fuse? b = some fused ∧ fused.condition = .ok (.filterFlag "in" "x") ∧
        fused.reduceWith = .error (.noStackUpdate fused.text) := by
  intro a b
  have ha : a.Reachable := reachable_iff_wellFormed.2 (wellFormed_build (by decide))
  have hb : b.Reachable := reachable_iff_wellFormed.2 (wellFormed_build (by decide))
  obtain ⟨-, hsucceeds, hdelegates⟩ := fuse?_delegates ha hb
  obtain ⟨-, hfails, -⟩ := fuse?_delegates hb ha
  obtain ⟨fused, hfused⟩ := Option.isSome_iff_exists.1 (hsucceeds.2 ⟨rfl, rfl⟩)
  have hfacets := hdelegates fused hfused
  obtain ⟨hcondition, -⟩ := hfacets.condition rfl
  refine ⟨ha, hb, ?_, fused, hfused, hcondition, hfacets.noStackUpdate rfl⟩
  rw [Bool.eq_false_iff, ne_eq, hfails]
  rintro ⟨-, hstarts⟩
  cases hstarts

end EdgeActions.Action
