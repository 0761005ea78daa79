import EdgeActions.ActionTree
import EdgeActions.Proofs.Reachable

/-!
# Actions as flat trees

An action of steps is stored as a tree of at most two levels, with the lists of its kind in
every leaf.  Each operation on trees does on such trees what the operation on actions of
steps does, failures and their texts included; in particular none of them makes a tree of
another form, and none asks for a child that is not there.
-/

namespace EdgeActions

/-! ### Results of the operations

An operation on trees refuses or overflows where the one on actions of steps does, and what
it makes is the tree of what the other makes.
-/

namespace ActionTree

variable {ε α β : Type} {result : Except ε α} {f : α → β} {g : ε → Failure}

theorem map_mapError_eq_ok_iff {b : β} :
    (result.map f).mapError g = .ok b ↔ ∃ a, result = .ok a ∧ f a = b := by
  cases result with
  | error e => exact iff_of_false nofun fun ⟨a, ha, _⟩ => nomatch ha
  | ok a => simp only [Except.map, Except.mapError, Except.ok.injEq, exists_eq_left']

theorem mapError_ne_error {failure : Failure} (h : ∀ e, g e ≠ failure) :
    result.mapError g ≠ .error failure := by
  cases result with
  | error e => exact fun hsame => h e (Except.error.inj hsame)
  | ok a => nofun

end ActionTree

/-! ### The tree of an action -/

def Step.primitive : Step → Primitive
  | reduce reduction => .reduce reduction
  | lookahead assertion => .lookahead assertion
  | filterFlag flag value => .filterFlag flag value
  | pushFlag flag value => .pushFlag flag value
  | popFlag flag => .popFlag flag
  | call c _ _ => .call c

def Step.tree (s : Step) : ActionTree :=
  .leaf s.primitive s.reads s.writes

/-- The tree in which an action is stored: the resources of every step stand in its leaf. -/
def Action.tree : Action → ActionTree
  | single step => step.tree
  | seq steps reads writes => .node (steps.map Step.tree) reads writes

namespace Step

@[simp]
theorem step_primitive (s : Step) : s.primitive.step s.reads s.writes = s := by
  cases s <;> rfl

@[simp]
theorem tree_isCondition (s : Step) : s.tree.isCondition = .ok s.isCondition := by
  rw [tree, ActionTree.isCondition, step_primitive]

@[simp]
theorem tree_updatesStack (s : Step) : s.tree.updatesStack = .ok s.updatesStack := by
  rw [tree, ActionTree.updatesStack, step_primitive]

@[simp]
theorem tree_text (s : Step) : s.tree.text = s.text := by
  rw [tree, ActionTree.text, step_primitive]

theorem tree_shift (s : Step) (shifted : List Symbol) :
    s.tree.shift shifted = ((s.shift shifted).map (·.map tree)).mapError .overflow := by
  cases s with
  | reduce r =>
    rw [tree, primitive, ActionTree.shift, shift]
    cases r.shift shifted.length <;> rfl
  | lookahead l =>
    rw [tree, primitive, ActionTree.shift, shift]
    cases l.shift shifted <;> rfl
  | call c reads writes =>
    rw [tree, primitive, ActionTree.shift, shift]
    cases c.shift shifted.length <;> rfl
  | filterFlag flag value => rfl
  | pushFlag flag value => rfl
  | popFlag flag => rfl

end Step

namespace Action

variable {steps : List Step} {a b : Action}

theorem tree_children (a : Action) : a.tree.children = a.children.map Step.tree := by
  cases a with
  | single step => rfl
  | seq steps reads writes => rfl

theorem tree_reads (a : Action) : a.tree.reads = a.reads := by
  cases a with
  | single step => rfl
  | seq steps reads writes => rfl

theorem tree_writes (a : Action) : a.tree.writes = a.writes := by
  cases a with
  | single step => rfl
  | seq steps reads writes => rfl

theorem tree_build (steps : List Step) :
    (build steps).tree = ActionTree.build (steps.map Step.tree) := by
  rw [ActionTree.build, List.flatMap_map, List.flatMap_map]
  rfl

/-! ### Facets -/

theorem first_map_tree {step : Step} (h : steps.head? = some step) :
    ActionTree.first (steps.map Step.tree) = .ok step.tree := by
  refine ActionTree.first_of_head? ?_
  rw [List.head?_map, h, Option.map_some]

theorem last_map_tree {step : Step} (h : steps.getLast? = some step) :
    ActionTree.last (steps.map Step.tree) = .ok step.tree := by
  refine ActionTree.last_of_getLast? ?_
  rw [List.getLast?_map, h, Option.map_some]

theorem tree_text (a : Action) : a.tree.text = a.text := by
  cases a with
  | single step => exact step.tree_text
  | seq steps reads writes =>
    have htexts : (steps.map Step.tree).map ActionTree.text = steps.map Step.text := by
      rw [List.map_map]
      exact List.map_congr_left fun step _ => step.tree_text
    rw [tree, ActionTree.text, ActionTree.texts_eq_map, htexts, text]

theorem tree_isCondition (ha : a.children ≠ []) : a.tree.isCondition = .ok a.isCondition := by
  cases a with
  | single step => exact step.tree_isCondition
  | seq steps reads writes =>
    cases steps with
    | nil => exact absurd rfl ha
    | cons step others => exact step.tree_isCondition

theorem tree_updatesStack (ha : a.children ≠ []) : a.tree.updatesStack = .ok a.updatesStack := by
  cases a with
  | single step => exact step.tree_updatesStack
  | seq steps reads writes =>
    obtain ⟨step, hstep⟩ : ∃ step, steps.getLast? = some step :=
      ⟨steps.getLast ha, List.getLast?_eq_some_getLast ha⟩
    rw [tree, ActionTree.updatesStack, ActionTree.lastUpdatesStack_eq, last_map_tree hstep,
      updatesStack, children_seq, hstep]
    exact step.tree_updatesStack

theorem tree_condition (ha : a.children ≠ []) :
    a.tree.condition = (a.condition.map Step.tree).mapError .refused := by
  cases a with
  | single step =>
    rw [tree, Step.tree, ActionTree.condition, Step.step_primitive, condition]
    cases step with
    | lookahead | filterFlag => rfl
    | reduce | pushFlag | popFlag | call => rfl
  | seq steps reads writes =>
    cases steps with
    | nil => exact absurd rfl ha
    | cons step others =>
      have htext := tree_text (seq (step :: others) reads writes)
      rw [tree] at htext ⊢
      rw [ActionTree.condition_node rfl step.tree_isCondition, htext, condition, children_seq,
        List.head?_cons]
      dsimp only
      split
      case isTrue => rfl
      case isFalse => rfl

theorem tree_reduceWith (ha : a.children ≠ []) :
    a.tree.reduceWith = a.reduceWith.mapError .refused := by
  cases a with
  | single step => cases step <;> rfl
  | seq steps reads writes =>
    obtain ⟨step, hstep⟩ : ∃ step, steps.getLast? = some step :=
      ⟨steps.getLast ha, List.getLast?_eq_some_getLast ha⟩
    have htext := tree_text (seq steps reads writes)
    rw [tree] at htext ⊢
    rw [ActionTree.reduceWith_node (last_map_tree hstep) step.tree_updatesStack, htext, reduceWith,
      children_seq, hstep]
    cases step <;> rfl

/-! ### Sequences -/

theorem flatten_map_tree (actions : List Action) :
    ActionTree.flatten (actions.map tree) = (actions.flatMap children).map Step.tree := by
  rw [ActionTree.flatten, List.flatMap_map, List.map_flatMap]
  exact List.flatMap_congr fun a _ => a.tree_children

/-- The position of the last child stands for the test whether there are more steps. -/
theorem checkFrom_map_tree {final index : Nat} (h : index + steps.length = final + 1) :
    ActionTree.checkFrom final index (steps.map Step.tree) =
      (checkFrom index steps).mapError .refused := by
  induction steps generalizing index with
  | nil => rfl
  | cons step steps ih =>
    rw [List.length_cons] at h
    have htail := @ih (index + 1) (by omega)
    have hfinal : index = final ↔ steps = [] := by
      rw [← List.length_eq_zero_iff]
      omega
    rw [List.map_cons, ActionTree.checkFrom_cons step.tree_isCondition step.tree_updatesStack,
      step.tree_text, htail, checkFrom]
    split
    case isTrue => rfl
    case isFalse =>
      simp only [ne_eq, hfinal]
      split <;> rfl

theorem check_map_tree (steps : List Step) :
    ActionTree.check (steps.map Step.tree) =
      ((ofSteps steps).map fun _ => ()).mapError .refused := by
  cases steps with
  | nil => rfl
  | cons step steps =>
    have hlength : 0 + (step :: steps).length =
        ((step :: steps).map Step.tree).length - 1 + 1 := by
      rw [List.length_map, List.length_cons, Nat.zero_add, Nat.add_sub_cancel]
    rw [ActionTree.check, checkFrom_map_tree hlength, ofSteps, if_neg (List.cons_ne_nil step steps)]
    cases checkFrom 0 (step :: steps) with
    | error e => rfl
    | ok => rfl

theorem sequence_map_tree (actions : List Action) :
    ActionTree.sequence (actions.map tree) = ((sequence actions).map tree).mapError .refused := by
  rw [ActionTree.sequence, flatten_map_tree, check_map_tree, sequence]
  cases h : ofSteps (actions.flatMap children) with
  | error e => rfl
  | ok a =>
    obtain ⟨-, rfl⟩ := ofSteps_eq_ok_iff.1 h
    rw [Except.map, Except.map, tree_build]
    rfl

theorem tree_fuse? (a b : Action) : a.tree.fuse? b.tree = .ok ((a.fuse? b).map tree) := by
  have hchildren : a.tree.children ++ b.tree.children = (a.children ++ b.children).map Step.tree := by
    rw [tree_children, tree_children, List.map_append]
  rw [ActionTree.fuse?, hchildren, check_map_tree, fuse?]
  cases h : ofSteps (a.children ++ b.children) with
  | error e => rfl
  | ok fused =>
    obtain ⟨-, rfl⟩ := ofSteps_eq_ok_iff.1 h
    rw [← tree_build]
    rfl

theorem fuseNext_of_fused {edge next joint : Action} (h : edge.fuse? next = some joint)
    (edges : List ActionTree) :
    ActionTree.fuseNext (edges ++ [edge.tree]) next.tree = .ok (edges ++ [joint.tree]) := by
  rw [ActionTree.fuseNext, List.getLast?_concat, List.dropLast_concat]
  dsimp only
  rw [tree_fuse?, h]
  rfl

theorem fuseNext_of_declined {edge next : Action} (h : edge.fuse? next = none)
    (edges : List ActionTree) :
    ActionTree.fuseNext (edges ++ [edge.tree]) next.tree =
      .ok (edges ++ [edge.tree] ++ [next.tree]) := by
  rw [ActionTree.fuseNext, List.getLast?_concat]
  dsimp only
  rw [tree_fuse?, h]
  rfl

/-- The edges so far stay as they are while actions are fused to the last one. -/
theorem foldlM_fuseNext_map_tree (edges : List ActionTree) (edge : Action)
    (actions : List Action) :
    (actions.map tree).foldlM ActionTree.fuseNext (edges ++ [edge.tree]) =
      .ok (edges ++ (fuseFrom edge actions).map tree) := by
  induction actions generalizing edges edge with
  | nil => rfl
  | cons next actions ih =>
    rw [List.map_cons, List.foldlM_cons]
    cases hfuse : edge.fuse? next with
    | some joint =>
      rw [fuseNext_of_fused hfuse, fuseFrom_of_fused hfuse]
      exact ih edges joint
    | none =>
      rw [fuseNext_of_declined hfuse, fuseFrom_of_declined hfuse]
      refine (ih (edges ++ [edge.tree]) next).trans ?_
      rw [List.map_cons, List.append_assoc, List.singleton_append]

theorem fuseEdges_map_tree (actions : List Action) :
    ActionTree.fuseEdges (actions.map tree) = .ok ((fuseEdges actions).map tree) := by
  cases actions with
  | nil => rfl
  | cons first actions => exact foldlM_fuseNext_map_tree [] first actions

/-! ### Shifted symbols -/

/-- What is left of a sequence, given what is left of its last `count` steps. -/
def treeLeft (kept : List ActionTree) (dropped : Bool) (count : Nat) :
    Shifted (List Step) → Shifted ActionTree
  | .resolved verdict => .resolved verdict
  | .continues rest =>
    ActionTree.ofKept (kept ++ rest.map Step.tree) (dropped || decide (rest.length < count))

theorem shiftChildren_map_tree (shifted : List Symbol) (kept : List ActionTree) (dropped : Bool)
    (steps : List Step) :
    ActionTree.shiftChildren shifted kept dropped (steps.map Step.tree) =
      ((shiftSteps shifted steps).map (treeLeft kept dropped steps.length)).mapError .overflow := by
  induction steps generalizing kept dropped with
  | nil => simp [ActionTree.shiftChildren, shiftSteps, Except.map, Except.mapError, treeLeft]
  | cons step steps ih =>
    rw [List.map_cons, ActionTree.shiftChildren, step.tree_shift, shiftSteps]
    -- The step overflows, is refuted, holds and is dropped, or is kept.
    rcases hstep : step.shift shifted with overflow | ⟨(_ | _) | left⟩
    · rfl
    · rfl
    · refine (ih kept true).trans ?_
      rcases hsteps : shiftSteps shifted steps with overflow | ⟨verdict | rest⟩
      · rfl
      · rfl
      · have hfewer : rest.length < steps.length + 1 :=
          Nat.lt_succ_of_le (shiftSteps_eq_continues_iff.1 hsteps).length_le
        simp [Except.map, Except.mapError, treeLeft, hfewer]
    · refine (ih (kept ++ [left.tree]) dropped).trans ?_
      rcases shiftSteps shifted steps with overflow | ⟨verdict | rest⟩
      · rfl
      · rfl
      · simp [Except.map, Except.mapError, treeLeft, Shifted.map]

theorem ofKept_map_tree (count : Nat) (rest : List Step) :
    ActionTree.ofKept (rest.map Step.tree) (decide (rest.length < count)) =
      (if rest.length < count then ofRemaining rest else .continues (build rest)).map tree := by
  split
  case isTrue hfewer =>
    rw [decide_eq_true hfewer]
    match rest with
    | [] => rfl
    | [step] => rfl
    | first :: second :: others =>
      have hseveral : 1 < (first :: second :: others).length := Nat.one_lt_succ_succ others.length
      rw [ofRemaining_of_one_lt hseveral, Shifted.map, tree_build]
      rfl
  case isFalse hall =>
    rw [decide_eq_false hall, Shifted.map, tree_build]
    rfl

theorem tree_shift (a : Action) (shifted : List Symbol) :
    a.tree.shift shifted = ((a.shift shifted).map (·.map tree)).mapError .overflow := by
  cases a with
  | single step =>
    rw [tree, step.tree_shift, shift]
    rcases step.shift shifted with overflow | ⟨verdict | left⟩ <;> rfl
  | seq steps reads writes =>
    rw [tree, ActionTree.shift, shiftChildren_map_tree, shift]
    rcases shiftSteps shifted steps with overflow | ⟨verdict | rest⟩
    · rfl
    · rfl
    · exact congrArg Except.ok (ofKept_map_tree steps.length rest)

end Action

end EdgeActions
