import EdgeActions.Proofs.FlatActions

/-!
# Trees that can be made

The trees that finite combinations of the operations make are exactly the trees of the
actions of steps that are made alike: `madeFrom_iff`.  What is known of these actions so
holds of whatever is stored.  Sequences are neither empty nor nested and keep the rule about
conditions and stack updates, an action stores the resources of its kind, and no operation
asks a sequence for a child that it does not have.
-/

namespace EdgeActions.ActionTree

variable {given : Given} {t a b : ActionTree} {actions : List ActionTree}

/-- The trees that finite combinations of the operations make, with calls as given. -/
inductive MadeFrom (given : Given) : ActionTree → Prop where
  | reduction (r : Reduction) : MadeFrom given (reduction r)
  | lookahead (l : Lookahead) : MadeFrom given (lookahead l)
  | filterFlag (flag value : String) : MadeFrom given (filterFlag flag value)
  | pushFlag (flag value : String) : MadeFrom given (pushFlag flag value)
  | popFlag (flag : String) : MadeFrom given (popFlag flag)
  | call {c : Call} {reads writes : List Resource} (hgiven : given c reads writes) :
      MadeFrom given (call c reads writes)
  | sequence {actions : List ActionTree} {t : ActionTree}
      (hactions : ∀ a ∈ actions, MadeFrom given a) (h : sequence actions = .ok t) :
      MadeFrom given t
  | fuse {a b fused : ActionTree} (ha : MadeFrom given a) (hb : MadeFrom given b)
      (h : a.fuse? b = .ok (some fused)) : MadeFrom given fused
  | fuseEdges {actions edges : List ActionTree} {edge : ActionTree}
      (hactions : ∀ a ∈ actions, MadeFrom given a) (h : fuseEdges actions = .ok edges)
      (hedge : edge ∈ edges) : MadeFrom given edge
  | shift {a rest : ActionTree} {shifted : List Symbol} (ha : MadeFrom given a)
      (h : a.shift shifted = .ok (.continues rest)) : MadeFrom given rest
  | condition {a t : ActionTree} (ha : MadeFrom given a) (h : a.condition = .ok t) :
      MadeFrom given t
  | child {a t : ActionTree} (ha : MadeFrom given a) (h : t ∈ a.children) : MadeFrom given t

/-- The lists that an action of each kind stores.  A call has those that were given when it
was made, since when its offset may have grown; a sequence has those of its children in order. -/
inductive Recorded (given : Given) : ActionTree → Prop where
  | reduction (r : Reduction) :
      Recorded given (leaf (.reduce r) [] ["nt_" ++ r.nonTerminal.name])
  | lookahead (l : Lookahead) : Recorded given (leaf (.lookahead l) [] [])
  | filterFlag (flag value : String) :
      Recorded given (leaf (.filterFlag flag value) ["flag_" ++ flag] [])
  | pushFlag (flag value : String) :
      Recorded given (leaf (.pushFlag flag value) [] ["flag_" ++ flag])
  | popFlag (flag : String) :
      Recorded given (leaf (.popFlag flag) ["flag_" ++ flag] ["flag_" ++ flag])
  | call {made c : Call} {reads writes : List Resource} (hgiven : given made reads writes)
      (hsame : c = { made with offset := c.offset }) (hoffset : made.offset ≤ c.offset) :
      Recorded given (leaf (.call c) reads writes)
  | node {children : List ActionTree} (hchildren : ∀ child ∈ children, Recorded given child) :
      Recorded given (node children (children.flatMap reads) (children.flatMap writes))

/-! ### Made trees are the trees of made actions -/

theorem exists_map_tree (h : ∀ t ∈ actions, ∃ a : Action, a.MadeFrom given ∧ t = a.tree) :
    ∃ as : List Action, (∀ a ∈ as, a.MadeFrom given) ∧ actions = as.map Action.tree := by
  induction actions with
  | nil => exact ⟨[], nofun, rfl⟩
  | cons t actions ih =>
    obtain ⟨⟨a, ha, rfl⟩, hothers⟩ := List.forall_mem_cons.1 h
    obtain ⟨as, has, rfl⟩ := ih hothers
    exact ⟨a :: as, List.forall_mem_cons.2 ⟨ha, has⟩, rfl⟩

theorem MadeFrom.exists_action (ht : t.MadeFrom given) :
    ∃ a : Action, a.MadeFrom given ∧ t = a.tree := by
  induction ht with
  | reduction r => exact ⟨_, .reduce r, rfl⟩
  | lookahead l => exact ⟨_, .lookahead l, rfl⟩
  | filterFlag flag value => exact ⟨_, .filterFlag flag value, rfl⟩
  | pushFlag flag value => exact ⟨_, .pushFlag flag value, rfl⟩
  | popFlag flag => exact ⟨_, .popFlag flag, rfl⟩
  | call hgiven => exact ⟨_, .call hgiven, rfl⟩
  | sequence _ h ih =>
    obtain ⟨as, has, rfl⟩ := exists_map_tree ih
    -- Its arguments are trees of actions, and of these an operation makes the tree of what it
    -- makes of the actions.  The cases of the other operations go alike.
    rw [Action.sequence_map_tree] at h
    obtain ⟨a, hsequence, rfl⟩ := map_mapError_eq_ok_iff.1 h
    exact ⟨a, .sequence has hsequence, rfl⟩
  | fuse _ _ h iha ihb =>
    obtain ⟨a, ha, rfl⟩ := iha
    obtain ⟨b, hb, rfl⟩ := ihb
    rw [Action.tree_fuse?] at h
    obtain ⟨fused, hfuse, rfl⟩ := Option.map_eq_some_iff.1 (Except.ok.inj h)
    exact ⟨fused, .fuse ha hb hfuse, rfl⟩
  | fuseEdges _ h hedge ih =>
    obtain ⟨as, has, rfl⟩ := exists_map_tree ih
    rw [Action.fuseEdges_map_tree] at h
    cases h
    obtain ⟨edge, hmem, rfl⟩ := List.mem_map.1 hedge
    exact ⟨edge, .fuseEdges has hmem, rfl⟩
  | shift _ h ih =>
    obtain ⟨a, ha, rfl⟩ := ih
    rw [Action.tree_shift] at h
    obtain ⟨outcome, hshift, hrest⟩ := map_mapError_eq_ok_iff.1 h
    obtain ⟨rest, rfl, rfl⟩ := Shifted.map_eq_continues_iff.1 hrest
    exact ⟨rest, .shift ha hshift, rfl⟩
  | condition _ h ih =>
    obtain ⟨a, ha, rfl⟩ := ih
    rw [Action.tree_condition ha.kept.wellFormed.legal.nonempty] at h
    obtain ⟨step, hcondition, rfl⟩ := map_mapError_eq_ok_iff.1 h
    exact ⟨_, .condition ha hcondition, rfl⟩
  | child _ h ih =>
    obtain ⟨a, ha, rfl⟩ := ih
    rw [Action.tree_children] at h
    obtain ⟨step, hmem, rfl⟩ := List.mem_map.1 h
    exact ⟨_, .child ha hmem, rfl⟩

theorem madeFrom_tree {a : Action} (ha : a.MadeFrom given) : a.tree.MadeFrom given := by
  have forall_map {actions : List Action} (h : ∀ a ∈ actions, a.tree.MadeFrom given) :
      ∀ t ∈ actions.map Action.tree, t.MadeFrom given := List.forall_mem_map.2 h
  induction ha with
  | reduce r => exact .reduction r
  | lookahead l => exact .lookahead l
  | filterFlag flag value => exact .filterFlag flag value
  | pushFlag flag value => exact .pushFlag flag value
  | popFlag flag => exact .popFlag flag
  | call hgiven => exact .call hgiven
  | sequence _ h ih =>
    refine .sequence (forall_map ih) ?_
    rw [Action.sequence_map_tree, h]
    rfl
  | fuse _ _ h iha ihb =>
    refine .fuse iha ihb ?_
    rw [Action.tree_fuse?, h]
    rfl
  | fuseEdges _ h ih =>
    exact .fuseEdges (forall_map ih) (Action.fuseEdges_map_tree _) (List.mem_map_of_mem h)
  | @shift a rest shifted _ h ih =>
    have hshift : a.tree.shift shifted = .ok (.continues rest.tree) := by
      rw [Action.tree_shift, h]
      rfl
    exact .shift ih hshift
  | condition ha h ih =>
    refine .condition ih ?_
    rw [Action.tree_condition ha.kept.wellFormed.legal.nonempty, h]
    rfl
  | child _ h ih =>
    refine .child ih ?_
    rw [Action.tree_children]
    exact List.mem_map_of_mem h

/-- The operations make trees of actions of steps only, and all that are made of steps. -/
theorem madeFrom_iff : t.MadeFrom given ↔ ∃ a : Action, a.MadeFrom given ∧ t = a.tree := by
  refine ⟨MadeFrom.exists_action, ?_⟩
  rintro ⟨a, ha, rfl⟩
  exact madeFrom_tree ha

/-! ### What holds of made trees -/

theorem recorded_of_step {step : Step} (h : step.Recorded given step.reads step.writes) :
    step.tree.Recorded given := by
  cases h with
  | reduce r => exact .reduction r
  | lookahead l => exact .lookahead l
  | filterFlag flag value => exact .filterFlag flag value
  | pushFlag flag value => exact .pushFlag flag value
  | popFlag flag => exact .popFlag flag
  | call hgiven hsame hoffset => exact .call hgiven hsame hoffset

theorem recorded_of_kept {a : Action} (ha : a.Kept given) : a.tree.Recorded given := by
  cases a with
  | single step => exact recorded_of_step (ha.recorded step (List.mem_singleton_self step))
  | seq steps reads writes =>
    obtain ⟨-, hbuild⟩ := ha.wellFormed
    rw [hbuild, Action.tree_build]
    refine .node fun child hchild => ?_
    obtain ⟨step, hstep, rfl⟩ := List.mem_map.1 hchild
    exact recorded_of_step (ha.recorded step hstep)

/--
However a tree was made, a sequence in it is not empty, holds no sequence, no condition but
as its first child and no stack update but as its last one, so that both of these are there;
and each action stores the resources of its kind, where a call has those that were given
when it was made, and a sequence those of its children in order.
-/
theorem representation_invariant (ht : t.MadeFrom given) :
    (∀ children reads writes, t = node children reads writes →
      children ≠ [] ∧
      (∀ child ∈ children, ∃ primitive reads writes, child = leaf primitive reads writes) ∧
      (∀ child ∈ children.tail, child.isCondition = .ok false) ∧
      (∀ child ∈ children.dropLast, child.updatesStack = .ok false) ∧
      (∃ child, first children = .ok child) ∧ ∃ child, last children = .ok child) ∧
    t.Recorded given := by
  obtain ⟨a, ha, rfl⟩ := madeFrom_iff.1 ht
  refine ⟨?_, recorded_of_kept ha.kept⟩
  intro children reads writes hnode
  cases a with
  | single step => cases hnode
  | seq steps _ _ =>
    cases hnode
    obtain ⟨⟨hnonempty, hconditions, hupdates⟩, -⟩ := ha.kept.wellFormed
    refine ⟨?_, ?_, ?_, ?_, ?_, ?_⟩
    · rwa [ne_eq, List.map_eq_nil_iff]
    · exact List.forall_mem_map.2 fun step _ => ⟨_, _, _, rfl⟩
    · rw [← List.map_tail, List.forall_mem_map]
      intro step hstep
      rw [step.tree_isCondition, hconditions step hstep]
    · rw [← List.map_dropLast, List.forall_mem_map]
      intro step hstep
      rw [step.tree_updatesStack, hupdates step hstep]
    · exact ⟨_, Action.first_map_tree (List.head?_eq_some_head hnonempty)⟩
    · exact ⟨_, Action.last_map_tree (List.getLast?_eq_some_getLast hnonempty)⟩

/-- A sequence from which a shift drops the assertion stores what was given for its call. -/
theorem representation_invariant_dropped :
    let given : Given := fun c reads writes =>
      c = ⟨"f", [0], none, 0⟩ ∧ reads = ["r"] ∧ writes = ["w"]
    let children := [call ⟨"f", [0], none, 1⟩ ["r"] ["w"], reduction ⟨.named "E", 2, 1⟩]
    let left := node children ["r"] ["w", "nt_E"]
    left.MadeFrom given ∧ left.Recorded given ∧
      ∀ child ∈ children.tail, child.isCondition = .ok false := by
  intro given children left
  let l : Lookahead := ⟨.ofList [[.terminal "a"], [.terminal "b", .terminal "c"]], true⟩
  let c : Call := ⟨"f", [0], none, 0⟩
  let parts := [lookahead l, call c ["r"] ["w"], reduction ⟨.named "E", 2, 0⟩]
  have hsequence : sequence parts = .ok (build parts) := rfl
  have hwhole : (build parts).MadeFrom given := by
    refine .sequence (fun a ha => ?_) hsequence
    simp only [parts, List.mem_cons, List.not_mem_nil, or_false] at ha
    rcases ha with rfl | rfl | rfl
    · exact .lookahead l
    · exact .call ⟨rfl, rfl, rfl⟩
    · exact .reduction _
  have hshift : (build parts).shift [.terminal "a"] = .ok (.continues left) := rfl
  have hleft : left.MadeFrom given := .shift hwhole hshift
  obtain ⟨hsequences, hrecorded⟩ := representation_invariant hleft
  obtain ⟨-, -, hconditions, -⟩ := hsequences children ["r"] ["w", "nt_E"] rfl
  exact ⟨hleft, hrecorded, hconditions⟩

/-- No operation on made trees asks a sequence for a child that is not there. -/
theorem never_out_of_bounds (ha : a.MadeFrom given) (hb : b.MadeFrom given)
    (hactions : ∀ t ∈ actions, t.MadeFrom given) (shifted : List Symbol) :
    a.isCondition ≠ .error .outOfBounds ∧ a.updatesStack ≠ .error .outOfBounds ∧
      a.condition ≠ .error .outOfBounds ∧ a.reduceWith ≠ .error .outOfBounds ∧
      a.shift shifted ≠ .error .outOfBounds ∧ a.fuse? b ≠ .error .outOfBounds ∧
      sequence actions ≠ .error .outOfBounds ∧ fuseEdges actions ≠ .error .outOfBounds := by
  obtain ⟨a, hmade, rfl⟩ := madeFrom_iff.1 ha
  obtain ⟨b, -, rfl⟩ := madeFrom_iff.1 hb
  obtain ⟨as, -, rfl⟩ := exists_map_tree fun t ht => madeFrom_iff.1 (hactions t ht)
  have hnonempty := hmade.kept.wellFormed.legal.nonempty
  rw [Action.tree_isCondition hnonempty, Action.tree_updatesStack hnonempty,
    Action.tree_condition hnonempty, Action.tree_reduceWith hnonempty, Action.tree_shift,
    Action.tree_fuse?, Action.sequence_map_tree, Action.fuseEdges_map_tree]
  have hrefused (e : Error) : Failure.refused e ≠ .outOfBounds := nofun
  have hoverflow (o : Overflow) : Failure.overflow o ≠ .outOfBounds := nofun
  exact ⟨nofun, nofun, mapError_ne_error hrefused, mapError_ne_error hrefused,
    mapError_ne_error hoverflow, nofun, mapError_ne_error hrefused, nofun⟩

end EdgeActions.ActionTree
