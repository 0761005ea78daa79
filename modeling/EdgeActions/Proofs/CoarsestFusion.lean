import EdgeActions.Proofs.Reachable
import Mathlib.Data.List.SplitBy

/-!
# Fusion is coarsest

Fusing edges from left to right cuts the joint steps exactly where two
neighbours do not join.  Since every legal edge consists of neighbours that
join, no other way to distribute the same steps needs fewer edges.
-/

namespace EdgeActions

/-! ### Maximal runs of a list -/

section Runs

variable {α : Type} {r : α → α → Bool}

/-- An element that is related to the next one belongs to its run. -/
theorem splitBy_cons_cons {first second : α} (hr : r first second = true) (rest : List α) :
    ∃ run runs, (second :: rest).splitBy r = run :: runs ∧
      (first :: second :: rest).splitBy r = (first :: run) :: runs := by
  cases hruns : (second :: rest).splitBy r with
  | nil => exact absurd hruns (List.splitBy_ne_nil.2 (List.cons_ne_nil _ _))
  | cons run runs =>
    obtain ⟨hflatten, hnil, hchains, hcuts⟩ := List.splitBy_eq_iff.1 hruns
    obtain ⟨hrun, hothers⟩ := List.forall_mem_cons.1 hchains
    refine ⟨run, runs, rfl, List.splitBy_eq_iff.2 ⟨?_, ?_, ?_, ?_⟩⟩
    · rw [hflatten]
      rfl
    · exact fun hmem => hnil (List.mem_cons_of_mem _ ((List.mem_cons.1 hmem).resolve_left nofun))
    · refine List.forall_mem_cons.2 ⟨?_, hothers⟩
      cases run with
      | nil => exact .singleton first
      | cons head run =>
        obtain rfl : second = head := (List.cons.inj hflatten).1
        exact List.isChain_cons_cons.2 ⟨hr, hrun⟩
    · cases runs with
      | nil => exact .singleton _
      | cons next runs =>
        obtain ⟨⟨hfirst, hnext, hcut⟩, htail⟩ := List.isChain_cons_cons.1 hcuts
        refine List.isChain_cons_cons.2 ⟨⟨List.cons_ne_nil _ _, hnext, ?_⟩, htail⟩
        rwa [List.getLast_cons hfirst]

/-- An element in front of a list makes at most one more run. -/
theorem length_splitBy_cons_le (first : α) (rest : List α) :
    ((first :: rest).splitBy r).length ≤ (rest.splitBy r).length + 1 := by
  cases rest with
  | nil => exact Nat.le_refl _
  | cons second rest =>
    cases hr : r first second with
    | false =>
      have hcut : (first :: second :: rest).splitBy r = [[first]] ++ (second :: rest).splitBy r :=
        List.splitBy_append_cons (l := [first]) rest (by simpa using hr)
      rw [hcut, List.singleton_append, List.length_cons]
    | true =>
      obtain ⟨run, runs, hruns, hlonger⟩ := splitBy_cons_cons hr rest
      rw [hruns, hlonger]
      exact Nat.le_succ _

/-- A run in front of a list makes at most one more maximal run. -/
theorem length_splitBy_append_le {run : List α} (hrun : run.IsChain fun x y => r x y)
    (rest : List α) : ((run ++ rest).splitBy r).length ≤ (rest.splitBy r).length + 1 := by
  induction run with
  | nil => exact Nat.le_succ _
  | cons first run ih =>
    cases run with
    | nil => exact length_splitBy_cons_le first rest
    | cons second run =>
      obtain ⟨hr, hrun⟩ := List.isChain_cons_cons.1 hrun
      have hshorter := ih hrun
      obtain ⟨head, runs, hruns, hlonger⟩ := splitBy_cons_cons hr (run ++ rest)
      rw [List.cons_append] at hshorter
      rw [List.cons_append, List.cons_append, hlonger]
      rwa [hruns] at hshorter

/-- No list of runs is shorter than the list of maximal runs. -/
theorem length_splitBy_flatten_le {parts : List (List α)}
    (hparts : ∀ part ∈ parts, part.IsChain fun x y => r x y) :
    (parts.flatten.splitBy r).length ≤ parts.length := by
  induction parts with
  | nil => exact Nat.le_refl _
  | cons part parts ih =>
    obtain ⟨hpart, hothers⟩ := List.forall_mem_cons.1 hparts
    have hmore := length_splitBy_append_le hpart parts.flatten
    have hrest := ih hothers
    rw [List.flatten_cons, List.length_cons]
    omega

/-- Maximal runs are cut exactly where two neighbours are not related. -/
theorem exists_cut_splitBy_iff (front back : List α) {u v : α} :
    (∃ before after, (front ++ u :: v :: back).splitBy r = before ++ after ∧
      before.flatten = front ++ [u]) ↔ r u v = false := by
  constructor
  · rintro ⟨before, after, hruns, hbefore⟩
    obtain ⟨hflatten, -, -, hcuts⟩ := List.splitBy_eq_iff.1 hruns
    rw [List.flatten_append, hbefore, List.append_assoc] at hflatten
    have hafter : v :: back = after.flatten :=
      (List.cons.inj (List.append_cancel_left hflatten)).2
    rcases List.eq_nil_or_concat before with rfl | ⟨init, run, rfl⟩
    · simp at hbefore
    rcases after with _ | ⟨next, runs⟩
    · cases hafter
    obtain ⟨hrun, hnext, hcut⟩ := (List.isChain_append.1 hcuts).2.2 run (by simp) next (by simp)
    have hu : run.getLast hrun = u := by
      have hlast := congrArg List.getLast? hbefore
      simpa [List.getLast?_eq_some_getLast hrun] using hlast
    have hv : next.head hnext = v := by
      have hhead := congrArg List.head? hafter
      simpa [List.head?_eq_some_head hnext, eq_comm] using hhead
    rwa [hu, hv] at hcut
  · intro hcut
    have hsplit : front ++ u :: v :: back = (front ++ [u]) ++ v :: back := by simp
    refine ⟨(front ++ [u]).splitBy r, (v :: back).splitBy r, ?_, List.flatten_splitBy r _⟩
    rw [hsplit, List.splitBy_append_cons]
    simpa using hcut

end Runs

namespace Action

variable {a b edge : Action} {group actions : List Action}

/-- Two edges stay apart exactly when they do not join at the seam. -/
theorem fuse?_eq_none_iff (ha : Legal a.children) (hb : Legal b.children) :
    a.fuse? b = none ↔
      ∃ earlier ∈ a.children.getLast?, ∃ later ∈ b.children.head?,
        earlier.joins later = false := by
  rw [fuse?_eq_none_iff_not_legal, legal_append_iff ha hb]
  simp only [not_forall, exists_prop, Bool.not_eq_true]

/-- Fusion cuts the joint steps into their maximal runs. -/
theorem splitBy_fuseFrom (hedge : Legal edge.children)
    (hactions : ∀ a ∈ actions, Legal a.children) :
    (edge.children ++ actions.flatMap children).splitBy Step.joins =
      (fuseFrom edge actions).map children := by
  induction actions generalizing edge with
  | nil =>
    rw [List.flatMap_nil, List.append_nil]
    exact List.splitBy_of_isChain hedge.nonempty (legal_iff_isChain.1 hedge).2
  | cons next actions ih =>
    obtain ⟨hnext, hothers⟩ := List.forall_mem_cons.1 hactions
    rw [List.flatMap_cons]
    cases hfuse : edge.fuse? next with
    | some joint =>
      obtain ⟨hlegal, rfl⟩ := fuse?_eq_some_iff.1 hfuse
      have hjoint : Legal (build (edge.children ++ next.children)).children := hlegal
      rw [fuseFrom_of_fused hfuse, ← List.append_assoc]
      exact ih hjoint hothers
    | none =>
      obtain ⟨earlier, hearlier, later, hlater, hcut⟩ := (fuse?_eq_none_iff hedge hnext).1 hfuse
      have hseam : ∀ x ∈ edge.children.getLast?,
          ∀ y ∈ (next.children ++ actions.flatMap children).head?, x.joins y = false := by
        intro x hx y hy
        rw [List.head?_append_of_ne_nil _ hnext.nonempty] at hy
        rwa [Option.mem_unique hx hearlier, Option.mem_unique hy hlater]
      rw [fuseFrom_of_declined hfuse, List.splitBy_append hseam, ih hnext hothers,
        List.splitBy_of_isChain hedge.nonempty (legal_iff_isChain.1 hedge).2]
      rfl

theorem splitBy_fuseEdges (hactions : ∀ a ∈ actions, Legal a.children) :
    (actions.flatMap children).splitBy Step.joins = (fuseEdges actions).map children := by
  cases actions with
  | nil => rfl
  | cons first actions =>
    obtain ⟨hfirst, hothers⟩ := List.forall_mem_cons.1 hactions
    exact splitBy_fuseFrom hfirst hothers

/-- An edge made from a group of actions: a single one as it is, several as their sequence. -/
def FusedFrom (group : List Action) (edge : Action) : Prop :=
  group = [edge] ∨ 2 ≤ group.length ∧ sequence group = .ok edge

theorem FusedFrom.children_eq (h : FusedFrom group edge) :
    edge.children = group.flatMap children := by
  rcases h with rfl | ⟨-, hsequence⟩
  · simp
  · rw [(ofSteps_eq_ok_iff.1 hsequence).2, children_build]

theorem FusedFrom.fuse {next fused : Action} (h : FusedFrom group edge)
    (hfused : edge.fuse? next = some fused) : FusedFrom (group ++ [next]) fused := by
  refine Or.inr ⟨?_, ?_⟩
  · have hsome : 0 < group.length := by
      rcases h with rfl | ⟨hmany, -⟩
      · exact Nat.zero_lt_one
      · exact Nat.zero_lt_of_lt hmany
    rw [List.length_append, List.length_singleton]
    exact Nat.succ_le_succ hsome
  · have hsteps : (group ++ [next]).flatMap children = edge.children ++ next.children := by
      rw [h.children_eq]
      simp
    rw [sequence, hsteps, ofSteps_eq_ok_iff]
    exact fuse?_eq_some_iff.1 hfused

/-- The edges are made from consecutive groups of the given actions. -/
theorem exists_groups_fuseFrom (h : FusedFrom group edge) (actions : List Action) :
    ∃ groups, groups.flatten = group ++ actions ∧
      List.Forall₂ FusedFrom groups (fuseFrom edge actions) := by
  induction actions generalizing edge group with
  | nil => exact ⟨[group], by simp, .cons h .nil⟩
  | cons next actions ih =>
    cases hfuse : edge.fuse? next with
    | some joint =>
      rw [fuseFrom_of_fused hfuse]
      obtain ⟨groups, hflatten, hgroups⟩ := ih (h.fuse hfuse)
      exact ⟨groups, by rw [hflatten, List.append_assoc, List.singleton_append], hgroups⟩
    | none =>
      rw [fuseFrom_of_declined hfuse]
      obtain ⟨groups, hflatten, hgroups⟩ := ih (Or.inl rfl : FusedFrom [next] next)
      exact ⟨group :: groups, by rw [List.flatten_cons, hflatten, List.singleton_append],
        .cons h hgroups⟩

theorem exists_groups_fuseEdges (actions : List Action) :
    ∃ groups, groups.flatten = actions ∧
      List.Forall₂ FusedFrom groups (fuseEdges actions) := by
  cases actions with
  | nil => exact ⟨[], rfl, .nil⟩
  | cons first actions => exact exists_groups_fuseFrom (Or.inl rfl : FusedFrom [first] first) actions

/-- The steps of edges that come first are cut off where two steps do not join. -/
theorem exists_boundary_iff (hactions : ∀ a ∈ actions, Legal a.children) {front back : List Step}
    {u v : Step} (hsteps : actions.flatMap children = front ++ u :: v :: back) :
    (∃ before after, fuseEdges actions = before ++ after ∧
      before.flatMap children = front ++ [u]) ↔
      u.updatesStack = true ∨ v.isCondition = true := by
  have hruns := splitBy_fuseEdges hactions
  have hcut : u.joins v = false ↔ u.updatesStack = true ∨ v.isCondition = true := by
    cases hu : u.updatesStack <;> simp [Step.joins, hu]
  rw [hsteps] at hruns
  rw [← hcut, ← exists_cut_splitBy_iff front back, hruns]
  constructor
  · rintro ⟨before, after, hedges, hbefore⟩
    refine ⟨before.map children, after.map children, ?_, ?_⟩
    · rw [hedges, List.map_append]
    · rwa [← List.flatMap_def]
  · rintro ⟨before, after, hedges, hbefore⟩
    obtain ⟨before, after, hsplit, rfl, rfl⟩ := List.map_eq_append_iff.1 hedges
    exact ⟨before, after, hsplit, by rwa [List.flatMap_def]⟩

/-- No legal distribution of the joint steps has fewer edges. -/
theorem length_fuseEdges_le (hactions : ∀ a ∈ actions, Legal a.children)
    {parts : List (List Step)} (hflatten : parts.flatten = actions.flatMap children)
    (hparts : ∀ part ∈ parts, Legal part) : (fuseEdges actions).length ≤ parts.length := by
  have hruns := congrArg List.length (splitBy_fuseEdges hactions)
  rw [List.length_map, ← hflatten] at hruns
  rw [← hruns]
  exact length_splitBy_flatten_le fun part hpart => (legal_iff_isChain.1 (hparts part hpart)).2

/--
Fusing edges keeps all steps in their order.  Two neighbours end up on different edges
exactly when the first updates the stack or the second is a condition.  Each edge is one
of the given actions as it was, or the sequence of several that follow each other.  And
however else the steps are cut into parts that make sequences, there are no fewer parts.
-/
theorem fuseEdges_coarsest {actions : List Action} (hactions : ∀ a ∈ actions, a.Reachable) :
    (fuseEdges actions).flatMap children = actions.flatMap children ∧
    (∀ front u v back, actions.flatMap children = front ++ u :: v :: back →
      ((∃ before after, fuseEdges actions = before ++ after ∧
        before.flatMap children = front ++ [u]) ↔
        u.updatesStack = true ∨ v.isCondition = true)) ∧
    (∃ groups, groups.flatten = actions ∧
      List.Forall₂ (fun group edge =>
        group = [edge] ∨ 2 ≤ group.length ∧ sequence group = .ok edge)
        groups (fuseEdges actions)) ∧
    (∀ parts : List (List Step), parts.flatten = actions.flatMap children →
      (∀ part ∈ parts, ∃ b, sequence (part.map single) = .ok b) →
      (fuseEdges actions).length ≤ parts.length) := by
  have hlegal : ∀ a ∈ actions, Legal a.children := fun a ha => (hactions a ha).wellFormed.legal
  refine ⟨flatMap_children_fuseEdges actions, fun front u v back => exists_boundary_iff hlegal,
    exists_groups_fuseEdges actions, ?_⟩
  intro parts hflatten hparts
  refine length_fuseEdges_le hlegal hflatten fun part hpart => ?_
  obtain ⟨b, hb⟩ := hparts part hpart
  rw [sequence_map_single] at hb
  exact (ofSteps_eq_ok_iff.1 hb).1

/-- Six actions on three edges, one of them a sequence of a step of its own. -/
theorem fuseEdges_coarsest_three :
    let actions := [single (.filterFlag "in" "true"), build [.popFlag "in"],
      single (.reduce ⟨.named "E", 2, 0⟩), single (.pushFlag "in" "false"),
      single (.lookahead ⟨.ofList [[.terminal "a"]], false⟩), single (.popFlag "in")]
    (∀ a ∈ actions, a.Reachable) ∧ (fuseEdges actions).length = 3 ∧
      ∀ parts : List (List Step), parts.flatten = actions.flatMap children →
        (∀ part ∈ parts, ∃ b, sequence (part.map single) = .ok b) → 3 ≤ parts.length := by
  intro actions
  have hwellFormed : ∀ a ∈ actions, a.WellFormed := by decide
  have hactions : ∀ a ∈ actions, a.Reachable := fun a ha =>
    reachable_iff_wellFormed.2 (hwellFormed a ha)
  have hlength : (fuseEdges actions).length = 3 := by decide
  refine ⟨hactions, hlength, fun parts hflatten hparts => ?_⟩
  rw [← hlength]
  exact (fuseEdges_coarsest hactions).2.2.2 parts hflatten hparts

end Action

end EdgeActions
