import EdgeActions.Proofs.Grouping

/-!
# Fusion in pieces

Edges that were fused already can be fused again with others.  Whether an action joins
the edge in front of it depends on its first step alone, and that stays the first one
when more actions join behind it.  So the edges of a piece meet the edge in front of them
with the decisions that its actions would have met, and edges that are fused once are not
fused any further.
-/

namespace EdgeActions.Action

variable {edge next later joint : Action} {actions rest rest' : List Action}

/-! ### Edges that are fused again -/

/-- An edge that grew meets the edge in front of it as it would have met it before. -/
theorem fuseFrom_joint (hnext : next.children ≠ []) (h : next.fuse? later = some joint)
    (actions : List Action) :
    fuseFrom edge (joint :: actions) = fuseFrom edge (next :: later :: actions) := by
  have hassoc := fuse?_assoc edge later hnext
  rw [h, Option.bind_some] at hassoc
  cases hseam : edge.fuse? next with
  | none =>
    rw [hseam, Option.bind_none] at hassoc
    rw [fuseFrom_of_declined hassoc.symm, fuseFrom_of_declined hseam, fuseFrom_of_fused h]
  | some front =>
    -- both pairs of neighbours join, so that all three do
    have hboth := (isSome_bind_fuse?_iff edge later hnext).2
      ⟨Option.isSome_of_eq_some hseam, Option.isSome_of_eq_some h⟩
    obtain ⟨whole, hwhole⟩ := Option.isSome_iff_exists.1 hboth
    rw [hwhole] at hassoc
    rw [hseam, Option.bind_some] at hwhole
    rw [fuseFrom_of_fused hassoc.symm, fuseFrom_of_fused hseam, fuseFrom_of_fused hwhole]

/-- The edges of a piece are followed as its actions would have been. -/
theorem fuseFrom_fuseFrom_append (hnext : next.children ≠ [])
    (hactions : ∀ a ∈ actions, a.children ≠ []) (rest : List Action) :
    fuseFrom edge (fuseFrom next actions ++ rest) = fuseFrom edge (next :: actions ++ rest) := by
  induction actions generalizing edge next with
  | nil => rfl
  | cons later actions ih =>
    obtain ⟨hlater, hothers⟩ := List.forall_mem_cons.1 hactions
    cases hpair : next.fuse? later with
    | some joint =>
      have hjoint : joint.children ≠ [] := by
        rw [(fuse?_eq_some_iff.1 hpair).2, children_build]
        exact List.append_ne_nil_of_left_ne_nil hnext _
      rw [fuseFrom_of_fused hpair, ih hjoint hothers]
      exact fuseFrom_joint hnext hpair (actions ++ rest)
    | none =>
      rw [fuseFrom_of_declined hpair, List.cons_append, List.cons_append]
      cases hseam : edge.fuse? next with
      | some front => rw [fuseFrom_of_fused hseam, fuseFrom_of_fused hseam, ih hlater hothers]
      | none => rw [fuseFrom_of_declined hseam, fuseFrom_of_declined hseam, ih hlater hothers]

/-- What comes behind a list of actions is reached with the same edge. -/
theorem fuseFrom_append_congr (h : ∀ edge, fuseFrom edge rest = fuseFrom edge rest')
    (actions : List Action) :
    fuseFrom edge (actions ++ rest) = fuseFrom edge (actions ++ rest') := by
  induction actions generalizing edge with
  | nil => exact h edge
  | cons next actions ih =>
    rw [List.cons_append, List.cons_append]
    cases hseam : edge.fuse? next with
    | some joint => rw [fuseFrom_of_fused hseam, fuseFrom_of_fused hseam, ih]
    | none => rw [fuseFrom_of_declined hseam, fuseFrom_of_declined hseam, ih]

/-! ### Pieces in front and behind -/

theorem fuseEdges_fuseFrom_append (first : Action) (hactions : ∀ a ∈ actions, a.children ≠ [])
    (rest : List Action) :
    fuseEdges (fuseFrom first actions ++ rest) = fuseFrom first (actions ++ rest) := by
  induction actions generalizing first with
  | nil => rfl
  | cons next actions ih =>
    obtain ⟨hnext, hothers⟩ := List.forall_mem_cons.1 hactions
    cases hpair : first.fuse? next with
    | some joint =>
      rw [fuseFrom_of_fused hpair, ih joint hothers]
      exact (fuseFrom_of_fused hpair _).symm
    | none =>
      rw [fuseFrom_of_declined hpair]
      exact fuseFrom_fuseFrom_append hnext hothers rest

/-- A piece in front can be fused before the rest is. -/
theorem fuseEdges_fuseEdges_append (hactions : ∀ a ∈ actions, a.children ≠ [])
    (rest : List Action) : fuseEdges (fuseEdges actions ++ rest) = fuseEdges (actions ++ rest) := by
  cases actions with
  | nil => rfl
  | cons first actions =>
    exact fuseEdges_fuseFrom_append first (List.forall_mem_cons.1 hactions).2 rest

/-- Fusing edges that were fused changes nothing. -/
theorem fuseEdges_fuseEdges (hactions : ∀ a ∈ actions, a.children ≠ []) :
    fuseEdges (fuseEdges actions) = fuseEdges actions := by
  have h := fuseEdges_fuseEdges_append hactions []
  rwa [List.append_nil, List.append_nil] at h

/-- A piece behind can be fused before it is fused to what is in front of it. -/
theorem fuseEdges_append_fuseEdges (front : List Action)
    (hactions : ∀ a ∈ actions, a.children ≠ []) :
    fuseEdges (front ++ fuseEdges actions) = fuseEdges (front ++ actions) := by
  cases front with
  | nil => exact fuseEdges_fuseEdges hactions
  | cons first front =>
    refine fuseFrom_append_congr (fun edge => ?_) front
    cases actions with
    | nil => rfl
    | cons next actions =>
      obtain ⟨hnext, hothers⟩ := List.forall_mem_cons.1 hactions
      have h : fuseFrom edge (fuseFrom next actions ++ []) = fuseFrom edge (next :: actions ++ []) :=
        fuseFrom_fuseFrom_append hnext hothers []
      rwa [List.append_nil, List.append_nil] at h

/-! ### Edges that stay apart -/

theorem length_fuseFrom_le (edge : Action) (actions : List Action) :
    (fuseFrom edge actions).length ≤ actions.length + 1 := by
  induction actions generalizing edge with
  | nil => exact Nat.le_refl _
  | cons next actions ih =>
    cases hseam : edge.fuse? next with
    | some joint =>
      rw [fuseFrom_of_fused hseam]
      exact Nat.le_succ_of_le (ih joint)
    | none =>
      rw [fuseFrom_of_declined hseam]
      exact Nat.succ_le_succ (ih next)

theorem fuseFrom_eq_self_iff :
    fuseFrom edge actions = edge :: actions ↔
      (edge :: actions).IsChain fun edge next => edge.fuse? next = none := by
  induction actions generalizing edge with
  | nil => exact iff_of_true rfl (.singleton edge)
  | cons next actions ih =>
    rw [List.isChain_cons_cons]
    cases hseam : edge.fuse? next with
    | some joint =>
      rw [fuseFrom_of_fused hseam]
      refine iff_of_false (fun h => ?_) (fun h => nomatch h.1)
      -- an edge that was fused makes one edge fewer
      have hlength := length_fuseFrom_le joint actions
      rw [h] at hlength
      exact Nat.not_succ_le_self _ hlength
    | none =>
      rw [fuseFrom_of_declined hseam, List.cons_inj_right, ih]
      exact (and_iff_right rfl).symm

/-- Edges stay as they are exactly when no two neighbours can be fused. -/
theorem fuseEdges_eq_self_iff :
    fuseEdges actions = actions ↔ actions.IsChain fun edge next => edge.fuse? next = none := by
  cases actions with
  | nil => exact iff_of_true rfl .nil
  | cons first actions => exact fuseFrom_eq_self_iff

/--
Two chains can be fused for themselves and then together: the edges are those of the
whole chain, each with the same steps and resources and each a sequence or not as it was.
In particular fused edges are not changed by fusing them again, since no two of them that
follow each other can be fused.
-/
theorem fuseEdges_piecewise {front back : List Action} (hfront : ∀ a ∈ front, a.Reachable)
    (hback : ∀ a ∈ back, a.Reachable) :
    fuseEdges (fuseEdges front ++ fuseEdges back) = fuseEdges (front ++ back) ∧
    fuseEdges (fuseEdges front) = fuseEdges front ∧
    (fuseEdges front).IsChain fun edge next => edge.fuse? next = none := by
  have hsteps : ∀ a ∈ front, a.children ≠ [] := fun a ha =>
    (hfront a ha).wellFormed.legal.nonempty
  have hsteps' : ∀ a ∈ back, a.children ≠ [] := fun a ha =>
    (hback a ha).wellFormed.legal.nonempty
  have hagain := fuseEdges_fuseEdges hsteps
  refine ⟨?_, hagain, fuseEdges_eq_self_iff.1 hagain⟩
  rw [fuseEdges_fuseEdges_append hsteps, fuseEdges_append_fuseEdges front hsteps']

/-- Where two chains meet, the last edge of one and the first edge of the other are fused to one;
the edges in front of them and behind stay as they are. -/
theorem fuseEdges_piecewise_seam :
    let call := Step.call ⟨"f", [0], none, 0⟩ ["r"] ["w"]
    let reduction := Step.reduce ⟨.named "E", 2, 0⟩
    let assertion := Step.lookahead ⟨.ofList [[.terminal "a"]], false⟩
    let front := [single assertion, single (.filterFlag "in" "x"), build [.popFlag "in"]]
    let back := [build [call], single reduction, single (.pushFlag "in" "y"), single assertion]
    (∀ a ∈ front, a.Reachable) ∧ (∀ a ∈ back, a.Reachable) ∧
      fuseEdges front = [single assertion, build [.filterFlag "in" "x", .popFlag "in"]] ∧
      fuseEdges back = [build [call, reduction], single (.pushFlag "in" "y"), single assertion] ∧
      fuseEdges (fuseEdges front ++ fuseEdges back) = [single assertion,
        build [.filterFlag "in" "x", .popFlag "in", call, reduction],
        single (.pushFlag "in" "y"), single assertion] := by
  intro call reduction assertion front back
  have hwellFormed : ∀ a ∈ front ++ back, a.WellFormed := by decide
  have hfront : ∀ a ∈ front, a.Reachable := fun a ha =>
    reachable_iff_wellFormed.2 (hwellFormed a (List.mem_append_left back ha))
  have hback : ∀ a ∈ back, a.Reachable := fun a ha =>
    reachable_iff_wellFormed.2 (hwellFormed a (List.mem_append_right front ha))
  exact ⟨hfront, hback, by decide, by decide,
    (fuseEdges_piecewise hfront hback).1.trans (by decide)⟩

end EdgeActions.Action
