import EdgeActions.Proofs.FusionFacets
import Mathlib.Data.List.Flatten

/-!
# Grouping

A sequence can be built in parts.  A part is flattened when the whole is built, so only
the joint steps matter; and steps that are legal stay legal when others are left out, so
no part of a legal sequence is refused.  For the same reason it makes no difference which
two of three actions are fused first: each seam is decided between its two neighbours.
-/

namespace EdgeActions.Action

variable {a b c whole : Action} {groups : List (List Action)} {parts : List Action}
  {steps front middle back : List Step}

theorem Legal.of_sublist (h : Legal steps) (hmiddle : middle.Sublist steps)
    (hnonempty : middle ≠ []) : Legal middle :=
  legal_iff_pairwise.2 ⟨hnonempty, (legal_iff_pairwise.1 h).2.sublist hmiddle⟩

/-- Steps between others are legal with both exactly when they are with each. -/
theorem legal_append_append_iff (hmiddle : middle ≠ []) :
    Legal (front ++ middle ++ back) ↔ Legal (front ++ middle) ∧ Legal (middle ++ back) := by
  constructor
  · intro h
    refine ⟨h.of_sublist (List.sublist_append_left _ _) ?_, h.of_sublist ?_ ?_⟩
    · exact List.append_ne_nil_of_right_ne_nil front hmiddle
    · rw [List.append_assoc]
      exact List.sublist_append_right _ _
    · exact List.append_ne_nil_of_left_ne_nil hmiddle back
  · rintro ⟨hfront, hback⟩
    have hchain := (legal_iff_isChain.1 hfront).2.append_overlap (legal_iff_isChain.1 hback).2 hmiddle
    exact legal_iff_isChain.2 ⟨List.append_ne_nil_of_left_ne_nil hfront.nonempty back, hchain⟩

/-! ### Groups -/

/-- The steps of sequences are those of the actions that they were built from. -/
theorem flatMap_children_of_sequences
    (h : List.Forall₂ (fun group part => sequence group = .ok part) groups parts) :
    parts.flatMap children = groups.flatten.flatMap children := by
  induction h with
  | nil => rfl
  | cons hpart _ ih =>
    obtain ⟨-, rfl⟩ := ofSteps_eq_ok_iff.1 hpart
    rw [List.flatMap_cons, List.flatten_cons, List.flatMap_append, children_build, ih]

theorem flatMap_children_ne_nil {group : List Action} (hgroup : group ≠ [])
    (hactions : ∀ a ∈ group, a.children ≠ []) : group.flatMap children ≠ [] := by
  obtain ⟨first, others, rfl⟩ := List.exists_cons_of_ne_nil hgroup
  rw [List.flatMap_cons]
  exact List.append_ne_nil_of_left_ne_nil (hactions first List.mem_cons_self) _

/-- A group of the actions of a sequence has a sequence of its own. -/
theorem exists_sequence_of_mem {group : List Action}
    (hwhole : sequence groups.flatten = .ok whole) (hmem : group ∈ groups)
    (hsteps : group.flatMap children ≠ []) : ∃ part, sequence group = .ok part := by
  obtain ⟨hlegal, -⟩ := ofSteps_eq_ok_iff.1 hwhole
  have hsublist : (group.flatMap children).Sublist (groups.flatten.flatMap children) :=
    (List.sublist_flatten_of_mem hmem).flatMap children
  exact ⟨_, ofSteps_eq_ok_iff.2 ⟨hlegal.of_sublist hsublist hsteps, rfl⟩⟩

/-! ### Three actions -/

/-- Three actions are fused from the left if both pairs of neighbours can be fused. -/
theorem bind_fuse?_left_eq_some_iff (hb : b.children ≠ []) :
    (a.fuse? b).bind (fun joint => joint.fuse? c) = some whole ↔
      Legal (a.children ++ b.children) ∧ Legal (b.children ++ c.children) ∧
        whole = build (a.children ++ b.children ++ c.children) := by
  simp only [Option.bind_eq_some_iff, fuse?_eq_some_iff]
  constructor
  · rintro ⟨_, ⟨hfront, rfl⟩, hwhole, rfl⟩
    exact ⟨hfront, ((legal_append_append_iff hb).1 hwhole).2, rfl⟩
  · rintro ⟨hfront, hback, rfl⟩
    exact ⟨_, ⟨hfront, rfl⟩, (legal_append_append_iff hb).2 ⟨hfront, hback⟩, rfl⟩

theorem bind_fuse?_right_eq_some_iff (hb : b.children ≠ []) :
    (b.fuse? c).bind (fun joint => a.fuse? joint) = some whole ↔
      Legal (a.children ++ b.children) ∧ Legal (b.children ++ c.children) ∧
        whole = build (a.children ++ b.children ++ c.children) := by
  simp only [Option.bind_eq_some_iff, fuse?_eq_some_iff]
  constructor
  · rintro ⟨_, ⟨hback, rfl⟩, hwhole, rfl⟩
    rw [children_build, ← List.append_assoc] at hwhole ⊢
    exact ⟨((legal_append_append_iff hb).1 hwhole).1, hback, rfl⟩
  · rintro ⟨hfront, hback, rfl⟩
    refine ⟨_, ⟨hback, rfl⟩, ?_⟩
    rw [children_build, ← List.append_assoc]
    exact ⟨(legal_append_append_iff hb).2 ⟨hfront, hback⟩, rfl⟩

theorem fuse?_assoc (a c : Action) (hb : b.children ≠ []) :
    (a.fuse? b).bind (fun joint => joint.fuse? c) =
      (b.fuse? c).bind (fun joint => a.fuse? joint) :=
  Option.ext fun _ =>
    (bind_fuse?_left_eq_some_iff hb).trans (bind_fuse?_right_eq_some_iff hb).symm

/-- Both ways to fuse three actions need nothing but the two pairs of neighbours. -/
theorem isSome_bind_fuse?_iff (a c : Action) (hb : b.children ≠ []) :
    ((a.fuse? b).bind fun joint => joint.fuse? c).isSome = true ↔
      (a.fuse? b).isSome = true ∧ (b.fuse? c).isSome = true := by
  simp only [Option.isSome_iff_exists, bind_fuse?_left_eq_some_iff hb, fuse?_eq_some_iff,
    exists_and_left, exists_eq, and_true]

/--
The sequence of sequences of consecutive groups is the sequence of all actions, or it is
refused for the same step at the same position; and when all actions make a sequence, so
does each group of some of them.  Three actions can be fused exactly when the first two
and the last two can, and the result is the same whichever two are fused first.
-/
theorem sequence_of_groups :
    (∀ (groups : List (List Action)) (parts : List Action),
      List.Forall₂ (fun group part => sequence group = .ok part) groups parts →
      sequence parts = sequence groups.flatten) ∧
    (∀ (groups : List (List Action)) (whole : Action),
      (∀ group ∈ groups, group ≠ [] ∧ ∀ a ∈ group, a.Reachable) →
      sequence groups.flatten = .ok whole →
      ∀ group ∈ groups, ∃ part, sequence group = .ok part) ∧
    ∀ a b c : Action, b.Reachable →
      (a.fuse? b).bind (fun joint => joint.fuse? c) =
        (b.fuse? c).bind (fun joint => a.fuse? joint) ∧
      (((a.fuse? b).bind fun joint => joint.fuse? c).isSome = true ↔
        (a.fuse? b).isSome = true ∧ (b.fuse? c).isSome = true) := by
  refine ⟨fun groups parts hparts => ?_, fun groups whole hgroups hwhole group hmem => ?_,
    fun a b c hb => ?_⟩
  · rw [sequence, flatMap_children_of_sequences hparts, sequence]
  · obtain ⟨hgroup, hactions⟩ := hgroups group hmem
    refine exists_sequence_of_mem hwhole hmem (flatMap_children_ne_nil hgroup fun a ha => ?_)
    exact (hactions a ha).wellFormed.legal.nonempty
  · have hnonempty := hb.wellFormed.legal.nonempty
    exact ⟨fuse?_assoc a c hnonempty, isSome_bind_fuse?_iff a c hnonempty⟩

/-- Three groups that make sequences, of which the second is built of a sequence: together they
are refused for the reduction at position four, and without the last group they are not. -/
theorem sequence_of_groups_refused :
    let filter := single (.filterFlag "in" "x")
    let push := single (.pushFlag "in" "y")
    let pops := build [.popFlag "in", .popFlag "in"]
    let reduction := Step.reduce ⟨.named "E", 1, 0⟩
    let parts := [build [.filterFlag "in" "x", .pushFlag "in" "y"],
      build [.popFlag "in", .popFlag "in", reduction], build [.popFlag "out"]]
    sequence parts = .error (.stackUpdateNotLast 4 reduction.text) ∧
      sequence parts = sequence [filter, push, pops, single reduction, single (.popFlag "out")] ∧
      (∃ part, sequence [pops, single reduction] = .ok part) ∧
      ∃ whole, (filter.fuse? push).bind (fun joint => joint.fuse? pops) = some whole ∧
        (push.fuse? pops).bind (fun joint => filter.fuse? joint) = some whole := by
  intro filter push pops reduction parts
  obtain ⟨hparts, hgroups, hfused⟩ := sequence_of_groups
  have hrefused := hparts [[filter, push], [pops, single reduction], [single (.popFlag "out")]]
    parts (.cons rfl (.cons rfl (.cons rfl .nil)))
  have hactions : ∀ group ∈ [[filter, push], [pops, single reduction]],
      group ≠ [] ∧ ∀ a ∈ group, a.WellFormed := by decide
  have hpair := hgroups [[filter, push], [pops, single reduction]] _
    (fun group hgroup => ⟨(hactions group hgroup).1, fun a ha =>
      reachable_iff_wellFormed.2 ((hactions group hgroup).2 a ha)⟩) rfl
  obtain ⟨hsame, hboth⟩ := hfused filter push pops (reachable_single _)
  obtain ⟨whole, hwhole⟩ := Option.isSome_iff_exists.1 (hboth.2 ⟨rfl, rfl⟩)
  exact ⟨rfl, hrefused, hpair _ (by simp), whole, hwhole, hsame.symm.trans hwhole⟩

end EdgeActions.Action
