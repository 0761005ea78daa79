import EdgeActions.Proofs.Reachable

/-!
# Conflicts between steps

Two actions conflict when a step of one conflicts with a step of the other, which is the
case when one of these steps writes a resource that the other reads or writes.  Since only
the steps count, it makes no difference how they are put together: a sequence conflicts
with what its parts conflict with, and so do the edges after fusion.
-/

namespace EdgeActions

def Step.Clashes (step other : Step) : Prop :=
  (∃ resource ∈ step.writes, resource ∈ other.reads ∨ resource ∈ other.writes) ∨
    ∃ resource ∈ other.writes, resource ∈ step.reads ∨ resource ∈ step.writes

namespace Action

variable {a b d : Action} {actions : List Action}

/-- The test asks in three parts whether one action writes what the other reads or writes. -/
theorem conflictsWith_iff_writes :
    a.conflictsWith b = true ↔
      (∃ resource ∈ a.writes, resource ∈ b.reads ∨ resource ∈ b.writes) ∨
        ∃ resource ∈ b.writes, resource ∈ a.reads ∨ resource ∈ a.writes := by
  rw [conflictsWith_iff]
  constructor
  · rintro ⟨resource, ⟨hread, hwrite⟩ | ⟨hwrite, hwrite' | hread⟩⟩
    · exact Or.inr ⟨resource, hwrite, Or.inl hread⟩
    · exact Or.inl ⟨resource, hwrite, Or.inr hwrite'⟩
    · exact Or.inl ⟨resource, hwrite, Or.inl hread⟩
  · rintro (⟨resource, hwrite, hread | hwrite'⟩ | ⟨resource, hwrite, hread | hwrite'⟩)
    · exact ⟨resource, Or.inr ⟨hwrite, Or.inr hread⟩⟩
    · exact ⟨resource, Or.inr ⟨hwrite, Or.inl hwrite'⟩⟩
    · exact ⟨resource, Or.inl ⟨hread, hwrite⟩⟩
    · exact ⟨resource, Or.inr ⟨hwrite', Or.inl hwrite⟩⟩

/-- A conflict does not depend on which of the two actions is asked. -/
theorem conflictsWith_comm (a b : Action) : a.conflictsWith b = b.conflictsWith a :=
  Bool.eq_iff_iff.2 (conflictsWith_iff_writes.trans (or_comm.trans conflictsWith_iff_writes.symm))

/-- An action conflicts with what one of its steps conflicts with. -/
theorem conflictsWith_iff_exists_left (ha : a.WellFormed) (d : Action) :
    a.conflictsWith d = true ↔
      ∃ step ∈ a.children, (single step).conflictsWith d = true := by
  simp only [conflictsWith_iff]
  rw [ha.reads_eq, ha.writes_eq]
  simp only [List.mem_flatMap]
  constructor
  · rintro ⟨resource, ⟨⟨step, hstep, hread⟩, hother⟩ | ⟨⟨step, hstep, hwrite⟩, hother⟩⟩
    · exact ⟨step, hstep, resource, Or.inl ⟨hread, hother⟩⟩
    · exact ⟨step, hstep, resource, Or.inr ⟨hwrite, hother⟩⟩
  · rintro ⟨step, hstep, resource, ⟨hread, hother⟩ | ⟨hwrite, hother⟩⟩
    · exact ⟨resource, Or.inl ⟨⟨step, hstep, hread⟩, hother⟩⟩
    · exact ⟨resource, Or.inr ⟨⟨step, hstep, hwrite⟩, hother⟩⟩

theorem conflictsWith_iff_exists (ha : a.WellFormed) (hb : b.WellFormed) :
    a.conflictsWith b = true ↔ ∃ step ∈ a.children, ∃ other ∈ b.children,
      (single step).conflictsWith (single other) = true := by
  rw [conflictsWith_iff_exists_left ha]
  refine exists_congr fun step => and_congr_right fun _ => ?_
  rw [conflictsWith_comm, conflictsWith_iff_exists_left hb]
  simp only [conflictsWith_comm]

/-- Which of several actions holds the step that conflicts makes no difference. -/
theorem exists_conflictsWith_iff (hactions : ∀ a ∈ actions, a.WellFormed) (d : Action) :
    (∃ a ∈ actions, a.conflictsWith d = true) ↔
      ∃ step ∈ actions.flatMap children, (single step).conflictsWith d = true := by
  constructor
  · rintro ⟨a, ha, hconflict⟩
    obtain ⟨step, hstep, hclash⟩ := (conflictsWith_iff_exists_left (hactions a ha) d).1 hconflict
    exact ⟨step, List.mem_flatMap.2 ⟨a, ha, hstep⟩, hclash⟩
  · rintro ⟨step, hmem, hclash⟩
    obtain ⟨a, ha, hstep⟩ := List.mem_flatMap.1 hmem
    exact ⟨a, ha, (conflictsWith_iff_exists_left (hactions a ha) d).2 ⟨step, hstep, hclash⟩⟩

theorem conflictsWith_sequence_iff (hactions : ∀ a ∈ actions, a.WellFormed) {b : Action}
    (h : sequence actions = .ok b) (d : Action) :
    b.conflictsWith d = true ↔ ∃ a ∈ actions, a.conflictsWith d = true := by
  obtain ⟨hlegal, rfl⟩ := ofSteps_eq_ok_iff.1 h
  rw [exists_conflictsWith_iff hactions]
  exact conflictsWith_iff_exists_left (wellFormed_build hlegal) d

theorem exists_conflictsWith_fuseEdges_iff (hactions : ∀ a ∈ actions, a.Reachable) (d : Action) :
    (∃ edge ∈ fuseEdges actions, edge.conflictsWith d = true) ↔
      ∃ a ∈ actions, a.conflictsWith d = true := by
  have hedges : ∀ edge ∈ fuseEdges actions, edge.Reachable := fun _ hedge =>
    MadeFrom.fuseEdges hactions hedge
  rw [exists_conflictsWith_iff fun edge hedge => (hedges edge hedge).wellFormed,
    exists_conflictsWith_iff fun a ha => (hactions a ha).wellFormed, flatMap_children_fuseEdges]

/--
A conflict goes both ways.  Two steps conflict when one of them writes a resource that the
other one reads or writes, and two actions conflict when a step of one conflicts with a step
of the other.  So a sequence conflicts with another action exactly when one of the actions
that it is made of does, and fusing edges changes nothing about whether one of them does.
-/
theorem conflicts_step_by_step :
    (∀ a b : Action, a.conflictsWith b = b.conflictsWith a) ∧
    (∀ step other : Step,
      (single step).conflictsWith (single other) = true ↔ step.Clashes other) ∧
    (∀ a b : Action, a.Reachable → b.Reachable →
      (a.conflictsWith b = true ↔ ∃ step ∈ a.children, ∃ other ∈ b.children,
        (single step).conflictsWith (single other) = true)) ∧
    ∀ actions : List Action, (∀ a ∈ actions, a.Reachable) → ∀ d : Action,
      (∀ b, sequence actions = .ok b →
        (b.conflictsWith d = true ↔ ∃ a ∈ actions, a.conflictsWith d = true)) ∧
      ((∃ edge ∈ fuseEdges actions, edge.conflictsWith d = true) ↔
        ∃ a ∈ actions, a.conflictsWith d = true) := by
  refine ⟨conflictsWith_comm, fun step other => conflictsWith_iff_writes, fun a b ha hb => ?_,
    fun actions hactions d => ⟨fun b h => ?_, ?_⟩⟩
  · exact conflictsWith_iff_exists ha.wellFormed hb.wellFormed
  · exact conflictsWith_sequence_iff (fun a ha => (hactions a ha).wellFormed) h d
  · exact exists_conflictsWith_fuseEdges_iff hactions d

/-- A call that reads what only the last of three steps writes conflicts with their sequence. -/
theorem conflicts_step_by_step_last :
    let actions := [single (.filterFlag "in" "x"),
      build [.call ⟨"f", [0], none, 0⟩ ["x"] ["y"], .reduce ⟨.named "E", 1, 0⟩]]
    let joint := build (actions.flatMap children)
    let reader := single (.call ⟨"g", [], some "z", 0⟩ ["nt_E"] [])
    (∀ a ∈ actions, a.Reachable) ∧ sequence actions = .ok joint ∧
      joint.conflictsWith reader = true ∧ reader.conflictsWith joint = true ∧
      ∃ edge ∈ fuseEdges actions, edge.conflictsWith reader = true := by
  intro actions joint reader
  have hwellFormed : ∀ a ∈ actions, a.WellFormed := by decide
  have hactions : ∀ a ∈ actions, a.Reachable := fun a ha =>
    reachable_iff_wellFormed.2 (hwellFormed a ha)
  have hsequence : sequence actions = .ok joint := rfl
  obtain ⟨hcomm, -, -, hjoint⟩ := conflicts_step_by_step
  obtain ⟨hbuilt, hfused⟩ := hjoint actions hactions reader
  have hlast : ∃ a ∈ actions, a.conflictsWith reader = true := by decide
  have hconflict := (hbuilt joint hsequence).2 hlast
  exact ⟨hactions, hsequence, hconflict, (hcomm reader joint).trans hconflict, hfused.2 hlast⟩

end Action

end EdgeActions
