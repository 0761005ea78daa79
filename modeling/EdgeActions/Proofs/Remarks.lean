import EdgeActions.Diagnostics
import EdgeActions.Proofs.ShiftedCounters

/-!
# What the remarks tell

The remarks of an operation against its result.  A shift remarks on exactly the assertions
that it decides, fusion on what it declines, and there is one remark for each action after
the first edge and one for each edge that is followed.  So the decisions can be read off
the remarks, and a remark never tells of a decision that was not taken.
-/

namespace EdgeActions

variable {shifted : List Symbol}

namespace Lookahead

variable {l : Lookahead}

theorem matchedBy_eq_of_resolved {verdict : Bool} (h : l.shift shifted = .resolved verdict) :
    l.matchedBy shifted = decide (verdict = l.accept) := by
  rcases shift_eq_resolved_iff.1 h with ⟨hmatches, rfl⟩ | ⟨hnone, -, rfl⟩
  · rw [matchedBy_iff.2 hmatches, decide_eq_true rfl]
  · rw [Bool.eq_false_iff.2 (mt matchedBy_iff.1 hnone), decide_eq_false (Bool.not_ne_self _)]

/-- The remark on a decided assertion names a match where the verdict is its polarity. -/
theorem shiftDiagnostics_of_resolved {verdict : Bool} (h : l.shift shifted = .resolved verdict) :
    l.shiftDiagnostics shifted =
      [⟨.debug, l.text ++ (if verdict = l.accept then " matched by " else " refuted by ") ++
        Symbol.listDetail shifted⟩] := by
  rw [shiftDiagnostics, h, matchedBy_eq_of_resolved h]
  simp only [decide_eq_true_eq]

theorem shiftDiagnostics_eq_nil_iff :
    l.shiftDiagnostics shifted = [] ↔ ∀ verdict, l.shift shifted ≠ .resolved verdict := by
  cases h : l.shift shifted with
  | resolved verdict =>
    rw [shiftDiagnostics_of_resolved h]
    exact iff_of_false (List.cons_ne_nil _ _) fun hopen => hopen verdict rfl
  | continues rest =>
    rw [shiftDiagnostics, h]
    exact iff_of_true rfl nofun

end Lookahead

namespace Action

variable {a b : Action} {actions : List Action}

theorem shiftDiagnostics_eq_nil_iff :
    a.shiftDiagnostics shifted = [] ↔ ∀ verdict, ¬ Decided shifted verdict a.children := by
  unfold shiftDiagnostics Decided
  split
  case h_1 assertion hfirst =>
    rw [Lookahead.shiftDiagnostics_eq_nil_iff]
    constructor
    · rintro hopen verdict ⟨other, hother, hdecided⟩
      rw [hfirst] at hother
      cases hother
      exact hopen verdict hdecided
    · exact fun hopen verdict hdecided => hopen verdict ⟨assertion, hfirst, hdecided⟩
  case h_2 hother =>
    refine iff_of_true rfl ?_
    rintro verdict ⟨assertion, hfirst, -⟩
    exact hother assertion hfirst

/-- A shift that does not overflow is silent exactly when the action goes on with all steps. -/
theorem shiftDiagnostics_eq_nil_iff_continues (ha : a.WellFormed) {outcome : Shifted Action}
    (h : a.shift shifted = .ok outcome) :
    a.shiftDiagnostics shifted = [] ↔
      ∃ b, outcome = .continues b ∧ b.children.length = a.children.length := by
  have hlegal := ha.legal
  rw [shiftDiagnostics_eq_nil_iff]
  constructor
  · intro hopen
    rcases shift_cases hlegal.nonempty shifted with
      ⟨-, hshift⟩ | ⟨hsteps, -⟩ | ⟨hsteps, -⟩ | ⟨left, hsteps, -, hshift⟩
    · rw [hshift] at h
      cases h
    · exact absurd ((shiftSteps_eq_refuted_iff hlegal).1 hsteps) (hopen false)
    · have hnone := shiftSteps_eq_continues_iff.1 hsteps
      exact absurd ((remains_nil_iff hlegal).1 hnone).1 (hopen true)
    · have hmoved := forall₂_moved_of_remains hlegal (shiftSteps_eq_continues_iff.1 hsteps)
      rw [hshift] at h
      cases h
      exact ⟨left, rfl, (hmoved.2 (hopen true)).length_eq.symm⟩
  · rintro ⟨b, rfl, hlength⟩ verdict hdecided
    have hadvances := (reindexed_iff.2 ⟨h, hlength⟩).children
    obtain ⟨first, others, hchildren⟩ := List.exists_cons_of_ne_nil hlegal.nonempty
    rw [hchildren] at hadvances hdecided
    obtain ⟨left, _, hfirst, -, -⟩ := List.forall₂_cons_left_iff.1 hadvances
    have hresolved := decided_cons_iff.1 hdecided
    rw [Step.shift_eq_continues_iff.2 hfirst] at hresolved
    cases hresolved

/-! ### Fusion -/

theorem fuseDiagnostics_eq_nil_iff :
    a.fuseDiagnostics b = [] ↔ ∃ fused, a.fuse? b = some fused := by
  unfold fuseDiagnostics fuse?
  cases ofSteps (a.children ++ b.children) with
  | ok fused => exact iff_of_true rfl ⟨fused, rfl⟩
  | error e => exact iff_of_false (List.cons_ne_nil _ _) nofun

theorem fuseDiagnostics_of_declined (h : a.fuse? b = none) :
    ∃ message, a.fuseDiagnostics b = [⟨.trace, message⟩] := by
  unfold fuse? at h
  unfold fuseDiagnostics
  cases hsteps : ofSteps (a.children ++ b.children) with
  | ok fused => rw [hsteps] at h; cases h
  | error e => exact ⟨_, rfl⟩

/-- One remark for each action: that it was fused, or why it starts an edge of its own. -/
theorem fuseFromDiagnostics_counts (edge : Action) (actions : List Action) :
    (fuseFromDiagnostics edge actions).length = actions.length ∧
      (fuseFrom edge actions).length =
        (fuseFromDiagnostics edge actions).countP (·.severity = .trace) + 1 := by
  induction actions generalizing edge with
  | nil => exact ⟨rfl, rfl⟩
  | cons next actions ih =>
    cases hfuse : edge.fuse? next with
    | some joint =>
      obtain ⟨hlength, hedges⟩ := ih joint
      rw [fuseFromDiagnostics, hfuse, fuseFrom_of_fused hfuse]
      exact ⟨congrArg Nat.succ hlength, hedges⟩
    | none =>
      obtain ⟨hlength, hedges⟩ := ih next
      obtain ⟨message, hremark⟩ := fuseDiagnostics_of_declined hfuse
      rw [fuseFromDiagnostics, hfuse, fuseFrom_of_declined hfuse]
      dsimp only
      rw [hremark, List.singleton_append]
      refine ⟨congrArg Nat.succ hlength, ?_⟩
      rw [List.length_cons, hedges, List.countP_cons_of_pos rfl]

theorem fuseEdgesDiagnostics_counts (actions : List Action) :
    (fuseEdgesDiagnostics actions).length = actions.length - 1 ∧
      (fuseEdges actions).length =
        (fuseEdgesDiagnostics actions).countP (·.severity = .trace) + min 1 actions.length := by
  cases actions with
  | nil => exact ⟨rfl, rfl⟩
  | cons first actions =>
    obtain ⟨hlength, hedges⟩ := fuseFromDiagnostics_counts first actions
    refine ⟨hlength, hedges.trans ?_⟩
    rw [List.length_cons, Nat.min_eq_left (Nat.succ_pos _)]
    rfl

end Action

namespace FlagChecker

variable {c next stopped : FlagChecker} {path : List Action} {e : Error}

/-- Edges are announced in their order on the path, each under its own number. -/
theorem visitPathDiagnostics_prefix (c : FlagChecker) (index : Nat) (path : List Action) :
    c.visitPathDiagnostics index path <+: (path.zipIdx index).map fun edge =>
      ⟨.debug, "checking flags of edge " ++ toString edge.2 ++ ": " ++ edge.1.text⟩ := by
  induction path generalizing c index with
  | nil => exact List.nil_prefix
  | cons a path ih =>
    rw [visitPathDiagnostics, List.zipIdx_cons, List.map_cons, List.cons_prefix_cons]
    refine ⟨rfl, ?_⟩
    rcases c.visit a with ⟨after, e | ⟨⟩⟩
    · exact List.nil_prefix
    · exact ih after (index + 1)

/-- Every edge of a path without errors is announced. -/
theorem length_visitPathDiagnostics_of_ok (index : Nat) (h : c.visitPath path = (next, .ok ())) :
    (c.visitPathDiagnostics index path).length = path.length := by
  induction path generalizing c index with
  | nil => rfl
  | cons a path ih =>
    rw [visitPath] at h
    rw [visitPathDiagnostics]
    rcases hvisit : c.visit a with ⟨after, e | ⟨⟩⟩ <;> rw [hvisit] at h
    · cases h
    · exact congrArg Nat.succ (ih (index + 1) h)

/-- The last edge that is announced is the first one with an error. -/
theorem exists_length_visitPathDiagnostics_of_error (index : Nat)
    (h : c.visitPath path = (stopped, .error e)) :
    ∃ front a back next, path = front ++ a :: back ∧ c.visitPath front = (next, .ok ()) ∧
      next.visit a = (stopped, .error e) ∧
      (c.visitPathDiagnostics index path).length = front.length + 1 := by
  induction path generalizing c index with
  | nil => cases h
  | cons a path ih =>
    rw [visitPath] at h
    rw [visitPathDiagnostics]
    rcases hvisit : c.visit a with ⟨after, e' | ⟨⟩⟩ <;> rw [hvisit] at h
    · cases h
      exact ⟨[], a, path, c, rfl, rfl, hvisit, rfl⟩
    · obtain ⟨front, last, back, next, rfl, hfront, hlast, hlength⟩ := ih (index + 1) h
      refine ⟨a :: front, last, back, next, rfl, ?_, hlast, congrArg Nat.succ hlength⟩
      rw [visitPath, hvisit]
      exact hfront

end FlagChecker

end EdgeActions
