import EdgeActions.Proofs.ShiftComposition

/-!
# Shifts of fused edges

Two fused actions are shifted as if each were shifted for itself and what is left
of them fused again.  The first action goes first: while it overflows or is refuted
nothing depends on the second one, and when it holds it is gone and the second one
is left alone.
-/

namespace EdgeActions.Action

open Shifted (andThen)

variable {a b fused : Action} {shifted : List Symbol} {rest : List Step}

/-- The steps behind others are shifted when these are neither refuted nor overflow. -/
theorem shiftSteps_append_steps (front back : List Step) (shifted : List Symbol) :
    shiftSteps shifted (front ++ back) =
      andThen (shiftSteps shifted front) fun rest =>
        (shiftSteps shifted back).map (·.map (rest ++ ·)) := by
  induction front with
  | nil =>
    change shiftSteps shifted back = (shiftSteps shifted back).map (·.map ([] ++ ·))
    rcases shiftSteps shifted back with _ | ⟨_ | _⟩ <;> rfl
  | cons step front ih =>
    rw [List.cons_append, shiftSteps, shiftSteps]
    rcases step.shift shifted with _ | ⟨(_ | _) | left⟩
    · rfl
    · rfl
    · exact ih
    · dsimp only
      rw [ih]
      rcases shiftSteps shifted front with _ | ⟨_ | kept⟩
      · rfl
      · rfl
      · change ((shiftSteps shifted back).map (·.map (kept ++ ·))).map (·.map (left :: ·)) =
          (shiftSteps shifted back).map (·.map ((left :: kept) ++ ·))
        rcases shiftSteps shifted back with _ | ⟨_ | _⟩ <;> rfl

/-- Steps are refuted or go on; they are never found to hold before all of them are shifted. -/
theorem shiftSteps_ne_resolved_true (steps : List Step) (shifted : List Symbol) :
    shiftSteps shifted steps ≠ .ok (.resolved true) := by
  intro h
  cases (exists_refuted h).1

/-! ### The outcome for an action by the outcome for its steps -/

theorem regroup_nil {count : Nat} (hcount : 0 < count) :
    regroup count [] = .resolved true :=
  regroup_of_lt hcount

/-- Steps that are left are left as some action. -/
theorem exists_regroup_eq_continues (count : Nat) (hrest : rest ≠ []) :
    ∃ left, regroup count rest = .continues left ∧ left.children = rest := by
  unfold regroup
  split
  case isTrue =>
    match rest, hrest with
    | [step], _ => exact ⟨single step, rfl, rfl⟩
    | first :: second :: others, _ => exact ⟨build (first :: second :: others), rfl, rfl⟩
  case isFalse => exact ⟨build rest, rfl, rfl⟩

/-- An action is shifted by its steps and regrouped, whether it is a sequence or not. -/
theorem exists_shift_eq (a : Action) (shifted : List Symbol) :
    ∃ count, a.children.length ≤ count ∧
      a.shift shifted =
        andThen (shiftSteps shifted a.children) fun rest => .ok (regroup count rest) := by
  cases a with
  | single step =>
    exact ⟨2, Nat.le_succ 1, (shiftSteps_singleton step shifted Nat.one_lt_two).symm⟩
  | seq steps reads writes =>
    exact ⟨steps.length, Nat.le_refl _, shift_seq steps reads writes shifted⟩

/-- The four outcomes of the shift of an action are those of the shift of its steps. -/
theorem shift_cases (ha : a.children ≠ []) (shifted : List Symbol) :
    (shiftSteps shifted a.children = .error {} ∧ a.shift shifted = .error {}) ∨
    (shiftSteps shifted a.children = .ok (.resolved false) ∧
      a.shift shifted = .ok (.resolved false)) ∨
    (shiftSteps shifted a.children = .ok (.continues []) ∧
      a.shift shifted = .ok (.resolved true)) ∨
    ∃ left, shiftSteps shifted a.children = .ok (.continues left.children) ∧
      left.children ≠ [] ∧ a.shift shifted = .ok (.continues left) := by
  obtain ⟨count, hcount, hshift⟩ := a.exists_shift_eq shifted
  have hpos : 0 < count := Nat.lt_of_lt_of_le (List.length_pos_of_ne_nil ha) hcount
  rcases hsteps : shiftSteps shifted a.children with overflow | ⟨verdict | rest⟩
  · rw [hsteps] at hshift
    exact Or.inl ⟨rfl, hshift⟩
  · cases verdict with
    | false =>
      rw [hsteps] at hshift
      exact Or.inr (Or.inl ⟨rfl, hshift⟩)
    | true => exact absurd hsteps (shiftSteps_ne_resolved_true _ _)
  · rw [hsteps] at hshift
    change _ = Except.ok (regroup count rest) at hshift
    by_cases hnone : rest = []
    · subst hnone
      rw [regroup_nil hpos] at hshift
      exact Or.inr (Or.inr (Or.inl ⟨rfl, hshift⟩))
    · obtain ⟨left, hleft, rfl⟩ := exists_regroup_eq_continues count hnone
      rw [hleft] at hshift
      exact Or.inr (Or.inr (Or.inr ⟨left, rfl, hnone, hshift⟩))

/-! ### Fused actions -/

/-- A fused action is shifted by the steps of the first action, then by those of the second. -/
theorem shift_fused (h : a.fuse? b = some fused) (shifted : List Symbol) :
    fused.shift shifted =
      andThen (shiftSteps shifted a.children) fun rest =>
        andThen (shiftSteps shifted b.children) fun more =>
          .ok (regroup (a.children.length + b.children.length) (rest ++ more)) := by
  obtain ⟨-, rfl⟩ := fuse?_eq_some_iff.1 h
  rw [shift_build, shiftSteps_append_steps, List.length_append]
  rcases shiftSteps shifted a.children with _ | ⟨_ | rest⟩
  · rfl
  · rfl
  · change andThen ((shiftSteps shifted b.children).map (·.map (rest ++ ·))) _ = andThen _ _
    rcases shiftSteps shifted b.children with _ | ⟨_ | _⟩ <;> rfl

/-- What can be fused behind an action has no condition. -/
theorem not_isCondition_of_fuse? (ha : a.children ≠ []) (h : a.fuse? b = some fused) :
    ∀ step ∈ b.children, step.isCondition = false := by
  obtain ⟨hlegal, -⟩ := fuse?_eq_some_iff.1 h
  obtain ⟨first, front, hfront⟩ := List.exists_cons_of_ne_nil ha
  rw [hfront] at hlegal
  exact fun step hstep => hlegal.conditionsFirst step (List.mem_append_right front hstep)

/-- An action without a condition overflows, or all of its steps are left. -/
theorem shift_cases_of_not_isCondition (hb : b.children ≠ [])
    (hsteps : ∀ step ∈ b.children, step.isCondition = false) (shifted : List Symbol) :
    (shiftSteps shifted b.children = .error {} ∧ b.shift shifted = .error {}) ∨
    ∃ left, shiftSteps shifted b.children = .ok (.continues left.children) ∧
      left.children ≠ [] ∧ b.shift shifted = .ok (.continues left) := by
  rcases shift_cases hb shifted with hoverflow | ⟨hfalse, -⟩ | ⟨hnone, -⟩ | hleft
  · exact Or.inl hoverflow
  · exact absurd hfalse (shiftSteps_ne_resolved hsteps false)
  · have hlength := (shiftSteps_eq_continues_iff.1 hnone).length_eq hsteps
    exact absurd (List.length_eq_zero_iff.1 hlength.symm) hb
  · exact Or.inr hleft

/-- What is left of two fused actions can be fused, and is what is left of the fused one. -/
theorem fuse?_of_shift {left more : Action} (h : a.fuse? b = some fused)
    (ha : shiftSteps shifted a.children = .ok (.continues left.children))
    (hleft : left.children ≠ [])
    (hb : shiftSteps shifted b.children = .ok (.continues more.children))
    (hmore : more.children ≠ []) :
    ∃ joint, left.fuse? more = some joint ∧ fused.shift shifted = .ok (.continues joint) := by
  obtain ⟨hlegal, -⟩ := fuse?_eq_some_iff.1 h
  have hjoint : Remains shifted (a.children ++ b.children) (left.children ++ more.children) := by
    refine shiftSteps_eq_continues_iff.1 ?_
    rw [shiftSteps_append_steps, ha, hb]
    rfl
  have hnonempty : left.children ++ more.children ≠ [] := List.append_ne_nil_of_left_ne_nil hleft _
  refine ⟨build (left.children ++ more.children),
    fuse?_eq_some_iff.2 ⟨hjoint.legal hlegal hnonempty, rfl⟩, ?_⟩
  have htwo : 2 ≤ (left.children ++ more.children).length := by
    have := List.length_pos_of_ne_nil hleft
    have := List.length_pos_of_ne_nil hmore
    rw [List.length_append]
    omega
  rw [shift_fused h, ha, hb]
  exact congrArg Except.ok (regroup_of_two_le htwo)

/-- Behind a condition that holds, the steps of the second action are left. -/
theorem shift_fused_of_holds {more : Action} (h : a.fuse? b = some fused)
    (ha : shiftSteps shifted a.children = .ok (.continues []))
    (hb : shiftSteps shifted b.children = .ok (.continues more.children))
    (hmore : more.children ≠ []) :
    ∃ rest, fused.shift shifted = .ok (.continues rest) ∧ rest.children = more.children := by
  obtain ⟨rest, hrest, hchildren⟩ :=
    exists_regroup_eq_continues (a.children.length + b.children.length) hmore
  refine ⟨rest, ?_, hchildren⟩
  rw [shift_fused h, ha, hb]
  exact congrArg Except.ok hrest

/--
Fusion and shift commute.  If the first action overflows or is refuted, so is the fused
one, whatever the second one is.  Otherwise the fused action overflows if the second one
does, and the second one is never decided: what is left of both can be fused to what is
left of the fused action, and where the first one holds, the steps left of the second one
are left of the fused action.
-/
theorem shift_fuse {a b fused : Action} (ha : a.Reachable) (hb : b.Reachable)
    (h : a.fuse? b = some fused) (shifted : List Symbol) :
    (a.shift shifted = .error {} → fused.shift shifted = .error {}) ∧
    (a.shift shifted = .ok (.resolved false) → fused.shift shifted = .ok (.resolved false)) ∧
    (a.shift shifted ≠ .error {} → a.shift shifted ≠ .ok (.resolved false) →
      (b.shift shifted = .error {} → fused.shift shifted = .error {}) ∧
      (b.shift shifted ≠ .error {} → ∃ more, b.shift shifted = .ok (.continues more) ∧
        (∀ left, a.shift shifted = .ok (.continues left) →
          ∃ joint, left.fuse? more = some joint ∧
            fused.shift shifted = .ok (.continues joint)) ∧
        (a.shift shifted = .ok (.resolved true) →
          ∃ rest, fused.shift shifted = .ok (.continues rest) ∧
            rest.children = more.children))) := by
  have hnonempty := ha.wellFormed.legal.nonempty
  have hsecond := shift_cases_of_not_isCondition hb.wellFormed.legal.nonempty
    (not_isCondition_of_fuse? hnonempty h) shifted
  have hwhole := shift_fused h shifted
  rcases shift_cases hnonempty shifted with
    ⟨hsteps, hshift⟩ | ⟨hsteps, hshift⟩ | ⟨hsteps, hshift⟩ | ⟨left, hsteps, hleft, hshift⟩
  all_goals rw [hsteps] at hwhole; rw [hshift]
  · exact ⟨fun _ => hwhole, nofun, fun herror => absurd rfl herror⟩
  · exact ⟨nofun, fun _ => hwhole, fun _ hrefuted => absurd rfl hrefuted⟩
  · refine ⟨nofun, nofun, fun _ _ => ?_⟩
    rcases hsecond with ⟨hmore, hshift'⟩ | ⟨more, hmore, hnonempty', hshift'⟩
    · rw [hmore] at hwhole
      exact ⟨fun _ => hwhole, fun hfits => absurd hshift' hfits⟩
    · refine ⟨fun herror => ?_, fun _ => ⟨more, hshift', nofun, fun _ => ?_⟩⟩
      · rw [hshift'] at herror
        cases herror
      · exact shift_fused_of_holds h hsteps hmore hnonempty'
  · refine ⟨nofun, nofun, fun _ _ => ?_⟩
    rcases hsecond with ⟨hmore, hshift'⟩ | ⟨more, hmore, hnonempty', hshift'⟩
    · rw [hmore] at hwhole
      exact ⟨fun _ => hwhole, fun hfits => absurd hshift' hfits⟩
    · refine ⟨fun herror => ?_, fun _ => ⟨more, hshift', fun left' hleft' => ?_, nofun⟩⟩
      · rw [hshift'] at herror
        cases herror
      · cases hleft'
        exact fuse?_of_shift h hsteps hleft hmore hnonempty'

/-- An assertion before a reduction: it holds and only the reduction is left, or it is refuted
by symbols that would overflow the reduction. -/
theorem shift_fuse_overflow :
    let a := single (.lookahead ⟨.ofList [[.terminal "a"], [.terminal "b", .terminal "c"]], true⟩)
    let b := build [.reduce ⟨.named "E", 1, 18446744073709551614⟩]
    a.Reachable ∧ b.Reachable ∧ ∃ fused, a.fuse? b = some fused ∧
      (∃ more, b.shift [.terminal "a"] = .ok (.continues more) ∧
        ∃ rest, fused.shift [.terminal "a"] = .ok (.continues rest) ∧
          rest.children = more.children) ∧
      b.shift [.terminal "b", .terminal "d"] = .error {} ∧
      fused.shift [.terminal "b", .terminal "d"] = .ok (.resolved false) := by
  intro a b
  have ha : a.Reachable := reachable_single _
  have hb : b.Reachable := reachable_iff_wellFormed.2 (by decide)
  have hlegal : Legal (a.children ++ b.children) := by decide
  have hfused := fuse?_eq_some_iff.2 ⟨hlegal, rfl⟩
  obtain ⟨more, hmore, -, hholds⟩ :=
    ((shift_fuse ha hb hfused [.terminal "a"]).2.2 (by decide) (by decide)).2 (by decide)
  exact ⟨ha, hb, _, hfused, ⟨more, hmore, hholds (by decide)⟩, by decide,
    (shift_fuse ha hb hfused _).2.1 (by decide)⟩

end EdgeActions.Action
