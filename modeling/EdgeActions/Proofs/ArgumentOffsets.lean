import EdgeActions.Proofs.EmptyShift
import EdgeActions.Step.Order

/-!
# Argument offsets follow the stack

Each symbol that is shifted lies on top of the arguments of a call, one position deeper.
A shift only counts the symbols; the count is added to the positions when they are asked
for.  So there are two places for an overflow, the counter of the call and each of its
positions, and a call that is shifted without overflow can still have a position that no
counter holds.
-/

namespace EdgeActions

/-- How the positions of what is left of a call relate to the call, `count` symbols before. -/
structure Call.Follows (count : Nat) (c left : Call) : Prop where
  /-- The positions before the offset is added stay. -/
  args : left.args = c.args
  /-- The positions with the offset are deeper by the symbols, if there are such positions. -/
  reaches : (∀ arg ∈ c.args, arg.toNat + c.offset.toNat + count < UInt64.size) →
    ∃ offsets, left.argOffsets = .ok offsets ∧
      offsets.map UInt64.toNat = c.args.map fun arg => arg.toNat + c.offset.toNat + count
  /-- One position that no counter holds is enough for an overflow. -/
  overflows : left.argOffsets = .error {} ↔
    ∃ arg ∈ c.args, UInt64.size ≤ arg.toNat + c.offset.toNat + count

theorem Call.follows_of_shift {c left : Call} {count : Nat} (h : c.shift count = .ok left) :
    Follows count c left := by
  obtain ⟨offset, hoffset, rfl⟩ := shift_eq_ok_iff.1 h
  have htotal (arg : Counter) :
      arg.toNat + offset.toNat = arg.toNat + c.offset.toNat + count := by
    rw [Counter.advance_eq_ok_iff.1 hoffset, Nat.add_assoc]
  have hoverflows : { c with offset }.argOffsets = .error {} ↔
      ∃ arg ∈ c.args, UInt64.size ≤ arg.toNat + c.offset.toNat + count := by
    simp only [argOffsets_eq_error_iff, htotal]
  refine ⟨rfl, fun hfits => ?_, hoverflows⟩
  cases hoffsets : { c with offset }.argOffsets with
  | error =>
    obtain ⟨arg, hmem, hexceeds⟩ := hoverflows.1 hoffsets
    exact absurd (hfits arg hmem) (Nat.not_lt_of_le hexceeds)
  | ok offsets =>
    have hexact := argOffsets_eq_ok_iff.1 hoffsets
    simp only [htotal] at hexact
    exact ⟨offsets, rfl, hexact⟩

/-- Elements that are related in two steps are related in one. -/
theorem forall₂_comp {α β γ : Type} {R : α → β → Prop} {S : β → γ → Prop} {T : α → γ → Prop}
    (hcomp : ∀ a b c, R a b → S b c → T a c) {as : List α} {bs : List β} {cs : List γ}
    (hfirst : List.Forall₂ R as bs) (hsecond : List.Forall₂ S bs cs) :
    List.Forall₂ T as cs := by
  induction hfirst generalizing cs with
  | nil =>
    cases hsecond
    exact .nil
  | cons hhead _ ih =>
    cases hsecond with
    | cons hnext hsecond => exact .cons (hcomp _ _ _ hhead hnext) (ih hsecond)

namespace Action

variable {a b : Action} {shifted : List Symbol} {steps rest : List Step}

/-! ### A call on its own -/

/-- A chain of shifts does to a call what one shift of as many symbols does. -/
theorem shiftEach_call (c : Call) (reads writes : List Resource) (chain : List (List Symbol)) :
    (single (.call c reads writes)).shiftEach chain =
      (c.shift chain.flatten.length).map fun left =>
        .continues (single (.call left reads writes)) := by
  induction chain generalizing c with
  | nil =>
    rw [List.flatten_nil, List.length_nil, Call.shift_zero]
    rfl
  | cons shifted chain ih =>
    rw [List.flatten_cons, List.length_append, Call.shift_add, shiftEach, shift, Step.shift]
    cases c.shift shifted.length with
    | error => rfl
    | ok left => exact ih left

/-! ### The calls of an action -/

def calls (a : Action) : List Call :=
  a.children.filterMap Step.call?

/-- A shift keeps all calls in their order and counts its symbols in each of them. -/
theorem Remains.calls (h : Remains shifted steps rest) :
    List.Forall₂ (fun c left => c.shift shifted.length = .ok left)
      (steps.filterMap Step.call?) (rest.filterMap Step.call?) := by
  induction h with
  | nil => exact .nil
  | keep hstep _ ih =>
    cases hstep with
    | call hshift => exact .cons hshift ih
    | _ => exact ih
  | drop hstep _ ih =>
    obtain ⟨assertion, rfl, -⟩ := Step.shift_eq_resolved_iff.1 hstep
    exact ih

theorem calls_of_shiftEach (ha : a.WellFormed) {chain : List (List Symbol)}
    (h : a.shiftEach chain = .ok (.continues b)) :
    List.Forall₂ (fun c left => c.shift chain.flatten.length = .ok left)
      a.calls b.calls := by
  induction chain generalizing a with
  | nil =>
    cases h
    exact List.forall₂_same.2 fun c _ => c.shift_zero
  | cons shifted chain ih =>
    rw [shiftEach] at h
    rcases hshift : a.shift shifted with _ | ⟨verdict | rest⟩ <;> rw [hshift] at h
    · cases h
    · cases h
    · have hremains := (remains_of_shift ha.legal.nonempty hshift).1
      refine forall₂_comp (fun c next left hnext hleft => ?_) hremains.calls
        (ih (ha.shift hshift) h)
      rw [List.flatten_cons, List.length_append, Call.shift_add, hnext]
      exact hleft

/--
A chain of shifts decides no call; it overflows exactly when the counter of the call
cannot take the symbols of the whole chain.  Otherwise the call goes on with the positions
it was recorded with; with the counter added, all of them are deeper by the symbols of the
chain, or one of them overflows.  The calls in a sequence go on in the same way, whatever
becomes of the assertion in front of them.
-/
theorem argOffsets_follow_stack (chain : List (List Symbol)) :
    (∀ c reads writes,
      ((single (.call c reads writes)).shiftEach chain = .error {} ↔
        UInt64.size ≤ c.offset.toNat + chain.flatten.length) ∧
      ∀ outcome, (single (.call c reads writes)).shiftEach chain = .ok outcome →
        ∃ left, outcome = .continues (single (.call left reads writes)) ∧
          c.Follows chain.flatten.length left) ∧
    ∀ a b : Action, a.Reachable → a.shiftEach chain = .ok (.continues b) →
      List.Forall₂ (Call.Follows chain.flatten.length) a.calls b.calls := by
  refine ⟨fun c reads writes => ?_, fun a b ha h => ?_⟩
  · rw [shiftEach_call, ← Call.shift_eq_error_iff]
    cases hshift : c.shift chain.flatten.length with
    | error => simp [Except.map]
    | ok left =>
      have hleft := Call.follows_of_shift hshift
      refine ⟨by simp [Except.map], fun outcome houtcome => ?_⟩
      cases houtcome
      exact ⟨left, rfl, hleft⟩
  · exact (calls_of_shiftEach ha.wellFormed h).imp fun _ _ => Call.follows_of_shift

/-- With three symbols on top, the second argument is out of reach of a call that goes on. -/
theorem argOffsets_follow_stack_limit :
    let c : Call := ⟨"f", [0, 7], some "v", 18446744073709551606⟩
    let two := [[.terminal "a"], [.terminal "b"]]
    let three := [[.terminal "a"], [.terminal "b", .terminal "c"]]
    let a := build [.lookahead ⟨.ofList [[.terminal "a", .terminal "b"]], true⟩,
      .call c ["r"] ["w"], .pushFlag "f" "x"]
    (∃ left, (single (.call c ["r"] ["w"])).shiftEach two =
        .ok (.continues (single (.call left ["r"] ["w"]))) ∧
      ∃ offsets, left.argOffsets = .ok offsets ∧
        offsets.map UInt64.toNat = [18446744073709551608, 18446744073709551615]) ∧
    (∃ left, (single (.call c ["r"] ["w"])).shiftEach three =
        .ok (.continues (single (.call left ["r"] ["w"]))) ∧ left.argOffsets = .error {}) ∧
    a.Reachable ∧
    ∃ b, a.shiftEach three = .ok (.continues b) ∧
      List.Forall₂ (Call.Follows 3) a.calls b.calls := by
  intro c two three a
  have ha : a.Reachable := reachable_iff_wellFormed.2 (wellFormed_build (by decide))
  have htwo : (single (.call c ["r"] ["w"])).shiftEach two =
      .ok (.continues (single (.call { c with offset := 18446744073709551608 } ["r"] ["w"]))) := by
    decide
  have hthree : (single (.call c ["r"] ["w"])).shiftEach three =
      .ok (.continues (single (.call { c with offset := 18446744073709551609 } ["r"] ["w"]))) := by
    decide
  have hsequence : a.shiftEach three = .ok (.continues (build
      [.call { c with offset := 18446744073709551609 } ["r"] ["w"], .pushFlag "f" "x"])) := by
    decide
  refine ⟨⟨_, htwo, ?_⟩, ⟨_, hthree, ?_⟩, ha, _, hsequence, ?_⟩
  · obtain ⟨left, hsame, hfollows⟩ := ((argOffsets_follow_stack two).1 c _ _).2 _ htwo
    cases hsame
    obtain ⟨offsets, hoffsets, hexact⟩ := hfollows.reaches (by simp [c, two, UInt64.size])
    exact ⟨offsets, hoffsets, hexact.trans (by decide)⟩
  · obtain ⟨left, hsame, hfollows⟩ := ((argOffsets_follow_stack three).1 c _ _).2 _ hthree
    cases hsame
    exact hfollows.overflows.2 (by decide)
  · exact (argOffsets_follow_stack three).2 a _ ha hsequence

end Action

end EdgeActions
