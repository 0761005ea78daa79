import EdgeActions.Proofs.Narrowing
import EdgeActions.Proofs.Reachable

/-!
# Shifts compose

Where the shifted symbols are cut into parts makes no difference.  For a step
this holds without exception.  In a sequence the steps are shifted one after
another, and a refuted assertion hides the overflow of the steps behind it; it
holds there as long as the parts before the last one do not overflow, because
only the first step of a sequence can be decided.
-/

namespace EdgeActions

/-- Goes on with what is left; a verdict or an overflow stays. -/
def Shifted.andThen {α β : Type} (outcome : Except Overflow (Shifted α))
    (next : α → Except Overflow (Shifted β)) : Except Overflow (Shifted β) :=
  match outcome with
  | .error overflow => .error overflow
  | .ok (.resolved verdict) => .ok (.resolved verdict)
  | .ok (.continues rest) => next rest

open Shifted (andThen)

theorem Shifted.andThen_congr {α β : Type} {outcome : Except Overflow (Shifted α)}
    {next next' : α → Except Overflow (Shifted β)}
    (h : ∀ rest, outcome = .ok (.continues rest) → next rest = next' rest) :
    andThen outcome next = andThen outcome next' := by
  rcases outcome with _ | ⟨_ | rest⟩
  · rfl
  · rfl
  · exact h rest rfl

/-! ### Steps -/

theorem Reduction.shift_add (r : Reduction) (m n : Nat) :
    r.shift (m + n) = (r.shift m).bind fun left => left.shift n := by
  unfold shift
  rw [Counter.advance_add]
  cases r.replay.advance m <;> rfl

theorem Call.shift_add (c : Call) (m n : Nat) :
    c.shift (m + n) = (c.shift m).bind fun left => left.shift n := by
  unfold shift
  rw [Counter.advance_add]
  cases c.offset.advance m <;> rfl

theorem Step.shift_append (step : Step) (shifted more : List Symbol) :
    step.shift (shifted ++ more) = andThen (step.shift shifted) fun left => left.shift more := by
  cases step with
  | reduce reduction =>
    simp only [shift, List.length_append, Reduction.shift_add]
    cases reduction.shift shifted.length <;> rfl
  | lookahead assertion =>
    simp only [shift, Lookahead.shift_append]
    cases assertion.shift shifted <;> rfl
  | filterFlag => rfl
  | pushFlag => rfl
  | popFlag => rfl
  | call c reads writes =>
    simp only [shift, List.length_append, Call.shift_add]
    cases c.shift shifted.length <;> rfl

namespace Action

variable {shifted more : List Symbol} {steps rest : List Step}

/-- Steps that are no conditions are never decided. -/
theorem shiftSteps_ne_resolved (hsteps : ∀ step ∈ steps, step.isCondition = false) :
    ∀ verdict, shiftSteps shifted steps ≠ .ok (.resolved verdict) := by
  intro verdict h
  obtain ⟨-, step, hmem, hrefuted⟩ := exists_refuted h
  have hcondition := Step.isCondition_of_shift_resolved hrefuted
  rw [hsteps step hmem] at hcondition
  cases hcondition

theorem shiftSteps_append {outcome : Shifted (List Step)}
    (hjoins : steps.Pairwise fun earlier later => earlier.joins later)
    (h : shiftSteps shifted steps = .ok outcome) :
    shiftSteps (shifted ++ more) steps = andThen (.ok outcome) (shiftSteps more) := by
  induction steps generalizing outcome with
  | nil =>
    cases h
    rfl
  | cons step steps ih =>
    obtain ⟨hfirst, hothers⟩ := List.pairwise_cons.1 hjoins
    have hwhole := step.shift_append shifted more
    unfold shiftSteps at h
    rw [shiftSteps, hwhole]
    cases hstep : step.shift shifted with
    | error => rw [hstep] at h; cases h
    | ok first =>
      rw [hstep] at h
      cases first with
      | resolved verdict =>
        cases verdict with
        | false => cases h; rfl
        | true => exact ih hothers h
      | continues left =>
        cases hsteps : shiftSteps shifted steps with
        | error => rw [hsteps] at h; cases h
        | ok others =>
          rw [hsteps] at h
          cases others with
          | resolved verdict =>
            -- only the first step of legal steps can be a condition
            refine absurd hsteps (shiftSteps_ne_resolved (fun later hlater => ?_) verdict)
            exact (joins_iff.1 (hfirst later hlater)).2
          | continues rest =>
            cases h
            change _ = shiftSteps more (left :: rest)
            rw [shiftSteps, ih hothers hsteps]
            rfl

/-! ### Actions -/

def regroup (count : Nat) (rest : List Step) : Shifted Action :=
  if rest.length < count then ofRemaining rest else .continues (build rest)

theorem regroup_of_lt {count : Nat} (h : rest.length < count) :
    regroup count rest = ofRemaining rest :=
  if_pos h

theorem regroup_length (rest : List Step) :
    regroup rest.length rest = .continues (build rest) :=
  if_neg (Nat.lt_irrefl _)

/-- Two or more steps always stay a sequence. -/
theorem regroup_of_two_le {count : Nat} (h : 2 ≤ rest.length) :
    regroup count rest = .continues (build rest) := by
  match rest, h with
  | first :: second :: rest, _ =>
    unfold regroup
    split <;> rfl

theorem shift_seq (steps : List Step) (reads writes : List Resource) (shifted : List Symbol) :
    (seq steps reads writes).shift shifted =
      andThen (shiftSteps shifted steps) fun rest => .ok (regroup steps.length rest) := by
  cases h : shiftSteps shifted steps with
  | error => rw [shift, h]; rfl
  | ok outcome => cases outcome <;> rw [shift, h] <;> rfl

theorem shift_build (steps : List Step) (shifted : List Symbol) :
    (build steps).shift shifted =
      andThen (shiftSteps shifted steps) fun rest => .ok (regroup steps.length rest) :=
  shift_seq steps _ _ shifted

theorem shiftSteps_singleton (step : Step) (shifted : List Symbol) {count : Nat}
    (hcount : 1 < count) :
    andThen (shiftSteps shifted [step]) (fun rest => .ok (regroup count rest)) =
      (single step).shift shifted := by
  have hnone : regroup count [] = .resolved true := regroup_of_lt (Nat.zero_lt_of_lt hcount)
  have hone (left : Step) : regroup count [left] = .continues (single left) :=
    regroup_of_lt hcount
  rw [shift, shiftSteps]
  rcases step.shift shifted with _ | ⟨(_ | _) | left⟩
  · rfl
  · rfl
  · exact congrArg Except.ok hnone
  · exact congrArg Except.ok (hone left)

/-- A sequence may be regrouped before the rest of the symbols is shifted or after it. -/
theorem shift_regroup {count : Nat} (hcount : rest.length ≤ count) (more : List Symbol) :
    andThen (.ok (regroup count rest)) (fun b => b.shift more) =
      andThen (shiftSteps more rest) fun left => .ok (regroup count left) := by
  rcases Nat.eq_or_lt_of_le hcount with rfl | hdropped
  · rw [regroup_length]
    exact shift_build rest more
  · match rest, hdropped with
    | [], hdropped =>
      have hnone : regroup count [] = .resolved true := regroup_of_lt hdropped
      change andThen _ _ = Except.ok (regroup count [])
      rw [hnone]
      rfl
    | [step], hdropped =>
      rw [regroup_of_lt hdropped]
      exact (shiftSteps_singleton step more hdropped).symm
    | first :: second :: others, hdropped =>
      have hmany : 2 ≤ (first :: second :: others).length := Nat.le_add_left 2 _
      rw [regroup_of_two_le hmany]
      refine (shift_build _ more).trans (Shifted.andThen_congr fun left hleft => ?_)
      have hlength := (shiftSteps_eq_continues_iff.1 hleft).length_le
      rcases Nat.eq_or_lt_of_le hlength with hsame | hless
      · rw [regroup_of_two_le (hsame ▸ hmany), regroup_of_two_le (hsame ▸ hmany)]
      · rw [regroup_of_lt hless, regroup_of_lt (Nat.lt_trans hless hdropped)]

/-- Shifting symbols one part after the other, if the first part does not overflow. -/
theorem shift_append {a : Action} {outcome : Shifted Action} (ha : Legal a.children)
    (h : a.shift shifted = .ok outcome) (more : List Symbol) :
    a.shift (shifted ++ more) = andThen (.ok outcome) fun b => b.shift more := by
  cases a with
  | single step =>
    rw [shift] at h
    rw [shift, step.shift_append]
    rcases hstep : step.shift shifted with _ | ⟨verdict | left⟩
    · rw [hstep] at h; cases h
    · rw [hstep] at h; cases h; rfl
    · rw [hstep] at h; cases h; rfl
  | seq steps reads writes =>
    rw [shift_seq] at h ⊢
    cases hsteps : shiftSteps shifted steps with
    | error => rw [hsteps] at h; cases h
    | ok first =>
      have hwhole : shiftSteps (shifted ++ more) steps = andThen (.ok first) (shiftSteps more) :=
        shiftSteps_append (legal_iff_pairwise.1 ha).2 hsteps
      rw [hsteps] at h
      rw [hwhole]
      cases first with
      | resolved verdict => cases h; rfl
      | continues rest =>
        cases h
        exact (shift_regroup (shiftSteps_eq_continues_iff.1 hsteps).length_le more).symm

/-! ### Chains of shifts -/

def shiftEach (a : Action) : List (List Symbol) → Except Overflow (Shifted Action)
  | [] => .ok (.continues a)
  | shifted :: chain => andThen (a.shift shifted) fun rest => rest.shiftEach chain

theorem shiftEach_concat {a : Action} {outcome : Shifted Action} (ha : a.WellFormed)
    {chain : List (List Symbol)} (h : a.shiftEach chain = .ok outcome) (last : List Symbol) :
    a.shiftEach (chain ++ [last]) = a.shift (chain ++ [last]).flatten := by
  induction chain generalizing a with
  | nil =>
    rw [List.nil_append, List.flatten_cons, List.flatten_nil, List.append_nil, shiftEach]
    rcases a.shift last with _ | ⟨_ | _⟩ <;> rfl
  | cons shifted chain ih =>
    rw [shiftEach] at h
    rw [List.cons_append, List.flatten_cons, shiftEach]
    rcases hshift : a.shift shifted with _ | ⟨verdict | rest⟩
    · rw [hshift] at h; cases h
    · exact (shift_append ha.legal hshift _).symm
    · rw [hshift] at h
      rw [shift_append ha.legal hshift]
      exact ih (ha.shift hshift) h

/--
A verdict on the first symbols stands for all symbols, and what is left after them
meets the others with the same outcome as the action meets all of them.  So a chain
of shifts of which none but the last overflows has the outcome of one shift.
-/
theorem shifts_compose {a : Action} (ha : a.Reachable) :
    (∀ shifted more verdict, a.shift shifted = .ok (.resolved verdict) →
      a.shift (shifted ++ more) = .ok (.resolved verdict)) ∧
    (∀ shifted more rest, a.shift shifted = .ok (.continues rest) →
      a.shift (shifted ++ more) = rest.shift more) ∧
    (∀ chain last outcome, a.shiftEach chain = .ok outcome →
      a.shiftEach (chain ++ [last]) = a.shift (chain ++ [last]).flatten) :=
  ⟨fun _ more _ h => shift_append ha.wellFormed.legal h more,
    fun _ more _ h => shift_append ha.wellFormed.legal h more,
    fun _ last _ h => shiftEach_concat ha.wellFormed h last⟩

/-- The last of three shifts overflows exactly as the shift of all symbols does. -/
theorem shifts_compose_overflow :
    let a := build [.lookahead ⟨.ofList [[.terminal "a", .terminal "b"]], true⟩,
      .reduce ⟨.named "E", 1, 18446744073709551613⟩]
    a.Reachable ∧
      a.shiftEach [[.terminal "a"], [.terminal "b"]] =
        .ok (.continues (single (.reduce ⟨.named "E", 1, 18446744073709551615⟩))) ∧
      a.shiftEach [[.terminal "a"], [.terminal "b"], [.terminal "c"]] =
        a.shift [.terminal "a", .terminal "b", .terminal "c"] ∧
      a.shift [.terminal "a", .terminal "b", .terminal "c"] = .error {} := by
  intro a
  have ha : a.Reachable := reachable_iff_wellFormed.2 (by decide)
  have hchain : a.shiftEach [[.terminal "a"], [.terminal "b"]] =
      .ok (.continues (single (.reduce ⟨.named "E", 1, 18446744073709551615⟩))) := by decide
  exact ⟨ha, hchain, (shifts_compose ha).2.2 _ [.terminal "c"] _ hchain, by decide⟩

end Action

end EdgeActions
