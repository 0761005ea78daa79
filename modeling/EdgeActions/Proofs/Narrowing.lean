import EdgeActions.Lookahead
import Mathlib.Data.List.Basic
import Mathlib.Data.List.Induction

/-!
# Narrowing of lookahead assertions

What a shift of a lookahead assertion means for the symbols that follow it.
A shift resolves an assertion exactly when no continuation can change whether
a candidate is found, and otherwise leaves the candidates that can still be
completed, less the shifted symbols.
-/

namespace EdgeActions

namespace OrderedSet

/-- Pairwise different elements are kept by a set as they are. -/
theorem items_ofList {α : Type} [BEq α] {xs : List α}
    (hdistinct : xs.Pairwise fun earlier later => (earlier == later) = false) :
    (ofList xs).items = xs := by
  induction xs using List.reverseRecOn with
  | nil => rfl
  | append_singleton xs x ih =>
    obtain ⟨hinit, -, hlast⟩ := List.pairwise_append.1 hdistinct
    have habsent : (ofList xs).contains x = false := by
      rw [contains, ih hinit, List.any_eq_false]
      intro y hy
      simp [hlast y hy x (List.mem_singleton_self x)]
    rw [ofList_append_singleton, items_insert_of_not_contains habsent, ih hinit]

end OrderedSet

namespace Lookahead

variable {l rest : Lookahead} {shifted more : List Symbol}

def remainders (l : Lookahead) (shifted : List Symbol) : List (List Symbol) :=
  l.candidates.items.filterMap (remainder? shifted)

theorem mem_remainders_iff {left : List Symbol} :
    left ∈ l.remainders shifted ↔ shifted ++ left ∈ l.candidates.items := by
  simp only [remainders, List.mem_filterMap, remainder?_eq_some_iff, exists_eq_right]

/-- Candidates that differ leave different remainders. -/
theorem remainders_distinct (l : Lookahead) (shifted : List Symbol) :
    (l.remainders shifted).Pairwise fun earlier later => (earlier == later) = false := by
  refine List.Pairwise.filterMap _ ?_ l.candidates.distinct
  intro earlier later hdiffer left hleft left' hleft'
  rw [remainder?_eq_some_iff] at hleft hleft'
  subst hleft hleft'
  rw [beq_eq_false_iff_ne] at hdiffer ⊢
  rintro rfl
  exact hdiffer rfl

/-- The first symbols of a shift narrow the candidates before the others do. -/
theorem remainder?_append (candidate : List Symbol) :
    remainder? (shifted ++ more) candidate =
      (remainder? shifted candidate).bind (remainder? more) := by
  apply Option.ext
  intro left
  rw [Option.bind_eq_some_iff, remainder?_eq_some_iff]
  constructor
  · rintro rfl
    refine ⟨more ++ left, ?_, remainder?_eq_some_iff.2 rfl⟩
    rw [remainder?_eq_some_iff, List.append_assoc]
  · rintro ⟨middle, hmiddle, hleft⟩
    rw [remainder?_eq_some_iff] at hmiddle hleft
    rw [hmiddle, hleft, List.append_assoc]

/-- As long as nothing is found, what decides about more symbols is the remainders. -/
theorem matches_append_iff (hopen : ¬ l.Matches shifted) :
    l.Matches (shifted ++ more) ↔ ∃ left ∈ l.remainders shifted, left <+: more := by
  constructor
  · rintro ⟨candidate, hmem, hstart⟩
    rcases List.prefix_or_prefix_of_prefix hstart (List.prefix_append shifted more) with
      hshort | ⟨left, rfl⟩
    · exact absurd ⟨candidate, hmem, hshort⟩ hopen
    · exact ⟨left, mem_remainders_iff.2 hmem, (List.prefix_append_right_inj shifted).1 hstart⟩
  · rintro ⟨left, hmem, hstart⟩
    exact ⟨shifted ++ left, mem_remainders_iff.1 hmem,
      (List.prefix_append_right_inj shifted).2 hstart⟩

/-! ### The two outcomes -/

/-- An assertion of which no candidate is complete goes on with its remainders, if any. -/
theorem shift_of_not_matches (hopen : ¬ l.Matches shifted) :
    l.shift shifted =
      if l.remainders shifted = [] then .resolved (!l.accept)
      else .continues ⟨.ofList (l.remainders shifted), l.accept⟩ := by
  rw [shift, if_neg (mt matchedBy_iff.1 hopen), ← remainders]
  cases l.remainders shifted with
  | nil => rfl
  | cons left others => rfl

theorem shift_eq_resolved_iff {verdict : Bool} :
    l.shift shifted = .resolved verdict ↔
      (l.Matches shifted ∧ verdict = l.accept) ∨
        (¬ l.Matches shifted ∧ l.remainders shifted = [] ∧ verdict = !l.accept) := by
  by_cases hfound : l.Matches shifted
  · simp only [shift_of_matches hfound, Shifted.resolved.injEq, hfound, true_and,
      not_true_eq_false, false_and, or_false]
    exact eq_comm
  · rw [shift_of_not_matches hfound]
    split
    case isTrue hnone =>
      simp only [Shifted.resolved.injEq, hfound, hnone, false_and, false_or,
        not_false_eq_true, true_and]
      exact eq_comm
    case isFalse hsome => simp [hfound, hsome]

theorem shift_eq_continues_iff :
    l.shift shifted = .continues rest ↔
      ¬ l.Matches shifted ∧ l.remainders shifted ≠ [] ∧
        rest.candidates.items = l.remainders shifted ∧ rest.accept = l.accept := by
  by_cases hfound : l.Matches shifted
  · rw [shift_of_matches hfound]
    simp [hfound]
  · rw [shift_of_not_matches hfound]
    have hitems := OrderedSet.items_ofList (l.remainders_distinct shifted)
    split
    case isTrue hnone => simp [hnone]
    case isFalse hsome =>
      constructor
      · intro h
        cases h
        exact ⟨hfound, hsome, hitems, rfl⟩
      · rintro ⟨-, -, hcandidates, haccept⟩
        have hset : OrderedSet.ofList (l.remainders shifted) = rest.candidates :=
          OrderedSet.ext (hitems.trans hcandidates.symm)
        rw [hset, ← haccept]

/-- Shifting symbols one part after the other comes to the same as shifting all of them. -/
theorem shift_append (l : Lookahead) (shifted more : List Symbol) :
    l.shift (shifted ++ more) =
      match l.shift shifted with
      | .resolved verdict => .resolved verdict
      | .continues rest => rest.shift more := by
  have hnarrow : l.remainders (shifted ++ more) =
      (l.remainders shifted).filterMap (remainder? more) := by
    rw [remainders, remainders, List.filterMap_filterMap]
    exact List.filterMap_congr fun candidate _ => remainder?_append candidate
  cases hshift : l.shift shifted with
  | resolved verdict =>
    change l.shift (shifted ++ more) = .resolved verdict
    rw [shift_eq_resolved_iff]
    rcases shift_eq_resolved_iff.1 hshift with ⟨hfound, hverdict⟩ | ⟨hopen, hnone, hverdict⟩
    · exact Or.inl ⟨hfound.append more, hverdict⟩
    · refine Or.inr ⟨?_, ?_, hverdict⟩
      · rw [matches_append_iff hopen, hnone]
        simp
      · rw [hnarrow, hnone, List.filterMap_nil]
  | continues rest =>
    change l.shift (shifted ++ more) = rest.shift more
    obtain ⟨hopen, -, hitems, haccept⟩ := shift_eq_continues_iff.1 hshift
    have hsame : l.Matches (shifted ++ more) ↔ rest.Matches more := by
      rw [matches_append_iff hopen, Matches, hitems]
    have hleft : l.remainders (shifted ++ more) = rest.remainders more := by
      rw [hnarrow, ← hitems]
      rfl
    by_cases hfound : rest.Matches more
    · rw [shift_of_matches hfound, shift_of_matches (hsame.2 hfound), haccept]
    · rw [shift_of_not_matches hfound, shift_of_not_matches (mt hsame.1 hfound), hleft, haccept]

/-! ### Soundness and completeness of narrowing -/

/-- The candidates of which the shifted symbols are a proper prefix are not yet decided. -/
theorem map_append_remainders (hopen : ¬ l.Matches shifted) :
    (l.remainders shifted).map (shifted ++ ·) =
      l.candidates.items.filter fun candidate =>
        decide (shifted <+: candidate ∧ shifted ≠ candidate) := by
  rw [remainders, List.map_filterMap, ← List.filterMap_eq_filter]
  refine List.filterMap_congr fun candidate hmem => ?_
  have hother : shifted ≠ candidate := by
    rintro rfl
    exact hopen ⟨shifted, hmem, List.prefix_refl shifted⟩
  unfold remainder?
  by_cases hstart : shifted <+: candidate
  · rw [if_pos (List.isPrefixOf_iff_prefix.2 hstart), Option.map_some,
      List.prefix_iff_eq_append.1 hstart]
    simp [Option.guard, hstart, hother]
  · rw [if_neg (mt List.isPrefixOf_iff_prefix.1 hstart)]
    simp [Option.guard, hstart]

/-- After a verdict every continuation matches, or none does, as the verdict says. -/
theorem matches_append_iff_of_resolved {verdict : Bool}
    (h : l.shift shifted = .resolved verdict) (more : List Symbol) :
    l.Matches (shifted ++ more) ↔ verdict = l.accept := by
  rcases shift_eq_resolved_iff.1 h with ⟨hfound, rfl⟩ | ⟨hopen, hnone, rfl⟩
  · exact iff_of_true (hfound.append more) rfl
  · rw [matches_append_iff hopen, hnone]
    simp

/-- An assertion that goes on is still open: one continuation matches and another does not. -/
theorem open_of_shift_continues (h : l.shift shifted = .continues rest) :
    ∃ more more', l.Matches (shifted ++ more) ∧ ¬ l.Matches (shifted ++ more') := by
  obtain ⟨hopen, hsome, -, -⟩ := shift_eq_continues_iff.1 h
  obtain ⟨left, hleft⟩ := List.exists_mem_of_ne_nil _ hsome
  refine ⟨left, [], ?_, ?_⟩
  · exact (matches_append_iff hopen).2 ⟨left, hleft, List.prefix_refl left⟩
  · rwa [List.append_nil]

/-- Whether an assertion is decided depends on its candidates and not on their order. -/
theorem shift_resolved_of_perm {m : Lookahead} (haccept : m.accept = l.accept)
    (hperm : m.candidates.items.Perm l.candidates.items) {verdict : Bool} :
    m.shift shifted = .resolved verdict ↔ l.shift shifted = .resolved verdict := by
  have hmatches : m.Matches shifted ↔ l.Matches shifted := by
    simp only [Matches, hperm.mem_iff]
  have hremainders : m.remainders shifted = [] ↔ l.remainders shifted = [] := by
    rw [← List.perm_nil, ← List.perm_nil]
    have hleft : (m.remainders shifted).Perm (l.remainders shifted) := hperm.filterMap _
    exact ⟨hleft.symm.trans, hleft.trans⟩
  rw [shift_eq_resolved_iff, shift_eq_resolved_iff, hmatches, hremainders, haccept]

/--
A shift decides an assertion exactly when all continuations agree on whether a
candidate is found, whatever the order of the candidates, and the verdict is then the
right one for each of them.  Otherwise the polarity stays, and the new candidates are
what the shift leaves of those of which it is a proper prefix, all of them and in their
order; they are found in what follows exactly when the old ones are found in the whole.
-/
theorem shift_sound_and_complete (l : Lookahead) (shifted : List Symbol) :
    (∀ verdict, l.shift shifted = .resolved verdict → ∀ more,
      verdict = if l.Matches (shifted ++ more) then l.accept else !l.accept) ∧
    (∀ rest, l.shift shifted = .continues rest →
      rest.accept = l.accept ∧
      (∀ more, l.Matches (shifted ++ more) ↔ rest.Matches more) ∧
      rest.candidates.items.map (shifted ++ ·) =
        l.candidates.items.filter fun candidate =>
          decide (shifted <+: candidate ∧ shifted ≠ candidate)) ∧
    ((∃ verdict, l.shift shifted = .resolved verdict) ↔
      ∀ more more', l.Matches (shifted ++ more) ↔ l.Matches (shifted ++ more')) ∧
    (∀ m : Lookahead, m.accept = l.accept →
      m.candidates.items.Perm l.candidates.items → ∀ verdict,
        m.shift shifted = .resolved verdict ↔ l.shift shifted = .resolved verdict) := by
  refine ⟨?_, ?_, ?_, fun m haccept hperm verdict => shift_resolved_of_perm haccept hperm⟩
  · intro verdict h more
    have hfound := matches_append_iff_of_resolved h more
    split
    case isTrue hmatches => exact hfound.1 hmatches
    case isFalse hnone => exact Bool.eq_not_of_ne (mt hfound.2 hnone)
  · intro rest h
    obtain ⟨hopen, -, hitems, haccept⟩ := shift_eq_continues_iff.1 h
    refine ⟨haccept, fun more => ?_, ?_⟩
    · rw [matches_append_iff hopen, Matches, hitems]
    · rw [hitems, map_append_remainders hopen]
  · constructor
    · rintro ⟨verdict, h⟩ more more'
      rw [matches_append_iff_of_resolved h, matches_append_iff_of_resolved h]
    · intro hsame
      cases h : l.shift shifted with
      | resolved verdict => exact ⟨verdict, rfl⟩
      | continues rest =>
        obtain ⟨more, more', hfound, hnone⟩ := open_of_shift_continues h
        exact absurd ((hsame more more').1 hfound) hnone

/-- One candidate is a prefix of another: the first symbol leaves both open, two decide. -/
theorem shift_sound_and_complete_nested :
    let l : Lookahead := ⟨.ofList [[.terminal "a", .terminal "b", .terminal "c"],
      [.terminal "d"], [.terminal "a", .terminal "b"]], false⟩
    let rest : Lookahead := ⟨.ofList [[.terminal "b", .terminal "c"], [.terminal "b"]], false⟩
    l.shift [.terminal "a"] = .continues rest ∧
      (∀ more, l.Matches ([.terminal "a"] ++ more) ↔ rest.Matches more) ∧
      l.shift [.terminal "a", .terminal "b"] = .resolved false ∧
      ∀ more, false =
        if l.Matches ([.terminal "a", .terminal "b"] ++ more) then l.accept else !l.accept := by
  intro l rest
  have hopen : l.shift [.terminal "a"] = .continues rest := by decide
  have hdecided : l.shift [.terminal "a", .terminal "b"] = .resolved false := by decide
  exact ⟨hopen, ((l.shift_sound_and_complete _).2.1 rest hopen).2.1, hdecided,
    (l.shift_sound_and_complete _).1 false hdecided⟩

end Lookahead

end EdgeActions
