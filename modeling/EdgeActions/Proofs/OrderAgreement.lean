import EdgeActions.Action.Order
import Mathlib.Data.List.Forall2
import Mathlib.Data.List.Permutation
import Mathlib.Order.Antisymmetrization

/-!
# Agreement of order, equality and fingerprints

The order of actions is total and joins exactly the equal ones, and equal actions
have one fingerprint under every digest.  So it does not matter whether actions are
told apart by a hash table or by their order, nor in which order they were listed
before they were sorted.
-/

namespace EdgeActions

/-- Lists are equal when their elements are, place by place. -/
theorem beq_iff_forall₂ {α : Type} [BEq α] {xs ys : List α} :
    (xs == ys) = true ↔ List.Forall₂ (fun x y => (x == y) = true) xs ys := by
  induction xs generalizing ys with
  | nil => cases ys <;> simp
  | cons x xs ih => cases ys <;> simp [ih]

/-! ### Counting different elements -/

namespace OrderedSet

variable {α : Type} [BEq α] [EquivBEq α]

theorem contains_ofList (xs : List α) (x : α) : (ofList xs).contains x = xs.contains x := by
  induction xs using List.reverseRecOn with
  | nil => rfl
  | append_singleton xs y ih =>
    rw [ofList_append_singleton, contains_insert, ih]
    simp [BEq.comm]

/-- Whatever grows by one with each element that equals none before counts the elements. -/
theorem eq_size_ofList (count : List α → Nat) (start : count [] = 0)
    (grow : ∀ xs x, count (xs ++ [x]) =
      if xs.contains x = true then count xs else count xs + 1) (xs : List α) :
    count xs = (ofList xs).size := by
  induction xs using List.reverseRecOn with
  | nil => exact start
  | append_singleton xs x ih =>
    rw [grow, ih, ofList_append_singleton, size_insert, contains_ofList]

/-- A hash table that respects equality keeps one of each class of equal elements. -/
theorem size_hashSet [Hashable α] [LawfulHashable α] (xs : List α) :
    (Std.HashSet.ofList xs).size = (ofList xs).size := by
  refine eq_size_ofList (fun xs => (Std.HashSet.ofList xs).size) ?_ ?_ xs
  · simp
  · intro xs x
    simp only [Std.HashSet.ofList_eq_insertMany_empty, Std.HashSet.insertMany_append,
      Std.HashSet.insertMany_list_singleton, Std.HashSet.size_insert]
    simp [← Std.HashSet.ofList_eq_insertMany_empty]

/-- A search tree whose order joins exactly the equal elements keeps one of each class, too. -/
theorem size_treeSet [Ord α] [Std.TransOrd α] [Std.LawfulBEqOrd α] (xs : List α) :
    (Std.TreeSet.ofList xs compare).size = (ofList xs).size := by
  refine eq_size_ofList (fun xs => (Std.TreeSet.ofList xs compare).size) ?_ ?_ xs
  · simp
  · intro xs x
    simp only [Std.TreeSet.ofList_eq_insertMany_empty, Std.TreeSet.insertMany_append,
      Std.TreeSet.insertMany_list_singleton, Std.TreeSet.size_insert]
    simp [← Std.TreeSet.ofList_eq_insertMany_empty]

end OrderedSet

/-! ### Sorting -/

/-- Two sorted lists of the same elements differ at most in the order among equivalent ones. -/
theorem forall₂_antisymmRel_of_perm {α : Type} [Preorder α] {xs ys : List α}
    (perm : xs.Perm ys) (sorted : xs.Pairwise (· ≤ ·)) (sorted' : ys.Pairwise (· ≤ ·)) :
    List.Forall₂ (AntisymmRel (· ≤ ·)) xs ys := by
  -- Up to equivalence the order is antisymmetric, and there a sorted list is unique.
  have classes : xs.map (toAntisymmetrization (· ≤ ·)) = ys.map (toAntisymmetrization (· ≤ ·)) := by
    refine List.Perm.eq_of_pairwise (fun _ _ _ _ => le_antisymm) ?_ ?_ (perm.map _)
    · exact sorted.map _ fun _ _ h => h
    · exact sorted'.map _ fun _ _ h => h
  rw [← List.forall₂_eq_eq_eq, List.forall₂_map_left_iff, List.forall₂_map_right_iff] at classes
  exact classes.imp fun _ _ h => Quotient.exact h

section

variable {α : Type} [Ord α] [Std.TransOrd α]

abbrev preorderOfOrd : Preorder α where
  le a b := (compare a b).isLE = true
  le_refl _ := Std.ReflOrd.isLE_rfl
  le_trans _ _ _ := Std.TransOrd.isLE_trans

theorem isLE_or_isLE (a b : α) : (compare a b).isLE = true ∨ (compare b a).isLE = true := by
  rw [Std.OrientedOrd.eq_swap (a := b)]
  cases compare a b <;> simp

theorem beq_of_isLE_of_isLE [BEq α] [Std.LawfulBEqOrd α] {a b : α}
    (h : (compare a b).isLE = true) (h' : (compare b a).isLE = true) : (a == b) = true :=
  Std.LawfulBEqOrd.compare_eq_iff_beq.1 (Std.OrientedCmp.isLE_antisymm h h')

theorem pairwise_mergeSort_compare (xs : List α) :
    (xs.mergeSort fun a b => (compare a b).isLE).Pairwise fun a b => (compare a b).isLE = true := by
  apply List.pairwise_mergeSort
  · intro a b c
    exact Std.TransOrd.isLE_trans
  · intro a b
    rw [Bool.or_eq_true]
    exact isLE_or_isLE a b

/-- Two sorted lists of the same elements agree place by place, up to equality. -/
theorem forall₂_beq_of_perm [BEq α] [Std.LawfulBEqOrd α] {xs ys : List α} (perm : xs.Perm ys)
    (sorted : xs.Pairwise fun a b => (compare a b).isLE = true)
    (sorted' : ys.Pairwise fun a b => (compare a b).isLE = true) :
    List.Forall₂ (fun x y => (x == y) = true) xs ys := by
  let : Preorder α := preorderOfOrd
  apply (forall₂_antisymmRel_of_perm perm sorted sorted').imp
  intro x y h
  exact beq_of_isLE_of_isLE h.1 h.2

/-- Sorting forgets in which order elements were listed, up to the choice among equal ones. -/
theorem forall₂_beq_mergeSort [BEq α] [Std.LawfulBEqOrd α] {xs ys : List α} (perm : xs.Perm ys) :
    List.Forall₂ (fun x y => (x == y) = true) (xs.mergeSort fun a b => (compare a b).isLE)
      (ys.mergeSort fun a b => (compare a b).isLE) := by
  have results := (List.mergeSort_perm xs fun a b => (compare a b).isLE).trans
    (perm.trans (List.mergeSort_perm ys fun a b => (compare a b).isLE).symm)
  exact forall₂_beq_of_perm results (pairwise_mergeSort_compare xs)
    (pairwise_mergeSort_compare ys)

end

namespace Action

/-! ### The parts by which actions are told apart -/

/--
Two actions are of one variant and agree in the fields of that variant; the steps of
sequences are compared one by one.  The resources of the actions do not matter.
-/
inductive Alike : Action → Action → Prop where
  | reduce (reduction : Reduction) : Alike (single (.reduce reduction)) (single (.reduce reduction))
  | lookahead (assertion : Lookahead) :
    Alike (single (.lookahead assertion)) (single (.lookahead assertion))
  | filterFlag (flag value : String) :
    Alike (single (.filterFlag flag value)) (single (.filterFlag flag value))
  | pushFlag (flag value : String) :
    Alike (single (.pushFlag flag value)) (single (.pushFlag flag value))
  | popFlag (flag : String) : Alike (single (.popFlag flag)) (single (.popFlag flag))
  | call (c : Call) (reads writes others rest : List Resource) :
    Alike (single (.call c reads writes)) (single (.call c others rest))
  | seq {as bs : List Step} (reads writes others rest : List Resource)
    (steps : List.Forall₂ (fun a b => (single a == single b) = true) as bs) :
    Alike (seq as reads writes) (seq bs others rest)

theorem alike_single_iff {a b : Step} :
    Alike (single a) (single b) ↔ a.bare = b.bare := by
  constructor
  · rintro ⟨⟩ <;> rfl
  · intro h
    cases a <;> cases b <;> cases h <;> constructor

/-- The test of the fields decides what the parts say. -/
theorem sameFields_iff_alike {a b : Action} : a.sameFields b = true ↔ Alike a b := by
  cases a with
  | single a =>
    cases b with
    | single b => rw [sameFields_single, Step.sameFields, decide_eq_true_iff, alike_single_iff]
    | seq bs _ _ =>
      rw [sameFields_single_seq]
      refine iff_of_false Bool.false_ne_true ?_
      rintro ⟨⟩
  | seq as _ _ =>
    cases b with
    | single b =>
      rw [sameFields_seq_single]
      refine iff_of_false Bool.false_ne_true ?_
      rintro ⟨⟩
    | seq bs _ _ =>
      rw [sameFields_seq, beq_iff_forall₂]
      constructor
      · apply Alike.seq
      · rintro ⟨⟩
        assumption

/-! ### Sets of actions -/

instance : EquivBEq Action := Std.LawfulBEqOrd.equivBEq

/-- The number of actions that a hash table keeps, which scatters their fingerprints by `mix`. -/
def countByHash (digest : Digest) (mix : UInt64 → UInt64) (actions : List Action) : Nat :=
  @Std.HashSet.size Action ⟨same digest⟩ ⟨fun a => mix (a.fingerprint digest)⟩
    (@Std.HashSet.ofList Action ⟨same digest⟩ ⟨fun a => mix (a.fingerprint digest)⟩ actions)

def countByOrder (actions : List Action) : Nat :=
  (Std.TreeSet.ofList actions compare).size

theorem countByHash_eq (digest : Digest) (mix : UInt64 → UInt64) (actions : List Action) :
    countByHash digest mix actions = (OrderedSet.ofList actions).size := by
  have equality : (⟨same digest⟩ : BEq Action) = instBEq :=
    congrArg BEq.mk (funext₂ (same_eq_beq digest))
  rw [countByHash, equality]
  let : Hashable Action := ⟨fun a => mix (a.fingerprint digest)⟩
  have : LawfulHashable Action :=
    ⟨fun a b h => congrArg mix (fingerprint_eq_of_beq digest h)⟩
  exact OrderedSet.size_hashSet actions

theorem countByOrder_eq (actions : List Action) :
    countByOrder actions = (OrderedSet.ofList actions).size :=
  OrderedSet.size_treeSet actions

/--
The order of actions is total, equality decides what it joins, no digest tells equal
actions apart, and so sets and sorted lists of actions do not depend on the means by
which they are made.
-/
theorem order_equality_fingerprint_agree :
    (∀ a b c : Action,
      compare a a = .eq ∧
      compare b a = (compare a b).swap ∧
      ((compare a b).isLE = true ∨ (compare b a).isLE = true) ∧
      ((compare a b).isLE = true → (compare b c).isLE = true → (compare a c).isLE = true) ∧
      ((compare a b).isLE = true → (compare b a).isLE = true → (a == b) = true) ∧
      (compare a b = .eq ↔ (a == b) = true)) ∧
    Equivalence (fun a b : Action => (a == b) = true) ∧
    (∀ digest, ∀ a b : Action,
      (same digest a b = true ↔
        Alike a b ∧ a.reads.Perm b.reads ∧ a.writes.Perm b.writes) ∧
      same digest a b = (a == b) ∧
      ((a == b) = true → a.fingerprint digest = b.fingerprint digest)) ∧
    (∀ digest mix, ∀ actions : List Action,
      countByHash digest mix actions = countByOrder actions ∧
      countByOrder actions = (OrderedSet.ofList actions).size) ∧
    ∀ actions others : List Action, actions.Perm others →
      List.Forall₂ (fun a b => (a == b) = true)
        (actions.mergeSort fun a b => (compare a b).isLE)
        (others.mergeSort fun a b => (compare a b).isLE) := by
  refine ⟨fun a b c => ⟨?_, ?_, ?_, ?_, ?_, ?_⟩, ?_, fun digest a b => ⟨?_, ?_, ?_⟩,
    fun digest mix actions => ⟨?_, ?_⟩, fun actions others => ?_⟩
  · exact Std.ReflOrd.compare_self
  · exact Std.OrientedOrd.eq_swap
  · exact isLE_or_isLE a b
  · exact Std.TransOrd.isLE_trans
  · exact beq_of_isLE_of_isLE
  · exact Std.LawfulBEqOrd.compare_eq_iff_beq
  · exact ⟨fun _ => BEq.rfl, BEq.symm, BEq.trans⟩
  · rw [same_iff, sameFields_iff_alike]
  · exact same_eq_beq digest a b
  · exact fingerprint_eq_of_beq digest
  · rw [countByHash_eq, countByOrder_eq]
  · exact countByOrder_eq actions
  · exact forall₂_beq_mergeSort

/-- Two sequences whose calls list their reads in another order count as one before a third. -/
theorem order_equality_fingerprint_agree_swapped :
    let first := build [.popFlag "in", .call ⟨"f", [0], none, 0⟩ ["x", "y", "x"] []]
    let second := build [.popFlag "in", .call ⟨"f", [0], none, 0⟩ ["y", "x", "x"] []]
    let other := build [.popFlag "in", .call ⟨"f", [1], none, 0⟩ ["x", "y", "x"] []]
    first ≠ second ∧ (first == second) = true ∧ Alike first second ∧
      compare first other = .lt ∧ (compare second other).isLE = true ∧
      (∀ digest mix, first.fingerprint digest = second.fingerprint digest ∧
        countByHash digest mix [first, second, other] = 2) ∧
      List.Forall₂ (fun a b => (a == b) = true)
        ([first, other, second].mergeSort fun a b => (compare a b).isLE)
        ([other, second, first].mergeSort fun a b => (compare a b).isLE) := by
  intro first second other
  have hjoined : compare second first = .eq := by cbv
  have hless : compare first other = .lt := by cbv
  have hcount : countByOrder [first, second, other] = 2 := by cbv
  obtain ⟨horder, hequivalence, hsame, hsets, hsorts⟩ := order_equality_fingerprint_agree
  obtain ⟨-, -, -, htrans, -, hiff⟩ := horder second first other
  have hequal : (first == second) = true := hequivalence.symm (hiff.1 hjoined)
  have hparts := (hsame Digest.standard first second).1.1
    ((hsame Digest.standard first second).2.1.trans hequal)
  refine ⟨by decide, hequal, hparts.1, hless, htrans ?_ ?_, fun digest mix => ⟨?_, ?_⟩, ?_⟩
  · rw [hjoined]
    rfl
  · rw [hless]
    rfl
  · exact (hsame digest first second).2.2 hequal
  · exact (hsets digest mix [first, second, other]).1.trans hcount
  · exact hsorts _ _ (@List.perm_append_comm _ [first] [other, second])

end Action

end EdgeActions
