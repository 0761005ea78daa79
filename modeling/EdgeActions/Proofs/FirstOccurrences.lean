import EdgeActions.Proofs.Narrowing
import EdgeActions.Proofs.OrderAgreement

/-!
# First occurrences

An ordered set holds of every element of a list the first occurrence, in the order of the
list.  Equality, order and fingerprints of sets all follow these items one by one.  That
takes no more than elements whose equality, order and fingerprints agree with each other;
actions are such elements, although their equality is coarser than that of their parts.
-/

namespace EdgeActions

namespace OrderedSet

variable {α : Type} [BEq α]

/-! ### The items of a set -/

def firsts (xs : List α) : List α :=
  (xs.zipIdx.filter fun place => !(xs.take place.2).contains place.1).map Prod.fst

/-- An element behind a list is kept unless the list has an equal one. -/
theorem firsts_append_singleton (xs : List α) (x : α) :
    firsts (xs ++ [x]) = if xs.contains x = true then firsts xs else firsts xs ++ [x] := by
  have hearlier : (xs.zipIdx.filter fun place =>
      !((xs ++ [x]).take place.2).contains place.1) =
        xs.zipIdx.filter fun place => !(xs.take place.2).contains place.1 := by
    refine List.filter_congr fun place hplace => ?_
    have hlength : place.2 < xs.length := by simpa using (List.mem_zipIdx hplace).2.1
    rw [List.take_append_of_le_length hlength.le]
  have hlast : ([x].zipIdx xs.length).filter (fun place =>
      !((xs ++ [x]).take place.2).contains place.1) =
        if xs.contains x = true then [] else [(x, xs.length)] := by
    cases hmem : xs.contains x <;> simp [hmem]
  rw [firsts, List.zipIdx_append, Nat.zero_add, List.filter_append, hearlier, hlast,
    List.map_append, ← firsts]
  split <;> simp

variable [EquivBEq α]

theorem items_ofList_eq_firsts (xs : List α) : (ofList xs).items = firsts xs := by
  induction xs using List.reverseRecOn with
  | nil => rfl
  | append_singleton xs x ih =>
    rw [ofList_append_singleton, firsts_append_singleton]
    cases hmem : xs.contains x with
    | true =>
      rw [if_pos rfl, ← ih, items_insert_of_contains]
      rwa [contains_ofList]
    | false =>
      rw [if_neg Bool.false_ne_true, ← ih, items_insert_of_not_contains]
      rwa [contains_ofList]

/-- A second list adds those of its items that the first one lacks. -/
theorem items_ofList_append (xs ys : List α) :
    (ofList (xs ++ ys)).items =
      (ofList xs).items ++ (ofList ys).items.filter fun y => !xs.contains y := by
  induction ys using List.reverseRecOn with
  | nil => simp
  | append_singleton ys y ih =>
    simp only [items_ofList_eq_firsts] at ih ⊢
    rw [← List.append_assoc, firsts_append_singleton, firsts_append_singleton, ih,
      List.contains_append]
    cases hfront : xs.contains y <;> cases hback : ys.contains y <;> simp [hfront]

/-! ### Sets as elements of their own -/

/-- What is to be expected of the sets of elements of a type. -/
structure Faithful (α : Type) [BEq α] [Ord α] [Fingerprinted α] : Prop where
  /-- Of equal elements a set holds the first, in the order of the list. -/
  items_eq : ∀ xs : List α, (ofList xs).items = firsts xs
  contains_iff : ∀ (xs : List α) (x : α),
    (ofList xs).contains x = true ↔ ∃ y ∈ xs, (x == y) = true
  /-- The items of a set make the same set again. -/
  ofList_items : ∀ xs : List α, ofList (ofList xs).items = ofList xs
  items_append : ∀ xs ys : List α, (ofList (xs ++ ys)).items =
    (ofList xs).items ++ (ofList ys).items.filter fun y => !xs.contains y
  /-- Sets are equal when their items are, one by one. -/
  beq_iff : ∀ s t : OrderedSet α,
    (s == t) = true ↔ List.Forall₂ (fun x y => (x == y) = true) s.items t.items
  compare_eq_iff : ∀ s t : OrderedSet α, compare s t = .eq ↔ (s == t) = true
  feed_eq : ∀ (digest : Digest) (s t : OrderedSet α), (s == t) = true →
    feed digest s = feed digest t
  /-- The order of sets is total, up to equality. -/
  compare_swap : ∀ s t : OrderedSet α, compare t s = (compare s t).swap
  isLE_total : ∀ s t : OrderedSet α, (compare s t).isLE = true ∨ (compare t s).isLE = true
  isLE_trans : ∀ s t u : OrderedSet α,
    (compare s t).isLE = true → (compare t u).isLE = true → (compare s u).isLE = true
  isLE_antisymm : ∀ s t : OrderedSet α,
    (compare s t).isLE = true → (compare t s).isLE = true → (s == t) = true

theorem faithful [Ord α] [Fingerprinted α] [Std.TransOrd α] [Std.LawfulBEqOrd α]
    [LawfulFingerprinted α] : Faithful α where
  items_eq := items_ofList_eq_firsts
  contains_iff xs x := by rw [contains_ofList, List.contains_iff_exists_mem_beq]
  ofList_items xs := ext (items_ofList (ofList xs).distinct)
  items_append := items_ofList_append
  beq_iff s t := by rw [beq_def, beq_iff_forall₂]
  compare_eq_iff _ _ := Std.LawfulBEqOrd.compare_eq_iff_beq
  feed_eq digest _ _ h := EdgeActions.feed_eq digest h
  compare_swap _ _ := Std.OrientedOrd.eq_swap
  isLE_total := isLE_or_isLE
  isLE_trans _ _ _ := Std.TransOrd.isLE_trans
  isLE_antisymm _ _ := beq_of_isLE_of_isLE

/--
For every type of elements whose order is total, joins exactly the equal ones and whose
fingerprints do not tell equal ones apart, ordered sets hold first occurrences, and their
equality, order and fingerprints agree.  So it is for actions, which are equal when they
are alike and name the same resources equally often, in whatever order.
-/
theorem sets_faithful :
    (∀ (α : Type) [BEq α] [Ord α] [Fingerprinted α] [Std.TransOrd α] [Std.LawfulBEqOrd α]
      [LawfulFingerprinted α], Faithful α) ∧
    Faithful Action ∧
    ∀ a b : Action,
      (a == b) = true ↔ a.Alike b ∧ a.reads.Perm b.reads ∧ a.writes.Perm b.writes := by
  refine ⟨fun α _ _ _ _ _ _ => ?_, faithful, fun a b => ?_⟩
  · have : EquivBEq α := Std.LawfulBEqOrd.equivBEq
    exact faithful
  · rw [Action.beq_iff, Action.sameFields_iff_alike]

/-- A call whose resources are listed in another order is no new element of a set of actions. -/
theorem sets_faithful_relisted :
    let first := Action.single (.call ⟨"f", [0], none, 0⟩ ["x", "y"] [])
    let second := Action.single (.call ⟨"f", [0], none, 0⟩ ["y", "x"] [])
    (ofList ["b", "a", "b", "c", "a"]).items = ["b", "a", "c"] ∧
      (first == second) = true ∧ (ofList [first, second]).items = [first] ∧
      compare (ofList [first]) (ofList [second]) = .eq := by
  intro first second
  obtain ⟨hgeneral, hactions, hequal⟩ := sets_faithful
  have hstrings := (hgeneral String).items_eq ["b", "a", "b", "c", "a"]
  have hsame : (first == second) = true :=
    (hequal first second).2 ⟨.call _ _ _ _ _, List.Perm.swap _ _ _, .nil⟩
  have hsingle : ∀ a : Action, (ofList [a]).items = [a] := fun a => hactions.items_eq [a]
  refine ⟨hstrings, hsame, ?_, ?_⟩
  · rw [← List.singleton_append, hactions.items_append, hsingle, hsingle]
    simp [BEq.symm hsame]
  · rw [hactions.compare_eq_iff, hactions.beq_iff, hsingle, hsingle]
    exact .cons hsame .nil

end OrderedSet

end EdgeActions
