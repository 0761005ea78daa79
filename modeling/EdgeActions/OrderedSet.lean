import EdgeActions.Digest
import EdgeActions.Text

/-!
# Ordered sets

A finite set that remembers the order in which its elements were first added.
Elements are told apart by `==`, which may be coarser than equality.  The
order matters for equality, comparison and fingerprints, so two sets with the
same elements in another order differ.
-/

namespace EdgeActions

/-- Pairwise different elements in the order in which they were added. -/
structure OrderedSet (α : Type) [BEq α] where
  /-- The elements, the first added in front. -/
  items : List α
  distinct : items.Pairwise fun earlier later => (earlier == later) = false

namespace OrderedSet

variable {α : Type} [BEq α]

@[ext]
theorem ext {s t : OrderedSet α} (h : s.items = t.items) : s = t := by
  cases s
  cases t
  cases h
  rfl

def empty : OrderedSet α := ⟨[], .nil⟩

instance : Inhabited (OrderedSet α) := ⟨empty⟩

def contains (s : OrderedSet α) (x : α) : Bool :=
  s.items.any (· == x)

/-- Adds `x` behind the elements that are there, unless one of them equals it. -/
def insert (s : OrderedSet α) (x : α) : OrderedSet α :=
  if h : s.contains x = true then s else
    ⟨s.items ++ [x], by
      simp only [contains, List.any_eq_true, not_exists, not_and,
        Bool.not_eq_true] at h
      exact List.pairwise_append.2
        ⟨s.distinct, List.pairwise_singleton _ _,
          fun y member z last => by
            rw [List.mem_singleton.1 last]
            exact h y member⟩⟩

/-- The elements of a list, of equal ones the first. -/
def ofList (xs : List α) : OrderedSet α :=
  xs.foldl insert empty

def first? (s : OrderedSet α) : Option α :=
  s.items.head?

def size (s : OrderedSet α) : Nat :=
  s.items.length

def isEmpty (s : OrderedSet α) : Bool :=
  s.items.isEmpty

@[simp]
theorem items_empty : (empty : OrderedSet α).items = [] := rfl

theorem items_insert_of_contains {s : OrderedSet α} {x : α}
    (h : s.contains x = true) : (s.insert x).items = s.items := by
  simp [insert, h]

theorem items_insert_of_not_contains {s : OrderedSet α} {x : α}
    (h : s.contains x = false) : (s.insert x).items = s.items ++ [x] := by
  simp [insert, h]

theorem size_insert (s : OrderedSet α) (x : α) :
    (s.insert x).size = if s.contains x = true then s.size else s.size + 1 := by
  cases h : s.contains x with
  | true => rw [if_pos rfl, size, items_insert_of_contains h, size]
  | false => simp [size, items_insert_of_not_contains h]

theorem contains_insert [EquivBEq α] (s : OrderedSet α) (x y : α) :
    (s.insert x).contains y = (s.contains y || x == y) := by
  cases h : s.contains x with
  | true =>
    rw [contains, items_insert_of_contains h, ← contains]
    cases same : x == y with
    | false => rw [Bool.or_false]
    | true =>
      rw [Bool.or_true, contains, List.any_eq_true]
      obtain ⟨z, member, equal⟩ := List.any_eq_true.1 h
      exact ⟨z, member, BEq.trans equal same⟩
  | false => simp [contains, items_insert_of_not_contains h]

@[simp]
theorem ofList_nil : ofList ([] : List α) = empty := rfl

@[simp]
theorem ofList_append_singleton (xs : List α) (x : α) :
    ofList (xs ++ [x]) = (ofList xs).insert x := by
  simp [ofList]

/-! ### Equality, order, fingerprint and text follow the items -/

instance : BEq (OrderedSet α) := ⟨fun s t => s.items == t.items⟩

theorem beq_def (s t : OrderedSet α) : (s == t) = (s.items == t.items) := rfl

instance [LawfulBEq α] : LawfulBEq (OrderedSet α) where
  eq_of_beq {s t} h := ext (eq_of_beq (show (s.items == t.items) = true from h))
  rfl := by simp [beq_def]

instance [LawfulBEq α] : DecidableEq (OrderedSet α) := fun s t =>
  decidable_of_iff ((s == t) = true) beq_iff_eq

/-- The order of sets: the first difference decides, and a set that ends before it is less. -/
def order [Ord α] (s t : OrderedSet α) : Ordering :=
  compareOn items s t

instance [Ord α] : Ord (OrderedSet α) := ⟨order⟩

instance [Ord α] [Std.TransOrd α] : Std.TransOrd (OrderedSet α) :=
  inferInstanceAs (Std.TransCmp (compareOn (items (α := α))))

instance [Ord α] [Std.LawfulEqOrd α] : Std.LawfulEqOrd (OrderedSet α) where
  compare_self {s} := Std.ReflOrd.compare_self (a := s.items)
  eq_of_compare h := ext (Std.LawfulEqOrd.eq_of_compare h)

instance [Ord α] [Std.LawfulBEqOrd α] : Std.LawfulBEqOrd (OrderedSet α) where
  compare_eq_iff_beq {s t} := Std.LawfulBEqOrd.compare_eq_iff_beq (a := s.items) (b := t.items)

instance [Repr α] : Repr (OrderedSet α) where
  reprPrec s := reprPrec s.items

instance [Fingerprinted α] : Fingerprinted (OrderedSet α) where
  feed digest s := feed digest s.items

instance [Fingerprinted α] [LawfulFingerprinted α] : LawfulFingerprinted (OrderedSet α) where
  feed_eq digest s t h := by
    change feed digest s.items = feed digest t.items
    exact feed_eq digest h

def text (write : α → String) (s : OrderedSet α) : String :=
  Text.braced (s.items.map write)

end OrderedSet

end EdgeActions
