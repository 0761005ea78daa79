import EdgeActions.Counter
import EdgeActions.Digest
import EdgeActions.Text

/-!
# Semantic calls

A call passes elements of the parser stack to a semantic method.  Its
arguments are positions relative to the top of the stack; one offset for all
of them accounts for the symbols shifted since the call was recorded.
-/

namespace EdgeActions

structure Call where
  method : String
  /-- The positions of the arguments before the offset is added. -/
  args : List Counter
  /-- The variable that holds the result, if the result is kept. -/
  target : Option String
  /-- What is added to each position. -/
  offset : Counter
  deriving DecidableEq, Repr

namespace Call

def argOffsets (c : Call) : Except Overflow (List Counter) :=
  c.args.mapM fun arg => arg.advance c.offset.toNat

def text (c : Call) : String :=
  "FunCall(" ++ c.method ++ ", " ++ toString c.offset.toNat ++ ", " ++
    Text.bracketed (c.args.map fun arg => toString arg.toNat) ++ ", " ++
    c.target.getD "None" ++ ")"

def shift (c : Call) (count : Nat) : Except Overflow Call :=
  (c.offset.advance count).map fun offset => { c with offset }

theorem shift_eq_ok_iff {c left : Call} {count : Nat} :
    c.shift count = .ok left ↔
      ∃ offset, c.offset.advance count = .ok offset ∧ left = { c with offset } := by
  unfold shift
  cases c.offset.advance count <;> simp [Except.map, eq_comm]

theorem shift_eq_error_iff {c : Call} {count : Nat} :
    c.shift count = .error {} ↔ UInt64.size ≤ c.offset.toNat + count := by
  rw [← Counter.advance_eq_error_iff, shift]
  cases c.offset.advance count <;> simp [Except.map]

/-- The positions are exact or there are none: no sum wraps. -/
theorem argOffsets_eq_ok_iff {c : Call} {offsets : List Counter} :
    c.argOffsets = .ok offsets ↔
      offsets.map UInt64.toNat = c.args.map fun arg => arg.toNat + c.offset.toNat :=
  Counter.mapM_advance_eq_ok_iff

theorem argOffsets_eq_error_iff {c : Call} :
    c.argOffsets = .error {} ↔ ∃ arg ∈ c.args, UInt64.size ≤ arg.toNat + c.offset.toNat :=
  Counter.mapM_advance_eq_error_iff

def order : Call → Call → Ordering :=
  compareLex (compareOn method)
    (compareLex (compareOn args) (compareLex (compareOn target) (compareOn offset)))

instance : Ord Call := ⟨order⟩

instance : Std.TransOrd Call :=
  inferInstanceAs (Std.TransCmp
    (compareLex (compareOn method)
      (compareLex (compareOn args) (compareLex (compareOn target) (compareOn offset)))))

instance : Std.LawfulEqOrd Call where
  eq_of_compare {c d} h := by
    obtain ⟨methods, h⟩ := compareLex_eq_eq.1 h
    obtain ⟨args, h⟩ := compareLex_eq_eq.1 h
    obtain ⟨targets, offsets⟩ := compareLex_eq_eq.1 h
    replace methods := Std.LawfulEqOrd.eq_of_compare methods
    replace args := Std.LawfulEqOrd.eq_of_compare args
    replace targets := Std.LawfulEqOrd.eq_of_compare targets
    replace offsets := Std.LawfulEqOrd.eq_of_compare offsets
    cases c
    cases d
    simp_all

instance : Fingerprinted Call where
  feed digest c :=
    .text c.method :: .number c.args.length :: c.args.map (fun arg => .number arg.toNat) ++
      feed digest c.target.toList ++ [.number c.offset.toNat]

end Call

end EdgeActions
