import EdgeActions.Counter
import EdgeActions.Digest
import EdgeActions.Symbol

/-!
# Reductions

A reduction takes elements off the parser stack and puts a non-terminal in
their place.  Symbols that were shifted before it in order to test a condition
have to be shifted again behind the non-terminal; it counts them.

What an action reads and writes is recorded as lists of resource names.  A flag
and a non-terminal have one resource each, so that a reduction writes that of
its non-terminal; a semantic method names its own.
-/

namespace EdgeActions

/-- The name of a piece of state on which the order of actions can depend. -/
abbrev Resource := String

namespace Resource

def ofFlag (flag : String) : Resource :=
  "flag_" ++ flag

def ofNonTerminal (name : String) : Resource :=
  "nt_" ++ name

end Resource

structure Reduction where
  nonTerminal : NonTerminal
  pop : Counter
  /-- The number of inspected symbols that have to be shifted again. -/
  replay : Counter
  deriving DecidableEq, Repr

namespace Reduction

def resource (r : Reduction) : Resource :=
  Resource.ofNonTerminal r.nonTerminal.name

def text (r : Reduction) : String :=
  "Reduce(" ++ r.nonTerminal.name ++ ", " ++ toString r.pop.toNat ++ ", " ++
    toString r.replay.toNat ++ ")"

def shift (r : Reduction) (count : Nat) : Except Overflow Reduction :=
  (r.replay.advance count).map fun replay => { r with replay }

theorem shift_eq_ok_iff {r left : Reduction} {count : Nat} :
    r.shift count = .ok left ↔
      ∃ replay, r.replay.advance count = .ok replay ∧ left = { r with replay } := by
  unfold shift
  cases r.replay.advance count <;> simp [Except.map, eq_comm]

theorem shift_eq_error_iff {r : Reduction} {count : Nat} :
    r.shift count = .error {} ↔ UInt64.size ≤ r.replay.toNat + count := by
  rw [← Counter.advance_eq_error_iff, shift]
  cases r.replay.advance count <;> simp [Except.map]

def order : Reduction → Reduction → Ordering :=
  compareLex (compareOn nonTerminal) (compareLex (compareOn pop) (compareOn replay))

instance : Ord Reduction := ⟨order⟩

instance : Std.TransOrd Reduction :=
  inferInstanceAs (Std.TransCmp
    (compareLex (compareOn nonTerminal) (compareLex (compareOn pop) (compareOn replay))))

instance : Std.LawfulEqOrd Reduction where
  eq_of_compare {r s} h := by
    obtain ⟨nonTerminals, counters⟩ := compareLex_eq_eq.1 h
    obtain ⟨pops, replays⟩ := compareLex_eq_eq.1 counters
    replace nonTerminals := Std.LawfulEqOrd.eq_of_compare nonTerminals
    replace pops := Std.LawfulEqOrd.eq_of_compare pops
    replace replays := Std.LawfulEqOrd.eq_of_compare replays
    cases r
    cases s
    simp_all

instance : Fingerprinted Reduction where
  feed digest r :=
    feed digest r.nonTerminal ++ [.number r.pop.toNat, .number r.replay.toNat]

end Reduction

end EdgeActions
