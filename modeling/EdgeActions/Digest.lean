/-!
# Fingerprints

A fingerprint condenses a value to one word, so that different values are
mostly told apart without comparing them.  What is fed to the digest is fixed
here and for each type; the digest itself is a parameter, because no property
of fingerprints depends on the way in which it mixes its input.
-/

namespace EdgeActions

inductive Atom where
  | number (n : Nat)
  | text (s : String)
  deriving DecidableEq, Repr

abbrev Digest := List Atom → UInt64

namespace Digest

/-- A number behind a mark, or a text behind its length: no two lists of atoms are spelt alike. -/
def spell : Atom → String
  | .number n => "#" ++ toString n ++ ";"
  | .text s => toString s.length ++ ":" ++ s

/-- The digest that hash tables of actions use. -/
def standard : Digest := fun atoms =>
  hash (String.join (atoms.map spell))

end Digest

class Fingerprinted (α : Type) where
  /-- What is fed for a value, alone or as a part of another; a value with a fingerprint
  of its own feeds that. -/
  feed : Digest → α → List Atom

export Fingerprinted (feed)

def fingerprint {α : Type} [Fingerprinted α] (digest : Digest) (x : α) : UInt64 :=
  digest (feed digest x)

instance : Fingerprinted Int where
  feed _ n := [.number (if n < 0 then 1 else 0), .number n.natAbs]

instance : Fingerprinted String where
  feed _ s := [.text s]

instance {α : Type} [Fingerprinted α] : Fingerprinted (List α) where
  feed digest xs := .number xs.length :: xs.flatMap (feed digest)

/-! ### Fingerprints that respect equality -/

/-- Types whose equal values are fed alike, whatever the digest is. -/
class LawfulFingerprinted (α : Type) [BEq α] [Fingerprinted α] : Prop where
  feed_eq (digest : Digest) {x y : α} (h : (x == y) = true) : feed digest x = feed digest y

export LawfulFingerprinted (feed_eq)

instance {α : Type} [BEq α] [LawfulBEq α] [Fingerprinted α] : LawfulFingerprinted α where
  feed_eq digest _ _ h := congrArg (feed digest) (eq_of_beq h)

variable {α : Type} [BEq α] [Fingerprinted α] [LawfulFingerprinted α]

theorem flatMap_feed_eq (digest : Digest) {xs ys : List α} (h : (xs == ys) = true) :
    xs.flatMap (feed digest) = ys.flatMap (feed digest) := by
  induction xs generalizing ys with
  | nil =>
    cases ys with
    | nil => rfl
    | cons y ys => cases h
  | cons x xs ih =>
    cases ys with
    | nil => cases h
    | cons y ys =>
      rw [List.cons_beq_cons, Bool.and_eq_true] at h
      rw [List.flatMap_cons, List.flatMap_cons, feed_eq digest h.1, ih h.2]

instance : LawfulFingerprinted (List α) where
  feed_eq digest xs ys h := by
    have hparts := flatMap_feed_eq digest h
    change Atom.number xs.length :: xs.flatMap (feed digest) = _
    rw [List.length_eq_of_beq h, hparts]
    rfl

end EdgeActions
