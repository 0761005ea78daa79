import EdgeActions.Step
import EdgeActions.Text

/-!
# Equality, order and fingerprints of steps

Two steps are equal when they do the same and touch the same resources, whatever
the order in which a call lists its resources.  Equality looks at fingerprints
first; `same_iff` says that this only saves work.  The order of steps looks at the
variant first, then at the resources and last at what the step does.
-/

namespace EdgeActions.Step

def rank : Step → Nat
  | reduce _ => 0
  | lookahead _ => 1
  | filterFlag _ _ => 2
  | pushFlag _ _ => 3
  | popFlag _ => 4
  | call _ _ _ => 5

/-- What the step does, with the resources that a call names left out. -/
def bare : Step → Step
  | call c _ _ => .call c [] []
  | step => step

/-- Steps that do the same are of one variant. -/
theorem rank_eq_of_bare_eq {a b : Step} (h : a.bare = b.bare) : a.rank = b.rank := by
  have ranks := congrArg rank h
  cases a <;> cases b <;> simp_all [rank, bare]

/-! ### Fingerprints -/

variable (digest : Digest)

def feedFields : Step → List Atom
  | reduce reduction => feed digest reduction
  | lookahead assertion => feed digest assertion
  | filterFlag flag value => [.text flag, .text value]
  | pushFlag flag value => [.text flag, .text value]
  | popFlag flag => [.text flag]
  | call c _ _ => feed digest c

/-- What is fed for the resources of a step or an action: sorted names, each list behind a mark. -/
def feedResources (reads writes : List Resource) : List Atom :=
  .text "rd" :: feed digest (Text.sorted reads) ++
    .text "wd" :: feed digest (Text.sorted writes)

def fingerprint (s : Step) : UInt64 :=
  digest <| .number s.rank :: s.feedFields digest ++ feedResources digest s.reads s.writes

instance : Fingerprinted Step where
  feed digest s := [.number (s.fingerprint digest).toNat]

theorem feedFields_bare (s : Step) : s.bare.feedFields digest = s.feedFields digest := by
  cases s <;> rfl

/-- The order in which resources are listed leaves no trace. -/
theorem feedResources_eq_of_perm {reads others writes rest : List Resource}
    (sameReads : reads.Perm others) (sameWrites : writes.Perm rest) :
    feedResources digest reads writes = feedResources digest others rest := by
  rw [feedResources, Text.sorted_eq_sorted_iff.2 sameReads,
    Text.sorted_eq_sorted_iff.2 sameWrites, feedResources]

theorem fingerprint_eq_of_bare_eq {a b : Step} (fields : a.bare = b.bare)
    (reads : a.reads.Perm b.reads) (writes : a.writes.Perm b.writes) :
    a.fingerprint digest = b.fingerprint digest := by
  rw [fingerprint, rank_eq_of_bare_eq fields, ← feedFields_bare, fields, feedFields_bare,
    feedResources_eq_of_perm digest reads writes, fingerprint]

/-! ### Equality -/

def sameFields (a b : Step) : Bool :=
  decide (a.bare = b.bare)

/--
Whether two steps do the same and touch the same resources equally often.  Steps
with different fingerprints are not looked at any further.
-/
def same (a b : Step) : Bool :=
  a.fingerprint digest == b.fingerprint digest &&
    a.sameFields b &&
    decide (Text.sorted a.reads = Text.sorted b.reads) &&
    decide (Text.sorted a.writes = Text.sorted b.writes)

instance : BEq Step := ⟨same Digest.standard⟩

/-- The test of fingerprints never tells equal steps apart, whatever the digest is. -/
theorem same_iff {a b : Step} :
    same digest a b = true ↔
      a.bare = b.bare ∧ a.reads.Perm b.reads ∧ a.writes.Perm b.writes := by
  simp only [same, sameFields, Text.sorted_eq_sorted_iff, Bool.and_eq_true, beq_iff_eq,
    decide_eq_true_iff, and_assoc]
  apply and_iff_right_of_imp
  rintro ⟨fields, reads, writes⟩
  exact fingerprint_eq_of_bare_eq digest fields reads writes

theorem beq_iff {a b : Step} :
    (a == b) = true ↔
      a.bare = b.bare ∧ a.reads.Perm b.reads ∧ a.writes.Perm b.writes :=
  same_iff Digest.standard

theorem same_eq_beq (a b : Step) : same digest a b = (a == b) :=
  Bool.eq_iff_iff.2 ((same_iff digest).trans beq_iff.symm)

theorem fingerprint_eq_of_beq {a b : Step} (h : (a == b) = true) :
    a.fingerprint digest = b.fingerprint digest := by
  obtain ⟨fields, reads, writes⟩ := beq_iff.1 h
  exact fingerprint_eq_of_bare_eq digest fields reads writes

instance : LawfulFingerprinted Step where
  feed_eq digest _ _ h := congrArg (fun word => [Atom.number word.toNat])
    (fingerprint_eq_of_beq digest h)

/-! ### Order -/

def reduction? : Step → Option Reduction
  | reduce reduction => some reduction
  | _ => none

def assertion? : Step → Option Lookahead
  | lookahead assertion => some assertion
  | _ => none

def flag? : Step → Option String
  | filterFlag flag _ => some flag
  | pushFlag flag _ => some flag
  | popFlag flag => some flag
  | _ => none

def value? : Step → Option String
  | filterFlag _ value => some value
  | pushFlag _ value => some value
  | _ => none

def call? : Step → Option Call
  | call c _ _ => some c
  | _ => none

def compareFields : Step → Step → Ordering :=
  compareLex (compareOn rank) <|
    compareLex (compareOn reduction?) <|
    compareLex (compareOn assertion?) <|
    compareLex (compareOn flag?) <|
    compareLex (compareOn value?) (compareOn call?)

/-- The order of steps: by variant, then by resources, then by fields. -/
def order : Step → Step → Ordering :=
  compareLex (compareOn rank) <|
    compareLex (compareOn fun s => Text.sorted s.reads) <|
    compareLex (compareOn fun s => Text.sorted s.writes) compareFields

instance : Ord Step := ⟨order⟩

instance : Std.TransCmp compareFields :=
  inferInstanceAs (Std.TransCmp <|
    compareLex (compareOn rank) <|
      compareLex (compareOn reduction?) <|
      compareLex (compareOn assertion?) <|
      compareLex (compareOn flag?) <|
      compareLex (compareOn value?) (compareOn call?))

instance : Std.TransOrd Step :=
  inferInstanceAs (Std.TransCmp <|
    compareLex (compareOn rank) <|
      compareLex (compareOn fun s : Step => Text.sorted s.reads) <|
      compareLex (compareOn fun s : Step => Text.sorted s.writes) compareFields)

theorem compareFields_eq_eq_iff {a b : Step} :
    compareFields a b = .eq ↔ a.bare = b.bare := by
  simp only [compareFields, compareLex_eq_eq, compareOn, Std.LawfulEqOrd.compare_eq_iff_eq]
  cases a <;> cases b <;>
    simp [rank, reduction?, assertion?, flag?, value?, call?, bare]

/-- The order never separates equal steps and never joins others. -/
instance : Std.LawfulBEqOrd Step where
  compare_eq_iff_beq {a b} := by
    change order a b = .eq ↔ _
    rw [beq_iff]
    simp only [order, compareLex_eq_eq, compareOn, Std.LawfulEqOrd.compare_eq_iff_eq,
      compareFields_eq_eq_iff, Text.sorted_eq_sorted_iff]
    constructor
    · rintro ⟨_, reads, writes, fields⟩
      exact ⟨fields, reads, writes⟩
    · rintro ⟨fields, reads, writes⟩
      exact ⟨rank_eq_of_bare_eq fields, reads, writes, fields⟩

end EdgeActions.Step
