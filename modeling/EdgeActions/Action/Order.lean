import EdgeActions.Action.Basic
import EdgeActions.Step.Order

/-!
# Equality, order and fingerprints of actions

Equality is that of the steps: resources count as multisets.  A sequence is never
equal to a step of its own, even if it holds that step alone.
-/

namespace EdgeActions.Action

/-- The place of the variant: sequences come behind all steps. -/
def rank : Action → Nat
  | single step => step.rank
  | seq _ _ _ => 6

/-! ### Fingerprints -/

section

variable (digest : Digest)

def fingerprint : Action → UInt64
  | single step => step.fingerprint digest
  | seq steps reads writes =>
    digest <| .number 6 :: feed digest steps ++ Step.feedResources digest reads writes

instance : Fingerprinted Action where
  feed digest a := [.number (a.fingerprint digest).toNat]

instance : Hashable Action := ⟨EdgeActions.fingerprint Digest.standard⟩

/-! ### Equality -/

/-- Whether two actions do the same, their own resources aside. -/
def sameFieldsUnder : Action → Action → Bool
  | single a, single b => a.sameFields b
  | seq as _ _, seq bs _ _ => as.isEqv bs (Step.same digest)
  | _, _ => false

/--
Whether two actions do the same and touch the same resources equally often.  Actions
with different fingerprints are not looked at any further.
-/
def same (a b : Action) : Bool :=
  a.fingerprint digest == b.fingerprint digest &&
    sameFieldsUnder digest a b &&
    decide (Text.sorted a.reads = Text.sorted b.reads) &&
    decide (Text.sorted a.writes = Text.sorted b.writes)

end

def sameFields (a b : Action) : Bool :=
  sameFieldsUnder Digest.standard a b

instance : BEq Action := ⟨same Digest.standard⟩

variable {reads writes others rest : List Resource}

@[simp]
theorem sameFields_single (a b : Step) :
    (single a).sameFields (single b) = a.sameFields b := rfl

/-- The digest by which the steps are compared makes no difference. -/
theorem sameFieldsUnder_eq (digest : Digest) (a b : Action) :
    sameFieldsUnder digest a b = a.sameFields b := by
  have steps : Step.same digest = Step.same Digest.standard := by
    funext a b
    exact Step.same_eq_beq digest a b
  rw [sameFields]
  cases a <;> cases b <;> simp only [sameFieldsUnder, steps]

@[simp]
theorem sameFields_seq (as bs : List Step) :
    (seq as reads writes).sameFields (seq bs others rest) = (as == bs) :=
  List.beq_eq_isEqv.symm

@[simp]
theorem sameFields_single_seq (a : Step) (bs : List Step) :
    (single a).sameFields (seq bs reads writes) = false := rfl

@[simp]
theorem sameFields_seq_single (as : List Step) (b : Step) :
    (seq as reads writes).sameFields (single b) = false := rfl

theorem fingerprint_eq_of_sameFields (digest : Digest) {a b : Action}
    (fields : a.sameFields b = true) (reads : a.reads.Perm b.reads)
    (writes : a.writes.Perm b.writes) : a.fingerprint digest = b.fingerprint digest := by
  cases a with
  | single a =>
    cases b with
    | single b => exact Step.fingerprint_eq_of_bare_eq digest (of_decide_eq_true fields) reads writes
    | seq bs _ _ => cases fields
  | seq as _ _ =>
    cases b with
    | single b => cases fields
    | seq bs _ _ =>
      rw [sameFields_seq] at fields
      simp only [Action.reads, Action.writes] at reads writes
      rw [fingerprint, feed_eq digest fields,
        Step.feedResources_eq_of_perm digest reads writes, fingerprint]

/-- The test of fingerprints never tells equal actions apart, whatever the digest is. -/
theorem same_iff (digest : Digest) {a b : Action} :
    same digest a b = true ↔
      a.sameFields b = true ∧ a.reads.Perm b.reads ∧ a.writes.Perm b.writes := by
  simp only [same, sameFieldsUnder_eq, Text.sorted_eq_sorted_iff, Bool.and_eq_true, beq_iff_eq,
    decide_eq_true_iff, and_assoc]
  apply and_iff_right_of_imp
  rintro ⟨fields, reads, writes⟩
  exact fingerprint_eq_of_sameFields digest fields reads writes

theorem beq_iff {a b : Action} :
    (a == b) = true ↔
      a.sameFields b = true ∧ a.reads.Perm b.reads ∧ a.writes.Perm b.writes :=
  same_iff Digest.standard

theorem same_eq_beq (digest : Digest) (a b : Action) : same digest a b = (a == b) :=
  Bool.eq_iff_iff.2 ((same_iff digest).trans beq_iff.symm)

theorem fingerprint_eq_of_beq (digest : Digest) {a b : Action} (h : (a == b) = true) :
    a.fingerprint digest = b.fingerprint digest := by
  obtain ⟨fields, reads, writes⟩ := beq_iff.1 h
  exact fingerprint_eq_of_sameFields digest fields reads writes

instance : LawfulFingerprinted Action where
  feed_eq digest _ _ h := congrArg (fun word => [Atom.number word.toNat])
    (fingerprint_eq_of_beq digest h)

theorem single_beq_single (a b : Step) : (single a == single b) = (a == b) := rfl

theorem single_beq_seq (a : Step) (bs : List Step) :
    (single a == seq bs reads writes) = false := by
  simp [Bool.eq_false_iff, beq_iff]

theorem seq_beq_single (as : List Step) (b : Step) :
    (seq as reads writes == single b) = false := by
  simp [Bool.eq_false_iff, beq_iff]

/-! ### Order -/

def compareFields : Action → Action → Ordering
  | single a, single b => a.compareFields b
  | seq as _ _, seq bs _ _ => compare as bs
  | a, b => compare a.rank b.rank

/-- The order of actions: by variant, then by resources, then by fields. -/
def order : Action → Action → Ordering :=
  compareLex (compareOn rank) <|
    compareLex (compareOn fun a => Text.sorted a.reads) <|
    compareLex (compareOn fun a => Text.sorted a.writes) compareFields

instance : Ord Action := ⟨order⟩

theorem rank_single_lt_rank_seq (step : Step) (steps : List Step) :
    (single step).rank < (seq steps reads writes).rank := by
  cases step <;> simp [rank, Step.rank]

theorem compareFields_single_seq (step : Step) (steps : List Step) :
    compareFields (single step) (seq steps reads writes) = .lt :=
  Nat.compare_eq_lt.2 (rank_single_lt_rank_seq step steps)

theorem compareFields_seq_single (steps : List Step) (step : Step) :
    compareFields (seq steps reads writes) (single step) = .gt :=
  Nat.compare_eq_gt.2 (rank_single_lt_rank_seq step steps)

instance : Std.TransCmp compareFields where
  eq_swap {a b} := by
    cases a with
    | single a =>
      cases b with
      | single b =>
        change a.compareFields b = (b.compareFields a).swap
        exact Std.OrientedCmp.eq_swap
      | seq bs _ _ => rw [compareFields_single_seq, compareFields_seq_single]; rfl
    | seq as _ _ =>
      cases b with
      | single b => rw [compareFields_single_seq, compareFields_seq_single]; rfl
      | seq bs _ _ => exact Std.OrientedOrd.eq_swap
  isLE_trans {a b c} first second := by
    cases a with
    | single a =>
      cases c with
      | seq cs _ _ => rw [compareFields_single_seq]; rfl
      | single c =>
        cases b with
        | single b => exact @Std.TransCmp.isLE_trans _ Step.compareFields _ a b c first second
        | seq bs _ _ => rw [compareFields_seq_single] at second; cases second
    | seq as _ _ =>
      cases b with
      | single b => rw [compareFields_seq_single] at first; cases first
      | seq bs _ _ =>
        cases c with
        | single c => rw [compareFields_seq_single] at second; cases second
        | seq cs _ _ => exact Std.TransOrd.isLE_trans first second

instance : Std.TransOrd Action :=
  inferInstanceAs (Std.TransCmp <|
    compareLex (compareOn rank) <|
      compareLex (compareOn fun a : Action => Text.sorted a.reads) <|
      compareLex (compareOn fun a : Action => Text.sorted a.writes) compareFields)

theorem compareFields_eq_eq_iff {a b : Action} :
    compareFields a b = .eq ↔ a.sameFields b = true := by
  cases a with
  | single a =>
    cases b with
    | single b =>
      rw [compareFields, Step.compareFields_eq_eq_iff, sameFields_single, Step.sameFields,
        decide_eq_true_iff]
    | seq bs _ _ => simp [compareFields_single_seq]
  | seq as _ _ =>
    cases b with
    | single b => simp [compareFields_seq_single]
    | seq bs _ _ =>
      rw [sameFields_seq]
      exact Std.LawfulBEqOrd.compare_eq_iff_beq

/-- Actions that do the same are of one variant. -/
theorem rank_eq_of_sameFields {a b : Action} (h : a.sameFields b = true) :
    a.rank = b.rank := by
  cases a with
  | single a =>
    cases b with
    | single b => exact Step.rank_eq_of_bare_eq (of_decide_eq_true h)
    | seq bs _ _ => cases h
  | seq as _ _ =>
    cases b with
    | single b => cases h
    | seq bs _ _ => rfl

/-- The order never separates equal actions and never joins others. -/
instance : Std.LawfulBEqOrd Action where
  compare_eq_iff_beq {a b} := by
    change order a b = .eq ↔ _
    rw [beq_iff]
    simp only [order, compareLex_eq_eq, compareOn, Std.LawfulEqOrd.compare_eq_iff_eq,
      compareFields_eq_eq_iff, Text.sorted_eq_sorted_iff]
    constructor
    · rintro ⟨_, reads, writes, fields⟩
      exact ⟨fields, reads, writes⟩
    · rintro ⟨fields, reads, writes⟩
      exact ⟨rank_eq_of_sameFields fields, reads, writes, fields⟩

end EdgeActions.Action
