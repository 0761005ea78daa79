/-!
# Counters

Stack positions and symbol counts are words of 64 bits.  Adding to one is exact
or an overflow, and never wraps: `advance_eq_ok_iff` says that a sum is
returned exactly when it is the sum of the natural numbers.
-/

namespace EdgeActions

/-- A count of symbols or a position on the parser stack. -/
abbrev Counter := UInt64

/-- The failure of an addition whose sum is no counter. -/
structure Overflow where
  deriving DecidableEq, Repr

def Overflow.message (_ : Overflow) : String :=
  "attempt to add with overflow"

namespace Counter

/-- The counter `n` further on, unless there is none. -/
def advance (c : Counter) (n : Nat) : Except Overflow Counter :=
  if c.toNat + n < UInt64.size then .ok (UInt64.ofNat (c.toNat + n)) else .error {}

theorem advance_eq_ok_iff {c d : Counter} {n : Nat} :
    advance c n = .ok d ↔ d.toNat = c.toNat + n := by
  have bound : d.toNat < UInt64.size := UInt64.toNat_lt_size d
  unfold advance
  split
  case isTrue fits =>
    rw [Except.ok.injEq, ← UInt64.toNat_inj, UInt64.toNat_ofNat_of_lt' fits]
    exact eq_comm
  case isFalse exceeds =>
    constructor
    · intro h
      cases h
    · omega

theorem advance_eq_error_iff {c : Counter} {n : Nat} :
    advance c n = .error {} ↔ UInt64.size ≤ c.toNat + n := by
  unfold advance
  split <;> simp <;> omega

/-- Advancing by nothing changes nothing. -/
@[simp]
theorem advance_zero (c : Counter) : advance c 0 = .ok c :=
  advance_eq_ok_iff.2 rfl

/-- Advancing twice overflows or arrives exactly as advancing by the sum. -/
theorem advance_add (c : Counter) (m n : Nat) :
    advance c (m + n) = (advance c m).bind fun d => advance d n := by
  cases hfirst : advance c m with
  | error overflow =>
    have hexceeds := advance_eq_error_iff.1 hfirst
    exact advance_eq_error_iff.2 (by omega)
  | ok d =>
    have hd := advance_eq_ok_iff.1 hfirst
    change advance c (m + n) = advance d n
    cases hsecond : advance d n with
    | error overflow =>
      have hexceeds := advance_eq_error_iff.1 hsecond
      exact advance_eq_error_iff.2 (by omega)
    | ok e =>
      have he := advance_eq_ok_iff.1 hsecond
      exact advance_eq_ok_iff.2 (by omega)

/-- Several counters are advanced together if each of them can be. -/
theorem mapM_advance_eq_ok_iff {cs ds : List Counter} {n : Nat} :
    cs.mapM (fun c => advance c n) = .ok ds ↔
      ds.map UInt64.toNat = cs.map fun c => c.toNat + n := by
  induction cs generalizing ds with
  | nil => cases ds <;> simp [pure, Except.pure]
  | cons c cs ih =>
    rw [List.mapM_cons, List.map_cons]
    cases ds with
    | nil =>
      cases advance c n <;> cases cs.mapM (fun c => advance c n) <;>
        simp [bind, Except.bind, pure, Except.pure]
    | cons d ds =>
      rw [List.map_cons, List.cons.injEq, ← advance_eq_ok_iff, ← ih]
      cases advance c n <;> cases cs.mapM (fun c => advance c n) <;>
        simp [bind, Except.bind, pure, Except.pure]

theorem mapM_advance_eq_error_iff {cs : List Counter} {n : Nat} :
    cs.mapM (fun c => advance c n) = .error {} ↔ ∃ c ∈ cs, UInt64.size ≤ c.toNat + n := by
  induction cs with
  | nil => simp [pure, Except.pure]
  | cons c cs ih =>
    simp only [List.mapM_cons, List.mem_cons, exists_eq_or_imp, ← advance_eq_error_iff]
    simp only [← advance_eq_error_iff] at ih
    rw [← ih]
    cases advance c n <;> cases cs.mapM (fun c => advance c n) <;>
      simp [bind, Except.bind, pure, Except.pure]

end Counter

end EdgeActions
