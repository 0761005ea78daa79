import EdgeActions.OrderedSet
import EdgeActions.Symbol

/-!
# Lookahead assertions

An assertion about the symbols to come: that they start with one of some
candidate sequences or, with the other polarity, that they start with none of
them.  `matchedBy_iff` says what the test decides.

Symbols that are shifted after an assertion was recorded are the first of those
that it speaks about.  A candidate that they complete decides it; so does the
lack of any candidate that starts with them.  Otherwise the assertion goes on
with what is left of the candidates.
-/

namespace EdgeActions

structure Lookahead where
  candidates : OrderedSet (List Symbol)
  /-- Whether finding a candidate accepts the input; otherwise it rejects it. -/
  accept : Bool
  deriving DecidableEq, Repr

namespace Lookahead

/-- Whether the symbols to come start with some candidate. -/
def Matches (l : Lookahead) (upcoming : List Symbol) : Prop :=
  ∃ candidate ∈ l.candidates.items, candidate <+: upcoming

def matchedBy (l : Lookahead) (upcoming : List Symbol) : Bool :=
  l.candidates.items.any (·.isPrefixOf upcoming)

theorem matchedBy_iff {l : Lookahead} {upcoming : List Symbol} :
    l.matchedBy upcoming = true ↔ l.Matches upcoming := by
  simp [matchedBy, Matches, List.any_eq_true]

instance (l : Lookahead) (upcoming : List Symbol) :
    Decidable (l.Matches upcoming) :=
  decidable_of_iff _ matchedBy_iff

/-- Once the symbols read match, they still do when more are read. -/
theorem Matches.append {l : Lookahead} {read : List Symbol}
    (h : l.Matches read) (more : List Symbol) : l.Matches (read ++ more) := by
  obtain ⟨candidate, member, start⟩ := h
  exact ⟨candidate, member, start.trans (List.prefix_append read more)⟩

def text (l : Lookahead) : String :=
  "Lookahead(" ++
    Text.bracketed (l.candidates.items.map fun candidate =>
      Text.bracketed (candidate.map Symbol.text)) ++
    ", " ++ (if l.accept then "true" else "false") ++ ")"

def order : Lookahead → Lookahead → Ordering :=
  compareLex (compareOn candidates) (compareOn accept)

instance : Ord Lookahead := ⟨order⟩

instance : Std.TransOrd Lookahead :=
  inferInstanceAs (Std.TransCmp (compareLex (compareOn candidates) (compareOn accept)))

instance : Std.LawfulEqOrd Lookahead where
  eq_of_compare {l m} h := by
    obtain ⟨sets, polarities⟩ := compareLex_eq_eq.1 h
    replace sets := Std.LawfulEqOrd.eq_of_compare sets
    replace polarities := Std.LawfulEqOrd.eq_of_compare polarities
    cases l
    cases m
    cases sets
    cases polarities
    rfl

instance : Fingerprinted Lookahead where
  feed digest l := feed digest l.candidates ++ [.number (if l.accept then 1 else 0)]

end Lookahead

/-! ### Shifted symbols -/

/-- What a shift makes of something that was still to be executed. -/
inductive Shifted (α : Type) where
  | resolved (verdict : Bool)
  | continues (rest : α)
  deriving DecidableEq, Repr

namespace Shifted

variable {α β : Type}

def rest? : Shifted α → Option α
  | resolved _ => none
  | continues rest => some rest

def map (f : α → β) : Shifted α → Shifted β
  | resolved verdict => .resolved verdict
  | continues rest => .continues (f rest)

theorem map_eq_continues_iff {f : α → β} {outcome : Shifted α} {rest : β} :
    outcome.map f = .continues rest ↔ ∃ left, outcome = .continues left ∧ f left = rest := by
  cases outcome with
  | resolved verdict => exact iff_of_false nofun fun ⟨left, hleft, _⟩ => nomatch hleft
  | continues left => simp only [map, continues.injEq, exists_eq_left']

end Shifted

namespace Lookahead

def remainder? (shifted candidate : List Symbol) : Option (List Symbol) :=
  if shifted.isPrefixOf candidate then some (candidate.drop shifted.length) else none

theorem remainder?_eq_some_iff {shifted candidate rest : List Symbol} :
    remainder? shifted candidate = some rest ↔ candidate = shifted ++ rest := by
  unfold remainder?
  constructor
  · intro h
    split at h
    case isTrue start =>
      have whole := List.prefix_iff_eq_append.1 (List.isPrefixOf_iff_prefix.1 start)
      rw [← Option.some.inj h]
      exact whole.symm
    case isFalse => cases h
  · rintro rfl
    simp

def shift (l : Lookahead) (shifted : List Symbol) : Shifted Lookahead :=
  if l.matchedBy shifted then
    .resolved l.accept
  else
    match l.candidates.items.filterMap (remainder? shifted) with
    | [] => .resolved (!l.accept)
    | rests => .continues ⟨.ofList rests, l.accept⟩

theorem shift_of_matches {l : Lookahead} {shifted : List Symbol}
    (h : l.Matches shifted) : l.shift shifted = .resolved l.accept := by
  rw [shift, if_pos (matchedBy_iff.2 h)]

end Lookahead

end EdgeActions
