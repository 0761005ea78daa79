import EdgeActions.Digest
import EdgeActions.Text

/-!
# Grammar symbols

The alphabet of a context-free grammar.  Beside the non-terminals that the
grammar names there is an initial one for each goal; it has a name of the same
form, but is never equal to a named one.
-/

namespace EdgeActions

inductive NonTerminal where
  | named (name : String)
  /-- The non-terminal which reduces to a goal and nothing else. -/
  | initial (goal : String)
  deriving DecidableEq, Repr

inductive Symbol where
  | terminal (name : String)
  | nonTerminal (nt : NonTerminal)
  deriving DecidableEq, Repr

namespace NonTerminal

def isInitial : NonTerminal → Bool
  | named _ => false
  | initial _ => true

def name : NonTerminal → String
  | named name => name
  | initial goal => "Start_" ++ goal

/-- What the non-terminal was made from: its own name or its goal. -/
def label : NonTerminal → String
  | named name => name
  | initial goal => goal

/-- The diagnostic text, which tells a named non-terminal from an initial one. -/
def detail : NonTerminal → String
  | named name => "Named(" ++ Text.Literal.quote name ++ ")"
  | initial goal =>
    "Init \x7b goal: " ++ Text.Literal.quote goal ++ " \x7d"

end NonTerminal

namespace Symbol

def isTerminal : Symbol → Bool
  | terminal _ => true
  | nonTerminal _ => false

/-- The text of a symbol: a terminal in quotes, a non-terminal by its name. -/
def text : Symbol → String
  | terminal name => Text.Quoted.quote name
  | nonTerminal nt => nt.name

/-- The diagnostic text, which tells all symbols apart. -/
def detail : Symbol → String
  | terminal name => "Terminal(" ++ Text.Literal.quote name ++ ")"
  | nonTerminal nt => "NonTerminal(" ++ nt.detail ++ ")"

def listDetail (symbols : List Symbol) : String :=
  Text.bracketed (symbols.map detail)

end Symbol

/-! ### Order

Named non-terminals come before initial ones and terminals before both; within
each kind the names decide.
-/

namespace NonTerminal

/-- The order of non-terminals: the grammar's own first, then by name or goal. -/
def order : NonTerminal → NonTerminal → Ordering :=
  compareLex (compareOn isInitial) (compareOn label)

instance : Ord NonTerminal := ⟨order⟩

instance : Std.TransOrd NonTerminal :=
  inferInstanceAs (Std.TransCmp (compareLex (compareOn isInitial) (compareOn label)))

instance : Std.LawfulEqOrd NonTerminal where
  eq_of_compare {a b} h := by
    obtain ⟨kinds, labels⟩ := compareLex_eq_eq.1 h
    replace kinds := Std.LawfulEqOrd.eq_of_compare kinds
    replace labels := Std.LawfulEqOrd.eq_of_compare labels
    cases a <;> cases b <;> simp_all [isInitial, label]

end NonTerminal

namespace Symbol

def terminal? : Symbol → Option String
  | terminal name => some name
  | nonTerminal _ => none

def nonTerminal? : Symbol → Option NonTerminal
  | terminal _ => none
  | nonTerminal nt => some nt

/-- The order of symbols: a terminal has no non-terminal and so comes first. -/
def order : Symbol → Symbol → Ordering :=
  compareLex (compareOn nonTerminal?) (compareOn terminal?)

instance : Ord Symbol := ⟨order⟩

instance : Std.TransOrd Symbol :=
  inferInstanceAs (Std.TransCmp (compareLex (compareOn nonTerminal?) (compareOn terminal?)))

instance : Std.LawfulEqOrd Symbol where
  eq_of_compare {a b} h := by
    obtain ⟨nonTerminals, terminals⟩ := compareLex_eq_eq.1 h
    replace nonTerminals := Std.LawfulEqOrd.eq_of_compare nonTerminals
    replace terminals := Std.LawfulEqOrd.eq_of_compare terminals
    cases a <;> cases b <;> simp_all [nonTerminal?, terminal?]

end Symbol

/-! ### Fingerprints -/

instance : Fingerprinted NonTerminal where
  feed _
    | .named name => [.number 0, .text name]
    | .initial goal => [.number 1, .text goal]

instance : Fingerprinted Symbol where
  feed digest
    | .terminal name => [.number 0, .text name]
    | .nonTerminal nt => .number 1 :: feed digest nt

end EdgeActions
