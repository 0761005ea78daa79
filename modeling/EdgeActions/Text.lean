/-!
# Texts

How lists, names and characters are written.  Lists have a comma and a blank
between their members: sequences stand in square brackets, sets in curly ones.
A name is written in one of two forms, quoted in the texts of actions and as a
literal in diagnostic texts.  Sorting compares lists of names as multisets:
`sorted_eq_sorted_iff`.
-/

namespace EdgeActions.Text

/-! ### Enclosed lists -/

def listed (members : List String) : String :=
  ", ".intercalate members

def bracketed (members : List String) : String :=
  "[" ++ listed members ++ "]"

def braced (members : List String) : String :=
  "\x7b" ++ listed members ++ "\x7d"

@[simp]
theorem toList_bracketed (members : List String) :
    (bracketed members).toList = '[' :: ((listed members).toList ++ [']']) := by
  simp [bracketed]

/-! ### Quoted names

A terminal is written as its name between single quotes.  The backslash, the
quote and the three blanks that would break a line of text are written as a
backslash and one more character; every other character stands for itself.
-/

namespace Quoted

def escape : Char → List Char
  | '\\' => ['\\', '\\']
  | '\'' => ['\\', '\'']
  | '\n' => ['\\', 'n']
  | '\r' => ['\\', 'r']
  | '\t' => ['\\', 't']
  | c => [c]

def encode (name : List Char) : List Char :=
  '\'' :: (name.flatMap escape ++ ['\''])

def quote (name : String) : String :=
  String.ofList (encode name.toList)

@[simp]
theorem toList_quote (name : String) :
    (quote name).toList = encode name.toList := by
  simp [quote]

/-- Every character is written, so no name loses one. -/
theorem escape_ne_nil (c : Char) : escape c ≠ [] := by
  unfold escape
  split <;> simp

end Quoted

/-! ### String literals

The diagnostic form of a name: the name between double quotes.  The double
quote, the backslash and the common blanks have an escape of two characters;
any other control character is written by its code point in hexadecimal.
-/

namespace Literal

/-- The control characters are those below the blank and those from DEL to U+009F. -/
def isControl (c : Char) : Bool :=
  c.toNat < 0x20 || (0x7f ≤ c.toNat && c.toNat ≤ 0x9f)

def escape : Char → List Char
  | '"' => ['\\', '"']
  | '\\' => ['\\', '\\']
  | '\n' => ['\\', 'n']
  | '\r' => ['\\', 'r']
  | '\t' => ['\\', 't']
  | '\x00' => ['\\', '0']
  | c =>
    if isControl c then
      ['\\', 'u', '\x7b'] ++ Nat.toDigits 16 c.toNat ++ ['\x7d']
    else
      [c]

def encode (name : List Char) : List Char :=
  '"' :: (name.flatMap escape ++ ['"'])

def quote (name : String) : String :=
  String.ofList (encode name.toList)

@[simp]
theorem toList_quote (name : String) :
    (quote name).toList = encode name.toList := by
  simp [quote]

end Literal

/-! ### Sorted names -/

/-- The names in increasing order of their code points. -/
def sorted (names : List String) : List String :=
  names.mergeSort fun a b => decide (a ≤ b)

theorem sorted_perm (names : List String) : (sorted names).Perm names :=
  List.mergeSort_perm names _

theorem pairwise_sorted (names : List String) :
    (sorted names).Pairwise (· ≤ ·) := by
  have ordered := @List.pairwise_mergeSort String (fun a b => decide (a ≤ b))
    (by simpa using fun a b c => String.le_trans)
    (by simpa using String.le_total) names
  simpa [sorted] using ordered

/-- Sorting forgets the order of a list and nothing else. -/
theorem sorted_eq_sorted_iff {names others : List String} :
    sorted names = sorted others ↔ names.Perm others := by
  constructor
  · intro h
    exact (sorted_perm names).symm.trans (h ▸ sorted_perm others)
  · intro h
    exact List.Perm.eq_of_pairwise (fun _ _ _ _ => String.le_antisymm)
      (pairwise_sorted names) (pairwise_sorted others)
      ((sorted_perm names).trans (h.trans (sorted_perm others).symm))

end EdgeActions.Text
