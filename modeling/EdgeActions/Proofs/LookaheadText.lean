import EdgeActions.Lookahead
import EdgeActions.Proofs.Delimiters

/-!
# The text of a lookahead assertion

The text of an assertion determines it, as long as each of its non-terminals has a name of
its own that is not empty and does without the characters that delimit the parts of the
text.  The names of terminals are quoted and may hold any characters.
-/

namespace EdgeActions

namespace Symbol

/-- The characters that tell a quoted name from a plain one, or end a member of a list. -/
def delimiters : List Char :=
  ['\'', ',', '[', ']']

/-- Whether a symbol can be told from its text: a terminal, or a non-terminal of a plain name. -/
def Readable : Symbol → Prop
  | terminal _ => True
  | nonTerminal (.named name) => name ≠ "" ∧ ∀ c ∈ name.toList, c ∉ delimiters
  | nonTerminal (.initial _) => False

instance : DecidablePred Readable
  | terminal _ => inferInstanceAs (Decidable True)
  | nonTerminal (.named name) =>
    inferInstanceAs (Decidable (name ≠ "" ∧ ∀ c ∈ name.toList, c ∉ delimiters))
  | nonTerminal (.initial _) => inferInstanceAs (Decidable False)

variable {a b : Symbol} {r s : List Char}

/-- A name of a non-terminal does not start like a quoted name or the end of a list. -/
theorem exists_start_of_readable {name : String}
    (h : (nonTerminal (.named name)).Readable) :
    ∃ c more, name.toList = c :: more ∧ c ∉ delimiters := by
  obtain ⟨hname, hplain⟩ := h
  cases htext : name.toList with
  | nil => exact absurd (String.toList_eq_nil_iff.1 htext) hname
  | cons c more => exact ⟨c, more, rfl, hplain c (by simp [htext])⟩

theorem quote_append_ne {name : String} (h : (nonTerminal (.named name)).Readable)
    (quoted : String) (r s : List Char) :
    (Text.Quoted.quote quoted).toList ++ r ≠ name.toList ++ s := by
  obtain ⟨c, more, htext, hstart⟩ := exists_start_of_readable h
  rw [Text.Quoted.toList_quote, htext]
  intro hequal
  obtain rfl : '\'' = c := (List.cons.inj hequal).1
  exact hstart (by decide)

theorem Readable.exists_start (h : a.Readable) :
    ∃ c more, a.text.toList = c :: more ∧ c ≠ ']' := by
  cases a with
  | terminal name => exact ⟨'\'', _, Text.Quoted.toList_quote name, by decide⟩
  | nonTerminal nt =>
    cases nt with
    | initial goal => exact h.elim
    | named name =>
      obtain ⟨c, more, htext, hstart⟩ := exists_start_of_readable h
      refine ⟨c, more, htext, ?_⟩
      rintro rfl
      exact hstart (by decide)

/-- Inside a list the text of a symbol determines it and shows where it ends. -/
theorem Readable.text_cancel (ha : a.Readable) (hb : b.Readable) (hr : Text.EndsMember r)
    (hs : Text.EndsMember s) (h : a.text.toList ++ r = b.text.toList ++ s) : a = b ∧ r = s := by
  cases a with
  | terminal x =>
    cases b with
    | terminal y =>
      simp only [text, Text.Quoted.toList_quote] at h
      obtain ⟨hname, rfl⟩ := Text.Quoted.encode_append_inj h
      exact ⟨congrArg terminal (String.toList_inj.1 hname), rfl⟩
    | nonTerminal nt =>
      cases nt with
      | initial goal => exact hb.elim
      | named name => exact absurd h (quote_append_ne hb x r s)
  | nonTerminal nt =>
    cases nt with
    | initial goal => exact ha.elim
    | named name =>
      cases b with
      | terminal y => exact absurd h.symm (quote_append_ne ha y s r)
      | nonTerminal nt' =>
        cases nt' with
        | initial goal => exact hb.elim
        | named name' =>
          obtain ⟨hname, hrest⟩ :=
            Text.append_endsMember_inj ha.2 hb.2 (by decide) (by decide) hr hs h
          obtain rfl := String.toList_inj.1 hname
          exact ⟨rfl, hrest⟩

/-- Readable symbols can be told apart as members of a list. -/
theorem members_text : Text.Members Readable text where
  starts := Readable.exists_start
  cancel := Readable.text_cancel

end Symbol

namespace Lookahead

variable {l m : Lookahead}

def Readable (l : Lookahead) : Prop :=
  ∀ candidate ∈ l.candidates.items, ∀ symbol ∈ candidate, symbol.Readable

instance : DecidablePred Readable := fun l =>
  inferInstanceAs (Decidable (∀ candidate ∈ l.candidates.items, ∀ symbol ∈ candidate,
    symbol.Readable))

theorem toList_text (l : Lookahead) :
    l.text.toList = "Lookahead(".toList ++
      ((Text.bracketed (l.candidates.items.map fun candidate =>
        Text.bracketed (candidate.map Symbol.text))).toList ++
          (", ".toList ++ ((if l.accept then "true" else "false").toList ++ [')']))) := by
  simp [text]

/-- An assertion is its candidates in order and its polarity. -/
theorem eq_of_items_eq (hitems : l.candidates.items = m.candidates.items)
    (haccept : l.accept = m.accept) : l = m := by
  cases l
  cases m
  cases OrderedSet.ext hitems
  cases haccept
  rfl

/--
If the names of all non-terminals are readable, the text of an assertion determines its
polarity and its candidates in order, and so the assertion itself.
-/
theorem text_determines (hl : l.Readable) (hm : m.Readable) (h : l.text = m.text) :
    l.accept = m.accept ∧ l.candidates.items = m.candidates.items ∧ (l == m) = true := by
  have htexts := congrArg String.toList h
  rw [toList_text, toList_text] at htexts
  obtain ⟨hitems, hrest⟩ := Symbol.members_text.bracketed.bracketed_append_inj hl hm
    (List.append_cancel_left htexts)
  have hpolarity := List.append_cancel_right (List.append_cancel_left hrest)
  have haccept : l.accept = m.accept := by
    cases hfirst : l.accept <;> cases hsecond : m.accept <;> rw [hfirst, hsecond] at hpolarity
    · exact absurd hpolarity (by decide)
    · exact absurd hpolarity (by decide)
  exact ⟨haccept, hitems, beq_iff_eq.2 (eq_of_items_eq hitems haccept)⟩

/--
A terminal whose name looks like the end of a name and the start of another is told from
two terminals; a candidate given twice leaves no trace.
-/
theorem text_determines_quotes :
    let tricky : Lookahead := ⟨.ofList [[.terminal "a', 'b\\"], []], true⟩
    let again : Lookahead := ⟨.ofList [[.terminal "a', 'b\\"], [], [.terminal "a', 'b\\"]], true⟩
    let plain : Lookahead := ⟨.ofList [[.terminal "a", .terminal "b\\"], []], true⟩
    tricky.Readable ∧ again.Readable ∧ plain.Readable ∧ tricky.text = again.text ∧
      (tricky == again) = true ∧ tricky.text ≠ plain.text := by
  intro tricky again plain
  have htricky : tricky.Readable := by decide
  have hagain : again.Readable := by decide
  have hplain : plain.Readable := by decide
  have hsame : tricky.text = again.text := rfl
  refine ⟨htricky, hagain, hplain, hsame, (text_determines htricky hagain hsame).2.2, fun h => ?_⟩
  exact absurd (text_determines htricky hplain h).2.1 (by decide)

end Lookahead

end EdgeActions
