import EdgeActions.Call
import EdgeActions.Proofs.Delimiters
import EdgeActions.Reduction

/-!
# The texts of reductions and calls

A record is written as a word and its fields in parentheses.  Names that hold neither a
comma nor a closing parenthesis can be read back from such a text, and so can counters and
lists of them.  The one field that is not always read back is the variable for the result
of a call: without one, the call is written as if there were a variable named `None`.
-/

namespace EdgeActions

variable {r s : List Char}

/-! ### Fields -/

namespace Text

def fieldEnds : List Char :=
  [',', ')']

/-- Whether a name can be read back as a field: it holds no character that ends one. -/
def Plain (name : String) : Prop :=
  ∀ c ∈ name.toList, c ∉ fieldEnds

def Identifier (name : String) : Prop :=
  name ≠ "" ∧ ∀ c ∈ name.toList, c.isAlphanum = true ∨ c = '_'

-- The instances are given because another one may be found that tries all characters there are.
instance : DecidablePred Plain := fun name =>
  List.decidableBAll (· ∉ fieldEnds) name.toList

instance : DecidablePred Identifier := fun name =>
  @instDecidableAnd _ _ inferInstance
    (List.decidableBAll (fun c => c.isAlphanum = true ∨ c = '_') name.toList)

theorem Identifier.plain {name : String} (h : Identifier name) : Plain name := by
  intro c hmem hend
  have hword := h.2 c hmem
  rw [fieldEnds, List.mem_cons, List.mem_singleton] at hend
  rcases hend with rfl | rfl
  · exact absurd hword (by decide)
  · exact absurd hword (by decide)

theorem Plain.append_cons_inj {x y : String} {c : Char} (hx : Plain x) (hy : Plain y)
    (hc : c ∈ fieldEnds) (h : x.toList ++ c :: r = y.toList ++ c :: s) : x = y ∧ r = s := by
  obtain ⟨hname, hrest⟩ := Text.append_cons_inj hx hy hc hc h
  exact ⟨String.toList_inj.1 hname, (List.cons.inj hrest).2⟩

/-- A name between parentheses can be read back, and so can what follows. -/
theorem enclosed_append_inj {opening x y : String} (hx : Plain x) (hy : Plain y)
    (h : (opening ++ x ++ ")").toList ++ r = (opening ++ y ++ ")").toList ++ s) :
    x = y ∧ r = s := by
  simp only [String.toList_append, List.append_assoc] at h
  exact hx.append_cons_inj hy (by decide) (List.append_cancel_left h)

/-- The same for two names. -/
theorem pair_append_inj {opening x y x' y' : String} (hx : Plain x) (hy : Plain y)
    (hx' : Plain x') (hy' : Plain y')
    (h : (opening ++ x ++ ", " ++ y ++ ")").toList ++ r =
      (opening ++ x' ++ ", " ++ y' ++ ")").toList ++ s) : (x = x' ∧ y = y') ∧ r = s := by
  simp only [String.toList_append, List.append_assoc] at h
  obtain ⟨hfirst, h⟩ := hx.append_cons_inj hx' (by decide) (List.append_cancel_left h)
  obtain ⟨hsecond, hrest⟩ := hy.append_cons_inj hy' (by decide) (List.cons.inj h).2
  exact ⟨⟨hfirst, hsecond⟩, hrest⟩

end Text

namespace Counter

abbrev text (n : Counter) : String := toString n.toNat

theorem toList_text (n : Counter) : n.text.toList = Nat.toDigits 10 n.toNat := by
  rw [text, Nat.toString_eq_repr, Nat.toList_repr]

theorem isDigit_of_mem_text {n : Counter} : ∀ c ∈ n.text.toList, ¬ c.isDigit = false := by
  intro c hc
  rw [toList_text] at hc
  rw [Nat.isDigit_of_mem_toDigits (by decide) (by decide) hc]
  exact nofun

theorem toList_text_inj {m n : Counter} (h : m.text.toList = n.text.toList) : m = n := by
  rw [toList_text, toList_text] at h
  have hvalue := congrArg (Nat.ofDigitChars 10 · 0) h
  simp only [Nat.ofDigitChars_ten_toDigits] at hvalue
  exact UInt64.toNat_inj.1 hvalue

/-- A counter ends at the first character that is no digit. -/
theorem text_append_cons_inj {m n : Counter} {c : Char} (hc : c.isDigit = false)
    (h : m.text.toList ++ c :: r = n.text.toList ++ c :: s) : m = n ∧ r = s := by
  obtain ⟨htext, hrest⟩ := Text.append_cons_inj isDigit_of_mem_text isDigit_of_mem_text hc hc h
  exact ⟨toList_text_inj htext, (List.cons.inj hrest).2⟩

/-- Counters can be told apart as members of a list. -/
theorem members_text : Text.Members (fun _ : Counter => True) text where
  starts {n} _ := by
    obtain ⟨c, more, hdigits⟩ := List.exists_cons_of_ne_nil (Nat.toDigits_ne_nil (b := 10))
    have htext : n.text.toList = c :: more := n.toList_text.trans hdigits
    refine ⟨c, more, htext, ?_⟩
    rintro rfl
    exact isDigit_of_mem_text ']' (htext ▸ List.mem_cons_self) rfl
  cancel _ _ hr hs h := by
    obtain ⟨htext, hrest⟩ :=
      Text.append_endsMember_inj isDigit_of_mem_text isDigit_of_mem_text rfl rfl hr hs h
    exact ⟨toList_text_inj htext, hrest⟩

end Counter

namespace Reduction

variable {a b : Reduction}

theorem toList_text (a : Reduction) :
    a.text.toList = "Reduce(".toList ++ (a.nonTerminal.name.toList ++ ',' :: ' ' ::
      (a.pop.text.toList ++ ',' :: ' ' :: (a.replay.text.toList ++ [')']))) := by
  -- Lean is slow to make the equation of a definition with so many literals.
  delta text
  simp

theorem text_append_inj (ha : Text.Plain a.nonTerminal.name) (hb : Text.Plain b.nonTerminal.name)
    (h : a.text.toList ++ r = b.text.toList ++ s) :
    (a.nonTerminal.name = b.nonTerminal.name ∧ a.pop = b.pop ∧ a.replay = b.replay) ∧ r = s := by
  rw [toList_text, toList_text] at h
  simp only [List.append_assoc, List.cons_append, List.nil_append] at h
  obtain ⟨hname, hpops⟩ := ha.append_cons_inj hb (by decide) (List.append_cancel_left h)
  obtain ⟨hpop, hreplays⟩ := Counter.text_append_cons_inj rfl (List.cons.inj hpops).2
  obtain ⟨hreplay, hrest⟩ := Counter.text_append_cons_inj rfl (List.cons.inj hreplays).2
  exact ⟨⟨hname, hpop, hreplay⟩, hrest⟩

end Reduction

namespace Call

variable {c d : Call}

theorem toList_text (c : Call) :
    c.text.toList = "FunCall(".toList ++ (c.method.toList ++ ',' :: ' ' ::
      (c.offset.text.toList ++ ',' :: ' ' ::
        ((Text.bracketed (c.args.map fun arg => arg.text)).toList ++ ',' :: ' ' ::
          ((c.target.getD "None").toList ++ [')'])))) := by
  delta text
  simp

def Named (valid : String → Prop) (c : Call) : Prop :=
  valid c.method ∧ ∀ target ∈ c.target, valid target

abbrev WrittenAlike (target other : Option String) : Prop :=
  target.getD "None" = other.getD "None"

theorem WrittenAlike.eq_of_ne {target other : Option String} (h : WrittenAlike target other)
    (htarget : some "None" ≠ target) (hother : some "None" ≠ other) : target = other := by
  cases target with
  | none =>
    cases other with
    | none => rfl
    | some name => exact absurd (congrArg some h) hother
  | some name =>
    cases other with
    | none => exact absurd (congrArg some h.symm) htarget
    | some name' => exact congrArg some h

theorem Named.plain_getD (h : c.Named Text.Plain) : Text.Plain (c.target.getD "None") := by
  cases htarget : c.target with
  | none => exact (by decide : Text.Plain "None")
  | some target => exact h.2 target htarget

theorem text_append_inj (hc : c.Named Text.Plain) (hd : d.Named Text.Plain)
    (h : c.text.toList ++ r = d.text.toList ++ s) :
    (c.method = d.method ∧ c.args = d.args ∧ WrittenAlike c.target d.target ∧ c.offset = d.offset) ∧
      r = s := by
  rw [toList_text, toList_text] at h
  simp only [List.append_assoc, List.cons_append, List.nil_append] at h
  obtain ⟨hmethod, h⟩ := hc.1.append_cons_inj hd.1 (by decide) (List.append_cancel_left h)
  obtain ⟨hoffset, h⟩ := Counter.text_append_cons_inj rfl (List.cons.inj h).2
  obtain ⟨hargs, h⟩ := Counter.members_text.bracketed_append_inj (fun _ _ => trivial)
    (fun _ _ => trivial) (List.cons.inj h).2
  simp only [List.cons.injEq, true_and] at h
  obtain ⟨htarget, hrest⟩ := hc.plain_getD.append_cons_inj hd.plain_getD (by decide) h
  exact ⟨⟨hmethod, hargs, htarget, hoffset⟩, hrest⟩

end Call

end EdgeActions
