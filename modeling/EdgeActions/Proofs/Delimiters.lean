import EdgeActions.Symbol

/-!
# Texts that show where they end

A text can be told apart from what follows it in three ways.  A quoted name ends at its
closing quote, because a quote inside it is escaped.  A plain name ends at the first
character that no name holds.  A bracketed list ends at its closing bracket, if each
member ends in front of a separator or a bracket.
-/

namespace EdgeActions.Text

/-! ### Quoted names -/

namespace Quoted

/-- The character that stands behind the backslash of an escape is written for this one. -/
def unescape : Char → Char
  | 'n' => '\n'
  | 'r' => '\r'
  | 't' => '\t'
  | c => c

/-- A character is written as it is, or as a backslash and a character that it is read from. -/
theorem escape_cases (c : Char) :
    (escape c = [c] ∧ c ≠ '\\' ∧ c ≠ '\'') ∨
      ∃ mark, escape c = ['\\', mark] ∧ unescape mark = c := by
  unfold escape
  split
  case h_1 => exact Or.inr ⟨_, rfl, rfl⟩
  case h_2 => exact Or.inr ⟨_, rfl, rfl⟩
  case h_3 => exact Or.inr ⟨_, rfl, rfl⟩
  case h_4 => exact Or.inr ⟨_, rfl, rfl⟩
  case h_5 => exact Or.inr ⟨_, rfl, rfl⟩
  case h_6 hbackslash hquote _ _ _ => exact Or.inl ⟨rfl, hbackslash, hquote⟩

/-- What is written for a character shows where it ends. -/
theorem escape_append_inj {c d : Char} {r s : List Char} (h : escape c ++ r = escape d ++ s) :
    c = d ∧ r = s := by
  obtain ⟨hc, hplain, -⟩ | ⟨mark, hc, rfl⟩ := escape_cases c <;>
    obtain ⟨hd, hplain', -⟩ | ⟨mark', hd, rfl⟩ := escape_cases d <;>
    rw [hc, hd] at h <;> injection h with hhead htail
  · exact ⟨hhead, htail⟩
  · exact absurd hhead hplain
  · exact absurd hhead.symm hplain'
  · injection htail with hmark htail
    exact ⟨congrArg unescape hmark, htail⟩

/-- No character is written like the closing quote. -/
theorem escape_append_ne_quote_cons (c : Char) (r s : List Char) :
    escape c ++ r ≠ '\'' :: s := by
  obtain ⟨hc, -, hquote⟩ | ⟨mark, hc, -⟩ := escape_cases c
  · rw [hc]
    exact fun h => hquote (List.cons.inj h).1
  · rw [hc]
    exact fun h => absurd (List.cons.inj h).1 (by decide)

theorem flatMap_escape_append_inj {x y r s : List Char}
    (h : x.flatMap escape ++ '\'' :: r = y.flatMap escape ++ '\'' :: s) : x = y ∧ r = s := by
  induction x generalizing y with
  | nil =>
    cases y with
    | nil => simpa using h
    | cons d y =>
      rw [List.flatMap_cons, List.append_assoc] at h
      exact absurd h.symm (escape_append_ne_quote_cons d _ _)
  | cons c x ih =>
    cases y with
    | nil =>
      rw [List.flatMap_cons, List.append_assoc] at h
      exact absurd h (escape_append_ne_quote_cons c _ _)
    | cons d y =>
      rw [List.flatMap_cons, List.flatMap_cons, List.append_assoc, List.append_assoc] at h
      obtain ⟨rfl, hrest⟩ := escape_append_inj h
      obtain ⟨rfl, rfl⟩ := ih hrest
      exact ⟨rfl, rfl⟩

theorem encode_append_inj {x y r s : List Char} (h : encode x ++ r = encode y ++ s) :
    x = y ∧ r = s := by
  simp only [encode, List.cons_append, List.append_assoc, List.cons.injEq, true_and,
    List.nil_append] at h
  exact flatMap_escape_append_inj h

theorem encode_prefix_iff {x y : List Char} : encode x <+: encode y ↔ x = y := by
  refine ⟨fun ⟨rest, h⟩ => ?_, fun h => h ▸ List.prefix_rfl⟩
  exact (encode_append_inj (h.trans (List.append_nil _).symm)).1

theorem quote_append_eq_iff {x y r s : String} :
    quote x ++ r = quote y ++ s ↔ x = y ∧ r = s := by
  constructor
  · intro h
    have htexts := congrArg String.toList h
    rw [String.toList_append, String.toList_append, toList_quote, toList_quote] at htexts
    obtain ⟨hname, hrest⟩ := encode_append_inj htexts
    exact ⟨String.toList_inj.1 hname, String.toList_inj.1 hrest⟩
  · rintro ⟨rfl, rfl⟩
    rfl

/-- The blanks that break a line of text are written as letters behind a backslash. -/
theorem ne_break_of_mem_escape {c d : Char} (h : d ∈ escape c) :
    d ≠ '\n' ∧ d ≠ '\r' ∧ d ≠ '\t' := by
  unfold escape at h
  split at h
  case h_6 hnewline hreturn htab =>
    rw [List.mem_singleton.1 h]
    exact ⟨hnewline, hreturn, htab⟩
  all_goals
    rw [List.mem_cons, List.mem_singleton] at h
    rcases h with rfl | rfl <;> decide

theorem ne_break_of_mem_encode {name : List Char} {d : Char} (h : d ∈ encode name) :
    d ≠ '\n' ∧ d ≠ '\r' ∧ d ≠ '\t' := by
  rw [encode, List.mem_cons, List.mem_append, List.mem_singleton, List.mem_flatMap] at h
  rcases h with rfl | ⟨c, -, hescape⟩ | rfl
  · decide
  · exact ne_break_of_mem_escape hescape
  · decide

/--
A quoted name shows where it ends, whatever follows.  So no two names are quoted alike and
no quoted name is the start of another one; and no quoted name breaks a line.
-/
theorem quote_self_delimiting (x y r s : String) :
    (quote x ++ r = quote y ++ s ↔ x = y ∧ r = s) ∧
      (quote x = quote y ↔ x = y) ∧
      ((quote x).toList <+: (quote y).toList ↔ x = y) ∧
      ∀ c ∈ (quote x).toList, c ≠ '\n' ∧ c ≠ '\r' ∧ c ≠ '\t' := by
  refine ⟨quote_append_eq_iff, ⟨fun h => ?_, congrArg quote⟩, ?_, fun c hc => ?_⟩
  · have hempty : quote x ++ "" = quote y ++ "" := congrArg (· ++ "") h
    exact (quote_append_eq_iff.1 hempty).1
  · rw [toList_quote, toList_quote, encode_prefix_iff, String.toList_inj]
  · rw [toList_quote] at hc
    exact ne_break_of_mem_encode hc

/-- A backslash at the end of a name is not taken for the escape of the closing quote. -/
theorem quote_self_delimiting_backslash :
    let first := "a\\"
    let both := "a\\', 'b\n"
    quote first ++ ", 'b\\n'" ≠ quote both ++ "" ∧ quote first ≠ quote both ∧
      ¬ (quote first).toList <+: (quote both).toList ∧
      '\n' ∈ both.toList ∧ '\n' ∉ (quote both).toList := by
  intro first both
  have hdifferent : first ≠ both := by decide
  obtain ⟨happend, hquote, hstart, -⟩ := quote_self_delimiting first both ", 'b\\n'" ""
  obtain ⟨-, -, -, hblanks⟩ := quote_self_delimiting both first "" ""
  refine ⟨fun h => hdifferent (happend.1 h).1, fun h => hdifferent (hquote.1 h),
    fun h => hdifferent (hstart.1 h), by decide, fun h => (hblanks _ h).1 rfl⟩

end Quoted

/-! ### Plain names -/

/-- Texts without a stop are told apart from what follows when that starts with one. -/
theorem append_cons_inj {stop : Char → Prop} {x y r s : List Char} {a b : Char}
    (hx : ∀ c ∈ x, ¬ stop c) (hy : ∀ c ∈ y, ¬ stop c) (ha : stop a) (hb : stop b)
    (h : x ++ a :: r = y ++ b :: s) : x = y ∧ a :: r = b :: s := by
  induction x generalizing y with
  | nil =>
    cases y with
    | nil => exact ⟨rfl, h⟩
    | cons d y =>
      obtain rfl : a = d := (List.cons.inj h).1
      exact absurd ha (hy a List.mem_cons_self)
  | cons c x ih =>
    cases y with
    | nil =>
      obtain rfl : c = b := (List.cons.inj h).1
      exact absurd hb (hx c List.mem_cons_self)
    | cons d y =>
      obtain ⟨rfl, hrest⟩ := List.cons.inj h
      obtain ⟨rfl, htail⟩ := ih (List.forall_mem_cons.1 hx).2 (List.forall_mem_cons.1 hy).2 hrest
      exact ⟨rfl, htail⟩

/-! ### Lists -/

/-- What follows a member of a list starts with the separator or closes the list. -/
def EndsMember (rest : List Char) : Prop :=
  ∃ c more, rest = c :: more ∧ (c = ',' ∨ c = ']')

/-- Texts without a stop are told apart as members of a list if its marks are stops. -/
theorem append_endsMember_inj {stop : Char → Prop} {x y r s : List Char}
    (hx : ∀ c ∈ x, ¬ stop c) (hy : ∀ c ∈ y, ¬ stop c) (hcomma : stop ',') (hbracket : stop ']')
    (hr : EndsMember r) (hs : EndsMember s) (h : x ++ r = y ++ s) : x = y ∧ r = s := by
  have hstop : ∀ c, c = ',' ∨ c = ']' → stop c := by
    rintro c (rfl | rfl)
    · exact hcomma
    · exact hbracket
  obtain ⟨a, more, rfl, ha⟩ := hr
  obtain ⟨b, more', rfl, hb⟩ := hs
  exact append_cons_inj hx hy (hstop a ha) (hstop b hb) h

structure Members {α : Type} (valid : α → Prop) (write : α → String) : Prop where
  /-- No text is empty or starts as the rest of a list does that has come to its end. -/
  starts : ∀ {x}, valid x → ∃ c more, (write x).toList = c :: more ∧ c ≠ ']'
  /-- A text shows where it ends. -/
  cancel : ∀ {x y r s}, valid x → valid y → EndsMember r → EndsMember s →
    (write x).toList ++ r = (write y).toList ++ s → x = y ∧ r = s

/-- Each member but the first stands behind a separator. -/
theorem toList_listed_cons (first : String) (members : List String) :
    (listed (first :: members)).toList =
      first.toList ++ members.flatMap fun member => ',' :: ' ' :: member.toList := by
  induction members generalizing first with
  | nil => simp [listed]
  | cons second members ih =>
    rw [listed, String.intercalate_cons_cons, ← listed, String.toList_append, ih]
    simp

namespace Members

variable {α : Type} {valid : α → Prop} {write : α → String} {xs ys : List α} {r s : List Char}

theorem endsMember_rest (xs : List α) (r : List Char) :
    EndsMember
      ((xs.map write).flatMap (fun member => ',' :: ' ' :: member.toList) ++ ']' :: r) := by
  cases xs with
  | nil => exact ⟨']', r, rfl, Or.inr rfl⟩
  | cons x xs => exact ⟨',', _, rfl, Or.inl rfl⟩

/-- The members behind the first one are told apart one by one. -/
theorem rest_inj (hwrite : Members valid write) (hxs : ∀ x ∈ xs, valid x)
    (hys : ∀ y ∈ ys, valid y)
    (h : (xs.map write).flatMap (fun member => ',' :: ' ' :: member.toList) ++ ']' :: r =
      (ys.map write).flatMap (fun member => ',' :: ' ' :: member.toList) ++ ']' :: s) :
    xs = ys ∧ r = s := by
  induction xs generalizing ys with
  | nil =>
    cases ys with
    | nil => exact ⟨rfl, (List.cons.inj h).2⟩
    | cons y ys => exact absurd (List.cons.inj h).1 (by decide)
  | cons x xs ih =>
    cases ys with
    | nil => exact absurd (List.cons.inj h).1 (by decide)
    | cons y ys =>
      obtain ⟨hx, hothers⟩ := List.forall_mem_cons.1 hxs
      obtain ⟨hy, hothers'⟩ := List.forall_mem_cons.1 hys
      simp only [List.map_cons, List.flatMap_cons, List.cons_append, List.append_assoc,
        List.cons.injEq, true_and] at h
      obtain ⟨rfl, hrest⟩ :=
        hwrite.cancel hx hy (endsMember_rest xs r) (endsMember_rest ys s) h
      obtain ⟨rfl, rfl⟩ := ih hothers hothers' hrest
      exact ⟨rfl, rfl⟩

/-- A list with members does not start as an empty one ends. -/
theorem toList_listed_append_ne (hwrite : Members valid write) {x : α} (hx : valid x)
    (xs : List α) (r s : List Char) :
    (listed ((x :: xs).map write)).toList ++ r ≠ ']' :: s := by
  obtain ⟨c, more, htext, hopen⟩ := hwrite.starts hx
  rw [List.map_cons, toList_listed_cons, htext]
  exact fun h => hopen (List.cons.inj h).1

/-- A bracketed list shows its members and where it ends. -/
theorem bracketed_append_inj (hwrite : Members valid write) (hxs : ∀ x ∈ xs, valid x)
    (hys : ∀ y ∈ ys, valid y)
    (h : (bracketed (xs.map write)).toList ++ r = (bracketed (ys.map write)).toList ++ s) :
    xs = ys ∧ r = s := by
  simp only [toList_bracketed, List.cons_append, List.append_assoc, List.cons.injEq, true_and,
    List.nil_append] at h
  cases xs with
  | nil =>
    cases ys with
    | nil => exact ⟨rfl, (List.cons.inj h).2⟩
    | cons y ys =>
      exact absurd h.symm (hwrite.toList_listed_append_ne (hys y List.mem_cons_self) ys _ r)
  | cons x xs =>
    obtain ⟨hx, hothers⟩ := List.forall_mem_cons.1 hxs
    cases ys with
    | nil => exact absurd h (hwrite.toList_listed_append_ne hx xs _ s)
    | cons y ys =>
      obtain ⟨hy, hothers'⟩ := List.forall_mem_cons.1 hys
      rw [List.map_cons, List.map_cons, toList_listed_cons, toList_listed_cons,
        List.append_assoc, List.append_assoc] at h
      obtain ⟨rfl, hrest⟩ := hwrite.cancel hx hy (endsMember_rest xs r) (endsMember_rest ys s) h
      obtain ⟨rfl, rfl⟩ := hwrite.rest_inj hothers hothers' hrest
      exact ⟨rfl, rfl⟩

/-- Bracketed lists can be members of a list themselves. -/
theorem bracketed (hwrite : Members valid write) :
    Members (fun xs : List α => ∀ x ∈ xs, valid x) fun xs => Text.bracketed (xs.map write) where
  starts _ := ⟨'[', _, toList_bracketed _, by decide⟩
  cancel hxs hys _ _ h := hwrite.bracketed_append_inj hxs hys h

end Members

end EdgeActions.Text
