import EdgeActions.Proofs.Reachable
import EdgeActions.Proofs.RecordText
import EdgeActions.Step.Order
import Mathlib.Data.List.Forall2

/-!
# The text of an action

The first letters of the text of a step tell its variant, and the fields follow; the text
of a sequence lists its steps.  So a text shows all fields, non-terminals by their names
and without resources, but for the variables of calls: `text_eq_iff` says which actions
have one text, and `iff_forall₂_targets` which of these have the same fields.
-/

namespace EdgeActions

variable {r s : List Char}

namespace Step

variable {a b : Step} {bound other : Option String → Option String → Prop}

def Named (valid : String → Prop) : Step → Prop
  | reduce reduction => valid reduction.nonTerminal.name
  | lookahead _ => False
  | filterFlag flag value => valid flag ∧ valid value
  | pushFlag flag value => valid flag ∧ valid value
  | popFlag flag => valid flag
  | call c _ _ => c.Named valid

instance (valid : String → Prop) [DecidablePred valid] : DecidablePred (Named valid)
  | reduce reduction => inferInstanceAs (Decidable (valid reduction.nonTerminal.name))
  | lookahead _ => inferInstanceAs (Decidable False)
  | filterFlag flag value => inferInstanceAs (Decidable (valid flag ∧ valid value))
  | pushFlag flag value => inferInstanceAs (Decidable (valid flag ∧ valid value))
  | popFlag flag => inferInstanceAs (Decidable (valid flag))
  | call c _ _ => inferInstanceAs (Decidable (valid c.method ∧ ∀ target ∈ c.target, valid target))

theorem Named.plain (ha : a.Named Text.Identifier) : a.Named Text.Plain := by
  cases a with
  | reduce reduction => exact Text.Identifier.plain ha
  | lookahead assertion => exact ha
  | filterFlag flag value => exact ⟨ha.1.plain, ha.2.plain⟩
  | pushFlag flag value => exact ⟨ha.1.plain, ha.2.plain⟩
  | popFlag flag => exact Text.Identifier.plain ha
  | call c reads writes => exact ⟨ha.1.plain, fun target htarget => (ha.2 target htarget).plain⟩

/--
Two steps are of one variant and have the same fields: non-terminals of one name, and
calls whose variables for the result are related.  The resources of calls do not matter.
-/
inductive Corresponds (bound : Option String → Option String → Prop) : Step → Step → Prop where
  | reduce {reduction other : Reduction}
      (hname : reduction.nonTerminal.name = other.nonTerminal.name)
      (hpop : reduction.pop = other.pop) (hreplay : reduction.replay = other.replay) :
      Corresponds bound (.reduce reduction) (.reduce other)
  | lookahead (assertion : Lookahead) :
      Corresponds bound (.lookahead assertion) (.lookahead assertion)
  | filterFlag (flag value : String) :
      Corresponds bound (.filterFlag flag value) (.filterFlag flag value)
  | pushFlag (flag value : String) :
      Corresponds bound (.pushFlag flag value) (.pushFlag flag value)
  | popFlag (flag : String) : Corresponds bound (.popFlag flag) (.popFlag flag)
  | call {c d : Call} {reads writes others rest : List Resource} (hmethod : c.method = d.method)
      (hargs : c.args = d.args) (htarget : bound c.target d.target)
      (hoffset : c.offset = d.offset) :
      Corresponds bound (.call c reads writes) (.call d others rest)

/-! ### Reading a step back -/

/-- The letters that a text starts with, which tell the variants apart. -/
def initials : Step → List Char
  | reduce _ => ['R', 'e']
  | lookahead _ => ['L', 'o']
  | filterFlag _ _ => ['F', 'i']
  | pushFlag _ _ => ['P', 'u']
  | popFlag _ => ['P', 'o']
  | call _ _ _ => ['F', 'u']

theorem initials_prefix_text (a : Step) : a.initials <+: a.text.toList := by
  delta text Reduction.text Lookahead.text Call.text
  cases a <;> simp [initials]

theorem initials_eq_of_text_append (h : a.text.toList ++ r = b.text.toList ++ s) :
    a.initials = b.initials := by
  have hfirst := a.initials_prefix_text.trans (List.prefix_append _ r)
  have hsecond := b.initials_prefix_text.trans (List.prefix_append _ s)
  have hlength : a.initials.length = b.initials.length := by
    cases a <;> cases b <;> rfl
  rw [h] at hfirst
  exact (List.prefix_of_prefix_length_le hfirst hsecond hlength.le).eq_of_length hlength

/-- The text of a step shows its fields and where it ends. -/
theorem text_append_inj (ha : a.Named Text.Plain) (hb : b.Named Text.Plain)
    (h : a.text.toList ++ r = b.text.toList ++ s) : a.Corresponds Call.WrittenAlike b ∧ r = s := by
  have hinitials := initials_eq_of_text_append h
  cases a with
  | lookahead => exact ha.elim
  | reduce reduction =>
    cases b with
    | reduce other =>
      obtain ⟨⟨hname, hpop, hreplay⟩, hrest⟩ := Reduction.text_append_inj ha hb h
      exact ⟨.reduce hname hpop hreplay, hrest⟩
    | _ => simp [initials] at hinitials
  | filterFlag flag value =>
    cases b with
    | filterFlag other wanted =>
      obtain ⟨⟨rfl, rfl⟩, hrest⟩ := Text.pair_append_inj ha.1 ha.2 hb.1 hb.2 h
      exact ⟨.filterFlag flag value, hrest⟩
    | _ => simp [initials] at hinitials
  | pushFlag flag value =>
    cases b with
    | pushFlag other pushed =>
      obtain ⟨⟨rfl, rfl⟩, hrest⟩ := Text.pair_append_inj ha.1 ha.2 hb.1 hb.2 h
      exact ⟨.pushFlag flag value, hrest⟩
    | _ => simp [initials] at hinitials
  | popFlag flag =>
    cases b with
    | popFlag other =>
      obtain ⟨rfl, hrest⟩ := Text.enclosed_append_inj ha hb h
      exact ⟨.popFlag flag, hrest⟩
    | _ => simp [initials] at hinitials
  | call c reads writes =>
    cases b with
    | call d others rest =>
      obtain ⟨⟨hmethod, hargs, htarget, hoffset⟩, hrest⟩ := Call.text_append_inj ha hb h
      exact ⟨.call hmethod hargs htarget hoffset, hrest⟩
    | _ => simp [initials] at hinitials

/-! ### Steps as they are shown -/

def shown : Step → Step
  | reduce reduction => .reduce { reduction with nonTerminal := .named reduction.nonTerminal.name }
  | call c _ _ => .call { c with target := some (c.target.getD "None") } [] []
  | step => step

theorem text_shown (a : Step) : a.shown.text = a.text := by
  cases a <;> rfl

theorem shown_shown (a : Step) : a.shown.shown = a.shown := by
  cases a <;> rfl

theorem Named.shown (ha : a.Named Text.Plain) : a.shown.Named Text.Plain := by
  cases a with
  | call c reads writes =>
    refine ⟨ha.1, fun target htarget => ?_⟩
    obtain rfl := Option.some.inj htarget
    exact Call.Named.plain_getD ha
  | _ => exact ha

theorem shown_eq_iff : a.shown = b.shown ↔ a.Corresponds Call.WrittenAlike b := by
  constructor
  · intro h
    cases a with
    | reduce reduction =>
      cases b with
      | reduce other =>
        simp only [Step.shown, reduce.injEq, Reduction.mk.injEq, NonTerminal.named.injEq] at h
        exact .reduce h.1 h.2.1 h.2.2
      | _ => cases h
    | lookahead assertion =>
      cases b with
      | lookahead other => cases h; exact .lookahead assertion
      | _ => cases h
    | filterFlag flag value =>
      cases b with
      | filterFlag other wanted => cases h; exact .filterFlag flag value
      | _ => cases h
    | pushFlag flag value =>
      cases b with
      | pushFlag other pushed => cases h; exact .pushFlag flag value
      | _ => cases h
    | popFlag flag =>
      cases b with
      | popFlag other => cases h; exact .popFlag flag
      | _ => cases h
    | call c reads writes =>
      cases b with
      | call d others rest =>
        simp only [Step.shown, call.injEq, Call.mk.injEq, Option.some.injEq, and_true] at h
        exact .call h.1 h.2.1 h.2.2.1 h.2.2.2
      | _ => cases h
  · rintro (⟨hname, hpop, hreplay⟩ | _ | _ | _ | _ | ⟨hmethod, hargs, htarget, hoffset⟩)
    · simp [Step.shown, hname, hpop, hreplay]
    · rfl
    · rfl
    · rfl
    · rfl
    · simp only [Step.shown, hmethod, hargs, show _ = _ from htarget, hoffset]

/-- Lists of steps are shown alike if the steps correspond one by one. -/
theorem map_shown_eq_iff {steps others : List Step} :
    steps.map shown = others.map shown ↔
      List.Forall₂ (Corresponds Call.WrittenAlike) steps others := by
  rw [← List.forall₂_eq_eq_eq, List.forall₂_map_left_iff, List.forall₂_map_right_iff]
  simp only [shown_eq_iff]

theorem map_text_shown (steps : List Step) : (steps.map shown).map text = steps.map text := by
  rw [List.map_map]
  exact List.map_congr_left fun a _ => a.text_shown

theorem shown_valid {steps : List Step} (hsteps : ∀ step ∈ steps, step.Named Text.Plain) :
    ∀ step ∈ steps.map shown, step.Named Text.Plain ∧ step.shown = step := by
  rw [List.forall_mem_map]
  exact fun step hstep => ⟨(hsteps step hstep).shown, step.shown_shown⟩

/-- Steps as they are shown can be told apart as members of a list. -/
theorem members_text : Text.Members (fun a : Step => a.Named Text.Plain ∧ a.shown = a) text where
  starts {a} _ := by
    obtain ⟨more, htext⟩ := a.initials_prefix_text
    cases a <;> exact ⟨_, _, htext.symm, by decide⟩
  cancel hx hy _ _ h := by
    obtain ⟨hcorresponds, hrest⟩ := text_append_inj hx.1 hy.1 h
    have hshown := shown_eq_iff.2 hcorresponds
    rw [hx.2, hy.2] at hshown
    exact ⟨hshown, hrest⟩

/-! ### Variables for results -/

/-- Steps that correspond in one way do so in another if the variables of their calls do. -/
theorem forall₂_corresponds_iff {steps steps' : List Step}
    (h : List.Forall₂ (Corresponds bound) steps steps') :
    List.Forall₂ (Corresponds other) steps steps' ↔
      List.Forall₂ other ((steps.filterMap call?).map Call.target)
        ((steps'.filterMap call?).map Call.target) := by
  induction h with
  | nil => simp
  | cons hstep _ ih =>
    rw [List.forall₂_cons, ih]
    cases hstep with
    | call hmethod hargs _ hoffset =>
      simp only [List.filterMap_cons, call?, List.map_cons, List.forall₂_cons]
      refine and_congr_left' ⟨fun hcall => ?_, fun htarget => .call hmethod hargs htarget hoffset⟩
      cases hcall with
      | call _ _ htarget _ => exact htarget
    | reduce hname hpop hreplay => exact and_iff_right (.reduce hname hpop hreplay)
    | lookahead assertion => exact and_iff_right (.lookahead assertion)
    | filterFlag flag value => exact and_iff_right (.filterFlag flag value)
    | pushFlag flag value => exact and_iff_right (.pushFlag flag value)
    | popFlag flag => exact and_iff_right (.popFlag flag)

end Step

namespace Action

variable {a b : Action} {bound other : Option String → Option String → Prop}

def Named (valid : String → Prop) (a : Action) : Prop :=
  ∀ step ∈ a.children, step.Named valid

instance (valid : String → Prop) [DecidablePred valid] : DecidablePred (Named valid) := fun a =>
  inferInstanceAs (Decidable (∀ step ∈ a.children, step.Named valid))

theorem Named.plain (ha : a.Named Text.Identifier) : a.Named Text.Plain :=
  fun step hstep => (ha step hstep).plain

/--
Two actions are of one variant and have the same fields, those of sequences step by
step: non-terminals of one name, and calls whose variables for the result are related.
-/
inductive Corresponds (bound : Option String → Option String → Prop) : Action → Action → Prop where
  | single {step step' : Step} (hstep : step.Corresponds bound step') :
      Corresponds bound (single step) (single step')
  | seq {steps steps' : List Step} {reads writes reads' writes' : List Resource}
      (hsteps : List.Forall₂ (Step.Corresponds bound) steps steps') :
      Corresponds bound (seq steps reads writes) (seq steps' reads' writes')

def targets (a : Action) : List (Option String) :=
  (a.children.filterMap Step.call?).map Call.target

theorem Corresponds.iff_forall₂_children (h : a.Corresponds bound b) :
    a.Corresponds other b ↔ List.Forall₂ (Step.Corresponds other) a.children b.children := by
  constructor
  · intro hother
    cases hother with
    | single hstep => exact .cons hstep .nil
    | seq hsteps => exact hsteps
  · intro hother
    cases h with
    | single _ => exact .single (List.forall₂_cons.1 hother).1
    | seq _ => exact .seq hother

/-- What corresponds in one way does so in another if the variables of the calls do. -/
theorem Corresponds.iff_forall₂_targets (h : a.Corresponds bound b) :
    a.Corresponds other b ↔ List.Forall₂ other a.targets b.targets := by
  rw [h.iff_forall₂_children, targets, targets]
  exact Step.forall₂_corresponds_iff (h.iff_forall₂_children.1 h)

theorem Corresponds.forall₂_targets (h : a.Corresponds bound b) :
    List.Forall₂ bound a.targets b.targets :=
  h.iff_forall₂_targets.1 h

/-! ### Reading an action back -/

theorem toList_text_seq (steps : List Step) (reads writes : List Resource) :
    (seq steps reads writes).text.toList =
      "Seq(".toList ++ ((Text.bracketed (steps.map Step.text)).toList ++ [')']) := by
  simp only [text, String.toList_append, List.append_assoc]
  rfl

/-- A sequence is not written like a step. -/
theorem text_single_ne_text_seq (step : Step) (steps : List Step) (reads writes : List Resource) :
    (single step).text ≠ (seq steps reads writes).text := by
  intro h
  have hinitials : step.initials <+: (seq steps reads writes).text.toList :=
    h ▸ step.initials_prefix_text
  rw [toList_text_seq] at hinitials
  cases step <;> simp [Step.initials] at hinitials

/-- Two texts are equal exactly if what they show is. -/
theorem text_eq_iff (ha : a.Named Text.Plain) (hb : b.Named Text.Plain) :
    a.text = b.text ↔ a.Corresponds Call.WrittenAlike b := by
  constructor
  · intro h
    cases a with
    | single step =>
      cases b with
      | single step' =>
        have htexts : step.text.toList ++ [] = step'.text.toList ++ [] :=
          congrArg (·.toList ++ []) h
        have hstep := ha step List.mem_cons_self
        have hstep' := hb step' List.mem_cons_self
        exact .single (Step.text_append_inj hstep hstep' htexts).1
      | seq steps reads writes => exact absurd h (text_single_ne_text_seq step steps reads writes)
    | seq steps reads writes =>
      cases b with
      | single step => exact absurd h.symm (text_single_ne_text_seq step steps reads writes)
      | seq steps' reads' writes' =>
        have htexts := congrArg String.toList h
        rw [toList_text_seq, toList_text_seq, ← Step.map_text_shown steps,
          ← Step.map_text_shown steps'] at htexts
        obtain ⟨hshown, -⟩ := Step.members_text.bracketed_append_inj (Step.shown_valid ha)
          (Step.shown_valid hb) (List.append_cancel_left htexts)
        exact .seq (Step.map_shown_eq_iff.1 hshown)
  · rintro (hstep | hsteps)
    · have hshown := Step.shown_eq_iff.2 hstep
      rw [text, text, ← Step.text_shown, hshown, Step.text_shown]
    · have hshown := Step.map_shown_eq_iff.2 hsteps
      rw [text, text, ← Step.map_text_shown, hshown, Step.map_text_shown]

/-- Variables that are written alike are the same, unless one of them is named like no variable. -/
theorem eq_of_forall₂_writtenAlike {targets others : List (Option String)}
    (htargets : some "None" ∉ targets) (hothers : some "None" ∉ others)
    (h : List.Forall₂ Call.WrittenAlike targets others) : targets = others := by
  induction h with
  | nil => rfl
  | @cons target other targets others halike _ ih =>
    rw [List.mem_cons, not_or] at htargets hothers
    rw [ih htargets.2 hothers.2, halike.eq_of_ne htargets.1 hothers.1]

/--
If no name holds a comma or a closing parenthesis, two actions have one text exactly if
they are of one variant and have the same fields, except that a call without a variable for
its result is not told from one whose variable is named `None`.  So actions of one text
have the same fields if and only if their calls have the same variables, and always if
no variable is named `None`.
-/
theorem text_determines_fields (ha : a.Named Text.Plain) (hb : b.Named Text.Plain) :
    (a.text = b.text ↔ a.Corresponds Call.WrittenAlike b) ∧
    (a.text = b.text → (a.Corresponds Eq b ↔ a.targets = b.targets)) ∧
    (some "None" ∉ a.targets → some "None" ∉ b.targets →
      (a.text = b.text ↔ a.Corresponds Eq b)) := by
  have htext := text_eq_iff ha hb
  have hexact : a.text = b.text → (a.Corresponds Eq b ↔ a.targets = b.targets) := by
    intro h
    rw [(htext.1 h).iff_forall₂_targets, List.forall₂_eq_eq_eq]
  refine ⟨htext, hexact, fun hnone hnone' => ⟨fun h => ?_, fun h => ?_⟩⟩
  · exact (hexact h).2 (eq_of_forall₂_writtenAlike hnone hnone' (htext.1 h).forall₂_targets)
  · have hsame : List.Forall₂ Call.WrittenAlike a.targets b.targets :=
      h.forall₂_targets.imp fun _ _ => congrArg (·.getD "None")
    exact htext.2 (h.iff_forall₂_targets.2 hsame)

/-- A call without a variable is written like one whose variable is named `None`. -/
theorem text_hides_unbound_call :
    ¬ ∀ a b : Action, a.Reachable → b.Reachable → a.Named Text.Identifier →
      b.Named Text.Identifier → a.text = b.text → a.Corresponds Eq b := by
  intro hdetermines
  let unbound := single (.call ⟨"f", [0], none, 0⟩ [] [])
  let bound := single (.call ⟨"f", [0], some "None", 0⟩ [] [])
  have hunbound : unbound.Named Text.Identifier := by decide
  have hbound : bound.Named Text.Identifier := by decide
  have htext : unbound.text = bound.text := rfl
  have hsame := hdetermines unbound bound (reachable_single _) (reachable_single _) hunbound hbound
    htext
  have htargets := hsame.forall₂_targets
  rw [List.forall₂_eq_eq_eq] at htargets
  exact absurd htargets (by decide)

/--
The non-terminal of a goal is written like one of the same name, and resources are not
written; whether a call keeps its result shows, if the variable is not named `None`.
-/
theorem text_determines_fields_start :
    let condition := Step.filterFlag "in" "true"
    let first := build [condition, .call ⟨"f", [2, 10], some "x_1", 0⟩ ["r"] [],
      .reduce ⟨.initial "E", 2, 0⟩]
    let second := build [condition, .call ⟨"f", [2, 10], some "x_1", 0⟩ [] ["w"],
      .reduce ⟨.named "Start_E", 2, 0⟩]
    let unbound := build [condition, .call ⟨"f", [2, 10], none, 0⟩ ["r"] [],
      .reduce ⟨.initial "E", 2, 0⟩]
    let misnamed := build [condition, .call ⟨"f", [2, 10], some "None", 0⟩ ["r"] [],
      .reduce ⟨.initial "E", 2, 0⟩]
    first ≠ second ∧ first.text = second.text ∧ first.Corresponds Eq second ∧
      first.text ≠ unbound.text ∧ unbound.text = misnamed.text ∧
      ¬ unbound.Corresponds Eq misnamed := by
  intro condition first second unbound misnamed
  have hfirst : first.Named Text.Identifier := by decide
  have hsecond : second.Named Text.Identifier := by decide
  have hunbound : unbound.Named Text.Identifier := by decide
  have hmisnamed : misnamed.Named Text.Identifier := by decide
  obtain ⟨-, -, hsame⟩ := text_determines_fields hfirst.plain hsecond.plain
  obtain ⟨-, hexact, hother⟩ := text_determines_fields hfirst.plain hunbound.plain
  obtain ⟨-, hhidden, -⟩ := text_determines_fields hunbound.plain hmisnamed.plain
  have htext : first.text = second.text := rfl
  have htext' : unbound.text = misnamed.text := rfl
  refine ⟨by decide, htext, (hsame (by decide) (by decide)).1 htext, ?_, htext', ?_⟩
  · intro h
    have hequal := (hother (by decide) (by decide)).1 h
    exact absurd ((hexact h).1 hequal) (by decide)
  · intro h
    exact absurd ((hhidden htext').1 h) (by decide)

end Action

end EdgeActions
