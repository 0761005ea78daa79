import EdgeActions.Action.Basic
import EdgeActions.Action.Sequence
import EdgeActions.FlagChecker
import EdgeActions.Proofs.OrderAgreement
import Mathlib.Data.List.Perm.Basic

/-!
# Equal actions are interchangeable

Equal steps are the same, or calls that list the same resources in another order, and
equal actions consist of equal steps.  No operation looks at the order of resources:
put into the place of an equal one, an action is decided, shifted, fused and followed
in the same way, and whatever is made of it is equal again.
-/

namespace EdgeActions

/-! ### Related outcomes -/

section Outcomes

variable {ε α β γ δ : Type} {r : α → β → Prop} {s : γ → δ → Prop}

inductive Agree (r : α → β → Prop) : Except ε α → Except ε β → Prop where
  | error (e : ε) : Agree r (.error e) (.error e)
  | ok {x : α} {y : β} (h : r x y) : Agree r (.ok x) (.ok y)

inductive Shifted.Rel (r : α → β → Prop) : Shifted α → Shifted β → Prop where
  | resolved (verdict : Bool) : Rel r (.resolved verdict) (.resolved verdict)
  | continues {x : α} {y : β} (h : r x y) : Rel r (.continues x) (.continues y)

namespace Agree

theorem refl {r : α → α → Prop} (hr : ∀ x, r x x) (outcome : Except ε α) :
    Agree r outcome outcome := by
  cases outcome with
  | error e => exact .error e
  | ok x => exact .ok (hr x)

theorem map {f : α → γ} {g : β → δ} {outcome : Except ε α} {outcome' : Except ε β}
    (h : Agree r outcome outcome') (hmap : ∀ {x y}, r x y → s (f x) (g y)) :
    Agree s (outcome.map f) (outcome'.map g) := by
  cases h with
  | error e => exact .error e
  | ok h => exact .ok (hmap h)

theorem toOption {outcome : Except ε α} {outcome' : Except ε β} (h : Agree r outcome outcome') :
    Option.Rel r outcome.toOption outcome'.toOption := by
  cases h with
  | error e => exact .none
  | ok h => exact .some h

end Agree

namespace Shifted.Rel

theorem refl {r : α → α → Prop} (hr : ∀ x, r x x) (outcome : Shifted α) :
    Rel r outcome outcome := by
  cases outcome with
  | resolved verdict => exact .resolved verdict
  | continues x => exact .continues (hr x)

theorem map {f : α → γ} {g : β → δ} {outcome : Shifted α} {outcome' : Shifted β}
    (h : Rel r outcome outcome') (hmap : ∀ {x y}, r x y → s (f x) (g y)) :
    Rel s (outcome.map f) (outcome'.map g) := by
  cases h with
  | resolved verdict => exact .resolved verdict
  | continues h => exact .continues (hmap h)

end Shifted.Rel

variable {xs : List α} {ys : List β}

theorem map_eq_of_forall₂ {f : α → γ} {g : β → γ} (h : List.Forall₂ r xs ys)
    (hmap : ∀ x y, r x y → f x = g y) : xs.map f = ys.map g := by
  rw [← List.forall₂_eq_eq_eq, List.forall₂_map_left_iff, List.forall₂_map_right_iff]
  exact h.imp hmap

theorem perm_flatMap_of_forall₂ {f : α → List γ} {g : β → List γ} (h : List.Forall₂ r xs ys)
    (hmap : ∀ x y, r x y → (f x).Perm (g y)) : (xs.flatMap f).Perm (ys.flatMap g) := by
  apply List.Perm.flatten_congr
  rw [List.forall₂_map_left_iff, List.forall₂_map_right_iff]
  exact h.imp hmap

theorem rel_head?_of_forall₂ (h : List.Forall₂ r xs ys) : Option.Rel r xs.head? ys.head? := by
  cases h with
  | nil => exact .none
  | cons h _ => exact .some h

theorem rel_getLast?_of_forall₂ (h : List.Forall₂ r xs ys) :
    Option.Rel r xs.getLast? ys.getLast? := by
  rw [← List.head?_reverse, ← List.head?_reverse]
  exact rel_head?_of_forall₂ (List.forall₂_reverse_iff.2 h)

end Outcomes

/-! ### Steps -/

namespace Step

/-- Two steps are the same, or calls that list the same resources in another order. -/
inductive Relisted : Step → Step → Prop where
  | same (step : Step) : Relisted step step
  | call (c : Call) {reads others writes rest : List Resource} (hreads : reads.Perm others)
      (hwrites : writes.Perm rest) : Relisted (.call c reads writes) (.call c others rest)

theorem beq_iff_relisted {a b : Step} : (a == b) = true ↔ Relisted a b := by
  rw [beq_iff]
  constructor
  · rintro ⟨hfields, hreads, hwrites⟩
    cases a with
    | call c reads writes =>
      cases b <;> cases hfields
      exact .call c hreads hwrites
    | _ =>
      cases b <;> cases hfields
      exact .same _
  · intro h
    cases h with
    | same => exact ⟨rfl, .refl _, .refl _⟩
    | call c hreads hwrites => exact ⟨rfl, hreads, hwrites⟩

theorem beq_eq_relisted : (fun a b : Step => (a == b) = true) = Relisted :=
  funext₂ fun _ _ => propext beq_iff_relisted

namespace Relisted

variable {step other : Step}

theorem text (h : Relisted step other) : step.text = other.text := by
  cases h <;> rfl

theorem isCondition (h : Relisted step other) : step.isCondition = other.isCondition := by
  cases h <;> rfl

theorem updatesStack (h : Relisted step other) : step.updatesStack = other.updatesStack := by
  cases h <;> rfl

theorem reads (h : Relisted step other) : step.reads.Perm other.reads := by
  cases h with
  | same => exact .refl _
  | call _ hreads _ => exact hreads

theorem writes (h : Relisted step other) : step.writes.Perm other.writes := by
  cases h with
  | same => exact .refl _
  | call _ _ hwrites => exact hwrites

/-- A shift moves the offset of a call and keeps both of its lists. -/
theorem shift (h : Relisted step other) (shifted : List Symbol) :
    Agree (Shifted.Rel Relisted) (step.shift shifted) (other.shift shifted) := by
  cases h with
  | same => exact .refl (.refl .same) _
  | call c hreads hwrites =>
    simp only [Step.shift]
    cases c.shift shifted.length with
    | error e => exact .error e
    | ok left => exact .ok (.continues (.call left hreads hwrites))

theorem visitStep (h : Relisted step other) (c : FlagChecker) :
    c.visitStep step = c.visitStep other := by
  cases h <;> rfl

end Relisted

end Step

/-- The checker does not look at calls, and so not at the order of their resources. -/
theorem FlagChecker.visitSteps_eq_of_relisted {steps others : List Step}
    (h : List.Forall₂ Step.Relisted steps others) (c : FlagChecker) :
    c.visitSteps steps = c.visitSteps others := by
  induction h generalizing c with
  | nil => rfl
  | cons hstep _ ih => exact visitSteps_cons_congr (hstep.visitStep c) ih

/-! ### Actions -/

namespace Action

/-- Two actions of equal steps that record the same resources, maybe in another order. -/
inductive Relisted : Action → Action → Prop where
  | single {step other : Step} (h : step.Relisted other) : Relisted (single step) (single other)
  | seq {steps others : List Step} {reads reads' writes writes' : List Resource}
      (hsteps : List.Forall₂ Step.Relisted steps others) (hreads : reads.Perm reads')
      (hwrites : writes.Perm writes') : Relisted (seq steps reads writes) (seq others reads' writes')

theorem beq_iff_relisted {a b : Action} : (a == b) = true ↔ Relisted a b := by
  constructor
  · intro h
    cases a with
    | single step =>
      cases b with
      | single other => exact .single (Step.beq_iff_relisted.1 h)
      | seq others _ _ => rw [single_beq_seq] at h; cases h
    | seq steps _ _ =>
      cases b with
      | single other => rw [seq_beq_single] at h; cases h
      | seq others _ _ =>
        obtain ⟨hsteps, hreads, hwrites⟩ := beq_iff.1 h
        rw [sameFields_seq, beq_iff_forall₂, Step.beq_eq_relisted] at hsteps
        exact .seq hsteps hreads hwrites
  · intro h
    cases h with
    | single h => exact Step.beq_iff_relisted.2 h
    | seq hsteps hreads hwrites =>
      refine beq_iff.2 ⟨?_, hreads, hwrites⟩
      rwa [sameFields_seq, beq_iff_forall₂, Step.beq_eq_relisted]

theorem beq_eq_relisted : (fun a b : Action => (a == b) = true) = Relisted :=
  funext₂ fun _ _ => propext beq_iff_relisted

/-- Sequences of equal steps record the same resources. -/
theorem relisted_build {steps others : List Step} (h : List.Forall₂ Step.Relisted steps others) :
    Relisted (build steps) (build others) :=
  .seq h (perm_flatMap_of_forall₂ h fun _ _ hstep => hstep.reads)
    (perm_flatMap_of_forall₂ h fun _ _ hstep => hstep.writes)

/-- The check of equal steps finds the same error at the same place. -/
theorem checkFrom_eq_of_relisted {steps others : List Step}
    (h : List.Forall₂ Step.Relisted steps others) (index : Nat) :
    checkFrom index steps = checkFrom index others := by
  induction h generalizing index with
  | nil => rfl
  | cons hstep hsteps ih =>
    have hnonempty := not_congr (List.length_eq_zero_iff.symm.trans
      (hsteps.length_eq ▸ List.length_eq_zero_iff))
    simp only [checkFrom, hstep.isCondition, hstep.updatesStack, hstep.text, ih, ne_eq, hnonempty]

theorem agree_ofSteps {steps others : List Step} (h : List.Forall₂ Step.Relisted steps others) :
    Agree Relisted (ofSteps steps) (ofSteps others) := by
  have hcheck := checkFrom_eq_of_relisted h 0
  have hbuild := relisted_build h
  cases h with
  | nil => exact .error _
  | cons hstep hsteps =>
    rw [ofSteps, ofSteps, if_neg (List.cons_ne_nil _ _), if_neg (List.cons_ne_nil _ _), hcheck]
    cases checkFrom 0 _ with
    | error e => exact .error e
    | ok => exact .ok hbuild

/-- Equal steps are decided alike, and equal steps are left of them. -/
theorem agree_shiftSteps {steps others : List Step} (h : List.Forall₂ Step.Relisted steps others)
    (shifted : List Symbol) :
    Agree (Shifted.Rel (List.Forall₂ Step.Relisted)) (shiftSteps shifted steps)
      (shiftSteps shifted others) := by
  induction h with
  | nil => exact .ok (.continues .nil)
  | @cons step other steps others hstep _ ih =>
    have hshift := hstep.shift shifted
    rw [shiftSteps, shiftSteps]
    generalize step.shift shifted = outcome, other.shift shifted = outcome' at hshift ⊢
    cases hshift with
    | error e => exact .error e
    | ok hshift =>
      cases hshift with
      | resolved verdict =>
        cases verdict with
        | false => exact .ok (.resolved false)
        | true => exact ih
      | continues hleft => exact ih.map fun hrest => hrest.map fun hrest => .cons hleft hrest

theorem rel_ofRemaining {rest rest' : List Step} (h : List.Forall₂ Step.Relisted rest rest') :
    Shifted.Rel Relisted (ofRemaining rest) (ofRemaining rest') := by
  cases h with
  | nil => exact .resolved true
  | cons hstep hsteps =>
    cases hsteps with
    | nil => exact .continues (.single hstep)
    | cons hnext hsteps => exact .continues (relisted_build (.cons hstep (.cons hnext hsteps)))

namespace Relisted

variable {a a' b b' : Action}

theorem children (h : Relisted a a') : List.Forall₂ Step.Relisted a.children a'.children := by
  cases h with
  | single hstep => exact .cons hstep .nil
  | seq hsteps _ _ => exact hsteps

theorem reads (h : Relisted a a') : a.reads.Perm a'.reads := by
  cases h with
  | single hstep => exact hstep.reads
  | seq _ hreads _ => exact hreads

theorem writes (h : Relisted a a') : a.writes.Perm a'.writes := by
  cases h with
  | single hstep => exact hstep.writes
  | seq _ _ hwrites => exact hwrites

theorem text (h : Relisted a a') : a.text = a'.text := by
  cases h with
  | single hstep => exact hstep.text
  | seq hsteps _ _ =>
    rw [Action.text, Action.text, map_eq_of_forall₂ hsteps fun _ _ hstep => hstep.text]

theorem isCondition (h : Relisted a a') : a.isCondition = a'.isCondition := by
  have hfirst := rel_head?_of_forall₂ h.children
  unfold Action.isCondition
  generalize a.children.head? = first, a'.children.head? = first' at hfirst ⊢
  cases hfirst with
  | none => rfl
  | some hstep => exact hstep.isCondition

theorem updatesStack (h : Relisted a a') : a.updatesStack = a'.updatesStack := by
  have hlast := rel_getLast?_of_forall₂ h.children
  unfold Action.updatesStack
  generalize a.children.getLast? = last, a'.children.getLast? = last' at hlast ⊢
  cases hlast with
  | none => rfl
  | some hstep => exact hstep.updatesStack

theorem condition (h : Relisted a a') : Agree Step.Relisted a.condition a'.condition := by
  have hfirst := rel_head?_of_forall₂ h.children
  unfold Action.condition
  rw [h.text]
  generalize a.children.head? = first, a'.children.head? = first' at hfirst ⊢
  cases hfirst with
  | none => exact .error _
  | some hstep =>
    dsimp only
    rw [hstep.isCondition]
    split
    case isTrue => exact .ok hstep
    case isFalse => exact .error _

theorem reduceWith (h : Relisted a a') : a.reduceWith = a'.reduceWith := by
  have hlast := rel_getLast?_of_forall₂ h.children
  unfold Action.reduceWith
  rw [h.text]
  generalize a.children.getLast? = last, a'.children.getLast? = last' at hlast ⊢
  cases hlast with
  | none => rfl
  | some hstep => cases hstep <;> rfl

theorem shift (h : Relisted a a') (shifted : List Symbol) :
    Agree (Shifted.Rel Relisted) (a.shift shifted) (a'.shift shifted) := by
  cases h with
  | single hstep => exact (hstep.shift shifted).map fun hleft => hleft.map .single
  | seq hsteps _ _ =>
    refine (agree_shiftSteps hsteps shifted).map fun hrest => ?_
    cases hrest with
    | resolved verdict => exact .resolved verdict
    | continues hrest =>
      dsimp only
      rw [hsteps.length_eq, hrest.length_eq]
      split
      case isTrue => exact rel_ofRemaining hrest
      case isFalse => exact .continues (relisted_build hrest)

theorem fuse? (ha : Relisted a a') (hb : Relisted b b') :
    Option.Rel Relisted (a.fuse? b) (a'.fuse? b') :=
  (agree_ofSteps (List.rel_append ha.children hb.children)).toOption

theorem conflictsWith (ha : Relisted a a') (hb : Relisted b b') :
    a.conflictsWith b = a'.conflictsWith b' := by
  -- a conflict is a matter of membership in the lists
  rw [Bool.eq_iff_iff, conflictsWith_iff, conflictsWith_iff]
  simp only [ha.reads.mem_iff, ha.writes.mem_iff, hb.reads.mem_iff, hb.writes.mem_iff]

theorem visit (h : Relisted a a') (c : FlagChecker) : c.visit a = c.visit a' :=
  FlagChecker.visitSteps_eq_of_relisted h.children c

end Relisted

/-! ### Lists of actions -/

/-- A relation that fusion of two actions respects is respected along a chain of actions. -/
theorem forall₂_fuseFrom {r : Action → Action → Prop}
    (hfuse : ∀ {a a' b b'}, r a a' → r b b' → Option.Rel r (a.fuse? b) (a'.fuse? b'))
    {edge edge' : Action} (hedge : r edge edge') {actions others : List Action}
    (h : List.Forall₂ r actions others) :
    List.Forall₂ r (fuseFrom edge actions) (fuseFrom edge' others) := by
  induction h generalizing edge edge' with
  | nil => exact .cons hedge .nil
  | @cons next next' actions others hnext _ ih =>
    have hfused := hfuse hedge hnext
    rw [fuseFrom, fuseFrom]
    generalize edge.fuse? next = fused, edge'.fuse? next' = fused' at hfused ⊢
    -- the edges that are being built are finished together or grow together
    cases hfused with
    | none => exact .cons hedge (ih hnext)
    | some hfused => exact ih hfused

theorem forall₂_fuseEdges {r : Action → Action → Prop}
    (hfuse : ∀ {a a' b b'}, r a a' → r b b' → Option.Rel r (a.fuse? b) (a'.fuse? b'))
    {actions others : List Action} (h : List.Forall₂ r actions others) :
    List.Forall₂ r (fuseEdges actions) (fuseEdges others) := by
  cases h with
  | nil => exact .nil
  | cons hfirst hothers => exact forall₂_fuseFrom hfuse hfirst hothers

theorem agree_sequence {actions others : List Action} (h : List.Forall₂ Relisted actions others) :
    Agree Relisted (sequence actions) (sequence others) :=
  agree_ofSteps (List.rel_flatMap h fun _ _ ha => ha.children)

/--
Equal actions have one text, are conditions and stack updates alike, hand out equal
parts or the same error, and are followed by the checker in the same way.  A shift
overflows for both, decides both alike, or leaves equal actions; they fuse with equal
actions to equal ones or not at all, and conflict with the same ones; and sequences and
edges made from lists of equal actions are equal.
-/
theorem equality_congruence :
    (∀ a a' : Action, (a == a') = true →
      a.text = a'.text ∧
      a.isCondition = a'.isCondition ∧
      a.updatesStack = a'.updatesStack ∧
      Agree (· == ·) a.condition a'.condition ∧
      a.reduceWith = a'.reduceWith ∧
      List.Forall₂ (· == ·) a.children a'.children ∧
      (∀ shifted, Agree (Shifted.Rel (· == ·)) (a.shift shifted) (a'.shift shifted)) ∧
      ∀ c : FlagChecker, c.visit a = c.visit a') ∧
    (∀ a a' b b' : Action, (a == a') = true → (b == b') = true →
      Option.Rel (· == ·) (a.fuse? b) (a'.fuse? b') ∧
      a.conflictsWith b = a'.conflictsWith b') ∧
    ∀ actions others : List Action, List.Forall₂ (· == ·) actions others →
      Agree (· == ·) (sequence actions) (sequence others) ∧
      List.Forall₂ (· == ·) (fuseEdges actions) (fuseEdges others) := by
  rw [beq_eq_relisted, Step.beq_eq_relisted]
  refine ⟨fun a a' heq => ?_, fun a a' b b' ha hb => ?_, fun actions others hactions => ?_⟩
  · have h := beq_iff_relisted.1 heq
    exact ⟨h.text, h.isCondition, h.updatesStack, h.condition, h.reduceWith, h.children,
      h.shift, h.visit⟩
  · have ha := beq_iff_relisted.1 ha
    have hb := beq_iff_relisted.1 hb
    exact ⟨ha.fuse? hb, ha.conflictsWith hb⟩
  · exact ⟨agree_sequence hactions, forall₂_fuseEdges Relisted.fuse? hactions⟩

/-- Two sequences whose calls list their reads in another order, before two such calls. -/
theorem equality_congruence_relisted :
    let assertion : Lookahead :=
      ⟨.ofList [[.terminal "a"], [.terminal "b", .terminal "c"]], true⟩
    let first := build [.lookahead assertion, .call ⟨"f", [0], none, 0⟩ ["x", "y", "x"] ["z"]]
    let second := build [.lookahead assertion, .call ⟨"f", [0], none, 0⟩ ["y", "x", "x"] ["z"]]
    let left := single (.call ⟨"f", [0], none, 1⟩ ["x", "y", "x"] ["z"])
    let left' := single (.call ⟨"f", [0], none, 1⟩ ["y", "x", "x"] ["z"])
    let next := single (.call ⟨"g", [], none, 0⟩ [] ["v", "w"])
    let next' := single (.call ⟨"g", [], none, 0⟩ [] ["w", "v"])
    first ≠ second ∧ (first == second) = true ∧ (next == next') = true ∧
      first.text = second.text ∧
      first.shift [.terminal "a"] = .ok (.continues left) ∧
      second.shift [.terminal "a"] = .ok (.continues left') ∧
      left ≠ left' ∧ (left == left') = true ∧
      first.fuse? next ≠ none ∧
      Option.Rel (· == ·) (first.fuse? next) (second.fuse? next') ∧
      List.Forall₂ (· == ·) (fuseEdges [next, first]) (fuseEdges [next', second]) := by
  intro assertion first second left left' next next'
  have hreads : ["x", "y", "x"].Perm ["y", "x", "x"] := .swap _ _ _
  have hfirst : (first == second) = true :=
    beq_iff_relisted.2 (relisted_build (.cons (.same _) (.cons (.call _ hreads (.refl _)) .nil)))
  have hnext : (next == next') = true :=
    beq_iff_relisted.2 (.single (.call _ (.refl _) (.swap _ _ _)))
  have hshift : first.shift [.terminal "a"] = .ok (.continues left) := by decide
  have hshift' : second.shift [.terminal "a"] = .ok (.continues left') := by decide
  obtain ⟨hsame, hpair, hlists⟩ := equality_congruence
  obtain ⟨htext, -, -, -, -, -, hshifts, -⟩ := hsame first second hfirst
  have hleft : (left == left') = true := by
    have hshifted := hshifts [.terminal "a"]
    rw [hshift, hshift'] at hshifted
    cases hshifted with
    | ok hshifted =>
      cases hshifted with
      | continues hleft => exact hleft
  refine ⟨by decide, hfirst, hnext, htext, hshift, hshift', by decide, hleft, by decide,
    (hpair _ _ _ _ hfirst hnext).1, ?_⟩
  exact (hlists _ _ (.cons hnext (.cons hfirst .nil))).2

end Action

end EdgeActions
