import EdgeActions.Proofs.StackView
import Mathlib.Data.List.Infix
import Mathlib.Data.List.Permutation

/-!
# Balanced flags

What the checker decides, in terms of pushes and pops alone.  A path is balanced
when for each flag the pushes and pops are well-bracketed: no prefix pops more than
it pushes, and the whole pops as much as it pushes.  In between, the stack of a flag
holds the values of the pushes that bracket matching leaves unmatched.
-/

namespace EdgeActions

namespace Step

def isPush (flag : String) : Step → Bool
  | pushFlag other _ => other == flag
  | _ => false

def isPop (flag : String) : Step → Bool
  | popFlag other => other == flag
  | _ => false

def pushes (flag : String) (steps : List Step) : Nat :=
  steps.countP (isPush flag)

def pops (flag : String) (steps : List Step) : Nat :=
  steps.countP (isPop flag)

variable {strict : Bool} {flag value : String} {step : Step} {front steps : List Step}
variable {stack left : List String}

@[simp]
theorem pushes_nil (flag : String) : pushes flag [] = 0 := rfl

@[simp]
theorem pops_nil (flag : String) : pops flag [] = 0 := rfl

@[simp]
theorem pushes_append (flag : String) (front back : List Step) :
    pushes flag (front ++ back) = pushes flag front + pushes flag back :=
  List.countP_append

@[simp]
theorem pops_append (flag : String) (front back : List Step) :
    pops flag (front ++ back) = pops flag front + pops flag back :=
  List.countP_append

@[simp]
theorem pushes_cons (flag : String) (step : Step) (steps : List Step) :
    pushes flag (step :: steps) = pushes flag steps + if step.isPush flag then 1 else 0 :=
  List.countP_cons

@[simp]
theorem pops_cons (flag : String) (step : Step) (steps : List Step) :
    pops flag (step :: steps) = pops flag steps + if step.isPop flag then 1 else 0 :=
  List.countP_cons

@[simp]
theorem isPush_pushFlag (flag value : String) : (pushFlag flag value).isPush flag = true :=
  beq_self_eq_true flag

@[simp]
theorem isPop_popFlag (flag : String) : (popFlag flag).isPop flag = true :=
  beq_self_eq_true flag

@[simp]
theorem isPop_pushFlag (flag other value : String) :
    (pushFlag other value).isPop flag = false := rfl

@[simp]
theorem isPush_popFlag (flag other : String) : (popFlag other).isPush flag = false := rfl

theorem isPop_iff : step.isPop flag = true ↔ step = popFlag flag := by
  cases step <;> simp [isPop]

/-- A step that is not reported pushes the flag, pops it, or leaves its stack. -/
theorem onStack_cases (h : step.onStack strict flag stack = some left) :
    (∃ value, step = .pushFlag flag value ∧ left = value :: stack) ∨
    (step = .popFlag flag ∧ ∃ value, stack = value :: left) ∨
    (step.isPush flag = false ∧ step.isPop flag = false ∧ left = stack) := by
  cases step with
  | pushFlag other value =>
    cases h
    by_cases hsame : other = flag
    · subst hsame
      exact Or.inl ⟨value, rfl, if_pos rfl⟩
    · exact Or.inr (Or.inr ⟨beq_false_of_ne hsame, rfl, if_neg hsame⟩)
  | popFlag other =>
    rw [onStack] at h
    split at h
    case isTrue hsame =>
      subst hsame
      cases stack with
      | nil => cases h
      | cons value stack => cases h; exact Or.inr (Or.inl ⟨rfl, value, rfl⟩)
    case isFalse hsame =>
      cases h
      exact Or.inr (Or.inr ⟨rfl, beq_false_of_ne hsame, rfl⟩)
  | filterFlag other value =>
    rw [onStack] at h
    split at h
    case isTrue => cases h
    case isFalse => cases h; exact Or.inr (Or.inr ⟨rfl, rfl, rfl⟩)
  | reduce => cases h; exact Or.inr (Or.inr ⟨rfl, rfl, rfl⟩)
  | lookahead => cases h; exact Or.inr (Or.inr ⟨rfl, rfl, rfl⟩)
  | call => cases h; exact Or.inr (Or.inr ⟨rfl, rfl, rfl⟩)

/-- Each push makes the stack longer by one, each pop shorter. -/
theorem length_of_runOnStack (h : runOnStack strict flag steps stack = some left) :
    left.length + pops flag steps = stack.length + pushes flag steps := by
  induction steps generalizing stack with
  | nil =>
    cases h
    rfl
  | cons step steps ih =>
    rw [runOnStack, Option.bind_eq_some_iff] at h
    obtain ⟨next, hstep, hsteps⟩ := h
    have hlength := ih hsteps
    rw [pushes_cons, pops_cons]
    obtain ⟨value, rfl, rfl⟩ | ⟨rfl, value, rfl⟩ | ⟨hpush, hpop, rfl⟩ := onStack_cases hstep
    · simp at hlength ⊢
      omega
    · simp at hlength ⊢
      omega
    · simp [hpush, hpop, hlength]

/-! ### Bracket matching -/

/-- No prefix of the steps pops the flag more often than it pushes it. -/
def Covered (flag : String) (steps : List Step) : Prop :=
  ∀ front, front <+: steps → pops flag front ≤ pushes flag front

/-- The pushes and pops of the flag are brackets that match each other. -/
def Balanced (flag : String) (steps : List Step) : Prop :=
  Covered flag steps ∧ pushes flag steps = pops flag steps

/-- None of the later steps is the pop that matches a push of the flag before them. -/
def Unmatched (flag : String) (later : List Step) : Prop :=
  ∀ between rest, later = between ++ .popFlag flag :: rest → ¬ Balanced flag between

theorem Covered.of_prefix (h : Covered flag steps) (hfront : front <+: steps) :
    Covered flag front :=
  fun earlier hearlier => h earlier (hearlier.trans hfront)

theorem covered_nil (flag : String) : Covered flag [] := by
  intro front hfront
  rw [List.prefix_nil.1 hfront]
  exact Nat.le_refl 0

theorem covered_concat_iff :
    Covered flag (steps ++ [step]) ↔
      Covered flag steps ∧ pops flag (steps ++ [step]) ≤ pushes flag (steps ++ [step]) := by
  constructor
  · intro h
    exact ⟨h.of_prefix (List.prefix_append steps [step]), h _ (List.prefix_refl _)⟩
  · rintro ⟨hsteps, hwhole⟩ front hfront
    rcases List.prefix_concat_iff.1 hfront with rfl | hfront
    · exact hwhole
    · exact hsteps front hfront

/-- The first pop that is not covered matches a push before the steps. -/
theorem unmatched_iff_covered : Unmatched flag steps ↔ Covered flag steps := by
  constructor
  · intro h
    induction steps using List.reverseRecOn with
    | nil => exact covered_nil flag
    | append_singleton steps step ih =>
      have hsteps : Covered flag steps := ih fun between rest heq =>
        h between (rest ++ [step]) (by rw [heq, List.append_assoc, List.cons_append])
      refine covered_concat_iff.2 ⟨hsteps, Nat.le_of_not_lt fun hmore => ?_⟩
      have hbefore := hsteps steps (List.prefix_refl steps)
      rw [pushes_append, pops_append, pushes_cons, pops_cons] at hmore
      cases hpop : step.isPop flag with
      | false => simp [hpop] at hmore; omega
      | true =>
        obtain rfl := isPop_iff.1 hpop
        simp at hmore
        exact h steps [] rfl ⟨hsteps, by omega⟩
  · rintro h between rest rfl ⟨-, heven⟩
    have hcovered := h (between ++ [.popFlag flag]) ⟨rest, by simp⟩
    have hpops : pops flag (between ++ [.popFlag flag]) = pops flag between + 1 := by simp
    have hpushes : pushes flag (between ++ [.popFlag flag]) = pushes flag between := by simp
    omega

/-- Balanced steps leave none of their pushes unmatched. -/
theorem Balanced.not_unmatched {front later : List Step}
    (h : Balanced flag (front ++ .pushFlag flag value :: later)) : ¬ Unmatched flag later := by
  obtain ⟨hcovered, heven⟩ := h
  intro hunmatched
  have hlater := unmatched_iff_covered.1 hunmatched later (List.prefix_refl later)
  have hfront := hcovered front (List.prefix_append front _)
  simp at heven
  omega

/-! ### What is on the stack -/

theorem runOnStack_concat (steps : List Step) (step : Step) (stack : List String) :
    runOnStack strict flag (steps ++ [step]) stack =
      (runOnStack strict flag steps stack).bind (step.onStack strict flag) := by
  rw [runOnStack_append]
  refine Option.bind_congr fun next _ => ?_
  rw [runOnStack]
  exact Option.bind_fun_some _

/-- Covered steps only work on what they pushed themselves. -/
theorem exists_append_of_covered (hcovered : Covered flag steps)
    (h : runOnStack strict flag steps stack = some left) : ∃ above, left = above ++ stack := by
  induction steps using List.reverseRecOn generalizing left with
  | nil =>
    cases h
    exact ⟨[], rfl⟩
  | append_singleton steps step ih =>
    have hlength := length_of_runOnStack h
    have hwhole := hcovered _ (List.prefix_refl _)
    rw [runOnStack_concat, Option.bind_eq_some_iff] at h
    obtain ⟨next, hsteps, hstep⟩ := h
    obtain ⟨above, rfl⟩ := ih (covered_concat_iff.1 hcovered).1 hsteps
    obtain ⟨value, rfl, rfl⟩ | ⟨rfl, value, hnext⟩ | ⟨-, -, rfl⟩ := onStack_cases hstep
    · exact ⟨value :: above, rfl⟩
    · cases above with
      | nil =>
        -- the pop would take a value that was there before the steps
        have hshorter := congrArg List.length hnext
        simp at hshorter hlength hwhole
        omega
      | cons top above => exact ⟨above, (List.cons.inj hnext).2.symm⟩
    · exact ⟨above, rfl⟩

/-- A value on the stack that was not there before is that of a push that stays unmatched. -/
theorem exists_push_of_runOnStack (above below : List String)
    (h : runOnStack strict flag steps stack = some (above ++ value :: below))
    (hbelow : stack.length ≤ below.length) :
    ∃ front later, steps = front ++ .pushFlag flag value :: later ∧ Covered flag later ∧
      pushes flag later = pops flag later + above.length := by
  induction steps using List.reverseRecOn generalizing above with
  | nil =>
    have hlength := congrArg List.length (Option.some.inj h)
    simp at hlength
    omega
  | append_singleton steps step ih =>
    rw [runOnStack_concat, Option.bind_eq_some_iff] at h
    obtain ⟨next, hsteps, hstep⟩ := h
    obtain ⟨pushed, rfl, hnext⟩ | ⟨rfl, popped, rfl⟩ | ⟨hpush, hpop, rfl⟩ := onStack_cases hstep
    · cases above with
      | nil =>
        obtain ⟨rfl, rfl⟩ := List.cons.inj hnext
        exact ⟨steps, [], rfl, covered_nil flag, rfl⟩
      | cons top above =>
        obtain ⟨rfl, rfl⟩ := List.cons.inj hnext
        obtain ⟨front, later, rfl, hcovered, hcount⟩ := ih above hsteps
        refine ⟨front, later ++ [.pushFlag flag top], by simp, ?_, ?_⟩
        · exact covered_concat_iff.2 ⟨hcovered, by simp; omega⟩
        · simp
          omega
    · obtain ⟨front, later, rfl, hcovered, hcount⟩ := ih (popped :: above) hsteps
      rw [List.length_cons] at hcount
      refine ⟨front, later ++ [.popFlag flag], by simp, ?_, ?_⟩
      · exact covered_concat_iff.2 ⟨hcovered, by simp; omega⟩
      · simp
        omega
    · obtain ⟨front, later, rfl, hcovered, hcount⟩ := ih above hsteps
      refine ⟨front, later ++ [step], by simp, ?_, ?_⟩
      · exact covered_concat_iff.2 ⟨hcovered, by simp [hpush, hpop]; omega⟩
      · simp [hpush, hpop, hcount]

/-- The top of the stack is the value of the last push that bracket matching leaves unmatched. -/
theorem head?_of_runOnStack (h : runOnStack strict flag steps [] = some left) :
    left.head? = some value ↔
      ∃ front later, steps = front ++ .pushFlag flag value :: later ∧ Unmatched flag later ∧
        ∀ front' value' later', later = front' ++ .pushFlag flag value' :: later' →
          ¬ Unmatched flag later' := by
  rw [List.head?_eq_some_iff]
  constructor
  · rintro ⟨below, rfl⟩
    obtain ⟨front, later, rfl, hcovered, heven⟩ :=
      exists_push_of_runOnStack [] below h (Nat.zero_le _)
    refine ⟨front, later, rfl, unmatched_iff_covered.2 hcovered, ?_⟩
    rintro front' value' later' rfl
    exact Balanced.not_unmatched ⟨hcovered, heven⟩
  · rintro ⟨front, later, rfl, hunmatched, hlast⟩
    rw [runOnStack_append, Option.bind_eq_some_iff] at h
    obtain ⟨below, -, hpush⟩ := h
    have hlater : runOnStack strict flag later (value :: below) = some left := by
      rw [runOnStack, onStack, if_pos rfl] at hpush
      exact hpush
    obtain ⟨above, rfl⟩ := exists_append_of_covered (unmatched_iff_covered.1 hunmatched) hlater
    cases above with
    | nil => exact ⟨below, rfl⟩
    | cons top above =>
      -- a value above would be that of a later push that is unmatched
      obtain ⟨front', later', heq, hcovered, -⟩ :=
        exists_push_of_runOnStack [] (above ++ value :: below) hlater (by simp)
      exact absurd (unmatched_iff_covered.2 hcovered) (hlast front' top later' heq)

end Step

namespace FlagChecker

open Step (pushes pops runOnStack Covered Unmatched)

variable {c : FlagChecker} {strict : Bool} {front steps : List Step} {step : Step} {e : Error}

/-! ### Violations -/

/-- A step that pops what was not pushed before it or, strictly, filters what is not pushed. -/
inductive Violates (strict : Bool) (front : List Step) : Step → Error → Prop where
  | pop {flag : String} (h : pushes flag (front ++ [.popFlag flag]) <
      pops flag (front ++ [.popFlag flag])) :
      Violates strict front (.popFlag flag) (.unbalancedPop flag)
  | filter {flag value : String} (hstrict : strict = true)
      (h : pushes flag front ≤ pops flag front) :
      Violates strict front (.filterFlag flag value) (.filterUnpushed flag)

/-- After steps that succeed, the depth of a flag is the number of its pushes less its pops. -/
theorem depth_of_visitSteps (h : (start strict).visitSteps steps = (c, .ok ())) (flag : String) :
    c.flags.depth flag + pops flag steps = pushes flag steps := by
  have hlength := Step.length_of_runOnStack ((runOnStack_of_visitSteps h).2 flag)
  rwa [start, FlagStacks.stack_empty, List.length_nil, Nat.zero_add] at hlength

theorem visitStep_eq_error_iff_violates (h : (start strict).visitSteps front = (c, .ok ())) :
    c.visitStep step = .error e ↔ Violates strict front step e := by
  have hmode : c.strict = strict := (runOnStack_of_visitSteps h).1
  have hempty : ∀ flag, c.flags.stack flag = [] ↔ pushes flag front ≤ pops flag front := by
    intro flag
    have hdepth := depth_of_visitSteps h flag
    rw [← FlagStacks.depth_eq_zero_iff]
    omega
  rw [visitStep_eq_error_iff, hmode]
  constructor
  · rintro ⟨flag, hstack, ⟨rfl, rfl⟩ | ⟨hstrict, ⟨value, rfl⟩, rfl⟩⟩
    · have hcount := (hempty flag).1 hstack
      exact .pop (by simp; omega)
    · exact .filter hstrict ((hempty flag).1 hstack)
  · rintro (hcount | ⟨hstrict, hcount⟩)
    · refine ⟨_, (hempty _).2 ?_, Or.inl ⟨rfl, rfl⟩⟩
      simp at hcount
      omega
    · exact ⟨_, (hempty _).2 hcount, Or.inr ⟨hstrict, ⟨_, rfl⟩, rfl⟩⟩

/-- Steps succeed exactly when none of them violates a condition on those before it. -/
theorem visitSteps_ok_iff_not_violates :
    (∃ next, (start strict).visitSteps steps = (next, .ok ())) ↔
      ∀ front step e, front ++ [step] <+: steps → ¬ Violates strict front step e := by
  constructor
  · rintro ⟨next, h⟩ front step e ⟨back, rfl⟩ hviolates
    rw [List.append_assoc, List.singleton_append] at h
    rcases hfront : (start strict).visitSteps front with ⟨middle, other | _⟩
    · rw [visitSteps_append, hfront] at h
      cases h
    · have hstep := (visitStep_eq_error_iff_violates hfront).2 hviolates
      rw [visitSteps_eq_error_iff.2 ⟨front, step, back, rfl, hfront, hstep⟩] at h
      cases h
  · intro h
    rcases hvisit : (start strict).visitSteps steps with ⟨next, e | _⟩
    · obtain ⟨front, step, back, rfl, hfront, hstep⟩ := visitSteps_eq_error_iff.1 hvisit
      exact absurd ((visitStep_eq_error_iff_violates hfront).1 hstep)
        (h front step e ⟨back, by simp⟩)
    · exact ⟨next, rfl⟩

/-- The error of steps is that of the earliest violation. -/
theorem visitSteps_error_iff_violates :
    (∃ stopped, (start strict).visitSteps steps = (stopped, .error e)) ↔
      ∃ front step back, steps = front ++ step :: back ∧ Violates strict front step e ∧
        ∀ front' step' e', front' ++ [step'] <+: front → ¬ Violates strict front' step' e' := by
  constructor
  · rintro ⟨stopped, h⟩
    obtain ⟨front, step, back, rfl, hfront, hstep⟩ := visitSteps_eq_error_iff.1 h
    exact ⟨front, step, back, rfl, (visitStep_eq_error_iff_violates hfront).1 hstep,
      visitSteps_ok_iff_not_violates.1 ⟨stopped, hfront⟩⟩
  · rintro ⟨front, step, back, rfl, hviolates, hearlier⟩
    obtain ⟨stopped, hfront⟩ := visitSteps_ok_iff_not_violates.2 hearlier
    exact ⟨stopped, visitSteps_eq_error_iff.2 ⟨front, step, back, rfl, hfront,
      (visitStep_eq_error_iff_violates hfront).2 hviolates⟩⟩

/-- No step violates a condition exactly when all prefixes are covered and all filters pushed. -/
theorem forall_not_violates_iff :
    (∀ front step e, front ++ [step] <+: steps → ¬ Violates strict front step e) ↔
      (∀ flag, Covered flag steps) ∧
        (strict = true → ∀ flag value front, front ++ [.filterFlag flag value] <+: steps →
          pops flag front < pushes flag front) := by
  constructor
  · intro h
    refine ⟨fun flag => Step.unmatched_iff_covered.1 ?_, fun hstrict flag value front hfront => ?_⟩
    · rintro between rest rfl ⟨-, heven⟩
      exact h between (.popFlag flag) _ ⟨rest, by simp⟩ (.pop (by simp [heven]))
    · exact Nat.lt_of_not_le fun hfew => h front _ _ hfront (.filter hstrict hfew)
  · rintro ⟨hcovered, hfilters⟩ front step e hfront (hfew | ⟨hstrict, hfew⟩)
    · exact Nat.not_lt_of_le (hcovered _ _ hfront) hfew
    · exact Nat.not_lt_of_le hfew (hfilters hstrict _ _ front hfront)

/-! ### Paths -/

theorem stack_eq_nil_iff (h : (start strict).visitSteps steps = (c, .ok ())) {flag : String} :
    c.flags.stack flag = [] ↔ pushes flag steps = pops flag steps := by
  have hdepth := depth_of_visitSteps h flag
  rw [← FlagStacks.depth_eq_zero_iff]
  omega

theorem stack_ne_nil_iff (h : (start strict).visitSteps steps = (c, .ok ())) {flag : String} :
    c.flags.stack flag ≠ [] ↔ pops flag steps < pushes flag steps := by
  have hdepth := depth_of_visitSteps h flag
  rw [ne_eq, ← FlagStacks.depth_eq_zero_iff]
  omega

variable {path : List Action}

theorem checkPath_eq_ok_iff_balanced :
    checkPath path strict = .ok () ↔
      (∀ front step e, front ++ [step] <+: path.flatMap Action.children →
        ¬ Violates strict front step e) ∧
      ∀ flag, pushes flag (path.flatMap Action.children) =
        pops flag (path.flatMap Action.children) := by
  rw [← visitSteps_ok_iff_not_violates, checkPath_eq_visitSteps]
  rcases hvisit : (start strict).visitSteps (path.flatMap Action.children) with ⟨c, e | _⟩
  · exact iff_of_false nofun nofun
  · change c.finish = .ok () ↔ _
    rw [finish_eq_ok_iff, and_iff_right ⟨c, rfl⟩]
    exact forall_congr' fun flag => stack_eq_nil_iff hvisit

theorem checkPath_eq_error_iff :
    checkPath path strict = .error e ↔
      (∃ front step back, path.flatMap Action.children = front ++ step :: back ∧
        Violates strict front step e ∧
        ∀ front' step' e', front' ++ [step'] <+: front → ¬ Violates strict front' step' e') ∨
      ((∀ front step e', front ++ [step] <+: path.flatMap Action.children →
        ¬ Violates strict front step e') ∧
        ∃ flags, e = .unpoppedFlags flags ∧ flags ≠ [] ∧ flags.Pairwise (· < ·) ∧
          ∀ flag, flag ∈ flags ↔ pops flag (path.flatMap Action.children) <
            pushes flag (path.flatMap Action.children)) := by
  rw [← visitSteps_error_iff_violates, ← visitSteps_ok_iff_not_violates, checkPath_eq_visitSteps]
  rcases hvisit : (start strict).visitSteps (path.flatMap Action.children) with ⟨c, first | _⟩
  · constructor
    · intro h
      cases h
      exact Or.inl ⟨c, rfl⟩
    · rintro (⟨stopped, h⟩ | ⟨⟨next, h⟩, -⟩)
      · cases h
        rfl
      · cases h
  · change c.finish = .error e ↔ _
    simp only [finish_eq_error_iff, stack_ne_nil_iff hvisit]
    constructor
    · exact fun hopen => Or.inr ⟨⟨c, rfl⟩, hopen⟩
    · rintro (⟨stopped, h⟩ | ⟨-, hopen⟩)
      · cases h
      · exact hopen

/--
A path is accepted exactly when the pushes and pops of each flag are well-bracketed and,
strictly, every filter stands between a push and its pop.  Otherwise the error is that of
the earliest step that violates a condition, or else names the flags that are pushed more
often than popped, in increasing order.  After visits that succeed, the depth of a flag is
the number of its pushes less its pops, and on top is the value of the last push that
bracket matching leaves unmatched.
-/
theorem checkPath_decides_balance (path : List Action) (strict : Bool) :
    let steps := path.flatMap Action.children
    (checkPath path strict = .ok () ↔
      (∀ flag front, front <+: steps → pops flag front ≤ pushes flag front) ∧
      (∀ flag, pushes flag steps = pops flag steps) ∧
      (strict = true → ∀ flag value front, front ++ [.filterFlag flag value] <+: steps →
        pops flag front < pushes flag front)) ∧
    (∀ e, checkPath path strict = .error e ↔
      (∃ front step back, steps = front ++ step :: back ∧ Violates strict front step e ∧
        ∀ front' step' e', front' ++ [step'] <+: front → ¬ Violates strict front' step' e') ∨
      ((∀ front step e', front ++ [step] <+: steps → ¬ Violates strict front step e') ∧
        ∃ flags, e = .unpoppedFlags flags ∧ flags ≠ [] ∧ flags.Pairwise (· < ·) ∧
          ∀ flag, flag ∈ flags ↔ pops flag steps < pushes flag steps)) ∧
    (∀ c, (start strict).visitPath path = (c, .ok ()) → ∀ flag,
      c.flags.depth flag + pops flag steps = pushes flag steps ∧
      ∀ value, c.flags.top? flag = some value ↔
        ∃ front later, steps = front ++ .pushFlag flag value :: later ∧ Unmatched flag later ∧
          ∀ front' value' later', later = front' ++ .pushFlag flag value' :: later' →
            ¬ Unmatched flag later') := by
  intro steps
  refine ⟨?_, fun e => checkPath_eq_error_iff, fun c hvisit flag => ?_⟩
  · rw [checkPath_eq_ok_iff_balanced, forall_not_violates_iff, and_assoc]
    exact and_congr_right fun _ => and_comm
  · rw [visitPath_eq_visitSteps] at hvisit
    exact ⟨depth_of_visitSteps hvisit flag, fun value =>
      Step.head?_of_runOnStack ((runOnStack_of_visitSteps hvisit).2 flag)⟩

/-- The first of two pushes stays on the stack, and another flag stays open beside it. -/
theorem checkPath_decides_balance_open :
    let path := [Action.single (.pushFlag "yield" "z"),
      .build [.pushFlag "in" "x", .pushFlag "in" "y"],
      .build [.filterFlag "in" "y", .popFlag "in", .reduce ⟨.named "E", 1, 0⟩]]
    ∃ c, (start true).visitPath path = (c, .ok ()) ∧ c.flags.depth "in" = 1 ∧
      (∃ front later, path.flatMap Action.children = front ++ .pushFlag "in" "x" :: later ∧
        Unmatched "in" later) ∧
      checkPath path true = .error (.unpoppedFlags ["in", "yield"]) ∧
      pops "yield" (path.flatMap Action.children) < pushes "yield" (path.flatMap Action.children) := by
  intro path
  have hvisit : (start true).visitPath path =
      (⟨⟨[("in", "x"), ("yield", "z")]⟩, true⟩, .ok ()) := by decide
  have hopen : checkPath path true = .error (.unpoppedFlags ["in", "yield"]) := by cbv
  obtain ⟨-, herror, hvisits⟩ := checkPath_decides_balance path true
  obtain ⟨hdepth, htop⟩ := hvisits _ hvisit "in"
  obtain ⟨front, later, hsteps, hunmatched, -⟩ := (htop "x").1 (by decide)
  have hcounts : pushes "in" (path.flatMap Action.children) =
      1 + pops "in" (path.flatMap Action.children) := rfl
  refine ⟨_, hvisit, Nat.add_right_cancel (hdepth.trans hcounts),
    ⟨front, later, hsteps, hunmatched⟩, hopen, ?_⟩
  rcases (herror _).1 hopen with
    ⟨_, _, _, -, hviolates, -⟩ | ⟨-, flags, hflags, -, -, hmem⟩
  · cases hviolates
  · cases hflags
    exact (hmem "yield").1 (by decide)

end FlagChecker

end EdgeActions
