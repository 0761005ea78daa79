import EdgeActions.Action.Sequence

/-!
# The first violation

Building a sequence is refused for one step: the first one, in the order of the joint
steps, that stands in a place where it may not.  `Misplaced` says which steps these are
and what is reported about each, by the kind of the step and its position alone; the
check, which goes through the steps once, finds the first of them.
-/

namespace EdgeActions.Action

/-- A step at a position where it may not be, and what is reported about it. -/
inductive Misplaced (steps : List Step) (index : Nat) : Error → Prop where
  | lookahead {assertion : Lookahead} (hstep : steps[index]? = some (.lookahead assertion))
      (hlater : 0 < index) :
      Misplaced steps index (.conditionNotFirst index (Step.lookahead assertion).text)
  | filterFlag {flag value : String} (hstep : steps[index]? = some (.filterFlag flag value))
      (hlater : 0 < index) :
      Misplaced steps index (.conditionNotFirst index (Step.filterFlag flag value).text)
  | reduce {reduction : Reduction} (hstep : steps[index]? = some (.reduce reduction))
      (hearlier : index + 1 < steps.length) :
      Misplaced steps index (.stackUpdateNotLast index (Step.reduce reduction).text)

variable {front steps : List Step} {step : Step} {index : Nat} {e : Error}

/-- What is reported about a step follows from the two rules. -/
theorem misplaced_iff (hstep : steps[index]? = some step) :
    Misplaced steps index e ↔
      (0 < index ∧ step.isCondition = true ∧ e = .conditionNotFirst index step.text) ∨
        (index + 1 < steps.length ∧ step.updatesStack = true ∧
          e = .stackUpdateNotLast index step.text) := by
  constructor
  · rintro (⟨hother, hlater⟩ | ⟨hother, hlater⟩ | ⟨hother, hearlier⟩)
    all_goals cases Option.some.inj (hstep.symm.trans hother)
    · exact Or.inl ⟨hlater, rfl, rfl⟩
    · exact Or.inl ⟨hlater, rfl, rfl⟩
    · exact Or.inr ⟨hearlier, rfl, rfl⟩
  · rintro (⟨hlater, hcondition, rfl⟩ | ⟨hearlier, hupdate, rfl⟩)
    · cases step with
      | lookahead assertion => exact .lookahead hstep hlater
      | filterFlag flag value => exact .filterFlag hstep hlater
      | reduce | pushFlag | popFlag | call => cases hcondition
    · cases step with
      | reduce reduction => exact .reduce hstep hearlier
      | lookahead | filterFlag | pushFlag | popFlag | call => cases hupdate

theorem Misplaced.lt_length (h : Misplaced steps index e) : index < steps.length := by
  rcases h with hstep | hstep | hstep
  all_goals exact (List.getElem?_eq_some_iff.1 hstep).1

/-- Among the misplaced steps there is a first one. -/
theorem Misplaced.exists_first (h : Misplaced steps index e) :
    ∃ first e', Misplaced steps first e' ∧
      ∀ earlier < first, ∀ e'', ¬ Misplaced steps earlier e'' := by
  induction index using Nat.strongRecOn generalizing e with
  | ind index ih =>
    by_cases hearlier : ∃ earlier < index, ∃ e', Misplaced steps earlier e'
    · obtain ⟨earlier, hlt, e', hmisplaced⟩ := hearlier
      exact ih earlier hlt hmisplaced
    · exact ⟨index, e, h, fun earlier hlt e' hmisplaced =>
        hearlier ⟨earlier, hlt, e', hmisplaced⟩⟩

def FirstFrom (steps : List Step) (start : Nat) (e : Error) : Prop :=
  ∃ index, start ≤ index ∧ Misplaced steps index e ∧
    ∀ earlier, start ≤ earlier → earlier < index → ∀ e', ¬ Misplaced steps earlier e'

theorem firstFrom_iff_of_misplaced {e' : Error} (h : Misplaced steps index e') :
    FirstFrom steps index e ↔ Misplaced steps index e := by
  constructor
  · rintro ⟨found, hfrom, hfound, hfirst⟩
    rcases Nat.eq_or_lt_of_le hfrom with rfl | hbehind
    · exact hfound
    · exact absurd h (hfirst index (Nat.le_refl _) hbehind e')
  · exact fun hfound => ⟨index, Nat.le_refl _, hfound, fun earlier hfrom hlt =>
      absurd hlt (Nat.not_lt_of_le hfrom)⟩

theorem firstFrom_succ_iff (h : ∀ e', ¬ Misplaced steps index e') :
    FirstFrom steps (index + 1) e ↔ FirstFrom steps index e := by
  constructor
  · rintro ⟨found, hfrom, hfound, hfirst⟩
    refine ⟨found, Nat.le_of_succ_le hfrom, hfound, fun earlier hle hlt => ?_⟩
    rcases Nat.eq_or_lt_of_le hle with rfl | hbehind
    · exact h
    · exact hfirst earlier hbehind hlt
  · rintro ⟨found, hfrom, hfound, hfirst⟩
    have hbehind : index < found := by
      refine Nat.lt_of_le_of_ne hfrom ?_
      rintro rfl
      exact h e hfound
    exact ⟨found, hbehind, hfound, fun earlier hle => hfirst earlier (Nat.le_of_succ_le hle)⟩

/-! ### The check -/

/-- The step that is checked next breaks the rules as it is tested for them. -/
theorem misplaced_next_iff :
    Misplaced (front ++ step :: steps) front.length e ↔
      (front.length ≠ 0 ∧ step.isCondition = true ∧
          e = .conditionNotFirst front.length step.text) ∨
        (steps ≠ [] ∧ step.updatesStack = true ∧
          e = .stackUpdateNotLast front.length step.text) := by
  have hstep : (front ++ step :: steps)[front.length]? = some step := by
    rw [List.getElem?_append_right (Nat.le_refl _), Nat.sub_self, List.getElem?_cons_zero]
  have hmore : front.length + 1 < (front ++ step :: steps).length ↔ steps ≠ [] := by
    rw [List.length_append, List.length_cons, ← List.length_pos_iff]
    omega
  rw [misplaced_iff hstep, hmore, Nat.pos_iff_ne_zero]

theorem checkFrom_of_misplaced (h : Misplaced (front ++ step :: steps) front.length e) :
    checkFrom front.length (step :: steps) = .error e := by
  rw [checkFrom]
  rcases misplaced_next_iff.1 h with ⟨hlater, hcondition, rfl⟩ | ⟨hmore, hupdate, rfl⟩
  · rw [if_pos ⟨hlater, hcondition⟩]
  · -- a step that updates the stack is no condition
    have hnone : step.isCondition ≠ true := by
      intro hcondition
      rw [Step.not_updatesStack_of_isCondition hcondition] at hupdate
      cases hupdate
    rw [if_neg fun h => hnone h.2, if_pos ⟨hmore, hupdate⟩]

theorem checkFrom_of_not_misplaced
    (h : ∀ e, ¬ Misplaced (front ++ step :: steps) front.length e) :
    checkFrom front.length (step :: steps) = checkFrom (front.length + 1) steps := by
  rw [checkFrom, if_neg, if_neg]
  · rintro ⟨hmore, hupdate⟩
    exact h _ (misplaced_next_iff.2 (Or.inr ⟨hmore, hupdate, rfl⟩))
  · rintro ⟨hlater, hcondition⟩
    exact h _ (misplaced_next_iff.2 (Or.inl ⟨hlater, hcondition, rfl⟩))

/-- Behind steps that were checked, the check finds the first step that is misplaced. -/
theorem checkFrom_eq_error_iff :
    checkFrom front.length steps = .error e ↔ FirstFrom (front ++ steps) front.length e := by
  induction steps generalizing front with
  | nil =>
    refine iff_of_false nofun ?_
    rintro ⟨index, hfrom, hmisplaced, -⟩
    have hlt := hmisplaced.lt_length
    rw [List.append_nil] at hlt
    omega
  | cons step steps ih =>
    by_cases hnext : ∃ e', Misplaced (front ++ step :: steps) front.length e'
    · obtain ⟨e', hmisplaced⟩ := hnext
      rw [checkFrom_of_misplaced hmisplaced, firstFrom_iff_of_misplaced hmisplaced]
      constructor
      · rintro ⟨⟩
        exact hmisplaced
      · intro hfound
        rw [← checkFrom_of_misplaced hmisplaced, checkFrom_of_misplaced hfound]
    · have hplaced : ∀ e', ¬ Misplaced (front ++ step :: steps) front.length e' :=
        fun e' hmisplaced => hnext ⟨e', hmisplaced⟩
      -- the step that was checked counts among those in front
      have hrest := @ih (front ++ [step])
      rw [List.length_append, List.length_singleton, ← List.append_cons] at hrest
      rw [checkFrom_of_not_misplaced hplaced, hrest, firstFrom_succ_iff hplaced]

/-- Steps are refused for the first one that is misplaced. -/
theorem ofSteps_eq_error_iff (hsteps : steps ≠ []) :
    ofSteps steps = .error e ↔
      ∃ index, Misplaced steps index e ∧
        ∀ earlier < index, ∀ e', ¬ Misplaced steps earlier e' := by
  have hcheck := @checkFrom_eq_error_iff [] steps e
  simp only [FirstFrom, List.length_nil, List.nil_append, Nat.zero_le, true_and,
    true_implies] at hcheck
  rw [← hcheck, ofSteps, if_neg hsteps]
  cases checkFrom 0 steps with
  | ok => exact iff_of_false nofun nofun
  | error e' =>
    constructor
    · rintro ⟨⟩
      rfl
    · rintro ⟨⟩
      rfl

/-- What is reported about a misplaced step is not that there are no steps. -/
theorem ofSteps_eq_emptySequence_iff : ofSteps steps = .error .emptySequence ↔ steps = [] := by
  refine ⟨fun h => ?_, fun hnone => if_pos hnone⟩
  refine Classical.byContradiction fun hsteps => ?_
  obtain ⟨index, hmisplaced, -⟩ := (ofSteps_eq_error_iff hsteps).1 h
  cases hmisplaced

theorem exists_ofSteps_iff :
    (∃ b, ofSteps steps = .ok b) ↔ steps ≠ [] ∧ ∀ index e, ¬ Misplaced steps index e := by
  constructor
  · rintro ⟨b, hb⟩
    have hsteps : steps ≠ [] := (ofSteps_eq_ok_iff.1 hb).1.nonempty
    refine ⟨hsteps, fun index e hmisplaced => ?_⟩
    obtain ⟨first, e', hfirst⟩ := hmisplaced.exists_first
    have hrefused := (ofSteps_eq_error_iff hsteps).2 ⟨first, hfirst⟩
    rw [hb] at hrefused
    cases hrefused
  · rintro ⟨hsteps, hplaced⟩
    cases hresult : ofSteps steps with
    | ok b => exact ⟨b, rfl⟩
    | error e =>
      obtain ⟨index, hmisplaced, -⟩ := (ofSteps_eq_error_iff hsteps).1 hresult
      exact absurd hmisplaced (hplaced index e)

/-! ### Sequences -/

/--
The steps of actions in order are a sequence if there are any and none is misplaced, and
then its children are these steps.  Otherwise the sequence is refused for having no
steps, or for the first misplaced step, with its text and its position among all steps.
-/
theorem sequence_reports_first (actions : List Action) :
    let steps := actions.flatMap children
    ((∃ b, sequence actions = .ok b) ↔ steps ≠ [] ∧ ∀ index e, ¬ Misplaced steps index e) ∧
    (∀ b, sequence actions = .ok b → b.children = steps) ∧
    (sequence actions = .error .emptySequence ↔ steps = []) ∧
    (steps ≠ [] → ∀ e, sequence actions = .error e ↔
      ∃ index, Misplaced steps index e ∧
        ∀ earlier < index, ∀ e', ¬ Misplaced steps earlier e') := by
  intro steps
  refine ⟨exists_ofSteps_iff, fun b hb => ?_, ofSteps_eq_emptySequence_iff, fun hsteps e =>
    ofSteps_eq_error_iff hsteps⟩
  obtain ⟨-, rfl⟩ := ofSteps_eq_ok_iff.1 hb
  rfl

/-- Of a reduction and a filter that are both misplaced the one in front is reported, at its
position behind the two steps of the first action. -/
theorem sequence_reports_first_update :
    let reduction : Reduction := ⟨.named "E", 1, 0⟩
    let actions := [build [.filterFlag "in" "x", .popFlag "in"], single (.reduce reduction),
      single (.filterFlag "in" "y")]
    sequence actions = .error (.stackUpdateNotLast 2 (Step.reduce reduction).text) ∧
      ¬ ∃ b, sequence actions = .ok b := by
  intro reduction actions
  obtain ⟨haccepted, -, -, hrefused⟩ := sequence_reports_first actions
  have hmisplaced : Misplaced (actions.flatMap children) 2
      (.stackUpdateNotLast 2 (Step.reduce reduction).text) := .reduce rfl (Nat.lt_succ_self 3)
  have hfirst : ∀ earlier < 2, ∀ e, ¬ Misplaced (actions.flatMap children) earlier e := by
    intro earlier hearlier e hfound
    match earlier, hearlier with
    | 0, _ =>
      rcases hfound with ⟨-, hlater⟩ | ⟨-, hlater⟩ | ⟨hstep, -⟩
      · cases hlater
      · cases hlater
      · cases hstep
    | 1, _ =>
      rcases hfound with ⟨hstep, -⟩ | ⟨hstep, -⟩ | ⟨hstep, -⟩
      all_goals cases hstep
  have hsteps : actions.flatMap children ≠ [] := List.cons_ne_nil _ _
  exact ⟨(hrefused hsteps _).2 ⟨2, hmisplaced, hfirst⟩, fun hbuilt =>
    (haccepted.1 hbuilt).2 2 _ hmisplaced⟩

end EdgeActions.Action
