import EdgeActions.Call
import EdgeActions.Lookahead
import EdgeActions.Reduction

/-!
# Steps

The primitive things that are executed on an edge of a parse table.  Two of
them are conditions, which only decide whether the edge is followed, and one
updates the parser stack.  Each step reads and writes certain resources; only a
call names its own.

A step that was recorded before some symbols were shifted is brought up to
date.  An assertion may be decided; a reduction and a call count the symbols
and fail if their counter cannot; a step on a flag stays as it is.
-/

namespace EdgeActions

inductive Step where
  | reduce (reduction : Reduction)
  /-- Go on only if the symbols to come pass the assertion. -/
  | lookahead (assertion : Lookahead)
  /-- Go on only if the top of the stack of the flag is the value. -/
  | filterFlag (flag value : String)
  | pushFlag (flag value : String)
  | popFlag (flag : String)
  | call (call : Call) (reads writes : List Resource)
  deriving DecidableEq, Repr

namespace Step

def reads : Step → List Resource
  | reduce _ => []
  | lookahead _ => []
  | filterFlag flag _ => [Resource.ofFlag flag]
  | pushFlag _ _ => []
  | popFlag flag => [Resource.ofFlag flag]
  | call _ reads _ => reads

def writes : Step → List Resource
  | reduce reduction => [reduction.resource]
  | lookahead _ => []
  | filterFlag _ _ => []
  | pushFlag flag _ => [Resource.ofFlag flag]
  | popFlag flag => [Resource.ofFlag flag]
  | call _ _ writes => writes

def isCondition : Step → Bool
  | lookahead _ => true
  | filterFlag _ _ => true
  | _ => false

def updatesStack : Step → Bool
  | reduce _ => true
  | _ => false

def text : Step → String
  | reduce reduction => reduction.text
  | lookahead assertion => assertion.text
  | filterFlag flag value => "FilterFlag(" ++ flag ++ ", " ++ value ++ ")"
  | pushFlag flag value => "PushFlag(" ++ flag ++ ", " ++ value ++ ")"
  | popFlag flag => "PopFlag(" ++ flag ++ ")"
  | call c _ _ => c.text

/-- No step both decides about its edge and updates the stack. -/
theorem not_updatesStack_of_isCondition {s : Step} (h : s.isCondition = true) :
    s.updatesStack = false := by
  cases s with
  | lookahead => rfl
  | filterFlag => rfl
  | reduce => cases h
  | pushFlag => cases h
  | popFlag => cases h
  | call => cases h

def shift (s : Step) (shifted : List Symbol) : Except Overflow (Shifted Step) :=
  match s with
  | reduce reduction =>
    (reduction.shift shifted.length).map fun r => .continues (.reduce r)
  | lookahead assertion => .ok ((assertion.shift shifted).map .lookahead)
  | call c reads writes =>
    (c.shift shifted.length).map fun c => .continues (.call c reads writes)
  | filterFlag flag value => .ok (.continues (.filterFlag flag value))
  | pushFlag flag value => .ok (.continues (.pushFlag flag value))
  | popFlag flag => .ok (.continues (.popFlag flag))

/-- Only a condition is ever decided by a shift. -/
theorem isCondition_of_shift_resolved {s : Step} {shifted : List Symbol} {verdict : Bool}
    (h : s.shift shifted = .ok (.resolved verdict)) : s.isCondition = true := by
  cases s with
  | lookahead => rfl
  | filterFlag => rfl
  | reduce reduction =>
    simp only [shift] at h
    cases counted : reduction.shift shifted.length <;> rw [counted] at h <;> cases h
  | call c reads writes =>
    simp only [shift] at h
    cases counted : c.shift shifted.length <;> rw [counted] at h <;> cases h
  | pushFlag => cases h
  | popFlag => cases h

end Step

end EdgeActions
