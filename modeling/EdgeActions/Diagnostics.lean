import EdgeActions.Action.Basic
import EdgeActions.Action.Sequence
import EdgeActions.FlagChecker

/-!
# Diagnostics

What an operation has to say about its own decisions: which assertions a shift
decided, why two actions were not fused and which edges were checked.  Each
function here belongs to an operation and lists its remarks in the order in
which they arise; the results of the operations do not depend on them.
-/

namespace EdgeActions

inductive Severity where
  | debug
  | trace
  deriving DecidableEq, Repr

def Severity.text : Severity → String
  | debug => "DEBUG"
  | trace => "TRACE"

structure Diagnostic where
  severity : Severity
  message : String
  deriving DecidableEq, Repr

/-- A decided assertion names the symbols that matched or refuted it. -/
def Lookahead.shiftDiagnostics (l : Lookahead) (shifted : List Symbol) : List Diagnostic :=
  match l.shift shifted with
  | .continues _ => []
  | .resolved _ =>
    let outcome := if l.matchedBy shifted then " matched by " else " refuted by "
    [⟨.debug, l.text ++ outcome ++ Symbol.listDetail shifted⟩]

namespace Action

/-- Only the first step of an action can be an assertion. -/
def shiftDiagnostics (a : Action) (shifted : List Symbol) : List Diagnostic :=
  match a.children.head? with
  | some (.lookahead assertion) => assertion.shiftDiagnostics shifted
  | _ => []

/-- A fusion that is declined gives the rule that the joint steps break. -/
def fuseDiagnostics (a b : Action) : List Diagnostic :=
  match ofSteps (a.children ++ b.children) with
  | .ok _ => []
  | .error e =>
    [⟨.trace, "not adding " ++ b.text ++ " to " ++ a.text ++ ": " ++ e.message⟩]

def fuseFromDiagnostics (edge : Action) : List Action → List Diagnostic
  | [] => []
  | next :: actions =>
    match edge.fuse? next with
    | some fused => ⟨.debug, "fused edge " ++ fused.text⟩ :: fuseFromDiagnostics fused actions
    | none => edge.fuseDiagnostics next ++ fuseFromDiagnostics next actions

def fuseEdgesDiagnostics : List Action → List Diagnostic
  | [] => []
  | first :: actions => fuseFromDiagnostics first actions

end Action

namespace FlagChecker

/-- Each edge is announced before it is followed; `index` is the place of the first on its path. -/
def visitPathDiagnostics (c : FlagChecker) (index : Nat) : List Action → List Diagnostic
  | [] => []
  | a :: path =>
    ⟨.debug, "checking flags of edge " ++ toString index ++ ": " ++ a.text⟩ ::
      match c.visit a with
      | (next, .ok ()) => next.visitPathDiagnostics (index + 1) path
      | (_, .error _) => []

def checkPathDiagnostics (path : List Action) (strict : Bool) : List Diagnostic :=
  (start strict).visitPathDiagnostics 0 path

end FlagChecker

end EdgeActions
