import EdgeActions.Action.Sequence

/-!
# Action trees

Actions as they are stored.  Every action carries the lists of the resources that it reads
and writes, a sequence holds actions of any kind, sequences included, and indexing into a
sequence fails if nothing is there.  Nothing in the type keeps a sequence from being empty
or nested, nor the lists of an action from being any lists at all: what holds of them is
up to the operations, which build a sequence in three ways and check it in two of them.
-/

namespace EdgeActions

/-- What an action does if it is no sequence, its resources aside. -/
inductive Primitive where
  | reduce (reduction : Reduction)
  | lookahead (assertion : Lookahead)
  | filterFlag (flag value : String)
  | pushFlag (flag value : String)
  | popFlag (flag : String)
  | call (call : Call)
  deriving DecidableEq, Repr

/-- The step that does what the primitive does.  Only that of a call lists resources itself. -/
def Primitive.step (reads writes : List Resource) : Primitive → Step
  | reduce reduction => .reduce reduction
  | lookahead assertion => .lookahead assertion
  | filterFlag flag value => .filterFlag flag value
  | pushFlag flag value => .pushFlag flag value
  | popFlag flag => .popFlag flag
  | call c => .call c reads writes

inductive ActionTree where
  | leaf (primitive : Primitive) (reads writes : List Resource)
  | node (children : List ActionTree) (reads writes : List Resource)

inductive Failure where
  | refused (e : Error)
  | overflow (o : Overflow)
  /-- The first or the last child was asked of a sequence without children. -/
  | outOfBounds
  deriving DecidableEq, Repr

namespace ActionTree

def reads : ActionTree → List Resource
  | leaf _ reads _ => reads
  | node _ reads _ => reads

def writes : ActionTree → List Resource
  | leaf _ _ writes => writes
  | node _ _ writes => writes

def children : ActionTree → List ActionTree
  | leaf primitive reads writes => [leaf primitive reads writes]
  | node children _ _ => children

def first : List ActionTree → Except Failure ActionTree
  | [] => .error .outOfBounds
  | child :: _ => .ok child

def last : List ActionTree → Except Failure ActionTree
  | [] => .error .outOfBounds
  | [child] => .ok child
  | _ :: next :: children => last (next :: children)

/-! ### Primitive actions

A reduction and an operation on a flag name their resources, whoever makes them; a call is
made with the lists that are given for it.
-/

def reduction (r : Reduction) : ActionTree :=
  leaf (.reduce r) [] [r.resource]

def lookahead (l : Lookahead) : ActionTree :=
  leaf (.lookahead l) [] []

def filterFlag (flag value : String) : ActionTree :=
  leaf (.filterFlag flag value) [Resource.ofFlag flag] []

def pushFlag (flag value : String) : ActionTree :=
  leaf (.pushFlag flag value) [] [Resource.ofFlag flag]

def popFlag (flag : String) : ActionTree :=
  leaf (.popFlag flag) [Resource.ofFlag flag] [Resource.ofFlag flag]

def call (c : Call) (reads writes : List Resource) : ActionTree :=
  leaf (.call c) reads writes

/-! ### Facets

The recursion goes through the first or the last child.  It is by structure, so the lists
of children have functions of their own; the lemmas behind them say that these index into
the list and ask the child.
-/

mutual

def isCondition : ActionTree → Except Failure Bool
  | leaf primitive reads writes => .ok (primitive.step reads writes).isCondition
  | node children _ _ => firstIsCondition children

def firstIsCondition : List ActionTree → Except Failure Bool
  | [] => .error .outOfBounds
  | child :: _ => child.isCondition

end

mutual

def updatesStack : ActionTree → Except Failure Bool
  | leaf primitive reads writes => .ok (primitive.step reads writes).updatesStack
  | node children _ _ => lastUpdatesStack children

def lastUpdatesStack : List ActionTree → Except Failure Bool
  | [] => .error .outOfBounds
  | [child] => child.updatesStack
  | _ :: next :: children => lastUpdatesStack (next :: children)

end

mutual

def text : ActionTree → String
  | leaf primitive reads writes => (primitive.step reads writes).text
  | node children _ _ => "Seq(" ++ Text.bracketed (texts children) ++ ")"

def texts : List ActionTree → List String
  | [] => []
  | child :: children => child.text :: texts children

end

def condition : ActionTree → Except Failure ActionTree
  | leaf primitive reads writes =>
    if (primitive.step reads writes).isCondition then
      .ok (leaf primitive reads writes)
    else
      .error (.refused (.notACondition (primitive.step reads writes).text))
  | node children reads writes => do
    let child ← first children
    if ← child.isCondition then
      return child
    else
      throw (.refused (.notACondition (node children reads writes).text))

mutual

def reduceWith : ActionTree → Except Failure Reduction
  | leaf (.reduce reduction) _ _ => .ok reduction
  | leaf primitive reads writes =>
    .error (.refused (.noStackUpdate (primitive.step reads writes).text))
  | node children reads writes => do
    if ← lastUpdatesStack children then
      lastReduceWith children
    else
      throw (.refused (.noStackUpdate (node children reads writes).text))

def lastReduceWith : List ActionTree → Except Failure Reduction
  | [] => .error .outOfBounds
  | [child] => child.reduceWith
  | _ :: next :: children => lastReduceWith (next :: children)

end

theorem first_of_head? {children : List ActionTree} {child : ActionTree}
    (h : children.head? = some child) : first children = .ok child := by
  obtain ⟨others, rfl⟩ := List.head?_eq_some_iff.1 h
  rfl

theorem last_of_getLast? {children : List ActionTree} {child : ActionTree}
    (h : children.getLast? = some child) : last children = .ok child := by
  induction children using last.induct with
  | case1 => cases h
  | case2 only =>
    cases h
    rfl
  | case3 earlier next children ih =>
    rw [List.getLast?_cons_cons] at h
    exact ih h

theorem firstIsCondition_eq (children : List ActionTree) :
    firstIsCondition children = first children >>= isCondition := by
  cases children with
  | nil => rfl
  | cons child children => rfl

theorem lastUpdatesStack_eq (children : List ActionTree) :
    lastUpdatesStack children = last children >>= updatesStack := by
  induction children using last.induct with
  | case1 => rfl
  | case2 child => rfl
  | case3 child next children ih => rw [lastUpdatesStack, last, ih]

theorem lastReduceWith_eq (children : List ActionTree) :
    lastReduceWith children = last children >>= reduceWith := by
  induction children using last.induct with
  | case1 => rfl
  | case2 child => rfl
  | case3 child next children ih => rw [lastReduceWith, last, ih]

theorem condition_node {children : List ActionTree} {child : ActionTree} {verdict : Bool}
    (hchild : first children = .ok child) (hverdict : child.isCondition = .ok verdict)
    (reads writes : List Resource) :
    (node children reads writes).condition =
      if verdict then .ok child
      else .error (.refused (.notACondition (node children reads writes).text)) := by
  rw [condition, hchild]
  change (child.isCondition >>= _) = _
  rw [hverdict]
  cases verdict with
  | false => rfl
  | true => rfl

theorem reduceWith_node {children : List ActionTree} {child : ActionTree} {update : Bool}
    (hchild : last children = .ok child) (hupdate : child.updatesStack = .ok update)
    (reads writes : List Resource) :
    (node children reads writes).reduceWith =
      if update then child.reduceWith
      else .error (.refused (.noStackUpdate (node children reads writes).text)) := by
  rw [reduceWith, lastUpdatesStack_eq, lastReduceWith_eq, hchild]
  change (child.updatesStack >>= _) = _
  rw [hupdate]
  cases update with
  | false => rfl
  | true => rfl

theorem texts_eq_map (children : List ActionTree) : texts children = children.map text := by
  induction children with
  | nil => rfl
  | cons child children ih => rw [texts, ih, List.map_cons]

/-! ### Sequences -/

def flatten (actions : List ActionTree) : List ActionTree :=
  actions.flatMap children

def testUnless (exempt : Bool) (test : Except Failure Bool) : Except Failure Bool :=
  if exempt then .ok false else test

/-- Checks the children from position `index` on; `final` is the position of the last one. -/
def checkFrom (final index : Nat) : List ActionTree → Except Failure Unit
  | [] => .ok ()
  | child :: children => do
    if ← testUnless (index == 0) child.isCondition then
      throw (.refused (.conditionNotFirst index child.text))
    else if ← testUnless (index == final) child.updatesStack then
      throw (.refused (.stackUpdateNotLast index child.text))
    else
      checkFrom final (index + 1) children

theorem testUnless_ok (exempt verdict : Bool) :
    testUnless exempt (.ok verdict) = .ok (!exempt && verdict) := by
  cases exempt with
  | false => rfl
  | true => rfl

theorem checkFrom_cons {final index : Nat} {child : ActionTree} {condition update : Bool}
    (hcondition : child.isCondition = .ok condition) (hupdate : child.updatesStack = .ok update)
    (children : List ActionTree) :
    checkFrom final index (child :: children) =
      if index ≠ 0 ∧ condition = true then
        .error (.refused (.conditionNotFirst index child.text))
      else if index ≠ final ∧ update = true then
        .error (.refused (.stackUpdateNotLast index child.text))
      else
        checkFrom final (index + 1) children := by
  rw [checkFrom, hcondition, hupdate, testUnless_ok, testUnless_ok]
  simp only [bind, Except.bind, Bool.and_eq_true, Bool.not_eq_true', beq_eq_false_iff_ne]
  rfl

def check (children : List ActionTree) : Except Failure Unit :=
  if children.isEmpty then
    .error (.refused .emptySequence)
  else
    checkFrom (children.length - 1) 0 children

/-- Wraps children that are flattened and checked already, or are trusted to be. -/
def build (children : List ActionTree) : ActionTree :=
  node children (children.flatMap reads) (children.flatMap writes)

def sequence (actions : List ActionTree) : Except Failure ActionTree := do
  check (flatten actions)
  return build (flatten actions)

/-- The action that executes `a` and then `b`; a refusal of the check only declines it. -/
def fuse? (a b : ActionTree) : Except Failure (Option ActionTree) :=
  match check (a.children ++ b.children) with
  | .ok () => .ok (some (build (a.children ++ b.children)))
  | .error (.refused _) => .ok none
  | .error failure => .error failure

def fuseNext (edges : List ActionTree) (next : ActionTree) : Except Failure (List ActionTree) :=
  match edges.getLast? with
  | none => .ok (edges ++ [next])
  | some edge => do
    match ← edge.fuse? next with
    | some fused => return edges.dropLast ++ [fused]
    | none => return edges ++ [next]

def fuseEdges (actions : List ActionTree) : Except Failure (List ActionTree) :=
  actions.foldlM fuseNext []

/-! ### Shifted symbols -/

/-- What a shift leaves of a sequence.  It is not checked, and no sequence any more if a
condition was dropped and at most one child is kept. -/
def ofKept (kept : List ActionTree) (dropped : Bool) : Shifted ActionTree :=
  if dropped = true ∧ kept.length ≤ 1 then
    match kept.getLast? with
    | some child => .continues child
    | none => .resolved true
  else
    .continues (build kept)

mutual

/-- The action after the shifted symbols.  A call keeps its lists; a reduction and an
assertion are made anew, with the lists of their kind. -/
def shift (shifted : List Symbol) : ActionTree → Except Failure (Shifted ActionTree)
  | leaf (.reduce r) _ _ =>
    ((r.shift shifted.length).map fun r => .continues (reduction r)).mapError .overflow
  | leaf (.lookahead l) _ _ => .ok ((l.shift shifted).map lookahead)
  | leaf (.call c) reads writes =>
    ((c.shift shifted.length).map fun c => .continues (call c reads writes)).mapError .overflow
  | leaf primitive reads writes => .ok (.continues (leaf primitive reads writes))
  | node children _ _ => shiftChildren shifted [] false children

def shiftChildren (shifted : List Symbol) (kept : List ActionTree) (dropped : Bool) :
    List ActionTree → Except Failure (Shifted ActionTree)
  | [] => .ok (ofKept kept dropped)
  | child :: children => do
    match ← child.shift shifted with
    | .continues rest => shiftChildren shifted (kept ++ [rest]) dropped children
    | .resolved false => return .resolved false
    | .resolved true => shiftChildren shifted kept true children

end

end ActionTree

end EdgeActions
