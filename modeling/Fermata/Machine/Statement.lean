import Fermata.Machine.Expression

/-!
# Executing statements

How a statement starts (`startStmt`, `Runtime::exec_labeled`) and how loops go round. The value of a loop is
that of the last body that came to its end; a body that ends in a jump to the loop itself leaves it as it
was.

* `Loop.round`, `Loop.afterTest`, `Loop.afterBody` are the parts of a loop of any kind.
* `Loop.absorb` (`loop_step`) decides what a transfer out of a body is to its loop.
* `passesLabels` tells which statements take the labels in front of them.

A `try` has a tree but is not carried out: it is a `Fault` when it is met.
-/

namespace Fermata

/-- Go on with the value of a statement. -/
def Act.yields (v : Value) : Act Move := return .go [] (.value v)

/-! ## Loops -/

namespace Loop

open Act

/-- Execute the body. -/
def enterBody (l : Loop) : Act Move := return .go [.loopBody l] (.exec l.body [])

/-- Begin a round: the test, if it comes first, or the body. -/
def round (s : Site) (l : Loop) : Act Move := do
  match l.kind with
  | .whileLoop test => evalFor (.loopTest l) test
  | .doLoop _ => enterBody l
  | .forLoop (some test) _ => evalFor (.loopTest l) test
  | .forLoop none _ => enterBody l
  | .forEach _ [] => yields l.last
  | .forEach target (item :: items) =>
    let l := { l with kind := .forEach target items }
    match target with
    | .declare _ name => setName s.scope name item; enterBody l
    | .expression e => startReference s (.loopItem l item) e

/-- What follows a test. -/
def afterTest (s : Site) (l : Loop) (v : Value) : Act Move :=
  if !v.truthy then yields l.last
  else
    match l.kind with
    | .doLoop _ => round s l
    | _ => enterBody l

/-- What follows a body that came to its end or jumped to the next round. -/
def afterBody (s : Site) (l : Loop) : Act Move :=
  match l.kind with
  | .doLoop test => evalFor (.loopTest l) test
  | .forLoop _ (some update) => evalFor (.loopUpdate l) update
  | _ => round s l

/-- The jump addresses this loop. -/
def owns (l : Loop) (label : Option String) : Bool :=
  match label with
  | none => true
  | some name => l.labels.contains name

/-- A jump out of the body: those to the loop itself are absorbed. -/
def absorb (s : Site) (l : Loop) (a : Abrupt) : Act Move :=
  match a with
  | .leave label => if l.owns label then yields l.last else throw a
  | .next label => if l.owns label then afterBody s l else throw a
  | _ => throw a

end Loop

/-! ## Statements -/

namespace Act

/-- What follows declarations. -/
def afterDeclarations (s : Site) : DeclareEnd → Act Move
  | .done => yields .undefined
  | .loop l => Loop.round s l

/-- Evaluate the initial values of declarations. -/
def startDeclarations (s : Site) (after : DeclareEnd) : List VarDecl → Act Move
  | [] => afterDeclarations s after
  | d :: rest =>
    match d.init with
    | some e => evalFor (.declare d.name rest after) e
    | none => startDeclarations s after rest

/-- Execute statements; the last one counts. -/
def startStatements (last : Value) : List Stmt → Act Move
  | [] => yields last
  | t :: rest => return .go [.body rest] (.exec t [])

/-- Begin a three-part loop. -/
def startFor (s : Site) (init : Option ForInit) (l : Loop) : Act Move :=
  match init with
  | some (.declare decls) => startDeclarations s (.loop l) decls
  | some (.expression e) => evalFor (.loopInit l) e
  | none => Loop.round s l

/-- A labelled statement passes its labels on to a loop or to a further label. -/
def passesLabels : Stmt → Bool
  | .labeled .. => true
  | body => body.isLoop

/-- Begin a statement. -/
def startStmt (s : Site) (t : Stmt) (labels : List String) : Act Move := do
  match t with
  | .expression _ e => return .go [] (.eval e)
  | .declare _ decls => startDeclarations s .done decls
  | .function .. | .empty _ => yields .undefined
  | .ret _ none => throw (.ret .undefined)
  | .ret _ (some e) => evalFor .ret e
  | .cond _ test thenBranch elseBranch => evalFor (.cond thenBranch elseBranch) test
  | .whileLoop _ test body => Loop.round s ⟨.whileLoop test, body, labels, .undefined⟩
  | .doLoop _ body test => Loop.round s ⟨.doLoop test, body, labels, .undefined⟩
  | .forLoop _ init test update body =>
    startFor s init ⟨.forLoop test update, body, labels, .undefined⟩
  | .forEach _ kind target source body => evalFor (.eachSource kind target body labels) source
  | .leave _ label => throw (.leave label)
  | .next _ label => throw (.next label)
  | .raise _ e => evalFor .raise e
  | .guarded span _ _ _ => faulty (.unsupportedTry (span.start.line + 1))
  | .labeled _ label body =>
    return .go [.labeled label] (.exec body (if passesLabels body then labels ++ [label] else []))
  | .block _ body => startStatements .undefined body

end Act

end Fermata
