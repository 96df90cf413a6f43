import Fermata.Heap.Convert
import Fermata.Text.Character
import Fermata.Text.Hidden

/-!
# Scopes

Reading and writing names along a chain of scopes. A local scope answers for the names that it
binds; every other name goes on to the root, whose bindings are the properties of the global object.
The root also answers for the reserved names, and writes to those are dropped there.

* `Heap.getName`, `Heap.setName`, `Heap.hasName` (`Scope::get`, `set`, `has`) act along the chain,
  `Heap.declares` (`Scope::declares`) on one scope. `Heap.place` is where a name leads.
* `Heap.visibleNames`, `Heap.bindingNames` (`Scope::visible_names`, `binding_names`) list names.
* `Heap.environment`, `Heap.setEnvironment` (`Scope::get_environment`, `set_environment`) take and give
  back all bindings of one scope.
* `Heap.newChild` (`Scope::create`) makes a scope, `Heap.clearBindings` (`Scope::clear_bindings`) empties
  one that was pruned.

A scope is younger than its parent and lies in the same region, so a chain has no more scopes than
the index of its first one says (`chainBound`).

Left out: evaluating in a scope and linking a function to one, which a session does.
-/

namespace Fermata

/-- Why a name cannot be read or written. -/
inductive ScopeError where
  | invalidName (name : String)
  | unbound (name : String)
deriving DecidableEq, Repr, Inhabited

/-- The wording. -/
def ScopeError.message : ScopeError → String
  | .invalidName name => "invalid identifier '" ++ name ++ "'"
  | .unbound name => name ++ " is not defined"

namespace Storage

/-- The value of the first local binding of a name. -/
def localValue? (s : Storage) (name : String) : Option Value :=
  match s with
  | .locals bindings => (bindings.find? (·.name == name)).map (·.value)
  | .global _ => none

/-- Write the first binding of a name. -/
def overwrite (name : String) (value : Value) : List Binding → List Binding
  | [] => []
  | b :: bs => if b.name = name then { b with value } :: bs else b :: overwrite name value bs

/-- Write the first local binding of a name. -/
def setLocal (s : Storage) (name : String) (value : Value) : Storage :=
  match s with
  | .locals bindings => .locals (overwrite name value bindings)
  | .global o => .global o

end Storage

/-- The scope stands at the end of its chain. -/
def Scope.isRoot (s : Scope) : Bool := s.parent.isNone

namespace Heap

/-- No chain from this scope is longer. -/
def chainBound (id : ScopeId) : Nat := id.index + 1

/-- What a name along a chain leads to. -/
inductive Place where
  /-- A local binding of this scope. -/
  | binding (scope : ScopeId)
  /-- The global object. -/
  | global (object : ObjectId)
  /-- The chain ends without a root. -/
  | nowhere
deriving DecidableEq, Repr, Inhabited

/-- Follow a name along at most `fuel` scopes. -/
def placeWithin (h : Heap) (name : String) : Nat → ScopeId → Place
  | 0, _ => .nowhere
  | fuel + 1, id =>
    let s := h.scopes.get id
    match s.storage with
    | .global o => .global o
    | .locals bindings =>
      if bindings.any (·.name == name) then .binding id
      else
        match s.parent with
        | some p => placeWithin h name fuel p
        | none => .nowhere

/-- What a name leads to from a scope. -/
def place (h : Heap) (id : ScopeId) (name : String) : Place :=
  h.placeWithin name (chainBound id) id

/-- What the root answers for a name. -/
def globalValue? (h : Heap) (object : ObjectId) (name : String) : Option Value :=
  if name = globalName then some (.object object)
  else if name = "undefined" then some .undefined
  else if name = "NaN" then some (.number Number.nan)
  else h.lookup? object name

/-- Read a name. -/
def getName (h : Heap) (id : ScopeId) (name : String) : Except ScopeError Value :=
  if !isValidName name then .error (.invalidName name)
  else
    match h.place id name with
    | .binding s =>
      match (h.scopes.get s).storage.localValue? name with
      | some v => .ok v
      | none => .error (.unbound name)
    | .global o =>
      match h.globalValue? o name with
      | some v => .ok v
      | none => .error (.unbound name)
    | .nowhere => .error (.unbound name)

/-- Write a local binding of a scope. -/
def setLocal (h : Heap) (id : ScopeId) (name : String) (value : Value) : Heap :=
  { h with scopes := h.scopes.modify id fun s =>
      { s with storage := s.storage.setLocal name value } }

/-- Where a name is written: the nearest local binding of it, or the global object. -/
def target (h : Heap) (id : ScopeId) (name : String) : Except ScopeError Place :=
  if !isValidName name then .error (.invalidName name)
  else
    match h.place id name with
    | .nowhere => .error (.unbound name)
    | p => .ok p

/-- Write a name at a place. The global object does not take reserved names. -/
def setAt (h : Heap) (p : Place) (name : String) (value : Value) : Heap :=
  match p with
  | .binding s => h.setLocal s name value
  | .global o => if reservedNames.contains name then h else h.set o name value
  | .nowhere => h

/-- Write a name. -/
def setName (h : Heap) (id : ScopeId) (name : String) (value : Value) : Except ScopeError Heap :=
  (h.target id name).map fun p => h.setAt p name value

/-- The name can be read. -/
def hasName (h : Heap) (id : ScopeId) (name : String) : Bool :=
  isValidName name &&
    match h.place id name with
    | .binding _ => true
    | .global o => reservedNames.contains name || h.has o name
    | .nowhere => false

/-- The scope itself binds the name. -/
def declares (h : Heap) (id : ScopeId) (name : String) : Bool :=
  match (h.scopes.get id).storage with
  | .global o => h.has o name
  | .locals bindings => bindings.any (·.name == name)

/-- Collect local names along at most `fuel` scopes, each once. -/
def visibleWithin (h : Heap) : Nat → ScopeId → List String → List String
  | 0, _, names => names
  | fuel + 1, id, names =>
    let s := h.scopes.get id
    let names := match s.storage with
      | .global _ => names
      | .locals bindings =>
        bindings.foldl (fun ns b => if ns.contains b.name then ns else ns ++ [b.name]) names
    match s.parent with
    | some p => visibleWithin h fuel p names
    | none => names

/-- The names that local scopes of the chain bind, innermost first. -/
def visibleNames (h : Heap) (id : ScopeId) : List String :=
  h.visibleWithin (chainBound id) id []

/-- The names that a scope binds itself, in order. -/
def bindingNames (h : Heap) (id : ScopeId) : List String :=
  match (h.scopes.get id).storage with
  | .global o => (h.objects.get o).keys
  | .locals bindings => bindings.map (·.name)

/-- The bindings of a scope. Of two with one name the later one counts. -/
def environment (h : Heap) (id : ScopeId) : List (String × Value) :=
  match (h.scopes.get id).storage with
  | .global o => (h.objects.get o).entries
  | .locals bindings => bindings.map fun b => (b.name, b.value)

/-- Overwrite one binding of the scope itself, if it has it; whether it has. -/
def setOwn (h : Heap) (id : ScopeId) (name : String) (value : Value) : Bool × Heap :=
  match (h.scopes.get id).storage with
  | .global o => if (h.objects.get o).hasOwn name then (true, h.set o name value) else (false, h)
  | .locals bindings =>
    if bindings.any (·.name == name) then (true, h.setLocal id name value) else (false, h)

/-- Overwrite bindings of the scope itself; other names are passed over. How many were written. -/
def setEnvironment (h : Heap) (id : ScopeId) (env : List (String × Value)) : Nat × Heap :=
  env.foldl (fun (n, h) (name, value) =>
    let (written, h) := h.setOwn id name value
    (if written then n + 1 else n, h)) (0, h)

/-- A scope with these bindings below `parent`. -/
def newChild (h : Heap) (parent : ScopeId) (owner : String) (bindings : List Binding)
    (thisValue : Value) : ScopeId × Heap :=
  h.newScope parent.region ⟨some parent, owner, .locals bindings, thisValue⟩

/-- Set every local binding of a scope to `undefined`. -/
def clearBindings (h : Heap) (id : ScopeId) : Heap :=
  { h with scopes := h.scopes.modify id fun s =>
      match s.storage with
      | .locals bindings =>
        { s with storage := .locals (bindings.map fun b => { b with value := .undefined }) }
      | .global _ => s }

/-- A scope as a report shows it. -/
def inspectScope (h : Heap) (id : ScopeId) : String :=
  let s := h.scopes.get id
  "Scope \x7b owner: " ++ Text.quoted s.owner
    ++ ", bindings: [" ++ ", ".intercalate ((h.bindingNames id).map Text.quoted)
    ++ "], root: " ++ (if s.isRoot then "true" else "false") ++ " \x7d"

end Heap

end Fermata
