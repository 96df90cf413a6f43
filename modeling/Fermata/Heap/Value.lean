import Fermata.Heap.Store

/-!
# Values

What a guest program computes with (`Value`). Objects, functions, native functions and pending values
have an identity: the value holds their address.

* `typeName` (`type_of`), `truthy` (`to_boolean`), `strictEquals` (`strict_equals`) need nothing but the
  value. Conversions that look into an object need the heap, and are not here.
* `same` tells whether two values cannot be told apart: a NaN is the same as itself.
-/

namespace Fermata

/-- Address of an object. -/
abbrev ObjectId := Addr .object
/-- Address of a closure. -/
abbrev ClosureId := Addr .closure
/-- Address of a native function. -/
abbrev NativeId := Addr .native
/-- Address of a scope. -/
abbrev ScopeId := Addr .scope
/-- Address of a pending value. -/
abbrev PendingId := Addr .pending

/-- A guest value. -/
inductive Value where
  | undefined
  | null
  | bool (b : Bool)
  | number (x : Float)
  | string (s : String)
  | object (id : ObjectId)
  | function (id : ClosureId)
  | native (id : NativeId)
  | pending (id : PendingId)
deriving Inhabited, Repr

namespace Value

/-- `undefined`. -/
def isUndefined : Value → Bool
  | .undefined => true
  | _ => false

/-- `undefined` or `null`. -/
def isNullish : Value → Bool
  | .undefined | .null => true
  | _ => false

/-- A pending value. -/
def isPending : Value → Bool
  | .pending _ => true
  | _ => false

/-- Something that can be called. -/
def isCallable : Value → Bool
  | .function _ | .native _ => true
  | _ => false

/-- Something with properties. -/
def isObjectLike : Value → Bool
  | .object _ | .function _ | .native _ => true
  | _ => false

/-- The name of the value's type. -/
def typeName : Value → String
  | .undefined => "undefined"
  | .null | .object _ | .pending _ => "object"
  | .bool _ => "boolean"
  | .number _ => "number"
  | .string _ => "string"
  | .function _ | .native _ => "function"

/-- Whether the value counts as true. -/
def truthy : Value → Bool
  | .undefined | .null => false
  | .bool b => b
  | .number x => !(x == 0 || x.isNaN)
  | .string s => !s.isEmpty
  | _ => true

/-- Equality without conversion. Two NaNs differ; what has an identity is equal to itself alone. -/
def strictEquals : Value → Value → Bool
  | .undefined, .undefined | .null, .null => true
  | .bool a, .bool b => a == b
  | .number a, .number b => a == b
  | .string a, .string b => a == b
  | .object a, .object b => a == b
  | .function a, .function b => a == b
  | .native a, .native b => a == b
  | .pending a, .pending b => a == b
  | _, _ => false

/-- Equality for a host: like `strictEquals`, but NaN equals itself. -/
def same (a b : Value) : Bool :=
  match a, b with
  | .number x, .number y => (x.isNaN && y.isNaN) || x == y
  | _, _ => a.strictEquals b

/-- A natural number as a value. -/
def ofNat (n : Nat) : Value := .number n.toFloat

end Value

end Fermata
