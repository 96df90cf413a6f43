import Fermata.Code.Basic
import Fermata.Syntax.Layout

/-!
# Units as JSON

A unit is shown by its hash, its program and its records (`ScopeTreeRecord`), in the order of their
fields.

Left out: reading a unit back. Only programs are.
-/

namespace Fermata

/-- A record as JSON. -/
def ScopeRecord.toJson (r : ScopeRecord) : Json :=
  .object
    ([("node", .ofNat r.node), ("name", .string r.name), ("params", Layout.nameList r.params),
      ("bindings", Layout.nameList r.bindings)]
    ++ Layout.optionalPart "self_binding" (r.selfBinding.map .string)
    ++ [("uses_this", .bool r.usesThis), ("requires_capture", .bool r.requiresCapture),
      ("hoisted", .array (r.hoisted.map .ofNat)), ("children", .array (r.children.map .ofNat))]
    ++ Layout.spanPart r.span)

/-- A unit as JSON. -/
def CodeUnit.toJson (u : CodeUnit) : Json :=
  .object [("hash", .string u.hash), ("program", u.program.toJson),
    ("records", .array (u.records.toList.map ScopeRecord.toJson))]

end Fermata
