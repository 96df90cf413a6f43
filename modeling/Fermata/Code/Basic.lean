import Fermata.Code.Digest
import Fermata.Code.Resolve
import Fermata.Syntax.Grammar

/-!
# Code units

A `CodeUnit` (`CompiledUnit`) is a program whose names are resolved, with its scope tree and its source.

* `CodeUnit.compile` (`CompiledUnit::compile`, `compile_in`) makes one from a source, either to run at
  the top level or inside a scope whose names are given.
* `CodeUnit.ofProgram` (`from_program`, `from_program_in`) makes one from a tree.
* `record?`, `function?`, `slice?` look a record, a literal or a piece of the source up.

Left out: the cache of an engine, which is part of a session, and log lines.
-/

namespace Fermata

/-- The part of a text between two byte offsets, if both lie between characters. -/
def sliceBytes (text : String) (start stop : Nat) : Option String :=
  go text.toList 0 none
where
  /-- Go on at an offset; the part is collected in reverse once its start was met. -/
  go (rest : List Char) (offset : Nat) (taken : Option (List Char)) : Option String :=
    let taken := if taken.isNone && offset = start then some [] else taken
    if offset = stop then taken.map fun cs => String.ofList cs.reverse
    else
      match rest with
      | [] => none
      | c :: cs => go cs (offset + c.utf8Size) (taken.map (c :: ·))

/-- A program ready to run. -/
structure CodeUnit where
  source : String
  hash : String
  program : Program
  records : Array ScopeRecord
  /-- The function literals by number, with their names resolved. -/
  functions : Array (Option FunctionNode)
deriving Inhabited

namespace CodeUnit

/-- The record of a literal. -/
def record? (u : CodeUnit) (id : Nat) : Option ScopeRecord := u.records[id]?

/-- A literal. -/
def function? (u : CodeUnit) (id : Nat) : Option FunctionNode := (u.functions[id]?).join

/-- The source text of a span. -/
def slice? (u : CodeUnit) (span : Span) : Option String :=
  sliceBytes u.source span.start.offset span.stop.offset

/-- The unit of a tree that runs where the names `outer` are bound. -/
def ofProgram (source : String) (p : Program) (outer : List String) :
    Except CompileError CodeUnit := do
  let r ← Resolve.program p outer
  return { source, hash := Digest.ofText source, program := { p with body := r.body },
           records := r.records, functions := r.functions }

/-- The unit of a source that runs where the names `outer` are bound. -/
def compile (source : String) (outer : List String) : Except CompileError CodeUnit := do
  ofProgram source (← Grammar.parse source) outer

end CodeUnit

end Fermata
