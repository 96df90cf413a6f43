import Fermata.Syntax.Span

/-!
# Refused sources

Why a source does not become a unit (`CompileError`): its text does not match the grammar, it matches but
has no tree, or the tree holds a jump that leads nowhere.

* `BuildError` is about what matches and has no tree, `InvalidCause` about jumps.
* `CompileError.message`, `CompileError.span` (`CompileError::message`, `span`) are what a host is told.

Left out: what the grammar would have accepted at the place where a text stops matching. Only the place is
kept.
-/

namespace Fermata

/-- Why a matched text has no tree. -/
inductive BuildCause where
  | blockScoped
  | assignTarget
  | updateTarget
  | eachTarget
  | numberTooLarge (text : String)
deriving DecidableEq, Repr, Inhabited

/-- The wording of a cause. -/
def BuildCause.message : BuildCause → String
  | .blockScoped => "Block-scoped declarations (let/const) are not supported; use var"
  | .assignTarget => "Invalid assignment target"
  | .updateTarget => "Invalid update target"
  | .eachTarget => "Invalid left-hand side in for-in/for-of"
  | .numberTooLarge text => "Invalid number literal '" ++ text ++ "'"

/-- A matched text without a tree, and where. -/
structure BuildError where
  cause : BuildCause
  span : Span
deriving DecidableEq, Repr, Inhabited

/-- Why a tree is no unit. -/
inductive InvalidCause where
  | returnOutside
  | breakOutside
  | unknownLabel (label : String)
  | continueOutside
  | continueLabel (label : String)
  | uninstrumented (id : Nat)
deriving DecidableEq, Repr, Inhabited

/-- The wording of a cause. -/
def InvalidCause.message : InvalidCause → String
  | .returnOutside => "Illegal return statement outside of a function"
  | .breakOutside => "Illegal break statement"
  | .unknownLabel label => "Undefined label '" ++ label ++ "'"
  | .continueOutside => "Illegal continue statement: no surrounding iteration statement"
  | .continueLabel label =>
    "Illegal continue statement: '" ++ label ++ "' does not denote an iteration statement"
  | .uninstrumented id => "function #" ++ toString id ++ " was never instrumented"

/-- A refused source. -/
inductive CompileError where
  /-- The text does not match; the furthest failure is here. -/
  | unmatched (position : Position)
  | unbuildable (error : BuildError)
  | invalid (cause : InvalidCause) (span : Option Span)
deriving DecidableEq, Repr, Inhabited

namespace CompileError

/-- The wording. An unmatched text is reported by line and column, both from 1. -/
def message : CompileError → String
  | .unmatched p => " --> " ++ toString (p.line + 1) ++ ":" ++ toString (p.column + 1)
  | .unbuildable e => e.cause.message
  | .invalid cause _ => cause.message

/-- Where it went wrong. The span of an unmatched text is one column wide and has no offsets. -/
def span : CompileError → Option Span
  | .unmatched p => some ⟨⟨0, p.line, p.column⟩, ⟨0, p.line, p.column + 1⟩⟩
  | .unbuildable e => some e.span
  | .invalid _ span => span

end CompileError

end Fermata
