import Fermata.Settings.Yaml.Lexer
import Fermata.Settings.Yaml.Node

/-!
# YAML files

`Yaml.parse` gives the value of a file. A file is one document; without any it is an empty table. A
mapping that has a key twice is refused, but only if there is nothing else to refuse in the file.
-/

namespace Fermata.Yaml

/-! ## Nodes -/

/-- What is left of the tokens, and what is known. -/
structure Stream where
  tokens : List (Mark × Token)
  /-- Nodes with a name; one that is not complete yet is unfit. -/
  anchors : List (String × Node) := []
  /-- What handles of tags stand for. -/
  handles : List (String × String) := []
  /-- Where the latest node was complete. -/
  place : Mark := {}
  /-- The first key that a mapping has twice. -/
  repeated : Option Fault := none

/-- A step that takes tokens off a stream. -/
abbrev Building (α : Type) := StateT Stream (Except String) α

namespace Building

/-- The next token. -/
def peek : Building (Mark × Token) := return (← get).tokens.headD ({}, .streamEnd)

/-- The next token, without its place. -/
def next : Building Token := return (← peek).2

/-- A node is complete in front of the next token. -/
def stop : Building Unit := do
  let (here, _) ← peek
  modify fun s => { s with place := here }

/-- Pass a token. A node can be complete with it. -/
def pass : Building Unit := do
  stop
  modify fun s => { s with tokens := s.tokens.tail }

/-- Refuse the next token. -/
def refuse {α : Type} (info : String) : Building α := do
  throw (Fault.message ⟨info, (← peek).1⟩)

/-- Give a node a name. -/
def nameNode (name : Option String) (v : Node) : Building Unit :=
  modify fun s => match name with
    | some n => { s with anchors := (n, v) :: s.anchors }
    | none => s

/-- What a tag stands for. -/
def resolveTag (handle suffix : String) : Building (String × String) := do
  match (← get).handles.lookup handle with
  | some start => return (start, suffix)
  | none =>
    if handle = "!!" then return (Node.commonTags, suffix)
    else if handle.length ≥ 2 && handle.toList.getLast? = some '!' then
      refuse "the handle wasn't declared"
    else return (handle, suffix)

/-- An anchor, if there is one. -/
def anchor? : Building (Option String) := do
  match ← next with
  | .anchor name =>
    pass
    nameNode (some name) .unfit
    return some name
  | _ => return none

/-- A tag, if there is one. -/
def tag? : Building (Option (String × String)) := do
  match ← next with
  | .tag handle suffix =>
    pass
    return some (← resolveTag handle suffix)
  | _ => return none

/-- An anchor and a tag, in either order. -/
def properties : Building (Option String × Option (String × String)) := do
  match ← anchor? with
  | some name => return (some name, ← tag?)
  | none =>
    match ← tag? with
    | some t => return (← anchor?, some t)
    | none => return (none, none)

/-- A scalar. -/
def scalar (tag : Option (String × String)) (plain : Bool) (text : String) : Node :=
  if !plain then .text text
  else
    match tag with
    | some (handle, suffix) => .ofTagged handle suffix text
    | none => .ofPlain text

/-- A scalar that is left out. -/
def absent (tag : Option (String × String)) : Building Node := do
  stop
  return scalar tag true ""

/-- Add the latest node to a mapping. -/
def addNode (m : Members) (v : Node) : Building Members := do
  if let some k := m.repeated? then
    modify fun s =>
      let fault := ⟨k.describe ++ ": duplicated key in mapping", s.place⟩
      { s with repeated := s.repeated.or (some fault) }
  return m.add v

mutual

/-- A node. `block` tells that it can be a block, and `indentless` that it can be a sequence that is
not indented further. -/
def node : Nat → (block indentless : Bool) → Building Node
  | 0, _, _ => refuse "while parsing a node, did not find expected node content"
  | fuel + 1, block, indentless => do
    if let .reference name ← next then
      match (← get).anchors.lookup name with
      | some v =>
        pass
        return v
      | none => refuse "while parsing node, found unknown anchor"
    let (name, tag) ← properties
    let v ← match ← next with
      | .scalar plain text =>
        pass
        pure (scalar tag plain text)
      | .blockEntry =>
        if indentless then Node.list <$> indentlessEntries fuel
        else if name.isSome || tag.isSome then absent tag
        else refuse "while parsing a node, did not find expected node content"
      | .flowSequenceStart =>
        pass
        Node.list <$> flowEntries fuel true
      | .flowMappingStart =>
        pass
        flowMembers fuel true {}
      | t =>
        if block && t = .blockSequenceStart then
          pass
          Node.list <$> blockEntries fuel
        else if block && t = .blockMappingStart then
          pass
          blockMembers fuel {}
        else if name.isSome || tag.isSome then absent tag
        else refuse "while parsing a node, did not find expected node content"
    nameNode name v
    return v

/-- A node, or nothing if the next token ends it. -/
def nodeUnless : Nat → (stops : Token → Bool) → (block indentless : Bool) → Building Node
  | 0, _, _, _ => refuse "while parsing a node, did not find expected node content"
  | fuel + 1, stops, block, indentless => do
    if stops (← next) then absent none else node fuel block indentless

/-- The entries of a sequence, to its end. -/
def blockEntries : Nat → Building (List Node)
  | 0 => refuse "while parsing a block collection, did not find expected '-' indicator"
  | fuel + 1 => do
    match ← next with
    | .blockEnd =>
      pass
      return []
    | .blockEntry =>
      pass
      let v ← nodeUnless fuel (fun t => t = .blockEntry || t = .blockEnd) true false
      return v :: (← blockEntries fuel)
    | _ => refuse "while parsing a block collection, did not find expected '-' indicator"

/-- The entries of a sequence that is indented like its key. -/
def indentlessEntries : Nat → Building (List Node)
  | 0 => refuse "while parsing a block collection, did not find expected '-' indicator"
  | fuel + 1 => do
    match ← next with
    | .blockEntry =>
      pass
      let stops (t : Token) := t = .blockEntry || t = .key || t = .value || t = .blockEnd
      let v ← nodeUnless fuel stops true false
      return v :: (← indentlessEntries fuel)
    | _ =>
      stop
      return []

/-- The members of a mapping, to its end. -/
def blockMembers : Nat → Members → Building Node
  | 0, _ => refuse "while parsing a block mapping, did not find expected key"
  | fuel + 1, sofar => do
    let stops (t : Token) := t = .key || t = .value || t = .blockEnd
    let withValue (k : Node) : Building Members := do
      let m ← addNode sofar k
      if (← next) = .value then
        pass
        addNode m (← nodeUnless fuel stops true true)
      else addNode m (← absent none)
    match ← next with
    | .key =>
      pass
      blockMembers fuel (← withValue (← nodeUnless fuel stops true true))
    | .value => blockMembers fuel (← withValue (← absent none))
    | .blockEnd =>
      pass
      return .mapping sofar.pairs
    | _ => refuse "while parsing a block mapping, did not find expected key"

/-- The entries of a sequence in brackets, to its end. -/
def flowEntries : Nat → (first : Bool) → Building (List Node)
  | 0, _ => refuse "while parsing a flow sequence, expected ',' or ']'"
  | fuel + 1, first => do
    if (← next) = .flowSequenceEnd then
      pass
      return []
    if !first then
      if (← next) = .flowEntry then pass
      else refuse "while parsing a flow sequence, expected ',' or ']'"
    match ← next with
    | .flowSequenceEnd =>
      pass
      return []
    | .key =>
      pass
      let v ← flowPair fuel
      return v :: (← flowEntries fuel false)
    | _ =>
      let v ← node fuel false false
      return v :: (← flowEntries fuel false)

/-- A mapping of one member without braces. -/
def flowPair : Nat → Building Node
  | 0 => refuse "while parsing a flow sequence, expected ',' or ']'"
  | fuel + 1 => do
    let ends (t : Token) := t = .flowEntry || t = .flowSequenceEnd
    let k ← if ends (← next) || (← next) = .value then
        pass
        pure Node.nil
      else node fuel false false
    let v ← if (← next) = .value then
        pass
        nodeUnless fuel ends false false
      else absent none
    return .mapping ((({} : Members).add k).add v).pairs

/-- The members of a mapping in braces, to its end. -/
def flowMembers : Nat → (first : Bool) → Members → Building Node
  | 0, _, _ => refuse "while parsing a flow mapping, did not find expected ',' or '\x7d'"
  | fuel + 1, first, sofar => do
    if (← next) = .flowMappingEnd then
      pass
      return .mapping sofar.pairs
    if !first then
      if (← next) = .flowEntry then pass
      else refuse "while parsing a flow mapping, did not find expected ',' or '\x7d'"
    let ends (t : Token) := t = .flowEntry || t = .flowMappingEnd
    let withValue (k : Node) : Building Members := do
      let m ← addNode sofar k
      if (← next) = .value then
        pass
        addNode m (← if ends (← next) then pure .nil else node fuel false false)
      else addNode m (← absent none)
    match ← next with
    | .flowMappingEnd =>
      pass
      return .mapping sofar.pairs
    | .key =>
      pass
      let k ← nodeUnless fuel (fun t => t = .value || ends t) false false
      flowMembers fuel false (← withValue k)
    | .value => flowMembers fuel false (← withValue (← absent none))
    | _ =>
      let m ← addNode sofar (← node fuel false false)
      flowMembers fuel false (← addNode m (← absent none))

end

/-! ## Documents -/

/-- Directives, to the line that starts a document. -/
def directives : Nat → (version : Bool) → Building Unit
  | 0, _ => return
  | fuel + 1, version => do
    match ← next with
    | .versionDirective =>
      if version then refuse "duplicate version directive"
      pass
      directives fuel true
    | .tagDirective handle start =>
      let known := (← get).handles
      if known.any (·.1 == handle) then
        refuse "the TAG directive must only be given at most once per handle in the same document"
      pass
      modify fun s => { s with handles := known ++ [(handle, start)] }
      directives fuel version
    | _ => return

/-- A token in front of a document, or behind all. -/
def startsDocument : Token → Bool
  | .versionDirective | .tagDirective .. | .documentStart | .streamEnd => true
  | _ => false

/-- All documents. `implicit` tells that one can start without a line that says so. -/
def documents : Nat → (implicit : Bool) → Building (List Node)
  | 0, _ => return []
  | fuel + 1, implicit => do
    match ← next with
    | .documentEnd =>
      pass
      documents fuel implicit
    | .streamEnd => return []
    | t =>
      if implicit && !startsDocument t then
        let v ← node fuel true false
        return v :: (← following fuel)
      else
        directives fuel false
        if (← next) ≠ .documentStart then refuse "did not find expected <document start>"
        pass
        let v ← nodeUnless fuel (fun t => startsDocument t || t = .documentEnd) true false
        return v :: (← following fuel)
where
  /-- The documents behind one. -/
  following : Nat → Building (List Node)
    | 0 => return []
    | fuel + 1 => do
      modify fun s => { s with handles := [], anchors := [] }
      if (← next) = .documentEnd then
        pass
        documents fuel true
      else
        match ← next with
        | .versionDirective | .tagDirective .. =>
          refuse "missing explicit document end marker before directive"
        | _ => documents fuel false

end Building

/-- The value of a file. -/
def parse (text : String) : Except String Setting := do
  let tokens ← match Token.ofText text with
    | .ok ts => pure ts
    | .error f => throw f.message
  let (docs, s) ← (Building.documents (4 * tokens.length + 4) true).run { tokens }
  if let some f := s.repeated then throw f.message
  match docs with
  | [] => return .table []
  | [v] => v.toSetting
  | _ => throw ("Got " ++ toString docs.length ++ " YAML documents, expected 1")

end Fermata.Yaml
