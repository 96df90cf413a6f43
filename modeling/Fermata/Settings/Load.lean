import Fermata.Engine.Basic
import Fermata.Json.Reader
import Fermata.Settings.Ini
import Fermata.Settings.Json5
import Fermata.Settings.Key
import Fermata.Settings.Ron
import Fermata.Settings.Toml
import Fermata.Settings.Yaml

/-!
# Loading settings

Settings come from a file and from environment variables; a variable wins over the file. A file that
was named must be there, the default one need not. Keys that mean nothing are passed over.

* `Format.parse` reads a text in the format that the name of its file tells: every format gives a
  table of settings, and where the whole of a file can be something else, that is refused.
* `Settings.ofEntries` converts entries to settings.
* `Settings.load` reads the file through a function that it is given, so that it does not depend on
  where files come from.
-/

namespace Fermata

/-! ## Formats -/

mutual

/-- The setting that a JSON tree is. An integer beyond 64 bits is a floating-point number. -/
def Setting.ofJson : Json → Setting
  | .null => .nil
  | .bool b => .bool b
  | .number (.integer n) => if Setting.inRange n then .integer n else .float (Number.ofInt n)
  | .number (.double x) => .float x
  | .string s => .text s
  | .array items => .list (jsonItems items)
  | .object members => .table (jsonMembers members)

/-- The items of an array. -/
def jsonItems : List Json → List Setting
  | [] => []
  | j :: rest => .ofJson j :: jsonItems rest

/-- The members of an object. -/
def jsonMembers : List (String × Json) → List (String × Setting)
  | [] => []
  | (k, j) :: rest => (k, .ofJson j) :: jsonMembers rest

end

/-- A format. -/
inductive Format where
  | toml | json | yaml | ini | ron | json5
deriving DecidableEq, Repr

namespace Format

/-- All formats. -/
def all : List Format := [.toml, .json, .yaml, .ini, .ron, .json5]

/-- What names of files end in. -/
def endings : Format → List String
  | .toml => ["toml"]
  | .json => ["json"]
  | .yaml => ["yaml", "yml"]
  | .ini => ["ini"]
  | .ron => ["ron"]
  | .json5 => ["json5"]

/-- The format of an ending. -/
def ofEnding? (ending : String) : Option Format :=
  all.find? fun f => f.endings.contains ending

/-- The members of a value that has to be a table. -/
def table (origin : Origin) : Setting → Except String (List (String × Setting))
  | .table members => .ok members
  | v => .error (TypeError.message ⟨v, "a map", none, some origin⟩)

/-- The settings of a text, or why it is refused. -/
def parse (f : Format) (origin : Origin) (text : String) :
    Except String (List (String × Setting)) :=
  match f with
  | .toml => Toml.parse text
  | .json =>
    match Json.parse text with
    | .ok j => table origin (.ofJson j)
    | .error e => .error e.message
  | .yaml => do table origin (← Yaml.parse text)
  | .ini => Ini.parse text
  | .ron => do table origin (← Ron.parse text)
  | .json5 => do table origin (← Json5.parse text)

end Format

/-! ## Errors -/

/-- Why settings are refused. -/
inductive SettingsError where
  | missingFile (path : String)
  | unknownFormat (path : String)
  | malformed (cause : String) (path : String)
  | wrongType (error : TypeError)
  | zeroDepth
deriving Inhabited

namespace SettingsError

/-- The settings could not be loaded, as opposed to their making no sense. -/
def isLoading : SettingsError → Bool
  | .zeroDepth => false
  | _ => true

/-- Why settings could not be loaded. -/
def cause : SettingsError → String
  | .missingFile path => "configuration file \"" ++ path ++ "\" not found"
  | .unknownFormat path =>
    "configuration file \"" ++ path ++ "\" is not of a registered file format"
  | .malformed cause path => cause ++ " in " ++ path
  | .wrongType e => e.message
  | .zeroDepth => "max_call_depth must be at least 1"

/-- The wording. -/
def message (e : SettingsError) : String :=
  (if e.isLoading then "failed to load configuration: " else "invalid configuration: ") ++ e.cause

end SettingsError

/-! ## Names of settings -/

/-- Key of the name. -/
def nameSetting : String := "name"
/-- Key of the greatest depth. -/
def depthSetting : String := "max_call_depth"
/-- Key of the number of positions kept. -/
def traceSetting : String := "stack_trace_limit"
/-- Key of the standard functions. -/
def stdlibSetting : String := "install_stdlib"
/-- Key of the report filter. -/
def filterSetting : String := "log_filter"

/-- What the names of environment variables begin with. -/
def variableStart : String := "CADENCE_"

/-- The variable that names the settings file. -/
def pathVariable : String := "CADENCE_CONFIG_PATH"

/-- The settings file that is read if it is there. -/
def defaultFile : String := "cadence.toml"

/-! ## Files -/

namespace Path

/-- The steps of a path; one that stays in place is none. -/
def steps (path : String) : List String :=
  (path.splitOn "/").filter fun s => s ≠ "" && s ≠ "."

/-- The path as messages show it. -/
def plain (path : String) : String :=
  (if path.startsWith "/" then "/" else "") ++ "/".intercalate (steps path)

/-- What a file name ends in, behind the last dot. -/
def ending? (path : String) : Option String :=
  match (((steps path).getLast?.getD "").splitOn ".").reverse with
  | ending :: stem :: rest => if rest.isEmpty && stem.isEmpty then none else some ending
  | _ => none

/-- The path with an ending behind its last step. -/
def withEnding? (path ending : String) : Option String :=
  match (steps path).getLast? with
  | none => none
  | some last => if last = ".." then none else some (plain path ++ "." ++ ending)

end Path

namespace Settings

/-- The file that a path means: itself, or itself with the ending of a known format. -/
def findFile {m : Type → Type} [Monad m] (read : String → m (Option String)) (path : String) :
    m (Option (String × String)) := do
  let others := (Format.all.flatMap Format.endings).filterMap (Path.withEnding? path)
  for candidate in path :: others do
    if let some text ← read candidate then return some (candidate, text)
  return none

/-- The keys of a file with their values. -/
def fileTable (path text : String) : Except SettingsError (List (String × Setting)) :=
  match (Path.ending? path).bind Format.ofEnding? with
  | none => .error (.unknownFormat path)
  | some f =>
    let shown := Path.plain path
    match f.parse (.file shown) text with
    | .ok members => .ok members
    | .error cause => .error (.malformed cause shown)

/-! ## Entries -/

/-- Add the keys of a file. -/
def addFile (entries : Entries) (path : String) (members : List (String × Setting)) : Entries :=
  members.foldl (fun es (k, v) => es.assign (.ofText k) v (.file (Path.plain path))) entries

/-- The key that an environment variable stands for. A double underscore divides it into parts. -/
def variableKey? (name : String) : Option Key :=
  let name := (Text.lower name).toList
  let start := (Text.lower variableStart).toList
  if start.isPrefixOf name then
    let key := String.ofList (name.drop start.length)
    some (.ofText (".".intercalate (key.splitOn "__")))
  else none

/-- Add the environment variables that stand for settings. -/
def addVariables (entries : Entries) (env : List (String × String)) : Entries :=
  env.foldl (fun es (name, v) =>
    match variableKey? name with
    | some key => es.assign key (.ofVariable v) .environment
    | none => es) entries

/-! ## Conversion -/

/-- Convert the entry of a key, or take a default. -/
def field {α : Type} (entries : Entries) (key : String) (d : α) (convert : Setting → Option α)
    (expected : Setting → String) (shown : Setting → Setting) : Except SettingsError α :=
  match entries.lookup key with
  | none => .ok d
  | some e =>
    match convert e.value with
    | some a => .ok a
    | none => .error (.wrongType ⟨shown e.value, expected e.value, some key, e.origin⟩)

/-- A text. -/
def textField {α : Type} (entries : Entries) (key : String) (d : α)
    (convert : Setting → Option α) : Except SettingsError α :=
  field entries key d convert (fun _ => "a string") id

/-- A name, or none. -/
def optionalText? : Setting → Option (Option String)
  | .nil => some none
  | v => v.toText?.map some

/-- What a size is expected to be, for a message. -/
def sizeExpected : Setting → String
  | .integer _ => "an unsigned 64 bit or less integer"
  | _ => "an integer"

/-- A size. -/
def sizeField (entries : Entries) (key : String) (d : Nat) : Except SettingsError Nat :=
  field entries key d Setting.toNat? sizeExpected id

/-- A text in small letters, as it was compared with words. -/
def inSmallLetters : Setting → Setting
  | .text s => .text (Text.lower s)
  | v => v

/-- A truth value. -/
def boolField (entries : Entries) (key : String) (d : Bool) : Except SettingsError Bool :=
  field entries key d Setting.toBool? (fun _ => "a boolean") inSmallLetters

/-- The settings of some entries. -/
def ofEntries (entries : Entries) : Except SettingsError Settings := do
  let d : Settings := {}
  return {
    name := ← textField entries nameSetting d.name optionalText?
    maxCallDepth := ← sizeField entries depthSetting d.maxCallDepth
    stackTraceLimit := ← sizeField entries traceSetting d.stackTraceLimit
    installStdlib := ← boolField entries stdlibSetting d.installStdlib
    logFilter := ← textField entries filterSetting d.logFilter Setting.toText? }

/-- Settings that make sense. -/
def validate (s : Settings) : Except SettingsError Settings :=
  if s.maxCallDepth = 0 then .error .zeroDepth else .ok s

/-- The entries of the file that was asked for, or of the default one. -/
def fileEntries {m : Type → Type} [Monad m] (read : String → m (Option String))
    (asked : Option String) : m (Except SettingsError Entries) := do
  let path := asked.getD defaultFile
  match ← findFile read path with
  | some (found, text) => return (addFile [] found ·) <$> fileTable found text
  | none => return if asked.isSome then .error (.missingFile path) else .ok []

/-- Load settings. `path` is the file that was asked for; `environment` is left out when it is to be
ignored; `name` overrides the name. -/
def load {m : Type → Type} [Monad m] (read : String → m (Option String)) (path : Option String)
    (environment : Option (List (String × String))) (name : Option String) :
    m (Except SettingsError Settings) := do
  let env := environment.getD []
  let fromFile ← fileEntries read (path.or (env.lookup pathVariable))
  return do
    let s ← ofEntries (addVariables (← fromFile) env)
    validate (match name with
      | some n => { s with name := some n }
      | none => s)

end Settings

end Fermata
