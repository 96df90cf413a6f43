import Fermata.Code.Layout
import Fermata.Command.Arguments
import Fermata.Json.Reader
import Fermata.Session.Evaluate
import Fermata.Settings.Load
import Fermata.Settings.Variables
import Fermata.Text.Character

/-!
# Help

The explanation of the program and of its commands.
-/

namespace Fermata.Help

/-- The option that names the settings file. -/
def configOption : String :=
  "      --config <CONFIG>  Path to config file (overrides default search)\n"

/-- The option of the commands that evaluate. -/
def defineOption : String :=
  "  -d, --define <DEFINE>  Seed a global binding (name=json), repeatable\n"

/-- The option that asks for an explanation. -/
def helpOption : String := "  -h, --help             Print help\n"

/-- What `run` does. -/
def runAbout : String := "Evaluate a script file and print its value as JSON"

/-- What `eval` does. -/
def evalAbout : String := "Evaluate an inline snippet and print its value as JSON"

/-- What `compile` does. -/
def compileAbout : String := "Print the instrumented program and scope tree as JSON"

/-- What `help` does. -/
def helpAbout : String := "Print this message or the help of the given subcommand(s)"

/-- The explanation of the program. -/
def program : String :=
  "Cadence - a suspendable interpreter for guest scripts\n\n" ++
  "Usage: cadence [OPTIONS] <COMMAND>\n\n" ++
  "Commands:\n" ++
  "  run      " ++ runAbout ++ "\n" ++
  "  eval     " ++ evalAbout ++ "\n" ++
  "  compile  " ++ compileAbout ++ "\n" ++
  "  help     " ++ helpAbout ++ "\n\n" ++
  "Options:\n" ++ configOption ++ helpOption

/-- The explanation of a command with one argument. -/
def command (about name argument meaning options : String) : String :=
  about ++ "\n\nUsage: cadence " ++ name ++ " [OPTIONS] <" ++ argument ++ ">\n\nArguments:\n  <"
    ++ argument ++ ">  " ++ meaning ++ "\n\nOptions:\n" ++ configOption ++ options ++ helpOption

/-- The explanation of `help` itself, which has no options. -/
def helpCommand : String :=
  helpAbout ++ "\n\nUsage: cadence help [COMMAND]...\n\n" ++
  "Arguments:\n  [COMMAND]...  Print help for the subcommand(s)\n"

/-- The explanation of a topic. -/
def text : Topic → String
  | .program => program
  | .command .run => command runAbout "run" "FILE" "Script to evaluate" defineOption
  | .command .eval => command evalAbout "eval" "CODE" "Source code" defineOption
  | .command .compile => command compileAbout "compile" "FILE" "Script to compile" ""
  | .help => helpCommand

end Fermata.Help

/-!
## Definitions on the command line

A definition `name=json` binds a global name. What is no JSON is taken as a text.
-/

namespace Fermata

/-- Why a definition is refused. -/
inductive DefineError where
  | noValue (raw : String)
  | badName (name : String)
deriving DecidableEq, Repr, Inhabited

/-- The wording. -/
def DefineError.message : DefineError → String
  | .noValue raw => "Invalid --define '" ++ raw ++ "', expected name=json"
  | .badName name => "Invalid --define name '" ++ name ++ "'"

/-- The name and value of a definition. -/
def parseDefine (raw : String) : Except DefineError (String × Json) :=
  let cs := raw.toList
  let before := cs.takeWhile (· ≠ '=')
  match cs.drop before.length with
  | _ :: value =>
    let name := Text.trim before
    if !Text.isName name then .error (.badName (String.ofList name))
    else
      let text := String.ofList value
      .ok (String.ofList name,
        match Json.parse text with
        | .ok j => j
        | .error _ => .string text)
  | [] => .error (.noValue raw)

/-!
## The program

What the command-line program does: load the settings, read the script, evaluate or compile it, and
say what to print. Files are read through a function, so that the program can be run on any files.
-/

/-- What the program leaves behind. -/
structure Exit where
  code : Nat
  out : String := ""
  err : String := ""
deriving DecidableEq, Repr, Inhabited

namespace Exit

/-- The command line is wrong. -/
def usage : Exit :=
  { code := 2, err := "usage: [--config FILE] run|eval|compile ARGUMENT [-d NAME=JSON]\n" }

/-- Something went wrong. -/
def failed (message : String) : Exit := { code := 1, err := "Error: " ++ message ++ "\n" }

/-- All went well. -/
def printed (j : Json) : Exit := { code := 0, out := j.pretty ++ "\n" }

end Exit

namespace Command

/-- Make the values of definitions in a session. -/
def makeDefines (s : Session) : List String → Except DefineError (List (String × Value) × Session)
  | [] => .ok ([], s)
  | raw :: rest => do
    let (name, j) ← parseDefine raw
    let (v, heap) := s.heap.ofJson hostRegion j
    let (defines, s) ← makeDefines { s with heap } rest
    return ((name, v) :: defines, s)

/-- Evaluate a source on a new engine. -/
def evaluate (settings : Settings) (source : String) (defines : List String) : Exit :=
  match makeDefines {} defines with
  | .error e => .failed e.message
  | .ok (defines, s) =>
    let s := s.addEngine none settings none defines
    match s.run 0 source with
    | (.finished (.ok v), s) => .printed (s.heap.toJson v)
    | (.finished (.error (.uncaught f)), _) => { code := 1, err := f.info.text ++ "\n" }
    | (.finished (.error e), _) => .failed e.message
    | (.suspended .., _) => .failed "the evaluation waits for a value that nobody settles"
    | (.outOfFuel, _) => .failed "the evaluation takes too many steps"

/-- Compile a source and show the unit. -/
def compile (source : String) : Exit :=
  match CodeUnit.compile source [] with
  | .ok u => .printed u.toJson
  | .error e => .failed e.message

variable {m : Type → Type} [Monad m]

/-- Read a script and go on with it. -/
def withScript (read : String → m (Option String)) (file : String) (f : String → Exit) :
    m Exit := do
  match ← read file with
  | some source => return f source
  | none => return .failed ("Failed to read " ++ file)

/-- Carry out a request. -/
def perform (read : String → m (Option String)) (env : Variables.Environment) (r : Request) :
    m Exit := do
  let env := match ← read Variables.fileName with
    | some text => Variables.addFile env text
    | none => env
  match ← Settings.load read r.config (some env) none with
  | .error e => return .failed e.message
  | .ok settings =>
    match r.action with
    | .run file defines => withScript read file fun source => evaluate settings source defines
    | .eval code defines => return evaluate settings code defines
    | .compile file => withScript read file compile
    | .help topic => return { code := 0, out := Help.text topic }

/-- The program on a command line. -/
def program (read : String → m (Option String)) (env : Variables.Environment) (args : List String) :
    m Exit :=
  match Request.parse? none args with
  | some ⟨.help topic, _⟩ => return { code := 0, out := Help.text topic }
  | some r => perform read env r
  | none => return .usage

end Command

end Fermata
