/-!
# Command lines

The words of a command line as a request. Options stand anywhere behind the word that they belong
to, `--` ends them, and their values follow as the next word, after an equals sign, or, for a
short option, directly. A word that looks like an option but is none is refused, as is everything
that is missing, superfluous or given twice.
-/

namespace Fermata

/-- The commands with an argument. -/
inductive CommandName where
  | run | eval | compile
deriving DecidableEq, Repr, Inhabited

namespace CommandName

/-- The command of a word. -/
def ofWord? : String → Option CommandName
  | "run" => some .run
  | "eval" => some .eval
  | "compile" => some .compile
  | _ => none

/-- The command evaluates, so that names can be defined for it. -/
def evaluates : CommandName → Bool
  | .compile => false
  | _ => true

/-- The argument can be this word: the name of a file is not empty. -/
def admits (c : CommandName) (word : String) : Bool := c = .eval || word ≠ ""

end CommandName

/-- What can be explained. -/
inductive Topic where
  | program
  | command (name : CommandName)
  /-- The command `help` itself. -/
  | help
deriving DecidableEq, Repr, Inhabited

/-- What is to be done. -/
inductive Action where
  | run (file : String) (defines : List String)
  | eval (code : String) (defines : List String)
  | compile (file : String)
  | help (topic : Topic)
deriving DecidableEq, Repr, Inhabited

/-- A command line. -/
structure Request where
  action : Action
  /-- The settings file that was asked for. -/
  config : Option String
deriving DecidableEq, Repr, Inhabited

namespace Request

/-- An option. -/
inductive Flag where
  | config
  | define
deriving DecidableEq, Repr

/-- A word that looks like an option. -/
def looksLikeOption (w : String) : Bool :=
  match w.toList with
  | '-' :: _ :: _ => true
  | _ => false

/-- The value behind a text, if a word starts with it. -/
def behind? (start w : String) : Option String :=
  if start.toList.isPrefixOf w.toList then some (String.ofList (w.toList.drop start.length))
  else none

/-- The option that a word is, with the value that the word itself holds. -/
def flag? (defines : Bool) (w : String) : Option (Flag × Option String) :=
  if w = "--config" then some (.config, none)
  else if let some v := behind? "--config=" w then some (.config, some v)
  else if !defines then none
  else if w = "--define" ∨ w = "-d" then some (.define, none)
  else if let some v := behind? "--define=" w then some (.define, some v)
  else if let some v := behind? "-d=" w then some (.define, some v)
  else (behind? "-d" w).map fun v => (.define, some v)

/-- What the words of a command hold. -/
structure Words where
  positional : List String := []
  defines : List String := []
  config : Option String := none
deriving Inhabited

/-- Add the value of an option; a settings file is named once. -/
def Words.set? (ws : Words) (f : Flag) (v : String) : Option Words :=
  match f with
  | .define => some { ws with defines := ws.defines ++ [v] }
  | .config => if ws.config.isSome then none else some { ws with config := some v }

/-- A word that asks for help. Behind the letter further ones may follow. -/
def asksHelp (w : String) : Bool := w = "--help" || (behind? "-h" w).isSome

/-- What comes of the words of a command. -/
inductive Sorted where
  | words (ws : Words)
  | help
  | refused
deriving Inhabited

/-- Sort the words of a command. -/
def sort (c : CommandName) (ws : Words) (words : List String) : Sorted :=
  match words with
  | [] => .words ws
  | w :: rest =>
    if w = "--" then .words { ws with positional := ws.positional ++ rest }
    else if !looksLikeOption w then
      if ws.positional.isEmpty && c.admits w then sort c { ws with positional := [w] } rest
      else .refused
    else if asksHelp w then .help
    else
      match flag? c.evaluates w with
      | none => .refused
      | some (f, some v) =>
        match ws.set? f v with
        | some ws => sort c ws rest
        | none => .refused
      | some (f, none) =>
        match rest with
        | [] => .refused
        | v :: rest =>
          if looksLikeOption v then .refused
          else
            match ws.set? f v with
            | some ws => sort c ws rest
            | none => .refused

/-- The request of a command with its words. -/
def ofCommand? (outer : Option String) (c : CommandName) (words : List String) : Option Request :=
  match sort c {} words with
  | .refused => none
  | .help => some ⟨.help (.command c), outer⟩
  | .words ws =>
    match ws.positional with
    | [p] =>
      if !c.admits p then none
      else
        let action : Action := match c with
          | .run => .run p ws.defines
          | .eval => .eval p ws.defines
          | .compile => .compile p
        some ⟨action, ws.config.or outer⟩
    | _ => none

/-- What the words behind `help` ask to be explained. -/
def topic? : List String → Option Topic
  | [] => some .program
  | [w] => if w = "help" then some .help else (CommandName.ofWord? w).map .command
  | _ => none

/-- The request of a word that is no option, and the words behind it. -/
def ofWord? (outer : Option String) (w : String) (words : List String) : Option Request :=
  if w = "help" then (topic? words).map fun t => ⟨.help t, outer⟩
  else (CommandName.ofWord? w).bind fun c => ofCommand? outer c words

/-- The request of a command line, options of the program itself being read first. -/
def parse? (config : Option String) (words : List String) : Option Request :=
  match words with
  | [] => none
  | w :: rest =>
    if !looksLikeOption w then ofWord? config w rest
    else if asksHelp w then some ⟨.help .program, config⟩
    else
      match flag? false w with
      | none => none
      | some (_, some v) => if config.isSome then none else parse? (some v) rest
      | some (_, none) =>
        match rest with
        | [] => none
        | v :: rest => if looksLikeOption v || config.isSome then none else parse? (some v) rest

end Request

end Fermata
