import PL0.Token.Listing
import PL0.Toolchain

/-!
# `PL0.CommandLine` — the commands

A command names what is to be done with one file:

* `run FILE [-i N]…` compiles a source text and executes it on the input values;
* `exec FILE [-i N]…` executes an artifact;
* `tokens FILE` lists the tokens of a source text as JSON;
* `ast FILE [-o OUT]` draws its tree;
* `compile FILE [-o OUT]` makes its artifact;
* `listing FILE` lists its code.

`Command.ofArguments?` reads the arguments; options may stand on either side of the file and may
carry their value with them (`-iN`, `--input=N`). `Command.perform` says what a command does once
its file has been read, and `Report` what is to be shown of it.
-/

namespace PL0

/-- What was asked for on the command line. -/
inductive Command where
  | run (path : String) (input : List Int)
  | exec (path : String) (input : List Int)
  | tokens (path : String)
  | ast (path : String) (output : Option String)
  | compile (path : String) (output : Option String)
  | listing (path : String)
deriving DecidableEq, Repr, Inhabited

namespace Command

/-- The options of the commands. -/
inductive Flag where
  | input | output
deriving DecidableEq, Repr, Inhabited

def Flag.ofShort? : Char → Option Flag
  | 'i' => some input
  | 'o' => some output
  | _ => none

def Flag.ofLong? : String → Option Flag
  | "input" => some input
  | "output" => some output
  | _ => none

/-- An argument: a path, or an option with the value that it carries. -/
inductive Argument where
  | path (text : String)
  | option (flag : Flag) (value : Option String)
  | unknown
deriving DecidableEq, Repr, Inhabited

/-- The value that a short option carries in its own argument. -/
def attached : List Char → Option String
  | [] => none
  | '=' :: value => some (String.ofList value)
  | value => some (String.ofList value)

/-- An option, if it is known. -/
def Argument.ofFlag (flag : Option Flag) (value : Option String) : Argument :=
  match flag with
  | some f => option f value
  | none => unknown

/-- The value of a long option behind the sign of equality. -/
def longValue (name : List Char) : Option String :=
  match name.dropWhile (· != '=') with
  | [] => none
  | _ :: value => some (String.ofList value)

def Argument.ofText (text : String) : Argument :=
  match text.toList with
  | '-' :: '-' :: name =>
    ofFlag (Flag.ofLong? (String.ofList (name.takeWhile (· != '=')))) (longValue name)
  | '-' :: c :: value => ofFlag (Flag.ofShort? c) (attached value)
  | _ => path text

/-- Whether an argument may be the value of the option in front of it. -/
def isDetachedValue (text : String) : Bool := !(text.startsWith "-" && text != "-")

/-- The paths and the values of the options, in order; nothing where an option is unknown or lacks
its value. Behind `--` there are only paths. -/
def split? : List String → Option (List String × List (Flag × String))
  | [] => some ([], [])
  | "--" :: rest => some (rest, [])
  | a :: rest =>
    match Argument.ofText a with
    | .unknown => none
    | .path p => (split? rest).map fun (paths, values) => (p :: paths, values)
    | .option f (some v) => (split? rest).map fun (paths, values) => (paths, (f, v) :: values)
    | .option f none =>
      match rest with
      | [] => none
      | v :: rest' =>
        if isDetachedValue v then
          (split? rest').map fun (paths, values) => (paths, (f, v) :: values)
        else none

/-- All values are input values, and each is a word. -/
def inputs? : List (Flag × String) → Option (List Int)
  | [] => some []
  | (.input, text) :: rest => do
    let v ← Decimal.word? text
    let vs ← inputs? rest
    return v :: vs
  | (.output, _) :: _ => none

/-- At most one value, the path to write to. -/
def output? : List (Flag × String) → Option (Option String)
  | [] => some none
  | [(.output, path)] => some (some path)
  | _ => none

/-- The command of a name and what follows it. -/
def ofWords? : List String → Option Command
  | [] => none
  | name :: rest => do
    let ([path], values) ← split? rest | none
    match name with
    | "run" => return run path (← inputs? values)
    | "exec" => return exec path (← inputs? values)
    | "tokens" => if values.isEmpty then some (tokens path) else none
    | "ast" => return ast path (← output? values)
    | "compile" => return compile path (← output? values)
    | "listing" => if values.isEmpty then some (listing path) else none
    | _ => none

/-- The command that the arguments ask for; nothing where they ask for none. One `--` may stand in
front of the name of the command: what follows the name is read as without it. -/
def ofArguments? : List String → Option Command
  | "--" :: words => ofWords? words
  | words => ofWords? words

/-- The file to be read. -/
def path : Command → String
  | run p _ | exec p _ | tokens p | ast p _ | compile p _ | listing p => p

end Command

/-- What a command leaves: text on the standard output, a file to be written, or a failure. -/
structure Report where
  stdout : String
  /-- The path and the content of a file. -/
  file : Option (String × String)
  failure : Option Error

namespace Report

def ofText (text : String) : Report := ⟨text, none, none⟩

def ofError (e : Error) : Report := ⟨"", none, some e⟩

/-- A text without the blanks at its end, then a line break. -/
def trimmedLine (text : String) : String :=
  String.ofList (text.toList.reverse.dropWhile Char.isWhitespace).reverse ++ "\n"

/-- A text goes to a file as it is, and to the standard output as lines. -/
def ofOutput (output : Option String) (text : String) : Report :=
  match output with
  | some path => ⟨"", some (path, text), none⟩
  | none => ofText (trimmedLine text)

/-- What a run leaves that has come to its end. -/
def ofRun (r : Run) : Report := ⟨r.machine.sink.text, none, Error.ofOutcome? r.outcome⟩

def stderr (r : Report) : String :=
  match r.failure with
  | some e => e.message ++ "\n"
  | none => ""

/-- The exit code. -/
def status (r : Report) : Nat := if r.failure.isSome then 1 else 0

end Report

/-- What comes of a command: a report at once, or a run that is still to be made. -/
inductive Answer where
  | report (r : Report)
  | execution (r : Run)

namespace Command

/-- The answer of a stage that is shown by `f`. -/
def answer {α : Type} (stage : Toolchain α) (f : α → Answer) : Answer :=
  match stage.run #[] with
  | .ok a _ => f a
  | .error e _ => .report (.ofError e)

/-- A run from its start. -/
def execution (stage : Toolchain (Array Instruction)) (input : List Int) : Answer :=
  answer (do Toolchain.start (← stage) input Sink.unlimited) .execution

/-- What the command does with the content of its file. -/
def perform (c : Command) (content : String) : Answer :=
  match c with
  | run _ input => execution (Toolchain.compileSource content) input
  | exec _ input => execution (Toolchain.load content) input
  | tokens _ =>
    answer (Toolchain.scan content) fun ts => .report (.ofText (Token.listing ts ++ "\n"))
  | ast _ output =>
    answer (Toolchain.parseSource content) fun p => .report (.ofOutput output p.dot)
  | compile _ output =>
    answer (Toolchain.compileSource content) fun code =>
      .report (.ofOutput output (Artifact.write code.toList))
  | listing _ =>
    answer (Toolchain.compileSource content) fun code =>
      .report (.ofText (Instruction.listing code.toList))

/-- What is shown where the file cannot be read. -/
def unreadable (c : Command) (e : FileFailure) : Report :=
  .ofError (.internal (.unreadable c.path e))

end Command

end PL0
