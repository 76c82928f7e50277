import PL0.Artifact
import PL0.Error
import PL0.Event
import PL0.Tree.Printer

/-!
# `PL0.Toolchain` — the stages joined

The stages from a source text to a running machine, with what they report on the way. The report of
a stage that fails is kept up to its failure.

A program enters the toolchain in one of four forms (`Form`): as a text, as tokens, as instructions,
or as an artifact.
-/

namespace PL0

/-- A stage of the toolchain: it reports events, and it may fail. -/
abbrev Toolchain (α : Type) := EStateM Error (Array Event) α

namespace Toolchain

def report (e : Event) : Toolchain Unit := modify fun log => log.push e

def reportAll (es : List Event) : Toolchain Unit := modify fun log => log ++ es.toArray

/-- The tokens of a source text. -/
def scan (source : String) : Toolchain (List Token) := do
  let (tokens, failure) := Lexer.run source
  reportAll (tokens.map .token)
  match failure with
  | some e => throw (.lexical e)
  | none =>
    report (.scanned tokens.length)
    return tokens

/-- The tree of a list of tokens. -/
def parse (tokens : List Token) : Toolchain Program := do
  match Program.ofTokens tokens with
  | .ok p =>
    report (.parsed tokens.length)
    return p
  | .error e => throw (.grammatical e)

/-- The code of a tree. -/
def generate (p : Program) : Toolchain (Array Instruction) := do
  let (result, warnings) := p.compile
  reportAll (warnings.toList.map .warning)
  match result with
  | .ok code =>
    report (.generated code.size)
    return code
  | .error e => throw (.ofCodegen e)

/-- The code of an artifact. -/
def load (artifact : String) : Toolchain (Array Instruction) :=
  match Artifact.read? artifact with
  | some code => return code.toArray
  | none => throw (.internal .malformedArtifact)

/-- The tree of a source text. -/
def parseSource (source : String) : Toolchain Program := do
  parse (← scan source)

/-- The code of a source text. -/
def compileSource (source : String) : Toolchain (Array Instruction) := do
  generate (← parseSource source)

/-- The run of some code, before its first step. -/
def start (code : Array Instruction) (input : List Int) (sink : Sink) : Toolchain Run := do
  report (.executing code.size)
  return Run.start (Machine.load code input sink)

/-- The end of a run: what it reports, or how it failed. -/
def conclude (r : Run) : Toolchain Unit :=
  match r.outcome with
  | .running => return
  | .halted => report (.halted r.steps)
  | .fault address f => throw (.runtime address f)
  | .refused e => throw (.internal (.sink e))

end Toolchain

/-- The forms in which a program enters the toolchain. -/
inductive Form where
  | source (text : String)
  | tokens (ts : List Token)
  | code (is : List Instruction)
  | artifact (text : String)

namespace Form

/-- The tree of a program, where its form has one. -/
def tree? : Form → Option (Toolchain Program)
  | source text => some (Toolchain.parseSource text)
  | tokens ts => some (Toolchain.parse ts)
  | code _ => none
  | artifact _ => none

/-- The code of a program. -/
def compile : Form → Toolchain (Array Instruction)
  | source text => Toolchain.compileSource text
  | tokens ts => do Toolchain.generate (← Toolchain.parse ts)
  | code is => return is.toArray
  | artifact text => Toolchain.load text

end Form

end PL0
