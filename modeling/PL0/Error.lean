import PL0.Codegen
import PL0.Grammar
import PL0.Lexer
import PL0.Machine

/-!
# `PL0.Error` — how the toolchain fails

One cause for each stage, and those that lie outside the program: a malformed artifact, a sink that
refuses a value, a file that cannot be read or written. `Error.message` is the text for the user; it
begins with the stage.
-/

namespace PL0

/-- Why a file cannot be read or written. -/
inductive FileFailure where
  /-- Nothing is there. -/
  | missing
  | isDirectory
  /-- Part of the path is a file but stands where a directory would have to. -/
  | notDirectory
  | denied
  /-- The content is no UTF-8 text. -/
  | notText
  | other (reason : String)
deriving DecidableEq, Repr, Inhabited

def FileFailure.message : FileFailure → String
  | missing => "No such file or directory (os error 2)"
  | isDirectory => "Is a directory (os error 21)"
  | notDirectory => "Not a directory (os error 20)"
  | denied => "Permission denied (os error 13)"
  | notText => "stream did not contain valid UTF-8"
  | other reason => reason

/-- A failure that the text of the program does not cause. -/
inductive InternalError where
  | malformedArtifact
  | missingChannel (name : String)
  | buffer (e : PatchError)
  | sink (e : SinkFailure)
  | unreadable (path : String) (e : FileFailure)
  | unwritable (path : String) (e : FileFailure)
deriving DecidableEq, Repr, Inhabited

def InternalError.message : InternalError → String
  | malformedArtifact => "Failed parse bytecode"
  | missingChannel name => s!"I/O port '{name}' missing from the outermost scope"
  | buffer e => e.message
  | sink e => e.message
  | unreadable path e => s!"Failed open file {path}: {e.message}"
  | unwritable path e => s!"Failed write {path}: {e.message}"

inductive Error where
  | lexical (e : LexError)
  | grammatical (e : SyntaxError)
  /-- A name is not visible where it is used. -/
  | undeclared (x : Ident)
  /-- The instruction at this address faulted. -/
  | runtime (address : Nat) (f : Fault)
  | internal (e : InternalError)
deriving DecidableEq, Repr, Inhabited

namespace Error

def message : Error → String
  | lexical e => s!"scan error: {e.message}"
  | grammatical e => s!"syntax error: {e.message}"
  | undeclared x => s!"generation error: index {x.index}: Undeclared identifier '{x.name}'"
  | runtime address f => s!"runtime error: instruction {address}: {f.message}"
  | internal e => s!"internal error: {e.message}"

def ofCodegen : CodegenError → Error
  | .undeclared x => undeclared x
  | .missingChannel name => internal (.missingChannel name)
  | .buffer e => internal (.buffer e)

/-- The failure that a step answered, if it is one. -/
def ofOutcome? : Outcome → Option Error
  | .running => none
  | .halted => none
  | .fault address f => some (runtime address f)
  | .refused e => some (internal (.sink e))

end Error

end PL0
