import PL0.Codegen
import PL0.Machine
import PL0.Token

/-!
# `PL0.Event` — what the toolchain reports while it works

Warnings, the sizes of what each stage made, and a trace of every token completed and every
instruction about to be executed. An event has a level, and its line is the level and a text.
-/

namespace PL0

/-- How much an event is asked for: warnings most, traces least. -/
inductive LogLevel where
  | warn | debug | trace
deriving DecidableEq, Repr, Inhabited

namespace LogLevel

def name : LogLevel → String
  | warn => "WARN"
  | debug => "DEBUG"
  | trace => "TRACE"

/-- The number of levels that come before this one. -/
def rank : LogLevel → Nat
  | warn => 0
  | debug => 1
  | trace => 2

/-- Whether a reader who asks for this level gets to see `other`. -/
def shows (level other : LogLevel) : Bool := other.rank ≤ level.rank

end LogLevel

inductive Event where
  | warning (w : Warning)
  | scanned (tokens : Nat)
  | parsed (tokens : Nat)
  | generated (instructions : Nat)
  | executing (instructions : Nat)
  | halted (instructions : Nat)
  /-- A token has been completed. -/
  | token (t : Token)
  /-- An instruction is about to be executed on this stack, top first. -/
  | instruction (address : Nat) (i : Instruction) (stack : List Int)
deriving DecidableEq

namespace Event

def level : Event → LogLevel
  | warning _ => .warn
  | scanned _ | parsed _ | generated _ | executing _ | halted _ => .debug
  | token _ | instruction .. => .trace

/-- A stack, bottom first. -/
def stackText (stack : List Int) : String :=
  "[" ++ String.intercalate ", " (stack.reverse.map toString) ++ "]"

def text : Event → String
  | warning w => w.message
  | scanned n => s!"scanned {n} tokens"
  | parsed n => s!"parsed {n} tokens"
  | generated n => s!"generated {n} instructions"
  | executing n => s!"executing {n} instructions"
  | halted n => s!"halted after {n} instructions"
  | token t => s!"token {t.kind.name} {t.display}"
  | instruction address i stack => s!"{address}: {i.display} stack={stackText stack}"

/-- The event as a line of the log. -/
def line (e : Event) : String := s!"{e.level.name} {e.text}"

/-- What the next step of a machine reports, where there is an instruction to execute. -/
def ofMachine (m : Machine) : List Event :=
  match m.fetch? with
  | some (address, i) => [instruction address i m.stack]
  | none => []

/-- What the next `n` steps of a run report. -/
def ofRun : Nat → Run → List Event
  | 0, _ => []
  | n + 1, r => if r.isOver then [] else ofMachine r.machine ++ ofRun n (r.advance 1)

end Event

end PL0
