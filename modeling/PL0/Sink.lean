/-!
# `PL0.Sink` — where written values go

A sink takes one value at a time: it appends the value's line to its text and then flushes. Either
may be refused once a given number of flushes has succeeded. A refused write leaves no part of the
line; a refused flush leaves the line.
-/

namespace PL0

/-- What a sink refused. -/
inductive SinkFailure where
  | write | flush
deriving DecidableEq, Repr, Inhabited

def SinkFailure.message : SinkFailure → String
  | write => "Failed write output: sink full"
  | flush => "Failed flush output: sink stuck"

structure Sink where
  /-- The values whose lines have been written, oldest first. -/
  written : Array Int
  /-- How many flushes have succeeded. -/
  flushes : Nat
  /-- Writing is refused after exactly this many flushes. -/
  fullAfter : Option Nat
  /-- Flushing is refused after exactly this many flushes. -/
  stuckAfter : Option Nat
deriving DecidableEq, Repr, Inhabited

namespace Sink

/-- A sink that has taken nothing yet. -/
def limited (fullAfter stuckAfter : Option Nat) : Sink := ⟨#[], 0, fullAfter, stuckAfter⟩

/-- A sink that takes everything. -/
def unlimited : Sink := limited none none

/-- Write the line of `value` and flush. -/
def write (s : Sink) (value : Int) : Option SinkFailure × Sink :=
  if s.fullAfter = some s.flushes then (some .write, s)
  else
    let written := s.written.push value
    if s.stuckAfter = some s.flushes then (some .flush, { s with written })
    else (none, { s with written, flushes := s.flushes + 1 })

/-- The text written so far: the values in decimal, each on a line. -/
def text (s : Sink) : String := String.join (s.written.toList.map fun v => s!"{v}\n")

end Sink

end PL0
