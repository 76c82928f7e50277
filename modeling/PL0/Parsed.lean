/-!
# `PL0.Parsed` — phrases read from the front of a list

A reader takes a list of symbols (tokens, characters) and answers the phrase at its front together
with the symbols behind it. The answer carries the proof that something has been consumed (`Parsed`)
or that at least nothing has been added (`ParsedOpt`, for a phrase that may be empty); this is what
readers that call each other end by.
-/

namespace PL0

/-- A phrase read from the front of `ts`, which took at least one symbol. -/
structure Parsed {τ : Type} (α : Type) (ts : List τ) where
  value : α
  rest : List τ
  shorter : rest.length < ts.length

/-- A phrase read from the front of `ts`, possibly an empty one. -/
structure ParsedOpt {τ : Type} (α : Type) (ts : List τ) where
  value : α
  rest : List τ
  noLonger : rest.length ≤ ts.length

/-- The same phrase with another value. -/
def Parsed.map {τ α β : Type} {ts : List τ} (f : α → β) (p : Parsed α ts) : Parsed β ts :=
  ⟨f p.value, p.rest, p.shorter⟩

end PL0
