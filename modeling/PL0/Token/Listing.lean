import PL0.Json
import PL0.Token

/-!
# `PL0.Token.Listing` — token lists as JSON

A token list is written as a JSON array with one object for each token, its keys `kind`, `index` and
`text` in this order.
-/

namespace PL0.Token

def json (t : Token) : Json :=
  .object [.mk "kind" (Json.ofText t.kind.label), .mk "index" (Json.ofNat t.index),
    .mk "text" (Json.ofText t.text)]

/-- The tokens over several lines, without a final line break. -/
def listing (ts : List Token) : String := (Json.array (ts.map json)).pretty

end PL0.Token
