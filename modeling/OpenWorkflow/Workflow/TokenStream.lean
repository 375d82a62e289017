import OpenWorkflow.Markup.Token
import OpenWorkflow.Workflow.ReadError

/-!
# The token stream

A queue of tags that counts how many have been consumed, and the steps by which
it is read. A step that fails leaves behind what it had consumed before.

The loop `untilEnd` reads items up to an end tag. An item that succeeds consumes
a tag and no item succeeds on the empty stream, so the number of tags that
remain bounds the number of rounds.
-/

namespace OpenWorkflow

open OpenWorkflow.Markup (Token)

/-- Tags to be read. -/
structure TokenStream where
  /-- The tags that remain. -/
  tokens : List Token
  /-- The number of tags consumed. -/
  consumed : Nat := 0
  deriving DecidableEq

namespace TokenStream

/-- A stream of which nothing has been consumed. -/
def ofList (tokens : List Token) : TokenStream := { tokens }

/-- The tag at the front. -/
def peek? (s : TokenStream) : Option Token := s.tokens.head?

/-- Does the front tag open the given element? -/
def atStartOf (s : TokenStream) (qname : String) : Bool := s.peek?.any (fun t => t.opens qname)

/-- Does the front tag close the given element? -/
def atEndOf (s : TokenStream) (qname : String) : Bool := s.peek?.any (fun t => t.closes qname)

end TokenStream

/-- A step of reading. -/
abbrev Parser (α : Type) := EStateM ReadError TokenStream α

namespace Parser

variable {α σ : Type}

/-- Fails at the present position. -/
def fail (fault : Fault) (owner : String) : Parser α := fun s =>
  .error { fault, activity := owner, position := s.consumed } s

/-- Does the front tag open the given element? -/
def atStartOf (qname : String) : Parser Bool := fun s => .ok (s.atStartOf qname) s

/-- Does the front tag close the given element? -/
def atEndOf (qname : String) : Parser Bool := fun s => .ok (s.atEndOf qname) s

/-- The number of tags that remain. -/
def remaining : Parser Nat := fun s => .ok s.tokens.length s

/-- The front tag, which must be a start tag. -/
def peekStart (owner : String) : Parser Token := fun s =>
  match s.tokens with
  | [] => fail .endOfInput owner s
  | t :: _ => if t.closing then fail (.unexpectedEndTag t.qname) owner s else .ok t s

/-- Consumes one tag. -/
def nextToken (owner : String) : Parser Token := fun s =>
  match s.tokens with
  | [] => fail .endOfInput owner s
  | t :: ts => .ok t { tokens := ts, consumed := s.consumed + 1 }

/-- Consumes the start tag of the given element. -/
def expectStart (qname owner : String) : Parser Token := fun s =>
  match s.tokens with
  | [] => fail (.expectedStart qname none) owner s
  | t :: _ =>
    if t.opens qname then nextToken owner s
    else fail (.expectedStart qname (some t.describe)) owner s

/-- Consumes the end tag of the given element. -/
def expectEnd (qname owner : String) : Parser Token := fun s =>
  match s.tokens with
  | [] => fail (.expectedEnd qname none) owner s
  | t :: _ =>
    if t.closes qname then nextToken owner s
    else fail (.expectedEnd qname (some t.describe)) owner s

/-- Consumes tags until the given number of open elements is closed. -/
def skipLevels (owner : String) : Nat → List Token → Nat → EStateM.Result ReadError TokenStream Unit
  | 0, ts, consumed => .ok () { tokens := ts, consumed }
  | _ + 1, [], consumed => fail .endOfInput owner { tokens := [], consumed }
  | depth + 1, t :: ts, consumed =>
    skipLevels owner (if t.closing then depth else depth + 2) ts (consumed + 1)

/-- Consumes an element with everything in it; its value is the start tag. -/
def skipElement (owner : String) : Parser Token := do
  let _ ← peekStart owner
  let start ← nextToken owner
  fun s => (skipLevels owner 1 s.tokens s.consumed : EStateM.Result ReadError TokenStream Unit)
  return start

/-- Refuses the tag at the front. -/
def unexpected (owner : String) : Parser α := fun s =>
  fail (.unexpectedTag (s.peek?.map Token.qname)) owner s

/-- Reads items until the given end tag is at the front, `n` rounds at most. -/
def rounds (qname owner : String) (item : σ → Parser σ) : Nat → σ → Parser σ
  | 0, _ => fail .stalled owner
  | n + 1, acc => do
    if ← atEndOf qname then return acc
    else rounds qname owner item n (← item acc)

/-- Reads items until the given end tag is at the front. -/
def untilEnd (qname owner : String) (item : σ → Parser σ) (init : σ) : Parser σ := do
  rounds qname owner item ((← remaining) + 1) init

end Parser

end OpenWorkflow
