import FunRiscv.Surface.ReadError
import FunRiscv.Surface.Token

/-!
# Reading actions

A reading action takes a position in the source to a value and a later position, or fails. The
actions here read single tokens and repeat other actions.

* `Reading`: the type of actions, and `look`: a look at the source as an action.
* `punct`, `expect`, `name`, `keyword`: single tokens.
* `commaList`, `closedList`, `manyUntil`: repetition. Each takes a bound on the number of
  rounds; the length of the source plus one is always enough, because a round that goes on has
  read at least one byte.
-/

namespace FunRiscv

/-- An action on the current position. -/
abbrev Reading (α : Type) := StateT Nat (Except ReadError) α

namespace Reading

variable (src : Source)

/-- What comes of a look. To leave the text is a failure. -/
def look {α : Type} (x : Look α) : Reading α :=
  match x with
  | .ok a => pure a
  | .error access => failWith (ReadCause.outside access)

/-- Where the next token starts. -/
def tokenStart : Reading Nat := do look (src.skip (← get))

/-- The location from a start to the current position. -/
def locationFrom (start : Nat) : Reading Location := do return src.locate start (← get)

/-- Fails because something else was wanted at a position. -/
def unexpectedAt {α : Type} (i : Nat) (want : String) : Reading α := do
  let j ← look (src.skip i)
  let found ← look (src.foundAt j)
  failWith (ReadCause.unexpected (src.locate j j) want found)

/-- Fails because something else was wanted here. -/
def unexpected {α : Type} (want : String) : Reading α := do unexpectedAt src (← get) want

/-- Reads a punctuation token if it is the next token, and says whether it was. -/
def punct (t : Punct) : Reading Bool := do
  match ← look (src.punctAfter? (← get)) with
  | some (u, j) =>
    if u = t then
      set j
      return true
    else return false
  | none => return false

/-- Whether a punctuation token is the next token. -/
def nextIs (t : Punct) : Reading Bool := do
  return (← look (src.punctAfter? (← get))).any fun u => u.1 = t

/-- Reads a punctuation token that has to stand here. -/
def expect (t : Punct) : Reading Unit := do
  if ← punct src t then return
  else unexpected src (Text.quoteText t.spelling)

/-- Reads a keyword if it is the next token, and says whether it was. -/
def keyword (kw : String) : Reading Bool := do
  match ← look (src.keywordAfter? (← get) kw) with
  | some j =>
    set j
    return true
  | none => return false

/-- Whether a keyword is the next token. -/
def nextIsKeyword (kw : String) : Reading Bool := do
  return (← look (src.keywordAfter? (← get) kw)).isSome

/-- Reads a name. -/
def name : Reading String := do
  match ← look (src.nameAfter? (← get)) with
  | some (n, j) =>
    set j
    return n
  | none => unexpected src "name"

/-- Reads the closing bracket of type arguments, which may be the first half of a longer token. -/
def closeAngle : Reading Unit := do
  let i ← tokenStart src
  if ← look (src.holdsAt (· == 0x3e) i) then set (i + 1)
  else unexpected src "\">\""

/-! ### Repetition -/

variable {α : Type} (item : Reading α)

/-- One or more items divided by commas. -/
def commaList : (fuel : Nat) → Reading (List α)
  | 0 => failWith ReadCause.exhausted
  | fuel + 1 => do
    let x ← item
    if ← punct src .comma then
      let xs ← commaList fuel
      return x :: xs
    else return [x]

/-- Items divided by commas up to a closing token, before which a comma may stand. -/
def closedList (close : Punct) : (fuel : Nat) → Reading (List α)
  | 0 => failWith ReadCause.exhausted
  | fuel + 1 => do
    if ← punct src close then return []
    else
      let x ← item
      if ← punct src .comma then
        let xs ← closedList close fuel
        return x :: xs
      else
        expect src close
        return [x]

/-- Items up to a closing token. -/
def manyUntil (close : Punct) : (fuel : Nat) → Reading (List α)
  | 0 => failWith ReadCause.exhausted
  | fuel + 1 => do
    if ← punct src close then return []
    else
      let x ← item
      let xs ← manyUntil close fuel
      return x :: xs

end Reading

end FunRiscv
