import FunRiscv.Surface.Source
import FunRiscv.Text.Utf8

/-!
# Tokens

* `Punct`: punctuation; `Source.punctAfter?` reads the longest one.
* `Source.wordAt?`: words. Segments divided by slashes make one word, such as `List/Cons`.
* `Source.nameAfter?`: words that are no keyword.

All of them first pass over blanks and comments, but for `wordAt?`, which starts where
it is told to.
-/

namespace FunRiscv

/-! ### Bytes -/

/-- Letters and the underscore. -/
def isLetter (b : UInt8) : Bool :=
  (97 ≤ b && b ≤ 122) || (65 ≤ b && b ≤ 90) || b == 95

/-- Decimal digits. -/
def isDigit (b : UInt8) : Bool := 48 ≤ b && b ≤ 57

/-- Hexadecimal digits of either case. -/
def isHexDigit (b : UInt8) : Bool := isDigit b || (97 ≤ b && b ≤ 102) || (65 ≤ b && b ≤ 70)

/-- Capital letters. -/
def isCapital (b : UInt8) : Bool := 65 ≤ b && b ≤ 90

/-! ### Punctuation -/

/-- A punctuation token. -/
inductive Punct where
  | starStar | shiftLeft | shiftRight | lessEq | greaterEq | equalEqual | notEqual
  | fatArrow | arrow
  | plus | minus | star | slash | percent | less | greater | ampersand | bar | caret | equals
  | openParen | closeParen | openBrace | closeBrace | openBracket | closeBracket
  | comma | semicolon | colon | dot
deriving DecidableEq, Repr, Inhabited

namespace Punct

/-- The spelling of a token. -/
def spelling : Punct → String
  | starStar => "**"
  | shiftLeft => "<<"
  | shiftRight => ">>"
  | lessEq => "<="
  | greaterEq => ">="
  | equalEqual => "=="
  | notEqual => "!="
  | fatArrow => "=>"
  | arrow => "->"
  | plus => "+"
  | minus => "-"
  | star => "*"
  | slash => "/"
  | percent => "%"
  | less => "<"
  | greater => ">"
  | ampersand => "&"
  | bar => "|"
  | caret => "^"
  | equals => "="
  | openParen => "("
  | closeParen => ")"
  | openBrace => "\x7b"
  | closeBrace => "\x7d"
  | openBracket => "["
  | closeBracket => "]"
  | comma => ","
  | semicolon => ";"
  | colon => ":"
  | dot => "."

/-- All tokens, longer ones first. -/
def all : List Punct :=
  [starStar, shiftLeft, shiftRight, lessEq, greaterEq, equalEqual, notEqual, fatArrow, arrow,
   plus, minus, star, slash, percent, less, greater, ampersand, bar, caret, equals,
   openParen, closeParen, openBrace, closeBrace, openBracket, closeBracket, comma,
   semicolon, colon, dot]

/-- The bytes of a token. -/
def bytes (t : Punct) : List UInt8 := t.spelling.toList.map fun c => c.toNat.toUInt8

end Punct

/-! ### Words -/

/-- Words that cannot name anything. -/
def keywords : List String :=
  ["fn", "type", "object", "alias", "module", "import", "return", "use", "if", "else",
   "match", "lambda", "true", "false"]

def isKeyword (w : String) : Bool := keywords.contains w

namespace Source

/-- The longest punctuation token after a position, and its end. -/
def punctAfter? (src : Source) (i : Nat) : Look (Option (Punct × Nat)) := do
  let j ← src.skip i
  let token ← Punct.all.findM? fun t => src.hasPrefix j t.bytes
  return token.map fun t => (t, j + t.bytes.length)

/-- The end of a word, within `fuel` bytes: letters, digits, and slashes that a letter follows. -/
def wordWithin (src : Source) : (fuel : Nat) → (i : Nat) → Look Nat
  | 0, i => pure i
  | fuel + 1, i => do
    if i < src.size then
      let b ← src.index i
      if isLetter b || isDigit b then wordWithin src fuel (i + 1)
      else if ← pure (b == 0x2f) <&&> src.holdsAt isLetter (i + 1) then wordWithin src fuel (i + 1)
      else return i
    else return i

/-- The word that starts at a position, and its end. -/
def wordAt? (src : Source) (i : Nat) : Look (Option (String × Nat)) := do
  if i = src.size then return none
  else if !isLetter (← src.index i) then return none
  else
    let j ← src.wordWithin (src.size - i) i
    return some (Text.ofAscii (← src.cut i j), j)

/-- The name after a position, and its end. -/
def nameAfter? (src : Source) (i : Nat) : Look (Option (String × Nat)) := do
  return (← src.wordAt? (← src.skip i)).filter fun w => !isKeyword w.1

/-- The end of a given keyword after a position. -/
def keywordAfter? (src : Source) (i : Nat) (kw : String) : Look (Option Nat) := do
  match ← src.wordAt? (← src.skip i) with
  | some (w, j) => return if w == kw then some j else none
  | none => return none

/-- What stands at a position, as messages show it: a word, a single byte, or the end
of the text. -/
def foundAt (src : Source) (i : Nat) : Look (List UInt8) := do
  if i < src.size then
    match ← src.wordAt? i with
    | some (_, j) => src.cut i j
    | none => src.cut i (i + 1)
  else return Text.bytesOf "EOF"

end Source

end FunRiscv
