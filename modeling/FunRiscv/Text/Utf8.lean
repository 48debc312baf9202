/-!
# Characters in a byte string

A byte string is read as a sequence of *pieces*: a character written in its shortest UTF-8
form, or a stray byte that starts no such form. A stray byte stands alone, and reading goes
on at the next byte.

* `scalar?`: the character at the head of a byte string, with its length.
* `pieces`: the whole byte string as pieces.
* `encode`: the bytes of a character.
-/

namespace FunRiscv.Text

/-- One unit of a byte string. -/
inductive Piece where
  /-- A well-formed character. -/
  | scalar (c : Char)
  /-- A byte that starts no well-formed character. -/
  | stray (b : UInt8)
deriving DecidableEq, Repr, Inhabited

/-- The payload of a continuation byte. -/
def continuation? (b : UInt8) : Option Nat :=
  if 0x80 ≤ b && b < 0xc0 then some (b.toNat - 0x80) else none

/-- A code point is kept only if it needs at least `least` and is a character. -/
def charFrom? (least code : Nat) : Option Char :=
  if h : code.isValidChar then
    if least ≤ code then some (Char.ofNatAux code h) else none
  else none

/-- The character at the head of a byte string and the number of bytes it takes. -/
def scalar? : List UInt8 → Option (Char × Nat)
  | [] => none
  | b :: rest =>
    if b < 0x80 then (charFrom? 0 b.toNat).map (·, 1)
    else if 0xc0 ≤ b && b < 0xe0 then do
      let x ← rest[0]? >>= continuation?
      let c ← charFrom? 0x80 ((b.toNat - 0xc0) * 64 + x)
      return (c, 2)
    else if 0xe0 ≤ b && b < 0xf0 then do
      let x ← rest[0]? >>= continuation?
      let y ← rest[1]? >>= continuation?
      let c ← charFrom? 0x800 ((b.toNat - 0xe0) * 4096 + x * 64 + y)
      return (c, 3)
    else if 0xf0 ≤ b && b < 0xf8 then do
      let x ← rest[0]? >>= continuation?
      let y ← rest[1]? >>= continuation?
      let z ← rest[2]? >>= continuation?
      let c ← charFrom? 0x10000 ((b.toNat - 0xf0) * 262144 + x * 4096 + y * 64 + z)
      return (c, 4)
    else none

/-- Pieces of the rest of a byte string, after passing over `skip` bytes that belong to a character
already read. -/
def piecesAfter : (skip : Nat) → List UInt8 → List Piece
  | _, [] => []
  | skip + 1, _ :: rest => piecesAfter skip rest
  | 0, b :: rest =>
    match scalar? (b :: rest) with
    | some (c, n) => .scalar c :: piecesAfter (n - 1) rest
    | none => .stray b :: piecesAfter 0 rest

/-- A byte string as pieces. -/
def pieces (bytes : List UInt8) : List Piece := piecesAfter 0 bytes

/-- The bytes of a text. -/
def bytesOf (s : String) : List UInt8 := s.toUTF8.data.toList

/-- The bytes of a character. -/
def encode (c : Char) : List UInt8 := bytesOf (String.singleton c)

/-- The text of a byte string; a byte that starts no character reads as the
replacement character. -/
def decode (bytes : List UInt8) : String :=
  String.ofList ((pieces bytes).map fun
    | .scalar c => c
    | .stray _ => Char.ofNat 0xfffd)

/-- A text of one-byte characters. -/
def ofAscii (bytes : List UInt8) : String := String.ofList (bytes.map fun b => Char.ofNat b.toNat)

end FunRiscv.Text
