import FunRiscv.Text.Printable
import FunRiscv.Text.Utf8

/-!
# Quoted text

A quoted text stands between double quotes. Printable characters are written as themselves, a quote
and a backslash after a backslash, seven controls by a letter, and all else in hexadecimal: bytes as
`\xhh`, characters as `\uhhhh` or `\Uhhhhhhhh`.

* `quote` writes a byte string, `quoteText` a text.
* `unquote?` reads what stands between the quotes. It takes octal escapes too, refuses a raw line
  break, a raw quote and an unknown escape, and reads a stray byte as the replacement character.
-/

namespace FunRiscv.Text

/-! ### Writing -/

/-- A lower-case hexadecimal digit. -/
def hexDigit (n : Nat) : Char :=
  if n < 10 then Char.ofNat (48 + n) else Char.ofNat (87 + n)

/-- The last `width` hexadecimal digits of a number. -/
def hex : (width : Nat) → Nat → List Char
  | 0, _ => []
  | width + 1, n => hex width (n / 16) ++ [hexDigit (n % 16)]

/-- The letter that stands for a control character after a backslash. -/
def controlLetter? (code : Nat) : Option Char :=
  match code with
  | 7 => some 'a'
  | 8 => some 'b'
  | 9 => some 't'
  | 10 => some 'n'
  | 11 => some 'v'
  | 12 => some 'f'
  | 13 => some 'r'
  | _ => none

/-- A character as it stands inside a quoted text. -/
def quoteChar (c : Char) : List Char :=
  if c.toNat = 0x22 || c.toNat = 0x5c then ['\\', c]
  else if isPrintable c then [c]
  else match controlLetter? c.toNat with
    | some l => ['\\', l]
    | none =>
      if c.toNat < 0x20 || c.toNat = 0x7f then '\\' :: 'x' :: hex 2 c.toNat
      else if c.toNat < 0x10000 then '\\' :: 'u' :: hex 4 c.toNat
      else '\\' :: 'U' :: hex 8 c.toNat

/-- A piece of a byte string as it stands inside a quoted text. -/
def quotePiece : Piece → List Char
  | .scalar c => quoteChar c
  | .stray b => '\\' :: 'x' :: hex 2 b.toNat

/-- A byte string between quotes. -/
def quote (bytes : List UInt8) : String :=
  "\"" ++ String.ofList ((pieces bytes).flatMap quotePiece) ++ "\""

/-- A text between quotes. -/
def quoteText (s : String) : String := quote (bytesOf s)

/-! ### Reading -/

/-- The value of a hexadecimal digit. -/
def hexValue? (c : Char) : Option Nat :=
  if 48 ≤ c.toNat && c.toNat ≤ 57 then some (c.toNat - 48)
  else if 97 ≤ c.toNat && c.toNat ≤ 102 then some (c.toNat - 87)
  else if 65 ≤ c.toNat && c.toNat ≤ 70 then some (c.toNat - 55)
  else none

/-- The value of a piece that is a hexadecimal digit. -/
def Piece.hexValue? : Piece → Option Nat
  | .scalar c => Text.hexValue? c
  | .stray _ => none

/-- The value of a piece that is an octal digit. -/
def Piece.octalValue? : Piece → Option Nat
  | .scalar c => if 48 ≤ c.toNat && c.toNat ≤ 55 then some (c.toNat - 48) else none
  | .stray _ => none

/-- The number that digits write in a base. -/
def fromDigits (base : Nat) (digits : List Nat) : Nat :=
  digits.foldl (fun n d => n * base + d) 0

/-- The bytes of a character given by its code point. -/
def encodeCode? (code : Nat) : Option (List UInt8) := (charFrom? 0 code).map encode

/-- The byte given by its value. -/
def encodeByte? (value : Nat) : Option (List UInt8) :=
  if value < 256 then some [value.toUInt8] else none

/-- The control character that a letter stands for after a backslash. -/
def controlOf? (l : Char) : Option UInt8 :=
  match l with
  | 'a' => some 7
  | 'b' => some 8
  | 't' => some 9
  | 'n' => some 10
  | 'v' => some 11
  | 'f' => some 12
  | 'r' => some 13
  | _ => none

/-- What an escape means, from its letter and the pieces after it, and how many of them it takes. -/
def escape? (letter : Char) (after : List Piece) : Option (List UInt8 × Nat) := do
  let digits (n : Nat) : Option Nat :=
    if n ≤ after.length then ((after.take n).mapM Piece.hexValue?).map (fromDigits 16) else none
  match controlOf? letter with
  | some b => return ([b], 0)
  | none =>
    if letter = 'x' then return (← digits 2 >>= encodeByte?, 2)
    else if letter = 'u' then return (← digits 4 >>= encodeCode?, 4)
    else if letter = 'U' then return (← digits 8 >>= encodeCode?, 8)
    else if letter.toNat = 0x5c || letter.toNat = 0x22 then return (encode letter, 0)
    else if 48 ≤ letter.toNat && letter.toNat ≤ 55 then do
      if after.length < 2 then none
      let low ← (after.take 2).mapM Piece.octalValue?
      return (← encodeByte? (fromDigits 8 ((letter.toNat - 48) :: low)), 2)
    else none

/-- The bytes that the inside of a quoted text stands for, after passing over `skip` pieces that
belong to an escape already read. -/
def unescapeAfter : (skip : Nat) → List Piece → Option (List UInt8)
  | _, [] => some []
  | skip + 1, _ :: rest => unescapeAfter skip rest
  | 0, .stray _ :: rest => (unescapeAfter 0 rest).map (encode (Char.ofNat 0xfffd) ++ ·)
  | 0, .scalar c :: rest =>
    if c.toNat = 0x22 || c.toNat = 0x0a then none
    else if c.toNat = 0x5c then
      match rest with
      | .scalar l :: after =>
        match escape? l after with
        | some (bytes, n) => (unescapeAfter (n + 1) rest).map (bytes ++ ·)
        | none => none
      | _ => none
    else (unescapeAfter 0 rest).map (encode c ++ ·)

/-- The bytes that the inside of a quoted text stands for. -/
def unquote? (inside : List UInt8) : Option (List UInt8) := unescapeAfter 0 (pieces inside)

end FunRiscv.Text
