import FunRiscv.Config.Toml
import FunRiscv.Number.Integer
import FunRiscv.Text.Quoted

/-!
# Reading TOML

Each reader takes the characters that are left and gives a result with those that it leaves, or
nothing if the text is no TOML.

* `readKey?`, `splitKey?`: a key as it is written, and its parts.
* `readValue?`: a value.
* `Toml.read?`: a document.
-/

namespace FunRiscv

namespace TomlReader

/-! ### Blanks -/

/-- Blanks within a line. -/
def isSpace (c : Char) : Bool := c == ' ' || c == '\t'

def isNewline (c : Char) : Bool := c == '\n' || c == '\r'

def skipSpaces (cs : List Char) : List Char := cs.dropWhile isSpace

/-- Skips blanks, line ends and comments. -/
def skipVoid : (inComment : Bool) → List Char → List Char
  | _, [] => []
  | true, c :: cs => skipVoid (c != '\n') cs
  | false, c :: cs =>
    if isSpace c || isNewline c then skipVoid false cs
    else if c == '#' then skipVoid true cs
    else c :: cs

/-- The text after the line, if nothing but blanks and a comment is left on it. -/
def endOfLine? (cs : List Char) : Option (List Char) :=
  match skipSpaces cs with
  | [] => some []
  | c :: rest =>
    if isNewline c then some rest
    else if c == '#' then some (rest.dropWhile (· != '\n'))
    else none

/-! ### Strings -/

/-- The character with a code; a code that no character has gives the replacement character. -/
def charOf (code : Nat) : Char := (Text.charFrom? 0 code).getD (Char.ofNat 0xfffd)

/-- The value of hexadecimal digits. -/
def hexCode? (digits : List Char) : Option Nat :=
  (digits.mapM Text.hexValue?).map (Text.fromDigits 16)

/-- A string in double quotes, from after its opening. It ends with one quote, or with three if it
may hold line ends. Blanks and line ends after a backslash are skipped. -/
def basicString? (long lines : Bool) :
    (skipping : Bool) → List Char → Option (List Char × List Char)
  | _, [] => none
  | true, c :: cs =>
    if isSpace c || isNewline c then basicString? long lines true cs
    else basicString? long lines false (c :: cs)
  | false, '"' :: '"' :: '"' :: cs => if long then some ([], cs) else some ([], '"' :: '"' :: cs)
  | false, '\\' :: 'u' :: a :: b :: c :: d :: cs => do
    let code ← hexCode? [a, b, c, d]
    let (s, rest) ← basicString? long lines false cs
    return (charOf code :: s, rest)
  | false, '\\' :: 'U' :: a :: b :: c :: d :: e :: f :: g :: h :: cs => do
    let code ← hexCode? [a, b, c, d, e, f, g, h]
    let (s, rest) ← basicString? long lines false cs
    return (charOf code :: s, rest)
  | false, '\\' :: x :: cs => do
    if isSpace x || isNewline x then basicString? long lines true cs
    else
      let c ← match x with
        | '"' => some '"'
        | 'n' => some '\n'
        | 'b' => some (Char.ofNat 8)
        | 'f' => some (Char.ofNat 12)
        | '/' => some '/'
        | 't' => some '\t'
        | 'r' => some '\r'
        | '\\' => some '\\'
        | _ => none
      let (s, rest) ← basicString? long lines false cs
      return (c :: s, rest)
  | false, c :: cs => do
    if c == '"' && !long then return ([], cs)
    if c.toNat < 32 && c != '\t' && !(lines && isNewline c) then none
    let (s, rest) ← basicString? long lines false cs
    return (c :: s, rest)
termination_by skipping cs => 2 * cs.length + if skipping then 1 else 0

/-- A string in single quotes, from after its opening. -/
def literalString? (long : Bool) : List Char → Option (List Char × List Char)
  | [] => none
  | '\'' :: '\'' :: '\'' :: cs => if long then some ([], cs) else some ([], '\'' :: '\'' :: cs)
  | c :: cs => do
    if c == '\'' && !long then return ([], cs)
    let (s, rest) ← literalString? long cs
    return (c :: s, rest)

/-- Skips one line end. -/
def skipNewline : List Char → List Char
  | '\r' :: '\n' :: cs => cs
  | '\n' :: cs => cs
  | cs => cs

/-- A string, if one starts here. -/
def string? : List Char → Option (List Char × List Char)
  | '"' :: '"' :: '"' :: cs => basicString? true true false (skipNewline cs)
  | '"' :: cs => basicString? false false false cs
  | '\'' :: '\'' :: '\'' :: cs => literalString? true (skipNewline cs)
  | '\'' :: cs => literalString? false cs
  | _ => none

/-! ### Keys -/

/-- The characters of a key that needs no quotes. -/
def isBare (c : Char) : Bool := c.isAlphanum || c == '_' || c == '-'

/-- A key as it is written, up to the equals sign or to blanks that no dot follows. -/
def readKey? : (fuel : Nat) → List Char → Option (List Char × List Char)
  | 0, _ => none
  | _ + 1, [] => some ([], [])
  | fuel + 1, c :: cs =>
    if c == '=' then some ([], c :: cs)
    else if c == '"' then do
      let (s, rest) ← basicString? false true false cs
      let (k, rest) ← readKey? fuel rest
      return ('"' :: s ++ '"' :: k, rest)
    else if c == '\'' then do
      let (s, rest) ← literalString? false cs
      let (k, rest) ← readKey? fuel rest
      return ('\'' :: s ++ '\'' :: k, rest)
    else if isSpace c then
      match skipSpaces cs with
      | '.' :: rest => do
        let (k, after) ← readKey? fuel (skipSpaces rest)
        return (' ' :: '.' :: rest.takeWhile isSpace ++ k, after)
      | rest => some ([], rest)
    else if c == '.' || isBare c then do
      let (k, rest) ← readKey? fuel cs
      return (c :: k, rest)
    else none

/-- The parts of a key. -/
def splitParts? : (fuel : Nat) → List Char → Option (List String)
  | 0, _ => none
  | fuel + 1, cs =>
    match skipSpaces cs with
    | [] => some []
    | c :: cs =>
      if isBare c then do
        let after := cs.dropWhile isBare
        let rest ← match after with
          | [] => some []
          | d :: _ =>
            if d == '.' then some after
            else if isSpace d then
              match skipSpaces after with
              | [] => some []
              | '.' :: rest => some ('.' :: rest)
              | _ => none
            else none
        let ks ← splitParts? fuel rest
        return String.ofList (c :: cs.takeWhile isBare) :: ks
      else if c == '\'' || c == '"' then
        match cs.dropWhile (· != c) with
        | [] => none
        | _ :: rest => do
          let ks ← splitParts? fuel rest
          return String.ofList (cs.takeWhile (· != c)) :: ks
      else if c == '.' then
        match cs with
        | d :: _ => if isBare d || d == '\'' || d == '"' || d == ' ' then splitParts? fuel
          cs else none
        | [] => none
      else none

/-- The parts of a key, at least one. -/
def splitKey? (cs : List Char) : Option (List String) :=
  match splitParts? (cs.length + 1) cs with
  | some [] => none
  | r => r

/-! ### Numbers and dates -/

/-- Whether every underscore follows a digit and none stands at the end. -/
def underscoresFit (digit : Char → Bool) : (before : Bool) → List Char → Bool
  | _, [] => true
  | before, c :: cs => (c != '_' || (before && !cs.isEmpty)) && underscoresFit digit (digit c) cs

/-- The value of digits in a base. -/
def digitsValue? (base : Nat) (cs : List Char) : Option Nat := do
  let ds ← cs.mapM Text.hexValue?
  if cs.isEmpty || ds.any (base ≤ ·) then none else some (Text.fromDigits base ds)

/-- The integer that a token stands for. -/
def integer? (token : List Char) : Option Toml := do
  let clean := token.filter (· != '_')
  let (base, body) ← match clean with
    | '0' :: 'x' :: rest => if rest.isEmpty then none else some (16, rest)
    | '0' :: 'o' :: rest => if rest.isEmpty then none else some (8, rest)
    | '0' :: 'b' :: rest => if rest.isEmpty then none else some (2, rest)
    | '0' :: _ :: _ :: _ => none
    | cs => some (10, cs)
  if !underscoresFit (if base = 16 then fun c => (Text.hexValue? c).isSome else Char.isDigit) false
    token then none
  match body with
  | '-' :: ds =>
    let n ← digitsValue? base ds
    if Number.signedBound < n then none else some (.integer (-n))
  | '+' :: ds =>
    let n ← digitsValue? base ds
    if Number.signedBound ≤ n then none else some (.integer n)
  | ds =>
    let n ← digitsValue? base ds
    if Number.unsignedBound ≤ n then none else some (.integer n)

/-- Whether a decimal number, given by its digits and its power of ten, is less than the bound of
doubles. Zeros before the first other digit do not count. -/
def isFinite (digits : List Char) (power : Int) : Bool :=
  let digits := digits.dropWhile (· == '0')
  let n := (digitsValue? 10 digits).getD 0
  if n = 0 || power + digits.length < 0 then true
  else if 400 < power + digits.length then false
  else n * Nat.pow 10 power.toNat < (Nat.pow 2 1024 - Nat.pow 2 970) * Nat.pow 10 (-power).toNat

/-- The float that a token stands for. -/
def float? (token : List Char) : Option Toml := do
  if !underscoresFit Char.isDigit false token then none
  let clean := token.filter (· != '_')
  let body := match clean with
    | '+' :: cs => cs
    | '-' :: cs => cs
    | cs => cs
  let whole := body.takeWhile Char.isDigit
  let (places, rest) := match body.dropWhile Char.isDigit with
    | '.' :: cs => (cs.takeWhile Char.isDigit, cs.dropWhile Char.isDigit)
    | cs => ([], cs)
  if whole.isEmpty then none
  let power : Int ← match rest with
    | [] => some 0
    | e :: cs =>
      if e != 'e' && e != 'E' then none
      else
        match cs with
        | '-' :: ds => (digitsValue? 10 ds).map fun n => -(n : Int)
        | '+' :: ds => (digitsValue? 10 ds).map Int.ofNat
        | ds => (digitsValue? 10 ds).map Int.ofNat
  if isFinite (whole ++ places) (power - places.length) then some (.float (String.ofList token))
    else none

/-- The characters of a number token after its sign. A dot needs a digit on both sides; an
exponent may have a sign. -/
def numberToken? : (fuel : Nat) → (point digit : Bool) → List Char → Option (List Char × List Char)
  | 0, _, _, _ => none
  | fuel + 1, point, digit, cs =>
    match cs with
    | '.' :: c :: rest => do
      if point || !digit || !c.isDigit then none
      let (t, rest) ← numberToken? fuel true digit (c :: rest)
      return ('.' :: t, rest)
    | ['.'] => none
    | c :: rest =>
      if c == 'e' || c == 'E' then
        match rest with
        | s :: rest' => do
          let sign := s == '+' || s == '-'
          let (t, left) ← numberToken? fuel point digit (if sign then rest' else rest)
          return (if sign then c :: s :: t else c :: t, left)
        | [] => some ([c], [])
      else if c.isDigit || c == '_' then do
        let (t, rest) ← numberToken? fuel point (digit || c.isDigit) rest
        return (c :: t, rest)
      else if digit then some ([], cs)
      else none
    | [] => if digit then some ([], []) else none

/-- A word that stands for a float. -/
def floatWord? : List Char → Option (List Char)
  | 'i' :: 'n' :: 'f' :: rest => some rest
  | 'n' :: 'a' :: 'n' :: rest => some rest
  | _ => none

/-- The digits that an integer in another base may have, with underscores. -/
def baseDigits? : Char → Option (Char → Bool)
  | 'x' => some fun c => (Text.hexValue? c).isSome || c == '_'
  | 'o' => some fun c => ('0' ≤ c && c ≤ '7') || c == '_'
  | 'b' => some fun c => c == '0' || c == '1' || c == '_'
  | _ => none

/-- A number. -/
def number? (cs : List Char) : Option (Toml × List Char) :=
  match cs with
  | '0' :: b :: rest =>
    match baseDigits? b with
    | some digit => do
      let v ← integer? ('0' :: b :: rest.takeWhile digit)
      return (v, rest.dropWhile digit)
    | none => if b.isAlpha then none else plain [] cs
  | s :: rest =>
    if s == '+' || s == '-' then
      match floatWord? rest with
      | some after => some (.float (String.ofList (cs.take 4)), after)
      | none => plain [s] rest
    else plain [] cs
  | [] => none
where
  plain (sign cs : List Char) : Option (Toml × List Char) := do
    let (t, rest) ← numberToken? (cs.length + 1) false false cs
    let token := sign ++ t
    if t.any fun c => c == '.' || c == 'e' || c == 'E' then return (← float? token, rest)
    else return (← integer? token, rest)

/-- The value of two digits. -/
def twoDigits? (a b : Char) : Option Nat :=
  digitsValue? 10 [a, b] |>.filter fun _ => a.isDigit && b.isDigit

/-- A time of day: hours, minutes and seconds, with a fraction. -/
def time? : List Char → Option (List Char × List Char)
  | a :: b :: ':' :: c :: d :: ':' :: e :: f :: rest => do
    let h ← twoDigits? a b
    let m ← twoDigits? c d
    let s ← twoDigits? e f
    if 24 ≤ h || 60 ≤ m || 60 ≤ s then none
    let token := [a, b, ':', c, d, ':', e, f]
    match rest with
    | '.' :: more =>
      if (more.takeWhile Char.isDigit).isEmpty then none
      else some (token ++ '.' :: more.takeWhile Char.isDigit, more.dropWhile Char.isDigit)
    | _ => some (token, rest)
  | _ => none

/-- The distance of a time from universal time, if it is given. A whole day and a whole hour of
minutes are still in range. -/
def offset? : List Char → Option (List Char × List Char)
  | 'Z' :: rest => some (['Z'], rest)
  | s :: a :: b :: ':' :: c :: d :: rest =>
    if s == '+' || s == '-' then do
      let h ← twoDigits? a b
      let m ← twoDigits? c d
      if 24 < h || 60 < m then none
      return ([s, a, b, ':', c, d], rest)
    else some ([], s :: a :: b :: ':' :: c :: d :: rest)
  | s :: rest => if s == '+' || s == '-' then none else some ([], s :: rest)
  | [] => some ([], [])

/-- How many days a month has. -/
def monthDays (year month : Nat) : Nat :=
  if month == 2 then if year % 4 == 0 && (year % 100 != 0 || year % 400 == 0) then 29 else 28
  else if [4, 6, 9, 11].contains month then 30
  else 31

/-- Whether two digits start here. -/
def startsWithDigits : List Char → Bool
  | a :: b :: _ => a.isDigit && b.isDigit
  | _ => false

/-- Whether a time of day starts here. -/
def looksLikeTime (cs : List Char) : Bool := startsWithDigits cs && (cs.drop 2).head? == some ':'

/-- Whether a date starts here. -/
def looksLikeDate (cs : List Char) : Bool :=
  startsWithDigits cs && startsWithDigits (cs.drop 2) && (cs.drop 4).head? == some '-'

/-- The day of a date. -/
def day? : List Char → Option (List Char × List Char)
  | a :: b :: c :: d :: '-' :: e :: f :: '-' :: g :: h :: rest => do
    let year ← digitsValue? 10 [a, b, c, d]
    let month ← twoDigits? e f
    let day ← twoDigits? g h
    if month < 1 || 12 < month || day < 1 || monthDays year month < day then none
    return ([a, b, c, d, '-', e, f, '-', g, h], rest)
  | _ => none

/-- A date, with a time of day if one follows. A date ends with the text or with a blank. Right
after a `T` or one blank, the time may have an offset; after a wider gap, which in an array may hold
line ends and comments, it has none. -/
def date? (inArray : Bool) (cs : List Char) : Option (Toml × List Char) := do
  let (day, rest) ← day? cs
  match rest with
  | [] => return (.date (String.ofList day), [])
  | c :: rest =>
    if c == 'T' || (c == ' ' && startsWithDigits rest) then
      let (time, rest) ← time? rest
      let (offset, rest) ← offset? rest
      return (.date (String.ofList (day ++ 'T' :: time ++ offset)), rest)
    else if c == ' ' then
      let next := if inArray then skipVoid false rest else skipSpaces rest
      if looksLikeTime next then
        let (time, rest) ← time? next
        return (.date (String.ofList (day ++ 'T' :: time)), rest)
      else return (.date (String.ofList day), rest)
    else none

/-- A value that holds no others. -/
def scalar? (inArray : Bool) (cs : List Char) : Option (Toml × List Char) :=
  match cs with
  | 't' :: 'r' :: 'u' :: 'e' :: rest => some (.boolean true, rest)
  | 'f' :: 'a' :: 'l' :: 's' :: 'e' :: rest => some (.boolean false, rest)
  | c :: _ =>
    if c == '"' || c == '\'' then (string? cs).map fun (s, rest) =>
      (.string (String.ofList s), rest)
    else if looksLikeTime cs then (time? cs).map fun (t, rest) => (.date (String.ofList t), rest)
    else if looksLikeDate cs then date? inArray cs
    else if c.isDigit || c == '+' || c == '-' then number? cs
    else (floatWord? cs).map fun rest => (.float (String.ofList (cs.take 3)), rest)
  | [] => none

/-! ### Values -/

/-- Whether a value is a table. -/
def isTable : Toml → Bool
  | .table .. => true
  | _ => false

/-- The array of some values. Tables make an array of tables. -/
def arrayOf (items : List Toml) : Toml :=
  if !items.isEmpty && items.all isTable then .tables items.reverse else .array items

/-- The end of a table written in line. -/
def closeFields? (t : Toml) (cs : List Char) : Option (Toml × List Char) :=
  match skipVoid false cs with
  | '\x7d' :: rest => some (t, rest)
  | _ => none

/-- The text after an empty array, if one stands on a line after the equals sign. No other value may
stand there, and another definition may follow on the same line. -/
def emptyBelow? (cs : List Char) : Option (List Char) :=
  match skipSpaces cs with
  | '[' :: _ => none
  | cs =>
    match skipVoid false cs with
    | '[' :: ']' :: rest => some rest
    | _ => none

mutual

/-- A value. -/
def readValue? : (fuel : Nat) → (inArray : Bool) → List Char → Option (Toml × List Char)
  | 0, _, _ => none
  | fuel + 1, inArray, cs =>
    match cs with
    | '[' :: rest => do
      let (items, rest) ← readItems? fuel rest
      return (arrayOf items, rest)
    | '\x7b' :: rest => do
      let (t, rest) ← readFields? fuel false .empty rest
      return (match t with
        | .table _ fields => .table true fields
        | t => t, rest)
    | _ => scalar? inArray cs

/-- The values of an array, from after its opening. -/
def readItems? : (fuel : Nat) → List Char → Option (List Toml × List Char)
  | 0, _ => none
  | fuel + 1, cs =>
    match skipVoid false cs with
    | ']' :: rest => some ([], rest)
    | cs => do
      let (v, rest) ← readValue? fuel true cs
      match skipVoid false rest with
      | ',' :: rest =>
        let (vs, rest) ← readItems? fuel rest
        return (v :: vs, rest)
      | ']' :: rest => return ([v], rest)
      | _ => none

/-- The fields of a table written in line, from after its opening or, if `comma` holds,
from after a comma. -/
def readFields? : (fuel : Nat) → (comma : Bool) → Toml → List Char → Option (Toml × List Char)
  | 0, _, _, _ => none
  | fuel + 1, comma, t, cs =>
    match skipVoid false cs with
    | '\x7d' :: rest => if comma then none else some (t, rest)
    | cs => do
      let (key, rest) ← readKey? (cs.length + 1) cs
      let path ← splitKey? key
      match skipVoid false rest with
      | '=' :: rest =>
        match emptyBelow? rest with
        | some rest => closeFields? (Toml.put (.array []) path t) rest
        | none =>
          let (v, rest) ← readValue? fuel false (skipSpaces rest)
          let t := Toml.put v path t
          match skipSpaces rest with
          | ',' :: rest => readFields? fuel true t rest
          | rest => closeFields? t rest
      | _ => none

end

/-! ### Documents -/

/-- What was read of a document. -/
structure Draft where
  root : Toml := .empty
  /-- The path of the table that is being filled. -/
  current : List String := []
  /-- The headers of tables, as they are written. -/
  headers : List (List Char) := []

/-- Opens a table. -/
def Draft.openTable? (d : Draft) (header : List Char) : Option Draft := do
  if d.headers.contains header then none
  let path ← splitKey? header
  let root ← d.root.open? path
  match root.find? path with
  | some (.table true _) => none
  | _ => some { root, current := path, headers := header :: d.headers }

/-- Adds a table to an array of tables. -/
def Draft.addTable? (d : Draft) (header : List Char) : Option Draft := do
  let path ← splitKey? header
  let root := (d.root.open? path.dropLast).getD d.root
  let items ← match root.find? path with
    | none => some []
    | some (.tables items) => some items
    | some _ => none
  let below := header ++ ['.']
  some { root := Toml.put (.tables (.empty :: items)) path root
         current := path
         headers := header :: d.headers.filter fun h => !below.isPrefixOf h }

/-- Defines a key in the current table. -/
def Draft.define? (d : Draft) (path : List String) (v : Toml) : Option Draft := do
  let last ← path.getLast?
  let place := d.current ++ path.dropLast
  let root ← match d.root.find? place with
    | none => d.root.open? place
    | some _ => some d.root
  let root ← root.alter? (·.define? last v) place
  some { d with root }

/-- Reads a document, one definition or header a round. -/
def readDraft? : (fuel : Nat) → Draft → List Char → Option Draft
  | 0, _, _ => none
  | fuel + 1, d, cs =>
    match skipVoid false cs with
    | [] => some d
    | '[' :: '[' :: cs => do
      let header := cs.takeWhile fun c => c != ']' && c != '['
      match cs.drop header.length with
      | ']' :: ']' :: rest => readDraft? fuel (← d.addTable? header) rest
      | _ => none
    | '[' :: cs => do
      let header := cs.takeWhile fun c => c != ']' && c != '['
      match cs.drop header.length with
      | ']' :: rest => readDraft? fuel (← d.openTable? header) rest
      | _ => none
    | cs => do
      let (key, rest) ← readKey? (cs.length + 1) cs
      match skipVoid false rest with
      | '=' :: rest =>
        let path ← splitKey? key
        match emptyBelow? rest with
        | some rest => readDraft? fuel (← d.define? path (.array [])) rest
        | none =>
          let (v, rest) ← readValue? (rest.length + 1) false (skipSpaces rest)
          let rest ← endOfLine? rest
          readDraft? fuel (← d.define? path v) rest
      | _ => none

end TomlReader

/-- Reads a document. A byte order mark at its start is skipped. -/
def Toml.read? (text : String) : Option Toml :=
  let cs := match text.toList with
    | c :: cs => if c.toNat = 0xfeff then cs else c :: cs
    | [] => []
  (TomlReader.readDraft? (cs.length + 1) {} cs).map (·.root)

end FunRiscv
