import Mathlib
import FunRiscv.Surface.Reader.Expression

/-!
# Scanning a source as a list of bytes

The reader's scanners look at the text byte by byte, and a look may leave it. The scanners here
cannot fail: where there is no byte, they find nothing.

* `Source.skipWhile`, `Source.trivia`, `Source.word?`, `Source.punct?`: the scanners.
* `Source.rest`: the bytes from a position on. Every scanner is described by what it
  does to that list.
* `wordRun`: the word at the head of a list of bytes.
* `IsWord`, `IsName`, `IsDigits`: texts that scan as one word, as one name, as digits.
* `Source.trivia_trivia`: nothing is passed over where a token starts.
-/

namespace FunRiscv

namespace Source

/-! ### Scanners -/

/-- The first position at or after `i`, within `fuel` bytes, whose byte fails the test. -/
def scan (src : Source) (p : UInt8 → Bool) : (fuel : Nat) → (i : Nat) → Nat
  | 0, i => i
  | fuel + 1, i => if (src.byte? i).any p then scan src p fuel (i + 1) else i

/-- The end of a word, within `fuel` bytes. -/
def wordEnd (src : Source) : (fuel : Nat) → (i : Nat) → Nat
  | 0, i => i
  | fuel + 1, i =>
    match src.byte? i with
    | none => i
    | some b =>
      if isLetter b || isDigit b then wordEnd src fuel (i + 1)
      else if b == 0x2f && (src.byte? (i + 1)).any isLetter then wordEnd src fuel (i + 1)
      else i

variable (src : Source)

/-- The first position at or after `i` whose byte fails the test, or the end of the text. -/
def skipWhile (p : UInt8 → Bool) (i : Nat) : Nat := src.scan p (src.size - i) i

/-- The end of the blanks at a position. -/
def skipBlanks (blanks : Blanks) (i : Nat) : Nat := src.skipWhile blanks.contains i

/-- Whether a comment starts at a position. -/
def commentAt (i : Nat) : Bool :=
  src.byte? i == some 0x23 || (src.byte? i == some 0x2f && src.byte? (i + 1) == some 0x2f)

/-- The end of the blanks and of at most `fuel` comments at a position. -/
def triviaWithin : (fuel : Nat) → (i : Nat) → Nat
  | 0, i => src.skipBlanks .all i
  | fuel + 1, i =>
    let j := src.skipBlanks .all i
    if src.commentAt j then triviaWithin fuel (src.skipWhile (· != 10) j) else j

/-- The end of the blanks and comments at a position: where the next token starts. -/
def trivia (i : Nat) : Nat := src.triviaWithin (src.size - i) i

/-- The longest punctuation token after a position, and its end. -/
def punct? (i : Nat) : Option (Punct × Nat) :=
  let j := src.trivia i
  (Punct.all.find? fun t => src.startsWith j t.bytes).map fun t => (t, j + t.bytes.length)

/-- The word that starts at a position, and its end. -/
def word? (i : Nat) : Option (String × Nat) :=
  if (src.byte? i).any isLetter then
    let j := src.wordEnd (src.size - i) i
    some (Text.ofAscii (src.slice i j), j)
  else none

/-- The name after a position, and its end. -/
def name? (i : Nat) : Option (String × Nat) :=
  (src.word? (src.trivia i)).filter fun w => !isKeyword w.1

/-- The end of a given keyword after a position. -/
def keyword? (i : Nat) (kw : String) : Option Nat :=
  match src.word? (src.trivia i) with
  | some (w, j) => if w == kw then some j else none
  | none => none

/-- What stands at a position, as messages show it: a word, a single byte, or the end
of the text. -/
def found (i : Nat) : List UInt8 :=
  match src.byte? i with
  | none => Text.bytesOf "EOF"
  | some b =>
    match src.word? i with
    | some (_, j) => src.slice i j
    | none => [b]

end Source

namespace Reading

/-- The position of the closing quote of a string whose inside is at `i`, within `fuel` bytes. -/
def closingQuote (src : Source) : (fuel : Nat) → (i : Nat) → Nat
  | 0, i => i
  | fuel + 1, i =>
    match src.byte? i with
    | none => i
    | some b =>
      if b == 0x22 then i
      else if b == 0x5c then closingQuote src fuel (i + 2)
      else closingQuote src fuel (i + 1)

variable (src : Source)

/-- Whether a comma stands before the bracket that ends at `stop`, blanks aside. -/
def trailingComma (stop : Nat) : Bool :=
  let before := (src.slice 0 (stop - 1)).reverse.dropWhile Blanks.all.contains
  before.head? == some 0x2c

/-- The operator of a level that stands after a position, and its end. -/
def operatorOf? (ops : List Operator) (i : Nat) : Option (Operator × Nat) :=
  (src.punct? i).bind (levelOperator? ops)

end Reading

namespace Source

variable (src : Source)

/-! ### The rest of a text -/

/-- The bytes from a position on. -/
def rest (i : Nat) : List UInt8 := src.bytes.toList.drop i

@[simp]
theorem length_rest (i : Nat) : (src.rest i).length = src.size - i := by
  simp [rest, size]

theorem rest_add (i k : Nat) : src.rest (i + k) = (src.rest i).drop k := by
  simp [rest, List.drop_drop]

theorem byte?_add (i k : Nat) : src.byte? (i + k) = (src.rest i)[k]? := by
  simp [byte?, rest]

theorem byte?_eq (i : Nat) : src.byte? i = (src.rest i).head? := by
  rw [List.head?_eq_getElem?]
  exact src.byte?_add i 0

/-- The position before some last bytes. -/
def At (i : Nat) (bs : List UInt8) : Prop := src.rest i = bs ∧ i ≤ src.size

variable {src} in
theorem At.suffix {i : Nat} {bs : List UInt8} (h : src.At i bs) : bs <:+ src.bytes.toList :=
  h.1 ▸ List.drop_suffix _ _

variable {src} in
theorem At.drop {i : Nat} {bs tail : List UInt8} (h : src.At i (bs ++ tail)) :
    src.At (i + bs.length) tail := by
  have hlen := src.length_rest i
  rw [h.1, List.length_append] at hlen
  refine ⟨by rw [rest_add, h.1, List.drop_left], ?_⟩
  have := h.2
  omega

theorem slice_eq (i j : Nat) : src.slice i j = (src.rest i).take (j - i) := by
  simp [slice, rest]

/-! ### Runs of bytes -/

theorem scan_eq (p : UInt8 → Bool) : ∀ (fuel i : Nat), (src.rest i).length ≤ fuel →
    src.scan p fuel i = i + ((src.rest i).takeWhile p).length := by
  intro fuel
  induction fuel with
  | zero =>
    intro i h
    have hnil : src.rest i = [] := List.eq_nil_of_length_eq_zero (by omega)
    simp [scan, hnil]
  | succ fuel ih =>
    intro i h
    rw [scan, byte?_eq]
    cases hrest : src.rest i with
    | nil => simp
    | cons b bs =>
      have hnext : src.rest (i + 1) = bs := by rw [rest_add, hrest]; rfl
      cases hb : p b with
      | false => simp [hb]
      | true =>
        have hlen : (src.rest (i + 1)).length ≤ fuel := by
          rw [hnext]
          rw [hrest] at h
          simpa using h
        simp only [List.head?_cons, Option.any_some, hb, if_true, ih (i + 1) hlen, hnext,
          List.takeWhile_cons, List.length_cons]
        omega

theorem skipWhile_eq (p : UInt8 → Bool) (i : Nat) :
    src.skipWhile p i = i + ((src.rest i).takeWhile p).length :=
  src.scan_eq p _ i (by simp)

theorem skipBlanks_eq (blanks : Blanks) (i : Nat) :
    src.skipBlanks blanks i = i + ((src.rest i).takeWhile blanks.contains).length :=
  src.skipWhile_eq _ i

theorem rest_skipWhile (p : UInt8 → Bool) (i : Nat) :
    src.rest (src.skipWhile p i) = (src.rest i).dropWhile p := by
  rw [skipWhile_eq, rest_add]
  have h : ((src.rest i).takeWhile p ++ (src.rest i).dropWhile p).drop
    ((src.rest i).takeWhile p).length =
      (src.rest i).dropWhile p := List.drop_left
  rwa [List.takeWhile_append_dropWhile] at h

theorem startsWith_eq (bs : List UInt8) :
    ∀ i, src.startsWith i bs = bs.isPrefixOf (src.rest i) := by
  induction bs with
  | nil => intro i; simp [startsWith]
  | cons b bs ih =>
    intro i
    rw [startsWith, byte?_eq, ih, rest_add]
    cases src.rest i with
    | nil => simp
    | cons c cs =>
      simp only [List.head?_cons, List.drop_succ_cons, List.drop_zero, List.isPrefixOf_cons_cons,
        Option.some_beq_some]
      rw [BEq.comm]

/-! ### Blanks and comments -/

/-- Whether a byte is blank. -/
def isBlankByte (b : UInt8) : Bool := Blanks.all.contains b

/-- Neither a blank nor a comment stands at the head of the bytes. -/
def Solid (bs : List UInt8) : Prop :=
  (∀ b, bs.head? = some b → isBlankByte b = false ∧ b ≠ 0x23) ∧ ¬ [0x2f, 0x2f] <+: bs

theorem commentAt_eq_false_iff (i : Nat) :
    src.commentAt i = false ↔ (src.rest i).head? ≠ some 0x23 ∧ ¬ [0x2f, 0x2f] <+: src.rest i := by
  rw [commentAt, byte?_eq, byte?_add]
  match src.rest i with
  | [] => simp
  | [b] => simp [List.prefix_cons_iff]
  | b :: c :: bs => simp [List.cons_prefix_cons, @eq_comm _ (0x2f : UInt8)]

theorem solid_iff (i : Nat) :
    Solid (src.rest i) ↔ (src.byte? i).any isBlankByte = false ∧ src.commentAt i = false := by
  rw [commentAt_eq_false_iff, byte?_eq, Solid]
  cases src.rest i with
  | nil => simp
  | cons b bs => simp [and_assoc]

theorem skipBlanks_of_append {i : Nat} {blanks bs : List UInt8} (h : src.rest i = blanks ++ bs)
    (hblanks : ∀ b ∈ blanks, isBlankByte b = true) (hsolid : Solid bs) :
    src.skipBlanks .all i = i + blanks.length := by
  have htake : bs.takeWhile isBlankByte = [] := by
    cases bs with
    | nil => rfl
    | cons b bs => simp [(hsolid.1 b rfl).1]
  have hwhole : (blanks ++ bs).takeWhile isBlankByte = blanks := by
    rw [List.takeWhile_append_of_pos hblanks, htake, List.append_nil]
  rw [skipBlanks_eq, h]
  exact congrArg (i + ·.length) hwhole

/-- Where blanks are followed by something else, a token starts after them. -/
theorem trivia_of_append {i : Nat} {blanks bs : List UInt8} (h : src.rest i = blanks ++ bs)
    (hblanks : ∀ b ∈ blanks, isBlankByte b = true) (hsolid : Solid bs) :
    src.trivia i = i + blanks.length := by
  have hskip := src.skipBlanks_of_append h hblanks hsolid
  have hrest : src.rest (i + blanks.length) = bs := by rw [rest_add, h, List.drop_left]
  have hcomment : src.commentAt (i + blanks.length) = false :=
    ((src.solid_iff _).1 (by rw [hrest]; exact hsolid)).2
  rw [trivia]
  cases src.size - i with
  | zero => rw [triviaWithin, hskip]
  | succ fuel => simp [triviaWithin, hskip, hcomment]

theorem trivia_of_solid {i : Nat} (h : Solid (src.rest i)) : src.trivia i = i := by
  have hnone : src.rest i = [] ++ src.rest i := rfl
  exact src.trivia_of_append hnone (by simp) h

theorem commentAt_lt {i : Nat} (h : src.commentAt i = true) :
    i < src.skipWhile (· != 10) i ∧ i < src.size := by
  have hcons : ∃ b bs, src.rest i = b :: bs ∧ b ≠ 10 := by
    rw [commentAt, byte?_eq] at h
    cases hrest : src.rest i with
    | nil => simp [hrest] at h
    | cons b bs =>
      refine ⟨b, bs, rfl, ?_⟩
      intro h10
      simp [hrest, h10] at h
  obtain ⟨b, bs, hrest, hb⟩ := hcons
  have hlen := src.length_rest i
  rw [hrest] at hlen
  simp only [List.length_cons] at hlen
  refine ⟨?_, by omega⟩
  rw [skipWhile_eq, hrest, List.takeWhile_cons_of_pos (by simpa using hb), List.length_cons]
  omega

theorem solid_triviaWithin :
    ∀ (fuel i : Nat), src.size - i ≤ fuel → Solid (src.rest (src.triviaWithin fuel i)) := by
  intro fuel
  -- Each comment is at least one byte long, so the bound is never the reason to stop.
  induction fuel with
  | zero =>
    intro i h
    have hnil : src.rest (src.triviaWithin 0 i) = [] := by
      apply List.eq_nil_of_length_eq_zero
      rw [triviaWithin, skipBlanks_eq, length_rest]
      omega
    rw [hnil]
    simp [Solid]
  | succ fuel ih =>
    intro i h
    rw [triviaWithin]
    cases hc : src.commentAt (src.skipBlanks .all i) with
    | true =>
      have hle : i ≤ src.skipBlanks .all i := by rw [skipBlanks_eq]; omega
      have hlt := src.commentAt_lt hc
      simp only [if_true]
      exact ih _ (by omega)
    | false =>
      simp only [Bool.false_eq_true, if_false, solid_iff, hc, and_true]
      rw [byte?_eq]
      show ((src.rest (src.skipWhile isBlankByte i)).head?).any isBlankByte = false
      rw [rest_skipWhile]
      cases hd : (src.rest i).dropWhile isBlankByte with
      | nil => rfl
      | cons b bs =>
        have hb := List.head?_dropWhile_not isBlankByte (src.rest i)
        rw [hd] at hb
        simpa using hb

/-- A token starts after blanks and comments. -/
theorem solid_trivia (i : Nat) : Solid (src.rest (src.trivia i)) :=
  src.solid_triviaWithin _ i le_rfl

theorem trivia_trivia (i : Nat) : src.trivia (src.trivia i) = src.trivia i :=
  src.trivia_of_solid (src.solid_trivia i)

end Source

/-! ### Words -/

/-- The bytes at the head of a list that belong to one word: letters, digits, and slashes that
a letter follows. -/
def wordRun : List UInt8 → List UInt8
  | [] => []
  | b :: bs =>
    if isLetter b || isDigit b || (b == 0x2f && bs.head?.any isLetter) then b :: wordRun bs else []

/-- Bytes that make one word. -/
def IsWordBytes (bs : List UInt8) : Prop := bs.head?.any isLetter = true ∧ wordRun bs = bs

/-- A text that makes one word. -/
def IsWord (w : String) : Prop := ∃ bs, w = Text.ofAscii bs ∧ IsWordBytes bs

/-- A text that makes one name. -/
def IsName (n : String) : Prop := IsWord n ∧ isKeyword n = false

/-- A text of one digit or more. -/
def IsDigits (f : String) : Prop := ∃ bs, f = Text.ofAscii bs ∧ bs ≠ [] ∧ ∀ b ∈ bs, isDigit b = true

theorem wordRun_wordRun (bs : List UInt8) : wordRun (wordRun bs) = wordRun bs := by
  induction bs with
  | nil => rfl
  | cons b bs ih =>
    rw [wordRun]
    split
    · rename_i h
      have hnext : (wordRun bs).head?.any isLetter = bs.head?.any isLetter := by
        cases bs with
        | nil => rfl
        | cons c cs =>
          rw [wordRun]
          cases hc : isLetter c with
          | true => simp [hc]
          | false =>
            split <;> simp [hc]
      rw [wordRun, hnext, if_pos h, ih]
    · rfl

namespace Source

variable (src : Source)

theorem wordEnd_eq : ∀ (fuel i : Nat), (src.rest i).length ≤ fuel →
    src.wordEnd fuel i = i + (wordRun (src.rest i)).length := by
  intro fuel
  induction fuel with
  | zero =>
    intro i h
    have hnil : src.rest i = [] := List.eq_nil_of_length_eq_zero (by omega)
    simp [wordEnd, hnil, wordRun]
  | succ fuel ih =>
    intro i h
    rw [wordEnd, byte?_eq]
    cases hrest : src.rest i with
    | nil => simp [wordRun]
    | cons b bs =>
      have hnext : src.rest (i + 1) = bs := by rw [rest_add, hrest]; rfl
      have hlen : (src.rest (i + 1)).length ≤ fuel := by
        rw [hnext]
        rw [hrest] at h
        simpa using h
      simp only [List.head?_cons, byte?_eq, hnext, ih (i + 1) hlen, wordRun]
      cases hb : isLetter b || isDigit b with
      | true => simp; omega
      | false =>
        cases hs : b == 0x2f && bs.head?.any isLetter with
        | true => simp; omega
        | false => simp

theorem word?_eq (i : Nat) : src.word? i =
    if (src.rest i).head?.any isLetter then
      some (Text.ofAscii (wordRun (src.rest i)), i + (wordRun (src.rest i)).length) else none := by
  rw [word?, byte?_eq]
  simp only [src.wordEnd_eq (src.size - i) i (by simp), slice_eq]
  have htake : ∀ bs : List UInt8, bs.take (wordRun bs).length = wordRun bs := by
    intro bs
    induction bs with
    | nil => rfl
    | cons b bs ih =>
      rw [wordRun]
      split <;> simp [ih]
  rw [show i + (wordRun (src.rest i)).length - i = (wordRun (src.rest i)).length by omega, htake]

theorem isWord_of_word? {i j : Nat} {w : String} (h : src.word? i = some (w, j)) : IsWord w := by
  rw [word?_eq] at h
  split at h
  · rename_i hletter
    simp only [Option.some.injEq, Prod.mk.injEq] at h
    refine ⟨wordRun (src.rest i), h.1.symm, ?_, wordRun_wordRun _⟩
    cases hrest : src.rest i with
    | nil => simp [hrest] at hletter
    | cons b bs =>
      have hb : isLetter b = true := by simpa [hrest] using hletter
      simp [wordRun, hb]
  · exact absurd h (by simp)

theorem isName_of_name? {i j : Nat} {n : String} (h : src.name? i = some (n, j)) : IsName n := by
  rw [name?, Option.filter_eq_some_iff] at h
  exact ⟨src.isWord_of_word? h.1, by simpa using h.2⟩

end Source

end FunRiscv
