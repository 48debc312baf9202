/-!
# Sets of small numbers

A set of natural numbers, kept as 64-bit words: the number `64 * i + j` is in the set if bit
`j` of word `i` is set.

* `BitSet.insert`, `BitSet.erase`, `BitSet.contains`: the operations on single numbers.
* `BitSet.toList`, `BitSet.first?`, `BitSet.last?`, `BitSet.size`: the numbers in increasing order,
  the least, the greatest, how many.
* `BitSet.anyFrom`: whether the set meets a range of numbers, word by word.
-/

namespace FunRiscv

/-- A set of natural numbers in 64-bit words. -/
structure BitSet where
  words : List (BitVec 64) := []
deriving DecidableEq, Repr, Inhabited

namespace BitSet

/-- The empty set. -/
def empty : BitSet := {}

/-- A word with only one bit set. -/
def single (j : Nat) : BitVec 64 := 1#64 <<< j

/-- Sets bit `j` of word `i`, adding words as needed. -/
def setBit : List (BitVec 64) → (i j : Nat) → List (BitVec 64)
  | [], 0, j => [single j]
  | [], i + 1, j => 0#64 :: setBit [] i j
  | w :: ws, 0, j => (w ||| single j) :: ws
  | w :: ws, i + 1, j => w :: setBit ws i j

/-- Adds a number. -/
def insert (s : BitSet) (n : Nat) : BitSet := ⟨setBit s.words (n / 64) (n % 64)⟩

/-- Removes a number. -/
def erase (s : BitSet) (n : Nat) : BitSet :=
  ⟨s.words.modify (n / 64) fun w => w &&& ~~~single (n % 64)⟩

/-- Whether a number is in the set. -/
def contains (s : BitSet) (n : Nat) : Bool :=
  match s.words[n / 64]? with
  | some w => w.getLsbD (n % 64)
  | none => false

/-- The bits of a word that are set, in increasing order. -/
def bits (w : BitVec 64) : List Nat := if w = 0#64 then [] else (List.range 64).filter w.getLsbD

/-- The numbers that words hold, the first of them standing for the numbers from `start` on. -/
def listFrom (start : Nat) : List (BitVec 64) → List Nat
  | [] => []
  | w :: ws => (bits w).map (start + ·) ++ listFrom (start + 64) ws

/-- The numbers of the set, in increasing order. -/
def toList (s : BitSet) : List Nat := listFrom 0 s.words

/-- The least number of the set. -/
def first? (s : BitSet) : Option Nat := s.toList.head?

/-- The greatest number of the set. -/
def last? (s : BitSet) : Option Nat := s.toList.getLast?

/-- How many numbers the set has. -/
def size (s : BitSet) : Nat := s.words.foldl (fun n w => n + (bits w).length) 0

/-- The union of words, place by place. -/
def unionWords : List (BitVec 64) → List (BitVec 64) → List (BitVec 64)
  | [], ys => ys
  | xs, [] => xs
  | x :: xs, y :: ys => (x ||| y) :: unionWords xs ys

/-- The union of two sets. -/
def union (s t : BitSet) : BitSet := ⟨unionWords s.words t.words⟩

/-- The set of some numbers. -/
def ofList (ns : List Nat) : BitSet := ns.foldl insert empty

/-- Whether words have a bit between `low` and `high`, the first included and the last not. Both are
counted from the first word, and `low` lies in it. -/
def anyWithin : List (BitVec 64) → (low high : Nat) → Bool
  | [], _, _ => false
  | w :: ws, low, high =>
    if high ≤ low then false
    else
      let rest := w >>> low
      let rest := if high < 64 then rest &&& (single (high - low) - 1#64) else rest
      rest != 0#64 || anyWithin ws 0 (high - 64)

/-- Whether a number from `low` up to, but not including, `high` is in the set. -/
def anyFrom (s : BitSet) (low high : Nat) : Bool :=
  anyWithin (s.words.drop (low / 64)) (low % 64) (high - low / 64 * 64)

/-- Whether a number strictly between two integers of 64 bits is in the set. Nothing can be said
when the first is the greatest integer, unless the second is the least one. -/
def anyBetween? (s : BitSet) (low high : Int64) : Option Bool :=
  let start := max low (-1) + 1
  if start < 0 then if start < high then none else some false
  else some (s.anyFrom start.toInt.toNat high.toInt.toNat)

end BitSet

end FunRiscv
