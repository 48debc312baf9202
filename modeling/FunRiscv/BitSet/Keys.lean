import FunRiscv.BitSet.Basic

/-!
# Sets of keys above a base

A set of integer keys that are not below a fixed base. A key is kept as its distance from the base,
and distances wrap around like the 64-bit integers that they are.

* `KeySet.insert`, `KeySet.erase`, `KeySet.contains`: single keys. A key below the
  base cannot be added.
* `KeySet.merge`: adds the keys of another set with the same base.
-/

namespace FunRiscv

/-- Why a set of keys cannot do what it is asked to. -/
inductive KeySetError where
  | belowBase
  | differentBase
deriving DecidableEq, Repr, Inhabited

/-- How the failure is said. -/
def KeySetError.message : KeySetError → String
  | belowBase => "key below set base"
  | differentBase => "merge of sets with different base"

/-- A set of keys not below a base. -/
structure KeySet where
  base : Int64
  distances : BitSet := {}
deriving DecidableEq, Inhabited

namespace KeySet

/-- The distance of a key from the base, unless it lies below. -/
def distance? (s : KeySet) (key : Int64) : Option Nat :=
  let d := key - s.base
  if d < 0 then none else some d.toInt.toNat

/-- The key at a distance from the base. -/
def keyAt (s : KeySet) (d : Nat) : Int64 := s.base + Int64.ofNat d

/-- Adds a key. -/
def insert (s : KeySet) (key : Int64) : Except KeySetError KeySet :=
  match s.distance? key with
  | some d => .ok { s with distances := s.distances.insert d }
  | none => .error .belowBase

/-- Adds keys one after the other, up to the first that cannot be added. -/
def insertMany (s : KeySet) : List Int64 → KeySet × Option KeySetError
  | [] => (s, none)
  | k :: ks =>
    match s.insert k with
    | .ok s => s.insertMany ks
    | .error e => (s, some e)

/-- The set of some keys. -/
def ofList (base : Int64) (keys : List Int64) : Except KeySetError KeySet :=
  keys.foldlM insert { base }

/-- Removes a key. -/
def erase (s : KeySet) (key : Int64) : KeySet :=
  match s.distance? key with
  | some d => { s with distances := s.distances.erase d }
  | none => s

/-- Whether a key is in the set. -/
def contains (s : KeySet) (key : Int64) : Bool :=
  match s.distance? key with
  | some d => s.distances.contains d
  | none => false

/-- The keys, by increasing distance from the base. -/
def toList (s : KeySet) : List Int64 := s.distances.toList.map s.keyAt

/-- The key nearest to the base. -/
def first? (s : KeySet) : Option Int64 := s.distances.first?.map s.keyAt

/-- How many keys the set has. -/
def size (s : KeySet) : Nat := s.distances.size

/-- Adds the keys of another set. The other set must have held a key at some time. -/
def merge (s t : KeySet) : Except KeySetError KeySet :=
  if s.base ≠ t.base then .error .differentBase
  else if t.distances.words.isEmpty then .error .belowBase
  else .ok { s with distances := s.distances.union t.distances }

end KeySet

end FunRiscv
