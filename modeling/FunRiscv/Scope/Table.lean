import FunRiscv.Scope.Symbol

/-!
# Symbol tables

A table is a stack of frames, the innermost first. Inner frames see the symbols of outer ones
and may shadow them.

* `Frame`: one layer. The last write of a name wins.
* `Scope`: a stack of frames that has at least one.
-/

namespace FunRiscv

/-- One layer of a symbol table, the latest entry first. -/
abbrev Frame := List (String × Symbol)

namespace Frame

def insert (f : Frame) (name : String) (s : Symbol) : Frame := (name, s) :: f

def find? (f : Frame) (name : String) : Option Symbol := f.lookup name

/-- Inserts some symbols. -/
def insertAll (f : Frame) (syms : List (String × Symbol)) : Frame :=
  syms.foldl (fun f e => f.insert e.1 e.2) f

end Frame

/-- The symbol that a name has in the innermost of some frames. -/
def findIn? (frames : List Frame) (name : String) : Option Symbol := frames.findSome? (·.find? name)

/-- The names of some frames, each once, in order. -/
def namesIn (frames : List Frame) : List String :=
  (frames.flatMap (·.map (·.1))).eraseDups.mergeSort (fun a b => decide (a ≤ b))

/-- A symbol table: an innermost frame and those around it. -/
structure Scope where
  frame : Frame
  outer : List Frame := []
deriving Inhabited

namespace Scope

def frames (s : Scope) : List Frame := s.frame :: s.outer

/-- Binds a name in the innermost frame. -/
def insert (s : Scope) (name : String) (sym : Symbol) : Scope :=
  { s with frame := s.frame.insert name sym }

/-- Binds some names in the innermost frame. -/
def insertAll (s : Scope) (syms : List (String × Symbol)) : Scope :=
  { s with frame := s.frame.insertAll syms }

/-- The symbol of a name. -/
def find? (s : Scope) (name : String) : Option Symbol := findIn? s.frames name

/-- The symbol of a name in the innermost frame. -/
def findLocal? (s : Scope) (name : String) : Option Symbol := s.frame.find? name

/-- Adds an empty frame. -/
def push (s : Scope) : Scope := ⟨[], s.frames⟩

/-- Drops the innermost frame, unless it is the last. -/
def pop? (s : Scope) : Option Scope :=
  match s.outer with
  | [] => none
  | f :: fs => some ⟨f, fs⟩

/-- The visible names, in order. -/
def names (s : Scope) : List String := namesIn s.frames

end Scope

end FunRiscv
