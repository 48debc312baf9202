import FunRiscv.Scope.Builtin

/-!
# The state of the type checker

* `CheckOptions`: what a checker is told.
* `Checker`: the unifier, the global names, and the types found so far: of functions by name, of
  expressions by number.
* `Checking`: actions on a checker. What an action changed before it failed is kept.
-/

namespace FunRiscv

/-- The number of unification steps allowed unless told otherwise. -/
def defaultStepLimit : Nat := 100000

/-- What a checker is told. -/
structure CheckOptions where
  /-- How the names of fresh type variables start. -/
  stem : String := "t"
  /-- The greatest number of unification steps; zero for no limit. -/
  limit : Nat := defaultStepLimit
  /-- Symbols that are known beforehand. -/
  symbols : List (String × Symbol) := []
deriving Inhabited

/-- The state of a type checker. -/
structure Checker where
  options : CheckOptions
  unifier : Unifier
  globals : Frame
  /-- The types of expressions by number, the latest first. -/
  types : List (Nat × Ty) := []
  /-- The number of the next expression. -/
  nextNode : Nat := 0
  /-- The types of checked functions by qualified name, the latest first. -/
  funcs : List (String × Ty) := []
  /-- The qualification under which names are tried when they are unknown as written. -/
  scopePath : String := ""
deriving Inhabited

namespace Checker

/-- A new checker. -/
def new (o : CheckOptions) : Checker :=
  { options := o, unifier := Unifier.new o.stem o.limit,
    globals := builtinFrame.insertAll o.symbols }

/-- Forgets all but the options and the scope path. -/
def reset (c : Checker) : Checker := { new c.options with scopePath := c.scopePath }

/-- A type with the substitution applied, and with the dynamic type for every variable
that is left. -/
def settle (c : Checker) (t : Ty) : Ty := (c.unifier.apply t).bind fun _ => .any

/-- The type found for the expression of a number. -/
def typeOf? (c : Checker) (i : Nat) : Option Ty := (c.types.lookup i).map c.settle

/-- The type found for a function. -/
def funcType? (c : Checker) (name : String) : Option Ty := c.funcs.lookup name

end Checker

/-- An action on a checker. -/
abbrev Checking (α : Type) := ExceptT (Traced TypeError) (StateM Checker) α

namespace Checking

/-- Fails with a cause at a place. -/
def fail {α : Type} (loc : Location) (cause : TypeCause) : Checking α :=
  failWith ({ cause, loc } : TypeError)

/-- A fresh type variable. -/
def fresh : Checking Ty := do
  let c ← get
  let (v, u) := c.unifier.fresh
  set { c with unifier := u }
  return .var v

/-- Applies the substitution. -/
def applied (t : Ty) : Checking Ty := do return (← get).unifier.apply t

/-- Unifies two types, and says whether that failed. -/
def unify (a b : Ty) : Checking (Except TypeError Unit) := do
  let c ← get
  let (r, u) := (Unifying.unify a b).run c.unifier
  set { c with unifier := u }
  return r

/-- Unifies an expected type with a found one. An error without a place gets the given one. -/
def unifyAt (expected found : Ty) (loc : Location) : Checking Unit := do
  match ← unify expected found with
  | .ok () => return
  | .error e => failWith (e.placedAt loc)

/-- Records the type of the expression of a number. -/
def record (i : Nat) (t : Ty) : Checking Unit :=
  modify fun c => { c with types := (i, t) :: c.types }

/-- The signature of a constructor with fresh type variables. -/
def instantiate (k : Constructor) : Checking Ty := do
  let c ← get
  let (t, u) := k.instantiate c.unifier
  set { c with unifier := u }
  return t

/-- The symbol of a name under some local frames: as written, or else under the scope path. -/
def find? (locals : List Frame) (name : String) : Checking (Option Symbol) := do
  let c ← get
  let frames := locals ++ [c.globals]
  match findIn? frames name with
  | some s => return some s
  | none => return if c.scopePath.isEmpty then none else findIn? frames (c.scopePath ++ name)

/-- Binds a global name. -/
def insertGlobal (name : String) (s : Symbol) : Checking Unit :=
  modify fun c => { c with globals := c.globals.insert name s }

/-- Binds a global name that must be new. -/
def declareName (name : String) (s : Symbol) (loc : Location) : Checking Unit := do
  if ((← get).globals.find? name).isSome then fail loc (.duplicate name)
  else insertGlobal name s

end Checking

end FunRiscv
