import FunRiscv.Ty.Error

/-!
# Unification

* `Subst`: a finite substitution. `Subst.apply` follows its bindings until none is left.
* `Unifier`: a substitution with a counter of fresh variables and a count of steps.
* `Unifier.unify`: makes two types equal by binding variables that are not rigid. The dynamic type
  agrees with every type. Bindings made before a failure are kept.
-/

namespace FunRiscv

/-! ### Substitutions -/

/-- A finite substitution; of two bindings of one variable the first counts. -/
abbrev Subst := List (String × Ty)

namespace Subst

/-- Adds a binding, in the place of an older one of the same variable. -/
def insert (s : Subst) (v : String) (t : Ty) : Subst := (v, t) :: s.filter (·.1 != v)

/-- Follows bindings, at most `fuel` of them along any path. -/
def applyWithin (s : Subst) : (fuel : Nat) → Ty → Ty
  | 0, t => t
  | fuel + 1, t => t.bind fun v =>
    match s.lookup v with
    | some r => applyWithin s fuel r
    | none => .var v

/-- Follows bindings until no bound variable is left. Without cycles, no path is longer than the
number of bindings. -/
def apply (s : Subst) (t : Ty) : Ty := s.applyWithin (s.length + 1) t

/-- The number of nodes of all bound types. -/
def size (s : Subst) : Nat := Ty.sizeList (s.map (·.2))

end Subst

/-! ### The unifier -/

/-- A substitution, a counter of fresh variables and a count of unification steps. -/
structure Unifier where
  subst : Subst := []
  /-- How the names of fresh variables start. -/
  stem : String := "t"
  /-- The greatest number of steps; zero for no limit. -/
  limit : Nat := 0
  made : Nat := 0
  steps : Nat := 0
deriving Inhabited

namespace Unifier

/-- A new unifier. The empty stem stands for `t`. -/
def new (stem : String) (limit : Nat) : Unifier :=
  { stem := if stem.isEmpty then "t" else stem, limit }

/-- A new variable. -/
def fresh (u : Unifier) : String × Unifier :=
  let u := { u with made := u.made + 1 }
  (u.stem ++ "_" ++ toString u.made, u)

/-- Applies the substitution. -/
def apply (u : Unifier) (t : Ty) : Ty := u.subst.apply t

end Unifier

/-- An action on a unifier. What it changed before a failure is kept. -/
abbrev Unifying (α : Type) := ExceptT TypeError (StateM Unifier) α

namespace Unifying

/-- Fails with a cause that has no place. -/
def fail {α : Type} (cause : TypeCause) : Unifying α := throw { cause }

/-- Counts a step, and fails beyond the limit. -/
def step : Unifying Unit := do
  let u ← get
  set { u with steps := u.steps + 1 }
  if u.limit > 0 && u.limit < u.steps + 1 then fail (.stepLimit u.limit)

/-- Binds a variable to a type. A variable inside a larger type cannot stand for it. -/
def bindVar (v : String) (t : Ty) : Unifying Unit := do
  if t = .var v then return
  else if t.occurs v then fail (.mismatch (.var v) t)
  else modify fun u => { u with subst := u.subst.insert v t }

/-- Whether the unifier may bind a type: it is a variable that is not rigid. -/
def bindable? : Ty → Option String
  | .var v => if Ty.rigidName v then none else some v
  | _ => none

/-- Runs an action on the pairs of two lists. -/
def forPairs (act : Ty → Ty → Unifying Unit) : List Ty → List Ty → Unifying Unit
  | a :: as, b :: bs => do
    act a b
    forPairs act as bs
  | _, _ => pure ()

/-- Unifies two types, nesting at most `fuel` deep. -/
def unifyWithin : (fuel : Nat) → Ty → Ty → Unifying Unit
  | 0, _, _ => fail .exhausted
  | fuel + 1, a, b => do
    step
    let u ← get
    let a := u.apply a
    let b := u.apply b
    match bindable? a, bindable? b with
    | some v, _ => bindVar v b
    | none, some w => bindVar w a
    | none, none =>
      let mismatch : Unifying Unit := do
        let u ← get
        fail (.mismatch (u.apply a) (u.apply b))
      match a, b with
      | .any, _ | _, .any => return
      | .named n as, .named m bs =>
        if n = m ∧ as.length = bs.length then forPairs (unifyWithin fuel) as bs else mismatch
      | .func p r, .func q s => do
        unifyWithin fuel p q
        unifyWithin fuel r s
      | .tuple as, .tuple bs =>
        if as.length = bs.length then forPairs (unifyWithin fuel) as bs else mismatch
      | a, b => if a = b then return else mismatch

/-- Unifies two types. Without cycles no path through them is longer than the number
of nodes at hand. -/
def unify (a b : Ty) : Unifying Unit := do
  let u ← get
  unifyWithin (a.size + b.size + u.subst.size + 1) a b

end Unifying

end FunRiscv
