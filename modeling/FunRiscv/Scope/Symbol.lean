import FunRiscv.Ty.Unify

/-!
# Symbols

* `Symbol`: what a name stands for: a variable, a function, a type, a constructor or a module.
* `Constructor.instantiate`: the signature of a constructor with fresh variables for
  its type parameters.
-/

namespace FunRiscv

/-- A constructor: a curried signature over type parameters, and the names of its fields. -/
structure Constructor where
  name : String
  owner : String
  params : List String
  fields : List String
  signature : Ty
deriving Inhabited

/-- A type: an alias has a target, an object has a constructor and typed fields, other
types have variants. -/
structure TypeSymbol where
  name : String
  params : List String := []
  variants : List String := []
  fields : List (String × Ty) := []
  target? : Option Ty := none
  constructor? : Option Constructor := none
deriving Inhabited

/-- What a name stands for. -/
inductive Symbol where
  | variable (name : String) (type : Ty)
  /-- A function; `defined` says whether its definition is at hand. -/
  | function (name : String) (type : Ty) (defined : Bool)
  | type (t : TypeSymbol)
  | constructor (c : Constructor)
  | module (name : String) (members : List String)
deriving Inhabited

/-- Fresh variables for type parameters, in order. -/
def freshFor : List String → Unifier → List Ty × Unifier
  | [], u => ([], u)
  | _ :: ps, u =>
    let (v, u) := u.fresh
    let (vs, u) := freshFor ps u
    (.var v :: vs, u)

namespace Constructor

/-- The signature with fresh variables for the type parameters. -/
def instantiate (c : Constructor) (u : Unifier) : Ty × Unifier :=
  let (vs, u) := freshFor c.params u
  (c.signature.replace (Ty.parameterMap c.params vs), u)

/-- The constructed type with fresh variables for the type parameters. -/
def result (c : Constructor) (u : Unifier) : Ty × Unifier :=
  let (t, u) := c.instantiate u
  (t.uncurry.2, u)

end Constructor

/-- The constructor behind a symbol: a variant, or an object itself. -/
def Symbol.constructor? : Symbol → Option Constructor
  | .constructor c => some c
  | .type t => t.constructor?
  | _ => none

end FunRiscv
