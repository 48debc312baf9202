/-!
# Types

The types that the checker assigns, as opposed to types as they are written.

* `Ty`: words, the dynamic type `any`, the unit-like `none`, variables, named types,
  functions and tuples.
* `Ty.text`: how a type is shown.
* `Ty.bind`: replaces every variable. `Ty.replace` does it by a finite map.
* `Ty.freeVars`, `Ty.occurs`, `Ty.closed`: the variables of a type.
* `Ty.curry`, `Ty.uncurry`: chains of function types.
-/

namespace FunRiscv

/-- A machine word type, or a code that belongs to none. -/
inductive Word where
  | u24 | i24 | f24
  | other (code : Int)
deriving DecidableEq, Repr, Inhabited

namespace Word

/-- The word type with a code. -/
def ofCode (n : Int) : Word :=
  if n = 0 then u24 else if n = 1 then i24 else if n = 2 then f24 else other n

def text : Word → String
  | u24 => "u24"
  | i24 => "i24"
  | f24 => "f24"
  | other _ => "word?"

/-- Integral words are the ones that bitwise operators take. -/
def integral : Word → Bool
  | u24 | i24 => true
  | f24 | other _ => false

end Word

/-- A type. -/
inductive Ty where
  | word (w : Word)
  /-- The dynamic type, which agrees with every type. -/
  | any
  /-- The type of functions that return nothing. -/
  | none
  | var (name : String)
  | named (name : String) (args : List Ty)
  | func (param result : Ty)
  | tuple (elems : List Ty)
deriving Repr, Inhabited

/-! ### Equality -/

mutual

/-- Equality of types can be decided. -/
def Ty.decEq : (a b : Ty) → Decidable (a = b)
  | .word a, .word b => decidable_of_iff (a = b) (by simp)
  | .any, .any => isTrue rfl
  | .none, .none => isTrue rfl
  | .var a, .var b => decidable_of_iff (a = b) (by simp)
  | .named a as, .named b bs =>
    have := Ty.decEqList as bs
    decidable_of_iff (a = b ∧ as = bs) (by simp)
  | .func a r, .func b s =>
    have := Ty.decEq a b
    have := Ty.decEq r s
    decidable_of_iff (a = b ∧ r = s) (by simp)
  | .tuple as, .tuple bs =>
    have := Ty.decEqList as bs
    decidable_of_iff (as = bs) (by simp)
  | .word _, .any | .word _, .none | .word _, .var _ | .word _, .named _ _ | .word _, .func _ _
  | .word _, .tuple _ =>
    isFalse (by simp)
  | .any, .word _ | .any, .none | .any, .var _ | .any, .named _ _ | .any, .func _ _
  | .any, .tuple _ =>
    isFalse (by simp)
  | .none, .word _ | .none, .any | .none, .var _ | .none, .named _ _ | .none, .func _ _
  | .none, .tuple _ =>
    isFalse (by simp)
  | .var _, .word _ | .var _, .any | .var _, .none | .var _, .named _ _ | .var _, .func _ _
  | .var _, .tuple _ =>
    isFalse (by simp)
  | .named _ _, .word _ | .named _ _, .any | .named _ _, .none | .named _ _, .var _
  | .named _ _, .func _ _
  | .named _ _, .tuple _ =>
    isFalse (by simp)
  | .func _ _, .word _ | .func _ _, .any | .func _ _, .none | .func _ _, .var _
  | .func _ _, .named _ _
  | .func _ _, .tuple _ =>
    isFalse (by simp)
  | .tuple _, .word _ | .tuple _, .any | .tuple _, .none | .tuple _, .var _ | .tuple _, .named _ _
  | .tuple _, .func _ _ =>
    isFalse (by simp)

/-- Equality of lists of types can be decided. -/
def Ty.decEqList : (as bs : List Ty) → Decidable (as = bs)
  | [], [] => isTrue rfl
  | a :: as, b :: bs =>
    have := Ty.decEq a b
    have := Ty.decEqList as bs
    decidable_of_iff (a = b ∧ as = bs) (by simp)
  | [], _ :: _ | _ :: _, [] => isFalse (by simp)

end

instance : DecidableEq Ty := Ty.decEq

namespace Ty

def u24 : Ty := word .u24

def i24 : Ty := word .i24

def f24 : Ty := word .f24

/-- The type of truth values. -/
def bool : Ty := named "Bool" []

/-- The type of strings. -/
def string : Ty := named "String" []

/-- The type of lists. -/
def listOf (t : Ty) : Ty := named "List" [t]

/-! ### Text -/

mutual

/-- A type as messages show it. -/
def text : Ty → String
  | word w => w.text
  | any => "Any"
  | none => "None"
  | var v => v
  | named n [] => n
  | named n args => n ++ "<" ++ String.intercalate ", " (texts args) ++ ">"
  | func p r =>
    let param := match p with
      | func .. => "(" ++ p.text ++ ")"
      | _ => p.text
    param ++ " -> " ++ r.text
  | tuple elems => "(" ++ String.intercalate ", " (texts elems) ++ ")"

def texts : List Ty → List String
  | [] => []
  | t :: ts => t.text :: texts ts

end

/-! ### Variables -/

mutual

/-- Replaces every variable. -/
def bind (f : String → Ty) : Ty → Ty
  | word w => word w
  | any => any
  | none => none
  | var v => f v
  | named n args => named n (bindList f args)
  | func p r => func (p.bind f) (r.bind f)
  | tuple elems => tuple (bindList f elems)

/-- Replaces every variable of a list of types. -/
def bindList (f : String → Ty) : List Ty → List Ty
  | [] => []
  | t :: ts => t.bind f :: bindList f ts

end

/-- Replaces the variables that a finite map names; of two entries for one variable
the first counts. -/
def replace (m : List (String × Ty)) (t : Ty) : Ty := t.bind fun v => (m.lookup v).getD (var v)

/-- The map from parameters to arguments; of two parameters of one name the last counts. -/
def parameterMap (params : List String) (args : List Ty) : List (String × Ty) :=
  (params.zip args).reverse

mutual

/-- The variables of a type, in the order of their first occurrence, after those already seen. -/
def freeVarsAfter (seen : List String) : Ty → List String
  | var v => if seen.contains v then seen else seen ++ [v]
  | named _ args => freeVarsAfterList seen args
  | func p r => r.freeVarsAfter (p.freeVarsAfter seen)
  | tuple elems => freeVarsAfterList seen elems
  | word _ | any | none => seen

def freeVarsAfterList (seen : List String) : List Ty → List String
  | [] => seen
  | t :: ts => freeVarsAfterList (t.freeVarsAfter seen) ts

end

/-- The variables of a type, in the order of their first occurrence. -/
def freeVars (t : Ty) : List String := t.freeVarsAfter []

/-- A closed type has no variables. -/
def closed (t : Ty) : Bool := t.freeVars.isEmpty

mutual

/-- Whether a variable occurs in a type. -/
def occurs (v : String) : Ty → Bool
  | var w => w == v
  | named _ args => occursList v args
  | func p r => p.occurs v || r.occurs v
  | tuple elems => occursList v elems
  | word _ | any | none => false

def occursList (v : String) : List Ty → Bool
  | [] => false
  | t :: ts => t.occurs v || occursList v ts

end

mutual

/-- The number of nodes of a type. -/
def size : Ty → Nat
  | word _ | any | none | var _ => 1
  | named _ args => sizeList args + 1
  | func p r => p.size + r.size + 1
  | tuple elems => sizeList elems + 1

def sizeList : List Ty → Nat
  | [] => 0
  | t :: ts => t.size + sizeList ts

end

/-- A variable whose name starts with an apostrophe is rigid: it stands for a fixed unknown type
and is never bound. -/
def rigidName (v : String) : Bool := v.toList.head? == some (Char.ofNat 0x27)

/-! ### Functions and words -/

/-- The function type from parameters, one after the other, to a result. -/
def curry (params : List Ty) (result : Ty) : Ty := params.foldr func result

/-- The parameters of a chain of function types, and its result. -/
def uncurry : Ty → List Ty × Ty
  | func p r => let (ps, result) := r.uncurry; (p :: ps, result)
  | t => ([], t)

/-- The types that arithmetic takes. -/
def numeric : Ty → Bool
  | word _ | any => true
  | _ => false

/-- The types that bitwise operators and shifts take. -/
def integral : Ty → Bool
  | word w => w.integral
  | any => true
  | _ => false

/-- Whether a type is a variable. -/
def isVar : Ty → Bool
  | var _ => true
  | _ => false

end Ty

end FunRiscv
