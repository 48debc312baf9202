import FunRiscv.Surface.Tree
import FunRiscv.Typing.Checker

/-!
# Types as written and the types they mean

* `Checking.resolve`: the type that a written type means, under some type parameters.
-/

namespace FunRiscv.Checking

/-- The type that a name with arguments means. An alias stands for its target. -/
def resolveName (loc : Location) (name : String) (args : List Ty) : Checking Ty := do
  match ← find? [] name with
  | some (.type t) =>
    if args.length ≠ t.params.length then fail loc (.typeArity t.name t.params.length args.length)
    else match t.target? with
      | none => return .named t.name args
      | some target => return target.replace (Ty.parameterMap t.params args)
  | _ => fail loc (.undefinedType name)

mutual

/-- The type that a written type means. A type parameter without arguments means itself. -/
def resolve (params : List String) : TypeExpr → Checking Ty
  | .name loc n args => do
    if args.isEmpty && params.contains n then return .var n
    else
      let args ← resolveList params args
      resolveName loc n args
  | .func _ p r => do
    let p ← resolve params p
    let r ← resolve params r
    return .func p r
  | .tuple _ elems => do return .tuple (← resolveList params elems)
  | .missing => fail {} (.gap "type expression")

/-- The types that written types mean. -/
def resolveList (params : List String) : List TypeExpr → Checking (List Ty)
  | [] => return []
  | t :: ts => do
    let r ← resolve params t
    let rs ← resolveList params ts
    return r :: rs

end

end FunRiscv.Checking
