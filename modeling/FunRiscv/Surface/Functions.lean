import FunRiscv.Surface.Tree

/-!
# The functions of a program

* `Program.functions`: every function with its qualified name, in the order of the definitions. A
  member of a module and a method of an object are qualified by it: `Module/name`, `Object/name`.
* `pathOf`: what qualifies a name.
* `Program.mapFunctions`: the program with every function replaced, in the same order,
  threading a state.
-/

namespace FunRiscv

/-- A function with its qualified name. -/
structure NamedFunction where
  name : String
  func : FuncDef
deriving Inhabited

mutual

/-- The functions of a definition that stands under `scope`. -/
def Definition.functions (scope : String) : Definition → List NamedFunction
  | .func d => [⟨scope ++ d.name, d⟩]
  | .object d => d.funcs.map fun f => ⟨scope ++ d.name ++ "/" ++ f.name, f⟩
  | .module _ name defs => functionsOf (scope ++ name ++ "/") defs
  | .type _ | .alias _ => []

/-- The functions of definitions that stand under `scope`. -/
def functionsOf (scope : String) : List Definition → List NamedFunction
  | [] => []
  | d :: ds => d.functions scope ++ functionsOf scope ds

end

/-- The functions of a program, in definition order. -/
def Program.functions (p : Program) : List NamedFunction := functionsOf "" p.defs

/-- The part of a qualified name up to and with its last slash. -/
def pathOf (name : String) : String :=
  String.ofList (name.toList.reverse.dropWhile (· != '/')).reverse

section Map

variable {m : Type → Type} [Monad m]

/-- Replaces every function of a list. -/
def mapFuncs (f : FuncDef → m FuncDef) : List FuncDef → m (List FuncDef)
  | [] => pure []
  | d :: ds => do
    let d ← f d
    let ds ← mapFuncs f ds
    pure (d :: ds)

mutual

/-- Replaces every function of a definition. -/
def Definition.mapFunctions (f : FuncDef → m FuncDef) : Definition → m Definition
  | .func d => do return .func (← f d)
  | .object d => do return .object { d with funcs := ← mapFuncs f d.funcs }
  | .module loc name defs => do return .module loc name (← mapDefinitions f defs)
  | .type d => pure (.type d)
  | .alias d => pure (.alias d)

/-- Replaces every function of a list of definitions. -/
def mapDefinitions (f : FuncDef → m FuncDef) : List Definition → m (List Definition)
  | [] => pure []
  | d :: ds => do
    let d ← d.mapFunctions f
    let ds ← mapDefinitions f ds
    pure (d :: ds)

end

/-- Replaces every function of a program, in definition order. -/
def Program.mapFunctions (f : FuncDef → m FuncDef) (p : Program) : m Program := do
  return { p with defs := ← mapDefinitions f p.defs }

end Map

end FunRiscv
