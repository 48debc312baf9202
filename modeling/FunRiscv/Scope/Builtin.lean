import FunRiscv.Scope.Table

/-!
# Builtin names

* `builtinFrame`: the types, truth values and constructors that every program sees.
-/

namespace FunRiscv

/-- A builtin type with the fields of each of its variants. -/
def builtinGeneric (name : String) (params : List String)
    (variants : List (String × List (String × Ty))) : Frame :=
  let self := Ty.named name (params.map Ty.var)
  let constructors := variants.map fun (v, fields) =>
    let full := name ++ "/" ++ v
    (full, Symbol.constructor
      { name := full, owner := name, params
        fields := fields.map (·.1), signature := Ty.curry (fields.map (·.2)) self })
  (name, .type { name, params, variants := constructors.map (·.1) }) :: constructors

/-- The names that every program sees. -/
def builtinFrame : Frame :=
  let t := Ty.var "T"
  let word (w : Word) : String × Symbol :=
    (w.text, .type { name := w.text, target? := some (.word w) })
  [word .u24, word .i24, word .f24,
   ("String", .type { name := "String" }),
   ("Bool", .type { name := "Bool" }),
   ("Any", .type { name := "Any", target? := some .any }),
   ("None", .type { name := "None", target? := some .none }),
   ("true", .variable "true" .bool),
   ("false", .variable "false" .bool)] ++
  builtinGeneric "List" ["T"] [("Cons", [("head", t), ("tail", .listOf t)]), ("Nil", [])] ++
  builtinGeneric "Option" ["T"] [("Some", [("value", t)]), ("None", [])] ++
  builtinGeneric "Result" ["T", "E"] [("Ok", [("value", t)]), ("Err", [("error", .var "E")])] ++
  builtinGeneric "Tree" ["T"]
    [("Node", [("left", .named "Tree" [t]), ("right", .named "Tree" [t])]),
      ("Leaf", [("value", t)])]

/-- A table with one frame that holds the builtin names. -/
def Scope.builtin : Scope := { frame := builtinFrame }

/-- A table with one empty frame. -/
def Scope.empty : Scope := { frame := [] }

/-- Whether a name is builtin. -/
def isBuiltin (name : String) : Bool := (builtinFrame.find? name).isSome

end FunRiscv
