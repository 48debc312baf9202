import FunRiscv.Number.Decimal
import FunRiscv.Surface.Tree
import FunRiscv.Text.Quoted
import FunRiscv.Trace

/-!
# The source form of a tree

* `Expr.format`, `Pattern.format`, `TypeExpr.format`: on one line. Operations, conditionals and
  matches are put between parentheses wherever they are operands.
* `Stmt.format`, `Definition.format`, `Program.format`: in lines, indented by tabs. There are
  fifteen tabs; a line that would need more cannot be written.
* `Node.format`, `Node.text`: any node, and its form in diagnostics.
-/

namespace FunRiscv

/-! ### Errors -/

/-- Why a tree has no source form. -/
inductive FormatCause where
  /-- A node of a kind that has no source form where it stands, given by its place and its name. -/
  | unsupported (place kind : String)
  /-- A line would need more than fifteen tabs. -/
  | tooDeep
deriving DecidableEq, Repr, Inhabited

/-- The name of a gap in messages. -/
def gapName : String := "<nil>"

/-- The message of a cause. -/
def FormatCause.message : FormatCause → String
  | unsupported place kind => "unsupported " ++ place ++ ": " ++ kind
  | tooDeep => "nesting too deep to indent"

/-- An error of formatting. -/
abbrev FormatError := Traced FormatCause

/-- The result of formatting. -/
abbrev Formatted := Except FormatError

/-- The items divided by commas. -/
def commaSeparated (items : List String) : String := String.intercalate ", " items

/-! ### Types and parameters -/

/-- Function types are put between parentheses where they are parameters. -/
def TypeExpr.parenthesise : TypeExpr → String → String
  | .func .., s => "(" ++ s ++ ")"
  | _, s => s

mutual

/-- The source form of a type. -/
def TypeExpr.format : TypeExpr → Formatted String
  | .name _ n [] => pure n
  | .name _ n args => do
    let args ← formatTypes args
    return n ++ "<" ++ commaSeparated args ++ ">"
  | .func _ p r => do
    let param ← p.format
    let result ← r.format
    return p.parenthesise param ++ " -> " ++ result
  | .tuple _ elems => do
    let elems ← formatTypes elems
    return "(" ++ commaSeparated elems ++ ")"
  | .missing => failWith (FormatCause.unsupported "type" gapName)

/-- The source forms of types. -/
def formatTypes : List TypeExpr → Formatted (List String)
  | [] => pure []
  | t :: ts => do
    let s ← t.format
    let ss ← formatTypes ts
    return s :: ss

end

/-- The source form of a parameter. -/
def Param.format (p : Param) : Formatted String :=
  match p.type with
  | none => pure p.name
  | some t => do return p.name ++ ": " ++ (← inContext ("param " ++ p.name) t.format)

/-- The source form of parameters. -/
def formatParams (ps : List Param) : Formatted String :=
  do return commaSeparated (← ps.mapM Param.format)

/-! ### Expressions and patterns -/

/-- Operations, conditionals and matches are put between parentheses where they are operands. -/
def Expr.parenthesise : Expr → String → String
  | .binOp .., s | .ifElse .., s | .matchOn .., s => "(" ++ s ++ ")"
  | _, s => s

mutual

/-- The source form of an expression. -/
def Expr.format : Expr → Formatted String
  | .var _ n => pure n
  | .uint _ v => pure (toString v.toNat)
  | .int _ v => pure ((if 0 ≤ v.toInt then "+" else "") ++ toString v.toInt)
  | .float _ v => pure (Number.text v)
  | .str _ bytes => pure (Text.quote bytes)
  | .bool _ v => pure (if v then "true" else "false")
  | .eraser _ => pure "*"
  | .tuple _ elems => do
    let ss ← formatElems 0 elems
    return "(" ++ commaSeparated ss ++ (if elems.length = 1 then "," else "") ++ ")"
  | .list _ elems => do
    let ss ← formatElems 0 elems
    return "[" ++ commaSeparated ss ++ "]"
  | .binOp _ op l r => do
    let left ← inContext "left" l.format
    let right ← inContext "right" r.format
    return l.parenthesise left ++ " " ++ op.symbol ++ " " ++ r.parenthesise right
  | .call _ f args named => do
    let callee ← inContext "callee" f.format
    let args ← formatElems 0 args
    let named ← formatNamed named
    return f.parenthesise callee ++ "(" ++ commaSeparated (args ++ named) ++ ")"
  | .lambda _ ps b => do
    let params ← formatParams ps
    let body ← inContext "lambda" b.format
    return "lambda(" ++ params ++ ") \x7b " ++ body ++ " \x7d"
  | .ifElse _ c t e => do
    let cond ← inContext "cond" c.format
    let thenArm ← inContext "then" t.format
    let head := "if " ++ cond ++ " \x7b " ++ thenArm ++ " \x7d else "
    match e with
    | .ifElse .. => return head ++ (← e.format)
    | _ =>
      let elseArm ← inContext "else" e.format
      return head ++ "\x7b " ++ elseArm ++ " \x7d"
  | .matchOn _ x cases => do
    let scrutinee ← inContext "scrutinee" x.format
    let cases ← formatCases 0 cases
    return "match " ++ scrutinee ++ " \x7b " ++ commaSeparated cases ++ " \x7d"
  | .access _ x field => do
    let target ← x.format
    return x.parenthesise target ++ "." ++ field
  | .missing => failWith (FormatCause.unsupported "expr" gapName)

/-- The source forms of expressions in a list, the first of which has index `i`. -/
def formatElems (i : Nat) : List Expr → Formatted (List String)
  | [] => pure []
  | x :: xs => do
    let s ← inContext ("elem " ++ toString i) x.format
    let ss ← formatElems (i + 1) xs
    return s :: ss

/-- The source forms of named arguments. -/
def formatNamed : List NamedArg → Formatted (List String)
  | [] => pure []
  | .mk _ n x :: rest => do
    let s ← inContext ("arg " ++ n) x.format
    let ss ← formatNamed rest
    return (n ++ ": " ++ s) :: ss

/-- The source forms of match arms, the first of which has index `i`. -/
def formatCases (i : Nat) : List Case → Formatted (List String)
  | [] => pure []
  | .mk _ p x :: rest => do
    let pattern ← inContext ("case " ++ toString i) p.format
    let body ← inContext ("case " ++ toString i) x.format
    let ss ← formatCases (i + 1) rest
    return (pattern ++ " => " ++ body) :: ss

/-- The source form of a pattern. -/
def Pattern.format : Pattern → Formatted String
  | .var _ n => pure n
  | .wild _ => pure "_"
  | .lit _ x => x.format
  | .cons _ n [] => pure n
  | .cons _ n args => do
    let args ← formatPatterns args
    return n ++ "(" ++ commaSeparated args ++ ")"
  | .tuple _ elems => do
    let elems ← formatPatterns elems
    return "(" ++ commaSeparated elems ++ ")"
  | .missing => failWith (FormatCause.unsupported "pattern" gapName)

/-- The source forms of patterns. -/
def formatPatterns : List Pattern → Formatted (List String)
  | [] => pure []
  | p :: ps => do
    let s ← p.format
    let ss ← formatPatterns ps
    return s :: ss

end

/-! ### Lines -/

/-- The greatest depth at which a line can stand. -/
def maxIndent : Nat := 15

/-- The indentation of a line at a depth. -/
def indent (depth : Nat) : Formatted String :=
  if depth ≤ maxIndent then pure (String.ofList (List.replicate depth '\t')) else
    failWith FormatCause.tooDeep

mutual

/-- The lines of a statement at a depth. -/
def Stmt.format (depth : Nat) : Stmt → Formatted String
  | .ret _ none => do return (← indent depth) ++ "return;\n"
  | .ret _ (some x) => do
    let tabs ← indent depth
    let value ← inContext "return" x.format
    return tabs ++ "return " ++ value ++ ";\n"
  | .assign _ target type x => do
    let tabs ← indent depth
    let annotation ← match type with
      | none => pure ""
      | some t => do pure (": " ++ (← inContext "type" t.format))
    let value ← inContext "rhs" x.format
    return tabs ++ target ++ annotation ++ " = " ++ value ++ ";\n"
  | .use _ n x => do
    let tabs ← indent depth
    let value ← inContext "use" x.format
    return tabs ++ "use " ++ n ++ " = " ++ value ++ ";\n"
  | .ifThen _ c _ thenArm => do
    let tabs ← indent depth
    let cond ← inContext "cond" c.format
    let body ← inContext "then block" (formatStmts (depth + 1) thenArm)
    return tabs ++ "if " ++ cond ++ " \x7b\n" ++ body ++ tabs ++ "\x7d\n"
  | .ifElse _ c _ thenArm _ elseArm => do
    let tabs ← indent depth
    let cond ← inContext "cond" c.format
    let body ← inContext "then block" (formatStmts (depth + 1) thenArm)
    let other ← inContext "else block" (formatStmts (depth + 1) elseArm)
    return tabs ++ "if " ++ cond ++ " \x7b\n" ++ body ++ tabs ++ "\x7d else \x7b\n" ++ other ++
      tabs ++ "\x7d\n"
  | .expr _ x => do
    let tabs ← indent depth
    let value ← inContext "expr" x.format
    return tabs ++ value ++ ";\n"
  | .missing => failWith (FormatCause.unsupported "stmt" gapName)

/-- The lines of statements at a depth. -/
def formatStmts (depth : Nat) : List Stmt → Formatted String
  | [] => pure ""
  | s :: ss => do
    let line ← s.format depth
    let lines ← formatStmts depth ss
    return line ++ lines

end

/-! ### Definitions -/

/-- The source form of type parameters. -/
def formatTypeParams (ps : List String) : String :=
  if ps.isEmpty then "" else "<" ++ commaSeparated ps ++ ">"

/-- The source form of a field. -/
def Field.format (f : Field) : Formatted String := do
  return f.name ++ ": " ++ (← inContext ("field " ++ f.name) f.type.format)

/-- The lines of a function at a depth. -/
def FuncDef.format (depth : Nat) (f : FuncDef) : Formatted String := do
  let tabs ← indent depth
  let params ← formatParams f.params
  let ret ← match f.ret with
    | none => pure ""
    | some t => do pure (" -> " ++ (← inContext "return type" t.format))
  let body ← inContext "body" (formatStmts (depth + 1) f.body.stmts)
  return tabs ++ "fn " ++ f.name ++ "(" ++ params ++ ")" ++ ret ++ " \x7b\n" ++ body ++
    tabs ++ "\x7d\n"

/-- The line of a variant at a depth. -/
def Variant.format (depth : Nat) (v : Variant) : Formatted String := do
  let tabs ← indent depth
  if v.fields.isEmpty then return tabs ++ v.name ++ ",\n"
  else
    let fields ← inContext ("variant " ++ v.name) (v.fields.mapM Field.format)
    return tabs ++ v.name ++ " \x7b " ++ commaSeparated fields ++ " \x7d,\n"

/-- The lines of a type definition at a depth. -/
def TypeDef.format (depth : Nat) (d : TypeDef) : Formatted String := do
  let tabs ← indent depth
  let variants ← d.variants.mapM (Variant.format (depth + 1))
  return tabs ++ "type " ++ d.name ++ formatTypeParams d.typeParams ++ " \x7b\n" ++
    String.join variants ++ tabs ++ "\x7d\n"

/-- The lines of an object definition at a depth. -/
def ObjectDef.format (depth : Nat) (d : ObjectDef) : Formatted String := do
  let tabs ← indent depth
  let fields ← d.fields.mapM fun f => do return (← indent (depth + 1)) ++ (← f.format) ++ ",\n"
  let funcs ← d.funcs.mapM fun f => inContext ("method " ++ f.name) (f.format (depth + 1))
  return tabs ++ "object " ++ d.name ++ formatTypeParams d.typeParams ++ " \x7b\n" ++
    String.join fields ++ String.join funcs ++ tabs ++ "\x7d\n"

/-- The line of an alias at a depth. -/
def TypeAlias.format (depth : Nat) (d : TypeAlias) : Formatted String := do
  let tabs ← indent depth
  let type ← d.type.format
  return tabs ++ "alias " ++ d.name ++ formatTypeParams d.typeParams ++ " = " ++ type ++ ";\n"

mutual

/-- The lines of a definition at a depth. -/
def Definition.format (depth : Nat) : Definition → Formatted String
  | .func d => d.format depth
  | .type d => d.format depth
  | .object d => d.format depth
  | .alias d => d.format depth
  | .module _ name defs => do
    let tabs ← indent depth
    let defs ← formatDefinitions (depth + 1) defs
    return tabs ++ "module " ++ name ++ " \x7b\n" ++ String.intercalate "\n" defs ++
      tabs ++ "\x7d\n"

/-- The lines of each of some definitions at a depth. -/
def formatDefinitions (depth : Nat) : List Definition → Formatted (List String)
  | [] => pure []
  | d :: ds => do
    let s ← inContext ("def " ++ d.name) (d.format depth)
    let ss ← formatDefinitions depth ds
    return s :: ss

end

/-- The line of an import. -/
def Import.format (i : Import) : String :=
  "import " ++ i.path ++ (if i.names.isEmpty then "" else
    " \x7b " ++ commaSeparated i.names ++ " \x7d") ++ ";\n"

/-- The source form of a program. A blank line stands before every definition but one
that comes first. -/
def Program.format (p : Program) : Formatted String := do
  let defs ← formatDefinitions 0 p.defs
  let imports := String.join (p.imports.map Import.format)
  let gap := if p.imports.isEmpty || p.defs.isEmpty then "" else "\n"
  return imports ++ gap ++ String.intercalate "\n" defs

/-! ### Any node -/

/-- The name of the kind of an expression. -/
def Expr.kindName : Expr → String
  | .var .. => "Var"
  | .uint .. => "Uint"
  | .int .. => "Int"
  | .float .. => "Float"
  | .str .. => "Str"
  | .bool .. => "Bool"
  | .eraser .. => "Eraser"
  | .tuple .. => "Tuple"
  | .list .. => "List"
  | .binOp .. => "BinOp"
  | .call .. => "Call"
  | .lambda .. => "Lambda"
  | .ifElse .. => "IfExpr"
  | .matchOn .. => "Match"
  | .access .. => "Access"
  | .missing => gapName

/-- The name of the kind of a pattern. -/
def Pattern.kindName : Pattern → String
  | .var .. => "PVar"
  | .wild .. => "PWild"
  | .lit .. => "PLit"
  | .cons .. => "PCons"
  | .tuple .. => "PTuple"
  | .missing => gapName

/-- The name of the kind of a type as written. -/
def TypeExpr.kindName : TypeExpr → String
  | .name .. => "TName"
  | .func .. => "TFunc"
  | .tuple .. => "TTuple"
  | .missing => gapName

/-- The name of the kind of a statement. -/
def Stmt.kindName : Stmt → String
  | .ret .. => "Return"
  | .assign .. => "Assign"
  | .use .. => "Use"
  | .ifThen .. | .ifElse .. => "If"
  | .expr .. => "ExprStmt"
  | .missing => gapName

/-- The name of the kind of a definition. -/
def Definition.kindName : Definition → String
  | .func .. => "FuncDef"
  | .type .. => "TypeDef"
  | .object .. => "ObjectDef"
  | .alias .. => "TypeAlias"
  | .module .. => "Module"

/-- The full name of a kind of node in messages. -/
def qualifiedKind (kind : String) : String := if kind == gapName then kind else "*ast." ++ kind

/-- Any node of a tree. -/
inductive Node where
  | program (p : Program)
  | definition (d : Definition)
  | block (b : Block)
  | stmt (s : Stmt)
  | expr (e : Expr)
  | type (t : TypeExpr)
  | pattern (p : Pattern)
  /-- A node that has a source form only inside another one, given by the name of its kind. -/
  | inner (kind : String)

namespace Node

/-- The name of the kind of a node. -/
def kindName : Node → String
  | program _ => "Program"
  | definition d => d.kindName
  | block _ => "Block"
  | stmt s => s.kindName
  | expr e => e.kindName
  | type t => t.kindName
  | pattern p => p.kindName
  | inner kind => kind

/-- The source form of a node. -/
def format : Node → Formatted String
  | program p => p.format
  | definition d => d.format 0
  | block b => formatStmts 0 b.stmts
  | stmt s => s.format 0
  | expr e => e.format
  | type t => t.format
  | pattern p => p.format
  | inner kind => failWith (FormatCause.unsupported "type" (qualifiedKind kind))

/-- The form of a node in diagnostics: its source form, or the name of its kind if it has none. Only
nesting that is too deep to indent is an error. -/
def text (n : Node) : Formatted String :=
  match n.format with
  | .ok s => pure s
  | .error ⟨trail, .tooDeep⟩ => throw ⟨trail, .tooDeep⟩
  | .error _ => pure ("<" ++ qualifiedKind n.kindName ++ ">")

end Node

end FunRiscv
