import Mathlib
import FunRiscv.Surface.Printer
import FunRiscv.Proofs.Surface.Sequences
import FunRiscv.Proofs.Surface.Shape

/-!
# What is written for a tree

* `print`: the bytes of a tree's source form, as a function of the tree alone. Unlike the source
  form they do not end at a depth: deeper lines have more tabs.
-/

namespace FunRiscv

/-! ### The bytes of a tree -/

/-- Function types stand between parentheses where they are parameters. -/
def TypeExpr.enclose : TypeExpr → List UInt8 → List UInt8
  | .func .., s => 0x28 :: (s ++ [0x29])
  | _, s => s

mutual

/-- The bytes of a type. -/
def TypeExpr.print : TypeExpr → List UInt8
  | .name _ n [] => Text.bytesOf n
  | .name _ n (t :: ts) => Text.bytesOf n ++ 0x3c :: (commaJoin (typesPrint (t :: ts)) ++ [0x3e])
  | .func _ p r => p.enclose p.print ++ 0x20 :: 0x2d :: 0x3e :: 0x20 :: r.print
  | .tuple _ ts => 0x28 :: (commaJoin (typesPrint ts) ++ [0x29])
  | .missing => []

def typesPrint : List TypeExpr → List (List UInt8)
  | [] => []
  | t :: ts => t.print :: typesPrint ts

end

@[simp]
theorem typesPrint_eq_map (ts : List TypeExpr) : typesPrint ts = ts.map TypeExpr.print := by
  induction ts with
  | nil => rfl
  | cons t ts ih => rw [typesPrint, ih, List.map_cons]

/-- The bytes of a type after the given ones, if there is a type. -/
def optionalTypePrint (lead : List UInt8) : Option TypeExpr → List UInt8
  | none => []
  | some t => lead ++ 0x20 :: t.print

/-- The bytes of a parameter. -/
def Param.print (p : Param) : List UInt8 := Text.bytesOf p.name ++ optionalTypePrint [0x3a] p.type

/-- Operations, conditionals and matches stand between parentheses where they are operands. -/
def Expr.enclose : Expr → List UInt8 → List UInt8
  | .binOp .., s | .ifElse .., s | .matchOn .., s => 0x28 :: (s ++ [0x29])
  | _, s => s

/-- The second arm of a conditional stands between braces, unless it is a conditional. -/
def Expr.brace : Expr → List UInt8 → List UInt8
  | .ifElse .., s => s
  | _, s => 0x7b :: 0x20 :: (s ++ [0x20, 0x7d])

mutual

/-- The bytes of an expression. -/
def Expr.print : Expr → List UInt8
  | .var _ n => Text.bytesOf n
  | .uint _ v => Text.bytesOf (toString v.toNat)
  | .int _ v => Text.bytesOf ((if 0 ≤ v.toInt then "+" else "") ++ toString v.toInt)
  | .float _ v => Text.bytesOf (Number.text v)
  | .str _ bs => Text.bytesOf (Text.quote bs)
  | .bool _ v => Text.bytesOf (if v then "true" else "false")
  | .eraser _ => [0x2a]
  | .tuple _ es =>
    0x28 :: (commaJoin (exprsPrint es) ++ if es.length = 1 then [0x2c, 0x29] else [0x29])
  | .list _ es => 0x5b :: (commaJoin (exprsPrint es) ++ [0x5d])
  | .binOp _ op l r =>
    l.enclose l.print ++ 0x20 :: (Text.bytesOf op.symbol ++ 0x20 :: r.enclose r.print)
  | .call _ f as ns =>
    f.enclose f.print ++ 0x28 :: (commaJoin (exprsPrint as ++ namedPrint ns) ++ [0x29])
  | .lambda _ ps b =>
    Text.bytesOf "lambda" ++ 0x28 :: (commaJoin (ps.map Param.print) ++
      0x29 :: 0x20 :: 0x7b :: 0x20 :: (b.print ++ [0x20, 0x7d]))
  | .ifElse _ c t e =>
    Text.bytesOf "if" ++ 0x20 :: (c.print ++ 0x20 :: 0x7b :: 0x20 :: (t.print ++
      0x20 :: 0x7d :: 0x20 :: (Text.bytesOf "else" ++ 0x20 :: e.brace e.print)))
  | .matchOn _ x cs =>
    Text.bytesOf
      "match" ++ 0x20 :: (x.print ++ 0x20 :: 0x7b :: 0x20 ::
        (commaJoin (casesPrint cs) ++ [0x20, 0x7d]))
  | .access _ x f => x.enclose x.print ++ 0x2e :: Text.bytesOf f
  | .missing => []

def exprsPrint : List Expr → List (List UInt8)
  | [] => []
  | e :: es => e.print :: exprsPrint es

/-- The bytes of a named argument. -/
def NamedArg.print : NamedArg → List UInt8
  | .mk _ n e => Text.bytesOf n ++ 0x3a :: 0x20 :: e.print

def namedPrint : List NamedArg → List (List UInt8)
  | [] => []
  | a :: as => a.print :: namedPrint as

/-- The bytes of an arm of a match. -/
def Case.print : Case → List UInt8
  | .mk _ p e => p.print ++ 0x20 :: 0x3d :: 0x3e :: 0x20 :: e.print

def casesPrint : List Case → List (List UInt8)
  | [] => []
  | c :: cs => c.print :: casesPrint cs

/-- The bytes of a pattern. -/
def Pattern.print : Pattern → List UInt8
  | .var _ n => Text.bytesOf n
  | .wild _ => Text.bytesOf "_"
  | .lit _ e => e.print
  | .cons _ n [] => Text.bytesOf n
  | .cons _ n (p :: ps) => Text.bytesOf n ++ 0x28 :: (commaJoin (patternsPrint (p :: ps)) ++ [0x29])
  | .tuple _ ps => 0x28 :: (commaJoin (patternsPrint ps) ++ [0x29])
  | .missing => []

def patternsPrint : List Pattern → List (List UInt8)
  | [] => []
  | p :: ps => p.print :: patternsPrint ps

end

@[simp]
theorem exprsPrint_eq_map (es : List Expr) : exprsPrint es = es.map Expr.print := by
  induction es with
  | nil => rfl
  | cons e es ih => rw [exprsPrint, ih, List.map_cons]

@[simp]
theorem namedPrint_eq_map (as : List NamedArg) : namedPrint as = as.map NamedArg.print := by
  induction as with
  | nil => rfl
  | cons a as ih => rw [namedPrint, ih, List.map_cons]

@[simp]
theorem casesPrint_eq_map (cs : List Case) : casesPrint cs = cs.map Case.print := by
  induction cs with
  | nil => rfl
  | cons c cs ih => rw [casesPrint, ih, List.map_cons]

@[simp]
theorem patternsPrint_eq_map (ps : List Pattern) : patternsPrint ps = ps.map Pattern.print := by
  induction ps with
  | nil => rfl
  | cons p ps ih => rw [patternsPrint, ih, List.map_cons]

/-- The tabs in front of a line. -/
def tabs (depth : Nat) : List UInt8 := List.replicate depth 0x09

mutual

/-- The bytes of a statement at a depth, without the tabs and the line feed around them. -/
def Stmt.print (depth : Nat) : Stmt → List UInt8
  | .ret _ none => Text.bytesOf "return" ++ [0x3b]
  | .ret _ (some x) => Text.bytesOf "return" ++ 0x20 :: (x.print ++ [0x3b])
  | .assign _ target type x =>
    Text.bytesOf target ++ (optionalTypePrint [0x3a] type ++ 0x20 :: 0x3d :: 0x20 ::
      (x.print ++ [0x3b]))
  | .use _ n x =>
    Text.bytesOf "use" ++ 0x20 :: (Text.bytesOf n ++ 0x20 :: 0x3d :: 0x20 :: (x.print ++ [0x3b]))
  | .ifThen _ c _ t =>
    Text.bytesOf
      "if" ++ 0x20 :: (c.print ++ 0x20 :: 0x7b :: 0x0a ::
        (stmtsPrint (depth + 1) t ++ (tabs depth ++ [0x7d])))
  | .ifElse _ c _ t _ e =>
    Text.bytesOf
      "if" ++ 0x20 :: (c.print ++ 0x20 :: 0x7b :: 0x0a ::
        (stmtsPrint (depth + 1) t ++
          (tabs depth ++
          0x7d :: 0x20 ::
            (Text.bytesOf "else" ++ 0x20 :: 0x7b :: 0x0a ::
            (stmtsPrint (depth + 1) e ++ (tabs depth ++ [0x7d]))))))
  | .expr _ x => x.print ++ [0x3b]
  | .missing => []

/-- The lines of statements at a depth. -/
def stmtsPrint (depth : Nat) : List Stmt → List UInt8
  | [] => []
  | s :: ss => tabs depth ++ (s.print depth ++ 0x0a :: stmtsPrint depth ss)

end

/-! ### Definitions -/

/-- The bytes of type parameters. -/
def typeParamsPrint (ps : List String) : List UInt8 :=
  if ps.isEmpty then [] else 0x3c :: (commaJoin (ps.map Text.bytesOf) ++ [0x3e])

/-- The bytes of a field. -/
def Field.print (f : Field) : List UInt8 := Text.bytesOf f.name ++ 0x3a :: 0x20 :: f.type.print

/-- The bytes of a function at a depth. -/
def FuncDef.print (depth : Nat) (f : FuncDef) : List UInt8 :=
  Text.bytesOf "fn" ++
    0x20 :: (Text.bytesOf f.name ++
    0x28 :: (commaJoin (f.params.map Param.print) ++
    0x29 :: (optionalTypePrint [0x20, 0x2d, 0x3e] f.ret ++ 0x20 :: 0x7b :: 0x0a ::
      (stmtsPrint (depth + 1) f.body.stmts ++ (tabs depth ++ [0x7d])))))

/-- The bytes of a variant. -/
def Variant.print (v : Variant) : List UInt8 :=
  Text.bytesOf v.name ++
    if v.fields.isEmpty then [] else
      0x20 :: 0x7b :: 0x20 :: (commaJoin (v.fields.map Field.print) ++ [0x20, 0x7d])

/-- Lines of items at a depth, each with bytes of its own at its end. -/
def linesPrint {α : Type} (depth : Nat) (print : α → List UInt8) (stop : List UInt8) (xs : List α) :
    List UInt8 :=
  xs.flatMap fun x => tabs depth ++ (print x ++ stop)

/-- The bytes of a type definition at a depth. -/
def TypeDef.print (depth : Nat) (d : TypeDef) : List UInt8 :=
  Text.bytesOf "type" ++
    0x20 :: (Text.bytesOf d.name ++
    (typeParamsPrint d.typeParams ++ 0x20 :: 0x7b :: 0x0a ::
      (linesPrint (depth + 1) Variant.print [0x2c, 0x0a] d.variants ++ (tabs depth ++ [0x7d]))))

/-- The bytes of an object definition at a depth. -/
def ObjectDef.print (depth : Nat) (d : ObjectDef) : List UInt8 :=
  Text.bytesOf "object" ++
    0x20 :: (Text.bytesOf d.name ++
      (typeParamsPrint d.typeParams ++ 0x20 :: 0x7b :: 0x0a ::
        (linesPrint (depth + 1) Field.print [0x2c, 0x0a] d.fields ++
      (linesPrint (depth + 1) (FuncDef.print (depth + 1)) [0x0a] d.funcs ++
      (tabs depth ++ [0x7d])))))

/-- The bytes of an alias. -/
def TypeAlias.print (d : TypeAlias) : List UInt8 :=
  Text.bytesOf "alias" ++
    0x20 :: (Text.bytesOf d.name ++
    (typeParamsPrint d.typeParams ++ 0x20 :: 0x3d :: 0x20 :: (d.type.print ++ [0x3b])))

mutual

/-- The bytes of a definition at a depth, without the tabs and the line feed around them. -/
def Definition.print (depth : Nat) : Definition → List UInt8
  | .func d => d.print depth
  | .type d => d.print depth
  | .object d => d.print depth
  | .alias d => d.print
  | .module _ n ds =>
    Text.bytesOf "module" ++ 0x20 :: (Text.bytesOf n ++ 0x20 :: 0x7b :: 0x0a ::
      (definitionsPrint (depth + 1) ds ++ (tabs depth ++ [0x7d])))

/-- The lines of definitions at a depth, with a blank line between any two. -/
def definitionsPrint (depth : Nat) : List Definition → List UInt8
  | [] => []
  | d :: ds =>
    tabs depth ++ (d.print depth ++
      0x0a :: ((if ds.isEmpty then [] else [0x0a]) ++ definitionsPrint depth ds))

end

/-- The bytes of an import, without the line feed. -/
def Import.print (i : Import) : List UInt8 :=
  Text.bytesOf "import" ++ 0x20 :: (Text.bytesOf i.path ++ ((if i.names.isEmpty then [] else
    0x20 :: 0x7b :: 0x20 :: (commaJoin (i.names.map Text.bytesOf) ++ [0x20, 0x7d])) ++ [0x3b]))

/-- The bytes of a program. -/
def Program.print (p : Program) : List UInt8 :=
  linesPrint 0 Import.print [0x0a] p.imports ++ ((if p.imports.isEmpty || p.defs.isEmpty then
    [] else [0x0a]) ++
    definitionsPrint 0 p.defs)

end FunRiscv
