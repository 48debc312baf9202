import Mathlib
import FunRiscv.Surface.Functions
import FunRiscv.Proofs.Surface.Scanning

/-!
# What trees the reader gives, and which of them read back

* `bare`: a tree without its locations. Two trees are the same up to locations when
  they are equal bare.
* `Legible`: what holds of every tree that a text reads as: names are names, numbers are
  in range, and so on.
* `Plain`: no part of the tree has one of the three shapes that do not read back: a number with
  digits for a field, a constructor pattern without arguments or capital, a conditional
  expression as a statement.
-/

namespace FunRiscv

/-! ### Without locations -/

mutual

/-- A type without its locations. -/
def TypeExpr.bare : TypeExpr → TypeExpr
  | .name _ n args => .name {} n (typesBare args)
  | .func _ p r => .func {} p.bare r.bare
  | .tuple _ elems => .tuple {} (typesBare elems)
  | .missing => .missing

def typesBare : List TypeExpr → List TypeExpr
  | [] => []
  | t :: ts => t.bare :: typesBare ts

end

/-- A parameter without its locations. -/
def Param.bare (p : Param) : Param :=
  { loc := {}, name := p.name, type := p.type.map TypeExpr.bare }

mutual

/-- An expression without its locations. -/
def Expr.bare : Expr → Expr
  | .var _ n => .var {} n
  | .uint _ v => .uint {} v
  | .int _ v => .int {} v
  | .float _ v => .float {} v
  | .str _ bs => .str {} bs
  | .bool _ v => .bool {} v
  | .eraser _ => .eraser {}
  | .tuple _ es => .tuple {} (exprsBare es)
  | .list _ es => .list {} (exprsBare es)
  | .binOp _ op l r => .binOp {} op l.bare r.bare
  | .call _ f as ns => .call {} f.bare (exprsBare as) (namedBare ns)
  | .lambda _ ps b => .lambda {} (ps.map Param.bare) b.bare
  | .ifElse _ c t e => .ifElse {} c.bare t.bare e.bare
  | .matchOn _ x cs => .matchOn {} x.bare (casesBare cs)
  | .access _ x f => .access {} x.bare f
  | .missing => .missing

def exprsBare : List Expr → List Expr
  | [] => []
  | e :: es => e.bare :: exprsBare es

/-- A named argument without its locations. -/
def NamedArg.bare : NamedArg → NamedArg
  | .mk _ n e => .mk {} n e.bare

def namedBare : List NamedArg → List NamedArg
  | [] => []
  | a :: as => a.bare :: namedBare as

/-- An arm of a match without its locations. -/
def Case.bare : Case → Case
  | .mk _ p e => .mk {} p.bare e.bare

def casesBare : List Case → List Case
  | [] => []
  | c :: cs => c.bare :: casesBare cs

/-- A pattern without its locations. -/
def Pattern.bare : Pattern → Pattern
  | .var _ n => .var {} n
  | .wild _ => .wild {}
  | .lit _ e => .lit {} e.bare
  | .cons _ n ps => .cons {} n (patternsBare ps)
  | .tuple _ ps => .tuple {} (patternsBare ps)
  | .missing => .missing

def patternsBare : List Pattern → List Pattern
  | [] => []
  | p :: ps => p.bare :: patternsBare ps

end

mutual

/-- A statement without its locations. -/
def Stmt.bare : Stmt → Stmt
  | .ret _ x => .ret {} (x.map Expr.bare)
  | .assign _ target type x => .assign {} target (type.map TypeExpr.bare) x.bare
  | .use _ n x => .use {} n x.bare
  | .ifThen _ c _ thenArm => .ifThen {} c.bare {} (stmtsBare thenArm)
  | .ifElse _ c _ thenArm _ elseArm =>
    .ifElse {} c.bare {} (stmtsBare thenArm) {} (stmtsBare elseArm)
  | .expr _ x => .expr {} x.bare
  | .missing => .missing

def stmtsBare : List Stmt → List Stmt
  | [] => []
  | s :: ss => s.bare :: stmtsBare ss

end

/-- A block without its locations. -/
def Block.bare (b : Block) : Block := { loc := {}, stmts := stmtsBare b.stmts }

/-- A field without its locations. -/
def Field.bare (f : Field) : Field := { loc := {}, name := f.name, type := f.type.bare }

/-- A variant without its locations. -/
def Variant.bare (v : Variant) : Variant :=
  { loc := {}, name := v.name, fields := v.fields.map Field.bare }

/-- A function without its locations. -/
def FuncDef.bare (f : FuncDef) : FuncDef :=
  { loc := {}, name := f.name, params := f.params.map Param.bare, ret := f.ret.map TypeExpr.bare
    body := f.body.bare, checked := f.checked }

/-- A type definition without its locations. -/
def TypeDef.bare (d : TypeDef) : TypeDef :=
  { loc := {}, name := d.name, typeParams := d.typeParams, variants := d.variants.map Variant.bare }

/-- An object definition without its locations. -/
def ObjectDef.bare (d : ObjectDef) : ObjectDef :=
  { loc := {}, name := d.name, typeParams := d.typeParams, fields := d.fields.map Field.bare
    funcs := d.funcs.map FuncDef.bare }

/-- An alias without its locations. -/
def TypeAlias.bare (d : TypeAlias) : TypeAlias :=
  { loc := {}, name := d.name, typeParams := d.typeParams, type := d.type.bare }

mutual

/-- A definition without its locations. -/
def Definition.bare : Definition → Definition
  | .func d => .func d.bare
  | .type d => .type d.bare
  | .object d => .object d.bare
  | .alias d => .alias d.bare
  | .module _ n ds => .module {} n (definitionsBare ds)

def definitionsBare : List Definition → List Definition
  | [] => []
  | d :: ds => d.bare :: definitionsBare ds

end

/-- An import without its locations. -/
def Import.bare (i : Import) : Import := { loc := {}, path := i.path, names := i.names }

/-- A program without its locations. -/
def Program.bare (p : Program) : Program :=
  { imports := p.imports.map Import.bare, defs := definitionsBare p.defs }

section Lists

@[simp]
theorem typesBare_eq_map (ts : List TypeExpr) : typesBare ts = ts.map TypeExpr.bare := by
  induction ts with
  | nil => rfl
  | cons t ts ih => rw [typesBare, ih, List.map_cons]

@[simp]
theorem exprsBare_eq_map (es : List Expr) : exprsBare es = es.map Expr.bare := by
  induction es with
  | nil => rfl
  | cons e es ih => rw [exprsBare, ih, List.map_cons]

@[simp]
theorem namedBare_eq_map (as : List NamedArg) : namedBare as = as.map NamedArg.bare := by
  induction as with
  | nil => rfl
  | cons a as ih => rw [namedBare, ih, List.map_cons]

@[simp]
theorem casesBare_eq_map (cs : List Case) : casesBare cs = cs.map Case.bare := by
  induction cs with
  | nil => rfl
  | cons c cs ih => rw [casesBare, ih, List.map_cons]

@[simp]
theorem patternsBare_eq_map (ps : List Pattern) : patternsBare ps = ps.map Pattern.bare := by
  induction ps with
  | nil => rfl
  | cons p ps ih => rw [patternsBare, ih, List.map_cons]

@[simp]
theorem stmtsBare_eq_map (ss : List Stmt) : stmtsBare ss = ss.map Stmt.bare := by
  induction ss with
  | nil => rfl
  | cons s ss ih => rw [stmtsBare, ih, List.map_cons]

@[simp]
theorem definitionsBare_eq_map (ds : List Definition) :
    definitionsBare ds = ds.map Definition.bare := by
  induction ds with
  | nil => rfl
  | cons d ds ih => rw [definitionsBare, ih, List.map_cons]

end Lists

/-! ### Legible trees -/

mutual

/-- The types that the reader gives. Parentheses around a single type leave no trace. -/
def TypeExpr.Legible : TypeExpr → Prop
  | .name _ n args => IsName n ∧ typesLegible args
  | .func _ p r => p.Legible ∧ r.Legible
  | .tuple _ elems => elems.length ≠ 1 ∧ typesLegible elems
  | .missing => False

def typesLegible : List TypeExpr → Prop
  | [] => True
  | t :: ts => t.Legible ∧ typesLegible ts

end

/-- The parameters that the reader gives. -/
def Param.Legible (p : Param) : Prop := IsName p.name ∧ ∀ t, p.type = some t → t.Legible

/-- Whether a text starts with a capital letter. -/
def startsWithCapital (n : String) : Bool := (Text.bytesOf n).head?.any isCapital

mutual

/-- The expressions that the reader gives. -/
def Expr.Legible : Expr → Prop
  | .var _ n => IsName n
  | .uint _ v => v.toNat < 0x1000000
  | .int _ v => -0x800000 ≤ v.toInt ∧ v.toInt < 0x800000
  | .float _ v => v.isFinite = true
  | .str .. | .bool .. | .eraser .. => True
  | .tuple _ es | .list _ es => exprsLegible es
  | .binOp _ _ l r => l.Legible ∧ r.Legible
  | .call _ f as ns => f.Legible ∧ exprsLegible as ∧ namedLegible ns
  | .lambda _ ps b => (∀ p ∈ ps, p.Legible) ∧ b.Legible
  | .ifElse _ c t e => c.Legible ∧ t.Legible ∧ e.Legible
  | .matchOn _ x cs => x.Legible ∧ casesLegible cs
  | .access _ x f => x.Legible ∧ (IsWord f ∨ IsDigits f)
  | .missing => False

def exprsLegible : List Expr → Prop
  | [] => True
  | e :: es => e.Legible ∧ exprsLegible es

/-- The named arguments that the reader gives. -/
def NamedArg.Legible : NamedArg → Prop
  | .mk _ n e => IsName n ∧ e.Legible

def namedLegible : List NamedArg → Prop
  | [] => True
  | a :: as => a.Legible ∧ namedLegible as

/-- The arms of a match that the reader gives. -/
def Case.Legible : Case → Prop
  | .mk _ p e => p.Legible ∧ e.Legible

def casesLegible : List Case → Prop
  | [] => True
  | c :: cs => c.Legible ∧ casesLegible cs

/-- The patterns that the reader gives. A name with a capital is never a variable, and the name
`_` is the wildcard. -/
def Pattern.Legible : Pattern → Prop
  | .var _ n => IsName n ∧ n ≠ "_" ∧ startsWithCapital n = false
  | .wild _ => True
  | .lit _ e => e.isLiteral = true ∧ e.Legible
  | .cons _ n ps => IsName n ∧ n ≠ "_" ∧ patternsLegible ps
  | .tuple _ ps => patternsLegible ps
  | .missing => False

def patternsLegible : List Pattern → Prop
  | [] => True
  | p :: ps => p.Legible ∧ patternsLegible ps

end

mutual

/-- The statements that the reader gives. -/
def Stmt.Legible : Stmt → Prop
  | .ret _ x => ∀ e, x = some e → e.Legible
  | .assign _ target type x => IsName target ∧ (∀ t, type = some t → t.Legible) ∧ x.Legible
  | .use _ n x => IsName n ∧ x.Legible
  | .ifThen _ c _ thenArm => c.Legible ∧ stmtsLegible thenArm
  | .ifElse _ c _ thenArm _ elseArm => c.Legible ∧ stmtsLegible thenArm ∧ stmtsLegible elseArm
  | .expr _ x => x.Legible
  | .missing => False

def stmtsLegible : List Stmt → Prop
  | [] => True
  | s :: ss => s.Legible ∧ stmtsLegible ss

end

/-- The fields that the reader gives. -/
def Field.Legible (f : Field) : Prop := IsName f.name ∧ f.type.Legible

/-- The variants that the reader gives. -/
def Variant.Legible (v : Variant) : Prop := IsName v.name ∧ ∀ f ∈ v.fields, f.Legible

/-- The functions that the reader gives. -/
def FuncDef.Legible (f : FuncDef) : Prop :=
  IsName f.name ∧ (∀ p ∈ f.params, p.Legible) ∧ (∀ t, f.ret = some t → t.Legible) ∧
    stmtsLegible f.body.stmts ∧ f.checked = false

/-- The definitions that the reader gives at the top level, or only those that may
stand in a module. -/
def Definition.Legible : (top : Bool) → Definition → Prop
  | _, .func d => d.Legible
  | _, .type d => IsName d.name ∧ (∀ n ∈ d.typeParams, IsName n) ∧ ∀ v ∈ d.variants, v.Legible
  | _, .object d =>
    IsName d.name ∧ (∀ n ∈ d.typeParams, IsName n) ∧ (∀ f ∈ d.fields, f.Legible) ∧
      ∀ f ∈ d.funcs, f.Legible
  | _, .alias d => IsName d.name ∧ (∀ n ∈ d.typeParams, IsName n) ∧ d.type.Legible
  | false, .module .. => False
  | true, .module _ n ds => IsName n ∧ ∀ d ∈ ds, d.Legible false

/-- The programs that the reader gives. -/
def Program.Legible (p : Program) : Prop :=
  (∀ i ∈ p.imports, IsName i.path ∧ ∀ n ∈ i.names, IsName n) ∧ ∀ d ∈ p.defs, d.Legible true

section Lists

theorem typesLegible_iff (ts : List TypeExpr) : typesLegible ts ↔ ∀ t ∈ ts, t.Legible := by
  induction ts with
  | nil => simp [typesLegible]
  | cons t ts ih => simp [typesLegible, ih]

theorem exprsLegible_iff (es : List Expr) : exprsLegible es ↔ ∀ e ∈ es, e.Legible := by
  induction es with
  | nil => simp [exprsLegible]
  | cons e es ih => simp [exprsLegible, ih]

theorem namedLegible_iff (as : List NamedArg) : namedLegible as ↔ ∀ a ∈ as, a.Legible := by
  induction as with
  | nil => simp [namedLegible]
  | cons a as ih => simp [namedLegible, ih]

theorem casesLegible_iff (cs : List Case) : casesLegible cs ↔ ∀ c ∈ cs, c.Legible := by
  induction cs with
  | nil => simp [casesLegible]
  | cons c cs ih => simp [casesLegible, ih]

theorem patternsLegible_iff (ps : List Pattern) : patternsLegible ps ↔ ∀ p ∈ ps, p.Legible := by
  induction ps with
  | nil => simp [patternsLegible]
  | cons p ps ih => simp [patternsLegible, ih]

theorem stmtsLegible_iff (ss : List Stmt) : stmtsLegible ss ↔ ∀ s ∈ ss, s.Legible := by
  induction ss with
  | nil => simp [stmtsLegible]
  | cons s ss ih => simp [stmtsLegible, ih]

end Lists

/-! ### Plain trees -/

/-- A number with digits for a field: it is written as a number with a point. -/
def Expr.isNumberAccess : Expr → Bool
  | .access _ (.uint ..) f | .access _ (.int ..) f => (Text.bytesOf f).all isDigit
  | _ => false

/-- A constructor without arguments or capital: it is written as a variable. -/
def Pattern.isSmallCons : Pattern → Bool
  | .cons _ n [] => !startsWithCapital n
  | _ => false

/-- A conditional expression as a statement: it is written as a conditional statement. -/
def Stmt.isIfExpr : Stmt → Bool
  | .expr _ (.ifElse ..) => true
  | _ => false

mutual

/-- No part of the expression has a shape that does not read back. -/
def Expr.Plain : Expr → Prop
  | .var .. | .uint .. | .int .. | .float .. | .str .. | .bool .. | .eraser .. | .missing => True
  | .tuple _ es | .list _ es => exprsPlain es
  | .binOp _ _ l r => l.Plain ∧ r.Plain
  | .call _ f as ns => f.Plain ∧ exprsPlain as ∧ namedPlain ns
  | .lambda _ _ b => b.Plain
  | .ifElse _ c t e => c.Plain ∧ t.Plain ∧ e.Plain
  | .matchOn _ x cs => x.Plain ∧ casesPlain cs
  | .access l x f => (Expr.access l x f).isNumberAccess = false ∧ x.Plain

def exprsPlain : List Expr → Prop
  | [] => True
  | e :: es => e.Plain ∧ exprsPlain es

def NamedArg.Plain : NamedArg → Prop
  | .mk _ _ e => e.Plain

def namedPlain : List NamedArg → Prop
  | [] => True
  | a :: as => a.Plain ∧ namedPlain as

def Case.Plain : Case → Prop
  | .mk _ p e => p.Plain ∧ e.Plain

def casesPlain : List Case → Prop
  | [] => True
  | c :: cs => c.Plain ∧ casesPlain cs

/-- No part of the pattern has a shape that does not read back. -/
def Pattern.Plain : Pattern → Prop
  | .var .. | .wild .. | .missing => True
  | .lit _ e => e.Plain
  | .cons l n ps => (Pattern.cons l n ps).isSmallCons = false ∧ patternsPlain ps
  | .tuple _ ps => patternsPlain ps

def patternsPlain : List Pattern → Prop
  | [] => True
  | p :: ps => p.Plain ∧ patternsPlain ps

end

mutual

/-- No part of the statement has a shape that does not read back. -/
def Stmt.Plain : Stmt → Prop
  | .ret _ x => ∀ e, x = some e → e.Plain
  | .assign _ _ _ x | .use _ _ x => x.Plain
  | .ifThen _ c _ thenArm => c.Plain ∧ stmtsPlain thenArm
  | .ifElse _ c _ thenArm _ elseArm => c.Plain ∧ stmtsPlain thenArm ∧ stmtsPlain elseArm
  | .expr l x => (Stmt.expr l x).isIfExpr = false ∧ x.Plain
  | .missing => True

def stmtsPlain : List Stmt → Prop
  | [] => True
  | s :: ss => s.Plain ∧ stmtsPlain ss

end

/-- No part of a function of the program has a shape that does not read back. -/
def Program.Plain (p : Program) : Prop := ∀ f ∈ p.functions, stmtsPlain f.func.body.stmts

/-! ### Doubles in trees -/

mutual

/-- The doubles that are written in an expression. -/
def Expr.floats : Expr → List Float
  | .float _ v => [v]
  | .var .. | .uint .. | .int .. | .str .. | .bool .. | .eraser .. | .missing => []
  | .tuple _ es | .list _ es => exprsFloats es
  | .binOp _ _ l r => l.floats ++ r.floats
  | .call _ f as ns => f.floats ++ (exprsFloats as ++ namedFloats ns)
  | .lambda _ _ b => b.floats
  | .ifElse _ c t e => c.floats ++ (t.floats ++ e.floats)
  | .matchOn _ x cs => x.floats ++ casesFloats cs
  | .access _ x _ => x.floats

def exprsFloats : List Expr → List Float
  | [] => []
  | e :: es => e.floats ++ exprsFloats es

def NamedArg.floats : NamedArg → List Float
  | .mk _ _ e => e.floats

def namedFloats : List NamedArg → List Float
  | [] => []
  | a :: as => a.floats ++ namedFloats as

def Case.floats : Case → List Float
  | .mk _ p e => p.floats ++ e.floats

def casesFloats : List Case → List Float
  | [] => []
  | c :: cs => c.floats ++ casesFloats cs

/-- The doubles that are written in a pattern. -/
def Pattern.floats : Pattern → List Float
  | .var .. | .wild .. | .missing => []
  | .lit _ e => e.floats
  | .cons _ _ ps | .tuple _ ps => patternsFloats ps

def patternsFloats : List Pattern → List Float
  | [] => []
  | p :: ps => p.floats ++ patternsFloats ps

end

mutual

/-- The doubles that are written in a statement. -/
def Stmt.floats : Stmt → List Float
  | .ret _ none | .missing => []
  | .ret _ (some x) | .assign _ _ _ x | .use _ _ x | .expr _ x => x.floats
  | .ifThen _ c _ t => c.floats ++ stmtsFloats t
  | .ifElse _ c _ t _ e => c.floats ++ (stmtsFloats t ++ stmtsFloats e)

def stmtsFloats : List Stmt → List Float
  | [] => []
  | s :: ss => s.floats ++ stmtsFloats ss

end

/-- The doubles that are written in a program. -/
def Program.floats (p : Program) : List Float :=
  p.functions.flatMap fun f => stmtsFloats f.func.body.stmts

section Lists

theorem exprsFloats_eq_flatMap (es : List Expr) : exprsFloats es = es.flatMap Expr.floats := by
  induction es with
  | nil => rfl
  | cons e es ih => rw [exprsFloats, ih, List.flatMap_cons]

theorem namedFloats_eq_flatMap (as : List NamedArg) :
    namedFloats as = as.flatMap NamedArg.floats := by
  induction as with
  | nil => rfl
  | cons a as ih => rw [namedFloats, ih, List.flatMap_cons]

theorem casesFloats_eq_flatMap (cs : List Case) : casesFloats cs = cs.flatMap Case.floats := by
  induction cs with
  | nil => rfl
  | cons c cs ih => rw [casesFloats, ih, List.flatMap_cons]

theorem patternsFloats_eq_flatMap (ps : List Pattern) :
    patternsFloats ps = ps.flatMap Pattern.floats := by
  induction ps with
  | nil => rfl
  | cons p ps ih => rw [patternsFloats, ih, List.flatMap_cons]

theorem stmtsFloats_eq_flatMap (ss : List Stmt) : stmtsFloats ss = ss.flatMap Stmt.floats := by
  induction ss with
  | nil => rfl
  | cons s ss ih => rw [stmtsFloats, ih, List.flatMap_cons]

end Lists

/-! ### Plain lists -/

section Lists

theorem exprsPlain_iff (es : List Expr) : exprsPlain es ↔ ∀ e ∈ es, e.Plain := by
  induction es with
  | nil => simp [exprsPlain]
  | cons e es ih => simp [exprsPlain, ih]

theorem namedPlain_iff (as : List NamedArg) : namedPlain as ↔ ∀ a ∈ as, a.Plain := by
  induction as with
  | nil => simp [namedPlain]
  | cons a as ih => simp [namedPlain, ih]

theorem casesPlain_iff (cs : List Case) : casesPlain cs ↔ ∀ c ∈ cs, c.Plain := by
  induction cs with
  | nil => simp [casesPlain]
  | cons c cs ih => simp [casesPlain, ih]

theorem patternsPlain_iff (ps : List Pattern) : patternsPlain ps ↔ ∀ p ∈ ps, p.Plain := by
  induction ps with
  | nil => simp [patternsPlain]
  | cons p ps ih => simp [patternsPlain, ih]

theorem stmtsPlain_iff (ss : List Stmt) : stmtsPlain ss ↔ ∀ s ∈ ss, s.Plain := by
  induction ss with
  | nil => simp [stmtsPlain]
  | cons s ss ih => simp [stmtsPlain, ih]

end Lists

/-! ### Induction -/

/-- Induction over expressions, all the parts in a list at once. -/
theorem Expr.inductionOn {P : Expr → Prop} (hvar : ∀ l n, P (.var l n))
    (huint : ∀ l v, P (.uint l v)) (hint : ∀ l v, P (.int l v)) (hfloat : ∀ l v, P (.float l v))
    (hstr : ∀ l v, P (.str l v)) (hbool : ∀ l v, P (.bool l v)) (heraser : ∀ l, P (.eraser l))
    (htuple : ∀ l es, (∀ e ∈ es, P e) → P (.tuple l es))
    (hlist : ∀ l es, (∀ e ∈ es, P e) → P (.list l es))
    (hbinOp : ∀ l op a b, P a → P b → P (.binOp l op a b))
    (hcall : ∀ l f as ns, P f → (∀ e ∈ as, P e) → (∀ n ∈ ns, P n.value) → P (.call l f as ns))
    (hlambda : ∀ l ps b, P b → P (.lambda l ps b))
    (hifElse : ∀ l c t e, P c → P t → P e → P (.ifElse l c t e))
    (hmatchOn : ∀ l x cs, P x → (∀ c ∈ cs, P c.body) → P (.matchOn l x cs))
    (haccess : ∀ l x f, P x → P (.access l x f)) (hmissing : P .missing) (e : Expr) : P e :=
  @Expr.rec P (fun a => P a.value) (fun c => P c.body) (fun _ => True) (fun es => ∀ e ∈ es, P e)
    (fun as => ∀ a ∈ as, P a.value) (fun cs => ∀ c ∈ cs, P c.body) (fun _ => True) hvar huint hint
    hfloat hstr hbool heraser htuple hlist hbinOp hcall hlambda hifElse hmatchOn haccess hmissing
    (fun _ _ _ h => h) (fun _ _ _ _ h => h) (fun _ _ => trivial) (fun _ => trivial)
    (fun _ _ _ => trivial) (fun _ _ _ _ => trivial) (fun _ _ _ => trivial) trivial
    (List.forall_mem_nil _) (fun _ _ h hs => List.forall_mem_cons.2 ⟨h, hs⟩) (List.forall_mem_nil _)
    (fun _ _ h hs => List.forall_mem_cons.2 ⟨h, hs⟩) (List.forall_mem_nil _)
    (fun _ _ h hs => List.forall_mem_cons.2 ⟨h, hs⟩) trivial (fun _ _ _ _ => trivial) e

/-- Induction over patterns, all the parts in a list at once. -/
theorem Pattern.inductionOn {P : Pattern → Prop} (hvar : ∀ l n, P (.var l n))
    (hwild : ∀ l, P (.wild l)) (hlit : ∀ l e, P (.lit l e))
    (hcons : ∀ l n ps, (∀ p ∈ ps, P p) → P (.cons l n ps))
    (htuple : ∀ l ps, (∀ p ∈ ps, P p) → P (.tuple l ps)) (hmissing : P .missing) (p : Pattern) :
    P p :=
  @Pattern.rec (fun _ => True) (fun _ => True) (fun _ => True) P (fun _ => True) (fun _ => True)
    (fun _ => True) (fun ps => ∀ p ∈ ps, P p) (fun _ _ => trivial) (fun _ _ => trivial)
    (fun _ _ => trivial) (fun _ _ => trivial) (fun _ _ => trivial) (fun _ _ => trivial)
    (fun _ => trivial) (fun _ _ _ => trivial) (fun _ _ _ => trivial) (fun _ _ _ _ _ _ => trivial)
    (fun _ _ _ _ _ _ _ => trivial) (fun _ _ _ _ => trivial) (fun _ _ _ _ _ _ _ => trivial)
    (fun _ _ _ _ _ => trivial) (fun _ _ _ _ => trivial) trivial (fun _ _ _ _ => trivial)
    (fun _ _ _ _ _ => trivial) hvar hwild (fun l e _ => hlit l e) hcons htuple hmissing trivial
    (fun _ _ _ _ => trivial) trivial (fun _ _ _ _ => trivial) trivial (fun _ _ _ _ => trivial)
    (List.forall_mem_nil _) (fun _ _ h hs => List.forall_mem_cons.2 ⟨h, hs⟩) p

/-- Induction over types as written, all the parts in a list at once. -/
theorem TypeExpr.inductionOn {P : TypeExpr → Prop}
    (hname : ∀ l n args, (∀ t ∈ args, P t) → P (.name l n args))
    (hfunc : ∀ l p r, P p → P r → P (.func l p r))
    (htuple : ∀ l ts, (∀ t ∈ ts, P t) → P (.tuple l ts)) (hmissing : P .missing) (t : TypeExpr) :
    P t :=
  @TypeExpr.rec P (fun ts => ∀ t ∈ ts, P t) hname hfunc htuple hmissing (List.forall_mem_nil _)
    (fun _ _ h hs => List.forall_mem_cons.2 ⟨h, hs⟩) t

/-- Induction over statements, all the statements of a block at once. -/
theorem Stmt.inductionOn {P : Stmt → Prop} (hret : ∀ l x, P (.ret l x))
    (hassign : ∀ l n t x, P (.assign l n t x)) (huse : ∀ l n x, P (.use l n x))
    (hifThen : ∀ l c tl t, (∀ s ∈ t, P s) → P (.ifThen l c tl t))
    (hifElse : ∀ l c tl t el e, (∀ s ∈ t, P s) → (∀ s ∈ e, P s) → P (.ifElse l c tl t el e))
    (hexpr : ∀ l x, P (.expr l x)) (hmissing : P .missing) (s : Stmt) : P s :=
  @Stmt.rec P (fun ss => ∀ s ∈ ss, P s) hret hassign huse hifThen hifElse hexpr hmissing
    (List.forall_mem_nil _) (fun _ _ h hs => List.forall_mem_cons.2 ⟨h, hs⟩) s

end FunRiscv
