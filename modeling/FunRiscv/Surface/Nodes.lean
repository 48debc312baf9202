import FunRiscv.Surface.Functions

/-!
# The expressions of a tree

The expressions under a node, parents first, children in the order in which they are written. The
number of an expression is its place in that order; so the expressions under an expression of number
`i` are numbered from `i` on.

* `Expr.nodes`, `Pattern.nodes`, `stmtsNodes`: the expressions themselves.
* `Expr.nodeCount`, `Pattern.nodeCount`, `stmtsNodeCount`: how many there are.
-/

namespace FunRiscv

/-! ### Lists of nodes -/

mutual

/-- An expression and those under it. -/
def Expr.nodes : Expr → List Expr
  | e@(.tuple _ es) => e :: exprsNodes es
  | e@(.list _ es) => e :: exprsNodes es
  | e@(.binOp _ _ l r) => e :: (l.nodes ++ r.nodes)
  | e@(.call _ f as ns) => e :: (f.nodes ++ exprsNodes as ++ namedNodes ns)
  | e@(.lambda _ _ b) => e :: b.nodes
  | e@(.ifElse _ c t f) => e :: (c.nodes ++ t.nodes ++ f.nodes)
  | e@(.matchOn _ x cs) => e :: (x.nodes ++ casesNodes cs)
  | e@(.access _ x _) => e :: x.nodes
  | e@(.var ..) | e@(.uint ..) | e@(.int ..) | e@(.float ..) | e@(.str ..) | e@(.bool ..)
  | e@(.eraser ..)
  | e@.missing => [e]

def exprsNodes : List Expr → List Expr
  | [] => []
  | e :: es => e.nodes ++ exprsNodes es

def namedNodes : List NamedArg → List Expr
  | [] => []
  | .mk _ _ e :: ns => e.nodes ++ namedNodes ns

def casesNodes : List Case → List Expr
  | [] => []
  | .mk _ p e :: cs => p.nodes ++ e.nodes ++ casesNodes cs

/-- The literals of a pattern. -/
def Pattern.nodes : Pattern → List Expr
  | .lit _ e => e.nodes
  | .cons _ _ ps => patternsNodes ps
  | .tuple _ ps => patternsNodes ps
  | .var .. | .wild .. | .missing => []

def patternsNodes : List Pattern → List Expr
  | [] => []
  | p :: ps => p.nodes ++ patternsNodes ps

end

mutual

/-- The expressions of a statement. -/
def Stmt.nodes : Stmt → List Expr
  | .ret _ none => []
  | .ret _ (some e) => e.nodes
  | .assign _ _ _ e | .use _ _ e | .expr _ e => e.nodes
  | .ifThen _ c _ t => c.nodes ++ stmtsNodes t
  | .ifElse _ c _ t _ f => c.nodes ++ stmtsNodes t ++ stmtsNodes f
  | .missing => []

def stmtsNodes : List Stmt → List Expr
  | [] => []
  | s :: ss => s.nodes ++ stmtsNodes ss

end

/-! ### Their number -/

mutual

/-- The number of expressions in `Expr.nodes`. -/
def Expr.nodeCount : Expr → Nat
  | .tuple _ es | .list _ es => exprsNodeCount es + 1
  | .binOp _ _ l r => l.nodeCount + r.nodeCount + 1
  | .call _ f as ns => f.nodeCount + exprsNodeCount as + namedNodeCount ns + 1
  | .lambda _ _ b => b.nodeCount + 1
  | .ifElse _ c t f => c.nodeCount + t.nodeCount + f.nodeCount + 1
  | .matchOn _ x cs => x.nodeCount + casesNodeCount cs + 1
  | .access _ x _ => x.nodeCount + 1
  | .var .. | .uint .. | .int .. | .float .. | .str .. | .bool .. | .eraser .. | .missing => 1

def exprsNodeCount : List Expr → Nat
  | [] => 0
  | e :: es => e.nodeCount + exprsNodeCount es

def namedNodeCount : List NamedArg → Nat
  | [] => 0
  | .mk _ _ e :: ns => e.nodeCount + namedNodeCount ns

def casesNodeCount : List Case → Nat
  | [] => 0
  | .mk _ p e :: cs => p.nodeCount + e.nodeCount + casesNodeCount cs

def Pattern.nodeCount : Pattern → Nat
  | .lit _ e => e.nodeCount
  | .cons _ _ ps | .tuple _ ps => patternsNodeCount ps
  | .var .. | .wild .. | .missing => 0

def patternsNodeCount : List Pattern → Nat
  | [] => 0
  | p :: ps => p.nodeCount + patternsNodeCount ps

end

mutual

/-- The number of expressions in `Stmt.nodes`. -/
def Stmt.nodeCount : Stmt → Nat
  | .ret _ none | .missing => 0
  | .ret _ (some e) => e.nodeCount
  | .assign _ _ _ e | .use _ _ e | .expr _ e => e.nodeCount
  | .ifThen _ c _ t => c.nodeCount + stmtsNodeCount t
  | .ifElse _ c _ t _ f => c.nodeCount + stmtsNodeCount t + stmtsNodeCount f

def stmtsNodeCount : List Stmt → Nat
  | [] => 0
  | s :: ss => s.nodeCount + stmtsNodeCount ss

end

/-- The expressions of the bodies of a program's functions, in the order of the functions. -/
def Program.nodes (p : Program) : List Expr :=
  p.functions.flatMap fun f => stmtsNodes f.func.body.stmts

end FunRiscv
