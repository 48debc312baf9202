import FunRiscv.Pass.Revise

/-!
# Eta reduction

* `etaRule`: replaces a lambda that only passes its parameters on, in order, by the function it
  calls, if that function mentions none of the parameters.
* `Program.etaReduce`: applies the rule everywhere.
-/

namespace FunRiscv

mutual

/-- Whether an expression refers to one of some names. Names bound inside it count as well. -/
def Expr.mentions (names : List String) : Expr → Bool
  | .var _ n => names.contains n
  | .tuple _ es | .list _ es => exprsMention names es
  | .binOp _ _ l r => l.mentions names || r.mentions names
  | .call _ f as ns => f.mentions names || exprsMention names as || namedMention names ns
  | .lambda _ _ b => b.mentions names
  | .ifElse _ c t e => c.mentions names || t.mentions names || e.mentions names
  | .matchOn _ x cs => x.mentions names || casesMention names cs
  | .access _ x _ => x.mentions names
  | .uint .. | .int .. | .float .. | .str .. | .bool .. | .eraser .. | .missing => false

def exprsMention (names : List String) : List Expr → Bool
  | [] => false
  | x :: xs => x.mentions names || exprsMention names xs

def namedMention (names : List String) : List NamedArg → Bool
  | [] => false
  | .mk _ _ x :: rest => x.mentions names || namedMention names rest

def casesMention (names : List String) : List Case → Bool
  | [] => false
  | .mk _ _ x :: rest => x.mentions names || casesMention names rest

end

/-- The name of a variable. -/
def Expr.varName? : Expr → Option String
  | .var _ n => some n
  | _ => none

/-- The function that a lambda only passes its parameters on to. -/
def etaRule : Expr → Option Expr
  | .lambda _ params (.call _ f args []) =>
    let names := params.map (·.name)
    if !params.isEmpty && args.map Expr.varName? = names.map some &&
      names.Nodup && !f.mentions names then some f
    else none
  | _ => none

/-- Replaces lambdas that only pass their parameters on. -/
def Program.etaReduce (p : Program) : Revised Program := p.revise etaRule

end FunRiscv
