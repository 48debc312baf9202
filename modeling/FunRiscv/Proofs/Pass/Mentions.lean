import Mathlib
import FunRiscv.Pass.Linearize
import FunRiscv.Surface.Nodes
import FunRiscv.Proofs.Codegen.Evaluation

/-!
# The names that a program mentions

* `Expr.mentioned`, `stmtsMentioned`, `Program.mentioned`: the names of functions, parameters and
  variables, bound or read.
* `Program.targets`: the names that a program assigns.
* `evalExpr_congr`: the value of an expression depends on the names that it mentions only.
* `functionsOf_mapBodies`: replacing the bodies of a program's functions, one after the other in the
  order of the definitions, replaces them in the list of functions.
-/

namespace FunRiscv

open Machine

/-! ### Names -/

mutual

/-- The names in an expression: variables, parameters of lambdas and variables of patterns. -/
def Expr.mentioned : Expr → List String
  | .var _ n => [n]
  | .tuple _ es | .list _ es => exprsMentioned es
  | .binOp _ _ l r => l.mentioned ++ r.mentioned
  | .call _ f as ns => f.mentioned ++ exprsMentioned as ++ namedMentioned ns
  | .lambda _ ps b => ps.map (·.name) ++ b.mentioned
  | .ifElse _ c t e => c.mentioned ++ t.mentioned ++ e.mentioned
  | .matchOn _ x cs => x.mentioned ++ casesMentioned cs
  | .access _ x _ => x.mentioned
  | .uint .. | .int .. | .float .. | .str .. | .bool .. | .eraser _ | .missing => []

def exprsMentioned : List Expr → List String
  | [] => []
  | x :: xs => x.mentioned ++ exprsMentioned xs

def namedMentioned : List NamedArg → List String
  | [] => []
  | .mk _ _ x :: rest => x.mentioned ++ namedMentioned rest

def casesMentioned : List Case → List String
  | [] => []
  | .mk _ p x :: rest => p.mentioned ++ x.mentioned ++ casesMentioned rest

/-- The names in a pattern: the variables that it binds, and those of its literals. -/
def Pattern.mentioned : Pattern → List String
  | .var _ n => [n]
  | .lit _ x => x.mentioned
  | .cons _ _ ps | .tuple _ ps => patternsMentioned ps
  | .wild _ | .missing => []

def patternsMentioned : List Pattern → List String
  | [] => []
  | p :: ps => p.mentioned ++ patternsMentioned ps

end

mutual

/-- The names in a statement: variables that it assigns or binds, and those of its expressions. -/
def Stmt.mentioned : Stmt → List String
  | .ret _ none | .missing => []
  | .ret _ (some x) | .expr _ x => x.mentioned
  | .assign _ n _ x | .use _ n x => n :: x.mentioned
  | .ifThen _ c _ t => c.mentioned ++ stmtsMentioned t
  | .ifElse _ c _ t _ e => c.mentioned ++ stmtsMentioned t ++ stmtsMentioned e

def stmtsMentioned : List Stmt → List String
  | [] => []
  | s :: ss => s.mentioned ++ stmtsMentioned ss

end

/-- The names in a function, its own among them. -/
def FuncDef.mentioned (d : FuncDef) : List String :=
  d.name :: (d.params.map (·.name) ++ stmtsMentioned d.body.stmts)

/-- The names in the functions of a program. -/
def Program.mentioned (p : Program) : List String := p.functions.flatMap fun f => f.func.mentioned

/-- The names that the functions of a program assign. -/
def Program.targets (p : Program) : List String :=
  p.functions.flatMap fun f => stmtsTargets f.func.body.stmts

/-- The number of expressions in the bodies of a program's functions. -/
def Program.nodeCount (p : Program) : Nat :=
  (p.functions.map fun f => stmtsNodeCount f.func.body.stmts).sum

theorem stmtsNodeCount_append (ss ts : List Stmt) :
    stmtsNodeCount (ss ++ ts) = stmtsNodeCount ss + stmtsNodeCount ts := by
  induction ss with
  | nil => rw [List.nil_append, stmtsNodeCount, Nat.zero_add]
  | cons s ss ih => rw [List.cons_append, stmtsNodeCount, stmtsNodeCount, ih, Nat.add_assoc]

theorem stmtsTargets_append (ss ts : List Stmt) :
    stmtsTargets (ss ++ ts) = stmtsTargets ss ++ stmtsTargets ts := by
  induction ss with
  | nil => rfl
  | cons s ss ih => rw [List.cons_append, stmtsTargets, stmtsTargets, ih, List.append_assoc]

theorem stmtsMentioned_append (ss ts : List Stmt) :
    stmtsMentioned (ss ++ ts) = stmtsMentioned ss ++ stmtsMentioned ts := by
  induction ss with
  | nil => rfl
  | cons s ss ih => rw [List.cons_append, stmtsMentioned, stmtsMentioned, ih, List.append_assoc]

mutual

theorem Stmt.targets_subset : ∀ s : Stmt, s.targets ⊆ s.mentioned
  | .assign _ n _ x => by
    rw [Stmt.targets, Stmt.mentioned]
    exact List.cons_subset.2 ⟨List.mem_cons_self, List.nil_subset _⟩
  | .ifThen _ c _ t => by
    rw [Stmt.targets, Stmt.mentioned]
    exact List.Subset.trans (stmtsTargets_subset t) (List.subset_append_right _ _)
  | .ifElse _ c _ t _ e => by
    rw [Stmt.targets, Stmt.mentioned, List.append_assoc]
    refine List.append_subset.2 ⟨List.Subset.trans (stmtsTargets_subset t) ?_,
      List.Subset.trans (stmtsTargets_subset e) ?_⟩
    · exact List.Subset.trans (List.subset_append_left _ _) (List.subset_append_right _ _)
    · exact List.Subset.trans (List.subset_append_right _ _) (List.subset_append_right _ _)
  | .ret .. | .use .. | .expr .. | .missing => by
    rw [Stmt.targets]
    exact List.nil_subset _

theorem stmtsTargets_subset : ∀ ss : List Stmt, stmtsTargets ss ⊆ stmtsMentioned ss
  | [] => List.nil_subset _
  | s :: ss => by
    rw [stmtsTargets, stmtsMentioned]
    exact List.append_subset.2 ⟨List.Subset.trans s.targets_subset (List.subset_append_left _ _),
      List.Subset.trans (stmtsTargets_subset ss) (List.subset_append_right _ _)⟩

end

/-- What a program assigns it mentions. -/
theorem Program.targets_subset (p : Program) : p.targets ⊆ p.mentioned := by
  intro n hn
  obtain ⟨f, hf, hn⟩ := List.mem_flatMap.1 hn
  exact List.mem_flatMap.2 ⟨f, hf,
    List.mem_cons_of_mem _ (List.mem_append_right _ (stmtsTargets_subset _ hn))⟩

/-! ### Values depend on names -/

/-- Two stores that give some names the same values. -/
def Store.Agree (names : List String) (σ τ : Store) : Prop := ∀ n ∈ names, σ n = τ n

namespace Store.Agree

variable {names names' : List String} {σ τ υ : Store}

theorem refl (names : List String) (σ : Store) : Agree names σ σ := fun _ _ => rfl

theorem symm (h : Agree names σ τ) : Agree names τ σ := fun n hn => (h n hn).symm

theorem trans (h : Agree names σ τ) (h' : Agree names τ υ) : Agree names σ υ :=
  fun n hn => (h n hn).trans (h' n hn)

theorem mono (h : Agree names σ τ) (hsub : names' ⊆ names) : Agree names' σ τ :=
  fun n hn => h n (hsub hn)

theorem left (h : Agree (names ++ names') σ τ) : Agree names σ τ :=
  h.mono (List.subset_append_left _ _)

theorem right (h : Agree (names ++ names') σ τ) : Agree names' σ τ :=
  h.mono (List.subset_append_right _ _)

theorem set (h : Agree names σ τ) (n : String) (v : Val) : Agree names (σ.set n v) (τ.set n v) := by
  intro m hm
  unfold Store.set
  split
  · rfl
  · exact h m hm

end Store.Agree

section Congr

variable (call : String → List Val → Option Val)

mutual

/-- The value of an expression depends on the names in it only. -/
theorem evalExpr_congr :
    ∀ (x : Expr) {σ τ : Store}, Store.Agree x.mentioned σ τ → evalExpr call σ x = evalExpr call τ x
  | .uint .., _, _, _ | .int .., _, _, _ | .bool .., _, _, _ | .eraser _, _, _, _
  | .float .., _, _, _ | .str .., _, _, _
  | .tuple .., _, _, _ | .list .., _, _, _ | .lambda .., _, _, _ | .access .., _, _, _
  | .missing, _, _, _ => by simp only [evalExpr]
  | .var _ n, _, _, h => by
    simp only [evalExpr]
    exact h n List.mem_cons_self
  | .binOp _ op l r, _, _, h => by
    rw [Expr.mentioned] at h
    simp only [evalExpr, evalExpr_congr l h.left, evalExpr_congr r h.right]
  | .call _ f as ns, _, _, h => by
    rw [Expr.mentioned] at h
    unfold evalExpr
    rw [evalArgs_congr as h.left.right]
  | .ifElse _ c t e, _, _, h => by
    rw [Expr.mentioned] at h
    simp only [evalExpr, evalExpr_congr c h.left.left, evalExpr_congr t h.left.right,
      evalExpr_congr e h.right]
  | .matchOn _ x cs, _, _, h => by
    rw [Expr.mentioned] at h
    simp only [evalExpr, evalExpr_congr x h.left, evalCases_congr cs h.right]

theorem evalArgs_congr : ∀ (xs : List Expr) {σ τ : Store}, Store.Agree (exprsMentioned xs) σ τ →
    evalArgs call σ xs = evalArgs call τ xs
  | [], _, _, _ => by simp only [evalArgs]
  | x :: xs, _, _, h => by
    rw [exprsMentioned] at h
    simp only [evalArgs, evalExpr_congr x h.left, evalArgs_congr xs h.right]

theorem evalCases_congr :
    ∀ (cs : List Case) {σ τ : Store} {v : Val}, Store.Agree (casesMentioned cs) σ τ →
      evalCases call σ v cs = evalCases call τ v cs
  | [], _, _, _, _ => by simp only [evalCases]
  | .mk _ p x :: cs, _, _, v, h => by
    rw [casesMentioned] at h
    unfold evalCases
    rw [evalExpr_congr x h.left.right, evalCases_congr cs h.right]
    cases p with
    | lit ploc y =>
      have hy := h.left.left
      rw [Pattern.mentioned] at hy
      simp only [evalExpr_congr y hy]
    | var ploc n => exact evalExpr_congr x (h.left.right.set n v)
    | wild ploc => rfl
    | cons ploc n ps => rfl
    | tuple ploc ps => rfl
    | missing => rfl

end

end Congr

/-! ### Bodies -/

/-- A function with other statements. -/
def NamedFunction.withBody (f : NamedFunction) (ss : List Stmt) : NamedFunction :=
  { f with func := { f.func with body := { f.func.body with stmts := ss } } }

section Bodies

variable {m : Type → Type} [Monad m] [LawfulMonad m] (g : List Stmt → m (List Stmt))

/-- Replaces the statements of a function. -/
def mapBody (d : FuncDef) : m FuncDef := do
  let stmts ← g d.body.stmts
  return { d with body := { d.body with stmts } }

/-- Replaces the statements of each of some functions. -/
def mapBodies (fs : List NamedFunction) : m (List NamedFunction) :=
  fs.mapM fun f => f.withBody <$> g f.func.body.stmts

theorem mapBodies_append (fs fs' : List NamedFunction) :
    mapBodies g (fs ++ fs') = do return (← mapBodies g fs) ++ (← mapBodies g fs') := by
  simp [mapBodies, List.mapM_append]

theorem functions_mapFuncs (scope : String) (ds : List FuncDef) :
    (fun ds => ds.map fun d : FuncDef => (⟨scope ++ d.name, d⟩ : NamedFunction)) <$>
      mapFuncs (mapBody g) ds =
      mapBodies g (ds.map fun d => ⟨scope ++ d.name, d⟩) := by
  induction ds with
  | nil => simp [mapFuncs, mapBodies]
  | cons d ds ih =>
    rw [List.map_cons, mapBodies, List.mapM_cons, ← mapBodies, ← ih]
    simp [mapFuncs, mapBody, NamedFunction.withBody]

mutual

theorem functions_mapBodies : ∀ (d : Definition) (scope : String),
    Definition.functions scope <$> d.mapFunctions (mapBody g) = mapBodies g (d.functions scope)
  | .func d, scope => by
    simp [Definition.mapFunctions, Definition.functions, mapBodies, mapBody, NamedFunction.withBody]
  | .object d, scope => by
    have h := functions_mapFuncs g (scope ++ d.name ++ "/") d.funcs
    simp only [Definition.mapFunctions, Definition.functions]
    rw [← h]
    simp [Definition.functions]
  | .module loc n ds, scope => by
    simp only [Definition.mapFunctions, Definition.functions]
    rw [← functionsOf_mapBodies ds]
    simp [Definition.functions]
  | .type d, scope => by simp [Definition.mapFunctions, Definition.functions, mapBodies]
  | .alias d, scope => by simp [Definition.mapFunctions, Definition.functions, mapBodies]

/-- The functions of definitions in which bodies were replaced. -/
theorem functionsOf_mapBodies : ∀ (ds : List Definition) (scope : String),
    functionsOf scope <$> mapDefinitions (mapBody g) ds = mapBodies g (functionsOf scope ds)
  | [], scope => by simp [mapDefinitions, functionsOf, mapBodies]
  | d :: ds, scope => by
    rw [functionsOf, mapBodies_append, ← functions_mapBodies d, ← functionsOf_mapBodies ds]
    simp [mapDefinitions, functionsOf]

end

/-- The functions of a program in which bodies were replaced. -/
theorem Program.functions_mapFunctions (p : Program) :
    Program.functions <$> p.mapFunctions (mapBody g) = mapBodies g p.functions := by
  rw [Program.functions, ← functionsOf_mapBodies]
  simp [Program.mapFunctions, Program.functions]

end Bodies

end FunRiscv
