import Mathlib
import FunRiscv.Proofs.Pass.Sweeps

/-!
# Rewriting is a map

* `Expr.mapUp`, `Stmt.mapUp`, `Program.mapUp`: a function of expressions applied everywhere,
  children first, every node built anew.
* `Expr.mapUp_eq`: the map in one equation, by `Expr.mapChildren`.
* `Program.Meets`: what the function is applied to on the way through a program.
* `Program.rewrite_eq_mapUp`: the theorem about rewriting with shared nodes.
-/

namespace FunRiscv

/-! ### The map -/

section Map

variable (g : Expr → Expr)

mutual

/-- Applies a function to every expression under an expression and then to itself. -/
def Expr.mapUp : Expr → Expr
  | .tuple loc es => g (.tuple loc (exprsMapUp es))
  | .list loc es => g (.list loc (exprsMapUp es))
  | .binOp loc op l r => g (.binOp loc op l.mapUp r.mapUp)
  | .call loc f as ns => g (.call loc f.mapUp (exprsMapUp as) (namedMapUp ns))
  | .lambda loc ps b => g (.lambda loc ps b.mapUp)
  | .ifElse loc c t e => g (.ifElse loc c.mapUp t.mapUp e.mapUp)
  | .matchOn loc s cs => g (.matchOn loc s.mapUp (casesMapUp cs))
  | .access loc s field => g (.access loc s.mapUp field)
  | .var loc n => g (.var loc n)
  | .uint loc v => g (.uint loc v)
  | .int loc v => g (.int loc v)
  | .float loc v => g (.float loc v)
  | .str loc v => g (.str loc v)
  | .bool loc v => g (.bool loc v)
  | .eraser loc => g (.eraser loc)
  | .missing => g .missing

def exprsMapUp : List Expr → List Expr
  | [] => []
  | x :: xs => x.mapUp :: exprsMapUp xs

def namedMapUp : List NamedArg → List NamedArg
  | [] => []
  | .mk loc n x :: rest => .mk loc n x.mapUp :: namedMapUp rest

def casesMapUp : List Case → List Case
  | [] => []
  | .mk loc p x :: rest => .mk loc p x.mapUp :: casesMapUp rest

end

mutual

/-- Applies a function to every expression of a statement. -/
def Stmt.mapUp : Stmt → Stmt
  | .ret loc none => .ret loc none
  | .ret loc (some x) => .ret loc (some (x.mapUp g))
  | .assign loc target type x => .assign loc target type (x.mapUp g)
  | .use loc n x => .use loc n (x.mapUp g)
  | .ifThen loc c tl t => .ifThen loc (c.mapUp g) tl (stmtsMapUp t)
  | .ifElse loc c tl t el e => .ifElse loc (c.mapUp g) tl (stmtsMapUp t) el (stmtsMapUp e)
  | .expr loc x => .expr loc (x.mapUp g)
  | .missing => .missing

def stmtsMapUp : List Stmt → List Stmt
  | [] => []
  | s :: ss => s.mapUp :: stmtsMapUp ss

end

/-- Applies a function to every expression of a function body. -/
def FuncDef.mapUp (d : FuncDef) : FuncDef :=
  { d with body := { d.body with stmts := stmtsMapUp g d.body.stmts } }

mutual

/-- Applies a function to every expression of the functions of a definition. -/
def Definition.mapUp : Definition → Definition
  | .func d => .func (d.mapUp g)
  | .object d => .object { d with funcs := d.funcs.map (FuncDef.mapUp g) }
  | .module loc name ds => .module loc name (definitionsMapUp ds)
  | .type d => .type d
  | .alias d => .alias d

def definitionsMapUp : List Definition → List Definition
  | [] => []
  | d :: ds => d.mapUp :: definitionsMapUp ds

end

/-- Applies a function to every expression of every function body. -/
def Program.mapUp (p : Program) : Program := { p with defs := definitionsMapUp g p.defs }

end Map

/-- An expression with every child replaced. -/
def Expr.mapChildren (g : Expr → Expr) : Expr → Expr
  | .tuple loc es => .tuple loc (es.map g)
  | .list loc es => .list loc (es.map g)
  | .binOp loc op l r => .binOp loc op (g l) (g r)
  | .call loc f as ns => .call loc (g f) (as.map g) (ns.map fun n => .mk n.loc n.name (g n.value))
  | .lambda loc ps b => .lambda loc ps (g b)
  | .ifElse loc c t e => .ifElse loc (g c) (g t) (g e)
  | .matchOn loc s cs => .matchOn loc (g s) (cs.map fun k => .mk k.loc k.pattern (g k.body))
  | .access loc s field => .access loc (g s) field
  | .var loc n => .var loc n
  | .uint loc v => .uint loc v
  | .int loc v => .int loc v
  | .float loc v => .float loc v
  | .str loc v => .str loc v
  | .bool loc v => .bool loc v
  | .eraser loc => .eraser loc
  | .missing => .missing

section Map

variable (g : Expr → Expr)

theorem exprsMapUp_eq (es : List Expr) : exprsMapUp g es = es.map (Expr.mapUp g) := by
  induction es with
  | nil => rfl
  | cons e es ih => rw [exprsMapUp, ih, List.map_cons]

theorem namedMapUp_eq (ns : List NamedArg) :
    namedMapUp g ns = ns.map fun n => .mk n.loc n.name (n.value.mapUp g) := by
  induction ns with
  | nil => rfl
  | cons n ns ih =>
    obtain ⟨loc, name, x⟩ := n
    rw [namedMapUp, ih, List.map_cons]
    rfl

theorem casesMapUp_eq (cs : List Case) :
    casesMapUp g cs = cs.map fun k => .mk k.loc k.pattern (k.body.mapUp g) := by
  induction cs with
  | nil => rfl
  | cons k cs ih =>
    obtain ⟨loc, p, x⟩ := k
    rw [casesMapUp, ih, List.map_cons]
    rfl

/-- The function is applied to an expression whose children were mapped. -/
theorem Expr.mapUp_eq (x : Expr) : x.mapUp g = g (x.mapChildren (Expr.mapUp g)) := by
  cases x <;> rw [Expr.mapUp, Expr.mapChildren] <;> simp only [exprsMapUp_eq, namedMapUp_eq,
    casesMapUp_eq]

end Map

/-! ### What the function is applied to -/

/-- What a function is applied to on the way through an expression: the expressions under it and
itself, with their children mapped. -/
inductive Expr.Meets (g : Expr → Expr) : Expr → Expr → Prop
  | self (x : Expr) : Expr.Meets g x (x.mapChildren (Expr.mapUp g))
  | child {x y z : Expr} (hy : y ∈ x.children) (h : Expr.Meets g y z) : Expr.Meets g x z

/-- What a function is applied to on the way through a program. -/
def Program.Meets (g : Expr → Expr) (p : Program) (z : Expr) : Prop :=
  ∃ d ∈ p.functions, ∃ x ∈ stmtsExprs d.func.body.stmts, x.Meets g z

/-! ### Revised expressions and statements -/

theorem eq_map_of_forall₂ {α β : Type} {h : α → β} {xs : List α} {ys : List β}
    (hys : List.Forall₂ (fun x y => h x = y) xs ys) : ys = xs.map h := by
  rw [← List.forall₂_map_left_iff (R := Eq), List.forall₂_eq_eq_eq] at hys
  exact hys.symm

/-- An expression of the same form, with the children that a function gives. -/
theorem Expr.Congruent.eq_mapChildren {h : Expr → Expr} {x x' : Expr}
    (hx : x.Congruent (fun y y' => h y = y') x') : x' = x.mapChildren h := by
  cases hx with
  | tuple hes | list hes => rw [Expr.mapChildren, eq_map_of_forall₂ hes]
  | binOp hl hr => rw [Expr.mapChildren, hl, hr]
  | call hf has hns =>
    have hnamed := hns.imp fun n n' hn => show NamedArg.mk n.loc n.name (h n.value) = n' by
      cases hn with
      | mk hx => rw [← hx]; rfl
    rw [Expr.mapChildren, hf, eq_map_of_forall₂ has, eq_map_of_forall₂ hnamed]
  | lambda hb => rw [Expr.mapChildren, hb]
  | ifElse hc ht he => rw [Expr.mapChildren, hc, ht, he]
  | matchOn hs hcs =>
    have hcases := hcs.imp fun k k' hk => show Case.mk k.loc k.pattern (h k.body) = k' by
      cases hk with
      | mk hx => rw [← hx]; rfl
    rw [Expr.mapChildren, hs, eq_map_of_forall₂ hcases]
  | access hs => rw [Expr.mapChildren, hs]
  | atom hx => cases x <;> first | rfl | simp_all [Expr.children, Expr.mapChildren]

section Revise

variable {rule : Expr → Option Expr} {g : Expr → Expr}

/-- What a rule makes of an expression, and when it applied. -/
theorem Expr.revise_mapUp (hg : ∀ x, (rule x).getD x = g x) (x : Expr) :
    (x.revise rule).value = x.mapUp g ∧
      ((x.revise rule).changed = true ↔ ∃ z, x.Meets g z ∧ (rule z).isSome = true) := by
  induction x using Expr.children_induction with
  | step x ih =>
    obtain ⟨x₁, hx₁, hrun⟩ := x.revise_step rule
    obtain rfl : x₁ = x.mapChildren (Expr.mapUp g) :=
      (hx₁.imp fun y hy y' hy' => (ih y hy).1.symm.trans hy').eq_mapChildren
    rw [hrun]
    constructor
    · rw [Expr.mapUp_eq]
      exact hg _
    · simp only [Bool.or_eq_true, List.any_eq_true]
      constructor
      · rintro (⟨y, hy, hchanged⟩ | hrule)
        · obtain ⟨z, hz, hrule⟩ := (ih y hy).2.1 hchanged
          exact ⟨z, .child hy hz, hrule⟩
        · exact ⟨_, .self x, hrule⟩
      · rintro ⟨z, hz, hrule⟩
        cases hz with
        | self => exact .inr hrule
        | child hy hz => exact .inl ⟨_, hy, (ih _ hy).2.2 ⟨z, hz, hrule⟩⟩

mutual

theorem Stmt.revise_mapUp (hg : ∀ x, (rule x).getD x = g x) :
    ∀ s : Stmt, (s.revise rule).value = s.mapUp g
  | .ret _ none | .missing => by rw [Stmt.revise, Stmt.mapUp]; rfl
  | .ret _ (some x) | .assign _ _ _ x | .use _ _ x | .expr _ x => by
    rw [Stmt.revise, Stmt.mapUp, ← (Expr.revise_mapUp hg x).1]
    rfl
  | .ifThen _ c _ t => by
    rw [Stmt.revise, Stmt.mapUp, ← (Expr.revise_mapUp hg c).1, ← reviseStmts_mapUp hg t]
    rfl
  | .ifElse _ c _ t _ e => by
    rw [Stmt.revise, Stmt.mapUp, ← (Expr.revise_mapUp hg c).1, ← reviseStmts_mapUp hg t,
      ← reviseStmts_mapUp hg e]
    rfl

theorem reviseStmts_mapUp (hg : ∀ x, (rule x).getD x = g x) : ∀ ss : List Stmt,
    (reviseStmts rule ss).value = stmtsMapUp g ss
  | [] => by rw [reviseStmts, stmtsMapUp]; rfl
  | s :: ss => by
    rw [reviseStmts, stmtsMapUp, ← s.revise_mapUp hg, ← reviseStmts_mapUp hg ss]
    rfl

end

theorem mapFuncs_mapUp (hg : ∀ x, (rule x).getD x = g x) (ds : List FuncDef) :
    (mapFuncs (mapBody (reviseStmts rule)) ds).value = ds.map (FuncDef.mapUp g) := by
  induction ds with
  | nil => rfl
  | cons d ds ih =>
    rw [List.map_cons, ← ih, FuncDef.mapUp, ← reviseStmts_mapUp hg]
    rfl

mutual

theorem Definition.mapFunctions_mapUp (hg : ∀ x, (rule x).getD x = g x) : ∀ d : Definition,
    (d.mapFunctions (mapBody (reviseStmts rule))).value = d.mapUp g
  | .func d => by
    rw [Definition.mapUp, FuncDef.mapUp, ← reviseStmts_mapUp hg]
    rfl
  | .object d => by
    rw [Definition.mapUp, ← mapFuncs_mapUp hg]
    rfl
  | .module _ _ ds => by
    rw [Definition.mapUp, ← mapDefinitions_mapUp hg ds]
    rfl
  | .type _ | .alias _ => rfl

theorem mapDefinitions_mapUp (hg : ∀ x, (rule x).getD x = g x) : ∀ ds : List Definition,
    (mapDefinitions (mapBody (reviseStmts rule)) ds).value = definitionsMapUp g ds
  | [] => rfl
  | d :: ds => by
    rw [definitionsMapUp, ← d.mapFunctions_mapUp hg, ← mapDefinitions_mapUp hg ds]
    rfl

end

/-- What a rule makes of a program, and when it applied. -/
theorem Program.revise_mapUp (hg : ∀ x, (rule x).getD x = g x) (p : Program) :
    (p.revise rule).value = p.mapUp g ∧
      ((p.revise rule).changed = true ↔ ∃ z, p.Meets g z ∧ (rule z).isSome = true) := by
  rw [p.revise_eq]
  constructor
  · rw [Program.mapUp, ← mapDefinitions_mapUp hg]
    rfl
  · rw [(p.revised_bodies _).2]
    simp only [List.any_eq_true, (reviseStmts_spec rule _).2, (Expr.revise_mapUp hg _).2]
    constructor
    · rintro ⟨d, hd, x, hx, z, hz, hrule⟩
      exact ⟨z, ⟨d, hd, x, hx, hz⟩, hrule⟩
    · rintro ⟨z, ⟨d, hd, x, hx, hz⟩, hrule⟩
      exact ⟨d, hd, x, hx, z, hz, hrule⟩

end Revise

/-! ### Rewriting -/

/-- The rule by which a function rewrites. -/
def ruleOf (f : Expr → Revised Expr) (x : Expr) : Option Expr :=
  if (f x).changed then some (f x).value else none

section Rule

variable {f : Expr → Revised Expr} (hf : ∀ x, (f x).Keeps x)

include hf

theorem byRule_ruleOf : Revised.byRule (ruleOf f) = f := by
  funext x
  have hx := hf x
  rw [Revised.byRule, ruleOf]
  generalize f x = r at hx
  obtain ⟨value, changed⟩ := r
  cases changed with
  | true => rfl
  | false =>
    obtain rfl : value = x := hx rfl
    rfl

theorem getD_ruleOf (x : Expr) : (ruleOf f x).getD x = (f x).value := by
  rw [ruleOf]
  by_cases hx : (f x).changed = true
  · rw [if_pos hx]
    rfl
  · rw [if_neg hx, hf x (by simpa using hx)]
    rfl

end Rule

/-- **Rewriting is a map.** A function of expressions that gives back its argument whenever it
reports no replacement turns a program into the one in which every expression of every function body
was replaced, children first, although nodes are copied on the way to a change only; the result is
marked as changed if and only if the function reported a replacement somewhere. -/
theorem Program.rewrite_eq_mapUp (p : Program) (f : Expr → Revised Expr)
    (hf : ∀ x, (f x).changed = false → (f x).value = x) :
    (p.rewrite f).value = p.mapUp (fun x => (f x).value) ∧
      ((p.rewrite f).changed = true ↔ ∃ x, p.Meets (fun x => (f x).value) x ∧
      (f x).changed = true) := by
  have hrun : p.rewrite f = p.revise (ruleOf f) := by rw [Program.revise, byRule_ruleOf hf]
  have hchanged : ∀ x, (ruleOf f x).isSome = (f x).changed := by
    intro x
    rw [ruleOf]
    cases (f x).changed <;> rfl
  rw [hrun]
  simp only [← hchanged]
  exact p.revise_mapUp (getD_ruleOf hf)

/-- In a list one member of which is replaced, the others stay, those before it and
those after it. -/
theorem Program.rewrite_mixed :
    let f : Expr → Revised Expr :=
      Revised.byRule fun x => if x.varName? = some "a" then some (.eraser {}) else none
    let program (last : Expr) : Program :=
      { imports := []
        defs := [.module {} "m" [.func
          { loc := {}, name := "f", params := [], ret := none, checked := false
            body := ⟨{}, [.missing, .ret {} (some (.list {} [.var {} "b", last, .var {} "c"])),
              .missing]⟩ }]] }
    (∀ x, (f x).changed = false → (f x).value = x) ∧
      ((program (.var {} "a")).rewrite f).value = program (.eraser {}) ∧
      ((program (.var {} "a")).rewrite f).changed = true := by
  intro f program
  have hf : ∀ x, (f x).changed = false → (f x).value = x := Revised.keeps_byRule _
  obtain ⟨hvalue, hchanged⟩ := (program (.var {} "a")).rewrite_eq_mapUp f hf
  refine ⟨hf, hvalue.trans rfl, hchanged.2 ?_⟩
  have hmember : Expr.var {} "a" ∈
    (Expr.list {} [.var {} "b", .var {} "a", .var {} "c"]).children := by simp [Expr.children]
  exact ⟨_, ⟨_, List.mem_singleton.2 rfl, _, List.mem_singleton.2 rfl, .child hmember (.self _)⟩,
    rfl⟩

end FunRiscv
