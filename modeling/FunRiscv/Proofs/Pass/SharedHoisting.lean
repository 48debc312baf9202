import Mathlib
import FunRiscv.Proofs.Pass.Sharing

/-!
# Hoisting with shared nodes

* `Hoisting.Keeps`: an action that marks nothing gives what it came from, and leaves
  the state alone.
* `Hoisting.keeps_expr`, `Hoisting.keeps_stmts`: so do all actions of hoisting.
* `Hoisting.expr_binOp`, `Hoisting.stmt_ifThen`, `Program.linearize_eq`: so they do the same with
  and without sharing.
-/

namespace FunRiscv

namespace Hoisting

/-! ### Kept values -/

section Keeps

variable {α β : Type} {act : Hoisting α} {a : α}

/-- An action that marks nothing gives the value it came from, and leaves the state alone. -/
def Keeps (act : Hoisting α) (a : α) : Prop :=
  ∀ s, (act.run s).changed = false → (act.run s).value = (a, s)

theorem keeps_pure (a : α) : Keeps (pure a) a := fun _ _ => rfl

theorem Keeps.bind {f : α → Hoisting β} {b : β} (h : Keeps act a) (hf : Keeps (f a) b) :
    Keeps (act >>= f) b := by
  intro s hs
  obtain ⟨hfirst, hsecond⟩ : (act.run s).changed = false ∧
      ((f (act.run s).value.1).run (act.run s).value.2).changed = false := Bool.or_eq_false_iff.1 hs
  rw [h s hfirst] at hsecond
  show ((f (act.run s).value.1).run (act.run s).value.2).value = (b, s)
  rw [h s hfirst, hf s hsecond]

/-- Values are kept unless something is hoisted. -/
def keeping : Keeping Hoisting where
  Keeps := Keeps
  pure := keeps_pure
  bind := Keeps.bind

/-- What is kept anyway need not be shared. -/
theorem Keeps.orShared (h : Keeps act a) : Hoisting.orShared act a = act := by
  funext s
  refine Revised.Keeps.orShared fun hs => ?_
  rw [show (act.run s).value = (a, s) from h s hs]

theorem Keeps.shared (h : Keeps act a) : Keeps (Hoisting.orShared act a) a := h.orShared.symm ▸ h

/-- An action goes on with what another one gives. -/
theorem value_bind {s s' : Temporaries} (h : (act.run s).value = (a, s')) (f : α → Hoisting β) :
    ((act >>= f).run s).value = ((f a).run s').value := by
  show ((f (act.run s).value.1).run (act.run s).value.2).value = _
  rw [h]

/-- To name an expression marks that. -/
theorem keeps_name (x y : Expr) : Keeps (name x) y := by
  intro s hs
  exact absurd (hs : true = false) Bool.noConfusion

theorem simple_of_not_complex {x : Expr} (hx : x.isComplex = false) (flat : Hoisting Expr) :
    simple x flat = flat := by
  rw [simple, hx]
  exact bind_pure flat

theorem simple_of_complex {x : Expr} (hx : x.isComplex = true) (flat : Hoisting Expr) :
    simple x flat = flat >>= name := by
  rw [simple, hx]
  rfl

theorem Keeps.simple {x : Expr} {flat : Hoisting Expr} (h : Keeps flat x) :
    Keeps (simple x flat) x := by
  cases hx : x.isComplex with
  | false => rwa [simple_of_not_complex hx]
  | true =>
    rw [simple_of_complex hx]
    exact h.bind (keeps_name x x)

/-- An action runs with nothing pending, and what was pending is so again. -/
theorem collect_run (act : Hoisting α) (s : Temporaries) :
    (collect act).run s = (act.run { s with pending := [] } >>= fun r =>
      pure ((r.2.pending.reverse, r.1), { r.2 with pending := s.pending })) := by
  simp [collect]

theorem Keeps.collect (h : Keeps act a) : Keeps (collect act) ([], a) := by
  intro s hs
  rw [collect_run] at hs ⊢
  have hact : (act.run { s with pending := [] }).changed = false := (Bool.or_eq_false_iff.1 hs).1
  show ((_, (act.run { s with pending := [] }).value.1), _) = _
  rw [h _ hact]
  rfl

end Keeps

/-! ### Expressions -/

mutual

theorem keeps_expr : ∀ x : Expr, Keeps (expr x) x
  | .binOp loc op l r => by
    rw [expr]
    exact Keeps.shared ((keeps_expr l).simple.bind ((keeps_expr r).simple.bind (keeps_pure _)))
  | .call loc f as ns => by
    rw [expr]
    exact Keeps.shared ((keeps_expr f).simple.bind
      ((keeps_operands as).bind ((keeps_namedOperands ns).bind (keeps_pure _))))
  | .tuple loc es | .list loc es => by
    rw [expr]
    exact Keeps.shared ((keeps_exprs es).bind (keeps_pure _))
  | .access loc x _ | .ifElse loc x _ _ | .matchOn loc x _ => by
    rw [expr]
    exact Keeps.shared ((keeps_expr x).bind (keeps_pure _))
  | .var .. | .uint .. | .int .. | .float .. | .str .. | .bool .. | .eraser _ | .lambda ..
  | .missing => by
    rw [expr]
    exact keeps_pure _

theorem keeps_exprs : ∀ xs : List Expr, Keeps (exprs xs) xs
  | [] => by
    rw [exprs]
    exact keeps_pure _
  | x :: xs => by
    rw [exprs]
    exact (keeps_expr x).bind ((keeps_exprs xs).bind (keeps_pure _))

theorem keeps_operands : ∀ xs : List Expr, Keeps (operands xs) xs
  | [] => by
    rw [operands]
    exact keeps_pure _
  | x :: xs => by
    rw [operands]
    exact (keeps_expr x).simple.bind ((keeps_operands xs).bind (keeps_pure _))

theorem keeps_namedOperands : ∀ ns : List NamedArg, Keeps (namedOperands ns) ns
  | [] => by
    rw [namedOperands]
    exact keeps_pure _
  | .mk loc n x :: ns => by
    rw [namedOperands]
    exact Keeps.bind (Keeps.shared ((keeps_expr x).simple.bind (keeps_pure (NamedArg.mk loc n x))))
      ((keeps_namedOperands ns).bind (keeps_pure _))

end

section Equations

variable (loc : Location)

theorem expr_binOp (op : Operator) (l r : Expr) : expr (.binOp loc op l r) = (do
    let l ← simple l (expr l)
    let r ← simple r (expr r)
    return .binOp loc op l r) := by
  rw [expr]
  exact Keeps.orShared ((keeps_expr l).simple.bind ((keeps_expr r).simple.bind (keeps_pure _)))

theorem expr_call (f : Expr) (as : List Expr) (ns : List NamedArg) : expr (.call loc f as ns) = (do
    let f ← simple f (expr f)
    let as ← operands as
    let ns ← namedOperands ns
    return .call loc f as ns) := by
  rw [expr]
  exact Keeps.orShared ((keeps_expr f).simple.bind
    ((keeps_operands as).bind ((keeps_namedOperands ns).bind (keeps_pure _))))

theorem expr_tuple (es : List Expr) :
    expr (.tuple loc es) = (do return .tuple loc (← exprs es)) := by
  rw [expr]
  exact Keeps.orShared ((keeps_exprs es).bind (keeps_pure _))

theorem expr_list (es : List Expr) : expr (.list loc es) = (do return .list loc (← exprs es)) := by
  rw [expr]
  exact Keeps.orShared ((keeps_exprs es).bind (keeps_pure _))

theorem expr_access (x : Expr) (field : String) :
    expr (.access loc x field) = (do return .access loc (← expr x) field) := by
  rw [expr]
  exact Keeps.orShared ((keeps_expr x).bind (keeps_pure _))

theorem expr_ifElse (c t e : Expr) :
    expr (.ifElse loc c t e) = (do return .ifElse loc (← expr c) t e) := by
  rw [expr]
  exact Keeps.orShared ((keeps_expr c).bind (keeps_pure _))

theorem expr_matchOn (x : Expr) (cs : List Case) :
    expr (.matchOn loc x cs) = (do return .matchOn loc (← expr x) cs) := by
  rw [expr]
  exact Keeps.orShared ((keeps_expr x).bind (keeps_pure _))

theorem namedOperands_cons (n : String) (x : Expr) (ns : List NamedArg) :
    namedOperands (.mk loc n x :: ns) = (do
      let x ← simple x (expr x)
      let ns ← namedOperands ns
      return .mk loc n x :: ns) := by
  have hfirst : orShared (do return NamedArg.mk loc n (← simple x (expr x))) (.mk loc n x) =
      (do return .mk loc n (← simple x (expr x))) :=
    Keeps.orShared ((keeps_expr x).simple.bind (keeps_pure _))
  rw [namedOperands, hfirst]
  simp

end Equations

/-! ### Statements -/

mutual

theorem keeps_stmt : ∀ t : Stmt, Keeps (stmt t) t
  | .ret _ (some x) | .assign _ _ _ x | .use _ _ x | .expr _ x => by
    rw [stmt]
    exact Keeps.shared ((keeps_expr x).bind (keeps_pure _))
  | .ifThen loc c tl t => by
    rw [stmt]
    exact Keeps.shared ((keeps_expr c).bind ((keeps_stmts t).shared.bind (keeps_pure _)))
  | .ifElse loc c tl t el e => by
    rw [stmt]
    exact Keeps.shared ((keeps_expr c).bind
      ((keeps_stmts t).shared.bind ((keeps_stmts e).shared.bind (keeps_pure _))))
  | .ret _ none | .missing => by
    rw [stmt]
    exact keeps_pure _

/-- Statements of which none has an operand to hoist are kept. -/
theorem keeps_stmts : ∀ ss : List Stmt, Keeps (stmts ss) ss
  | [] => by
    rw [stmts]
    exact keeps_pure _
  | t :: ss => by
    rw [stmts]
    exact (keeps_stmt t).collect.bind ((keeps_stmts ss).bind (keeps_pure _))

end

/-- A statement with one expression. -/
theorem stmt_leaf (make : Expr → Stmt) {x : Expr}
    (h : stmt (make x) = orShared (do return make (← expr x)) (make x)) :
    stmt (make x) = (do return make (← expr x)) :=
  h.trans (Keeps.orShared ((keeps_expr x).bind (keeps_pure _)))

theorem stmt_ifThen (loc tl : Location) (c : Expr) (t : List Stmt) : stmt (.ifThen loc c tl t) = (do
    let c ← expr c
    let t ← stmts t
    return .ifThen loc c tl t) := by
  rw [stmt, (keeps_stmts t).orShared]
  exact Keeps.orShared ((keeps_expr c).bind ((keeps_stmts t).bind (keeps_pure _)))

theorem stmt_ifElse (loc tl el : Location) (c : Expr) (t e : List Stmt) :
    stmt (.ifElse loc c tl t el e) = (do
      let c ← expr c
      let t ← stmts t
      let e ← stmts e
      return .ifElse loc c tl t el e) := by
  rw [stmt, (keeps_stmts t).orShared, (keeps_stmts e).orShared]
  exact Keeps.orShared
    ((keeps_expr c).bind ((keeps_stmts t).bind ((keeps_stmts e).bind (keeps_pure _))))

/-- A statement after the assignments that its operands need. -/
def placed (t : Stmt) : Hoisting (List Stmt) := do
  let (before, t) ← collect (stmt t)
  return before ++ [t]

theorem value_placed {t t' : Stmt} {s s' : Temporaries}
    (h : ((stmt t).run { s with pending := [] }).value = (t', s')) :
    ((placed t).run s).value = (s'.pending.reverse ++ [t'], { s' with pending := s.pending }) := by
  show (((stmt t).run { s with pending := [] }).value.2.pending.reverse ++
    [((stmt t).run { s with pending := [] }).value.1],
    { ((stmt t).run { s with pending := [] }).value.2 with pending := s.pending }) = _
  rw [h]

theorem stmts_cons (t : Stmt) (ss : List Stmt) : stmts (t :: ss) = (do
    let ts ← placed t
    let ss ← stmts ss
    return ts ++ ss) := by
  rw [stmts, placed]
  simp only [bind_assoc, pure_bind, List.append_assoc, List.singleton_append]

theorem mapBodies_cons (f : NamedFunction) (fs : List NamedFunction) :
    mapBodies stmts (f :: fs) = (do
    let ss ← stmts f.func.body.stmts
    let gs ← mapBodies stmts fs
    return f.withBody ss :: gs) := by
  rw [mapBodies, List.mapM_cons, ← mapBodies]
  simp

theorem keeps_mapBodies : ∀ fs : List NamedFunction, Keeps (mapBodies stmts fs) fs
  | [] => keeps_pure []
  | f :: fs => by
    rw [mapBodies_cons]
    exact (keeps_stmts f.func.body.stmts).bind ((keeps_mapBodies fs).bind (keeps_pure (f :: fs)))

end Hoisting

/-! ### Programs -/

theorem FuncDef.hoist_eq : FuncDef.hoist = mapBody Hoisting.stmts := by
  funext f
  have hbody := Hoisting.keeps_stmts f.body.stmts
  rw [FuncDef.hoist, hbody.orShared]
  exact Hoisting.Keeps.orShared (hbody.bind (Hoisting.keeps_pure f))

/-- Linearization replaces the bodies of functions, and shares what it leaves. -/
theorem Program.linearize_eq (p : Program) (last : Int64) : p.linearize last =
    (let r := (p.mapFunctions (mapBody Hoisting.stmts)).run { last := p.lastTemporary last };
     (⟨r.value.1, r.changed⟩, r.value.2.last)) := by
  have hkeeps : ∀ f : FuncDef, Hoisting.Keeps (mapBody Hoisting.stmts f) f := fun f =>
    (Hoisting.keeps_stmts f.body.stmts).bind (Hoisting.keeps_pure f)
  rw [Program.linearize, FuncDef.hoist_eq,
    Hoisting.Keeps.orShared (p.keeps_mapFunctions Hoisting.keeping hkeeps)]

/-- Linearization replaces the functions of a program, and says whether it hoisted
anything in them. -/
theorem Program.linearized_bodies (p : Program) (last : Int64) :
    let r := (mapBodies Hoisting.stmts p.functions).run { last := p.lastTemporary last }
    (p.linearize last).1.value.functions = r.value.1 ∧
      (p.linearize last).1.changed = r.changed := by
  have h := congrArg (fun a : Hoisting (List NamedFunction) =>
    a.run { last := p.lastTemporary last })
    (p.functions_mapFunctions Hoisting.stmts)
  rw [p.linearize_eq]
  refine ⟨congrArg (·.value.1) h, ?_⟩
  rw [← h, StateT.run_map]
  exact (Bool.or_false _).symm

end FunRiscv
