import Mathlib
import FunRiscv.Pass.Revise
import FunRiscv.Surface.Nodes

/-!
# Expressions and their children

* `Expr.children`: the expressions directly inside an expression; `Expr.children_induction`:
  induction over them.
* `Expr.All`: what holds of an expression and of all expressions under it, patterns left out.
* `Expr.Congruent`: two expressions of one form whose children are related, one by one.
* `Expr.revise`: a rule applied to every expression, children first, without sharing.
* `Expr.revise_step`: what a rule makes of an expression, from what it makes of the
  children; `Expr.revise_rel`: a relation that every such step keeps holds between an
  expression and what becomes of it.
* `stmtsExprs`: the outermost expressions of statements, and what a rule makes of these.
-/

namespace FunRiscv

/-! ### Children -/

/-- The expressions directly inside an expression, those in patterns left out. -/
def Expr.children : Expr → List Expr
  | .tuple _ es | .list _ es => es
  | .binOp _ _ l r => [l, r]
  | .call _ f as ns => f :: (as ++ ns.map NamedArg.value)
  | .lambda _ _ b => [b]
  | .ifElse _ c t e => [c, t, e]
  | .matchOn _ x cs => x :: cs.map Case.body
  | .access _ x _ => [x]
  | .var .. | .uint .. | .int .. | .float .. | .str .. | .bool .. | .eraser .. | .missing => []

theorem NamedArg.sizeOf_value_lt (n : NamedArg) : sizeOf n.value < sizeOf n := by
  obtain ⟨loc, name, x⟩ := n
  simp only [NamedArg.mk.sizeOf_spec, NamedArg.value]
  omega

theorem Case.sizeOf_body_lt (k : Case) : sizeOf k.body < sizeOf k := by
  obtain ⟨loc, pattern, x⟩ := k
  simp only [Case.mk.sizeOf_spec, Case.body]
  omega

theorem Expr.sizeOf_child_lt {x y : Expr} (h : y ∈ x.children) : sizeOf y < sizeOf x := by
  cases x with
  | tuple loc es | list loc es =>
    have := List.sizeOf_lt_of_mem (show y ∈ es from h)
    simp only [Expr.tuple.sizeOf_spec, Expr.list.sizeOf_spec]
    omega
  | binOp loc op l r =>
    simp only [Expr.children, List.mem_cons, List.not_mem_nil, or_false] at h
    rcases h with rfl | rfl <;> simp only [Expr.binOp.sizeOf_spec] <;> omega
  | call loc f as ns =>
    simp only [Expr.children, List.mem_cons, List.mem_append, List.mem_map] at h
    simp only [Expr.call.sizeOf_spec]
    rcases h with rfl | h | ⟨n, hn, rfl⟩
    · omega
    · have := List.sizeOf_lt_of_mem h
      omega
    · have := List.sizeOf_lt_of_mem hn
      have := n.sizeOf_value_lt
      omega
  | lambda loc ps b =>
    obtain rfl := List.mem_singleton.1 h
    simp only [Expr.lambda.sizeOf_spec]
    omega
  | ifElse loc c t e =>
    simp only [Expr.children, List.mem_cons, List.not_mem_nil, or_false] at h
    rcases h with rfl | rfl | rfl <;> simp only [Expr.ifElse.sizeOf_spec] <;> omega
  | matchOn loc s cs =>
    simp only [Expr.children, List.mem_cons, List.mem_map] at h
    simp only [Expr.matchOn.sizeOf_spec]
    rcases h with rfl | ⟨k, hk, rfl⟩
    · omega
    · have := List.sizeOf_lt_of_mem hk
      have := k.sizeOf_body_lt
      omega
  | access loc s field =>
    obtain rfl := List.mem_singleton.1 h
    simp only [Expr.access.sizeOf_spec]
    omega
  | _ => simp [Expr.children] at h

/-- Induction over the expressions inside an expression. -/
theorem Expr.children_induction {P : Expr → Prop} (step : ∀ x, (∀ y ∈ x.children, P y) → P x)
    (x : Expr) : P x := by
  induction h : sizeOf x using Nat.strong_induction_on generalizing x with
  | _ n ih =>
    refine step x fun y hy => ?_
    have hlt := Expr.sizeOf_child_lt hy
    rw [h] at hlt
    exact ih (sizeOf y) hlt y rfl

theorem exprsNodes_eq (es : List Expr) : exprsNodes es = es.flatMap Expr.nodes := by
  induction es with
  | nil => rfl
  | cons e es ih => rw [exprsNodes, List.flatMap_cons, ih]

theorem namedNodes_eq (ns : List NamedArg) : namedNodes ns = ns.flatMap fun n => n.value.nodes := by
  induction ns with
  | nil => rfl
  | cons n ns ih =>
    obtain ⟨loc, name, x⟩ := n
    rw [namedNodes, List.flatMap_cons, ih]
    rfl

theorem casesNodes_eq (cs : List Case) :
    casesNodes cs = cs.flatMap fun k => k.pattern.nodes ++ k.body.nodes := by
  induction cs with
  | nil => rfl
  | cons k cs ih =>
    obtain ⟨loc, p, x⟩ := k
    rw [casesNodes, List.flatMap_cons, ih]
    rfl

theorem Expr.self_mem_nodes (x : Expr) : x ∈ x.nodes := by cases x <;> simp [Expr.nodes]

theorem Expr.nodes_subset_of_child {x y : Expr} (h : y ∈ x.children) : y.nodes ⊆ x.nodes := by
  intro z hz
  cases x with
  | tuple loc es | list loc es =>
    rw [Expr.nodes, exprsNodes_eq]
    exact List.mem_cons_of_mem _ (List.mem_flatMap.2 ⟨y, h, hz⟩)
  | call loc f as ns =>
    simp only [Expr.children, List.mem_cons, List.mem_append, List.mem_map] at h
    simp only [Expr.nodes, exprsNodes_eq, namedNodes_eq, List.mem_cons, List.mem_append,
      List.mem_flatMap]
    rcases h with rfl | h | ⟨n, hn, rfl⟩
    · exact .inr (.inl (.inl hz))
    · exact .inr (.inl (.inr ⟨y, h, hz⟩))
    · exact .inr (.inr ⟨n, hn, hz⟩)
  | matchOn loc s cs =>
    simp only [Expr.children, List.mem_cons, List.mem_map] at h
    simp only [Expr.nodes, casesNodes_eq, List.mem_cons, List.mem_append, List.mem_flatMap]
    rcases h with rfl | ⟨k, hk, rfl⟩
    · exact .inr (.inl hz)
    · exact .inr (.inr ⟨k, hk, .inr hz⟩)
  | binOp loc op l r | lambda loc ps b | ifElse loc c t e | access loc s field =>
    simp only [Expr.children, List.mem_cons, List.not_mem_nil, or_false] at h
    simp only [Expr.nodes, List.mem_cons, List.mem_append]
    aesop
  | _ => simp [Expr.children] at h

/-! ### What holds of all expressions -/

/-- A property holds of an expression and of all expressions under it. -/
inductive Expr.All (P : Expr → Prop) : Expr → Prop
  | intro {x : Expr} (self : P x) (below : ∀ y ∈ x.children, Expr.All P y) : Expr.All P x

section All

variable {P Q : Expr → Prop} {x y : Expr}

theorem Expr.All.self (h : x.All P) : P x := by
  obtain ⟨h, -⟩ := h
  exact h

theorem Expr.All.child (h : x.All P) (hy : y ∈ x.children) : y.All P := by
  obtain ⟨-, h⟩ := h
  exact h y hy

theorem Expr.All.atom (h : P x) (hx : x.children = []) : x.All P :=
  .intro h fun y hy => by simp [hx] at hy

theorem Expr.All.imp (h : x.All P) (hpq : ∀ y, P y → Q y) : x.All Q := by
  induction h with
  | intro self _ ih => exact .intro (hpq _ self) ih

theorem Expr.all_of_nodes (h : ∀ y ∈ x.nodes, P y) : x.All P := by
  induction x using Expr.children_induction with
  | step x ih =>
    exact .intro (h x x.self_mem_nodes) fun y hy =>
      ih y hy fun z hz => h z (Expr.nodes_subset_of_child hy hz)

end All

/-! ### Congruent expressions -/

/-- Named arguments of one name whose values are related. -/
inductive NamedArg.Congruent (R : Expr → Expr → Prop) : NamedArg → NamedArg → Prop
  | mk {loc : Location} {name : String} {x x' : Expr} (h : R x x') :
    NamedArg.Congruent R (.mk loc name x) (.mk loc name x')

/-- Arms of one pattern whose bodies are related. -/
inductive Case.Congruent (R : Expr → Expr → Prop) : Case → Case → Prop
  | mk {loc : Location} {p : Pattern} {x x' : Expr} (h : R x x') :
    Case.Congruent R (.mk loc p x) (.mk loc p x')

/-- Expressions of one form whose children are related, one by one. -/
inductive Expr.Congruent (R : Expr → Expr → Prop) : Expr → Expr → Prop
  | tuple {loc : Location} {es es' : List Expr} (h : List.Forall₂ R es es') :
    Expr.Congruent R (.tuple loc es) (.tuple loc es')
  | list {loc : Location} {es es' : List Expr} (h : List.Forall₂ R es es') :
    Expr.Congruent R (.list loc es) (.list loc es')
  | binOp {loc : Location} {op : Operator} {l l' r r' : Expr} (hl : R l l') (hr : R r r') :
    Expr.Congruent R (.binOp loc op l r) (.binOp loc op l' r')
  | call {loc : Location} {f f' : Expr} {as as' : List Expr} {ns ns' : List NamedArg} (hf : R f f')
    (has : List.Forall₂ R as as') (hns : List.Forall₂ (NamedArg.Congruent R) ns ns') :
    Expr.Congruent R (.call loc f as ns) (.call loc f' as' ns')
  | lambda {loc : Location} {ps : List Param} {b b' : Expr} (h : R b b') :
    Expr.Congruent R (.lambda loc ps b) (.lambda loc ps b')
  | ifElse {loc : Location} {c c' t t' e e' : Expr} (hc : R c c') (ht : R t t') (he : R e e') :
    Expr.Congruent R (.ifElse loc c t e) (.ifElse loc c' t' e')
  | matchOn {loc : Location} {s s' : Expr} {cs cs' : List Case} (hs : R s s')
    (hcs : List.Forall₂ (Case.Congruent R) cs cs') :
    Expr.Congruent R (.matchOn loc s cs) (.matchOn loc s' cs')
  | access {loc : Location} {s s' : Expr} {field : String} (h : R s s') :
    Expr.Congruent R (.access loc s field) (.access loc s' field)
  | atom {x : Expr} (h : x.children = []) : Expr.Congruent R x x

section Congruent

variable {R S : Expr → Expr → Prop} {x x' : Expr}

theorem NamedArg.congruent_iff {n n' : NamedArg} :
    n.Congruent R n' ↔ n'.loc = n.loc ∧ n'.name = n.name ∧ R n.value n'.value := by
  obtain ⟨loc, name, x⟩ := n
  obtain ⟨loc', name', x'⟩ := n'
  constructor
  · rintro ⟨h⟩
    exact ⟨rfl, rfl, h⟩
  · rintro ⟨hloc, hname, h⟩
    obtain rfl : loc' = loc := hloc
    obtain rfl : name' = name := hname
    exact .mk h

theorem Case.congruent_iff {k k' : Case} :
    k.Congruent R k' ↔ k'.loc = k.loc ∧ k'.pattern = k.pattern ∧ R k.body k'.body := by
  obtain ⟨loc, p, x⟩ := k
  obtain ⟨loc', p', x'⟩ := k'
  constructor
  · rintro ⟨h⟩
    exact ⟨rfl, rfl, h⟩
  · rintro ⟨hloc, hp, h⟩
    obtain rfl : loc' = loc := hloc
    obtain rfl : p' = p := hp
    exact .mk h

/-- The children are related, one by one. -/
theorem Expr.Congruent.children (h : x.Congruent R x') : List.Forall₂ R x.children x'.children := by
  cases h with
  | tuple h | list h => exact h
  | binOp hl hr => exact .cons hl (.cons hr .nil)
  | call hf has hns =>
    refine .cons hf (List.rel_append has ?_)
    rw [List.forall₂_map_left_iff, List.forall₂_map_right_iff]
    exact hns.imp fun n n' h => (NamedArg.congruent_iff.1 h).2.2
  | lambda h | access h => exact .cons h .nil
  | ifElse hc ht he => exact .cons hc (.cons ht (.cons he .nil))
  | matchOn hs hcs =>
    refine .cons hs ?_
    rw [List.forall₂_map_left_iff, List.forall₂_map_right_iff]
    exact hcs.imp fun k k' h => (Case.congruent_iff.1 h).2.2
  | atom h =>
    rw [h]
    exact .nil

theorem forall₂_imp_of_mem {α β : Type} {R S : α → β → Prop} {xs : List α} {ys : List β}
    (h : List.Forall₂ R xs ys) (himp : ∀ x ∈ xs, ∀ y, R x y → S x y) : List.Forall₂ S xs ys := by
  induction h with
  | nil => exact .nil
  | cons hxy _ ih => exact .cons (himp _ (by simp) _ hxy) (ih fun x hx => himp x (by simp [hx]))

/-- The relation between the children may be weakened, for the children at hand. -/
theorem Expr.Congruent.imp (h : x.Congruent R x') (himp : ∀ y ∈ x.children, ∀ y', R y y' → S y y') :
    x.Congruent S x' := by
  cases h with
  | tuple h => exact .tuple (forall₂_imp_of_mem h himp)
  | list h => exact .list (forall₂_imp_of_mem h himp)
  | binOp hl hr =>
    exact .binOp (himp _ (by simp [Expr.children]) _ hl) (himp _ (by simp [Expr.children]) _ hr)
  | call hf has hns =>
    refine .call (himp _ (by simp [Expr.children]) _ hf)
      (forall₂_imp_of_mem has fun y hy => himp y (by simp [Expr.children, hy]))
      (forall₂_imp_of_mem hns fun n hn n' h => ?_)
    obtain ⟨hloc, hname, h⟩ := NamedArg.congruent_iff.1 h
    exact NamedArg.congruent_iff.2 ⟨hloc, hname,
      himp _ (List.mem_cons_of_mem _ (List.mem_append_right _ (List.mem_map_of_mem hn))) _ h⟩
  | lambda h => exact .lambda (himp _ (by simp [Expr.children]) _ h)
  | ifElse hc ht he =>
    exact .ifElse (himp _ (by simp [Expr.children]) _ hc) (himp _ (by simp [Expr.children]) _ ht)
      (himp _ (by simp [Expr.children]) _ he)
  | matchOn hs hcs =>
    refine .matchOn (himp _ (by simp [Expr.children]) _ hs)
      (forall₂_imp_of_mem hcs fun k hk k' h => ?_)
    obtain ⟨hloc, hp, h⟩ := Case.congruent_iff.1 h
    exact Case.congruent_iff.2 ⟨hloc, hp,
      himp _ (List.mem_cons_of_mem _ (List.mem_map_of_mem hk)) _ h⟩
  | access h => exact .access (himp _ (by simp [Expr.children]) _ h)
  | atom h => exact .atom h

theorem eq_of_forall₂ {α : Type} {xs ys : List α} (h : List.Forall₂ Eq xs ys) : xs = ys := by
  rwa [List.forall₂_eq_eq_eq] at h

theorem NamedArg.Congruent.eq {n n' : NamedArg} (h : n.Congruent Eq n') : n = n' := by
  cases h with
  | mk h => rw [h]

theorem Case.Congruent.eq {k k' : Case} (h : k.Congruent Eq k') : k = k' := by
  cases h with
  | mk h => rw [h]

theorem Expr.Congruent.eq (h : x.Congruent Eq x') : x = x' := by
  cases h with
  | tuple h | list h => rw [eq_of_forall₂ h]
  | binOp hl hr => rw [hl, hr]
  | call hf has hns => rw [hf, eq_of_forall₂ has, eq_of_forall₂ (hns.imp fun n n' h => h.eq)]
  | lambda h | access h => rw [h]
  | ifElse hc ht he => rw [hc, ht, he]
  | matchOn hs hcs => rw [hs, eq_of_forall₂ (hcs.imp fun k k' h => h.eq)]
  | atom h => rfl

/-- What holds of related expressions holds of the children. -/
theorem Expr.Congruent.forall_children {A B : Expr → Prop} (h : x.Congruent R x')
    (hR : ∀ y y', R y y' → A y → B y') (hA : ∀ y ∈ x.children, A y) : ∀ y' ∈ x'.children, B y' := by
  have hc := h.children
  generalize x.children = ys at hc hA
  generalize x'.children = ys' at hc
  induction hc with
  | nil => simp
  | cons hy _ ih =>
    rw [List.forall_mem_cons] at hA ⊢
    exact ⟨hR _ _ hy hA.1, ih hA.2⟩

end Congruent

/-! ### Revised expressions -/

mutual

/-- Applies a rule to every expression under an expression and then to itself, and rebuilds
every node on the way. -/
def Expr.revise (rule : Expr → Option Expr) : Expr → Revised Expr
  | .tuple loc es => do
    let es ← reviseExprs rule es
    Revised.byRule rule (.tuple loc es)
  | .list loc es => do
    let es ← reviseExprs rule es
    Revised.byRule rule (.list loc es)
  | .binOp loc op l r => do
    let l ← l.revise rule
    let r ← r.revise rule
    Revised.byRule rule (.binOp loc op l r)
  | .call loc f as ns => do
    let f ← f.revise rule
    let as ← reviseExprs rule as
    let ns ← reviseNamed rule ns
    Revised.byRule rule (.call loc f as ns)
  | .lambda loc ps b => do
    let b ← b.revise rule
    Revised.byRule rule (.lambda loc ps b)
  | .ifElse loc c t e => do
    let c ← c.revise rule
    let t ← t.revise rule
    let e ← e.revise rule
    Revised.byRule rule (.ifElse loc c t e)
  | .matchOn loc x cs => do
    let x ← x.revise rule
    let cs ← reviseCases rule cs
    Revised.byRule rule (.matchOn loc x cs)
  | .access loc x f => do
    let x ← x.revise rule
    Revised.byRule rule (.access loc x f)
  | .var loc n => Revised.byRule rule (.var loc n)
  | .uint loc v => Revised.byRule rule (.uint loc v)
  | .int loc v => Revised.byRule rule (.int loc v)
  | .float loc v => Revised.byRule rule (.float loc v)
  | .str loc v => Revised.byRule rule (.str loc v)
  | .bool loc v => Revised.byRule rule (.bool loc v)
  | .eraser loc => Revised.byRule rule (.eraser loc)
  | .missing => Revised.byRule rule .missing

def reviseExprs (rule : Expr → Option Expr) : List Expr → Revised (List Expr)
  | [] => pure []
  | x :: xs => do
    let x ← x.revise rule
    let xs ← reviseExprs rule xs
    pure (x :: xs)

def reviseNamed (rule : Expr → Option Expr) : List NamedArg → Revised (List NamedArg)
  | [] => pure []
  | .mk loc n x :: rest => do
    let x ← x.revise rule
    let rest ← reviseNamed rule rest
    pure (.mk loc n x :: rest)

def reviseCases (rule : Expr → Option Expr) : List Case → Revised (List Case)
  | [] => pure []
  | .mk loc p x :: rest => do
    let x ← x.revise rule
    let rest ← reviseCases rule rest
    pure (.mk loc p x :: rest)

end

section Revise

variable (rule : Expr → Option Expr)

theorem reviseExprs_value (es : List Expr) :
    (reviseExprs rule es).value = es.map fun x => (x.revise rule).value := by
  induction es with
  | nil => simp [reviseExprs, pure]
  | cons e es ih =>
    rw [List.map_cons, ← ih, reviseExprs]
    rfl

theorem reviseExprs_changed (es : List Expr) :
    (reviseExprs rule es).changed = es.any fun x => (x.revise rule).changed := by
  induction es with
  | nil => simp [reviseExprs, pure]
  | cons e es ih =>
    rw [List.any_cons, ← ih, reviseExprs]
    simp [bind, pure]

theorem reviseNamed_value (ns : List NamedArg) :
    (reviseNamed rule ns).value = ns.map fun n => .mk n.loc n.name (n.value.revise rule).value := by
  induction ns with
  | nil => simp [reviseNamed, pure]
  | cons n ns ih =>
    obtain ⟨loc, name, x⟩ := n
    rw [List.map_cons, ← ih, reviseNamed]
    rfl

theorem reviseNamed_changed (ns : List NamedArg) :
    (reviseNamed rule ns).changed = ns.any fun n => (n.value.revise rule).changed := by
  induction ns with
  | nil => simp [reviseNamed, pure]
  | cons n ns ih =>
    obtain ⟨loc, name, x⟩ := n
    rw [List.any_cons, ← ih, reviseNamed]
    simp [bind, pure, NamedArg.value]

theorem reviseCases_value (cs : List Case) :
    (reviseCases rule cs).value =
      cs.map fun k => .mk k.loc k.pattern (k.body.revise rule).value := by
  induction cs with
  | nil => simp [reviseCases, pure]
  | cons k cs ih =>
    obtain ⟨loc, p, x⟩ := k
    rw [List.map_cons, ← ih, reviseCases]
    rfl

theorem reviseCases_changed (cs : List Case) :
    (reviseCases rule cs).changed = cs.any fun k => (k.body.revise rule).changed := by
  induction cs with
  | nil => simp [reviseCases, pure]
  | cons k cs ih =>
    obtain ⟨loc, p, x⟩ := k
    rw [List.any_cons, ← ih, reviseCases]
    simp [bind, pure, Case.body]

theorem Revised.byRule_eq (x : Expr) :
    Revised.byRule rule x = ⟨(rule x).getD x, (rule x).isSome⟩ := by
  rw [Revised.byRule]
  cases rule x <;> rfl

/-- What becomes of an expression: its children are revised, and the rule is applied
to the result. -/
theorem Expr.revise_step (x : Expr) :
    ∃ x₁, x.Congruent (fun y y' => (y.revise rule).value = y') x₁ ∧
      x.revise rule = ⟨(rule x₁).getD x₁, (x.children.any fun y => (y.revise rule).changed) ||
        (rule x₁).isSome⟩ := by
  cases x with
  | tuple loc es =>
    refine ⟨.tuple loc (es.map fun x => (x.revise rule).value), .tuple ?_, ?_⟩
    · exact List.forall₂_map_right_iff.2 (List.forall₂_same.2 fun _ _ => rfl)
    · rw [Expr.revise]
      simp [bind, Revised.byRule_eq, Expr.children, reviseExprs_value, reviseExprs_changed]
  | list loc es =>
    refine ⟨.list loc (es.map fun x => (x.revise rule).value), .list ?_, ?_⟩
    · exact List.forall₂_map_right_iff.2 (List.forall₂_same.2 fun _ _ => rfl)
    · rw [Expr.revise]
      simp [bind, Revised.byRule_eq, Expr.children, reviseExprs_value, reviseExprs_changed]
  | binOp loc op l r =>
    refine ⟨.binOp loc op (l.revise rule).value (r.revise rule).value, .binOp rfl rfl, ?_⟩
    rw [Expr.revise]
    simp [bind, Revised.byRule_eq, Expr.children, Bool.or_assoc]
  | call loc f as ns =>
    refine ⟨.call loc (f.revise rule).value (as.map fun x => (x.revise rule).value)
      (ns.map fun n => .mk n.loc n.name (n.value.revise rule).value), ?_, ?_⟩
    · exact .call rfl (List.forall₂_map_right_iff.2 (List.forall₂_same.2 fun _ _ => rfl))
        (List.forall₂_map_right_iff.2
          (List.forall₂_same.2 fun _ _ => NamedArg.congruent_iff.2 ⟨rfl, rfl, rfl⟩))
    · rw [Expr.revise]
      simp [bind, Revised.byRule_eq, Expr.children, reviseExprs_value, reviseExprs_changed,
        reviseNamed_value, reviseNamed_changed, Bool.or_assoc, Function.comp_def]
  | lambda loc ps b =>
    refine ⟨.lambda loc ps (b.revise rule).value, .lambda rfl, ?_⟩
    rw [Expr.revise]
    simp [bind, Revised.byRule_eq, Expr.children]
  | ifElse loc c t e =>
    refine ⟨.ifElse loc (c.revise rule).value (t.revise rule).value (e.revise rule).value,
      .ifElse rfl rfl rfl, ?_⟩
    rw [Expr.revise]
    simp [bind, Revised.byRule_eq, Expr.children, Bool.or_assoc]
  | matchOn loc s cs =>
    refine ⟨.matchOn loc (s.revise rule).value
      (cs.map fun k => .mk k.loc k.pattern (k.body.revise rule).value), ?_, ?_⟩
    · exact .matchOn rfl
        (List.forall₂_map_right_iff.2
          (List.forall₂_same.2 fun _ _ => Case.congruent_iff.2 ⟨rfl, rfl, rfl⟩))
    · rw [Expr.revise]
      simp [bind, Revised.byRule_eq, Expr.children, reviseCases_value, reviseCases_changed,
        Bool.or_assoc, Function.comp_def]
  | access loc s field =>
    refine ⟨.access loc (s.revise rule).value field, .access rfl, ?_⟩
    rw [Expr.revise]
    simp [bind, Revised.byRule_eq, Expr.children]
  | _ => exact ⟨_, .atom rfl, by rw [Expr.revise, Revised.byRule_eq]; rfl⟩

variable {rule}

/-- A relation that holds of what a step makes of an expression, if it holds of what became of the
children, holds of the whole expression and what becomes of it. -/
theorem Expr.revise_rel {R : Expr → Expr → Prop}
    (step : ∀ x x₁, x.Congruent R x₁ → R x ((rule x₁).getD x₁)) (x : Expr) :
    R x (x.revise rule).value := by
  induction x using Expr.children_induction with
  | step x ih =>
    obtain ⟨x₁, hx₁, hrun⟩ := x.revise_step rule
    rw [hrun]
    refine step x x₁ (hx₁.imp fun y hy y' hy' => ?_)
    rw [← hy']
    exact ih y hy

/-- An expression that is not marked as changed is the same, and the rule applies nowhere in it. -/
theorem Expr.of_unchanged {x : Expr} (h : (x.revise rule).changed = false) :
    (x.revise rule).value = x ∧ x.All fun y => rule y = none := by
  induction x using Expr.children_induction with
  | step x ih =>
    obtain ⟨x₁, hx₁, hrun⟩ := x.revise_step rule
    rw [hrun] at h ⊢
    simp only [Bool.or_eq_false_iff, List.any_eq_false, Bool.not_eq_true,
      Option.isSome_eq_false_iff, Option.isNone_iff_eq_none] at h
    obtain ⟨hchildren, hrule⟩ := h
    have heq : x = x₁ :=
      Expr.Congruent.eq (hx₁.imp fun y hy y' hy' => (ih y hy (hchildren y hy)).1.symm.trans hy')
    subst heq
    exact ⟨by rw [hrule]; rfl, .intro hrule fun y hy => (ih y hy (hchildren y hy)).2⟩

/-- An expression in which the rule applies nowhere is not marked as changed. -/
theorem Expr.unchanged_of_all {x : Expr} (h : x.All fun y => rule y = none) :
    (x.revise rule).changed = false := by
  have hboth : (x.revise rule).value = x ∧ (x.revise rule).changed = false := by
    induction x using Expr.children_induction with
    | step x ih =>
      obtain ⟨x₁, hx₁, hrun⟩ := x.revise_step rule
      have heq : x = x₁ :=
        Expr.Congruent.eq (hx₁.imp fun y hy y' hy' => (ih y hy (h.child hy)).1.symm.trans hy')
      subst heq
      have hchildren : (x.children.any fun y => (y.revise rule).changed) = false := by
        rw [List.any_eq_false]
        intro y hy
        rw [(ih y hy (h.child hy)).2]
        exact Bool.false_ne_true
      rw [hrun, h.self, hchildren]
      exact ⟨rfl, rfl⟩
  exact hboth.2

end Revise

/-! ### Statements -/

mutual

/-- The outermost expressions of a statement. -/
def Stmt.exprs : Stmt → List Expr
  | .ret _ none | .missing => []
  | .ret _ (some x) | .assign _ _ _ x | .use _ _ x | .expr _ x => [x]
  | .ifThen _ c _ t => c :: stmtsExprs t
  | .ifElse _ c _ t _ e => c :: (stmtsExprs t ++ stmtsExprs e)

/-- The outermost expressions of statements. -/
def stmtsExprs : List Stmt → List Expr
  | [] => []
  | s :: ss => s.exprs ++ stmtsExprs ss

end

theorem stmtsExprs_append (ss ts : List Stmt) :
    stmtsExprs (ss ++ ts) = stmtsExprs ss ++ stmtsExprs ts := by
  induction ss with
  | nil => rfl
  | cons s ss ih => rw [List.cons_append, stmtsExprs, stmtsExprs, ih, List.append_assoc]

mutual

theorem Stmt.nodes_subset : ∀ (s : Stmt), ∀ x ∈ s.exprs, x.nodes ⊆ s.nodes
  | .ret _ none, x, hx | .missing, x, hx => by simp [Stmt.exprs] at hx
  | .ret _ (some y), x, hx | .assign _ _ _ y, x, hx | .use _ _ y, x, hx | .expr _ y, x, hx => by
    obtain rfl := List.mem_singleton.1 hx
    exact List.Subset.refl _
  | .ifThen _ c _ t, x, hx => by
    rw [Stmt.nodes]
    rcases List.mem_cons.1 hx with rfl | hx
    · exact List.subset_append_left _ _
    · exact List.Subset.trans (nodes_subset_stmtsNodes t x hx) (List.subset_append_right _ _)
  | .ifElse _ c _ t _ e, x, hx => by
    rw [Stmt.nodes, List.append_assoc]
    rcases List.mem_cons.1 hx with rfl | hx
    · exact List.subset_append_left _ _
    · rcases List.mem_append.1 hx with hx | hx
      · exact List.Subset.trans (nodes_subset_stmtsNodes t x hx)
          (List.Subset.trans (List.subset_append_left _ _) (List.subset_append_right _ _))
      · exact List.Subset.trans (nodes_subset_stmtsNodes e x hx)
          (List.Subset.trans (List.subset_append_right _ _) (List.subset_append_right _ _))

theorem nodes_subset_stmtsNodes : ∀ (ss : List Stmt), ∀ x ∈ stmtsExprs ss, x.nodes ⊆ stmtsNodes ss
  | [], x, hx => by simp [stmtsExprs] at hx
  | s :: ss, x, hx => by
    rw [stmtsNodes]
    rcases List.mem_append.1 hx with hx | hx
    · exact List.Subset.trans (s.nodes_subset x hx) (List.subset_append_left _ _)
    · exact List.Subset.trans (nodes_subset_stmtsNodes ss x hx) (List.subset_append_right _ _)

end

mutual

/-- Applies a rule to every expression of a statement, and rebuilds it. -/
def Stmt.revise (rule : Expr → Option Expr) : Stmt → Revised Stmt
  | .ret loc none => pure (.ret loc none)
  | .ret loc (some x) => do
    let x ← x.revise rule
    pure (.ret loc (some x))
  | .assign loc target type x => do
    let x ← x.revise rule
    pure (.assign loc target type x)
  | .use loc n x => do
    let x ← x.revise rule
    pure (.use loc n x)
  | .ifThen loc c tl t => do
    let c ← c.revise rule
    let t ← reviseStmts rule t
    pure (.ifThen loc c tl t)
  | .ifElse loc c tl t el e => do
    let c ← c.revise rule
    let t ← reviseStmts rule t
    let e ← reviseStmts rule e
    pure (.ifElse loc c tl t el e)
  | .expr loc x => do
    let x ← x.revise rule
    pure (.expr loc x)
  | .missing => pure .missing

def reviseStmts (rule : Expr → Option Expr) : List Stmt → Revised (List Stmt)
  | [] => pure []
  | s :: ss => do
    let s ← s.revise rule
    let ss ← reviseStmts rule ss
    pure (s :: ss)

end

section Revise

variable (rule : Expr → Option Expr)

mutual

/-- A revised statement has the revised expressions, and is marked as changed if one of them is. -/
theorem Stmt.revise_spec :
    ∀ s : Stmt, (s.revise rule).value.exprs = s.exprs.map (fun x => (x.revise rule).value) ∧
      (s.revise rule).changed = s.exprs.any fun x => (x.revise rule).changed
  | .ret _ none | .missing => by simp [Stmt.revise, Stmt.exprs, pure]
  | .ret _ (some x) | .assign _ _ _ x | .use _ _ x
  | .expr _ x => by simp [Stmt.revise, Stmt.exprs, pure, bind]
  | .ifThen _ c _ t => by
    obtain ⟨hvalue, hchanged⟩ := reviseStmts_spec t
    simp [Stmt.revise, Stmt.exprs, pure, bind, hvalue, hchanged]
  | .ifElse _ c _ t _ e => by
    obtain ⟨hvalue, hchanged⟩ := reviseStmts_spec t
    obtain ⟨hvalue', hchanged'⟩ := reviseStmts_spec e
    simp [Stmt.revise, Stmt.exprs, pure, bind, hvalue, hchanged, hvalue', hchanged']

/-- Revised statements have the revised expressions, and are marked as changed if one of them is. -/
theorem reviseStmts_spec : ∀ ss : List Stmt,
    stmtsExprs (reviseStmts rule ss).value = (stmtsExprs ss).map (fun x => (x.revise rule).value) ∧
      (reviseStmts rule ss).changed = (stmtsExprs ss).any fun x => (x.revise rule).changed
  | [] => by simp [reviseStmts, stmtsExprs, pure]
  | s :: ss => by
    obtain ⟨hvalue, hchanged⟩ := s.revise_spec
    obtain ⟨hvalue', hchanged'⟩ := reviseStmts_spec ss
    simp [reviseStmts, stmtsExprs, pure, bind, hvalue, hchanged, hvalue', hchanged']

end

mutual

theorem Stmt.value_of_unchanged :
    ∀ s : Stmt, (s.revise rule).changed = false → (s.revise rule).value = s
  | .ret _ none, _ | .missing, _ => by simp [Stmt.revise, pure]
  | .ret _ (some x), h | .assign _ _ _ x, h | .use _ _ x, h | .expr _ x, h => by
    have hx : (x.revise rule).changed = false := by simpa [Stmt.revise, pure, bind] using h
    simp [Stmt.revise, pure, bind, (Expr.of_unchanged hx).1]
  | .ifThen _ c _ t, h => by
    simp only [Stmt.revise, pure, bind, Bool.or_false, Bool.or_eq_false_iff] at h
    simp only [Stmt.revise, pure, bind, (Expr.of_unchanged h.1).1,
      reviseStmts_value_of_unchanged t h.2]
  | .ifElse _ c _ t _ e, h => by
    simp only [Stmt.revise, pure, bind, Bool.or_false, Bool.or_eq_false_iff] at h
    simp only [Stmt.revise, pure, bind, (Expr.of_unchanged h.1).1,
      reviseStmts_value_of_unchanged t h.2.1, reviseStmts_value_of_unchanged e h.2.2]

theorem reviseStmts_value_of_unchanged :
    ∀ ss : List Stmt, (reviseStmts rule ss).changed = false → (reviseStmts rule ss).value = ss
  | [], _ => by simp [reviseStmts, pure]
  | s :: ss, h => by
    simp only [reviseStmts, pure, bind, Bool.or_false, Bool.or_eq_false_iff] at h
    simp only [reviseStmts, pure, bind, s.value_of_unchanged h.1,
      reviseStmts_value_of_unchanged ss h.2]

end

end Revise

end FunRiscv
