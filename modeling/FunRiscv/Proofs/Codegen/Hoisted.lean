import Mathlib
import FunRiscv.Proofs.Codegen.Admission
import FunRiscv.Proofs.Pass.Sweeps

/-!
# Hoisting keeps what lowering admits

An operand that is hoisted is assigned at the depth of its statement, which is smaller than its own,
and after that its name has a word in the frame. The comment of the statement can be shown if it
could before: an assignment to a temporary stands no deeper than the statement itself.

* `Formatted.cause?`: why a tree has no source form. What is admitted has one
  (`Expr.Admitted.cause?_format`).
* `Hoisting.Admits`: what becomes of an expression can be lowered after the new assignments.
  `Hoisting.expr_admits`: it is so for each expression that can be lowered.
* `Hoisting.Replaces`: statements that can stand in the place of others. `Hoisting.stmts_admits`:
  hoisting makes such statements of those that can be lowered.
-/

namespace FunRiscv

/-! ### Source forms -/

namespace Formatted

variable {α β : Type} {m : Formatted α} {f : α → Formatted β} {c : Option FormatCause}

/-- Why there is no source form. -/
def cause? (m : Formatted α) : Option FormatCause :=
  match m with
  | .ok _ => none
  | .error e => some e.cause

theorem cause?_bind (h : ∀ a, cause? (f a) = c) : cause? (m >>= f) = (cause? m).or c := by
  cases m with
  | ok a => exact h a
  | error e => rfl

/-- What has a source form does not show in the cause. -/
theorem cause?_after (hm : cause? m = none) (h : ∀ a, cause? (f a) = c) : cause? (m >>= f) = c := by
  rw [cause?_bind h, hm, Option.none_or]

/-- What follows has a source form. -/
theorem cause?_before (h : ∀ a, cause? (f a) = none) : cause? (m >>= f) = cause? m := by
  rw [cause?_bind h, Option.or_none]

@[simp]
theorem cause?_inContext (label : String) (m : Formatted α) :
    cause? (inContext label m) = cause? m := by
  cases m <;> rfl

end Formatted

open Formatted (cause? cause?_bind cause?_after cause?_before cause?_inContext)

theorem Node.text_ok (n : Node) : (∃ t, n.text = .ok t) ↔ cause? n.format ≠ some .tooDeep := by
  unfold Node.text
  cases n.format with
  | ok s => exact ⟨fun _ h => (by cases h), fun _ => ⟨s, rfl⟩⟩
  | error e =>
    obtain ⟨trail, cause⟩ := e
    cases cause with
    | tooDeep => exact ⟨fun ⟨t, ht⟩ => (by cases ht), fun h => absurd rfl h⟩
    | unsupported place kind => exact ⟨fun _ h => (by cases h), fun _ => ⟨_, rfl⟩⟩

theorem Ground.shows_iff {g : Ground} {s : Stmt} :
    g.Shows s ↔ (g.comments = true → cause? (s.format 0) ≠ some .tooDeep) :=
  imp_congr_right fun _ => Node.text_ok (.stmt s)

section Source

variable {g : Ground}

mutual

/-- An expression that can be lowered has a source form. -/
theorem Expr.Admitted.cause?_format :
    ∀ {x : Expr} {vars : Set String} {depth : Nat}, x.Admitted g vars depth → cause? x.format = none
  | .uint .., _, _, _ | .int .., _, _, _ | .bool .., _, _, _ | .eraser _, _, _, _
  | .var .., _, _, _ => by
    rw [Expr.format]
    rfl
  | .binOp _ op l r, _, _, h => by
    rw [Expr.Admitted] at h
    rw [Expr.format]
    exact cause?_after ((cause?_inContext _ _).trans h.2.2.1.cause?_format) fun _ =>
      cause?_after ((cause?_inContext _ _).trans h.2.2.2.cause?_format) fun _ => rfl
  | .call _ f as ns, _, _, h => by
    obtain ⟨vloc, n, rfl, rfl⟩ := h.calls_name
    rw [Expr.Admitted] at h
    rw [Expr.format, Expr.format, formatNamed]
    exact cause?_after rfl fun _ => cause?_after (cause?_formatElems h.2.2 0) fun _ => rfl
  | .ifElse _ c t e, _, _, h => by
    rw [Expr.Admitted] at h
    rw [Expr.format]
    refine cause?_after ((cause?_inContext _ _).trans h.2.1.cause?_format) fun _ =>
      cause?_after ((cause?_inContext _ _).trans h.2.2.1.cause?_format) fun _ => ?_
    have helse := h.2.2.2.cause?_format
    split
    · exact cause?_after helse fun _ => rfl
    · exact cause?_after ((cause?_inContext _ _).trans helse) fun _ => rfl
  | .matchOn _ x cs, _, _, h => by
    rw [Expr.Admitted] at h
    rw [Expr.format]
    exact cause?_after ((cause?_inContext _ _).trans h.2.1.cause?_format) fun _ =>
      cause?_after (cause?_formatCases h.2.2 0) fun _ => rfl
  | .float .., _, _, h | .str .., _, _, h | .tuple .., _, _, h | .list .., _, _, h
  | .lambda .., _, _, h | .access .., _, _, h
  | .missing, _, _, h => by
    simp [Expr.Admitted] at h

theorem cause?_formatElems :
    ∀ {xs : List Expr} {vars : Set String} {depth : Nat}, exprsAdmitted g vars depth xs →
      ∀ i, cause? (formatElems i xs) = none
  | [], _, _, _, _ => by
    rw [formatElems]
    rfl
  | x :: xs, _, _, h, i => by
    rw [exprsAdmitted] at h
    rw [formatElems]
    exact cause?_after ((cause?_inContext _ _).trans h.1.cause?_format) fun _ =>
      cause?_after (cause?_formatElems h.2 (i + 1)) fun _ => rfl

theorem cause?_formatCases :
    ∀ {cs : List Case} {vars : Set String} {depth : Nat}, casesAdmitted g vars depth cs →
      ∀ i, cause? (formatCases i cs) = none
  | [], _, _, _, _ => by
    rw [formatCases]
    rfl
  | .mk _ p x :: cs, _, _, h, i => by
    rw [casesAdmitted] at h
    rw [formatCases]
    exact cause?_after ((cause?_inContext _ _).trans h.1.cause?_format) fun _ =>
      cause?_after ((cause?_inContext _ _).trans h.2.1.cause?_format) fun _ =>
        cause?_after (cause?_formatCases h.2.2 (i + 1)) fun _ => rfl

theorem Pattern.Admitted.cause?_format :
    ∀ {p : Pattern} {vars : Set String} {depth : Nat}, p.Admitted g vars depth →
      cause? p.format = none
  | .lit _ x, _, _, h => by
    rw [Pattern.Admitted] at h
    rw [Pattern.format]
    exact h.cause?_format
  | .var .., _, _, _ | .wild _, _, _, _ => by
    rw [Pattern.format]
    rfl

end

end Source

/-! ### Lines -/

section Lines

variable {x : Expr} {i : Nat} {loc : Location}

theorem cause?_ret (hx : cause? x.format = none) :
    cause? ((Stmt.ret loc (some x)).format i) = cause? (indent i) := by
  rw [Stmt.format]
  exact cause?_before fun _ => cause?_after ((cause?_inContext _ _).trans hx) fun _ => rfl

theorem cause?_use {n : String} (hx : cause? x.format = none) :
    cause? ((Stmt.use loc n x).format i) = cause? (indent i) := by
  rw [Stmt.format]
  exact cause?_before fun _ => cause?_after ((cause?_inContext _ _).trans hx) fun _ => rfl

theorem cause?_expr (hx : cause? x.format = none) :
    cause? ((Stmt.expr loc x).format i) = cause? (indent i) := by
  rw [Stmt.format]
  exact cause?_before fun _ => cause?_after ((cause?_inContext _ _).trans hx) fun _ => rfl

/-- The cause of a type annotation. -/
def annotationCause? : Option TypeExpr → Option FormatCause
  | none => none
  | some t => cause? t.format

theorem cause?_assign {n : String} {ty : Option TypeExpr} (hx : cause? x.format = none) :
    cause? ((Stmt.assign loc n ty x).format i) = (cause? (indent i)).or (annotationCause? ty) := by
  rw [Stmt.format]
  refine cause?_bind fun _ => ?_
  cases ty with
  | none => exact cause?_after rfl fun _ =>
    cause?_after ((cause?_inContext _ _).trans hx) fun _ => rfl
  | some t =>
    refine (cause?_before fun _ => ?_).trans (cause?_inContext _ _)
    exact cause?_after rfl fun _ => cause?_after ((cause?_inContext _ _).trans hx) fun _ => rfl

theorem cause?_ifThen {tl : Location} {t : List Stmt} (hx : cause? x.format = none) :
    cause? ((Stmt.ifThen loc x tl t).format i) =
      (cause? (indent i)).or (cause? (formatStmts (i + 1) t)) := by
  rw [Stmt.format]
  exact cause?_bind fun _ => cause?_after ((cause?_inContext _ _).trans hx) fun _ =>
    (cause?_before fun _ => rfl).trans (cause?_inContext _ _)

theorem cause?_ifElse {tl el : Location} {t e : List Stmt} (hx : cause? x.format = none) :
    cause? ((Stmt.ifElse loc x tl t el e).format i) =
      (cause? (indent i)).or
        ((cause? (formatStmts (i + 1) t)).or (cause? (formatStmts (i + 1) e))) := by
  rw [Stmt.format]
  refine cause?_bind fun _ => cause?_after ((cause?_inContext _ _).trans hx) fun _ => ?_
  rw [cause?_bind (c := cause? (formatStmts (i + 1) e)), cause?_inContext]
  exact fun _ => (cause?_before fun _ => rfl).trans (cause?_inContext _ _)

theorem cause?_formatStmts_cons (s : Stmt) (ss : List Stmt) :
    cause? (formatStmts i (s :: ss)) = (cause? (s.format i)).or (cause? (formatStmts i ss)) := by
  rw [formatStmts]
  exact cause?_bind fun _ => cause?_before fun _ => rfl

theorem cause?_formatStmts_append (ss ts : List Stmt) :
    cause? (formatStmts i (ss ++ ts)) = (cause? (formatStmts i ss)).or
      (cause? (formatStmts i ts)) := by
  induction ss with
  | nil =>
    rw [formatStmts]
    rfl
  | cons s ss ih =>
    rw [List.cons_append, cause?_formatStmts_cons, cause?_formatStmts_cons, ih, Option.or_assoc]

theorem cause?_formatStmts_singleton (s : Stmt) :
    cause? (formatStmts i [s]) = cause? (s.format i) := by
  rw [cause?_formatStmts_cons, formatStmts]
  exact Option.or_none

end Lines

theorem Ground.Shows.congr {g : Ground} {s s' : Stmt} (h : g.Shows s)
    (hcause : cause? (s'.format 0) = cause? (s.format 0)) : g.Shows s' := by
  rw [Ground.shows_iff] at h ⊢
  rwa [hcause]

namespace Hoisting

variable {g : Ground} {vars vars' : Set String} {depth inner : Nat}

/-! ### Expressions -/

theorem extends_of_straight (hreserved : ∀ k, temporaryName k ∈ g.reserved) {new : List Stmt}
    (hnew : Straight new) (htargets : ∀ n ∈ stmtsTargets new, ∃ k, n = temporaryName k)
    (vars : Set String) : g.Extends vars (stmtsAfter vars new) := by
  induction new generalizing vars with
  | nil =>
    rw [stmtsAfter]
    exact .refl g vars
  | cons t new ih =>
    obtain ⟨loc, n, x, rfl⟩ := hnew t List.mem_cons_self
    simp only [stmtsTargets, Stmt.targets, List.singleton_append, List.forall_mem_cons] at htargets
    obtain ⟨⟨k, rfl⟩, hrest⟩ := htargets
    rw [stmtsAfter, Stmt.after]
    exact ((Ground.Extends.refl g vars).insert_reserved (hreserved k)).trans
      (ih (fun u hu => hnew u (List.mem_cons_of_mem _ hu)) hrest _)

theorem Emits.extends {α : Type} {a : Hoisting α} {s s' : Temporaries} {r : α} {new : List Stmt}
    (hreserved : ∀ k, temporaryName k ∈ g.reserved) (h : Emits a s r new s') (vars : Set String) :
    g.Extends vars (stmtsAfter vars new) := by
  refine extends_of_straight hreserved h.straight (fun n hn => ?_) vars
  rw [h.targets] at hn
  obtain ⟨i, -, rfl⟩ := List.mem_map.1 hn
  exact ⟨_, rfl⟩

/-- An action puts assignments before the current statement that can be lowered at its depth. What
it gives has a property in the scope after them. -/
def Admits {α : Type} (g : Ground) (vars : Set String) (depth : Nat) (a : Hoisting α)
    (P : Set String → α → Prop) : Prop :=
  ∀ s, ∃ r new s', Emits a s r new s' ∧ stmtsAdmitted g vars depth new ∧ P (stmtsAfter vars new) r

section Actions

variable {α β : Type} {a : Hoisting α} {f : α → Hoisting β} {P : Set String → α → Prop}
  {Q : Set String → β → Prop}

theorem admits_pure {r : α} (h : P vars r) : Admits g vars depth (pure r) P := by
  refine fun s => ⟨r, [], s, emits_pure r s, ?_, ?_⟩
  · rw [stmtsAdmitted]
    trivial
  · rwa [stmtsAfter]

theorem Admits.bind (hreserved : ∀ k, temporaryName k ∈ g.reserved) (h : Admits g vars depth a P)
    (hf : ∀ vars' r, g.Extends vars vars' → P vars' r → Admits g vars' depth (f r) Q) :
    Admits g vars depth (a >>= f) Q := by
  intro s
  obtain ⟨r, new, s₁, hnew, hadmitted, hr⟩ := h s
  obtain ⟨r', more, s', hmore, hadmitted', hr'⟩ := hf _ r (hnew.extends hreserved vars) hr s₁
  refine ⟨r', new ++ more, s', hnew.bind hmore, stmtsAdmitted_append.2 ⟨hadmitted, hadmitted'⟩, ?_⟩
  rwa [stmtsAfter_append]

end Actions

/-- Every form of expression checks its depth. -/
theorem depth_of_admitted {x : Expr} (h : x.Admitted g vars depth) :
    (depth : Int) ≤ g.maxDepth := by
  cases x with
  | uint | int | var | binOp | ifElse | matchOn =>
    rw [Expr.Admitted] at h
    exact h.1
  | bool | eraser =>
    rw [Expr.Admitted] at h
    exact h
  | call loc f as ns =>
    cases f with
    | var vloc n =>
      cases ns with
      | nil =>
        rw [Expr.Admitted] at h
        exact h.1
      | cons => simp [Expr.Admitted] at h
    | _ => simp [Expr.Admitted] at h
  | _ => simp [Expr.Admitted] at h

theorem name_admits {x : Expr} (hx : x.Admitted g vars inner) (hinner : depth < inner) :
    Admits g vars depth (name x) fun vars y => y.Admitted g vars inner := by
  intro s
  obtain ⟨s', h⟩ := emits_name x s
  refine ⟨_, _, s', h, ?_, ?_⟩
  · rw [stmtsAdmitted, Stmt.Admitted, stmtsAdmitted]
    refine ⟨⟨?_, hx.mono (.refl g vars) hinner⟩, trivial⟩
    rw [Ground.shows_iff, cause?_assign hx.cause?_format]
    exact fun _ => by decide
  · simp only [stmtsAfter, Stmt.after, Expr.Admitted]
    exact ⟨depth_of_admitted hx, .inl (Set.mem_insert _ vars)⟩

section Expressions

variable (hreserved : ∀ k, temporaryName k ∈ g.reserved)

include hreserved

theorem operand_admits {x : Expr}
    (hx : Admits g vars depth (expr x) fun vars y => y.Admitted g vars inner)
    (hinner : depth < inner) :
    Admits g vars depth (simple x (expr x)) fun vars y => y.Admitted g vars inner := by
  cases hcomplex : x.isComplex with
  | false => rwa [simple_of_not_complex hcomplex]
  | true =>
    rw [simple_of_complex hcomplex]
    exact hx.bind hreserved fun _ _ _ hy => name_admits hy hinner

mutual

/-- What becomes of an expression can be lowered after the new assignments, and these
can be lowered. -/
theorem expr_admits : ∀ {x : Expr} {vars : Set String} {inner : Nat}, x.Admitted g vars inner →
    depth < inner → Admits g vars depth (expr x) fun vars y => y.Admitted g vars inner
  | .uint .., _, _, h, _ | .int .., _, _, h, _ | .bool .., _, _, h, _ | .eraser _, _, _, h, _
  | .var .., _, _, h, _ => by
    rw [expr]
    exact admits_pure h
  | .binOp loc op l r, _, _, h, hinner => by
    rw [Expr.Admitted] at h
    obtain ⟨hdepth, hop, hl, hr⟩ := h
    rw [expr_binOp]
    refine (operand_admits hreserved (expr_admits hl (by omega)) (by omega)).bind hreserved
      fun vars₁ l' h₁ hl' => ?_
    have hright := hr.mono h₁ (Nat.le_refl _)
    refine (operand_admits hreserved (expr_admits hright (by omega)) (by omega)).bind hreserved
      fun vars₂ r' h₂ hr' => admits_pure ?_
    rw [Expr.Admitted]
    exact ⟨hdepth, hop, hl'.mono h₂ (Nat.le_refl _), hr'⟩
  | .call loc f as ns, _, _, h, hinner => by
    obtain ⟨vloc, n, rfl, rfl⟩ := h.calls_name
    rw [Expr.Admitted] at h
    obtain ⟨hdepth, ⟨⟨hvar, hnew, hfun⟩, hcount⟩, has⟩ := h
    rw [expr_call, simple_of_not_complex rfl, expr, pure_bind, namedOperands]
    refine (operands_admits has (by omega)).bind hreserved fun vars' as' h' has' => ?_
    rw [pure_bind]
    refine admits_pure ?_
    rw [Expr.Admitted]
    exact ⟨hdepth, ⟨⟨fun hn => (h'.new n hn).elim hvar hnew, hnew, hfun⟩, has'.2.symm ▸ hcount⟩,
      has'.1⟩
  | .ifElse loc c t e, _, _, h, hinner => by
    rw [Expr.Admitted] at h
    obtain ⟨hdepth, hc, ht, he⟩ := h
    rw [expr_ifElse]
    refine (expr_admits hc (by omega)).bind hreserved fun vars' c' h' hc' => admits_pure ?_
    rw [Expr.Admitted]
    exact ⟨hdepth, hc', ht.mono h' (Nat.le_refl _), he.mono h' (Nat.le_refl _)⟩
  | .matchOn loc x cs, _, _, h, hinner => by
    rw [Expr.Admitted] at h
    obtain ⟨hdepth, hx, hcs⟩ := h
    rw [expr_matchOn]
    refine (expr_admits hx (by omega)).bind hreserved fun vars' x' h' hx' => admits_pure ?_
    rw [Expr.Admitted]
    exact ⟨hdepth, hx', casesAdmitted_mono hcs h' (Nat.le_refl _)⟩
  | .float .., _, _, h, _ | .str .., _, _, h, _ | .tuple .., _, _, h, _ | .list .., _, _, h, _
  | .lambda .., _, _, h, _
  | .access .., _, _, h, _ | .missing, _, _, h, _ => by
    simp [Expr.Admitted] at h

theorem operands_admits :
    ∀ {xs : List Expr} {vars : Set String} {inner : Nat}, exprsAdmitted g vars inner xs →
      depth < inner →
      Admits g vars depth (operands xs) fun vars ys => exprsAdmitted g vars inner ys ∧
        ys.length = xs.length
  | [], _, _, h, _ => by
    rw [operands]
    exact admits_pure ⟨h, rfl⟩
  | x :: xs, _, _, h, hinner => by
    rw [exprsAdmitted] at h
    rw [operands]
    refine (operand_admits hreserved (expr_admits h.1 hinner) hinner).bind hreserved
      fun vars₁ x' h₁ hx' => ?_
    refine (operands_admits (exprsAdmitted_mono h.2 h₁ (Nat.le_refl _)) hinner).bind hreserved
      fun vars₂ xs' h₂ hxs' => ?_
    refine admits_pure ⟨?_, congrArg (· + 1) hxs'.2⟩
    rw [exprsAdmitted]
    exact ⟨hx'.mono h₂ (Nat.le_refl _), hxs'.1⟩

end

end Expressions

/-! ### Statements -/

/-- Statements that stand in the place of others: they can be lowered, variables that are in scope
after the others are so after them, and they can be shown if the others can. -/
structure Replaces (g : Ground) (vars : Set String) (depth : Nat) (ss ss' : List Stmt) : Prop where
  admitted : stmtsAdmitted g vars depth ss'
  scope : g.Extends (stmtsAfter vars ss) (stmtsAfter vars ss')
  shown : ∀ i, cause? (formatStmts i ss') = cause? (formatStmts i ss)

variable {ss ss' ts ts' : List Stmt}

theorem Replaces.refl (h : stmtsAdmitted g vars depth ss) : Replaces g vars depth ss ss :=
  ⟨h, .refl _ _, fun _ => rfl⟩

theorem Replaces.append (h : Replaces g vars depth ss ss')
    (h' : Replaces g (stmtsAfter vars ss') depth ts ts') :
    Replaces g vars depth (ss ++ ts) (ss' ++ ts') where
  admitted := stmtsAdmitted_append.2 ⟨h.admitted, h'.admitted⟩
  scope := by
    rw [stmtsAfter_append, stmtsAfter_append]
    exact (h.scope.stmts ts).trans h'.scope
  shown i := by rw [cause?_formatStmts_append, cause?_formatStmts_append, h.shown i, h'.shown i]

/-- Assignments of values that can be lowered need no more than a line at their depth. -/
theorem cause?_straight {new : List Stmt} (hnew : Straight new)
    (hadmitted : stmtsAdmitted g vars depth new) (i : Nat) (c : Option FormatCause) :
    (cause? (formatStmts i new)).or ((cause? (indent i)).or c) = (cause? (indent i)).or c := by
  induction new generalizing vars with
  | nil =>
    rw [formatStmts]
    rfl
  | cons t new ih =>
    obtain ⟨loc, n, x, rfl⟩ := hnew t List.mem_cons_self
    rw [stmtsAdmitted, Stmt.Admitted] at hadmitted
    rw [cause?_formatStmts_cons, Option.or_assoc,
      ih (fun u hu => hnew u (List.mem_cons_of_mem _ hu)) hadmitted.2,
      cause?_assign hadmitted.1.2.cause?_format]
    cases cause? (indent i) <;> rfl

/-- What becomes of a statement whose first expression is hoisted. -/
structure Head (g : Ground) (vars : Set String) (depth : Nat) (x' : Expr) (new : List Stmt) :
    Prop where
  straight : Straight new
  admitted : stmtsAdmitted g vars depth new
  scope : g.Extends vars (stmtsAfter vars new)
  left : x'.Admitted g (stmtsAfter vars new) (depth + 1)

theorem head_admits (hreserved : ∀ k, temporaryName k ∈ g.reserved) {x : Expr}
    (hx : x.Admitted g vars (depth + 1)) (s : Temporaries) :
    ∃ x' new s', Emits (expr x) s x' new s' ∧ Head g vars depth x' new := by
  obtain ⟨x', new, s', h, hadmitted, hx'⟩ := expr_admits hreserved hx (Nat.lt_succ_self depth) s
  exact ⟨x', new, s', h, h.straight, hadmitted, h.extends hreserved vars, hx'⟩

/-- A statement stands for another after new assignments: it needs no further lines. -/
theorem Head.replaces {x' : Expr} {new : List Stmt} (h : Head g vars depth x' new) {t t' : Stmt}
    (hadmitted : g.Shows t' → t'.Admitted g (stmtsAfter vars new) depth) (hshows : g.Shows t)
    (hscope : g.Extends (t.after vars) (t'.after (stmtsAfter vars new)))
    (hlines : ∀ i, ∃ c, cause? (t.format i) = (cause? (indent i)).or c ∧
      cause? (t'.format i) = (cause? (indent i)).or c) :
    Replaces g vars depth [t] (new ++ [t']) where
  admitted := by
    refine stmtsAdmitted_append.2 ⟨h.admitted, ?_⟩
    obtain ⟨c, hc, hc'⟩ := hlines 0
    rw [stmtsAdmitted, stmtsAdmitted]
    exact ⟨hadmitted (hshows.congr (hc'.trans hc.symm)), trivial⟩
  scope := by
    rw [stmtsAfter_append, stmtsAfter, stmtsAfter, stmtsAfter, stmtsAfter]
    exact hscope
  shown i := by
    obtain ⟨c, hc, hc'⟩ := hlines i
    rw [cause?_formatStmts_append, cause?_formatStmts_singleton, cause?_formatStmts_singleton,
      hc, hc', cause?_straight h.straight h.admitted]

/-- What becomes of statements that can be lowered. What is pending stays so. -/
def AdmitsStmts (g : Ground) (vars : Set String) (depth : Nat) (act : Hoisting (List Stmt))
    (ss : List Stmt) : Prop :=
  ∀ s : Temporaries, ∃ ss' s', (act.run s).value = (ss', s') ∧ s'.pending = s.pending ∧
    Replaces g vars depth ss ss'

/-- A statement with one expression. -/
theorem leaf_admits (hreserved : ∀ k, temporaryName k ∈ g.reserved) {x : Expr}
    (hx : x.Admitted g vars (depth + 1)) (make : Expr → Stmt)
    (hstmt : stmt (make x) = orShared (do return make (← expr x)) (make x))
    (hadmitted : ∀ vars y, g.Shows (make y) → y.Admitted g vars (depth + 1) →
      (make y).Admitted g vars depth) (hshows : g.Shows (make x))
    (hafter : ∀ y vars, (make y).after vars = (make x).after vars)
    (hlines : ∀ i, ∃ c, ∀ y :
      Expr, cause? y.format = none → cause? ((make y).format i) = (cause? (indent i)).or c) :
    AdmitsStmts g vars depth (placed (make x)) [make x] := by
  intro s
  obtain ⟨x', new, s', hx', hhead⟩ := head_admits hreserved hx { s with pending := [] }
  have hrun : ((stmt (make x)).run { s with pending := [] }).value = (make x', s') := by
    rw [stmt_leaf make hstmt, value_bind hx'.run]
    rfl
  refine ⟨new ++ [make x'], { s' with pending := s.pending }, ?_, rfl,
    hhead.replaces (fun h => hadmitted _ _ h hhead.left) hshows ?_ fun i => ?_⟩
  · rw [value_placed hrun, hx'.pending_reverse]
  · rw [hafter x']
    exact hhead.scope.stmt (make x)
  · obtain ⟨c, hc⟩ := hlines i
    exact ⟨c, hc x hx.cause?_format, hc x' hhead.left.cause?_format⟩

mutual

theorem stmt_admits (hreserved : ∀ k, temporaryName k ∈ g.reserved) :
    ∀ {t : Stmt} {vars : Set String} {depth : Nat}, t.Admitted g vars depth →
      AdmitsStmts g vars depth (placed t) [t]
  | .ret loc none, _, _, h => by
    refine fun s => ⟨[.ret loc none], s, by rw [placed_of_still (by rw [Still, stmt])]; rfl,
      rfl, .refl ?_⟩
    rw [stmtsAdmitted, stmtsAdmitted]
    exact ⟨h, trivial⟩
  | .ret loc (some x), _, _, h => by
    rw [Stmt.Admitted] at h
    refine leaf_admits hreserved h.2 (fun x => .ret loc (some x)) (by rw [stmt])
      (fun vars y hy hadmitted => ?_) h.1 (fun y vars => by rw [Stmt.after, Stmt.after]) fun i =>
        ⟨none, fun y hy => (cause?_ret hy).trans Option.or_none.symm⟩
    rw [Stmt.Admitted]
    exact ⟨hy, hadmitted⟩
  | .assign loc n ty x, _, _, h => by
    rw [Stmt.Admitted] at h
    refine leaf_admits hreserved h.2 (fun x => .assign loc n ty x) (by rw [stmt])
      (fun vars y hy hadmitted => ?_) h.1 (fun y vars => by rw [Stmt.after, Stmt.after]) fun i =>
        ⟨annotationCause? ty, fun y hy => cause?_assign hy⟩
    rw [Stmt.Admitted]
    exact ⟨hy, hadmitted⟩
  | .use loc n x, _, _, h => by
    rw [Stmt.Admitted] at h
    refine leaf_admits hreserved h.2 (fun x => .use loc n x) (by rw [stmt])
      (fun vars y hy hadmitted => ?_) h.1 (fun y vars => by rw [Stmt.after, Stmt.after]) fun i =>
        ⟨none, fun y hy => (cause?_use hy).trans Option.or_none.symm⟩
    rw [Stmt.Admitted]
    exact ⟨hy, hadmitted⟩
  | .expr loc x, _, _, h => by
    rw [Stmt.Admitted] at h
    refine leaf_admits hreserved h.2 (fun x => .expr loc x) (by rw [stmt])
      (fun vars y hy hadmitted => ?_) h.1 (fun y vars => by rw [Stmt.after, Stmt.after]) fun i =>
        ⟨none, fun y hy => (cause?_expr hy).trans Option.or_none.symm⟩
    rw [Stmt.Admitted]
    exact ⟨hy, hadmitted⟩
  | .ifThen loc c tl t, vars, depth, h => by
    rw [Stmt.Admitted] at h
    obtain ⟨hshows, hc, hdepth, ht⟩ := h
    intro s
    obtain ⟨c', new, s₁, hc', hhead⟩ := head_admits hreserved hc { s with pending := [] }
    obtain ⟨t', s', ht', hs', hreplaces⟩ :=
      stmts_admits hreserved (stmtsAdmitted_mono ht hhead.scope) s₁
    have hrun : ((stmt (.ifThen loc c tl t)).run { s with pending := [] }).value =
      (.ifThen loc c' tl t', s') := by
      rw [stmt_ifThen, value_bind hc'.run, value_bind ht']
      rfl
    refine ⟨new ++ [Stmt.ifThen loc c' tl t'], { s' with pending := s.pending }, ?_, rfl,
      hhead.replaces (fun h => ?_) hshows ?_ fun i => ?_⟩
    · rw [value_placed hrun, hs', hc'.pending_reverse]
    · rw [Stmt.Admitted]
      exact ⟨h, hhead.left, hdepth, hreplaces.admitted⟩
    · rw [Stmt.after, Stmt.after]
      exact (hhead.scope.stmts t).trans hreplaces.scope
    · refine ⟨_, cause?_ifThen hc.cause?_format, ?_⟩
      rw [cause?_ifThen hhead.left.cause?_format, hreplaces.shown]
  | .ifElse loc c tl t el e, vars, depth, h => by
    rw [Stmt.Admitted] at h
    obtain ⟨hshows, hc, hdepth, ht, he⟩ := h
    intro s
    obtain ⟨c', new, s₁, hc', hhead⟩ := head_admits hreserved hc { s with pending := [] }
    obtain ⟨t', s₂, ht', hs₂, hthen⟩ :=
      stmts_admits hreserved (stmtsAdmitted_mono ht hhead.scope) s₁
    have hscope := (hhead.scope.stmts t).trans hthen.scope
    obtain ⟨e', s', he', hs', helse⟩ := stmts_admits hreserved (stmtsAdmitted_mono he hscope) s₂
    have hrun : ((stmt (.ifElse loc c tl t el e)).run { s with pending := [] }).value =
        (.ifElse loc c' tl t' el e', s') := by
      rw [stmt_ifElse, value_bind hc'.run, value_bind ht', value_bind he']
      rfl
    refine ⟨new ++ [Stmt.ifElse loc c' tl t' el e'], { s' with pending := s.pending }, ?_, rfl,
      hhead.replaces (fun h => ?_) hshows ?_ fun i => ?_⟩
    · rw [value_placed hrun, hs', hs₂, hc'.pending_reverse]
    · rw [Stmt.Admitted]
      exact ⟨h, hhead.left, hdepth, hthen.admitted, helse.admitted⟩
    · rw [Stmt.after, Stmt.after]
      exact (hscope.stmts e).trans helse.scope
    · refine ⟨_, cause?_ifElse hc.cause?_format, ?_⟩
      rw [cause?_ifElse hhead.left.cause?_format, hthen.shown, helse.shown]
  | .missing, _, _, h => by
    rw [Stmt.Admitted] at h
    exact h.elim

/-- Statements that can be lowered become statements that can stand in their place. -/
theorem stmts_admits (hreserved : ∀ k, temporaryName k ∈ g.reserved) :
    ∀ {ss : List Stmt} {vars : Set String} {depth : Nat}, stmtsAdmitted g vars depth ss →
      AdmitsStmts g vars depth (stmts ss) ss
  | [], _, _, h => fun s => ⟨[], s, by rw [stmts]; rfl, rfl, .refl h⟩
  | t :: ss, vars, depth, h => by
    rw [stmtsAdmitted] at h
    intro s
    obtain ⟨ts, s₁, hrunt, hs₁, ht⟩ := stmt_admits hreserved h.1 s
    have hscope := ht.scope
    rw [stmtsAfter, stmtsAfter] at hscope
    obtain ⟨ss', s', hrun, hs', hss⟩ := stmts_admits hreserved (stmtsAdmitted_mono h.2 hscope) s₁
    refine ⟨ts ++ ss', s', ?_, hs'.trans hs₁, ht.append hss⟩
    rw [stmts_cons, value_bind hrunt, value_bind hrun]
    rfl

end

end Hoisting

end FunRiscv
