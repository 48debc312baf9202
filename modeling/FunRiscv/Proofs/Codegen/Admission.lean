import Mathlib
import FunRiscv.Proofs.Codegen.Shape
import FunRiscv.Surface.Nodes

/-!
# What lowering admits

Whether an expression or a statement can be lowered depends on its form, on how deeply it is nested,
on which names have a word in the frame and on which names mean functions. Of what was handed out
before it nothing matters.

* `Ground`: what lowering checks a function against.
* `Expr.Admitted`, `Stmt.Admitted`, `NamedFunction.Admitted`: the condition. `Expr.Admitted.mono`:
  it stays true at a smaller depth and with more variables, as long as these are names that were
  reserved for variables.
* `Expr.Admitted.reserve`: names by which no function is called may be kept for variables.
* `Lowering.Decides`: an action succeeds on a condition and on no other.
* `lowerExpr_decides`, `lowerStmts_decides`, `lowerFunction_decides`: lowering succeeds exactly
  on what is admitted.
-/

namespace FunRiscv

/-! ### The condition -/

/-- What lowering checks a function against. -/
structure Ground where
  /-- The names that mean functions. -/
  functions : Set String
  /-- Names that are kept for variables: no function may be called by one of them. -/
  reserved : Set String
  /-- How deeply blocks and expressions may be nested. -/
  maxDepth : Int
  /-- Whether statements are shown in comments. -/
  comments : Bool

/-- What is checked in a context. -/
def LowerContext.ground (c : LowerContext) (reserved : Set String) : Ground where
  functions := {n | (c.functionLabel? n).isSome = true}
  reserved := reserved
  maxDepth := c.maxDepth
  comments := c.comments

/-- A statement has a form that its comment can show, if there are comments. -/
def Ground.Shows (g : Ground) (s : Stmt) : Prop :=
  g.comments = true → ∃ t, (Node.stmt s).text = .ok t

/-- The variables in scope where a pattern fits. -/
def Pattern.after (vars : Set String) : Pattern → Set String
  | .var _ n => insert n vars
  | .lit .. | .wild _ | .cons .. | .tuple .. | .missing => vars

mutual

/-- An expression can be lowered at a depth where some variables are in scope. -/
def Expr.Admitted (g : Ground) (vars : Set String) (depth : Nat) : Expr → Prop
  | .uint _ v => depth ≤ g.maxDepth ∧ v.toNat ≤ Lowering.maxUnsigned
  | .int _ v => depth ≤ g.maxDepth ∧ Lowering.minSigned ≤ v.toInt ∧ v.toInt ≤ Lowering.maxSigned
  | .bool .. | .eraser _ => depth ≤ g.maxDepth
  | .var _ n => depth ≤ g.maxDepth ∧ (n ∈ vars ∨ n ∈ g.functions)
  | .binOp _ op l r => depth ≤ g.maxDepth ∧ op ≠ .pow ∧ l.Admitted g vars (depth + 1) ∧ r.Admitted g
    vars (depth + 1)
  | .call _ (.var _ n) as [] =>
    depth ≤ g.maxDepth ∧ ((n ∉ vars ∧ n ∉ g.reserved ∧ n ∈ g.functions) ∧
      as.length ≤ Reg.argCount) ∧ exprsAdmitted g vars (depth + 1) as
  | .ifElse _ c t e =>
    depth ≤ g.maxDepth ∧ c.Admitted g vars (depth + 1) ∧ t.Admitted g vars (depth + 1) ∧
      e.Admitted g vars (depth + 1)
  | .matchOn _ x cs =>
    depth ≤ g.maxDepth ∧ x.Admitted g vars (depth + 1) ∧ casesAdmitted g vars (depth + 1) cs
  | .call .. | .float .. | .str .. | .tuple .. | .list .. | .lambda .. | .access ..
  | .missing => False

def exprsAdmitted (g : Ground) (vars : Set String) (depth : Nat) : List Expr → Prop
  | [] => True
  | x :: xs => x.Admitted g vars depth ∧ exprsAdmitted g vars depth xs

def casesAdmitted (g : Ground) (vars : Set String) (depth : Nat) : List Case → Prop
  | [] => True
  | .mk _ p x :: cs => p.Admitted g vars depth ∧ x.Admitted g (p.after vars) depth ∧ casesAdmitted g
    vars depth cs

/-- A pattern can be lowered. -/
def Pattern.Admitted (g : Ground) (vars : Set String) (depth : Nat) : Pattern → Prop
  | .lit _ x => x.Admitted g vars depth
  | .var .. | .wild _ => True
  | .cons .. | .tuple .. | .missing => False

end

mutual

/-- The variables in scope after a statement: each that was assigned has a word, also after
the arm that did so. -/
def Stmt.after (vars : Set String) : Stmt → Set String
  | .assign _ n _ _ | .use _ n _ => insert n vars
  | .ifThen _ _ _ t => stmtsAfter vars t
  | .ifElse _ _ _ t _ e => stmtsAfter (stmtsAfter vars t) e
  | .ret .. | .expr .. | .missing => vars

/-- The variables in scope after statements. -/
def stmtsAfter (vars : Set String) : List Stmt → Set String
  | [] => vars
  | s :: ss => stmtsAfter (s.after vars) ss

end

mutual

/-- A statement can be lowered in a block at a depth. -/
def Stmt.Admitted (g : Ground) (vars : Set String) (depth : Nat) : Stmt → Prop
  | .ret loc none => g.Shows (.ret loc none)
  | .ret loc (some x) => g.Shows (.ret loc (some x)) ∧ x.Admitted g vars (depth + 1)
  | .assign loc n type x => g.Shows (.assign loc n type x) ∧ x.Admitted g vars (depth + 1)
  | .use loc n x => g.Shows (.use loc n x) ∧ x.Admitted g vars (depth + 1)
  | .ifThen loc c tl t =>
    g.Shows (.ifThen loc c tl t) ∧ c.Admitted g vars (depth + 1) ∧ (depth + 1 : Nat) ≤ g.maxDepth ∧
      stmtsAdmitted g vars (depth + 1) t
  | .ifElse loc c tl t el e => g.Shows (.ifElse loc c tl t el e) ∧ c.Admitted g vars (depth + 1) ∧
      (depth + 1 : Nat) ≤ g.maxDepth ∧ stmtsAdmitted g vars (depth + 1) t ∧
      stmtsAdmitted g (stmtsAfter vars t) (depth + 1) e
  | .expr loc x => g.Shows (.expr loc x) ∧ x.Admitted g vars (depth + 1)
  | .missing => False

/-- Statements of a block at a depth can be lowered. -/
def stmtsAdmitted (g : Ground) (vars : Set String) (depth : Nat) : List Stmt → Prop
  | [] => True
  | s :: ss => s.Admitted g vars depth ∧ stmtsAdmitted g (s.after vars) depth ss

end

/-- What a function is checked against in a program with some functions. -/
def groundOf (opts : CodegenOptions) (functions : List String) (reserved : Set String)
    (f : NamedFunction) : Ground :=
  (Lowering.contextOf opts functions f "").ground reserved

/-- A function can be lowered. -/
def NamedFunction.Admitted (opts : CodegenOptions) (functions : List String) (reserved : Set String)
    (f : NamedFunction) : Prop :=
  f.func.params.length ≤ Reg.argCount ∧ (1 : Nat) ≤ opts.maxDepth ∧
    stmtsAdmitted (groundOf opts functions reserved f) {n | n ∈ f.func.params.map (·.name)} 1
      f.func.body.stmts

/-! ### More variables -/

section Mono

variable {g : Ground} {vars vars' : Set String} {depth depth' : Nat}

/-- There are more variables, all with names that were reserved for them. -/
structure Ground.Extends (g : Ground) (vars vars' : Set String) : Prop where
  old : vars ⊆ vars'
  new : ∀ n ∈ vars', n ∈ vars ∨ n ∈ g.reserved

namespace Ground.Extends

theorem refl (g : Ground) (vars : Set String) : g.Extends vars vars :=
  ⟨Set.Subset.rfl, fun _ => .inl⟩

theorem trans {vars'' : Set String} (h : g.Extends vars vars') (h' : g.Extends vars' vars'') :
    g.Extends vars vars'' where
  old := h.old.trans h'.old
  new n hn := (h'.new n hn).elim (h.new n) .inr

theorem insert (h : g.Extends vars vars') (n : String) :
    g.Extends (insert n vars) (insert n vars') where
  old := Set.insert_subset_insert h.old
  new m hm := hm.elim (fun hm => .inl (.inl hm)) fun hm => (h.new m hm).imp_left .inr

theorem insert_reserved (h : g.Extends vars vars') {n : String} (hn : n ∈ g.reserved) :
    g.Extends vars (Insert.insert n vars') where
  old := h.old.trans (Set.subset_insert n vars')
  new m hm := hm.elim (fun hm => .inr (hm ▸ hn)) (h.new m)

theorem pattern (h : g.Extends vars vars') (p : Pattern) :
    g.Extends (p.after vars) (p.after vars') := by
  cases p with
  | var loc n => exact h.insert n
  | _ => exact h

mutual

theorem stmt :
    ∀ (s : Stmt) {vars vars' : Set String}, g.Extends vars vars' →
      g.Extends (s.after vars) (s.after vars')
  | .assign _ n _ _, _, _, h | .use _ n _, _, _, h => by
    rw [Stmt.after, Stmt.after]
    exact h.insert n
  | .ifThen _ _ _ t, _, _, h => by
    rw [Stmt.after, Stmt.after]
    exact stmts t h
  | .ifElse _ _ _ t _ e, _, _, h => by
    rw [Stmt.after, Stmt.after]
    exact stmts e (stmts t h)
  | .ret .., _, _, h | .expr .., _, _, h | .missing, _, _, h => by
    rw [Stmt.after, Stmt.after]
    exact h

theorem stmts :
    ∀ (ss : List Stmt) {vars vars' : Set String}, g.Extends vars vars' →
      g.Extends (stmtsAfter vars ss) (stmtsAfter vars' ss)
  | [], _, _, h => by
    rw [stmtsAfter, stmtsAfter]
    exact h
  | s :: ss, _, _, h => by
    rw [stmtsAfter, stmtsAfter]
    exact stmts ss (stmt s h)

end

end Ground.Extends

/-- What can be lowered calls a function by its name, and gives no argument by name. -/
theorem Expr.Admitted.calls_name {loc : Location} {f : Expr} {as : List Expr} {ns : List NamedArg}
    (h : (Expr.call loc f as ns).Admitted g vars depth) : ∃ vloc n, f = .var vloc n ∧ ns = [] := by
  cases f with
  | var vloc n =>
    cases ns with
    | nil => exact ⟨vloc, n, rfl, rfl⟩
    | cons => simp [Expr.Admitted] at h
  | _ => simp [Expr.Admitted] at h

theorem depth_le (hd : depth' ≤ depth) (h : (depth : Int) ≤ g.maxDepth) :
    (depth' : Int) ≤ g.maxDepth :=
  le_trans (Int.ofNat_le.2 hd) h

mutual

/-- More variables of reserved names and a smaller depth do no harm. -/
theorem Expr.Admitted.mono :
    ∀ {x : Expr} {vars vars' : Set String} {depth depth' : Nat}, x.Admitted g vars depth →
      g.Extends vars vars' → depth' ≤ depth → x.Admitted g vars' depth'
  | .uint .., _, _, _, _, h, _, hd | .int .., _, _, _, _, h, _, hd => by
    rw [Expr.Admitted] at h ⊢
    exact ⟨depth_le hd h.1, h.2⟩
  | .bool .., _, _, _, _, h, _, hd | .eraser _, _, _, _, _, h, _, hd => by
    rw [Expr.Admitted] at h ⊢
    exact depth_le hd h
  | .var _ n, _, _, _, _, h, hv, hd => by
    rw [Expr.Admitted] at h ⊢
    exact ⟨depth_le hd h.1, h.2.imp_left fun hn => hv.old hn⟩
  | .binOp _ op l r, _, _, _, _, h, hv, hd => by
    rw [Expr.Admitted] at h ⊢
    exact ⟨depth_le hd h.1, h.2.1, h.2.2.1.mono hv (Nat.succ_le_succ hd),
      h.2.2.2.mono hv (Nat.succ_le_succ hd)⟩
  | .call _ f as ns, _, _, _, _, h, hv, hd => by
    obtain ⟨vloc, n, rfl, rfl⟩ := h.calls_name
    rw [Expr.Admitted] at h ⊢
    obtain ⟨hdepth, ⟨⟨hvar, hreserved, hfun⟩, hcount⟩, has⟩ := h
    exact ⟨depth_le hd hdepth, ⟨⟨fun hn => (hv.new n hn).elim hvar hreserved, hreserved, hfun⟩,
      hcount⟩,
      exprsAdmitted_mono has hv (Nat.succ_le_succ hd)⟩
  | .ifElse _ c t e, _, _, _, _, h, hv, hd => by
    rw [Expr.Admitted] at h ⊢
    exact ⟨depth_le hd h.1, h.2.1.mono hv (Nat.succ_le_succ hd),
      h.2.2.1.mono hv (Nat.succ_le_succ hd), h.2.2.2.mono hv (Nat.succ_le_succ hd)⟩
  | .matchOn _ x cs, _, _, _, _, h, hv, hd => by
    rw [Expr.Admitted] at h ⊢
    exact ⟨depth_le hd h.1, h.2.1.mono hv (Nat.succ_le_succ hd),
      casesAdmitted_mono h.2.2 hv (Nat.succ_le_succ hd)⟩
  | .float .., _, _, _, _, h, _, _ | .str .., _, _, _, _, h, _, _ | .tuple .., _, _, _, _, h, _, _
  | .list .., _, _, _, _, h, _, _
  | .lambda .., _, _, _, _, h, _, _ | .access .., _, _, _, _, h, _, _
  | .missing, _, _, _, _, h, _, _ => by
    simp [Expr.Admitted] at h

theorem exprsAdmitted_mono :
    ∀ {xs : List Expr} {vars vars' : Set String} {depth depth' : Nat},
      exprsAdmitted g vars depth xs → g.Extends vars vars' → depth' ≤ depth →
        exprsAdmitted g vars' depth' xs
  | [], _, _, _, _, _, _, _ => trivial
  | _ :: _, _, _, _, _, h, hv, hd => by
    rw [exprsAdmitted] at h ⊢
    exact ⟨h.1.mono hv hd, exprsAdmitted_mono h.2 hv hd⟩

theorem casesAdmitted_mono :
    ∀ {cs : List Case} {vars vars' : Set String} {depth depth' : Nat},
      casesAdmitted g vars depth cs → g.Extends vars vars' → depth' ≤ depth →
        casesAdmitted g vars' depth' cs
  | [], _, _, _, _, _, _, _ => trivial
  | .mk _ p x :: cs, _, _, _, _, h, hv, hd => by
    rw [casesAdmitted] at h ⊢
    exact ⟨h.1.mono hv hd, h.2.1.mono (hv.pattern p) hd, casesAdmitted_mono h.2.2 hv hd⟩

theorem Pattern.Admitted.mono :
    ∀ {p : Pattern} {vars vars' : Set String} {depth depth' : Nat}, p.Admitted g vars depth →
      g.Extends vars vars' → depth' ≤ depth → p.Admitted g vars' depth'
  | .lit _ x, _, _, _, _, h, hv, hd => by
    rw [Pattern.Admitted] at h ⊢
    exact h.mono hv hd
  | .var .., _, _, _, _, _, _, _ | .wild _, _, _, _, _, _, _, _ => by
    rw [Pattern.Admitted]
    trivial

end

mutual

theorem Stmt.Admitted.mono :
    ∀ {s : Stmt} {vars vars' : Set String} {depth : Nat}, s.Admitted g vars depth →
      g.Extends vars vars' → s.Admitted g vars' depth
  | .ret _ none, _, _, _, h, _ => by
    rw [Stmt.Admitted] at h ⊢
    exact h
  | .ret _ (some _), _, _, _, h, hv | .assign .., _, _, _, h, hv | .use .., _, _, _, h, hv
  | .expr .., _, _, _, h, hv => by
    rw [Stmt.Admitted] at h ⊢
    exact ⟨h.1, h.2.mono hv (Nat.le_refl _)⟩
  | .ifThen .., _, _, _, h, hv => by
    rw [Stmt.Admitted] at h ⊢
    exact ⟨h.1, h.2.1.mono hv (Nat.le_refl _), h.2.2.1, stmtsAdmitted_mono h.2.2.2 hv⟩
  | .ifElse _ _ _ t _ _, _, _, _, h, hv => by
    rw [Stmt.Admitted] at h ⊢
    exact ⟨h.1, h.2.1.mono hv (Nat.le_refl _), h.2.2.1, stmtsAdmitted_mono h.2.2.2.1 hv,
      stmtsAdmitted_mono h.2.2.2.2 (hv.stmts t)⟩
  | .missing, _, _, _, h, _ => by
    rw [Stmt.Admitted] at h
    exact h.elim

theorem stmtsAdmitted_mono :
    ∀ {ss : List Stmt} {vars vars' : Set String} {depth : Nat}, stmtsAdmitted g vars depth ss →
      g.Extends vars vars' → stmtsAdmitted g vars' depth ss
  | [], _, _, _, _, _ => by
    rw [stmtsAdmitted]
    trivial
  | s :: _, _, _, _, h, hv => by
    rw [stmtsAdmitted] at h ⊢
    exact ⟨h.1.mono hv, stmtsAdmitted_mono h.2 (hv.stmt s)⟩

end

theorem stmtsAfter_append (vars : Set String) (ss ts : List Stmt) :
    stmtsAfter vars (ss ++ ts) = stmtsAfter (stmtsAfter vars ss) ts := by
  induction ss generalizing vars with
  | nil => rw [List.nil_append, stmtsAfter]
  | cons s ss ih => rw [List.cons_append, stmtsAfter, stmtsAfter, ih]

theorem stmtsAdmitted_append {ss ts : List Stmt} :
    stmtsAdmitted g vars depth (ss ++ ts) ↔ stmtsAdmitted g vars depth ss ∧
      stmtsAdmitted g (stmtsAfter vars ss) depth ts := by
  induction ss generalizing vars with
  | nil => rw [List.nil_append, stmtsAdmitted, stmtsAfter, true_and]
  | cons s ss ih => rw [List.cons_append, stmtsAdmitted, stmtsAdmitted, stmtsAfter, ih, and_assoc]

end Mono

/-! ### Reserved names -/

/-- The name by which an expression calls a function. -/
def Expr.callee? : Expr → Option String
  | .call _ (.var _ n) _ _ => some n
  | _ => none

/-- Other names are kept for variables. -/
def Ground.reserving (g : Ground) (reserved : Set String) : Ground := { g with reserved }

section Reserve

variable {g : Ground} {R : Set String}

mutual

/-- Names by which an expression calls no function may be kept for variables. -/
theorem Expr.Admitted.reserve :
    ∀ {x : Expr} {vars : Set String} {depth : Nat}, x.Admitted g vars depth →
      (∀ y ∈ x.nodes, ∀ n ∈ R, y.callee? ≠ some n) → x.Admitted (g.reserving R) vars depth
  | .uint .., _, _, h, _ | .int .., _, _, h, _ | .bool .., _, _, h, _ | .eraser _, _, _, h, _
  | .var .., _, _, h, _ => by
    rw [Expr.Admitted] at h ⊢
    exact h
  | .binOp _ op l r, _, _, h, hR => by
    rw [Expr.Admitted] at h ⊢
    simp only [Expr.nodes, List.forall_mem_cons, List.forall_mem_append] at hR
    exact ⟨h.1, h.2.1, h.2.2.1.reserve hR.2.1, h.2.2.2.reserve hR.2.2⟩
  | .call _ f as ns, _, _, h, hR => by
    obtain ⟨vloc, n, rfl, rfl⟩ := h.calls_name
    rw [Expr.Admitted] at h ⊢
    simp only [Expr.nodes, List.forall_mem_cons, List.forall_mem_append] at hR
    obtain ⟨hdepth, ⟨⟨hvar, -, hfun⟩, hcount⟩, has⟩ := h
    exact ⟨hdepth, ⟨⟨hvar, fun hn => hR.1 n hn rfl, hfun⟩, hcount⟩,
      exprsAdmitted_reserve has hR.2.1.2⟩
  | .ifElse _ c t e, _, _, h, hR => by
    rw [Expr.Admitted] at h ⊢
    simp only [Expr.nodes, List.forall_mem_cons, List.forall_mem_append] at hR
    exact ⟨h.1, h.2.1.reserve hR.2.1.1, h.2.2.1.reserve hR.2.1.2, h.2.2.2.reserve hR.2.2⟩
  | .matchOn _ x cs, _, _, h, hR => by
    rw [Expr.Admitted] at h ⊢
    simp only [Expr.nodes, List.forall_mem_cons, List.forall_mem_append] at hR
    exact ⟨h.1, h.2.1.reserve hR.2.1, casesAdmitted_reserve h.2.2 hR.2.2⟩
  | .float .., _, _, h, _ | .str .., _, _, h, _ | .tuple .., _, _, h, _ | .list .., _, _, h, _
  | .lambda .., _, _, h, _
  | .access .., _, _, h, _ | .missing, _, _, h, _ => by
    simp [Expr.Admitted] at h

theorem exprsAdmitted_reserve :
    ∀ {xs : List Expr} {vars : Set String} {depth : Nat}, exprsAdmitted g vars depth xs →
      (∀ y ∈ exprsNodes xs, ∀ n ∈ R, y.callee? ≠ some n) →
      exprsAdmitted (g.reserving R) vars depth xs
  | [], _, _, _, _ => trivial
  | _ :: _, _, _, h, hR => by
    rw [exprsAdmitted] at h ⊢
    rw [exprsNodes, List.forall_mem_append] at hR
    exact ⟨h.1.reserve hR.1, exprsAdmitted_reserve h.2 hR.2⟩

theorem casesAdmitted_reserve :
    ∀ {cs : List Case} {vars : Set String} {depth : Nat}, casesAdmitted g vars depth cs →
      (∀ y ∈ casesNodes cs, ∀ n ∈ R, y.callee? ≠ some n) →
      casesAdmitted (g.reserving R) vars depth cs
  | [], _, _, _, _ => trivial
  | .mk _ p x :: cs, _, _, h, hR => by
    rw [casesAdmitted] at h ⊢
    rw [casesNodes, List.forall_mem_append, List.forall_mem_append] at hR
    exact ⟨h.1.reserve hR.1.1, h.2.1.reserve hR.1.2, casesAdmitted_reserve h.2.2 hR.2⟩

theorem Pattern.Admitted.reserve :
    ∀ {p : Pattern} {vars : Set String} {depth : Nat}, p.Admitted g vars depth →
      (∀ y ∈ p.nodes, ∀ n ∈ R, y.callee? ≠ some n) → p.Admitted (g.reserving R) vars depth
  | .lit _ x, _, _, h, hR => by
    rw [Pattern.Admitted] at h ⊢
    exact h.reserve hR
  | .var .., _, _, _, _ | .wild _, _, _, _, _ => by
    rw [Pattern.Admitted]
    trivial

end

mutual

theorem Stmt.Admitted.reserve :
    ∀ {s : Stmt} {vars : Set String} {depth : Nat}, s.Admitted g vars depth →
      (∀ y ∈ s.nodes, ∀ n ∈ R, y.callee? ≠ some n) → s.Admitted (g.reserving R) vars depth
  | .ret _ none, _, _, h, _ => by
    rw [Stmt.Admitted] at h ⊢
    exact h
  | .ret _ (some _), _, _, h, hR | .assign .., _, _, h, hR | .use .., _, _, h, hR
  | .expr .., _, _, h, hR => by
    rw [Stmt.Admitted] at h ⊢
    rw [Stmt.nodes] at hR
    exact ⟨h.1, h.2.reserve hR⟩
  | .ifThen .., _, _, h, hR => by
    rw [Stmt.Admitted] at h ⊢
    rw [Stmt.nodes, List.forall_mem_append] at hR
    exact ⟨h.1, h.2.1.reserve hR.1, h.2.2.1, stmtsAdmitted_reserve h.2.2.2 hR.2⟩
  | .ifElse .., _, _, h, hR => by
    rw [Stmt.Admitted] at h ⊢
    rw [Stmt.nodes, List.forall_mem_append, List.forall_mem_append] at hR
    exact ⟨h.1, h.2.1.reserve hR.1.1, h.2.2.1, stmtsAdmitted_reserve h.2.2.2.1 hR.1.2,
      stmtsAdmitted_reserve h.2.2.2.2 hR.2⟩
  | .missing, _, _, h, _ => by
    rw [Stmt.Admitted] at h
    exact h.elim

theorem stmtsAdmitted_reserve :
    ∀ {ss : List Stmt} {vars : Set String} {depth : Nat}, stmtsAdmitted g vars depth ss →
      (∀ y ∈ stmtsNodes ss, ∀ n ∈ R, y.callee? ≠ some n) →
      stmtsAdmitted (g.reserving R) vars depth ss
  | [], _, _, _, _ => by
    rw [stmtsAdmitted]
    trivial
  | _ :: _, _, _, h, hR => by
    rw [stmtsAdmitted] at h ⊢
    rw [stmtsNodes, List.forall_mem_append] at hR
    exact ⟨h.1.reserve hR.1, stmtsAdmitted_reserve h.2 hR.2⟩

end

theorem NamedFunction.Admitted.reserve {opts : CodegenOptions} {functions : List String}
    {R' : Set String} {f : NamedFunction} (h : f.Admitted opts functions R')
    (hR : ∀ y ∈ stmtsNodes f.func.body.stmts, ∀ n ∈ R, y.callee? ≠ some n) :
    f.Admitted opts functions R :=
  ⟨h.1, h.2.1, stmtsAdmitted_reserve h.2.2 hR⟩

end Reserve

/-! ### Words -/

/-- The names of the variables in scope. -/
def Slots.words (slots : Slots) : Set String := {n | (slots.lookup n).isSome = true}

@[simp]
theorem Slots.mem_words {slots : Slots} {n : String} :
    n ∈ slots.words ↔ (slots.lookup n).isSome = true := Iff.rfl

theorem Slots.words_cons (slots : Slots) (n : String) (o : Int32) :
    Slots.words ((n, o) :: slots) = insert n slots.words := by
  ext m
  rw [mem_words, Lowering.lookup_cons_name, Set.mem_insert_iff, mem_words]
  by_cases hm : m = n <;> simp [hm]

namespace Lowering

/-! ### Actions that are decided -/

/-- An action succeeds on a condition, whatever was handed out before, and on no other. What it
gives has a property. -/
structure Decides {α : Type} (m : Lowering α) (p : Prop) (Q : α → Prop) : Prop where
  gives : p → ∀ s, ∃ a s', Gives m s a s'
  only : ∀ s a s', Gives m s a s' → p ∧ Q a

section Decides

variable {α β : Type} {m : Lowering α} {f : α → Lowering β} {p q : Prop} {Q : α → Prop}
  {R : β → Prop}

theorem decides_pure {a : α} (h : Q a) : Decides (pure a) True Q where
  gives _ s := ⟨a, s, gives_pure.2 ⟨rfl, rfl⟩⟩
  only s b s' hb := by
    obtain ⟨rfl, -⟩ := gives_pure.1 hb
    exact ⟨trivial, h⟩

theorem decides_fail (loc : Location) (cause : CodegenCause) :
    Decides (fail loc cause) False Q where
  gives h := h.elim
  only _ _ _ h := absurd h not_gives_fail

theorem Decides.bind (h : Decides m p Q) (hf : ∀ a, Q a → Decides (f a) q R) :
    Decides (m >>= f) (p ∧ q) R where
  gives hpq s := by
    obtain ⟨a, s₁, ha⟩ := h.gives hpq.1 s
    obtain ⟨b, s₂, hb⟩ := (hf a (h.only _ _ _ ha).2).gives hpq.2 s₁
    exact ⟨b, s₂, gives_bind.2 ⟨a, s₁, ha, hb⟩⟩
  only s b s' hb := by
    obtain ⟨a, s₁, ha, hb⟩ := gives_bind.1 hb
    obtain ⟨hp, hQ⟩ := h.only _ _ _ ha
    obtain ⟨hq, hR⟩ := (hf a hQ).only _ _ _ hb
    exact ⟨⟨hp, hq⟩, hR⟩

/-- What follows an action that always succeeds decides. -/
theorem Decides.after (h : Decides m True Q) (hf : ∀ a, Q a → Decides (f a) q R) :
    Decides (m >>= f) q R := by
  simpa using h.bind hf

/-- What always succeeds may follow. -/
theorem Decides.before (h : Decides m p Q) (hf : ∀ a, Q a → Decides (f a) True R) :
    Decides (m >>= f) p R := by
  simpa using h.bind hf

theorem Decides.congr (h : Decides m p Q) (hpq : p ↔ q) : Decides m q Q where
  gives hq := h.gives (hpq.2 hq)
  only s a s' ha := (h.only s a s' ha).imp_left hpq.1

theorem Decides.unless {b : Prop} [Decidable b] (h : Decides m p Q) (loc : Location)
    (cause : CodegenCause) : Decides (if b then fail loc cause else m) (¬b ∧ p) Q := by
  split
  · next hb => exact (decides_fail loc cause).congr (by simp [hb])
  · next hb => exact h.congr (by simp [hb])

end Decides

theorem decides_newReg : Decides newReg True fun _ => True :=
  ⟨fun _ _ => ⟨_, _, gives_newReg.2 ⟨rfl, rfl⟩⟩, fun _ _ _ _ => ⟨trivial, trivial⟩⟩

theorem decides_newLabel (stem : String) : Decides (newLabel stem) True fun _ => True :=
  ⟨fun _ _ => ⟨_, _, gives_newLabel.2 ⟨rfl, rfl⟩⟩, fun _ _ _ _ => ⟨trivial, trivial⟩⟩

theorem decides_newSlot : Decides newSlot True fun _ => True :=
  ⟨fun _ _ => ⟨_, _, gives_newSlot.2 ⟨rfl, rfl⟩⟩, fun _ _ _ _ => ⟨trivial, trivial⟩⟩

theorem decides_checkDepth (c : LowerContext) (depth : Nat) (loc : Location) :
    Decides (checkDepth c depth loc) (depth ≤ c.maxDepth) fun _ => True := by
  refine ((decides_pure (a := ()) trivial).unless loc (.nesting c.maxDepth)).congr ?_
  rw [and_true, not_lt]

theorem decides_constant (n : Int32) : Decides (constant n) True fun _ => True :=
  decides_newReg.after fun _ _ => decides_pure trivial

theorem decides_operator (op : Operator) (l r : Reg) :
    Decides (operator op l r) True fun _ => True := by
  refine decides_newReg.after fun d _ => ?_
  dsimp only
  split
  · exact decides_newReg.after fun _ _ => decides_pure trivial
  · exact (decides_pure (a := d) (Q := fun _ => True) trivial).after fun _ _ => decides_pure trivial

/-! ### Expressions -/

section Expressions

variable {c : LowerContext}

theorem decides_loadVariable (slots : Slots) (loc : Location) (n : String) :
    Decides (loadVariable c slots loc n) (n ∈ slots.words ∨ n ∈ (c.ground ∅).functions) fun _ =>
      True := by
  refine decides_newReg.after fun r _ => ?_
  split
  · next o ho => exact (decides_pure trivial).congr (by simp [ho])
  · next hnone =>
    split
    · next l hl => exact (decides_pure trivial).congr (by simp [LowerContext.ground, hl])
    · next hl => exact (decides_fail _ _).congr (by simp [LowerContext.ground, hnone, hl])

theorem decides_callee (slots : Slots) (loc vloc : Location) (n : String) (count : Nat) :
    Decides (callee c slots loc (.var vloc n) count false)
      ((n ∉ slots.words ∧ n ∉ (c.ground ∅).reserved ∧ n ∈ (c.ground ∅).functions) ∧
        count ≤ Reg.argCount) fun _ => True := by
  unfold callee
  dsimp only
  split
  · next o ho => exact (decides_fail _ _).congr (by simp [ho])
  · next hnone hl => exact (decides_fail _ _).congr (by simp [LowerContext.ground, hl])
  · next l hnone hl =>
    refine ((decides_pure trivial).unless loc _).congr ?_
    simp [LowerContext.ground, hnone, hl]

mutual

/-- An expression can be lowered exactly if it is admitted. -/
theorem lowerExpr_decides : ∀ (x : Expr) (slots : Slots) (depth : Nat),
    Decides (lowerExpr c slots depth x) (x.Admitted (c.ground ∅) slots.words depth) fun _ => True
  | .uint loc v, slots, depth => by
    rw [lowerExpr, Expr.Admitted]
    refine (decides_checkDepth c depth loc).bind fun _ _ =>
      ((decides_constant _).unless loc _).congr ?_
    rw [and_true, not_lt]
  | .int loc v, slots, depth => by
    rw [lowerExpr, Expr.Admitted]
    refine (decides_checkDepth c depth loc).bind fun _ _ =>
      ((decides_constant _).unless loc _).congr ?_
    rw [and_true, not_or, not_lt, not_lt]
  | .bool loc v, slots, depth => by
    rw [lowerExpr, Expr.Admitted]
    exact (decides_checkDepth c depth loc).before fun _ _ => decides_constant _
  | .eraser loc, slots, depth => by
    rw [lowerExpr, Expr.Admitted]
    exact (decides_checkDepth c depth loc).before fun _ _ => decides_constant _
  | .var loc n, slots, depth => by
    rw [lowerExpr, Expr.Admitted]
    exact (decides_checkDepth c depth loc).bind fun _ _ => decides_loadVariable slots loc n
  | .binOp loc op l r, slots, depth => by
    rw [lowerExpr, Expr.Admitted]
    refine (decides_checkDepth c depth loc).bind fun _ _ => Decides.unless ?_ loc _
    exact (lowerExpr_decides l slots (depth + 1)).bind fun _ _ =>
      (lowerExpr_decides r slots (depth + 1)).before fun _ _ =>
      (decides_operator op _ _).after fun _ _ => decides_pure trivial
  | .call loc f as ns, slots, depth => by
    have hother : (∀ vloc n, f = .var vloc n → (!ns.isEmpty) = true) →
        Decides (lowerExpr c slots depth (.call loc f as ns)) False fun _ => True := by
      refine fun h => ⟨False.elim, fun s r s' hr => ?_⟩
      obtain ⟨code, r⟩ := r
      obtain ⟨rfl, -, vloc, n, _, _, _, _, rfl, -⟩ := gives_call hr
      cases h vloc n rfl
    cases f with
    | var vloc n =>
      cases ns with
      | nil =>
        rw [lowerExpr, Expr.Admitted]
        exact (decides_checkDepth c depth loc).bind fun _ _ =>
          (decides_callee slots loc vloc n as.length).bind fun _ _ =>
          (lowerArgs_decides as slots (depth + 1)).before fun _ _ =>
            decides_newReg.after fun _ _ => decides_pure trivial
      | cons a ns => exact hother (by simp)
    | _ => exact hother (by simp)
  | .ifElse loc x t e, slots, depth => by
    rw [lowerExpr, Expr.Admitted]
    refine (decides_checkDepth c depth loc).bind fun _ _ =>
      (lowerExpr_decides x slots (depth + 1)).bind fun _ _ => ?_
    refine decides_newReg.after fun _ _ =>
      (decides_newLabel _).after fun _ _ => (decides_newLabel _).after fun _ _ =>
      (decides_newLabel _).after fun _ _ =>
        (lowerExpr_decides t slots (depth + 1)).bind fun _ _ => ?_
    exact (lowerExpr_decides e slots (depth + 1)).before fun _ _ => decides_pure trivial
  | .matchOn loc x cs, slots, depth => by
    rw [lowerExpr, Expr.Admitted]
    refine (decides_checkDepth c depth loc).bind fun _ _ =>
      (lowerExpr_decides x slots (depth + 1)).bind fun _ _ => ?_
    exact decides_newReg.after fun _ _ => (decides_newLabel _).after fun _ _ =>
      (lowerCases_decides cs slots (depth + 1) _ _ _).before fun _ _ => decides_pure trivial
  | .float loc _, slots, depth | .str loc _, slots, depth | .tuple loc _, slots, depth
  | .list loc _, slots, depth
  | .lambda loc _ _, slots, depth | .access loc _ _, slots, depth | .missing, slots, depth => by
    rw [lowerExpr, Expr.Admitted]
    exact ((decides_checkDepth c depth _).bind fun _ _ => decides_fail _ _).congr (by simp)

theorem lowerArgs_decides : ∀ (xs : List Expr) (slots : Slots) (depth : Nat),
    Decides (lowerArgs c slots depth xs) (exprsAdmitted (c.ground ∅) slots.words depth xs) fun _ =>
      True
  | [], slots, depth => by
    rw [lowerArgs, exprsAdmitted]
    exact decides_pure trivial
  | x :: xs, slots, depth => by
    rw [lowerArgs, exprsAdmitted]
    exact (lowerExpr_decides x slots depth).bind fun _ _ =>
      (lowerArgs_decides xs slots depth).before fun _ _ => decides_pure trivial

theorem lowerCases_decides :
    ∀ (cs : List Case) (slots : Slots) (depth : Nat) (x d : Reg) (l : String),
      Decides (lowerCases c slots depth x d l cs) (casesAdmitted (c.ground ∅) slots.words depth cs)
        fun _ => True
  | [], slots, depth, _, _, _ => by
    rw [lowerCases, casesAdmitted]
    exact decides_pure trivial
  | .mk _ p b :: cs, slots, depth, x, d, l => by
    rw [lowerCases, casesAdmitted]
    refine (decides_newLabel _).after fun _ _ => (lowerPattern_decides p slots depth x _).bind ?_
    rintro ⟨test, inner⟩ hinner
    have hbody := lowerExpr_decides b inner depth
    rw [hinner] at hbody
    exact hbody.bind fun _ _ => (lowerCases_decides cs slots depth x d l).before fun _ _ =>
      decides_pure trivial

theorem lowerPattern_decides :
    ∀ (p : Pattern) (slots : Slots) (depth : Nat) (x : Reg) (next : String),
      Decides (lowerPattern c slots depth x next p) (p.Admitted (c.ground ∅) slots.words depth)
        fun r => r.2.words = p.after slots.words
  | .lit _ v, slots, depth, _, _ => by
    rw [lowerPattern, Pattern.Admitted]
    exact (lowerExpr_decides v slots depth).before fun _ _ => decides_pure rfl
  | .var _ n, slots, _, _, _ => by
    rw [lowerPattern, Pattern.Admitted]
    exact decides_newSlot.after fun o _ => decides_pure (slots.words_cons n o)
  | .wild _, _, _, _, _ => by
    rw [lowerPattern, Pattern.Admitted]
    exact decides_pure rfl
  | .cons .., _, _, _, _ | .tuple .., _, _, _, _ | .missing, _, _, _, _ => by
    rw [lowerPattern, Pattern.Admitted]
    exact decides_fail _ _

end

/-! ### Statements -/

theorem decides_describe {st : Stmt} (h : st ≠ .missing) :
    Decides (describe st) (∃ t, (Node.stmt st).text = .ok t) fun _ => True := by
  unfold describe
  split
  · exact absurd rfl h
  · split
    · next t ht => exact (decides_pure trivial).congr (by simp [ht])
    · next e he => exact (decides_fail _ _).congr (by simp [he])

theorem decides_note {α : Type} {st : Stmt} {k : Listing → Lowering α} {p : Prop} {Q : α → Prop}
    (h : st ≠ .missing) (hk : ∀ note, Decides (k note) p Q) :
    Decides (if c.comments then describe st >>= fun i => pure [i] >>= k else pure [] >>= k)
      ((c.ground ∅).Shows st ∧ p) Q := by
  simp only [pure_bind]
  split
  · next hc =>
      exact ((decides_describe h).bind fun i _ => hk [i]).congr
        (by simp [Ground.Shows, LowerContext.ground, hc])
  · next hc => exact (hk []).congr (by simp [Ground.Shows, LowerContext.ground, hc])

theorem decides_slotOf (slots : Slots) (n : String) :
    Decides (slotOf slots n) True fun r => r.2.words = insert n slots.words := by
  unfold slotOf
  split
  · next o ho =>
    refine decides_pure ?_
    rw [Set.insert_eq_of_mem]
    simp [ho]
  · exact decides_newSlot.after fun o _ => decides_pure (slots.words_cons n o)

theorem lowerStore_decides (slots : Slots) (depth : Nat) (n : String) (x : Expr) :
    Decides (lowerStore c slots depth n x) (x.Admitted (c.ground ∅) slots.words depth) fun r =>
      r.2.words = insert n slots.words := by
  refine (lowerExpr_decides x slots depth).before fun _ _ => (decides_slotOf slots n).after ?_
  rintro ⟨o, inner⟩ hinner
  exact decides_pure hinner

theorem decides_return_none (slots : Slots) (depth : Nat) (last : Bool) :
    Decides (lowerReturn c slots depth last none) True fun _ => True :=
  (decides_pure (a := ([], Reg.zero)) (Q := fun _ => True) trivial).after fun _ _ =>
    decides_pure trivial

theorem decides_return_some (slots : Slots) (depth : Nat) (last : Bool) (x : Expr) :
    Decides (lowerReturn c slots depth last (some x)) (x.Admitted (c.ground ∅) slots.words depth)
      fun _ => True :=
  (lowerExpr_decides x slots depth).before fun _ _ => decides_pure trivial

mutual

theorem lowerStmt_decides : ∀ (st : Stmt) (slots : Slots) (depth : Nat) (last : Bool),
    Decides (lowerStmt c slots depth last st) (st.Admitted (c.ground ∅) slots.words depth) fun r =>
      r.2.words = st.after slots.words
  | .ret loc none, slots, depth, last => by
    rw [lowerStmt, Stmt.Admitted]
    refine Decides.congr (p := _ ∧ True) ?_ (and_iff_left trivial)
    exact decides_note (by simp) fun note =>
      (decides_return_none slots (depth + 1) last).after fun code _ => decides_pure rfl
  | .ret loc (some x), slots, depth, last => by
    rw [lowerStmt, Stmt.Admitted]
    exact decides_note (by simp) fun note =>
      (decides_return_some slots (depth + 1) last x).before fun code _ => decides_pure rfl
  | .assign loc n type x, slots, depth, last => by
    rw [lowerStmt, Stmt.Admitted]
    refine decides_note (by simp) fun note => (lowerStore_decides slots (depth + 1) n x).before ?_
    rintro ⟨code, inner⟩ hinner
    exact decides_pure hinner
  | .use loc n x, slots, depth, last => by
    rw [lowerStmt, Stmt.Admitted]
    refine decides_note (by simp) fun note => (lowerStore_decides slots (depth + 1) n x).before ?_
    rintro ⟨code, inner⟩ hinner
    exact decides_pure hinner
  | .ifThen loc x tl t, slots, depth, last => by
    rw [lowerStmt, Stmt.Admitted]
    refine decides_note (by simp) fun note =>
      (lowerExpr_decides x slots (depth + 1)).bind fun _ _ => ?_
    refine (decides_newLabel _).after fun _ _ =>
      (decides_newLabel _).after fun _ _ => (decides_newLabel _).after fun _ _ => ?_
    refine (decides_checkDepth c (depth + 1) tl).bind fun _ _ =>
      (lowerStmts_decides t slots (depth + 1) false).before ?_
    rintro ⟨code, inner⟩ hinner
    exact decides_pure hinner
  | .ifElse loc x tl t el e, slots, depth, last => by
    rw [lowerStmt, Stmt.Admitted]
    refine decides_note (by simp) fun note =>
      (lowerExpr_decides x slots (depth + 1)).bind fun _ _ => ?_
    refine (decides_newLabel _).after fun _ _ =>
      (decides_newLabel _).after fun _ _ => (decides_newLabel _).after fun _ _ => ?_
    -- The depth of the second block is that of the first.
    refine ((decides_checkDepth c (depth + 1) tl).bind fun _ _ =>
      (lowerStmts_decides t slots (depth + 1) false).bind ?_).congr
      (and_congr_right fun hdepth => and_congr_right fun _ => and_iff_right hdepth)
    rintro ⟨code, inner⟩ hinner
    have helse := lowerStmts_decides e inner (depth + 1) false
    rw [hinner] at helse
    refine (decides_checkDepth c (depth + 1) el).bind fun _ _ => helse.before ?_
    rintro ⟨code', inner'⟩ hinner'
    exact decides_pure hinner'
  | .expr loc x, slots, depth, last => by
    rw [lowerStmt, Stmt.Admitted]
    exact decides_note (by simp) fun note =>
      (lowerExpr_decides x slots (depth + 1)).before fun _ _ => decides_pure rfl
  | .missing, slots, depth, last => by
    rw [Stmt.Admitted]
    refine ⟨False.elim, fun s r s' h => ?_⟩
    obtain ⟨code, inner⟩ := r
    exact absurd h not_gives_missing

theorem lowerStmts_decides : ∀ (ss : List Stmt) (slots : Slots) (depth : Nat) (top : Bool),
    Decides (lowerStmts c slots depth top ss) (stmtsAdmitted (c.ground ∅) slots.words depth ss)
      fun r => r.2.words = stmtsAfter slots.words ss
  | [], slots, depth, top => by
    rw [lowerStmts, stmtsAdmitted, stmtsAfter]
    exact decides_pure rfl
  | st :: ss, slots, depth, top => by
    rw [lowerStmts, stmtsAdmitted, stmtsAfter]
    refine (lowerStmt_decides st slots depth _).bind ?_
    rintro ⟨code, inner⟩ hinner
    have hrest := lowerStmts_decides ss inner depth top
    rw [hinner] at hrest
    refine hrest.before ?_
    rintro ⟨rest, inner'⟩ hinner'
    exact decides_pure hinner'

end

/-! ### Functions -/

theorem lowerParams_decides (ps : List Param) (i : Nat) (slots : Slots) :
    Decides (lowerParams i slots ps) True fun r =>
      r.2.words = slots.words ∪ {n | n ∈ ps.map (·.name)} := by
  induction ps generalizing i slots with
  | nil =>
    rw [lowerParams]
    exact decides_pure (by simp)
  | cons p ps ih =>
    rw [lowerParams]
    refine decides_newSlot.after fun o _ => (ih (i + 1) ((p.name, o) :: slots)).after ?_
    rintro ⟨code, inner⟩ hinner
    refine decides_pure (hinner.trans ?_)
    ext n
    simp only [Slots.words_cons, List.map_cons, List.mem_cons, Set.mem_union, Set.mem_insert_iff,
      Set.mem_ofPred_eq]
    tauto

theorem lowerBody_decides (slots : Slots) (b : Block) : Decides (lowerBody c slots b)
    ((1 : Nat) ≤ c.maxDepth ∧ stmtsAdmitted (c.ground ∅) slots.words 1 b.stmts) fun _ => True :=
  (decides_checkDepth c 1 b.loc).bind fun _ _ =>
    (lowerStmts_decides b.stmts slots 1 true).before fun _ _ => decides_pure trivial

end Expressions

/-- A function can be lowered exactly if it is admitted. -/
theorem lowerFunction_decides (opts : CodegenOptions) (functions : List String)
    (f : NamedFunction) :
    Decides (lowerFunction opts functions f) (f.Admitted opts functions ∅) fun _ => True := by
  rw [lowerFunction]
  dsimp only
  split
  · next hcount =>
    refine ⟨fun h => absurd h.1 (Nat.not_le.2 hcount), fun s lf s' h => ?_⟩
    obtain ⟨_, _, hfail, -⟩ := gives_bind.1 h
    exact absurd hfail not_gives_fail
  · next hcount =>
    refine ((decides_newLabel "ret").after fun exit _ =>
      (lowerParams_decides f.func.params 0 []).after ?_).congr
      (and_iff_right (Nat.not_lt.1 hcount)).symm
    rintro ⟨code, inner⟩ hinner
    have hbody := lowerBody_decides (c := contextOf opts functions f exit) inner f.func.body
    rw [hinner] at hbody
    refine (hbody.before fun _ _ => decides_pure trivial).congr ?_
    have hwords : Slots.words [] ∪ {n | n ∈ f.func.params.map (·.name)} =
      {n | n ∈ f.func.params.map (·.name)} := by
      ext n
      simp
    rw [hwords]
    rfl

end Lowering

end FunRiscv
