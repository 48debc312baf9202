import Mathlib
import FunRiscv.Proofs.Pass.Children
import FunRiscv.Proofs.Pass.Mentions

/-!
# Rewriting with shared nodes

* `Revised.Keeps`: a value that is not marked as changed is the one it came from.
* `shareList_eq`: a list copied from the first change on is the list of what became of its members.
* `Expr.rewrite_byRule`, `shareStmts_byRule`: rewriting by a rule does the same with
  and without sharing.
* `Program.revise_eq`: a revised program, from what becomes of its bodies without sharing.
-/

namespace FunRiscv

/-! ### Kept values -/

instance : LawfulMonad Revised :=
  LawfulMonad.mk' Revised (fun x => by simp [Functor.map]) (fun x f => by simp [bind, pure])
    (fun x f g => by simp [bind, Bool.or_assoc])

namespace Revised

variable {α β : Type} {r : Revised α} {a : α}

/-- A value that is not marked as changed is the one it came from. -/
def Keeps (r : Revised α) (a : α) : Prop := r.changed = false → r.value = a

theorem Keeps.orShared (h : r.Keeps a) : r.orShared a = r := by
  rw [Revised.orShared]
  by_cases hr : r.changed = true
  · rw [if_pos hr]
  · rw [if_neg hr]
    obtain ⟨value, changed⟩ := r
    obtain rfl : changed = false := by simpa using hr
    obtain rfl : value = a := h rfl
    rfl

theorem Keeps.bind {f : α → Revised β} {b : β} (h : r.Keeps a) (hf : (f a).Keeps b) :
    (r >>= f).Keeps b := by
  intro hr
  obtain ⟨hfirst, hsecond⟩ : r.changed = false ∧ (f r.value).changed = false := by
    simpa [Bind.bind] using hr
  rw [h hfirst] at hsecond
  show (f r.value).value = b
  rw [h hfirst, hf hsecond]

theorem keeps_pure (a : α) : (pure a : Revised α).Keeps a := fun _ => rfl

theorem keeps_byRule (rule : α → Option α) (a : α) : (byRule rule a).Keeps a := by
  rw [byRule]
  cases rule a with
  | none => exact keeps_pure a
  | some b =>
    intro h
    cases h

end Revised

/-! ### Shared lists -/

section Share

variable {α : Type} {g : α → Revised α} (hg : ∀ x, (g x).Keeps x)

include hg

theorem copyFrom_some (xs : List α) (i : Nat) (rest : List α) (copy : Array α) :
    copyFrom xs i rest (rest.map g) (some copy) =
      some (copy ++ (rest.map fun x => (g x).value).toArray) := by
  induction rest generalizing i copy with
  | nil => simp [copyFrom]
  | cons x rest ih =>
    have hmember : (if (g x).changed then (g x).value else x) = (g x).value := by
      by_cases hx : (g x).changed = true
      · rw [if_pos hx]
      · rw [if_neg hx, hg x (by simpa using hx)]
    rw [List.map_cons, copyFrom, copyMember, hmember, ih]
    simp

/-- There is no copy of a list without a change; the first change copies the members before it, and
the others follow. -/
theorem copyFrom_none (before rest : List α) :
    copyFrom (before ++ rest) before.length rest (rest.map g) none =
      if rest.any fun x => (g x).changed then some (before ++ rest.map fun x => (g x).value).toArray
        else none := by
  induction rest generalizing before with
  | nil => simp [copyFrom]
  | cons x rest ih =>
    rw [List.map_cons, copyFrom, copyMember, List.any_cons]
    by_cases hx : (g x).changed = true
    · rw [if_pos hx, copyFrom_some hg, hx]
      simp
    · have hrun := ih (before ++ [x])
      rw [List.append_assoc, List.singleton_append, List.length_append, List.length_singleton]
        at hrun
      rw [if_neg hx, hrun, List.map_cons, hg x (by simpa using hx), List.append_assoc,
        List.singleton_append]
      simp [hx]

/-- A list copied from the first change on is the list of what became of its members. -/
theorem shareList_eq (xs : List α) :
    shareList xs (xs.map g) = ⟨xs.map fun x => (g x).value, xs.any fun x => (g x).changed⟩ := by
  have hcopy := copyFrom_none hg [] xs
  rw [List.nil_append, List.length_nil] at hcopy
  rw [shareList, hcopy]
  by_cases hxs : (xs.any fun x => (g x).changed) = true
  · rw [if_pos hxs, hxs]
    rfl
  · have hsame : ∀ x ∈ xs, (g x).value = x := by
      intro x hx
      have := List.any_eq_false.1 (by simpa using hxs) x hx
      exact hg x (by simpa using this)
    rw [if_neg hxs, List.map_congr_left hsame, List.map_id']
    simp only [Bool.not_eq_true] at hxs
    rw [hxs]
    rfl

end Share

/-! ### Kept definitions -/

/-- How actions keep the values they come from, which goes from the parts of an action
to the whole. -/
structure Keeping (m : Type → Type) [Monad m] where
  Keeps : {α : Type} → m α → α → Prop
  pure : ∀ {α : Type} (a : α), Keeps (Pure.pure a) a
  bind : ∀ {α β : Type} {act : m α} {f : α → m β} {a : α} {b : β},
    Keeps act a → Keeps (f a) b → Keeps (act >>= f) b

/-- Values are kept unless they are marked. -/
def Revised.keeping : Keeping Revised where
  Keeps := Revised.Keeps
  pure := Revised.keeps_pure
  bind := Revised.Keeps.bind

section Functions

variable {m : Type → Type} [Monad m] (K : Keeping m) {f : FuncDef → m FuncDef}

theorem keeps_mapFuncs (hf : ∀ d, K.Keeps (f d) d) : ∀ ds : List FuncDef, K.Keeps (mapFuncs f ds) ds
  | [] => K.pure []
  | d :: ds => K.bind (hf d) (K.bind (keeps_mapFuncs hf ds) (K.pure _))

mutual

theorem Definition.keeps_mapFunctions (hf : ∀ d, K.Keeps (f d) d) :
    ∀ d : Definition, K.Keeps (d.mapFunctions f) d
  | .func d => K.bind (hf d) (K.pure _)
  | .object d => K.bind (keeps_mapFuncs K hf d.funcs) (K.pure _)
  | .module _ _ ds => K.bind (keeps_mapDefinitions hf ds) (K.pure _)
  | .type _ => K.pure _
  | .alias _ => K.pure _

theorem keeps_mapDefinitions (hf : ∀ d, K.Keeps (f d) d) :
    ∀ ds : List Definition, K.Keeps (mapDefinitions f ds) ds
  | [] => K.pure []
  | d :: ds => K.bind (d.keeps_mapFunctions hf) (K.bind (keeps_mapDefinitions hf ds) (K.pure _))

end

/-- A program is kept if its functions are. -/
theorem Program.keeps_mapFunctions (hf : ∀ d, K.Keeps (f d) d) (p : Program) :
    K.Keeps (p.mapFunctions f) p :=
  K.bind (keeps_mapDefinitions K hf p.defs) (K.pure _)

end Functions

/-! ### Rewriting by a rule -/

section Rule

variable (rule : Expr → Option Expr)

theorem Expr.keeps_revise (x : Expr) : (x.revise rule).Keeps x := fun h => (Expr.of_unchanged h).1

theorem keeps_reviseExprs : ∀ es : List Expr, (reviseExprs rule es).Keeps es
  | [] => Revised.keeps_pure []
  | x :: xs => by
    rw [reviseExprs]
    exact (x.keeps_revise rule).bind ((keeps_reviseExprs xs).bind (Revised.keeps_pure _))

theorem keeps_reviseNamed : ∀ ns : List NamedArg, (reviseNamed rule ns).Keeps ns
  | [] => Revised.keeps_pure []
  | .mk loc name x :: rest => by
    rw [reviseNamed]
    exact (x.keeps_revise rule).bind ((keeps_reviseNamed rest).bind (Revised.keeps_pure _))

theorem keeps_reviseCases : ∀ cs : List Case, (reviseCases rule cs).Keeps cs
  | [] => Revised.keeps_pure []
  | .mk loc p x :: rest => by
    rw [reviseCases]
    exact (x.keeps_revise rule).bind ((keeps_reviseCases rest).bind (Revised.keeps_pure _))

theorem shareExprs_eq (es : List Expr) :
    shareList es (es.map fun x => x.revise rule) = reviseExprs rule es := by
  rw [shareList_eq (Expr.keeps_revise rule), ← reviseExprs_value, ← reviseExprs_changed]

theorem shareNamed_eq (ns : List NamedArg) :
    shareList ns (ns.map fun n => (do return .mk n.loc n.name (← n.value.revise rule))) =
      reviseNamed rule ns := by
  have hkeeps : ∀ n : NamedArg, Revised.Keeps (do return .mk n.loc n.name (← n.value.revise rule))
    n := by
    rintro ⟨loc, name, x⟩
    exact (x.keeps_revise rule).bind (Revised.keeps_pure _)
  rw [shareList_eq hkeeps]
  simp only [bind, pure, Bool.or_false]
  rw [← reviseNamed_value, ← reviseNamed_changed]

theorem shareCases_eq (cs : List Case) :
    shareList cs (cs.map fun k => (do return .mk k.loc k.pattern (← k.body.revise rule))) =
      reviseCases rule cs := by
  have hkeeps : ∀ k : Case, Revised.Keeps (do return .mk k.loc k.pattern (← k.body.revise rule))
    k := by
    rintro ⟨loc, p, x⟩
    exact (x.keeps_revise rule).bind (Revised.keeps_pure _)
  rw [shareList_eq hkeeps]
  simp only [bind, pure, Bool.or_false]
  rw [← reviseCases_value, ← reviseCases_changed]

mutual

/-- Rewriting by a rule does the same with and without sharing. -/
theorem Expr.rewrite_byRule : ∀ x : Expr, x.rewrite (Revised.byRule rule) = x.revise rule
  | .tuple loc es | .list loc es => by
    rw [Expr.rewrite, rewriteEach_byRule es, shareExprs_eq, Revised.Keeps.orShared]
    · simp [Expr.revise, bind, pure]
    · exact (keeps_reviseExprs rule es).bind (Revised.keeps_pure _)
  | .binOp loc op l r => by
    rw [Expr.rewrite, l.rewrite_byRule, r.rewrite_byRule, Revised.Keeps.orShared]
    · simp [Expr.revise, bind, pure, Bool.or_assoc]
    · exact (l.keeps_revise rule).bind ((r.keeps_revise rule).bind (Revised.keeps_pure _))
  | .call loc f as ns => by
    rw [Expr.rewrite, f.rewrite_byRule, rewriteEach_byRule as, shareExprs_eq,
      rewriteNamed_byRule ns, shareNamed_eq, Revised.Keeps.orShared]
    · simp [Expr.revise, bind, pure, Bool.or_assoc]
    · exact (f.keeps_revise rule).bind
        ((keeps_reviseExprs rule as).bind ((keeps_reviseNamed rule ns).bind (Revised.keeps_pure _)))
  | .lambda loc ps b => by
    rw [Expr.rewrite, b.rewrite_byRule, Revised.Keeps.orShared]
    · simp [Expr.revise, bind, pure]
    · exact (b.keeps_revise rule).bind (Revised.keeps_pure _)
  | .ifElse loc c t e => by
    rw [Expr.rewrite, c.rewrite_byRule, t.rewrite_byRule, e.rewrite_byRule, Revised.Keeps.orShared]
    · simp [Expr.revise, bind, pure, Bool.or_assoc]
    · exact (c.keeps_revise rule).bind
        ((t.keeps_revise rule).bind ((e.keeps_revise rule).bind (Revised.keeps_pure _)))
  | .matchOn loc s cs => by
    rw [Expr.rewrite, s.rewrite_byRule, rewriteCases_byRule cs, shareCases_eq,
      Revised.Keeps.orShared]
    · simp [Expr.revise, bind, pure, Bool.or_assoc]
    · exact (s.keeps_revise rule).bind ((keeps_reviseCases rule cs).bind (Revised.keeps_pure _))
  | .access loc s field => by
    rw [Expr.rewrite, s.rewrite_byRule, Revised.Keeps.orShared]
    · simp [Expr.revise, bind, pure]
    · exact (s.keeps_revise rule).bind (Revised.keeps_pure _)
  | .var .. | .uint .. | .int .. | .float .. | .str .. | .bool .. | .eraser .. | .missing => by
    rw [Expr.rewrite, (Revised.keeps_pure _).orShared, Expr.revise]
    rfl

theorem rewriteEach_byRule :
    ∀ es : List Expr, rewriteEach (Revised.byRule rule) es = es.map fun x => x.revise rule
  | [] => rfl
  | x :: xs => by rw [rewriteEach, x.rewrite_byRule, rewriteEach_byRule xs, List.map_cons]

theorem rewriteNamed_byRule : ∀ ns : List NamedArg,
    rewriteNamed (Revised.byRule rule) ns =
      ns.map fun n => (do return .mk n.loc n.name (← n.value.revise rule))
  | [] => rfl
  | .mk loc name x :: rest => by
    rw [rewriteNamed, x.rewrite_byRule, rewriteNamed_byRule rest, List.map_cons]
    rfl

theorem rewriteCases_byRule : ∀ cs : List Case,
    rewriteCases (Revised.byRule rule) cs =
      cs.map fun k => (do return .mk k.loc k.pattern (← k.body.revise rule))
  | [] => rfl
  | .mk loc p x :: rest => by
    rw [rewriteCases, x.rewrite_byRule, rewriteCases_byRule rest, List.map_cons]
    rfl

end

theorem Stmt.keeps_revise (s : Stmt) : (s.revise rule).Keeps s := s.value_of_unchanged rule

theorem keeps_reviseStmts (ss : List Stmt) : (reviseStmts rule ss).Keeps ss :=
  reviseStmts_value_of_unchanged rule ss

theorem shareStmts_eq (ss : List Stmt) :
    shareList ss (ss.map fun s => s.revise rule) = reviseStmts rule ss := by
  rw [shareList_eq (Stmt.keeps_revise rule)]
  induction ss with
  | nil => simp [reviseStmts, pure]
  | cons s ss ih =>
    rw [reviseStmts, ← ih]
    simp [bind, pure]

mutual

theorem Stmt.rewrite_byRule : ∀ s : Stmt, s.rewrite (Revised.byRule rule) = s.revise rule
  | .ret loc none | .missing => by rw [Stmt.rewrite, (Revised.keeps_pure _).orShared, Stmt.revise]
  | .ret loc (some x) | .assign loc target type x | .use loc n x | .expr loc x => by
    rw [Stmt.rewrite, x.rewrite_byRule, Revised.Keeps.orShared]
    · rw [Stmt.revise]
    · exact (x.keeps_revise rule).bind (Revised.keeps_pure _)
  | .ifThen loc c tl t => by
    rw [Stmt.rewrite, c.rewrite_byRule, rewriteStmts_byRule t, shareStmts_eq,
      Revised.Keeps.orShared]
    · rw [Stmt.revise]
    · exact (c.keeps_revise rule).bind ((keeps_reviseStmts rule t).bind (Revised.keeps_pure _))
  | .ifElse loc c tl t el e => by
    rw [Stmt.rewrite, c.rewrite_byRule, rewriteStmts_byRule t, rewriteStmts_byRule e, shareStmts_eq,
      shareStmts_eq, Revised.Keeps.orShared]
    · rw [Stmt.revise]
    · exact (c.keeps_revise rule).bind
        ((keeps_reviseStmts rule t).bind ((keeps_reviseStmts rule e).bind (Revised.keeps_pure _)))

theorem rewriteStmts_byRule :
    ∀ ss : List Stmt, rewriteStmts (Revised.byRule rule) ss = ss.map fun s => s.revise rule
  | [] => rfl
  | s :: ss => by rw [rewriteStmts, s.rewrite_byRule, rewriteStmts_byRule ss, List.map_cons]

end

theorem shareStmts_byRule (ss : List Stmt) :
    shareList ss (rewriteStmts (Revised.byRule rule) ss) = reviseStmts rule ss := by
  rw [rewriteStmts_byRule, shareStmts_eq]

theorem FuncDef.keeps_mapBody (d : FuncDef) : (mapBody (reviseStmts rule) d).Keeps d :=
  (keeps_reviseStmts rule d.body.stmts).bind (Revised.keeps_pure _)

theorem FuncDef.rewrite_byRule (d : FuncDef) :
    d.rewrite (Revised.byRule rule) = mapBody (reviseStmts rule) d := by
  rw [FuncDef.rewrite, shareStmts_byRule]
  exact (d.keeps_mapBody rule).orShared

/-- A rule revises a program body by body. -/
theorem Program.revise_eq (p : Program) :
    p.revise rule = p.mapFunctions (mapBody (reviseStmts rule)) := by
  rw [Program.revise, Program.rewrite, funext (FuncDef.rewrite_byRule rule)]
  exact Revised.Keeps.orShared (p.keeps_mapFunctions Revised.keeping (FuncDef.keeps_mapBody rule))

end Rule

end FunRiscv
