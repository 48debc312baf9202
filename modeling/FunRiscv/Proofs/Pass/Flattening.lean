import Mathlib
import FunRiscv.Proofs.Pass.Mentions

/-!
# Computations in straight lines

* `Expr.isLowerable`, `Program.isLowerable`: the forms of expressions and statements that code
  can be generated for.
* `Straight`: statements that are all assignments.
* `Flattens`: assignments before a computation, and what is left of it, amount to the
  whole computation.
* `Outcome.Alike`: two outcomes that agree on some names.
-/

namespace FunRiscv

open Machine

/-! ### Forms that can be lowered -/

mutual

/-- Whether an expression has a form that code can be generated for. -/
def Expr.isLowerable : Expr → Bool
  | .uint .. | .int .. | .bool .. | .eraser _ | .var .. => true
  | .binOp _ op l r => op != .pow && l.isLowerable && r.isLowerable
  | .call _ (.var ..) as [] => exprsLowerable as
  | .ifElse _ c t e => c.isLowerable && t.isLowerable && e.isLowerable
  | .matchOn _ x cs => x.isLowerable && casesLowerable cs
  | .call .. | .float .. | .str .. | .tuple .. | .list .. | .lambda .. | .access ..
  | .missing => false

def exprsLowerable : List Expr → Bool
  | [] => true
  | x :: xs => x.isLowerable && exprsLowerable xs

def casesLowerable : List Case → Bool
  | [] => true
  | .mk _ p x :: cs => p.isLowerable && x.isLowerable && casesLowerable cs

/-- Whether a pattern has a form that code can be generated for. -/
def Pattern.isLowerable : Pattern → Bool
  | .lit _ x => x.isLowerable
  | .var .. | .wild _ => true
  | .cons .. | .tuple .. | .missing => false

end

mutual

/-- Whether a statement has a form that code can be generated for. -/
def Stmt.isLowerable : Stmt → Bool
  | .ret _ none => true
  | .ret _ (some x) | .assign _ _ _ x | .use _ _ x | .expr _ x => x.isLowerable
  | .ifThen _ c _ t => c.isLowerable && stmtsLowerable t
  | .ifElse _ c _ t _ e => c.isLowerable && stmtsLowerable t && stmtsLowerable e
  | .missing => false

def stmtsLowerable : List Stmt → Bool
  | [] => true
  | s :: ss => s.isLowerable && stmtsLowerable ss

end

/-- Code can be generated only for calls by name with arguments in order. -/
theorem Expr.isLowerable_call {loc : Location} {f : Expr} {as : List Expr} {ns : List NamedArg}
    (h : (Expr.call loc f as ns).isLowerable = true) :
    ∃ vloc n, f = .var vloc n ∧ ns = [] ∧ exprsLowerable as = true := by
  cases f with
  | var vloc n =>
    cases ns with
    | nil => exact ⟨vloc, n, rfl, rfl, by simpa only [isLowerable] using h⟩
    | cons => simp [isLowerable] at h
  | uint | int | bool | eraser | binOp | call | ifElse | matchOn | float | str | tuple | list
  | lambda | access | missing =>
    simp [isLowerable] at h

/-- Whether the functions of a program have the forms that code can be generated for. -/
def Program.isLowerable (p : Program) : Bool :=
  p.functions.all fun f => stmtsLowerable f.func.body.stmts

/-! ### Straight lines of assignments -/

/-- Statements that are all assignments without a type. -/
def Straight (ss : List Stmt) : Prop := ∀ s ∈ ss, ∃ loc n x, s = .assign loc n none x

theorem Straight.append {ss ts : List Stmt} (hs : Straight ss) (ht : Straight ts) :
    Straight (ss ++ ts) :=
  fun t h => (List.mem_append.1 h).elim (hs t) (ht t)

section Meaning

variable {call : String → List Val → Option Val} {β γ δ : Type}

/-- Goes on with what is in the variables, unless a value was returned. -/
def Outcome.andThen (k : Store → Option Outcome) : Outcome → Option Outcome
  | .next σ => k σ
  | .done v => some (.done v)

theorem evalStmts_append (ss ts : List Stmt) (σ : Store) :
    evalStmts call σ (ss ++ ts) =
      (evalStmts call σ ss).bind (Outcome.andThen (evalStmts call · ts)) := by
  induction ss generalizing σ with
  | nil => simp [evalStmts, Outcome.andThen]
  | cons s ss ih =>
    rw [List.cons_append, evalStmts, evalStmts, Option.bind_assoc]
    congr 1
    funext out
    cases out with
    | next τ => exact ih τ
    | done v => rfl

theorem evalStmts_singleton (σ : Store) (t : Stmt) : evalStmts call σ [t] = evalStmt call σ t := by
  rw [evalStmts]
  cases evalStmt call σ t with
  | none => rfl
  | some out => cases out <;> simp [evalStmts]

/-- A straight line changes its targets only. -/
theorem Straight.eval {ss : List Stmt} (h : Straight ss) {σ : Store} {out : Outcome}
    (hout : evalStmts call σ ss = some out) :
    ∃ τ, out = .next τ ∧ ∀ n, n ∉ stmtsTargets ss → τ n = σ n := by
  induction ss generalizing σ with
  | nil =>
    rw [evalStmts, Option.some.injEq] at hout
    exact ⟨σ, hout.symm, fun _ _ => rfl⟩
  | cons s ss ih =>
    obtain ⟨loc, t, x, rfl⟩ := h s List.mem_cons_self
    rw [evalStmts, evalStmt, Option.bind_eq_some_iff] at hout
    obtain ⟨mid, hmid, hout⟩ := hout
    obtain ⟨v, -, rfl⟩ := Option.map_eq_some_iff.1 hmid
    obtain ⟨τ, rfl, hτ⟩ := ih (fun s hs => h s (List.mem_cons_of_mem _ hs)) hout
    refine ⟨τ, rfl, fun n hn => ?_⟩
    rw [stmtsTargets, Stmt.targets, List.singleton_append, List.mem_cons, not_or] at hn
    rw [hτ n hn.2, Store.set, if_neg hn.1]

/-- A computation that depends on some names only. -/
def Reads (names : List String) (f : Store → Option β) : Prop :=
  ∀ σ τ, Store.Agree names σ τ → f σ = f τ

/-- Assignments, and then a computation, amount to another computation. -/
def Flattens (call : String → List Val → Option Val) (f : Store → Option β) (new : List Stmt)
    (f' : Store → Option β) : Prop :=
  ∀ σ b, (∃ τ, evalStmts call σ new = some (.next τ) ∧ f' τ = some b) ↔ f σ = some b

namespace Flattens

variable {f : Store → Option β} {f' : Store → Option β} {g g' : Store → Option γ}
  {new more : List Stmt} {names : List String}

theorem nothing (f : Store → Option β) : Flattens call f [] f := by
  intro σ b
  simp [evalStmts]

/-- The result may be worked on, by what depends on other names than the temporaries. -/
theorem andThen (h : Flattens call f new f') (hnew : Straight new) {k : β → Store → Option γ}
    (hk : ∀ b, Reads names (k b)) (hapart : ∀ n ∈ names, n ∉ stmtsTargets new) :
    Flattens call (fun σ => (f σ).bind fun b => k b σ) new
      (fun σ => (f' σ).bind fun b => k b σ) := by
  intro σ c
  have hsame : ∀ τ, evalStmts call σ new = some (.next τ) → ∀ b, k b τ = k b σ := by
    intro τ hτ b
    obtain ⟨τ', heq, hoff⟩ := hnew.eval hτ
    cases heq
    exact hk b τ σ fun n hn => hoff n (hapart n hn)
  constructor
  · rintro ⟨τ, hτ, hc⟩
    obtain ⟨b, hb, hc⟩ := Option.bind_eq_some_iff.1 hc
    exact Option.bind_eq_some_iff.2 ⟨b, (h σ b).1 ⟨τ, hτ, hb⟩, (hsame τ hτ b).symm.trans hc⟩
  · intro hc
    obtain ⟨b, hb, hc⟩ := Option.bind_eq_some_iff.1 hc
    obtain ⟨τ, hτ, hb⟩ := (h σ b).2 hb
    exact ⟨τ, hτ, Option.bind_eq_some_iff.2 ⟨b, hb, (hsame τ hτ b).trans hc⟩⟩

/-- Two computations may be flattened one after the other, if neither assigns what the
other depends on. -/
theorem seq (hf : Flattens call f new f') (hg : Flattens call g more g') (hnew : Straight new)
    (hmore : Straight more) {names' : List String} (hreads : Reads names g)
    (hapart : ∀ n ∈ names, n ∉ stmtsTargets new) (hreads' : Reads names' f')
    (hapart' : ∀ n ∈ names', n ∉ stmtsTargets more) (k : β → γ → Option δ) :
    Flattens call (fun σ => (f σ).bind fun b => (g σ).bind (k b)) (new ++ more)
      (fun σ => (f' σ).bind fun b => (g' σ).bind (k b)) := by
  intro σ d
  have hbefore : ∀ τ, evalStmts call σ new = some (.next τ) → g τ = g σ := by
    intro τ hτ
    obtain ⟨τ', heq, hoff⟩ := hnew.eval hτ
    cases heq
    exact hreads τ σ fun n hn => hoff n (hapart n hn)
  have hafter : ∀ τ υ, evalStmts call τ more = some (.next υ) → f' υ = f' τ := by
    intro τ υ hυ
    obtain ⟨υ', heq, hoff⟩ := hmore.eval hυ
    cases heq
    exact hreads' υ τ fun n hn => hoff n (hapart' n hn)
  constructor
  · rintro ⟨υ, hυ, hd⟩
    rw [evalStmts_append, Option.bind_eq_some_iff] at hυ
    obtain ⟨out, hτ, hυ⟩ := hυ
    obtain ⟨τ, rfl, -⟩ := hnew.eval hτ
    obtain ⟨b, hb, hd⟩ := Option.bind_eq_some_iff.1 hd
    obtain ⟨c, hc, hd⟩ := Option.bind_eq_some_iff.1 hd
    rw [hafter τ υ hυ] at hb
    have hcσ : g σ = some c := (hbefore τ hτ).symm.trans ((hg τ c).1 ⟨υ, hυ, hc⟩)
    exact Option.bind_eq_some_iff.2 ⟨b, (hf σ b).1 ⟨τ, hτ, hb⟩,
      Option.bind_eq_some_iff.2 ⟨c, hcσ, hd⟩⟩
  · intro hd
    obtain ⟨b, hb, hd⟩ := Option.bind_eq_some_iff.1 hd
    obtain ⟨c, hc, hd⟩ := Option.bind_eq_some_iff.1 hd
    obtain ⟨τ, hτ, hb⟩ := (hf σ b).2 hb
    obtain ⟨υ, hυ, hc⟩ := (hg τ c).2 ((hbefore τ hτ).trans hc)
    refine ⟨υ, by rw [evalStmts_append, hτ]; exact hυ, ?_⟩
    exact Option.bind_eq_some_iff.2 ⟨b, (hafter τ υ hυ).trans hb,
      Option.bind_eq_some_iff.2 ⟨c, hc, hd⟩⟩

/-- The value of an expression may be kept in a variable. -/
theorem name {f : Store → Option Val} {x : Expr} (h : Flattens call f new (evalExpr call · x))
    (hnew : Straight new) (loc loc' : Location) (n : String) :
    Flattens call f (new ++ [Stmt.assign loc n none x]) (evalExpr call · (.var loc' n)) := by
  intro σ v
  rw [← h σ v]
  constructor
  · rintro ⟨υ, hυ, hv⟩
    rw [evalStmts_append, Option.bind_eq_some_iff] at hυ
    obtain ⟨out, hτ, hυ⟩ := hυ
    obtain ⟨τ, rfl, -⟩ := hnew.eval hτ
    have hassign : evalStmts call τ [.assign loc n none x] = some (.next υ) := hυ
    rw [evalStmts_singleton, evalStmt, Option.map_eq_some_iff] at hassign
    obtain ⟨w, hw, hset⟩ := hassign
    cases hset
    simp only [evalExpr, Store.set, if_pos] at hv
    exact ⟨τ, hτ, hw.trans hv⟩
  · rintro ⟨τ, hτ, hv⟩
    refine ⟨τ.set n v, ?_, by simp [evalExpr, Store.set]⟩
    have hassign : evalStmts call τ [.assign loc n none x] = some (.next (τ.set n v)) := by
      rw [evalStmts_singleton, evalStmt, Option.map_eq_some_iff]
      exact ⟨v, hv, rfl⟩
    rw [evalStmts_append, hτ]
    exact hassign

end Flattens

end Meaning

/-! ### Outcomes -/

/-- Two outcomes that agree on some names. -/
inductive Outcome.Alike (names : List String) : Outcome → Outcome → Prop where
  | next {σ τ : Store} (h : Store.Agree names σ τ) : Alike names (.next σ) (.next τ)
  | done (v : Val) : Alike names (.done v) (.done v)

theorem rel_bind {α α' β β' : Type} {R : α → α' → Prop} {S : β → β' → Prop} {x : Option α}
    {x' : Option α'} {f : α → Option β} {f' : α' → Option β'} (h : Option.Rel R x x')
    (hf : ∀ a a', R a a' → Option.Rel S (f a) (f' a')) : Option.Rel S (x.bind f) (x'.bind f') := by
  cases h with
  | some hr => exact hf _ _ hr
  | none => exact .none

end FunRiscv
