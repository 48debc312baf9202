import Mathlib
import FunRiscv.Proofs.Ty.Histories
import FunRiscv.Proofs.Ty.MostGeneral
import FunRiscv.Proofs.Typing.Meanings
import FunRiscv.Proofs.Typing.Steps

/-!
# Steps that only move the unifier

Most of what inference does between two expressions leaves everything but the unifier alone,
whatever the checker was told beforehand.

* `Steady`: an action that, where it succeeds, only moves the unifier.
* `steady_inferVar`, `steady_operationType` and others: one for each step that holds
  no further expression.
-/

namespace FunRiscv

open Checking

/-! ### Unifiers -/

theorem Unifier.moves_freshFor (ps : List String) (u : Unifier) : u.Moves (freshFor ps u).2 := by
  induction ps generalizing u with
  | nil => exact .refl u
  | cons p ps ih => exact u.moves_fresh.trans (ih u.fresh.2)

/-! ### Actions -/

/-- An action that, where it succeeds, only moves the unifier. -/
def Steady {α : Type} (m : Checking α) : Prop :=
  ∀ ⦃c : Checker⦄ ⦃a : α⦄ ⦃c' : Checker⦄, Gives m c a c' →
    ∃ u, c.unifier.Moves u ∧ c' = { c with unifier := u }

section Steady

variable {α β : Type} {m : Checking α} {f : α → Checking β}

/-- An action that changes nothing. -/
theorem Steady.of_eq (h : ∀ c a c', Gives m c a c' → c' = c) : Steady m :=
  fun c a c' hrun => ⟨c.unifier, .refl _, h c a c' hrun⟩

theorem Steady.bind (hm : Steady m) (hf : ∀ a, Steady (f a)) : Steady (m >>= f) := by
  intro c b c'' h
  obtain ⟨a, c', ha, hb⟩ := gives_bind.1 h
  obtain ⟨u, hu, rfl⟩ := hm ha
  obtain ⟨u', hu', rfl⟩ := hf a hb
  exact ⟨u', hu.trans hu', rfl⟩

theorem steady_pure (a : α) : Steady (pure a : Checking α) :=
  .of_eq fun _ _ _ h => (gives_pure.1 h).2

theorem steady_fail (loc : Location) (cause : TypeCause) : Steady (fail loc cause : Checking α) :=
  fun _ _ _ h => (not_gives_fail h).elim

theorem steady_failWith (e : TypeError) : Steady (failWith e : Checking α) :=
  fun _ _ _ h => (not_gives_failWith h).elim

theorem steady_get : Steady get := .of_eq fun _ _ _ h => (gives_get.1 h).2

theorem Steady.mapM {γ : Type} {g : γ → Checking α} {xs : List γ} (h : ∀ x ∈ xs, Steady (g x)) :
    Steady (xs.mapM g) := by
  induction xs with
  | nil => exact steady_pure _
  | cons x xs ih =>
    rw [List.forall_mem_cons] at h
    rw [List.mapM_cons]
    exact h.1.bind fun _ => (ih h.2).bind fun _ => steady_pure _

/-! ### Steps -/

theorem steady_applied (t : Ty) : Steady (applied t) := .of_eq fun _ _ _ h => (gives_applied.1 h).2

theorem steady_mapM_applied (t? : Option Ty) : Steady (t?.mapM applied) :=
  .of_eq fun _ _ _ h => (gives_mapM_applied.1 h).2

theorem steady_find? (locals : List Frame) (n : String) : Steady (find? locals n) :=
  .of_eq fun _ _ _ h => (gives_find?.1 h).2

theorem steady_fresh : Steady fresh := by
  intro c t c' h
  obtain ⟨-, rfl⟩ := gives_fresh.1 h
  exact ⟨_, c.unifier.moves_fresh, rfl⟩

theorem steady_instantiate (k : Constructor) : Steady (instantiate k) := by
  intro c t c' h
  obtain ⟨-, rfl⟩ := gives_instantiate.1 h
  exact ⟨_, c.unifier.moves_freshFor k.params, rfl⟩

theorem moves_unified {a b : Ty} {c c' : Checker} (h : Unified a b c c') :
    ∃ u, c.unifier.Moves u ∧ c' = { c with unifier := u } := by
  obtain ⟨u, hu, rfl⟩ := h
  have hmoves := Unifying.moves_unify a b c.unifier
  rw [hu] at hmoves
  exact ⟨u, hmoves, rfl⟩

theorem steady_unify (a b : Ty) : Steady (unify a b) := by
  intro c r c' h
  obtain ⟨u, hu, rfl⟩ := gives_unify.1 h
  have hmoves := Unifying.moves_unify a b c.unifier
  rw [hu] at hmoves
  exact ⟨u, hmoves, rfl⟩

theorem steady_unifyAt (a b : Ty) (loc : Location) : Steady (unifyAt a b loc) := by
  rw [unifyAt]
  refine (steady_unify a b).bind fun r => ?_
  cases r with
  | error e => exact steady_failWith _
  | ok => exact steady_pure _

theorem steady_incompatible (loc : Location) (op : Operator) (l r : Ty) :
    Steady (incompatible loc op l r : Checking α) :=
  fun _ _ _ h => (not_gives_incompatible h).elim

theorem steady_resolve (ps : List String) (e : TypeExpr) : Steady (resolve ps e) :=
  .of_eq fun _ t c' h => ((computes_resolve ps e t c').1 h).1

theorem steady_inferVar (locals : List Frame) (loc : Location) (n : String) :
    Steady (inferVar locals loc n) := by
  rw [inferVar]
  refine (steady_find? _ _).bind fun s => ?_
  split
  · exact steady_pure _
  · exact steady_pure _
  · split
    · exact steady_instantiate _
    · exact steady_fail _ _
  · dsimp only
    split
    · refine (steady_find? _ _).bind fun owner => ?_
      split <;> exact steady_fail _ _
    · refine (steady_pure _).bind fun owner => ?_
      split <;> exact steady_fail _ _

theorem steady_sameOperands (loc : Location) (op : Operator) (l r : Ty) (test : Ty → Bool) :
    Steady (sameOperands loc op l r test) := by
  rw [sameOperands]
  refine (steady_unify l r).bind fun result => ?_
  cases result with
  | error e => exact steady_incompatible _ _ _ _
  | ok =>
    have tail : ∀ t : Ty, Steady (if t.isVar || test t then pure t else
      incompatible loc op l r : Checking Ty) := fun t => by
      split
      · exact steady_pure _
      · exact steady_incompatible _ _ _ _
    refine (steady_applied l).bind fun a => ?_
    dsimp only
    split
    · exact (steady_applied r).bind tail
    · exact (steady_pure _).bind tail

theorem steady_operationType (loc : Location) (op : Operator) (l r : Ty) :
    Steady (operationType loc op l r) := by
  rw [operationType]
  split
  · exact steady_sameOperands _ _ _ _ _
  · exact steady_sameOperands _ _ _ _ _
  · refine (steady_unify l r).bind fun result => ?_
    cases result with
    | error e => exact steady_incompatible _ _ _ _
    | ok => exact steady_pure _
  · refine (steady_applied l).bind fun a => (steady_applied r).bind fun b => ?_
    split
    · exact steady_pure _
    · exact steady_incompatible _ _ _ _
  · refine (steady_unify .f24 l).bind fun result => ?_
    cases result with
    | error e => exact steady_incompatible _ _ _ _
    | ok =>
      refine (steady_unify .f24 r).bind fun result => ?_
      cases result with
      | error e => exact steady_incompatible _ _ _ _
      | ok => exact steady_pure _

theorem steady_conditionType (loc : Location) (t : Ty) : Steady (conditionType loc t) := by
  rw [conditionType]
  refine (steady_applied t).bind fun u => ?_
  split
  · exact steady_pure _
  · exact steady_unifyAt _ _ _
  · split
    · exact steady_pure _
    · exact steady_fail _ _

theorem steady_fieldType (loc : Location) (t : Ty) (field : String) :
    Steady (fieldType loc t field) := by
  rw [fieldType]
  refine (steady_applied t).bind fun u => ?_
  split
  · exact steady_pure _
  · dsimp only
    split
    · exact steady_pure _
    · exact steady_fail _ _
  · refine steady_get.bind fun c => ?_
    split
    · split
      · exact steady_fail _ _
      · split
        · exact steady_pure _
        · exact steady_fail _ _
    · exact steady_fail _ _
  · exact steady_fail _ _

theorem steady_lambdaParams (hint : Option Ty) (ps : List Param) :
    Steady (lambdaParams hint ps) := by
  induction ps generalizing hint with
  | nil => exact steady_pure _
  | cons p ps ih =>
    have tail : ∀ x : Ty × Option Ty, Steady (do
        let ts ← lambdaParams x.2 ps
        return x.1 :: ts) := fun x => (ih x.2).bind fun _ => steady_pure _
    rw [lambdaParams]
    split
    · simp only [pure_bind]
      exact (steady_resolve _ _).bind fun t => tail (t, hint)
    · refine (steady_mapM_applied hint).bind fun u => ?_
      split
      · simp only [pure_bind]
        exact tail (_, some _)
      · simp only [pure_bind]
        exact steady_fresh.bind fun t => tail (t, none)

theorem steady_lambdaHint (expected : Option Ty) : Steady (lambdaHint expected) := by
  rw [lambdaHint]
  refine (steady_mapM_applied expected).bind fun u => ?_
  split <;> exact steady_pure _

theorem steady_calledFields (locals : List Frame) (f : Expr) : Steady (calledFields locals f) := by
  rw [calledFields.eq_def]
  split
  · refine (steady_find? _ _).bind fun s => ?_
    split <;> exact steady_pure _
  · exact steady_pure _

theorem steady_assignLocal (locals : List Frame) (n : String) (t : Ty) (loc : Location) :
    Steady (assignLocal locals n t loc) := by
  rw [assignLocal]
  split
  · exact (steady_unifyAt _ _ _).bind fun _ => steady_pure _
  · exact steady_pure _

end Steady

end FunRiscv
