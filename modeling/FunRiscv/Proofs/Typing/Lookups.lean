import Mathlib
import FunRiscv.Proofs.Typing.Closed
import FunRiscv.Proofs.Typing.Independence

/-!
# Only what names stand for matters

Functions are checked in the same way under two tables of names in which every name stands for the
same, whatever else the tables hold and in which order.

* `LooksUp`: an action that knows the table only by what names stand for.
  `closed_looksUp`: all steps do.
* `Checking.Compositional.body`: what holds of every step holds of checking the body of a function.
* `checkAll_congr`: checking functions goes the same way under both tables.
-/

namespace FunRiscv

open Checking

/-- An action leaves the table of names alone, and knows it only by what names stand for. -/
def LooksUp {α : Type} (m : Checking α) : Prop :=
  ∀ ⦃c : Checker⦄ ⦃a : α⦄ ⦃c' : Checker⦄ ⦃G : Frame⦄, (∀ n, c.globals.find? n = G.find? n) →
    Gives m c a c' → c'.globals = c.globals ∧
      Gives m { c with globals := G } a { c' with globals := G }

theorem closed_looksUp : Closed LooksUp where
  pure a c b c' G _ h := by
    obtain ⟨rfl, rfl⟩ := gives_pure.1 h
    exact ⟨rfl, gives_pure.2 ⟨rfl, rfl⟩⟩
  bind hm hf c b c' G hG h := by
    obtain ⟨a, c₁, ha, hb⟩ := gives_bind.1 h
    obtain ⟨hsame, ha'⟩ := hm hG ha
    obtain ⟨hsame', hb'⟩ := hf a (fun n => hsame ▸ hG n) hb
    exact ⟨hsame'.trans hsame, gives_bind.2 ⟨a, _, ha', hb'⟩⟩
  failWith e c a c' G _ h := (not_gives_failWith h).elim
  applied t c u c' G _ h := by
    obtain ⟨rfl, rfl⟩ := gives_applied.1 h
    exact ⟨rfl, gives_applied.2 ⟨rfl, rfl⟩⟩
  fresh c t c' G _ h := by
    obtain ⟨rfl, rfl⟩ := gives_fresh.1 h
    exact ⟨rfl, gives_fresh.2 ⟨rfl, rfl⟩⟩
  unify a b c r c' G _ h := by
    obtain ⟨u, hu, rfl⟩ := gives_unify.1 h
    exact ⟨rfl, gives_unify.2 ⟨u, hu, rfl⟩⟩
  record i t c x c' G _ h := by
    obtain rfl := gives_record.1 h
    exact ⟨rfl, gives_record.2 rfl⟩
  instantiate k c t c' G _ h := by
    obtain ⟨rfl, rfl⟩ := gives_instantiate.1 h
    exact ⟨rfl, gives_instantiate.2 ⟨rfl, rfl⟩⟩
  find? locals n c s c' G hG h := by
    obtain ⟨rfl, rfl⟩ := gives_find?.1 h
    exact ⟨rfl, gives_find?.2 ⟨symbolIn?_congr hG _ _ _, rfl⟩⟩
  global n c s c' G hG h := by
    obtain ⟨d, c₁, hd, h⟩ := gives_bind.1 h
    obtain ⟨rfl, rfl⟩ := gives_get.1 hd
    obtain ⟨rfl, rfl⟩ := gives_pure.1 h
    exact ⟨rfl, gives_bind.2 ⟨_, _, gives_get.2 ⟨rfl, rfl⟩, gives_pure.2 ⟨hG n, rfl⟩⟩⟩

/-- Whatever holds of every step holds of checking the body of a function. -/
theorem Checking.Compositional.body {P : ∀ {α : Type}, Checking α → Prop} (hP : Compositional P)
    (f : NamedFunction) (m : List Ty × Option Ty) (i : Nat) : P (f.body m i) := by
  have hrest : ∀ result : Ty, P (do
      let returned ← Checking.checkStmts result (withParams [[]] f.func.params m.1) i
        f.func.body.stmts
      if !returned then Checking.unifyAt result .none f.func.loc
      return Ty.curry m.1 result) := by
    intro result
    refine hP.bind (hP.checkStmts result _ _ _) fun returned => ?_
    cases returned with
    | true => exact hP.pure _
    | false => exact hP.bind (hP.unifyAt _ _ _) fun _ => hP.pure _
  rw [NamedFunction.body]
  cases m.2 with
  | none => exact hP.bind hP.fresh hrest
  | some t => exact hP.bind (hP.pure t) hrest

section Tables

variable {c c' : Checker} {G : Frame}

/-- A function is checked in the same way under both tables, which stay alike. -/
theorem ChecksFunc.congr {f : NamedFunction} (h : ChecksFunc f c c')
    (hG : ∀ n, c.globals.find? n = G.find? n) :
    ∃ G', (∀ n, c'.globals.find? n = G'.find? n) ∧
      ChecksFunc f { c with globals := G } { c' with globals := G' } := by
  obtain ⟨m, t, c₁, hm, hbody, rfl⟩ := checksFunc_iff.1 h
  obtain ⟨hsame, hbody'⟩ := closed_looksUp.compositional.body f m _ (c := c.entering f) hG hbody
  refine ⟨G.insert f.name (.function f.name (c₁.settle t) true), fun n => ?_, ?_⟩
  · rw [Checker.finished, hsame]
    exact Frame.insert_congr hG _ _ n
  · exact checksFunc_iff.2 ⟨m, t, { c₁ with globals := G }, Frame.under_congr hG _ ▸ hm,
      hbody', rfl⟩

/-- **Only what names stand for matters.** Functions are checked in the same way under
both tables. -/
theorem checkAll_congr {fs : List NamedFunction} {x : Unit} (h : Gives (checkAll fs) c x c')
    (hG : ∀ n, c.globals.find? n = G.find? n) :
    ∃ G', Gives (checkAll fs) { c with globals := G } x { c' with globals := G' } := by
  induction fs generalizing c G with
  | nil =>
    obtain ⟨-, rfl⟩ := gives_pure.1 h
    exact ⟨G, gives_pure.2 ⟨rfl, rfl⟩⟩
  | cons f fs ih =>
    obtain ⟨y, c₁, hy, h⟩ := gives_bind.1 h
    obtain ⟨G₁, hG₁, hf⟩ := (gives_checkFunc.1 (gives_inContext.1 hy)).congr hG
    obtain ⟨G', h'⟩ := ih h hG₁
    exact ⟨G', gives_bind.2 ⟨y, _, gives_inContext.2 (gives_checkFunc.2 hf), h'⟩⟩

end Tables

end FunRiscv
