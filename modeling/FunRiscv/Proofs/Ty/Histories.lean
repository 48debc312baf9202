import Mathlib
import FunRiscv.Proofs.Ty.Agreement
import FunRiscv.Proofs.Ty.Paths

/-!
# Histories of a unifier

A unifier is asked for fresh variables and to unify types, over and over, and some of the calls
fail. Whatever it was asked for, its bindings are triangular, so following them comes to an end; and
what was unified once agrees ever after.

* `Unifier.Moves`: what fresh variables and unifications do to any unifier.
* `Unifier.Request`, `Unifier.answer`, `Unifier.after`: a unifier after requests.
  `Unifier.moves_answer` is the step, `Unifier.moves_after` the run.
* `Unifier.history_kept`: the theorem about what later requests leave as it was.
* `Unifier.apply_complete`: the theorem about following the bindings after any requests.
-/

namespace FunRiscv

/-! ### What fresh variables and unifications do -/

/-- What fresh variables and unifications do to a unifier. -/
structure Unifier.Moves (u u' : Unifier) : Prop where
  stem : u'.stem = u.stem
  limit : u'.limit = u.limit
  made : u.made ≤ u'.made
  steps : u.steps ≤ u'.steps
  grows : u.Coherent → u.Grows u'

namespace Unifier

variable {u u' u'' : Unifier}

theorem Moves.refl (u : Unifier) : u.Moves u :=
  ⟨rfl, rfl, Nat.le_refl _, Nat.le_refl _, fun h => ⟨h, List.suffix_refl _, rfl⟩⟩

theorem Moves.trans (h : u.Moves u') (h' : u'.Moves u'') : u.Moves u'' where
  stem := h'.stem.trans h.stem
  limit := h'.limit.trans h.limit
  made := h.made.trans h'.made
  steps := h.steps.trans h'.steps
  grows hu := (h.grows hu).trans (h'.grows (h.grows hu).coherent)

theorem Moves.of_subst (hsubst : u'.subst = u.subst) (hstem : u'.stem = u.stem)
    (hlimit : u'.limit = u.limit) (hmade : u.made ≤ u'.made) (hsteps : u.steps ≤ u'.steps) :
    u.Moves u' :=
  ⟨hstem, hlimit, hmade, hsteps, fun h => ⟨h.of_subst hsubst, hsubst ▸ List.suffix_refl _, hlimit⟩⟩

theorem moves_fresh (u : Unifier) : u.Moves u.fresh.2 :=
  .of_subst rfl rfl rfl (Nat.le_succ _) (Nat.le_refl _)

theorem moves_tick (u : Unifier) : u.Moves u.tick :=
  .of_subst rfl rfl rfl (Nat.le_refl _) (Nat.le_succ _)

end Unifier

namespace Unifying

theorem moves_forPairs {act : Ty → Ty → Unifying Unit}
    (hact : ∀ a b (u : Unifier), u.Moves (exec (act a b) u).2) :
    ∀ (as bs : List Ty) (u : Unifier), u.Moves (exec (forPairs act as bs) u).2
  | [], _, u | _ :: _, [], u => .refl u
  | a :: as, b :: bs, u => by
    have hab := hact a b u
    rw [forPairs, exec_bind]
    rcases hr : exec (act a b) u with ⟨_ | _, u'⟩ <;> rw [hr] at hab
    · exact hab
    · exact hab.trans (moves_forPairs hact as bs u')

theorem moves_unifyWithin (fuel : Nat) (a b : Ty) (u : Unifier) :
    u.Moves (exec (unifyWithin fuel a b) u).2 := by
  induction fuel generalizing a b u with
  | zero => exact .refl u
  | succ fuel ih =>
    have hgrows := grows_unifyWithin (fuel + 1) a b u
    have ho := exec_unifyWithin fuel a b u
    generalize exec (unifyWithin (fuel + 1) a b) u = r at ho hgrows
    cases ho with
    | limited | same | cyclic | dynamic | clash => exact u.moves_tick
    | bound => exact ⟨rfl, rfl, Nat.le_refl _, Nat.le_succ _, hgrows⟩
    | pairs => exact u.moves_tick.trans (moves_forPairs ih _ _ u.tick)

theorem moves_unify (a b : Ty) (u : Unifier) : u.Moves (exec (unify a b) u).2 :=
  moves_unifyWithin _ a b u

end Unifying

namespace Unifier

open Unifying

/-! ### Requests -/

/-- What a unifier can be asked for. -/
inductive Request where
  | fresh
  | unify (a b : Ty)
deriving DecidableEq

/-- A unifier after a request, whether that succeeded or failed. -/
def answer (u : Unifier) : Request → Unifier
  | .fresh => u.fresh.2
  | .unify a b => (exec (unify a b) u).2

/-- A unifier after requests, one after the other. -/
def after (u : Unifier) (rs : List Request) : Unifier := rs.foldl answer u

variable {u : Unifier}

theorem moves_answer (u : Unifier) (r : Request) : u.Moves (u.answer r) := by
  cases r with
  | fresh => exact moves_fresh u
  | unify a b => exact moves_unify a b u

theorem moves_after (u : Unifier) (rs : List Request) : u.Moves (u.after rs) := by
  induction rs generalizing u with
  | nil => exact .refl u
  | cons r rs ih => exact (moves_answer u r).trans (ih (u.answer r))

/-- Requests leave a coherent unifier coherent, and only add bindings. -/
theorem Coherent.after (hu : u.Coherent) (rs : List Request) : u.Grows (u.after rs) :=
  (moves_after u rs).grows hu

/-- Whatever a new unifier was asked for, it is coherent. -/
theorem coherent_after (stem : String) (limit : Nat) (rs : List Request) :
    ((Unifier.new stem limit).after rs).Coherent :=
  ((coherent_new stem limit).after rs).coherent

theorem Coherent.unbound_of_rigid (hu : u.Coherent) {v : String} (hv : Ty.rigidName v = true) :
    u.subst.lookup v = none := by
  cases hl : u.subst.lookup v with
  | none => rfl
  | some t =>
    rw [hu.flexible v t hl] at hv
    cases hv

/-- What was unified agrees after any further requests. -/
theorem Coherent.agrees_after (hu : u.Coherent) {a b : Ty} (hok : (exec (unify a b) u).1 = .ok ())
    (rs : List Request) :
    (((u.answer (.unify a b)).after rs).apply a).Agrees
      (((u.answer (.unify a b)).after rs).apply b) := by
  have hrun : exec (unify a b) u = (.ok (), u.answer (.unify a b)) := Prod.ext hok rfl
  have hnext : u.Grows (u.answer (.unify a b)) := (moves_answer u (.unify a b)).grows hu
  have hlater := hnext.coherent.after rs
  have hagree := (agrees_of_unify hu hrun).later hlater _ hlater.coherent.triangular.respects_apply
  rwa [← Subst.apply_eq_bind, ← Subst.apply_eq_bind] at hagree

/-- **What a unifier did stays done.** After any requests, whatever further ones follow: a variable
that was bound keeps its binding, no rigid variable is bound, and if two types are unified in
between, they agree from then on. -/
theorem history_kept (stem : String) (limit : Nat) (earlier later : List Request) :
    let u := (Unifier.new stem limit).after earlier
    (∀ v t, u.subst.lookup v = some t → (u.after later).subst.lookup v = some t) ∧
    (∀ v, Ty.rigidName v = true → (u.after later).subst.lookup v = none) ∧
    ∀ a b, (exec (unify a b) u).1 = .ok () →
      (((u.answer (.unify a b)).after later).apply a).Agrees
        (((u.answer (.unify a b)).after later).apply b) := by
  intro u
  have hu : u.Coherent := coherent_after stem limit earlier
  have hlater := hu.after later
  refine ⟨fun v t hv => ?_, fun v hv => ?_, fun a b hok => ?_⟩
  · exact hlater.coherent.triangular.lookup_of_suffix hlater.suffix hv
  · exact hlater.coherent.unbound_of_rigid hv
  · exact hu.agrees_after hok later

/-- After `Any -> b` and `u24 -> c` were unified, a request fails at a rigid variable, but it binds
`c` before that: `b` stays bound to `c`, the rigid variable is not bound, and the two types stand
for `Any -> i24` and `u24 -> i24`. -/
theorem history_kept_halfway :
    let u := (Unifier.new "t" 0).answer (.unify (.func .any (.var "b")) (.func .u24 (.var "c")))
    let later := [Request.unify (.tuple [.var "c", .var "'r"]) (.tuple [.i24, .f24])]
    (exec (unify (.func .any (.var "b")) (.func .u24 (.var "c"))) (.new "t" 0)).1 = .ok () ∧
      (exec (unify (.tuple [.var "c", .var "'r"]) (.tuple [.i24, .f24])) u).1.isOk = false ∧
      (u.after later).apply (.func .any (.var "b")) = .func .any .i24 ∧
      (u.after later).apply (.func .u24 (.var "c")) = .func .u24 .i24 ∧
      (u.after later).subst.lookup "b" = some (.var "c") ∧
      (u.after later).subst.lookup "'r" = none ∧
      ((u.after later).apply (.func .any (.var "b"))).Agrees
        ((u.after later).apply (.func .u24 (.var "c"))) := by
  intro u later
  have hok : (exec (unify (.func .any (.var "b")) (.func .u24 (.var "c"))) (.new "t" 0)).1 =
    .ok () := by rfl
  have hkept := history_kept "t" 0 [.unify (.func .any (.var "b")) (.func .u24 (.var "c"))] later
  exact ⟨hok, by decide, by decide, by decide, hkept.1 _ _ (by decide), hkept.2.1 _ (by decide),
    (history_kept "t" 0 [] later).2.2 _ _ hok⟩

/-- **Following bindings comes to an end.** After any requests no binding leads back to its own
variable, and no path follows more bindings than there are: `Subst.apply` would stop only beyond
that, and following bindings for longer gives the same. The variables of the result are the unbound
ones that paths lead to, and following the bindings again changes nothing. -/
theorem apply_complete (stem : String) (limit : Nat) (rs : List Request) :
    let s := ((Unifier.new stem limit).after rs).subst
    (∀ v t d, s.lookup v = some t → ¬s.Leads d t v) ∧
    (∀ d t w, s.Leads d t w → d ≤ s.length) ∧
    (∀ n t, s.length < n → s.applyWithin n t = s.apply t) ∧
    (∀ t w, (s.apply t).occurs w = true ↔ ∃ d, s.Leads d t w ∧ s.lookup w = none) ∧
    ∀ t, s.apply (s.apply t) = s.apply t := by
  intro s
  have hs : s.Triangular := (coherent_after stem limit rs).triangular
  refine ⟨?_, ?_, ?_, ?_, ?_⟩
  · exact fun v t d hv => hs.not_leads_back hv
  · exact fun d t w => hs.le_length_of_leads
  · exact fun n t hn => hs.applyWithin_of_le hn t
  · exact fun t w => hs.occurs_apply
  · exact hs.apply_apply

end Unifier

end FunRiscv
