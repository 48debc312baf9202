import Mathlib
import FunRiscv.Proofs.Ty.Histories

/-!
# Unification is symmetric

Unifying two types in one order and in the other binds variables in opposite directions: `a` to `b`,
or `b` to `a`. From then on the two unifiers see different variables, but they stay the same up to a
renaming, and so both calls succeed or both fail.

* `Ty.rename`: a type with other names for its variables.
* `Unifier.Mirrors`: two unifiers that make the same of every type, up to a renaming.
* `Unifier.Mirrors.insert`, `Unifier.Mirrors.swap`: they stay so when both bind a variable, to the
  same type or to each other.
* `Unifying.mirrored_unifyWithin`: calls in opposite orders keep two unifiers mirrored.
* `Unifying.unify_symmetric`: the theorem about calls in opposite orders after any requests.
-/

namespace FunRiscv

/-! ### Renaming variables -/

namespace Ty

/-- A type with other names for its variables. -/
def rename (ρ : Equiv.Perm String) (t : Ty) : Ty := t.bind fun v => var (ρ v)

variable {ρ : Equiv.Perm String} {a b t : Ty} {v : String}

@[simp]
theorem rename_var (ρ : Equiv.Perm String) (v : String) : (var v).rename ρ = var (ρ v) := rfl

@[simp]
theorem rename_one (t : Ty) : t.rename 1 = t := bind_var t

theorem rename_bind (f : String → Ty) (t : Ty) :
    (t.bind f).rename ρ = t.bind fun v => (f v).rename ρ := bind_bind f _ t

theorem bind_rename (f : String → Ty) (t : Ty) : (t.rename ρ).bind f = t.bind fun v => f (ρ v) :=
  bind_bind _ f t

@[simp]
theorem rename_inv_rename (t : Ty) : (t.rename ρ).rename ρ⁻¹ = t := by
  rw [rename, bind_rename]
  simp

theorem rename_injective (ρ : Equiv.Perm String) : Function.Injective (rename ρ) := fun a b h => by
  rw [← rename_inv_rename (ρ := ρ) a, h, rename_inv_rename]

theorem occurs_rename : (t.rename ρ).occurs (ρ v) = t.occurs v := by
  rw [Bool.eq_iff_iff, rename, occurs_bind]
  simp [occurs]

theorem children_rename : (t.rename ρ).children = t.children.map (rename ρ) := by
  cases t <;> simp [rename, bind, children]

theorem sameHead_rename : (a.rename ρ).sameHead (b.rename ρ) = a.sameHead b := by
  cases a <;> cases b <;> simp [rename, bind, sameHead]

theorem sameHead_comm : a.sameHead b = b.sameHead a := by
  cases a <;> cases b <;> simp [sameHead, eq_comm]

theorem rename_eq_any : t.rename ρ = any ↔ t = any := by
  cases t <;> simp [rename, bind]

end Ty

/-! ### Mirrored unifiers -/

/-- Two unifiers that differ only in their bindings, and by these make the same of every type,
up to a renaming. -/
structure Unifier.Mirrors (ρ : Equiv.Perm String) (u u' : Unifier) : Prop where
  coherent : u.Coherent
  coherent' : u'.Coherent
  counts : u' = { u with subst := u'.subst }
  apply : ∀ t, u'.apply t = (u.apply t).rename ρ

namespace Unifier

variable {ρ ρ' : Equiv.Perm String} {u u' : Unifier} {t t' : Ty} {v v' w : String}

theorem Coherent.mirrors (h : u.Coherent) : Mirrors 1 u u :=
  ⟨h, h, rfl, fun t => by rw [Ty.rename_one]⟩

namespace Mirrors

theorem symm (h : Mirrors ρ u u') : Mirrors ρ⁻¹ u' u where
  coherent := h.coherent'
  coherent' := h.coherent
  counts := by rw [h.counts]
  apply t := by rw [h.apply t, Ty.rename_inv_rename]

theorem tick (h : Mirrors ρ u u') : Mirrors ρ u.tick u'.tick where
  coherent := h.coherent.grows_tick.coherent
  coherent' := h.coherent'.grows_tick.coherent
  counts := by
    conv_lhs => rw [h.counts]
    rfl
  apply := h.apply

/-- Rigid variables keep their names. -/
theorem eq_of_rigid (h : Mirrors ρ u u') (hv : Ty.rigidName v = true) : ρ v = v := by
  have hu : u.apply (.var v) = .var v := h.coherent.flexible_apply v hv
  have hu' : u'.apply (.var v) = .var v := h.coherent'.flexible_apply v hv
  have happly := h.apply (.var v)
  rw [hu, hu', Ty.rename_var] at happly
  exact (Ty.var.inj happly).symm

theorem rigidName_eq (h : Mirrors ρ u u') (v : String) : Ty.rigidName (ρ v) = Ty.rigidName v := by
  rw [Bool.eq_iff_iff]
  constructor
  · intro hv
    rwa [ρ.injective (h.eq_of_rigid hv)] at hv
  · intro hv
    rwa [h.eq_of_rigid hv]

theorem bindable?_rename (h : Mirrors ρ u u') (t : Ty) :
    Unifying.bindable? (t.rename ρ) = (Unifying.bindable? t).map ρ := by
  cases t with
  | var v =>
    rw [Ty.rename_var, Unifying.bindable?, Unifying.bindable?, h.rigidName_eq]
    split <;> rfl
  | word | any | none | named | func | tuple => rfl

/-- An unbound variable stands for itself on one side, and for its new name on the other. -/
theorem apply_var (h : Mirrors ρ u u') (hv : u.subst.lookup v = none) :
    u'.apply (.var v) = .var (ρ v) := by
  rw [h.apply, Unifier.apply, Subst.apply_of_unbound, Ty.rename_var]
  intro w hw
  obtain rfl : v = w := by simpa [Ty.occurs] using hw
  exact hv

theorem lookup_rename (h : Mirrors ρ u u') (hv : u.subst.lookup v = none) :
    u'.subst.lookup (ρ v) = none := by
  refine h.coherent'.triangular.lookup_of_occurs_apply (t := .var v) ?_
  show (u'.apply (.var v)).occurs (ρ v) = true
  rw [h.apply_var hv]
  simp [Ty.occurs]

/-- The new names of unbound variables are unbound variables. -/
theorem lookup_eq_none_iff (h : Mirrors ρ u u') :
    u'.subst.lookup (ρ v) = none ↔ u.subst.lookup v = none := by
  refine ⟨fun hv => ?_, h.lookup_rename⟩
  simpa using h.symm.lookup_rename hv

/-- The new name of an unbound variable stands for the same variable as the old one,
on both sides. -/
theorem apply_rename (h : Mirrors ρ u u') (hv : u.subst.lookup v = none) :
    u.apply (.var (ρ v)) = u.apply (.var v) ∧ u'.apply (.var (ρ v)) = u'.apply (.var v) := by
  have hname : u'.apply (.var (ρ v)) = u'.apply (.var v) := by
    rw [h.apply_var hv]
    exact (h.apply_var hv) ▸ h.coherent'.triangular.apply_apply (.var v)
  refine ⟨Ty.rename_injective ρ ?_, hname⟩
  rw [← h.apply, ← h.apply, hname]

theorem mayBind_rename (h : Mirrors ρ u u') (hvt : u.subst.MayBind v t) :
    u'.subst.MayBind (ρ v) (t.rename ρ) where
  flexible := by rw [h.rigidName_eq, hvt.flexible]
  free := h.lookup_rename hvt.free
  unbound w hw := by
    obtain ⟨w, rfl⟩ := ρ.surjective w
    rw [Ty.occurs_rename] at hw
    exact h.lookup_rename (hvt.unbound w hw)
  acyclic := by rw [Ty.occurs_rename, hvt.acyclic]

end Mirrors

theorem Coherent.apply_insert (h : u.Coherent) (hvt : u.subst.MayBind v t) (x : Ty) :
    Unifier.apply { u with subst := u.subst.insert v t } x = (u.apply x).bind (Ty.single v t) := by
  show (u.subst.insert v t).apply x = _
  rw [hvt.insert_eq]
  exact h.triangular.apply_cons hvt.free hvt.acyclic hvt.unbound x

/-- Mirrored unifiers stay mirrored if they bind variables in a way that a renaming explains. -/
theorem Mirrors.bind (h : Mirrors ρ u u') (hvt : u.subst.MayBind v t)
    (hvt' : u'.subst.MayBind v' t')
    (hsingle : ∀ x, Ty.single v' t' (ρ x) = (Ty.single v t x).rename ρ') :
    Mirrors ρ' { u with subst := u.subst.insert v t } { u' with
      subst := u'.subst.insert v' t' } where
  coherent := (Unifying.grows_bound h.coherent hvt).coherent
  coherent' := (Unifying.grows_bound h.coherent' hvt').coherent
  counts := by
    conv_lhs => rw [h.counts]
  apply x := by
    rw [h.coherent.apply_insert hvt, h.coherent'.apply_insert hvt', h.apply, Ty.bind_rename,
      Ty.rename_bind]
    exact Ty.bind_congr fun y _ => hsingle y

/-- Both bind a variable to the same type, which is no variable that they could bind. -/
theorem Mirrors.insert (h : Mirrors ρ u u') (hvt : u.subst.MayBind v t) :
    Mirrors ρ { u with subst := u.subst.insert v t } { u' with
      subst := u'.subst.insert (ρ v) (t.rename ρ) } := by
  refine h.bind hvt (h.mayBind_rename hvt) fun x => ?_
  by_cases hx : x = v
  · rw [hx, Ty.single_self, Ty.single_self]
  · rw [Ty.single_of_ne _ hx, Ty.single_of_ne _ fun heq => hx (ρ.injective heq), Ty.rename_var]

/-- One binds a variable to another one, and the other does the opposite. -/
theorem Mirrors.swap (h : Mirrors ρ u u') (hvw : u.subst.MayBind v (.var w))
    (hwv : u.subst.MayBind w (.var v)) :
    Mirrors (ρ * Equiv.swap v w) { u with subst := u.subst.insert v (.var w) }
      { u' with subst := u'.subst.insert (ρ w) (.var (ρ v)) } := by
  have hne : v ≠ w := by
    rintro rfl
    simpa [Ty.occurs] using hvw.acyclic
  refine h.bind hvw (h.mayBind_rename hwv) fun x => ?_
  rcases eq_or_ne x v with rfl | hxv
  · rw [Ty.single_self, Ty.single_of_ne _ fun heq => hne (ρ.injective heq), Ty.rename_var,
      Equiv.Perm.mul_apply, Equiv.swap_apply_right]
  · rcases eq_or_ne x w with rfl | hxw
    · rw [Ty.single_self, Ty.single_of_ne _ hxv, Ty.rename_var, Equiv.Perm.mul_apply,
        Equiv.swap_apply_right]
    · rw [Ty.single_of_ne _ hxv, Ty.single_of_ne _ fun heq => hxw (ρ.injective heq), Ty.rename_var,
        Equiv.Perm.mul_apply, Equiv.swap_apply_of_ne_of_ne hxv hxw]

end Unifier

/-! ### Calls in opposite orders -/

namespace Unifying

open Unifier

variable {ρ : Equiv.Perm String} {u u' : Unifier} {a b t : Ty} {v w : String} {fuel : Nat}

/-- Two runs that both succeed or both fail, and leave mirrored unifiers. -/
structure Mirrored (r r' : Except TypeError Unit × Unifier) : Prop where
  ok : r.1 = .ok () ↔ r'.1 = .ok ()
  mirrors : ∃ ρ, Mirrors ρ r.2 r'.2

theorem Mirrors.done (h : Mirrors ρ u u') : Mirrored (.ok (), u) (.ok (), u') := ⟨Iff.rfl, ρ, h⟩

theorem Mirrors.errors (h : Mirrors ρ u u') (e e' : TypeError) :
    Mirrored (.error e, u) (.error e', u') :=
  ⟨by simp, ρ, h⟩

/-- What a call does depends only on what the bindings make of its types. -/
theorem exec_unifyWithin_congr {a' b' : Ty} (ha : u.apply a' = u.apply a)
    (hb : u.apply b' = u.apply b) (fuel : Nat) :
    exec (unifyWithin fuel a' b') u = exec (unifyWithin fuel a b) u := by
  cases fuel with
  | zero => rfl
  | succ fuel => rw [exec_unifyWithin_eq, exec_unifyWithin_eq, ha, hb]

theorem exec_forPairs_congr {as as' bs bs' : List Ty} (hu : u.Coherent)
    (has : List.Forall₂ (fun a' a => u.apply a' = u.apply a) as' as)
    (hbs : List.Forall₂ (fun b' b => u.apply b' = u.apply b) bs' bs) :
    exec (forPairs (unifyWithin fuel) as' bs') u = exec (forPairs (unifyWithin fuel) as bs) u := by
  induction as' generalizing as bs bs' u with
  | nil =>
    cases has
    rfl
  | cons a' as' ih =>
    obtain ⟨a, as, ha, hrest, rfl⟩ := List.forall₂_cons_left_iff.1 has
    cases hbs with
    | nil => rfl
    | @cons b' b bs' bs hb hbs =>
      have hgrows := grows_unifyWithin fuel a b u hu
      rw [forPairs, forPairs, exec_bind, exec_bind, exec_unifyWithin_congr ha hb]
      rcases hr : exec (unifyWithin fuel a b) u with ⟨_ | _, u₁⟩
      · rfl
      · rw [hr] at hgrows
        -- Types of which some bindings make the same stay alike under more bindings.
        have hlater : ∀ {x y : Ty}, u.apply x = u.apply y → u₁.apply x = u₁.apply y :=
          fun {x y} hxy => by
          have hmore := hgrows.coherent.triangular.apply_apply_of_suffix hgrows.suffix
          rw [Unifier.apply, Unifier.apply, ← hmore x, ← hmore y]
          exact congrArg u₁.subst.apply hxy
        exact ih hgrows.coherent (hrest.imp fun _ _ => hlater) (hbs.imp fun _ _ => hlater)

theorem mirrored_bindVar (h : Mirrors ρ u u') (hv : Ty.rigidName v = false)
    (hfree : u.subst.lookup v = none) (ht : ∀ w, t.occurs w = true → u.subst.lookup w = none) :
    Mirrored (exec (bindVar v t) u) (exec (bindVar (ρ v) (t.rename ρ)) u') := by
  have hvar : t.rename ρ = .var (ρ v) ↔ t = .var v := (Ty.rename_injective ρ).eq_iff (b := .var v)
  rw [exec_bindVar, exec_bindVar]
  simp only [hvar, Ty.occurs_rename]
  split
  · exact Mirrors.done h
  · split
    · exact Mirrors.errors h _ _
    · next hocc => exact Mirrors.done (h.insert ⟨hv, hfree, ht, by simpa using hocc⟩)

theorem mirrored_bindVars (h : Mirrors ρ u u') (hv : Ty.rigidName v = false)
    (hw : Ty.rigidName w = false) (hv' : u.subst.lookup v = none) (hw' : u.subst.lookup w = none) :
    Mirrored (exec (bindVar v (.var w)) u) (exec (bindVar (ρ w) (.var (ρ v))) u') := by
  have hfree : ∀ {x y : String}, u.subst.lookup x = none → (Ty.var x).occurs y = true →
    u.subst.lookup y = none := fun {x y} hx hy => by
    obtain rfl : x = y := by simpa [Ty.occurs] using hy
    exact hx
  rcases eq_or_ne v w with rfl | hne
  · exact mirrored_bindVar h hv hv' fun _ => hfree hv'
  · have hne' : ρ v ≠ ρ w := fun heq => hne (ρ.injective heq)
    rw [exec_bindVar, exec_bindVar, if_neg (by simpa using hne.symm),
      if_neg (by simpa [Ty.occurs] using hne.symm), if_neg (by simpa using hne'),
      if_neg (by simpa [Ty.occurs] using hne')]
    exact Mirrors.done (h.swap ⟨hv, hv', fun _ => hfree hw', by simpa [Ty.occurs] using hne.symm⟩
      ⟨hw, hw', fun _ => hfree hv', by simpa [Ty.occurs] using hne⟩)

theorem mirrored_forPairs (hact : ∀ a b ρ (u u' : Unifier), Mirrors ρ u u' →
      Mirrored (exec (unifyWithin fuel a b) u) (exec (unifyWithin fuel b a) u')) :
    ∀ (as bs : List Ty) (ρ : Equiv.Perm String) (u u' : Unifier), Mirrors ρ u u' →
      Mirrored (exec (forPairs (unifyWithin fuel) as bs) u)
        (exec (forPairs (unifyWithin fuel) bs as) u')
  | [], [], _, _, _, h | [], _ :: _, _, _, _, h | _ :: _, [], _, _, _, h => Mirrors.done h
  | a :: as, b :: bs, ρ, u, u', h => by
    have hab := hact a b ρ u u' h
    rw [forPairs, forPairs, exec_bind, exec_bind]
    generalize exec (unifyWithin fuel a b) u = r at hab
    generalize exec (unifyWithin fuel b a) u' = r' at hab
    obtain ⟨hok, ρ₁, h₁⟩ := hab
    rcases r with ⟨_ | _, u₁⟩ <;> rcases r' with ⟨_ | _, u₁'⟩
    · exact Mirrors.errors h₁ _ _
    · cases hok.2 rfl
    · cases hok.1 rfl
    · exact mirrored_forPairs hact as bs ρ₁ u₁ u₁' h₁

/-- Two types without bound variables meet in one order in one unifier, and under their new names in
the other order in the other. -/
theorem mirrored_meet (hfuel : ∀ a b ρ (u u' : Unifier), Mirrors ρ u u' →
      Mirrored (exec (unifyWithin fuel a b) u) (exec (unifyWithin fuel b a) u'))
    (h : Mirrors ρ u u') (ha : ∀ w, a.occurs w = true → u.subst.lookup w = none)
    (hb : ∀ w, b.occurs w = true → u.subst.lookup w = none) :
    Mirrored (exec (meet fuel a b) u) (exec (meet fuel (b.rename ρ) (a.rename ρ)) u') := by
  have hself : ∀ {x : String}, (Ty.var x).occurs x = true := by simp [Ty.occurs]
  unfold meet
  rw [h.bindable?_rename, h.bindable?_rename]
  cases hva : bindable? a with
  | some v =>
    obtain ⟨rfl, hv⟩ := bindable?_eq_some hva
    cases hwb : bindable? b with
    | some w =>
      obtain ⟨rfl, hw⟩ := bindable?_eq_some hwb
      exact mirrored_bindVars h hv hw (ha v hself) (hb w hself)
    | none => exact mirrored_bindVar h hv (ha v hself) hb
  | none =>
    cases hwb : bindable? b with
    | some w =>
      obtain ⟨rfl, hw⟩ := bindable?_eq_some hwb
      exact mirrored_bindVar h hw (hb w hself) ha
    | none =>
      simp only [Option.map_none, Ty.rename_eq_any, Ty.sameHead_rename, Ty.children_rename,
        or_comm (a := b = .any), Ty.sameHead_comm (a := b)]
      split
      · exact Mirrors.done h
      · split
        · have hsame : ∀ {x : Ty}, (∀ w, x.occurs w = true → u.subst.lookup w = none) →
              List.Forall₂ (fun c' c => u'.apply c' = u'.apply c) (x.children.map (Ty.rename ρ))
                x.children := fun {x} hx => by
            rw [List.forall₂_map_left_iff, List.forall₂_same]
            intro c hc
            have hself : u.apply c = c :=
              Subst.apply_of_unbound fun w hw => hx w (Ty.occurs_child hc hw)
            have hname : c.rename ρ = u'.apply c := by rw [h.apply, hself]
            rw [hname]
            exact h.coherent'.triangular.apply_apply c
          rw [exec_forPairs_congr h.coherent' (hsame hb) (hsame ha)]
          exact mirrored_forPairs hfuel a.children b.children ρ u u' h
        · exact Mirrors.errors h _ _

/-- Calls in opposite orders keep two unifiers mirrored. -/
theorem mirrored_unifyWithin (fuel : Nat) (a b : Ty) (ρ : Equiv.Perm String) (u u' : Unifier)
    (h : Mirrors ρ u u') :
    Mirrored (exec (unifyWithin fuel a b) u) (exec (unifyWithin fuel b a) u') := by
  induction fuel generalizing a b ρ u u' with
  | zero => exact Mirrors.errors h _ _
  | succ fuel ih =>
    have hlimit : u'.limit = u.limit := by rw [h.counts]
    have hsteps : u'.steps = u.steps := by rw [h.counts]
    have hfree : ∀ x w, (u.apply x).occurs w = true → u.tick.subst.lookup w = none := fun x w hw =>
      h.coherent.triangular.lookup_of_occurs_apply hw
    rw [exec_unifyWithin_eq, exec_unifyWithin_eq, hlimit, hsteps, h.apply, h.apply]
    split
    · exact Mirrors.errors h.tick _ _
    · exact mirrored_meet ih h.tick (hfree a) (hfree b)

/-- **Unification is symmetric.** After any requests, and under any limit, unifying two types
succeeds in one order exactly if it does in the other. Either way, the two unifiers then differ only
in their bindings, and what these make of any type is the same up to a renaming of variables. It
leaves rigid variables alone and takes unbound variables to unbound ones, and an unbound variable
and the one that it becomes were merged: they stand for the same in both. -/
theorem unify_symmetric (stem : String) (initial limit : Nat) (rs : List Request) (a b : Ty) :
    let u : Unifier := { (Unifier.new stem initial).after rs with limit }
    let r := exec (unify a b) u
    let r' := exec (unify b a) u
    (r.1 = .ok () ↔ r'.1 = .ok ()) ∧ ∃ ρ : Equiv.Perm String,
      r'.2 = { r.2 with subst := r'.2.subst } ∧
      (∀ t, r'.2.apply t = (r.2.apply t).rename ρ) ∧
      (∀ v, Ty.rigidName v = true → ρ v = v) ∧
      (∀ v, r'.2.subst.lookup (ρ v) = none ↔ r.2.subst.lookup v = none) ∧
      ∀ v, r.2.subst.lookup v = none → r.2.apply (.var (ρ v)) = r.2.apply (.var v) ∧
      r'.2.apply (.var (ρ v)) = r'.2.apply (.var v) := by
  intro u r r'
  have hu : u.Coherent := (coherent_after stem initial rs).of_subst rfl
  have hsize : a.size + b.size = b.size + a.size := Nat.add_comm _ _
  have hmirrored := mirrored_unifyWithin (a.size + b.size + u.subst.size + 1) a b 1 u u hu.mirrors
  have hr : exec (unifyWithin (a.size + b.size + u.subst.size + 1) a b) u = r := rfl
  have hr' : exec (unifyWithin (a.size + b.size + u.subst.size + 1) b a) u = r' := by
    rw [hsize]
    rfl
  rw [hr, hr'] at hmirrored
  obtain ⟨hok, ρ, h⟩ := hmirrored
  refine ⟨hok, ρ, h.counts, h.apply, fun v hv => h.eq_of_rigid hv, fun v => h.lookup_eq_none_iff,
    fun v hv => h.apply_rename hv⟩

example : ((exec (unify (.var "a") (.var "b")) (.new "t" 0)).2.apply (.var "a") = .var "b") ∧
    (exec (unify (.var "b") (.var "a")) (.new "t" 0)).2.apply (.var "a") = .var "a" := by
  decide

end Unifying

end FunRiscv
