import Mathlib
import FunRiscv.Proofs.Ty.Agreement
import FunRiscv.Proofs.Ty.MostGeneral

/-!
# The variables of types

A fresh variable is new only if no type at hand holds a variable that the counter has
not reached yet.

* `Ty.Over`: every variable of a type is one of some variables. Substitutions and
  bindings keep that.
* `Unifier.Past`: a variable that no later fresh one can be.
* `Unifier.Tidy`: a coherent unifier whose bindings are over past variables.
  `Unifier.Tidy.lookup_fresh`: then a fresh variable is not bound.
* `Unifier.Reaches`: what fresh variables and unifications do to a unifier.
* `Unifier.Tidy.unify`: unifying types over past variables keeps a unifier tidy.
-/

namespace FunRiscv

namespace Ty

/-! ### Types over some variables -/

/-- Every variable of a type is one of some variables. -/
def Over (K : String → Prop) (t : Ty) : Prop := ∀ v, t.occurs v = true → K v

/-- A type without variables. -/
def Ground (t : Ty) : Prop := t.Over fun _ => False

variable {K L : String → Prop}

@[simp] theorem over_word (w : Word) : Over K (word w) := by simp [Over, occurs]

@[simp] theorem over_any : Over K any := by simp [Over, occurs]

@[simp] theorem over_none : Over K none := by simp [Over, occurs]

@[simp] theorem over_var {v : String} : Over K (var v) ↔ K v := by simp [Over, occurs]

@[simp]
theorem over_func {p r : Ty} : Over K (func p r) ↔ Over K p ∧ Over K r := by
  simp only [Over, occurs, Bool.or_eq_true, or_imp, forall_and]

@[simp]
theorem over_named {n : String} {ts : List Ty} : Over K (named n ts) ↔ ∀ t ∈ ts, Over K t := by
  simp only [Over, occurs, occursList_eq_any, List.any_eq_true]
  constructor
  · exact fun h t ht v hv => h v ⟨t, ht, hv⟩
  · rintro h v ⟨t, ht, hv⟩
    exact h t ht v hv

@[simp]
theorem over_tuple {ts : List Ty} : Over K (tuple ts) ↔ ∀ t ∈ ts, Over K t := by
  simp only [Over, occurs, occursList_eq_any, List.any_eq_true]
  constructor
  · exact fun h t ht v hv => h v ⟨t, ht, hv⟩
  · rintro h v ⟨t, ht, hv⟩
    exact h t ht v hv

theorem over_curry {ps : List Ty} {r : Ty} :
    Over K (curry ps r) ↔ (∀ t ∈ ps, Over K t) ∧ Over K r := by
  induction ps with
  | nil => simp [curry]
  | cons p ps ih =>
    show Over K (func p (curry ps r)) ↔ _
    simp only [over_func, ih, List.forall_mem_cons, and_assoc]

theorem Over.mono {t : Ty} (h : Over K t) (hKL : ∀ v, K v → L v) : Over L t :=
  fun v hv => hKL v (h v hv)

theorem Ground.over {t : Ty} (h : t.Ground) : Over K t := Over.mono h fun _ => False.elim

/-- Where the variables of a type are replaced by types over other variables. -/
theorem Over.bind {t : Ty} (h : Over K t) {f : String → Ty} (hf : ∀ v, K v → Over L (f v)) :
    Over L (t.bind f) := by
  intro w hw
  obtain ⟨v, hv, hvw⟩ := occurs_bind.1 hw
  exact hf v (h v hv) w hvw

/-- A type without variables stays as it is. -/
theorem Ground.bind_eq {t : Ty} (h : t.Ground) (f : String → Ty) : t.bind f = t := by
  conv_rhs => rw [← bind_var t]
  exact bind_congr fun v hv => (h v hv).elim

theorem Over.child {t c : Ty} (h : Over K t) (hc : c ∈ t.children) : Over K c :=
  fun v hv => h v (occurs_child hc hv)

/-! ### Parameters -/

/-- A parameter stands for one of the arguments, if there is one for every parameter. -/
theorem lookup_parameterMap {ps : List String} {ts : List Ty} (hlen : ts.length = ps.length)
    {v : String} (hv : v ∈ ps) : ∃ t ∈ ts, (parameterMap ps ts).lookup v = some t := by
  have hmem : ∃ t, (v, t) ∈ (ps.zip ts).reverse := by
    obtain ⟨i, hi, rfl⟩ := List.getElem_of_mem hv
    refine ⟨ts.get ⟨i, by omega⟩, List.mem_reverse.2 (List.mem_iff_getElem.2 ⟨i, ?_, ?_⟩)⟩
    · simp only [List.length_zip]
      omega
    · simp
  obtain ⟨t, ht⟩ := hmem
  cases hl : (parameterMap ps ts).lookup v with
  | none =>
    rw [List.lookup_eq_none_iff] at hl
    simpa using hl _ ht
  | some u =>
    obtain ⟨l₁, l₂, heq, -⟩ := List.lookup_eq_some_iff.1 hl
    have hu : (v, u) ∈ ps.zip ts := List.mem_reverse.1 (by
      show (v, u) ∈ parameterMap ps ts
      simp [heq])
    exact ⟨u, (List.of_mem_zip hu).2, rfl⟩

/-- A type over parameters becomes one over the variables of the arguments. -/
theorem Over.replace {ps : List String} {ts : List Ty} {t : Ty} (h : t.Over (· ∈ ps))
    (hlen : ts.length = ps.length) (hts : ∀ t ∈ ts, Over K t) :
    Over K (t.replace (parameterMap ps ts)) := by
  refine h.bind fun v hv => ?_
  obtain ⟨u, hu, hlookup⟩ := lookup_parameterMap hlen hv
  rw [hlookup]
  exact hts u hu

/-- Replacing the variables of the arguments replaces those of the result. -/
theorem Over.bind_replace {ps : List String} {ts : List Ty} {t : Ty} (h : t.Over (· ∈ ps))
    (hlen : ts.length = ps.length) (f : String → Ty) :
    (t.replace (parameterMap ps ts)).bind f = t.replace (parameterMap ps (ts.map (Ty.bind f))) := by
  have hmap : parameterMap ps (ts.map (Ty.bind f)) = (parameterMap ps ts).map fun e =>
    (e.1, e.2.bind f) := by
    rw [parameterMap, parameterMap, List.zip_map_right, List.map_reverse]
    rfl
  have hlookup : ∀ (m : List (String × Ty)) v,
      (m.map fun e => (e.1, e.2.bind f)).lookup v = (m.lookup v).map (Ty.bind f) := by
    intro m v
    induction m with
    | nil => rfl
    | cons e m ih =>
      rw [List.map_cons, List.lookup_cons, List.lookup_cons, ih]
      cases v == e.1 <;> rfl
  rw [Ty.replace, Ty.replace, bind_bind]
  refine bind_congr fun v hv => ?_
  obtain ⟨u, -, hu⟩ := lookup_parameterMap hlen (h v hv)
  rw [hmap, hlookup, hu]
  rfl

/-! ### Chains of function types -/

@[simp]
theorem bind_curry (f : String → Ty) (ps : List Ty) (r : Ty) :
    (curry ps r).bind f = curry (ps.map (bind f)) (r.bind f) := by
  induction ps with
  | nil => rfl
  | cons p ps ih =>
    show func (p.bind f) ((curry ps r).bind f) = _
    rw [ih]
    rfl

@[simp]
theorem curry_uncurry (t : Ty) : curry t.uncurry.1 t.uncurry.2 = t := by
  induction t using Ty.induction with
  | func p r _ ihr =>
    show func p (curry r.uncurry.1 r.uncurry.2) = _
    rw [ihr]
  | word | any | none | var | named | tuple => rfl

end Ty

/-! ### Bindings over some variables -/

/-- Bound variables and the variables of what they are bound to are among some variables. -/
def Subst.Over (K : String → Prop) (s : Subst) : Prop := ∀ e ∈ s, K e.1 ∧ e.2.Over K

namespace Subst

variable {K L : String → Prop} {s : Subst}

theorem Over.mono (h : s.Over K) (hKL : ∀ v, K v → L v) : s.Over L :=
  fun e he => ⟨hKL _ (h e he).1, (h e he).2.mono hKL⟩

theorem mem_of_lookup {v : String} {t : Ty} (h : s.lookup v = some t) : (v, t) ∈ s := by
  obtain ⟨l₁, l₂, rfl, -⟩ := List.lookup_eq_some_iff.1 h
  simp

theorem Over.insert (h : s.Over K) {v : String} {t : Ty} (hv : K v) (ht : t.Over K) :
    (s.insert v t).Over K := by
  intro e he
  rcases List.mem_cons.1 he with rfl | he
  · exact ⟨hv, ht⟩
  · exact h e (List.mem_of_mem_filter he)

theorem Over.apply (h : s.Over K) {t : Ty} (ht : t.Over K) : (s.apply t).Over K := by
  suffices hfuel : ∀ fuel (t : Ty), t.Over K → (s.applyWithin fuel t).Over K from hfuel _ t ht
  intro fuel
  induction fuel with
  | zero => exact fun t ht => ht
  | succ fuel ih =>
    refine fun t ht => ht.bind fun v hv => ?_
    cases hl : s.lookup v with
    | none => exact Ty.over_var.2 hv
    | some r => exact ih r (h _ (mem_of_lookup hl)).2

end Subst

namespace Unifying

variable {K : String → Prop}

/-- A unifier whose counter did not move and whose bindings are over some variables. -/
structure Within (K : String → Prop) (u u' : Unifier) : Prop where
  bindings : u'.subst.Over K
  stem : u'.stem = u.stem
  made : u'.made = u.made

theorem within_forPairs {act : Ty → Ty → Unifying Unit}
    (hact : ∀ a b (u : Unifier), u.subst.Over K → a.Over K → b.Over K →
      Within K u (exec (act a b) u).2) :
    ∀ (as bs : List Ty) (u : Unifier), u.subst.Over K → (∀ a ∈ as, a.Over K) →
      (∀ b ∈ bs, b.Over K) → Within K u (exec (forPairs act as bs) u).2
  | [], _, u, hu, _, _ | _ :: _, [], u, hu, _, _ => ⟨hu, rfl, rfl⟩
  | a :: as, b :: bs, u, hu, has, hbs => by
    have hab := hact a b u hu (has a (by simp)) (hbs b (by simp))
    rw [forPairs, exec_bind]
    rcases hr : exec (act a b) u with ⟨_ | _, u'⟩ <;> rw [hr] at hab
    · exact hab
    · have hrest :=
        within_forPairs hact as bs u' hab.bindings (fun a ha => has a (by simp [ha]))
          (fun b hb => hbs b (by simp [hb]))
      exact ⟨hrest.bindings, hrest.stem.trans hab.stem, hrest.made.trans hab.made⟩

theorem within_unifyWithin (fuel : Nat) (a b : Ty) (u : Unifier) (hu : u.subst.Over K)
    (ha : a.Over K) (hb : b.Over K) : Within K u (exec (unifyWithin fuel a b) u).2 := by
  induction fuel generalizing a b u with
  | zero => exact ⟨hu, rfl, rfl⟩
  | succ fuel ih =>
    have ha' : (u.apply a).Over K := hu.apply ha
    have hb' : (u.apply b).Over K := hu.apply hb
    have ho := exec_unifyWithin fuel a b u
    generalize u.apply a = a' at ho ha'
    generalize u.apply b = b' at ho hb'
    generalize exec (unifyWithin (fuel + 1) a b) u = r at ho
    cases ho with
    | limited | same | cyclic | dynamic | clash => exact ⟨hu, rfl, rfl⟩
    | bound v t hv hab hocc =>
      refine ⟨hu.insert ?_ ?_, rfl, rfl⟩
      · rcases hab with ⟨rfl, -⟩ | ⟨-, rfl⟩
        · exact Ty.over_var.1 ha'
        · exact Ty.over_var.1 hb'
      · rcases hab with ⟨-, rfl⟩ | ⟨rfl, -⟩
        · exact hb'
        · exact ha'
    | pairs hna hnb hhead =>
      have hpairs :=
        within_forPairs (fun a b u => ih a b u) a'.children b'.children u.tick hu
          (fun c hc => ha'.child hc) (fun c hc => hb'.child hc)
      exact ⟨hpairs.bindings, hpairs.stem, hpairs.made⟩

theorem within_unify {a b : Ty} {u : Unifier} (hu : u.subst.Over K) (ha : a.Over K)
    (hb : b.Over K) : Within K u (exec (unify a b) u).2 :=
  within_unifyWithin (a.size + b.size + u.subst.size + 1) a b u hu ha hb

end Unifying

/-! ### Fresh variables -/

namespace Unifier

/-- The name of the fresh variable of a number. -/
def freshName (u : Unifier) (n : Nat) : String := u.stem ++ "_" ++ toString n

theorem freshName_inj {u : Unifier} {m n : Nat} (h : u.freshName m = u.freshName n) : m = n := by
  have hlist : u.stem.toList ++ '_' :: Nat.toDigits 10 m =
    u.stem.toList ++ '_' :: Nat.toDigits 10 n := by
    simpa [freshName, ToString.toString] using congrArg String.toList h
  have hdigits : Nat.toDigits 10 m = Nat.toDigits 10 n := by simpa using hlist
  rw [← Nat.ofDigitChars_ten_toDigits (n := m), hdigits, Nat.ofDigitChars_ten_toDigits]

/-- A variable that no later fresh one can be. -/
def Past (u : Unifier) (v : String) : Prop := ∀ n, u.made < n → v ≠ u.freshName n

/-- A coherent unifier whose bindings are over past variables. -/
structure Tidy (u : Unifier) : Prop where
  coherent : u.Coherent
  past : u.subst.Over u.Past

/-- A unifier with the same bindings as another, and perhaps later bindings and fresh variables. -/
structure Reaches (u u' : Unifier) : Prop where
  suffix : u.subst <:+ u'.subst
  stem : u'.stem = u.stem
  made : u.made ≤ u'.made

variable {u u' u'' : Unifier}

theorem Reaches.refl (u : Unifier) : u.Reaches u := ⟨List.suffix_refl _, rfl, Nat.le_refl _⟩

theorem Reaches.trans (h : u.Reaches u') (h' : u'.Reaches u'') : u.Reaches u'' :=
  ⟨h.suffix.trans h'.suffix, h'.stem.trans h.stem, h.made.trans h'.made⟩

theorem Reaches.past (h : u.Reaches u') {v : String} (hv : u.Past v) : u'.Past v := by
  intro n hn
  have := hv n (h.made.trans_lt hn)
  rwa [freshName, ← h.stem] at this

theorem Reaches.over (h : u.Reaches u') {t : Ty} (ht : t.Over u.Past) : t.Over u'.Past :=
  ht.mono fun _ => h.past

/-- What makes the later bindings true makes the earlier ones true. -/
theorem Reaches.respects (h : u.Reaches u') (hu' : u'.Tidy) {f : String → Ty}
    (hf : Subst.Respects f u'.subst) : Subst.Respects f u.subst :=
  hu'.coherent.triangular.respects_of_suffix h.suffix hf

theorem tidy_new (stem : String) (limit : Nat) : (Unifier.new stem limit).Tidy :=
  ⟨coherent_new stem limit, fun e he => by simp [Unifier.new] at he⟩

theorem reaches_fresh (u : Unifier) : u.Reaches u.fresh.2 :=
  ⟨List.suffix_refl _, rfl, Nat.le_succ _⟩

theorem past_fresh (u : Unifier) : u.fresh.2.Past u.fresh.1 := by
  intro n hn heq
  have : u.made + 1 = n := freshName_inj heq
  exact absurd hn (by simp [fresh, this])

theorem Tidy.fresh (h : u.Tidy) : u.fresh.2.Tidy :=
  ⟨⟨h.coherent.triangular, h.coherent.flexible⟩, h.past.mono fun _ => (reaches_fresh u).past⟩

/-- A fresh variable is not bound. -/
theorem Tidy.lookup_fresh (h : u.Tidy) : u.subst.lookup u.fresh.1 = none := by
  cases hl : u.subst.lookup u.fresh.1 with
  | none => rfl
  | some t => exact absurd rfl ((h.past _ (Subst.mem_of_lookup hl)).1 (u.made + 1)
    (Nat.lt_succ_self _))

theorem Tidy.apply (h : u.Tidy) {t : Ty} (ht : t.Over u.Past) : (u.apply t).Over u.Past :=
  h.past.apply ht

/-- Unifying types over past variables only adds bindings over past variables. -/
theorem Tidy.unify (h : u.Tidy) {a b : Ty} (ha : a.Over u.Past) (hb : b.Over u.Past) :
    (Unifying.exec (Unifying.unify a b) u).2.Tidy ∧
      u.Reaches (Unifying.exec (Unifying.unify a b) u).2 := by
  have hgrows := Unifying.grows_unify a b u h.coherent
  have hwithin := Unifying.within_unify h.past ha hb
  have hreaches : u.Reaches (Unifying.exec (Unifying.unify a b) u).2 :=
    ⟨hgrows.suffix, hwithin.stem, hwithin.made.ge⟩
  exact ⟨⟨hgrows.coherent, hwithin.bindings.mono fun _ => hreaches.past⟩, hreaches⟩

end Unifier

end FunRiscv
