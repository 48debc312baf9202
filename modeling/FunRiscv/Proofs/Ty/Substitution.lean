import Mathlib
import FunRiscv.Ty.Unify

/-!
# Triangular substitutions

The unifier never rewrites a bound type: a later binding may concern a variable of an earlier one.
Such a substitution is *triangular*. This file proves what following its bindings does.

* `Ty.induction`: induction over types with one hypothesis for all members of a list.
* `Ty.bind_bind`, `Ty.bind_congr`, `Ty.occurs_bind`: substitutions as functions.
* `Subst.Triangular`: every bound type is free of the variables bound up to then.
* `Subst.apply_cons`: following one more binding replaces one more variable in the result.
* `Subst.apply_apply`, `Subst.lookup_of_occurs_apply`: nothing bound is left, so following
  again changes nothing.
* `Subst.Respects`: a substitution that makes every binding true, and `Subst.Respects.bind_apply`:
  it cannot tell a type from what the bindings make of it.
-/

namespace FunRiscv

namespace Ty

/-! ### Induction over types -/

/-- Induction over types, with one hypothesis for all members of a list. -/
theorem induction {P : Ty → Prop} (word : ∀ w, P (.word w)) (any : P .any) (none : P .none)
    (var : ∀ v, P (.var v)) (named : ∀ n args, (∀ t ∈ args, P t) → P (.named n args))
    (func : ∀ p r, P p → P r → P (.func p r))
    (tuple : ∀ elems, (∀ t ∈ elems, P t) → P (.tuple elems)) : ∀ t, P t
  | .word w => word w
  | .any => any
  | .none => none
  | .var v => var v
  | .named n args => named n args fun t _ => induction word any none var named func tuple t
  | .func p r =>
    func p r (induction word any none var named func tuple p)
      (induction word any none var named func tuple r)
  | .tuple elems => tuple elems fun t _ => induction word any none var named func tuple t

/-! ### Lists of types -/

@[simp]
theorem bindList_eq_map (f : String → Ty) (ts : List Ty) : bindList f ts = ts.map (bind f) := by
  induction ts with
  | nil => rfl
  | cons t ts ih => simp [bindList, ih]

@[simp]
theorem occursList_eq_any (v : String) (ts : List Ty) : occursList v ts = ts.any (occurs v) := by
  induction ts with
  | nil => rfl
  | cons t ts ih => simp [occursList, ih]

@[simp]
theorem sizeList_eq_sum (ts : List Ty) : sizeList ts = (ts.map size).sum := by
  induction ts with
  | nil => rfl
  | cons t ts ih => simp [sizeList, ih]

/-! ### Replacing variables -/

theorem bind_bind (f g : String → Ty) (t : Ty) :
    (t.bind f).bind g = t.bind fun v => (f v).bind g := by
  induction t using Ty.induction with
  | word | any | none | var => rfl
  | named n args ih =>
    simp only [bind, bindList_eq_map, List.map_map, named.injEq, true_and]
    exact List.map_congr_left ih
  | func p r ihp ihr => simp only [bind, ihp, ihr]
  | tuple elems ih =>
    simp only [bind, bindList_eq_map, List.map_map, tuple.injEq]
    exact List.map_congr_left ih

/-- Only the variables that occur in a type matter. -/
theorem bind_congr {f g : String → Ty} {t : Ty} (h : ∀ v, t.occurs v = true → f v = g v) :
    t.bind f = t.bind g := by
  induction t using Ty.induction with
  | word | any | none => rfl
  | var v => exact h v (by simp [occurs])
  | named n args ih =>
    simp only [bind, bindList_eq_map, named.injEq, true_and]
    refine List.map_congr_left fun t ht => ih t ht fun v hv => h v ?_
    simp only [occurs, occursList_eq_any, List.any_eq_true]
    exact ⟨t, ht, hv⟩
  | func p r ihp ihr =>
    simp only [bind, func.injEq]
    exact ⟨ihp fun v hv => h v (by simp [occurs, hv]), ihr fun v hv => h v (by simp [occurs, hv])⟩
  | tuple elems ih =>
    simp only [bind, bindList_eq_map, tuple.injEq]
    refine List.map_congr_left fun t ht => ih t ht fun v hv => h v ?_
    simp only [occurs, occursList_eq_any, List.any_eq_true]
    exact ⟨t, ht, hv⟩

@[simp]
theorem bind_var (t : Ty) : t.bind var = t := by
  induction t using Ty.induction with
  | word | any | none | var => rfl
  | named n args ih =>
    simp only [bind, bindList_eq_map, named.injEq, true_and]
    exact (List.map_congr_left ih).trans (List.map_id args)
  | func p r ihp ihr => simp only [bind, ihp, ihr]
  | tuple elems ih =>
    simp only [bind, bindList_eq_map, tuple.injEq]
    exact (List.map_congr_left ih).trans (List.map_id elems)

/-- A variable of the result comes from the image of a variable. -/
theorem occurs_bind {f : String → Ty} {t : Ty} {w : String} :
    (t.bind f).occurs w = true ↔ ∃ v, t.occurs v = true ∧ (f v).occurs w = true := by
  induction t using Ty.induction with
  | word | any | none => simp [bind, occurs]
  | var v => simp [bind, occurs]
  | named n args ih | tuple args ih =>
    simp only [bind, occurs, bindList_eq_map, occursList_eq_any, List.any_map, List.any_eq_true,
      Function.comp_apply]
    constructor
    · rintro ⟨t, ht, hw⟩
      obtain ⟨v, hv, hvw⟩ := (ih t ht).1 hw
      exact ⟨v, ⟨t, ht, hv⟩, hvw⟩
    · rintro ⟨v, ⟨t, ht, hv⟩, hvw⟩
      exact ⟨t, ht, (ih t ht).2 ⟨v, hv, hvw⟩⟩
  | func p r ihp ihr =>
    simp only [bind, occurs, Bool.or_eq_true, ihp, ihr]
    constructor
    · rintro (⟨v, hv, hw⟩ | ⟨v, hv, hw⟩)
      · exact ⟨v, .inl hv, hw⟩
      · exact ⟨v, .inr hv, hw⟩
    · rintro ⟨v, hv | hv, hw⟩
      · exact .inl ⟨v, hv, hw⟩
      · exact .inr ⟨v, hv, hw⟩

/-- The substitution that replaces one variable. -/
def single (v : String) (t : Ty) : String → Ty := fun w => if w = v then t else var w

@[simp]
theorem single_self (v : String) (t : Ty) : single v t v = t := by simp [single]

theorem single_of_ne {v w : String} (t : Ty) (h : w ≠ v) : single v t w = var w := by
  simp [single, h]

/-- A variable that does not occur may be replaced by anything. -/
theorem bind_single_of_not_occurs {v : String} {t u : Ty} (h : t.occurs v = false) :
    t.bind (single v u) = t := by
  conv_rhs => rw [← bind_var t]
  refine bind_congr fun w hw => single_of_ne u ?_
  rintro rfl
  simp [h] at hw

/-- The image of a variable is no larger than the image of a type it occurs in. -/
theorem size_le_size_bind {f : String → Ty} {t : Ty} {v : String} (h : t.occurs v = true) :
    (f v).size ≤ (t.bind f).size := by
  induction t using Ty.induction with
  | word | any | none => simp [occurs] at h
  | var w =>
    obtain rfl : w = v := by simpa [occurs] using h
    rfl
  | named n args ih | tuple args ih =>
    simp only [occurs, occursList_eq_any, List.any_eq_true] at h
    obtain ⟨t, ht, hv⟩ := h
    have hle : (t.bind f).size ≤ ((args.map (bind f)).map size).sum :=
      List.le_sum_of_mem (List.mem_map_of_mem (List.mem_map_of_mem ht))
    have := ih t ht hv
    simp only [bind, bindList_eq_map, size, sizeList_eq_sum]
    omega
  | func p r ihp ihr =>
    simp only [occurs, Bool.or_eq_true] at h
    simp only [bind, size]
    rcases h with h | h
    · have := ihp h
      omega
    · have := ihr h
      omega

/-- No substitution makes a variable equal to a larger type that it occurs in. -/
theorem bind_ne_of_occurs {f : String → Ty} {t : Ty} {v : String} (h : t.occurs v = true)
    (hne : t ≠ var v) : f v ≠ t.bind f := by
  intro heq
  have hsize : (f v).size = (t.bind f).size := by rw [← heq]
  cases t with
  | word | any | none => simp [occurs] at h
  | var w => exact hne (by simpa [occurs] using h)
  | named n args | tuple args =>
    simp only [occurs, occursList_eq_any, List.any_eq_true] at h
    obtain ⟨t, ht, hv⟩ := h
    have hle : (t.bind f).size ≤ ((args.map (bind f)).map size).sum :=
      List.le_sum_of_mem (List.mem_map_of_mem (List.mem_map_of_mem ht))
    have := size_le_size_bind (f := f) hv
    simp only [bind, bindList_eq_map, size, sizeList_eq_sum] at hsize
    omega
  | func p r =>
    simp only [occurs, Bool.or_eq_true] at h
    simp only [bind, size] at hsize
    rcases h with h | h
    · have := size_le_size_bind (f := f) h
      omega
    · have := size_le_size_bind (f := f) h
      omega

end Ty

namespace Subst

/-! ### Following bindings -/

theorem lookup_cons_self (v : String) (t : Ty) (s : Subst) :
    List.lookup v ((v, t) :: s) = some t := by
  simp

theorem lookup_cons_of_ne {v w : String} (h : w ≠ v) (t : Ty) (s : Subst) :
    List.lookup w ((v, t) :: s) = List.lookup w s := by
  have hb : (w == v) = false := by simp [h]
  simp [List.lookup_cons, hb]

/-- What is bound last holds no bound variable, if it holds neither its own nor one that
was bound before. -/
theorem lookup_cons_of_occurs {s : Subst} {v w : String} {u : Ty} (huv : u.occurs v = false)
    (hu : ∀ w, u.occurs w = true → s.lookup w = none) (hw : u.occurs w = true) :
    List.lookup w ((v, u) :: s) = none := by
  have hne : w ≠ v := by
    rintro rfl
    simp [huv] at hw
  rw [lookup_cons_of_ne hne]
  exact hu w hw

/-- What a variable is bound to, or the variable itself. -/
def value (s : Subst) (v : String) : Ty := (s.lookup v).getD (.var v)

theorem applyWithin_one (s : Subst) (t : Ty) : s.applyWithin 1 t = t.bind s.value := by
  refine Ty.bind_congr fun v _ => ?_
  unfold value
  cases s.lookup v <;> rfl

/-- A type without bound variables stays as it is. -/
theorem applyWithin_of_unbound {s : Subst} {t : Ty} (h : ∀ w, t.occurs w = true → s.lookup w = none)
    (fuel : Nat) : s.applyWithin fuel t = t := by
  cases fuel with
  | zero => rfl
  | succ fuel =>
    conv_rhs => rw [← Ty.bind_var t]
    refine Ty.bind_congr fun w hw => ?_
    simp [h w hw]

/-- Types bound to variables are free of the variables bound up to then, and of their
own variable. -/
inductive Triangular : Subst → Prop where
  | nil : Triangular []
  | cons {s : Subst} {v : String} {t : Ty} : Triangular s → s.lookup v = none → t.occurs v = false →
      (∀ w, t.occurs w = true → s.lookup w = none) → Triangular ((v, t) :: s)

/-- One more binding, whose type holds no bound variable, is followed last. -/
theorem applyWithin_cons {s : Subst} {v : String} {u : Ty} (hv : s.lookup v = none)
    (hu : ∀ w, u.occurs w = true → List.lookup w ((v, u) :: s) = none) (fuel : Nat) (t : Ty) :
    applyWithin ((v, u) :: s) (fuel + 1) t = (s.applyWithin fuel t).bind (value ((v, u) :: s)) := by
  induction fuel generalizing t with
  | zero => exact applyWithin_one _ t
  | succ fuel ih =>
    rw [applyWithin.eq_2, applyWithin.eq_2, Ty.bind_bind]
    refine Ty.bind_congr fun w _ => ?_
    by_cases hw : w = v
    · subst hw
      simp only [lookup_cons_self, hv, Ty.bind, value, Option.getD_some]
      exact applyWithin_of_unbound hu (fuel + 1)
    · rw [lookup_cons_of_ne hw]
      cases hr : s.lookup w with
      | none => simp [Ty.bind, value, lookup_cons_of_ne hw, hr]
      | some r => exact ih r

/-- Nothing bound is left, and one more binding replaces one more variable in the result. -/
theorem Triangular.apply_spec {s : Subst} (h : s.Triangular) :
    (∀ t w, (s.apply t).occurs w = true → s.lookup w = none) ∧
      ∀ v u, s.lookup v = none → u.occurs v = false → (∀ w, u.occurs w = true → s.lookup w = none) →
        ∀ t, apply ((v, u) :: s) t = (s.apply t).bind (Ty.single v u) := by
  -- The second part follows from the first at every length, so the induction carries the first.
  have step : ∀ {s : Subst}, (∀ t w, (s.apply t).occurs w = true → s.lookup w = none) →
      ∀ v u, s.lookup v = none → u.occurs v = false → (∀ w, u.occurs w = true → s.lookup w = none) →
        ∀ t, apply ((v, u) :: s) t = (s.apply t).bind (Ty.single v u) := by
    intro s hfree v u hv huv hu t
    have hu' : ∀ w, u.occurs w = true → List.lookup w ((v, u) :: s) = none :=
      fun _ => lookup_cons_of_occurs huv hu
    show applyWithin ((v, u) :: s) (s.length + 1 + 1) t = _
    rw [applyWithin_cons hv hu']
    refine Ty.bind_congr fun w hw => ?_
    have hw' := hfree t w hw
    by_cases hwv : w = v
    · simp [hwv, value]
    · simp [value, lookup_cons_of_ne hwv, hw', Ty.single_of_ne u hwv]
  have free : ∀ t w, (s.apply t).occurs w = true → s.lookup w = none := by
    induction h with
    | nil => simp
    | @cons s v u hs hv huv hu ih =>
      intro t w hw
      rw [step ih v u hv huv hu t, Ty.occurs_bind] at hw
      obtain ⟨x, hx, hxw⟩ := hw
      by_cases hxv : x = v
      · rw [hxv, Ty.single_self] at hxw
        exact lookup_cons_of_occurs huv hu hxw
      · rw [Ty.single_of_ne u hxv] at hxw
        obtain rfl : x = w := by simpa [Ty.occurs] using hxw
        rw [lookup_cons_of_ne hxv]
        exact ih t x hx
  exact ⟨free, step free⟩

/-- Nothing bound is left. -/
theorem Triangular.lookup_of_occurs_apply {s : Subst} (h : s.Triangular) {t : Ty} {w : String}
    (hw : (s.apply t).occurs w = true) : s.lookup w = none := h.apply_spec.1 t w hw

/-- One more binding replaces one more variable in the result. -/
theorem Triangular.apply_cons {s : Subst} (h : s.Triangular) {v : String} {u : Ty}
    (hv : s.lookup v = none) (huv : u.occurs v = false)
    (hu : ∀ w, u.occurs w = true → s.lookup w = none) (t : Ty) :
    apply ((v, u) :: s) t = (s.apply t).bind (Ty.single v u) := h.apply_spec.2 v u hv huv hu t

theorem apply_of_unbound {s : Subst} {t : Ty} (h : ∀ w, t.occurs w = true → s.lookup w = none) :
    s.apply t = t :=
  applyWithin_of_unbound h _

/-- Following bindings again changes nothing. -/
theorem Triangular.apply_apply {s : Subst} (h : s.Triangular) (t : Ty) :
    s.apply (s.apply t) = s.apply t :=
  apply_of_unbound fun _ hw => h.lookup_of_occurs_apply hw

/-- Following bindings is a substitution. -/
theorem apply_eq_bind (s : Subst) (t : Ty) : s.apply t = t.bind fun v => s.apply (.var v) := by
  show s.applyWithin (s.length + 1) t = t.bind fun v => s.applyWithin (s.length + 1) (.var v)
  rfl

@[simp]
theorem apply_nil (t : Ty) : apply [] t = t := apply_of_unbound fun _ _ => rfl

/-! ### Substitutions that make bindings true -/

/-- A substitution makes every binding true. -/
def Respects (f : String → Ty) (s : Subst) : Prop := ∀ v t, s.lookup v = some t → f v = t.bind f

theorem respects_nil (f : String → Ty) : Respects f [] := by simp [Respects]

/-- Making one more binding true. -/
theorem respects_cons {f : String → Ty} {s : Subst} {v : String} {t : Ty} (hv : s.lookup v = none) :
    Respects f ((v, t) :: s) ↔ Respects f s ∧ f v = t.bind f := by
  constructor
  · intro h
    refine ⟨fun w u hw => h w u ?_, h v t (lookup_cons_self v t s)⟩
    have hne : w ≠ v := by
      rintro rfl
      simp [hv] at hw
    rwa [lookup_cons_of_ne hne]
  · rintro ⟨h, hvt⟩ w u hw
    by_cases hwv : w = v
    · subst hwv
      rw [lookup_cons_self] at hw
      exact Option.some.inj hw ▸ hvt
    · rw [lookup_cons_of_ne hwv] at hw
      exact h w u hw

/-- A substitution that makes every binding true cannot tell a type from what the
bindings make of it. -/
theorem Respects.bind_apply {f : String → Ty} {s : Subst} (h : Respects f s) (hs : s.Triangular)
    (t : Ty) : (s.apply t).bind f = t.bind f := by
  induction hs generalizing t with
  | nil => rw [apply_nil]
  | @cons s v u hs hv huv hu ih =>
    obtain ⟨hf, hvu⟩ := (respects_cons hv).1 h
    rw [hs.apply_cons hv huv hu, Ty.bind_bind, ← ih hf t]
    refine Ty.bind_congr fun w _ => ?_
    by_cases hw : w = v
    · rw [hw, Ty.single_self, hvu]
    · rw [Ty.single_of_ne u hw]
      rfl

/-- Following the bindings is itself a substitution that makes them true. -/
theorem Triangular.respects_apply {s : Subst} (h : s.Triangular) :
    Respects (fun v => s.apply (.var v)) s := by
  intro v t hv
  rw [← apply_eq_bind]
  show s.apply (.var v) = s.apply t
  induction h with
  | nil => simp at hv
  | @cons s w u hs hw huw hu ih =>
    rw [hs.apply_cons hw huw hu, hs.apply_cons hw huw hu]
    by_cases hvw : v = w
    · subst hvw
      rw [lookup_cons_self] at hv
      obtain rfl := Option.some.inj hv
      rw [apply_of_unbound (t := .var v) (by simpa [Ty.occurs] using hw), apply_of_unbound hu,
        Ty.bind_single_of_not_occurs huw]
      exact Ty.single_self v u
    · rw [lookup_cons_of_ne hvw] at hv
      rw [ih hv]

end Subst

end FunRiscv
