import Mathlib
import FunRiscv.Proofs.Ty.Nesting

/-!
# Types without the dynamic type

* `Ty.Static`: the dynamic type stands nowhere in a type. `Ty.static_bind`: it comes into a type
  with a substitution for one of its variables only.
* `Unifier.Clear`: a type is static once the bindings are followed.
* `Subst.Adds`: later bindings, the new ones to static types. `Unifier.Clear.later`:
  they keep what is clear.
-/

namespace FunRiscv

/-- The dynamic type stands nowhere in a type. -/
def Ty.Static (t : Ty) : Prop := Ty.any ∉ t.nodes

instance (t : Ty) : Decidable t.Static := inferInstanceAs (Decidable (Ty.any ∉ t.nodes))

namespace Ty

theorem static_iff {t : Ty} : t.Static ↔ t ≠ any ∧ ∀ c ∈ t.children, c.Static := by
  unfold Static
  rw [nodes_eq, List.mem_cons, List.mem_flatMap, not_or]
  simp only [ne_eq, eq_comm, not_exists, not_and]

theorem Static.ne_any {t : Ty} (h : t.Static) : t ≠ any := (static_iff.1 h).1

theorem Static.child {t c : Ty} (h : t.Static) (hc : c ∈ t.children) : c.Static :=
  (static_iff.1 h).2 c hc

@[simp] theorem static_word (w : Word) : (word w).Static :=
  static_iff.2 ⟨by simp, by simp [children]⟩

@[simp] theorem static_none : none.Static := static_iff.2 ⟨by simp, by simp [children]⟩

@[simp] theorem static_var (v : String) : (var v).Static :=
  static_iff.2 ⟨by simp, by simp [children]⟩

@[simp] theorem not_static_any : ¬any.Static := fun h => h.ne_any rfl

@[simp]
theorem static_named {n : String} {ts : List Ty} : (named n ts).Static ↔ ∀ t ∈ ts, t.Static := by
  rw [static_iff]
  simp [children]

@[simp]
theorem static_tuple {ts : List Ty} : (tuple ts).Static ↔ ∀ t ∈ ts, t.Static := by
  rw [static_iff]
  simp [children]

@[simp]
theorem static_func {p r : Ty} : (func p r).Static ↔ p.Static ∧ r.Static := by
  rw [static_iff]
  simp [children]

theorem static_curry {ps : List Ty} {r : Ty} :
    (curry ps r).Static ↔ (∀ p ∈ ps, p.Static) ∧ r.Static := by
  induction ps with
  | nil => simp [curry]
  | cons p ps ih =>
    show (func p (curry ps r)).Static ↔ _
    rw [static_func, ih, List.forall_mem_cons, and_assoc]

/-- The dynamic type comes into a type with what is put for one of its variables. -/
theorem static_bind {t : Ty} {f : String → Ty} :
    (t.bind f).Static ↔ t.Static ∧ ∀ v, t.occurs v = true → (f v).Static := by
  induction t using Ty.induction with
  | word | none | any => simp [bind, occurs]
  | var v => simp [bind, occurs]
  | named n ts ih | tuple ts ih =>
    simp only [bind, occurs, bindList_eq_map, occursList_eq_any, static_named, static_tuple,
      List.forall_mem_map, List.any_eq_true]
    constructor
    · intro h
      refine ⟨fun t ht => ((ih t ht).1 (h t ht)).1, ?_⟩
      rintro v ⟨t, ht, hv⟩
      exact ((ih t ht).1 (h t ht)).2 v hv
    · rintro ⟨h, hf⟩ t ht
      exact (ih t ht).2 ⟨h t ht, fun v hv => hf v ⟨t, ht, hv⟩⟩
  | func p r ihp ihr =>
    simp only [bind, occurs, static_func, ihp, ihr, Bool.or_eq_true, or_imp, forall_and]
    tauto

theorem Static.bind_single {t r : Ty} (h : t.Static) (hr : r.Static) (v : String) :
    (t.bind (single v r)).Static := by
  refine static_bind.2 ⟨h, fun w _ => ?_⟩
  by_cases hw : w = v
  · rw [hw, single_self]
    exact hr
  · rw [single_of_ne r hw]
    exact static_var w

end Ty

/-! ### Bindings -/

/-- The dynamic type stands in no bound type. -/
def Subst.Static (s : Subst) : Prop := ∀ p ∈ s, p.2.Static

/-- Later bindings, the new ones to types without the dynamic type. -/
def Subst.Adds (s s' : Subst) : Prop := ∃ new : Subst, s' = new ++ s ∧ new.Static

namespace Subst

variable {s s' s'' : Subst} {t : Ty}

theorem Adds.refl (s : Subst) : s.Adds s := ⟨[], rfl, by simp [Static]⟩

theorem Adds.trans (h : s.Adds s') (h' : s'.Adds s'') : s.Adds s'' := by
  obtain ⟨new, rfl, hnew⟩ := h
  obtain ⟨new', rfl, hnew'⟩ := h'
  exact ⟨new' ++ new, (List.append_assoc new' new s).symm, List.forall_mem_append.2 ⟨hnew', hnew⟩⟩

theorem adds_cons (s : Subst) (v : String) (ht : t.Static) : s.Adds ((v, t) :: s) :=
  ⟨[(v, t)], rfl, by simpa [Static] using ht⟩

theorem Adds.static (h : s.Adds s') (hs : s.Static) : s'.Static := by
  obtain ⟨new, rfl, hnew⟩ := h
  exact List.forall_mem_append.2 ⟨hnew, hs⟩

/-- What is static after the earlier bindings is static after the later ones. -/
theorem Adds.apply (h : s.Adds s') (hs' : s'.Triangular) (ht : (s.apply t).Static) :
    (s'.apply t).Static := by
  obtain ⟨new, rfl, hnew⟩ := h
  induction new with
  | nil => exact ht
  | cons p new ih =>
    obtain ⟨hp, hrest⟩ := List.forall_mem_cons.1 hnew
    rw [List.cons_append] at hs' ⊢
    cases hs' with
    | cons hs hv hvu hu =>
      rw [hs.apply_cons hv hvu hu]
      exact (ih hrest hs).bind_single hp _

theorem Static.apply (h : s.Static) (hs : s.Triangular) (ht : t.Static) : (s.apply t).Static :=
  Adds.apply ⟨s, (List.append_nil s).symm, h⟩ hs (by rwa [apply_nil])

end Subst

/-! ### Types that are static once the bindings are followed -/

/-- The dynamic type stands nowhere in a type once the bindings are followed. -/
def Unifier.Clear (u : Unifier) (t : Ty) : Prop := (u.apply t).Static

namespace Unifier

variable {u u' : Unifier} {t : Ty}

/-- A type is clear if it is static and its variables are clear. -/
theorem clear_iff : u.Clear t ↔ t.Static ∧ ∀ v, t.occurs v = true → u.Clear (.var v) := by
  rw [Clear, apply_eq_bind, Ty.static_bind]
  rfl

theorem Clear.static (h : u.Clear t) : t.Static := (clear_iff.1 h).1

theorem Clear.later (h : u.Clear t) (hu' : u'.subst.Triangular) (hadds : u.subst.Adds u'.subst) :
    u'.Clear t := hadds.apply hu' h

theorem clear_of_static (hu : u.subst.Triangular) (hs : u.subst.Static) (ht : t.Static) :
    u.Clear t := hs.apply hu ht

/-- What stands in a type whose bindings were followed stays as it is. -/
theorem Coherent.apply_child (h : u.Coherent) {c : Ty} (hc : c ∈ (u.apply t).children) :
    u.apply c = c :=
  Subst.apply_of_unbound fun _ hw => h.triangular.lookup_of_occurs_apply (Ty.occurs_child hc hw)

theorem Clear.child (ht : u.Clear t) (h : u.Coherent) {c : Ty} (hc : c ∈ (u.apply t).children) :
    u.Clear c := by
  rw [Clear, h.apply_child hc]
  exact Ty.Static.child ht hc

end Unifier

end FunRiscv
