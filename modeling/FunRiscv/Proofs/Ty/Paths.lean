import Mathlib
import FunRiscv.Proofs.Ty.Substitution

/-!
# Paths through bindings

Following the bindings of a triangular substitution comes to an end by itself: a path meets every
bound variable at most once.

* `Subst.Leads`: following some bindings, one after the other, leads from a type to a variable.
* `Subst.Triangular.le_length_of_leads`: at most as many as there are.
  `Subst.Triangular.not_leads_back`: none leads back to its own variable.
* `Subst.Triangular.applyWithin_of_le`: so following bindings for longer changes nothing.
* `Subst.Triangular.lookup_of_suffix`: later bindings leave the earlier ones as they are.
-/

namespace FunRiscv.Subst

/-- Following some bindings, one after the other, leads from a type to a variable. -/
inductive Leads (s : Subst) : Nat → Ty → String → Prop where
  | here {t : Ty} {v : String} : t.occurs v = true → Leads s 0 t v
  | follow {d : Nat} {t r : Ty} {v w : String} :
    t.occurs v = true → s.lookup v = some r → Leads s d r w → Leads s (d + 1) t w

variable {s s' : Subst} {d : Nat} {t u : Ty} {v w : String}

/-- From a type without bound variables there is nothing to follow. -/
theorem Leads.of_unbound (h : Leads s d t w) (ht : ∀ v, t.occurs v = true → s.lookup v = none) :
    d = 0 ∧ t.occurs w = true := by
  cases h with
  | here hw => exact ⟨rfl, hw⟩
  | follow hv hr _ =>
    rw [ht _ hv] at hr
    cases hr

/-- One more binding, whose type holds no bound variable, can only be the last one on a path. -/
theorem Leads.of_cons (hu : ∀ w, u.occurs w = true → List.lookup w ((v, u) :: s) = none)
    (h : Leads ((v, u) :: s) d t w) :
    Leads s d t w ∨ ∃ e, d = e + 1 ∧ Leads s e t v ∧ u.occurs w = true := by
  induction h with
  | here hw => exact .inl (.here hw)
  | @follow d t r x w hx hr hrest ih =>
    by_cases hxv : x = v
    · subst hxv
      rw [lookup_cons_self] at hr
      obtain rfl := Option.some.inj hr
      obtain ⟨rfl, hw⟩ := hrest.of_unbound hu
      exact .inr ⟨0, rfl, .here hx, hw⟩
    · rw [lookup_cons_of_ne hxv] at hr
      rcases ih with ih | ⟨e, rfl, hv, hw⟩
      · exact .inl (.follow hx hr ih)
      · exact .inr ⟨e + 1, rfl, .follow hx hr hv, hw⟩

/-- No path follows more bindings than there are. -/
theorem Triangular.le_length_of_leads (hs : s.Triangular) (h : Leads s d t w) : d ≤ s.length := by
  induction hs generalizing d t w with
  | nil => exact (h.of_unbound fun _ _ => rfl).1.le
  | @cons s v u _ _ huv hu ih =>
    rcases h.of_cons fun _ => lookup_cons_of_occurs huv hu with h | ⟨e, rfl, h, -⟩
    · exact (ih h).trans (Nat.le_succ _)
    · exact Nat.succ_le_succ (ih h)

/-- No binding leads back to its own variable. -/
theorem Triangular.not_leads_back (hs : s.Triangular) (hv : s.lookup v = some t) :
    ¬Leads s d t v := by
  intro h
  induction hs generalizing d t v with
  | nil => cases hv
  | @cons s x u _ hx huv hu ih =>
    have hfree : ¬u.occurs v = true := fun hocc => by
      rw [lookup_cons_of_occurs huv hu hocc] at hv
      cases hv
    rcases h.of_cons fun _ => lookup_cons_of_occurs huv hu with hpath | ⟨-, -, -, hocc⟩
    · by_cases hvx : v = x
      · subst hvx
        rw [lookup_cons_self] at hv
        obtain rfl := Option.some.inj hv
        exact hfree (hpath.of_unbound hu).2
      · rw [lookup_cons_of_ne hvx] at hv
        exact ih hv hpath
    · exact hfree hocc

/-! ### Following bindings for longer -/

theorem applyWithin_eq_bind (s : Subst) (n : Nat) (t : Ty) :
    s.applyWithin n t = t.bind fun v => s.applyWithin n (.var v) := by
  cases n with
  | zero => exact (Ty.bind_var t).symm
  | succ n => rfl

theorem applyWithin_add (s : Subst) (m n : Nat) (t : Ty) :
    s.applyWithin (m + n) t = s.applyWithin n (s.applyWithin m t) := by
  induction m generalizing t with
  | zero => rw [Nat.zero_add, applyWithin]
  | succ m ih =>
    rw [Nat.add_right_comm, applyWithin.eq_2, applyWithin.eq_2, applyWithin_eq_bind, Ty.bind_bind]
    refine Ty.bind_congr fun v _ => ?_
    cases hv : s.lookup v with
    | none =>
      refine (applyWithin_of_unbound (fun w hw => ?_) n).symm
      obtain rfl : v = w := by simpa [Ty.occurs] using hw
      exact hv
    | some r => exact (ih r).trans (applyWithin_eq_bind s n _)

/-- Without cycles, following bindings for longer changes nothing. -/
theorem Triangular.applyWithin_of_le {s : Subst} (h : s.Triangular) {n : Nat}
    (hn : s.length + 1 ≤ n) (t : Ty) : s.applyWithin n t = s.apply t := by
  obtain ⟨k, rfl⟩ := Nat.exists_eq_add_of_le hn
  rw [applyWithin_add]
  exact applyWithin_of_unbound (fun _ hw => h.lookup_of_occurs_apply hw) k

/-- The variables that are left: those that are met after as many bindings as were to be followed,
and unbound ones met before. -/
theorem occurs_applyWithin {n : Nat} : (s.applyWithin n t).occurs w = true ↔
    Leads s n t w ∨ ∃ d < n, Leads s d t w ∧ s.lookup w = none := by
  induction n generalizing t with
  | zero =>
    rw [applyWithin]
    constructor
    · exact fun h => .inl (.here h)
    · rintro (h | ⟨d, hd, -⟩)
      · cases h with
        | here hw => exact hw
      · exact absurd hd (Nat.not_lt_zero d)
  | succ n ih =>
    rw [applyWithin, Ty.occurs_bind]
    constructor
    · rintro ⟨v, hv, hw⟩
      cases hl : s.lookup v with
      | none =>
        rw [hl] at hw
        obtain rfl : v = w := by simpa [Ty.occurs] using hw
        exact .inr ⟨0, Nat.succ_pos n, .here hv, hl⟩
      | some r =>
        rw [hl] at hw
        rcases ih.1 hw with hw | ⟨d, hd, hw, hfree⟩
        · exact .inl (.follow hv hl hw)
        · exact .inr ⟨d + 1, Nat.succ_lt_succ hd, .follow hv hl hw, hfree⟩
    · rintro (h | ⟨d, hd, h, hfree⟩)
      · cases h with
        | follow hv hl hw =>
          refine ⟨_, hv, ?_⟩
          rw [hl]
          exact ih.2 (.inl hw)
      · cases h with
        | here hw =>
          refine ⟨w, hw, ?_⟩
          rw [hfree]
          simp [Ty.occurs]
        | follow hv hl hw =>
          refine ⟨_, hv, ?_⟩
          rw [hl]
          exact ih.2 (.inr ⟨_, Nat.lt_of_succ_lt_succ hd, hw, hfree⟩)

/-- The variables that are left in the end are the unbound ones that paths lead to. -/
theorem Triangular.occurs_apply (hs : s.Triangular) :
    (s.apply t).occurs w = true ↔ ∃ d, Leads s d t w ∧ s.lookup w = none := by
  rw [apply, occurs_applyWithin]
  constructor
  · rintro (h | ⟨d, -, h⟩)
    · have := hs.le_length_of_leads h
      omega
    · exact ⟨d, h⟩
  · rintro ⟨d, h, hw⟩
    exact .inr ⟨d, Nat.lt_succ_of_le (hs.le_length_of_leads h), h, hw⟩

/-! ### Later bindings -/

/-- Later bindings leave the earlier ones as they are. -/
theorem Triangular.lookup_of_suffix (hs' : s'.Triangular) (hss' : s <:+ s')
    (hv : s.lookup v = some t) : s'.lookup v = some t := by
  induction hs' with
  | nil =>
    obtain rfl := List.suffix_nil.1 hss'
    exact hv
  | @cons s' x u _ hx _ _ ih =>
    rcases List.suffix_cons_iff.1 hss' with rfl | hsuffix
    · exact hv
    · have hvx : v ≠ x := by
        rintro rfl
        rw [ih hsuffix] at hx
        cases hx
      rw [lookup_cons_of_ne hvx]
      exact ih hsuffix

end FunRiscv.Subst
