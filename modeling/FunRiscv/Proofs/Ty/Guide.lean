import Mathlib
import FunRiscv.Proofs.Ty.Variables

/-!
# One unifier ahead of another

Two runs of the checker on the same source, a free one and a guided one that knows something about
the result beforehand. Where the free run has a variable, the guided one may have a type already.
Both head for the same solution.

* `Unifier.Plain`, `Unifier.Proper`: a unifier that can always bind its fresh variables, and types
  over past variables that are static once the bindings are followed. `Unifier.Extends`: a later
  unifier, for which they still are.
* `Guide`: what the guided run has for the variables of the free run, and what the variables of the
  guided run will stand for.
* `Guide.Relates`, `Guide.Matches`: unifiers and types of the two runs that belong together.
* `Guide.Leads`: how the two runs go on.
* `Guide.Relates.unify`: types that match can be unified in the guided run if they
  could in the free one.
* `Guide.Relates.fresh`, `Guide.Relates.fresh_for`: a fresh variable in both runs, or in the free
  one for a type of the guided one.
-/

namespace FunRiscv

/-- Whether bindings are true depends on the variables in them only. -/
theorem Subst.Respects.congr {f k : String → Ty} {s : Subst} {K : String → Prop} (h : Respects f s)
    (hs : s.Over K) (hfk : ∀ v, K v → k v = f v) : Respects k s := by
  intro v t hv
  obtain ⟨hK, ht⟩ := hs _ (mem_of_lookup hv)
  rw [hfk v hK, h v t hv]
  exact Ty.bind_congr fun w hw => (hfk w (ht w hw)).symm

/-- A substitution after one that makes bindings true makes them true. -/
theorem Subst.Respects.bind {f : String → Ty} {s : Subst} (h : Respects f s) (k : String → Ty) :
    Respects (fun v => (f v).bind k) s := by
  intro v t hv
  dsimp only
  rw [h v t hv, Ty.bind_bind]

namespace Unifier

/-! ### Plain unifiers and proper types -/

/-- A tidy unifier that counts no steps and may bind its fresh variables. -/
structure Plain (u : Unifier) : Prop where
  tidy : u.Tidy
  limit : u.limit = 0
  flexible : ∀ n, Ty.rigidName (u.freshName n) = false

/-- A type over past variables that is static once the bindings are followed. -/
structure Proper (u : Unifier) (t : Ty) : Prop where
  past : t.Over u.Past
  clear : u.Clear t

/-- A later unifier: what it binds since is static. -/
structure Extends (u u' : Unifier) : Prop where
  plain : u'.Plain
  reaches : u.Reaches u'
  adds : u.subst.Adds u'.subst

variable {u u' u'' : Unifier} {t a b : Ty} {f : String → Ty}

theorem Plain.coherent (h : u.Plain) : u.Coherent := h.tidy.coherent

theorem Plain.triangular (h : u.Plain) : u.subst.Triangular := h.tidy.coherent.triangular

theorem Plain.apply_apply (h : u.Plain) (t : Ty) : u.apply (u.apply t) = u.apply t :=
  h.triangular.apply_apply t

theorem Plain.bind_apply (h : u.Plain) (hf : Subst.Respects f u.subst) (t : Ty) :
    (u.apply t).bind f = t.bind f :=
  hf.bind_apply h.triangular t

/-- A rigid variable is a past one. -/
theorem Plain.past_of_rigid (h : u.Plain) {v : String} (hv : Ty.rigidName v = true) : u.Past v := by
  rintro n - rfl
  simp [h.flexible n] at hv

theorem Extends.refl (h : u.Plain) : u.Extends u := ⟨h, .refl u, .refl _⟩

theorem Extends.trans (h : u.Extends u') (h' : u'.Extends u'') : u.Extends u'' :=
  ⟨h'.plain, h.reaches.trans h'.reaches, h.adds.trans h'.adds⟩

theorem Extends.apply_apply (h : u.Extends u') (t : Ty) : u'.apply (u.apply t) = u'.apply t :=
  h.plain.triangular.apply_apply_of_suffix h.reaches.suffix t

theorem Extends.respects (h : u.Extends u') (hf : Subst.Respects f u'.subst) :
    Subst.Respects f u.subst :=
  h.reaches.respects h.plain.tidy hf

/-- What is clear later was clear before. -/
theorem Extends.clear_of (h : u.Extends u') (ht : u'.Clear t) : u.Clear t := by
  rw [Clear, ← h.apply_apply, apply_eq_bind, Ty.static_bind] at ht
  exact ht.1

theorem Proper.later (ht : u.Proper t) (h : u.Extends u') : u'.Proper t :=
  ⟨h.reaches.over ht.past, ht.clear.later h.plain.triangular h.adds⟩

theorem proper_bind : u.Proper (t.bind f) ↔ t.Static ∧ ∀ v, t.occurs v = true → u.Proper (f v) := by
  have hclear : u.Clear (t.bind f) ↔ t.Static ∧ ∀ v, t.occurs v = true → u.Clear (f v) := by
    rw [Clear, apply_eq_bind, Ty.bind_bind, Ty.static_bind]
    simp only [← apply_eq_bind, Clear]
  constructor
  · intro h
    obtain ⟨hstatic, hf⟩ := hclear.1 h.clear
    exact ⟨hstatic, fun v hv => ⟨fun w hw => h.past w (Ty.occurs_bind.2 ⟨v, hv, hw⟩), hf v hv⟩⟩
  · rintro ⟨hstatic, hf⟩
    refine ⟨fun w hw => ?_, hclear.2 ⟨hstatic, fun v hv => (hf v hv).clear⟩⟩
    obtain ⟨v, hv, hvw⟩ := Ty.occurs_bind.1 hw
    exact (hf v hv).past w hvw

/-- A type is proper if it is static and its variables are proper. -/
theorem proper_iff : u.Proper t ↔ t.Static ∧ ∀ v, t.occurs v = true → u.Proper (.var v) := by
  conv_lhs => rw [← Ty.bind_var t]
  exact proper_bind

theorem proper_of_ground (hstatic : t.Static) (hground : t.Ground) : u.Proper t :=
  proper_iff.2 ⟨hstatic, fun v hv => (hground v hv).elim⟩

@[simp] theorem proper_word (w : Word) : u.Proper (.word w) :=
  proper_of_ground (Ty.static_word w) (Ty.over_word w)

@[simp] theorem proper_none : u.Proper .none := proper_of_ground Ty.static_none Ty.over_none

@[simp]
theorem proper_func {p r : Ty} : u.Proper (.func p r) ↔ u.Proper p ∧ u.Proper r := by
  rw [proper_iff, proper_iff (t := p), proper_iff (t := r)]
  simp only [Ty.static_func, Ty.occurs, Bool.or_eq_true, or_imp, forall_and]
  tauto

theorem proper_children {ts : List Ty} : (∀ t ∈ ts, u.Proper t) ↔
    (∀ t ∈ ts, t.Static) ∧ ∀ v, (∃ t ∈ ts, t.occurs v = true) → u.Proper (.var v) := by
  constructor
  · intro h
    refine ⟨fun t ht => (proper_iff.1 (h t ht)).1, ?_⟩
    rintro v ⟨t, ht, hv⟩
    exact (proper_iff.1 (h t ht)).2 v hv
  · rintro ⟨hstatic, hvars⟩ t ht
    exact proper_iff.2 ⟨hstatic t ht, fun v hv => hvars v ⟨t, ht, hv⟩⟩

@[simp]
theorem proper_tuple {ts : List Ty} : u.Proper (.tuple ts) ↔ ∀ t ∈ ts, u.Proper t := by
  rw [proper_iff, proper_children]
  simp only [Ty.static_tuple, Ty.occurs, Ty.occursList_eq_any, List.any_eq_true]

@[simp]
theorem proper_named {n : String} {ts : List Ty} :
    u.Proper (.named n ts) ↔ ∀ t ∈ ts, u.Proper t := by
  rw [proper_iff, proper_children]
  simp only [Ty.static_named, Ty.occurs, Ty.occursList_eq_any, List.any_eq_true]

theorem proper_curry {ps : List Ty} {r : Ty} :
    u.Proper (Ty.curry ps r) ↔ (∀ p ∈ ps, u.Proper p) ∧ u.Proper r := by
  induction ps with
  | nil => simp [Ty.curry]
  | cons p ps ih =>
    show u.Proper (.func p (Ty.curry ps r)) ↔ _
    rw [proper_func, ih, List.forall_mem_cons, and_assoc]

theorem proper_replace {ps : List String} {ts : List Ty} (ht : t.Static) (hover : t.Over (· ∈ ps))
    (hlen : ts.length = ps.length) (hts : ∀ t ∈ ts, u.Proper t) :
    u.Proper (t.replace (Ty.parameterMap ps ts)) := by
  refine proper_bind.2 ⟨ht, fun v hv => ?_⟩
  obtain ⟨s, hs, hlookup⟩ := Ty.lookup_parameterMap hlen (hover v hv)
  rw [hlookup]
  exact hts s hs

theorem Proper.applied (ht : u.Proper t) (h : u.Plain) : u.Proper (u.apply t) :=
  ⟨h.tidy.apply ht.past, by rw [Clear, h.apply_apply]; exact ht.clear⟩

theorem Plain.extends_fresh (h : u.Plain) : u.Extends u.fresh.2 :=
  ⟨⟨h.tidy.fresh, h.limit, h.flexible⟩, u.reaches_fresh, .refl _⟩

theorem Plain.apply_fresh (h : u.Plain) : u.fresh.2.apply (.var u.fresh.1) = .var u.fresh.1 :=
  Subst.apply_of_unbound fun w hw => by
    obtain rfl : u.fresh.1 = w := by simpa [Ty.occurs] using hw
    exact h.tidy.lookup_fresh

theorem Plain.proper_fresh (h : u.Plain) : u.fresh.2.Proper (.var u.fresh.1) := by
  refine ⟨Ty.over_var.2 u.past_fresh, ?_⟩
  rw [Clear, h.apply_fresh]
  exact Ty.static_var _

/-- The fresh variable is new. -/
theorem ne_fresh_of_past {v : String} (hv : u.Past v) : v ≠ u.fresh.1 :=
  hv (u.made + 1) (Nat.lt_succ_self _)

/-- Past variables after one more was made. -/
theorem past_fresh_iff {v : String} : u.fresh.2.Past v ↔ v = u.fresh.1 ∨ u.Past v := by
  constructor
  · intro hv
    by_cases heq : v = u.fresh.1
    · exact .inl heq
    · refine .inr fun n hn => ?_
      rcases Nat.lt_or_eq_of_le (Nat.succ_le_of_lt hn) with hlt | rfl
      · exact hv n hlt
      · exact heq
  · rintro (rfl | hv)
    · exact u.past_fresh
    · exact u.reaches_fresh.past hv

theorem Plain.unify (h : u.Plain) (ha : u.Proper a) (hb : u.Proper b) {r : Except TypeError Unit}
    (hu : Unifying.exec (Unifying.unify a b) u = (r, u')) :
    u.Extends u' ∧ ∀ v, u'.Past v ↔ u.Past v := by
  have hmeaning := Unifying.meaning_unify a b u h.coherent h.limit ha.clear hb.clear
  obtain ⟨htidy, hreaches⟩ := h.tidy.unify ha.past hb.past
  have hwithin := Unifying.within_unify h.tidy.past ha.past hb.past
  have hgrows := Unifying.grows_unify a b u h.coherent
  rw [hu] at hmeaning htidy hreaches hwithin hgrows
  have hmade : u'.made = u.made := hwithin.made
  have hname : ∀ n, u'.freshName n = u.freshName n :=
    fun n => by rw [freshName, freshName, hwithin.stem]
  refine ⟨⟨⟨htidy, hgrows.limit.trans h.limit, fun n => hname n ▸ h.flexible n⟩, hreaches,
    hmeaning.adds⟩, fun v => ?_⟩
  unfold Past
  simp only [hname, hmade]

/-- What a unification says about substitutions. -/
theorem Plain.respects_unify (h : u.Plain) (ha : u.Proper a) (hb : u.Proper b)
    (hu : Unifying.exec (Unifying.unify a b) u = (.ok (), u')) (hf : Ty.Flexible f) :
    Subst.Respects f u'.subst ↔ Subst.Respects f u.subst ∧ a.bind f = b.bind f := by
  have hmeaning := Unifying.meaning_unify a b u h.coherent h.limit ha.clear hb.clear
  rw [hu] at hmeaning
  exact hmeaning.ok rfl f hf

/-- Types that a substitution makes equal can be unified, and then following the bindings
makes them equal. -/
theorem Plain.exists_unify (h : u.Plain) (ha : u.Proper a) (hb : u.Proper b) (hflex : Ty.Flexible f)
    (hf : Subst.Respects f u.subst) (heq : a.bind f = b.bind f) :
    ∃ u', Unifying.exec (Unifying.unify a b) u = (.ok (), u') ∧ u'.apply a = u'.apply b := by
  have hmeaning := Unifying.meaning_unify a b u h.coherent h.limit ha.clear hb.clear
  have hexhausted := Unifying.exec_unify_ne_exhausted h.coherent a b
  rcases hr : Unifying.exec (Unifying.unify a b) u with ⟨e | _, u'⟩
  · rw [hr] at hmeaning hexhausted
    exact absurd heq (hmeaning.error e rfl (hexhausted e rfl) f hflex hf)
  · have hplain := (h.unify ha hb hr).1.plain
    have := ((h.respects_unify ha hb hr hplain.coherent.flexible_apply).1
      hplain.triangular.respects_apply).2
    rw [← apply_eq_bind, ← apply_eq_bind] at this
    exact ⟨u', rfl, this⟩

end Unifier

/-! ### The two runs -/

/-- The types that a guided run has for the variables of a free one, and what its own
variables will stand for. -/
structure Guide where
  image : String → Ty
  goal : String → Ty

namespace Guide

/-- Unifiers of a free and a guided run. What the free one binds is true of the types that the
guided one has for its variables, and the goals turn these into a given solution `θ`. -/
structure Relates (g : Guide) (θ : String → Ty) (u w : Unifier) : Prop where
  free : u.Plain
  guided : w.Plain
  image_flexible : Ty.Flexible g.image
  image_respects : Subst.Respects g.image u.subst
  image_applied : ∀ v, u.Past v → w.apply (g.image v) = g.image v
  image_past : ∀ v, u.Past v → (g.image v).Over w.Past
  image_static : ∀ v, u.Proper (.var v) → (g.image v).Static
  goal_flexible : Ty.Flexible g.goal
  goal_respects : Subst.Respects g.goal w.subst
  goal_meets : ∀ v, u.Past v → (g.image v).bind g.goal = θ v

/-- A type of the free run and one of the guided run that is the same but for what stands
for the variables. -/
structure Matches (g : Guide) (u w : Unifier) (t t' : Ty) : Prop where
  proper : u.Proper t
  past : t'.Over w.Past
  eq : w.apply t' = t.bind g.image

/-- Later unifiers of both runs, with a guide that agrees with the one before. -/
structure Leads (g : Guide) (u w : Unifier) (g' : Guide) (u' w' : Unifier) : Prop where
  free : u.Extends u'
  guided : w.Extends w'
  image : ∀ v, u.Past v → g'.image v = w'.apply (g.image v)
  goal : ∀ v, w.Past v → g'.goal v = g.goal v

variable {g g' g'' : Guide} {θ : String → Ty} {u u' u'' w w' w'' : Unifier} {t t' s s' : Ty}

theorem Leads.refl (h : g.Relates θ u w) : g.Leads u w g u w :=
  ⟨.refl h.free, .refl h.guided, fun v hv => (h.image_applied v hv).symm, fun _ _ => rfl⟩

theorem Leads.trans (h : g.Leads u w g' u' w') (h' : g'.Leads u' w' g'' u'' w'') :
    g.Leads u w g'' u'' w'' := by
  refine ⟨h.free.trans h'.free, h.guided.trans h'.guided, fun v hv => ?_, fun v hv => ?_⟩
  · rw [h'.image v (h.free.reaches.past hv), h.image v hv, h'.guided.apply_apply]
  · rw [h'.goal v (h.guided.reaches.past hv), h.goal v hv]

/-- The goal of a type stays. -/
theorem Leads.bind_goal (h : g.Leads u w g' u' w') (ht : t.Over w.Past) :
    t.bind g'.goal = t.bind g.goal :=
  Ty.bind_congr fun v hv => h.goal v (ht v hv)

/-- The guide of two runs that start with the same unifier. -/
def start (θ : String → Ty) (u : Unifier) : Guide := ⟨fun v => u.apply (.var v), θ⟩

theorem relates_start (hu : u.Plain) (hflex : Ty.Flexible θ) (hθ : Subst.Respects θ u.subst) :
    (start θ u).Relates θ u u where
  free := hu
  guided := hu
  image_flexible := hu.coherent.flexible_apply
  image_respects := hu.triangular.respects_apply
  image_applied v _ := hu.apply_apply (.var v)
  image_past _ hv := hu.tidy.apply (Ty.over_var.2 hv)
  image_static _ hv := hv.clear
  goal_flexible := hflex
  goal_respects := hθ
  goal_meets v _ := hu.bind_apply hθ (.var v)

theorem matches_start (ht : u.Proper t) : (start θ u).Matches u u t t :=
  ⟨ht, ht.past, u.apply_eq_bind t⟩

/-! ### Types that match -/

theorem Relates.bind_proper (h : g.Relates θ u w) (ht : u.Proper t) :
    w.Proper (t.bind g.image) := by
  obtain ⟨hstatic, hvars⟩ := Unifier.proper_iff.1 ht
  refine Unifier.proper_bind.2 ⟨hstatic, fun v hv => ?_⟩
  have hpast := Ty.over_var.1 (hvars v hv).past
  refine ⟨h.image_past v hpast, ?_⟩
  rw [Unifier.Clear, h.image_applied v hpast]
  exact h.image_static v (hvars v hv)

theorem Relates.apply_bind (h : g.Relates θ u w) (ht : t.Over u.Past) :
    w.apply (t.bind g.image) = t.bind g.image := by
  rw [Unifier.apply_eq_bind, Ty.bind_bind]
  refine Ty.bind_congr fun v hv => ?_
  rw [← Unifier.apply_eq_bind]
  exact h.image_applied v (ht v hv)

/-- A type and what the guided run has for it. -/
theorem Relates.matches_bind (h : g.Relates θ u w) (ht : u.Proper t) :
    g.Matches u w t (t.bind g.image) :=
  ⟨ht, (h.bind_proper ht).past, h.apply_bind ht.past⟩

theorem Relates.matches_ground (h : g.Relates θ u w) (hstatic : t.Static) (hground : t.Ground) :
    g.Matches u w t t := by
  have := h.matches_bind (Unifier.proper_of_ground hstatic hground)
  rwa [hground.bind_eq] at this

theorem Relates.matches_word (h : g.Relates θ u w) (r : Word) : g.Matches u w (.word r) (.word r) :=
  h.matches_ground (Ty.static_word r) (Ty.over_word r)

theorem Matches.proper' (ht : g.Matches u w t t') (h : g.Relates θ u w) : w.Proper t' := by
  refine ⟨ht.past, ?_⟩
  rw [Unifier.Clear, ht.eq, ← h.apply_bind ht.proper.past]
  exact (h.bind_proper ht.proper).clear

/-- Types that match have the same solution. -/
theorem Matches.goal (ht : g.Matches u w t t') (h : g.Relates θ u w) :
    t'.bind g.goal = t.bind θ := by
  rw [← h.guided.bind_apply h.goal_respects, ht.eq, Ty.bind_bind]
  exact Ty.bind_congr fun v hv => h.goal_meets v (ht.proper.past v hv)

/-- The guided run knows all that the free one knows of a type. -/
theorem Matches.apply_eq (ht : g.Matches u w t t') (h : g.Relates θ u w) :
    w.apply t' = (u.apply t).bind g.image := by
  rw [ht.eq, h.free.bind_apply h.image_respects]

theorem Matches.applied (ht : g.Matches u w t t') (h : g.Relates θ u w) :
    g.Matches u w (u.apply t) (w.apply t') :=
  ⟨ht.proper.applied h.free,
    h.guided.tidy.apply ht.past, by rw [h.guided.apply_apply, ht.apply_eq h]⟩

/-- What matches still does later. -/
theorem Matches.later (ht : g.Matches u w t t') (hl : g.Leads u w g' u' w') :
    g'.Matches u' w' t t' := by
  refine ⟨ht.proper.later hl.free, hl.guided.reaches.over ht.past, ?_⟩
  rw [← hl.guided.apply_apply, ht.eq, Unifier.apply_eq_bind, Ty.bind_bind]
  refine Ty.bind_congr fun v hv => ?_
  rw [← Unifier.apply_eq_bind, hl.image v (ht.proper.past v hv)]

theorem Matches.func (ht : g.Matches u w t t') (hs : g.Matches u w s s') :
    g.Matches u w (.func t s) (.func t' s') := by
  refine ⟨Unifier.proper_func.2 ⟨ht.proper, hs.proper⟩, Ty.over_func.2 ⟨ht.past, hs.past⟩, ?_⟩
  show Ty.func (w.apply t') (w.apply s') = _
  rw [ht.eq, hs.eq]
  rfl

theorem map_apply_of_forall₂ {ts ts' : List Ty} (h : List.Forall₂ (g.Matches u w) ts ts') :
    ts'.map w.apply = ts.map (Ty.bind g.image) := by
  induction h with
  | nil => rfl
  | cons ht _ ih => rw [List.map_cons, List.map_cons, ih, ht.eq]

theorem proper_of_forall₂ {ts ts' : List Ty} (h : List.Forall₂ (g.Matches u w) ts ts') :
    ∀ t ∈ ts, u.Proper t := by
  induction h with
  | nil => simp
  | cons ht _ ih => exact List.forall_mem_cons.2 ⟨ht.proper, ih⟩

theorem past_of_forall₂ {ts ts' : List Ty} (h : List.Forall₂ (g.Matches u w) ts ts') :
    ∀ t ∈ ts', t.Over w.Past := by
  induction h with
  | nil => simp
  | cons ht _ ih => exact List.forall_mem_cons.2 ⟨ht.past, ih⟩

theorem Matches.tuple {ts ts' : List Ty} (h : List.Forall₂ (g.Matches u w) ts ts') :
    g.Matches u w (.tuple ts) (.tuple ts') := by
  refine ⟨Unifier.proper_tuple.2 (proper_of_forall₂ h), Ty.over_tuple.2 (past_of_forall₂ h), ?_⟩
  rw [Unifier.apply_eq_bind, Ty.bind, Ty.bind, Ty.bindList_eq_map, Ty.bindList_eq_map,
    ← map_apply_of_forall₂ h]
  rfl

theorem Matches.named {n : String} {ts ts' : List Ty} (h : List.Forall₂ (g.Matches u w) ts ts') :
    g.Matches u w (.named n ts) (.named n ts') := by
  refine ⟨Unifier.proper_named.2 (proper_of_forall₂ h), Ty.over_named.2 (past_of_forall₂ h), ?_⟩
  rw [Unifier.apply_eq_bind, Ty.bind, Ty.bind, Ty.bindList_eq_map, Ty.bindList_eq_map,
    ← map_apply_of_forall₂ h]
  rfl

theorem Matches.curry {ts ts' : List Ty} (h : List.Forall₂ (g.Matches u w) ts ts')
    (ht : g.Matches u w t t') : g.Matches u w (Ty.curry ts t) (Ty.curry ts' t') := by
  induction h with
  | nil => exact ht
  | cons hu _ ih => exact hu.func ih

/-- A type over parameters, with arguments that match. -/
theorem Matches.replace {ps : List String} {ts ts' : List Ty}
    (h : List.Forall₂ (g.Matches u w) ts ts') (ht : t.Static) (hover : t.Over (· ∈ ps))
    (hlen : ts.length = ps.length) :
    g.Matches u w (t.replace (Ty.parameterMap ps ts)) (t.replace (Ty.parameterMap ps ts')) := by
  have hlen' : ts'.length = ps.length := h.length_eq.symm.trans hlen
  refine ⟨Unifier.proper_replace ht hover hlen (proper_of_forall₂ h),
    hover.replace hlen' (past_of_forall₂ h), ?_⟩
  rw [Unifier.apply_eq_bind, hover.bind_replace hlen', hover.bind_replace hlen,
    ← map_apply_of_forall₂ h]
  rfl

/-! ### How the runs go on -/

/-- The given solution leaves rigid variables alone. -/
theorem Relates.flexible (h : g.Relates θ u w) : Ty.Flexible θ := by
  intro v hv
  rw [← h.goal_meets v (h.free.past_of_rigid hv), h.image_flexible v hv]
  exact h.goal_flexible v hv

/-- Types with the same goal can be unified in the guided run. -/
theorem Relates.unify_guided (h : g.Relates θ u w) (ht : w.Proper t) (hs : w.Proper s)
    (heq : t.bind g.goal = s.bind g.goal) :
    ∃ w' g', Unifying.exec (Unifying.unify t s) w = (.ok (), w') ∧ w'.apply t = w'.apply s ∧
      g'.Relates θ u w' ∧ g.Leads u w g' u w' := by
  obtain ⟨w', hw', happly⟩ := h.guided.exists_unify ht hs h.goal_flexible h.goal_respects heq
  obtain ⟨hext, hpast⟩ := h.guided.unify ht hs hw'
  have hgoal : Subst.Respects g.goal w'.subst :=
    (h.guided.respects_unify ht hs hw' h.goal_flexible).2 ⟨h.goal_respects, heq⟩
  refine ⟨w', ⟨fun v => w'.apply (g.image v), g.goal⟩, hw', happly, ?_, ⟨.refl h.free, hext,
    fun _ _ => rfl, fun _ _ => rfl⟩⟩
  refine ⟨h.free, hext.plain, fun v hv => ?_, ?_, fun v _ => hext.plain.apply_apply _,
    fun v hv => ?_, fun v hv => ?_, h.goal_flexible, hgoal, fun v hv => ?_⟩
  · dsimp only
    rw [h.image_flexible v hv]
    exact hext.plain.coherent.flexible_apply v hv
  · have hcomposed := h.image_respects.bind fun v => w'.apply (.var v)
    simp only [← Unifier.apply_eq_bind] at hcomposed
    exact hcomposed
  · exact hext.plain.tidy.apply (hext.reaches.over (h.image_past v hv))
  · have hproper := h.bind_proper hv
    exact (hproper.later hext).clear
  · dsimp only
    rw [hext.plain.bind_apply hgoal, h.goal_meets v hv]

/-- Types whose images are equal were unified in the free run. -/
theorem Relates.unify_free (h : g.Relates θ u w) (ht : u.Proper t) (hs : u.Proper s)
    (hu : Unifying.exec (Unifying.unify t s) u = (.ok (), u'))
    (heq : t.bind g.image = s.bind g.image) : g.Relates θ u' w ∧ g.Leads u w g u' w := by
  obtain ⟨hext, hpast⟩ := h.free.unify ht hs hu
  refine ⟨?_, hext, .refl h.guided, fun v hv => (h.image_applied v hv).symm, fun _ _ => rfl⟩
  refine ⟨hext.plain, h.guided, h.image_flexible,
    (h.free.respects_unify ht hs hu h.image_flexible).2 ⟨h.image_respects, heq⟩,
    fun v hv => h.image_applied v ((hpast v).1 hv), fun v hv => h.image_past v ((hpast v).1 hv),
    fun v hv => ?_, h.goal_flexible, h.goal_respects, fun v hv => h.goal_meets v ((hpast v).1 hv)⟩
  exact h.image_static v ⟨Ty.over_var.2 ((hpast v).1 (Ty.over_var.1 hv.past)),
    hext.clear_of hv.clear⟩

/-- Types that match can be unified in the guided run if they were in the free one. -/
theorem Relates.unify (h : g.Relates θ u w) (ht : g.Matches u w t t') (hs : g.Matches u w s s')
    (hu : Unifying.exec (Unifying.unify t s) u = (.ok (), u')) (hθ : Subst.Respects θ u'.subst) :
    ∃ w' g', Unifying.exec (Unifying.unify t' s') w = (.ok (), w') ∧ g'.Relates θ u' w' ∧
      g.Leads u w g' u' w' := by
  have hgoal : t'.bind g.goal = s'.bind g.goal := by
    rw [ht.goal h, hs.goal h]
    exact ((h.free.respects_unify ht.proper hs.proper hu h.flexible).1 hθ).2
  obtain ⟨w', g', hw', happly, hrel, hlead⟩ := h.unify_guided (ht.proper' h) (hs.proper' h) hgoal
  have himage : t.bind g'.image = s.bind g'.image := by
    rw [← (ht.later hlead).eq, ← (hs.later hlead).eq, happly]
  obtain ⟨hrel', hlead'⟩ := hrel.unify_free ht.proper hs.proper hu himage
  exact ⟨w', g', hw', hrel', hlead.trans hlead'⟩

/-- A fresh variable of the free run, for which the guided run has a type that heads for
the same solution. -/
theorem Relates.fresh_for (h : g.Relates θ u w) (ht : w.Proper t)
    (hgoal : t.bind g.goal = θ u.fresh.1) :
    ∃ g', g'.Relates θ u.fresh.2 w ∧ g.Leads u w g' u.fresh.2 w ∧
      g'.Matches u.fresh.2 w (.var u.fresh.1) t := by
  have hold : ∀ v, u.Past v → (if v = u.fresh.1 then w.apply t else g.image v) = g.image v :=
    fun v hv =>
    if_neg (Unifier.ne_fresh_of_past hv)
  have hext := h.free.extends_fresh
  refine ⟨⟨fun v => if v = u.fresh.1 then w.apply t else g.image v, g.goal⟩, ?_,
    ⟨hext, .refl h.guided, fun v hv => ?_, fun _ _ => rfl⟩, ⟨h.free.proper_fresh, ht.past,
      (if_pos rfl).symm⟩⟩
  · refine ⟨hext.plain, h.guided, fun v hv => ?_, h.image_respects.congr h.free.tidy.past hold,
      fun v hv => ?_, fun v hv => ?_, fun v hv => ?_, h.goal_flexible, h.goal_respects,
      fun v hv => ?_⟩
    · exact (hold v (h.free.past_of_rigid hv)).trans (h.image_flexible v hv)
    · rcases Unifier.past_fresh_iff.1 hv with rfl | hv
      · simp only [if_pos, h.guided.apply_apply]
      · simp only [hold v hv, h.image_applied v hv]
    · rcases Unifier.past_fresh_iff.1 hv with rfl | hv
      · simp only [if_pos]
        exact h.guided.tidy.apply ht.past
      · simp only [hold v hv]
        exact h.image_past v hv
    · rcases Unifier.past_fresh_iff.1 (Ty.over_var.1 hv.past) with rfl | hpast
      · simp only [if_pos]
        exact ht.clear
      · simp only [hold v hpast]
        exact h.image_static v ⟨Ty.over_var.2 hpast, hext.clear_of hv.clear⟩
    · rcases Unifier.past_fresh_iff.1 hv with rfl | hv
      · simp only [if_pos, h.guided.bind_apply h.goal_respects, hgoal]
      · simp only [hold v hv, h.goal_meets v hv]
  · dsimp only
    rw [hold v hv, h.image_applied v hv]

/-- A fresh variable of the guided run, with any goal. -/
theorem Relates.fresh_guided (h : g.Relates θ u w) (r : Ty) :
    ∃ g', g'.Relates θ u w.fresh.2 ∧ g.Leads u w g' u w.fresh.2 ∧ g'.goal w.fresh.1 = r := by
  have hold : ∀ v, w.Past v → (if v = w.fresh.1 then r else g.goal v) = g.goal v :=
    fun v hv => if_neg (Unifier.ne_fresh_of_past hv)
  have hext := h.guided.extends_fresh
  refine ⟨⟨g.image, fun v => if v = w.fresh.1 then r else g.goal v⟩, ?_, ⟨.refl h.free, hext,
    fun v hv => ?_, hold⟩, if_pos rfl⟩
  · refine ⟨h.free, hext.plain, h.image_flexible, h.image_respects, h.image_applied,
      fun v hv => hext.reaches.over (h.image_past v hv), h.image_static, fun v hv => ?_,
      h.goal_respects.congr h.guided.tidy.past hold, fun v hv => ?_⟩
    · exact (hold v (h.guided.past_of_rigid hv)).trans (h.goal_flexible v hv)
    · rw [← h.goal_meets v hv]
      exact Ty.bind_congr fun x hx => hold x (h.image_past v hv x hx)
  · exact (h.image_applied v hv).symm

/-- A fresh variable in both runs. -/
theorem Relates.fresh (h : g.Relates θ u w) :
    ∃ g', g'.Relates θ u.fresh.2 w.fresh.2 ∧ g.Leads u w g' u.fresh.2 w.fresh.2 ∧
      g'.Matches u.fresh.2 w.fresh.2 (.var u.fresh.1) (.var w.fresh.1) := by
  obtain ⟨g₁, hrel₁, hlead₁, hgoal⟩ := h.fresh_guided (θ u.fresh.1)
  obtain ⟨g₂, hrel₂, hlead₂, hmatch⟩ := hrel₁.fresh_for h.guided.proper_fresh hgoal
  exact ⟨g₂, hrel₂, hlead₁.trans hlead₂, hmatch⟩

end Guide

end FunRiscv
