import Mathlib
import FunRiscv.Proofs.Typing.Steady

/-!
# Unifiers on top of others

What a unifier does depends neither on the variables and bindings that were there before nor on the
steps counted so far, except that a limit may be reached sooner.

* `Unifier.Own`, `Unifier.relocate`: the variables that a unifier makes, and what they are called in
  another one, when others were made before. The two may call their variables differently, as long
  as these are rigid in both or in none.
* `Unifier.atop`: a unifier moved on top of another one. `Unifier.apply_atop`: its bindings are
  followed in the same way there.
* `Unifier.WithinLimit`: the limit was not reached.
* `Unifying.Parallel`: two runs that end alike. `Unifying.parallel_unify`: unifying does, with and
  without others before.
-/

namespace FunRiscv

/-! ### Names of variables -/

namespace Unifier

/-- The variables that a unifier makes sooner or later. -/
def Own (u : Unifier) (v : String) : Prop := ∃ n, 0 < n ∧ v = u.freshName n

/-- Fresh variables of two unifiers are rigid in both or in none. -/
def Alike (base source : Unifier) : Prop :=
  ∀ m n, Ty.rigidName (base.freshName m) = Ty.rigidName (source.freshName n)

open Classical in
/-- What a variable of one unifier is called in another one, when all variables that the other one
made so far come before. -/
noncomputable def relocate (base source : Unifier) (v : String) : String :=
  if h : source.Own v then base.freshName (base.made + h.choose) else v

/-- A variable of one unifier, as it is called when all variables that another one made
so far come before. -/
noncomputable def lift (base source : Unifier) (v : String) : Ty := .var (base.relocate source v)

variable {source base u : Unifier} {v w : String}

theorem relocate_freshName (base source : Unifier) {n : Nat} (hn : 0 < n) :
    base.relocate source (source.freshName n) = base.freshName (base.made + n) := by
  have h : source.Own (source.freshName n) := ⟨n, hn, rfl⟩
  rw [relocate, dif_pos h, ← freshName_inj h.choose_spec.2]

theorem relocate_inj (hv : source.Own v) (hw : source.Own w) :
    base.relocate source v = base.relocate source w ↔ v = w := by
  refine ⟨fun h => ?_, fun h => h ▸ rfl⟩
  obtain ⟨m, hm, rfl⟩ := hv
  obtain ⟨n, hn, rfl⟩ := hw
  rw [relocate_freshName base source hm, relocate_freshName base source hn] at h
  rw [Nat.add_left_cancel (freshName_inj h)]

theorem rigidName_freshName (u : Unifier) (n : Nat) :
    Ty.rigidName (u.freshName n) = Ty.rigidName (u.stem ++ "_") := by
  simp only [Ty.rigidName, freshName, String.toList_append]
  cases u.stem.toList <;> rfl

theorem alike_of_stem (h : base.stem = source.stem) : base.Alike source := fun m n => by
  rw [rigidName_freshName, rigidName_freshName, h]

theorem rigidName_relocate (h : base.Alike source) (hv : source.Own v) :
    Ty.rigidName (base.relocate source v) = Ty.rigidName v := by
  obtain ⟨n, hn, rfl⟩ := hv
  rw [relocate_freshName base source hn]
  exact h _ _

/-- What is bound already is no relocated variable. -/
theorem Tidy.lookup_relocate (hu : base.Tidy) (hv : source.Own v) :
    base.subst.lookup (base.relocate source v) = none := by
  obtain ⟨n, hn, rfl⟩ := hv
  rw [relocate_freshName base source hn]
  cases hl : base.subst.lookup (base.freshName (base.made + n)) with
  | none => rfl
  | some t => exact absurd rfl ((hu.past _ (Subst.mem_of_lookup hl)).1 (base.made + n) (by omega))

end Unifier

namespace Ty

variable {base source : Unifier} {a b t : Ty} {v : String}

theorem occurs_bind_lift (ht : t.Over source.Own) (hv : source.Own v) :
    (t.bind (base.lift source)).occurs (base.relocate source v) = t.occurs v := by
  rw [Bool.eq_iff_iff, occurs_bind]
  constructor
  · rintro ⟨w, hw, hvw⟩
    have hname : base.relocate source w = base.relocate source v := by
      simpa [Unifier.lift, occurs] using hvw
    rwa [← (Unifier.relocate_inj (ht w hw) hv).1 hname]
  · exact fun h => ⟨v, h, by simp [Unifier.lift, occurs]⟩

/-- Types over own variables stay different. -/
theorem bind_lift_inj (ha : a.Over source.Own) (hb : b.Over source.Own) :
    a.bind (base.lift source) = b.bind (base.lift source) ↔ a = b := by
  refine ⟨fun h => ?_, fun h => h ▸ rfl⟩
  have hinj : Set.InjOn (base.relocate source) {v | source.Own v} :=
    fun v hv w hw => (Unifier.relocate_inj hv hw).1
  have back : ∀ {t : Ty}, t.Over source.Own →
      (t.bind (base.lift source)).bind
        (fun w => var (Function.invFunOn (base.relocate source) {v | source.Own v} w)) = t := by
    intro t ht
    rw [bind_bind]
    conv_rhs => rw [← bind_var t]
    exact bind_congr fun v hv => congrArg var (hinj.leftInvOn_invFunOn (ht v hv))
  rw [← back ha, h, back hb]

theorem bindable?_bind_lift (h : base.Alike source) (ht : t.Over source.Own) :
    Unifying.bindable? (t.bind (base.lift source)) =
      (Unifying.bindable? t).map (base.relocate source) := by
  cases t with
  | var v =>
    simp only [bind, Unifier.lift, Unifying.bindable?, Unifier.rigidName_relocate h (over_var.1 ht)]
    split <;> rfl
  | word | any | none | named | func | tuple => rfl

theorem children_bind_lift (t : Ty) :
    (t.bind (base.lift source)).children = t.children.map (bind (base.lift source)) := by
  cases t <;> simp [bind, children, Unifier.lift]

theorem sameHead_bind_lift (ha : a.Over source.Own) (hb : b.Over source.Own) :
    (a.bind (base.lift source)).sameHead (b.bind (base.lift source)) = a.sameHead b := by
  cases a <;> cases b <;> simp_all [bind, sameHead, Unifier.lift, Unifier.relocate_inj, over_var]

theorem bind_lift_eq_any : t.bind (base.lift source) = any ↔ t = any := by
  cases t <;> simp [bind, Unifier.lift]

theorem size_bind_lift (base source : Unifier) (t : Ty) :
    (t.bind (base.lift source)).size = t.size := by
  induction t using Ty.induction with
  | word | any | none | var => rfl
  | named n ts ih | tuple ts ih =>
    simp only [bind, size, sizeList_eq_sum, bindList_eq_map, List.map_map]
    exact congrArg (·.sum + 1) (List.map_congr_left ih)
  | func p r ihp ihr => simp only [bind, size, ihp, ihr]

end Ty

/-! ### A unifier on top of another -/

namespace Unifier

/-- A unifier on top of another: what it did comes after what the other did, under the names and the
limit of the other. -/
noncomputable def atop (base source u : Unifier) : Unifier :=
  { base with
    subst := (u.subst.map fun e => (base.relocate source e.1, e.2.bind (base.lift source))) ++
      base.subst
    made := base.made + u.made
    steps := base.steps + u.steps }

/-- The number of steps is not beyond the limit. -/
def WithinLimit (u : Unifier) : Prop := u.limit = 0 ∨ u.steps ≤ u.limit

theorem beyond_iff (u : Unifier) :
    (u.limit > 0 && u.limit < u.steps + 1) = true ↔ ¬u.tick.WithinLimit := by
  simp only [WithinLimit, tick, Bool.and_eq_true, decide_eq_true_eq]
  omega

/-- A unifier without a limit, of the stem of a source, that only binds variables of the source, and
can be put on top of another. -/
structure Movable (base source u : Unifier) : Prop where
  alike : base.Alike source
  stem : u.stem = source.stem
  limit : u.limit = 0
  coherent : u.Coherent
  own : u.subst.Over source.Own

variable {u u' base source : Unifier} {v w : String} {a b t : Ty}

theorem WithinLimit.before (h : (base.atop source u').WithinLimit) (hsteps : u.steps ≤ u'.steps) :
    (base.atop source u).WithinLimit :=
  h.imp_right fun h => by
    simp only [atop] at h ⊢
    omega

theorem lookup_atop (hbase : base.Tidy) (hu : base.Movable source u) (hv : source.Own v) :
    (base.atop source u).subst.lookup (base.relocate source v) =
      (u.subst.lookup v).map (Ty.bind (base.lift source)) := by
  have hown := hu.own
  rw [atop, List.lookup_append, hbase.lookup_relocate hv, Option.or_none]
  generalize u.subst = s at hown
  induction s with
  | nil => rfl
  | cons e s ih =>
    have he := hown e List.mem_cons_self
    rw [List.map_cons, List.lookup_cons, List.lookup_cons,
      ih fun d hd => hown d (List.mem_cons_of_mem _ hd)]
    have hname : (base.relocate source v == base.relocate source e.1) = (v == e.1) := by
      rw [Bool.eq_iff_iff, beq_iff_eq, beq_iff_eq, relocate_inj hv he.1]
    rw [hname]
    cases v == e.1 <;> rfl

theorem applyWithin_atop (hbase : base.Tidy) (hu : base.Movable source u) (n : Nat)
    (ht : t.Over source.Own) :
    (base.atop source u).subst.applyWithin n (t.bind (base.lift source)) =
      (u.subst.applyWithin n t).bind (base.lift source) := by
  induction n generalizing t with
  | zero => rfl
  | succ n ih =>
    rw [Subst.applyWithin, Subst.applyWithin, Ty.bind_bind, Ty.bind_bind]
    refine Ty.bind_congr fun v hv => ?_
    rw [lift, Ty.bind, lookup_atop hbase hu (ht v hv)]
    cases hl : u.subst.lookup v with
    | none => rfl
    | some r => exact ih (hu.own _ (Subst.mem_of_lookup hl)).2

/-- Bindings are followed in the same way on top of others. -/
theorem apply_atop (hbase : base.Tidy) (hu : base.Movable source u) (ht : t.Over source.Own) :
    (base.atop source u).apply (t.bind (base.lift source)) =
      (u.apply t).bind (base.lift source) := by
  rw [apply, Subst.apply, applyWithin_atop hbase hu _ ht, hu.coherent.triangular.applyWithin_of_le]
  · rfl
  · simp [atop]

theorem Movable.apply (hu : base.Movable source u) (ht : t.Over source.Own) :
    (u.apply t).Over source.Own := hu.own.apply ht

theorem movable_new {stem : String} (h : base.Alike (Unifier.new stem 0)) :
    base.Movable (Unifier.new stem 0) (Unifier.new stem 0) :=
  ⟨h, rfl, rfl, coherent_new stem 0, fun e he => by simp [Unifier.new] at he⟩

theorem Movable.tick (hu : base.Movable source u) : base.Movable source u.tick :=
  ⟨hu.alike, hu.stem, hu.limit, hu.coherent.of_subst rfl, hu.own⟩

theorem Movable.fresh (hu : base.Movable source u) : base.Movable source u.fresh.2 :=
  ⟨hu.alike, hu.stem, hu.limit, hu.coherent.of_subst rfl, hu.own⟩

theorem own_fresh (hu : base.Movable source u) : source.Own u.fresh.1 :=
  ⟨u.made + 1, Nat.succ_pos _, by rw [freshName, ← hu.stem]; rfl⟩

/-- A fresh variable is the same on top of others, under another name. -/
theorem fresh_atop (hu : base.Movable source u) :
    (base.atop source u).fresh = (base.relocate source u.fresh.1, base.atop source u.fresh.2) := by
  have hname : u.fresh.1 = source.freshName (u.made + 1) := by rw [freshName, ← hu.stem]; rfl
  rw [hname, relocate_freshName base source (Nat.succ_pos _)]
  rfl

end Unifier

namespace Unifying

open Unifier

variable {base source u : Unifier} {a b : Ty}

/-! ### Deeper calls -/

/-- A call goes on in the same way if it may nest deeper, unless it nested too deeply. -/
def Lasting (r r' : Except TypeError Unit × Unifier) : Prop :=
  (∀ e, r.1 = .error e → e.cause ≠ .exhausted) → r' = r

theorem lasting_forPairs {act act' : Ty → Ty → Unifying Unit}
    (hact : ∀ a b u, Lasting (exec (act a b) u) (exec (act' a b) u)) :
    ∀ (as bs : List Ty) (u : Unifier), Lasting (exec (forPairs act as bs) u)
      (exec (forPairs act' as bs) u)
  | [], _, u | _ :: _, [], u => fun _ => rfl
  | a :: as, b :: bs, u => by
    intro h
    rw [forPairs, exec_bind] at h ⊢
    rw [forPairs, exec_bind]
    rcases hr : exec (act a b) u with ⟨e | _, u'⟩
    · have hsame := hact a b u fun e' he' => h e' (by rw [hr] at he' ⊢; exact he')
      rw [hsame, hr]
    · have hsame := hact a b u fun e' he' => by rw [hr] at he'; cases he'
      rw [hsame, hr]
      rw [hr] at h
      exact lasting_forPairs hact as bs u' h

theorem lasting_unifyWithin {fuel fuel' : Nat} (hle : fuel ≤ fuel') (a b : Ty) (u : Unifier) :
    Lasting (exec (unifyWithin fuel a b) u) (exec (unifyWithin fuel' a b) u) := by
  induction fuel generalizing fuel' a b u with
  | zero => exact fun h => absurd rfl (h _ rfl)
  | succ fuel ih =>
    obtain ⟨k, rfl⟩ := Nat.exists_eq_add_of_le' (Nat.le_trans (Nat.succ_pos fuel) hle)
    intro h
    rw [exec_unifyWithin_eq] at h ⊢
    rw [exec_unifyWithin_eq]
    split
    · rfl
    · next hlimit =>
      rw [if_neg hlimit] at h
      unfold meet at h ⊢
      split
      · rfl
      · rfl
      · next ha hb =>
        rw [ha, hb] at h
        dsimp only at h
        split
        · rfl
        · next hany =>
          rw [if_neg hany] at h
          split
          · next hhead =>
            rw [if_pos hhead] at h
            exact lasting_forPairs (fun a b u => ih (Nat.le_of_succ_le_succ hle) a b u) _ _ _ h
          · rfl

/-! ### Calls on top of another unifier -/

/-- Two runs that end alike: without a limit, and on top of another unifier and under its limit. -/
structure Parallel (base source : Unifier) (r r' : Except TypeError Unit × Unifier) : Prop where
  forth : r.1 = .ok () → (base.atop source r.2).WithinLimit → r' = (.ok (), base.atop source r.2)
  back : r'.1 = .ok () → r.1 = .ok () ∧ (base.atop source r.2).WithinLimit

theorem Parallel.errors {r r' : Except TypeError Unit × Unifier} {e e' : TypeError}
    (h : r.1 = .error e) (h' : r'.1 = .error e') : Parallel base source r r' := by
  constructor
  · intro hok
    cases h.symm.trans hok
  · intro hok
    cases h'.symm.trans hok

theorem movable_unifyWithin (fuel : Nat) {a b : Ty} {u : Unifier} (hu : base.Movable source u)
    (ha : a.Over source.Own) (hb : b.Over source.Own) :
    base.Movable source (exec (unifyWithin fuel a b) u).2 := by
  have hmoves := moves_unifyWithin fuel a b u
  exact ⟨hu.alike, hmoves.stem.trans hu.stem, hmoves.limit.trans hu.limit,
    (hmoves.grows hu.coherent).coherent, (within_unifyWithin fuel a b u hu.own ha hb).bindings⟩

theorem parallel_forPairs {act : Ty → Ty → Unifying Unit}
    (hmoves : ∀ a b (u : Unifier), u.Moves (exec (act a b) u).2)
    (hact : ∀ a b u, base.Movable source u → a.Over source.Own → b.Over source.Own →
      base.Movable source (exec (act a b) u).2 ∧
        Parallel base source (exec (act a b) u)
          (exec (act (a.bind (base.lift source)) (b.bind (base.lift source)))
            (base.atop source u))) :
    ∀ (as bs : List Ty) (u : Unifier), base.Movable source u → (base.atop source u).WithinLimit →
      (∀ a ∈ as, a.Over source.Own) → (∀ b ∈ bs, b.Over source.Own) →
      Parallel base source (exec (forPairs act as bs) u)
        (exec (forPairs act (as.map (Ty.bind (base.lift source)))
          (bs.map (Ty.bind (base.lift source)))) (base.atop source u))
  | [], _, u, _, hlimit, _, _ => ⟨fun _ _ => rfl, fun _ => ⟨rfl, hlimit⟩⟩
  | _ :: _, [], u, _, hlimit, _, _ => ⟨fun _ _ => rfl, fun _ => ⟨rfl, hlimit⟩⟩
  | a :: as, b :: bs, u, hu, hlimit, has, hbs => by
    rw [List.forall_mem_cons] at has hbs
    obtain ⟨hmovable, hab⟩ := hact a b u hu has.1 hbs.1
    rw [List.map_cons, List.map_cons, forPairs, forPairs, exec_bind, exec_bind]
    rcases hr : exec (act a b) u with ⟨e | _, u'⟩ <;> rw [hr] at hab hmovable
    · rcases hr' : exec (act (a.bind (base.lift source)) (b.bind (base.lift source)))
        (base.atop source u) with ⟨e' | _, u''⟩
      · exact .errors rfl rfl
      · rw [hr'] at hab
        cases (hab.back rfl).1
    · have hsteps : u'.steps ≤ (exec (forPairs act as bs) u').2.steps :=
        (moves_forPairs hmoves as bs u').steps
      have hrest := parallel_forPairs hmoves hact as bs u' hmovable
      constructor
      · intro hok hwithin
        have hwithin' : (base.atop source u').WithinLimit := hwithin.before hsteps
        rw [hab.forth rfl hwithin']
        exact (hrest hwithin' has.2 hbs.2).forth hok hwithin
      · intro hok
        rcases hr' : exec (act (a.bind (base.lift source)) (b.bind (base.lift source)))
          (base.atop source u) with ⟨e' | _, u''⟩
        · rw [hr'] at hok
          cases hok
        · have hwithin' := (hab.back (by rw [hr'])).2
          have hsame := hab.forth rfl hwithin'
          rw [hr'] at hsame
          rw [hr', (Prod.mk.inj hsame).2] at hok
          exact (hrest hwithin' has.2 hbs.2).back hok

theorem insert_atop (hbase : base.Tidy) (hu : base.Movable source u) {v : String}
    (hv : source.Own v) (t : Ty) : base.atop source { u with subst := u.subst.insert v t } =
      { base.atop source u with
        subst := (base.atop source u).subst.insert (base.relocate source v)
          (t.bind (base.lift source)) } := by
  have hkept : (u.subst.map fun e => (base.relocate source e.1, e.2.bind (base.lift source))).filter
    (·.1 != base.relocate source v) =
      (u.subst.filter (·.1 != v)).map fun e =>
        (base.relocate source e.1, e.2.bind (base.lift source)) := by
    rw [List.filter_map]
    refine congrArg _ (List.filter_congr fun e he => ?_)
    rw [Function.comp_apply, Bool.eq_iff_iff, bne_iff_ne, bne_iff_ne, ne_eq, ne_eq,
      relocate_inj (hu.own e he).1 hv]
  simp only [atop, Subst.insert, List.filter_append, hkept,
    Subst.filter_of_lookup_none (hbase.lookup_relocate hv), List.map_cons, List.cons_append]

theorem parallel_bindVar (hbase : base.Tidy) (hu : base.Movable source u)
    (hlimit : (base.atop source u).WithinLimit) {v : String} {t : Ty} (hv : source.Own v)
    (ht : t.Over source.Own) :
    Parallel base source (exec (bindVar v t) u)
      (exec (bindVar (base.relocate source v) (t.bind (base.lift source)))
        (base.atop source u)) := by
  have hvar : t.bind (base.lift source) = .var (base.relocate source v) ↔ t = .var v :=
    Ty.bind_lift_inj ht (Ty.over_var.2 hv)
  rw [exec_bindVar, exec_bindVar]
  simp only [hvar, Ty.occurs_bind_lift ht hv]
  split
  · exact ⟨fun _ _ => rfl, fun _ => ⟨rfl, hlimit⟩⟩
  · split
    · exact .errors rfl rfl
    · exact ⟨fun _ _ => by rw [insert_atop hbase hu hv], fun _ => ⟨rfl, hlimit⟩⟩

theorem steps_meet (fuel : Nat) (a b : Ty) (u : Unifier) :
    u.steps ≤ (exec (meet fuel a b) u).2.steps := by
  have hbind : ∀ v t, u.steps ≤ (exec (bindVar v t) u).2.steps := by
    intro v t
    rw [exec_bindVar]
    split
    · exact Nat.le_refl _
    · split <;> exact Nat.le_refl _
  unfold meet
  split
  · exact hbind _ _
  · exact hbind _ _
  · split
    · exact Nat.le_refl _
    · split
      · exact (moves_forPairs (moves_unifyWithin fuel) _ _ u).steps
      · exact Nat.le_refl _

theorem parallel_meet (hbase : base.Tidy) {fuel : Nat}
    (hfuel : ∀ a b u, base.Movable source u → a.Over source.Own → b.Over source.Own →
      Parallel base source (exec (unifyWithin fuel a b) u)
        (exec (unifyWithin fuel (a.bind (base.lift source)) (b.bind (base.lift source)))
          (base.atop source u)))
    (hu : base.Movable source u) (hlimit : (base.atop source u).WithinLimit)
    (ha : a.Over source.Own) (hb : b.Over source.Own) :
    Parallel base source (exec (meet fuel a b) u)
      (exec (meet fuel (a.bind (base.lift source)) (b.bind (base.lift source)))
        (base.atop source u)) := by
  unfold meet
  rw [Ty.bindable?_bind_lift hu.alike ha, Ty.bindable?_bind_lift hu.alike hb]
  cases hva : bindable? a with
  | some v =>
    obtain ⟨rfl, -⟩ := bindable?_eq_some hva
    exact parallel_bindVar hbase hu hlimit (Ty.over_var.1 ha) hb
  | none =>
    cases hvb : bindable? b with
    | some w =>
      obtain ⟨rfl, -⟩ := bindable?_eq_some hvb
      exact parallel_bindVar hbase hu hlimit (Ty.over_var.1 hb) ha
    | none =>
      simp only [Option.map_none, Ty.bind_lift_eq_any, Ty.sameHead_bind_lift ha hb,
        Ty.children_bind_lift]
      split
      · exact ⟨fun _ _ => rfl, fun _ => ⟨rfl, hlimit⟩⟩
      · split
        · exact parallel_forPairs (moves_unifyWithin fuel)
            (fun a b u hu ha hb => ⟨movable_unifyWithin fuel hu ha hb, hfuel a b u hu ha hb⟩)
            _ _ u hu hlimit (fun c hc => ha.child hc) fun c hc => hb.child hc
        · exact .errors rfl rfl

theorem parallel_unifyWithin (hbase : base.Tidy) (fuel : Nat) (a b : Ty) (u : Unifier)
    (hu : base.Movable source u) (ha : a.Over source.Own) (hb : b.Over source.Own) :
    Parallel base source (exec (unifyWithin fuel a b) u)
      (exec (unifyWithin fuel (a.bind (base.lift source)) (b.bind (base.lift source)))
        (base.atop source u)) := by
  induction fuel generalizing a b u with
  | zero => exact .errors rfl rfl
  | succ fuel ih =>
    rw [exec_unifyWithin_eq, exec_unifyWithin_eq, apply_atop hbase hu ha, apply_atop hbase hu hb,
      if_neg (by simp [hu.limit])]
    have hsteps : u.tick.steps ≤ (exec (meet fuel (u.apply a) (u.apply b)) u.tick).2.steps :=
      steps_meet fuel _ _ u.tick
    by_cases hlimit : (base.atop source u.tick).WithinLimit
    · rw [if_neg fun h => (base.atop source u).beyond_iff.1 h hlimit]
      exact parallel_meet hbase ih hu.tick hlimit (hu.apply ha) (hu.apply hb)
    · rw [if_pos ((base.atop source u).beyond_iff.2 hlimit)]
      exact ⟨fun _ hwithin => absurd (hwithin.before hsteps) hlimit, fun hok => by cases hok⟩

/-- Unifying two types ends alike on top of another unifier, unless that has a limit
and it is reached. -/
theorem parallel_unify (hbase : base.Tidy) (hu : base.Movable source u) (ha : a.Over source.Own)
    (hb : b.Over source.Own) : Parallel base source (exec (unify a b) u)
      (exec (unify (a.bind (base.lift source)) (b.bind (base.lift source)))
        (base.atop source u)) := by
  have hsize : u.subst.size ≤ (base.atop source u).subst.size := by
    simp only [Subst.size, atop, List.map_append, Ty.sizeList_eq_sum, List.sum_append, List.map_map,
      Function.comp_def, Ty.size_bind_lift]
    exact Nat.le_add_right _ _
  have hlonger : exec (unifyWithin (a.size + b.size + (base.atop source u).subst.size + 1) a b)
    u = exec (unify a b) u :=
    lasting_unifyWithin (by omega) a b u (exec_unify_ne_exhausted hu.coherent a b)
  have hparallel :=
    parallel_unifyWithin hbase (a.size + b.size + (base.atop source u).subst.size + 1)
      a b u hu ha hb
  rw [hlonger] at hparallel
  have hunify : exec (unify (a.bind (base.lift source)) (b.bind (base.lift source)))
    (base.atop source u) =
      exec (unifyWithin ((a.bind (base.lift source)).size + (b.bind (base.lift source)).size +
        (base.atop source u).subst.size + 1)
        (a.bind (base.lift source)) (b.bind (base.lift source))) (base.atop source u) := rfl
  rwa [hunify, Ty.size_bind_lift, Ty.size_bind_lift]

end Unifying

end FunRiscv
