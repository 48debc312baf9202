import Mathlib
import FunRiscv.Proofs.Ty.Static

/-!
# Unification finds most general solutions

Without the dynamic type, unification is about equality alone: a call succeeds exactly if
its equation can be solved along with those before it, and what it leaves behind is the
most general solution.

* `Ty.Solves`: a substitution makes the two sides of every equation equal.
* `Unifying.Meaning`: a call adds its equation to what the bindings say, or fails because
  nothing solves both. `Unifying.meaning_unifyWithin`: every call does, as long as its bound on
  nesting is not reached.
* `Unifying.solve`: equations one after the other.
* `Unifying.unify_most_general`: the theorem about a call after any successful ones.
-/

namespace FunRiscv

/-! ### What a call says -/

namespace Unifying

/-- A call adds a statement about substitutions to what the bindings say, or fails because nothing
makes both true. What it binds is static. -/
structure Meaning (u : Unifier) (said : (String → Ty) → Prop)
    (r : Except TypeError Unit × Unifier) : Prop where
  adds : u.subst.Adds r.2.subst
  ok : r.1 = .ok () →
    ∀ f, Ty.Flexible f → (Subst.Respects f r.2.subst ↔ Subst.Respects f u.subst ∧ said f)
  error : ∀ e, r.1 = .error e → e.cause ≠ .exhausted →
    ∀ f, Ty.Flexible f → Subst.Respects f u.subst → ¬said f

theorem meaning_forPairs {act : Ty → Ty → Unifying Unit}
    (hgrows : ∀ a b (u : Unifier), u.Coherent → u.Grows (exec (act a b) u).2)
    (hact : ∀ a b (u : Unifier), u.Coherent → u.limit = 0 → u.Clear a → u.Clear b →
      Meaning u (fun f => a.bind f = b.bind f) (exec (act a b) u)) :
    ∀ as bs (u : Unifier), as.length = bs.length → u.Coherent → u.limit = 0 →
      (∀ a ∈ as, u.Clear a) → (∀ b ∈ bs, u.Clear b) →
      Meaning u (fun f => as.map (Ty.bind f) = bs.map (Ty.bind f)) (exec (forPairs act as bs) u)
  | [], [], u, _, _, _, _, _ => ⟨.refl _, fun _ f _ => by simp [forPairs, exec_pure], fun e he => by
      simp [forPairs, exec_pure] at he⟩
  | a :: as, b :: bs, u, hlen, h, hl, has, hbs => by
    have hg := hgrows a b u h
    have hab := hact a b u h hl (has a (by simp)) (hbs b (by simp))
    rw [forPairs, exec_bind]
    rcases hr : exec (act a b) u with ⟨e | _, u'⟩ <;> rw [hr] at hg hab
    · refine ⟨hab.adds, by simp, ?_⟩
      intro e' he' hne f hf hfu hsaid
      exact hab.error e' (by simpa using he') hne f hf hfu (List.cons.inj hsaid).1
    · have hlater : ∀ {x : Ty}, u.Clear x → u'.Clear x :=
        fun hx => hx.later hg.coherent.triangular hab.adds
      have hrest :=
        meaning_forPairs hgrows hact as bs u' (by simpa using hlen) hg.coherent (hg.limit.trans hl)
          (fun x hx => hlater (has x (by simp [hx]))) (fun x hx => hlater (hbs x (by simp [hx])))
      refine ⟨hab.adds.trans hrest.adds, ?_, ?_⟩
      · intro hok f hf
        rw [hrest.ok hok f hf, hab.ok rfl f hf]
        simp only [List.map_cons, List.cons.injEq, and_assoc]
      · intro e he hne f hf hfu hsaid
        obtain ⟨hhead, htail⟩ := List.cons.inj hsaid
        exact hrest.error e he hne f hf ((hab.ok rfl f hf).2 ⟨hfu, hhead⟩) htail

/-- A call adds its equation to what the bindings say, or fails because nothing solves both. -/
theorem meaning_unifyWithin (fuel : Nat) (a b : Ty) (u : Unifier) (h : u.Coherent)
    (hl : u.limit = 0) (ha : u.Clear a) (hb : u.Clear b) :
    Meaning u (fun f => a.bind f = b.bind f) (exec (unifyWithin fuel a b) u) := by
  induction fuel generalizing a b u with
  | zero =>
    refine ⟨.refl _, by simp [unifyWithin, exec_fail], ?_⟩
    intro e he hne
    simp only [unifyWithin, exec_fail, Except.error.injEq] at he
    exact absurd (he ▸ rfl) hne
  | succ fuel ih =>
    -- A substitution that makes the bindings true sees the types as they are after the
    -- bindings were followed.
    have hsaid : ∀ f, Subst.Respects f u.subst →
        (a.bind f = b.bind f ↔ (u.apply a).bind f = (u.apply b).bind f) := fun f hf => by
      rw [Unifier.apply, Unifier.apply, hf.bind_apply h.triangular, hf.bind_apply h.triangular]
    have ho := exec_unifyWithin fuel a b u
    generalize exec (unifyWithin (fuel + 1) a b) u = r at ho
    cases ho with
    | limited hlimit => omega
    | same v hav hbv =>
      refine ⟨.refl _, fun _ f _ => ?_, by simp⟩
      constructor
      · intro hf
        exact ⟨hf, (hsaid f hf).2 (by rw [hav, hbv])⟩
      · exact fun hf => hf.1
    | cyclic v t hv hab hne hocc =>
      refine ⟨.refl _, by simp, fun e _ _ f hf hfu heq => ?_⟩
      rw [hsaid f hfu] at heq
      rcases hab with ⟨hav, hbt⟩ | ⟨hat, hbv⟩
      · rw [hav, hbt] at heq
        exact Ty.bind_ne_of_occurs hocc hne heq
      · rw [hat, hbv] at heq
        exact Ty.bind_ne_of_occurs hocc hne heq.symm
    | bound v t hv hab hocc =>
      have hvt := mayBind_of_outcome h hv hab hocc
      have ht : t.Static := by
        rcases hab with ⟨-, hbt⟩ | ⟨hat, -⟩
        · exact hbt ▸ hb
        · exact hat ▸ ha
      refine ⟨?_, fun _ f _ => ?_, by simp⟩
      · simp only [hvt.insert_eq]
        exact u.subst.adds_cons v ht
      · simp only [hvt.insert_eq]
        rw [Subst.respects_cons hvt.free]
        refine and_congr_right fun hfu => ?_
        rw [hsaid f hfu]
        rcases hab with ⟨hav, hbt⟩ | ⟨hat, hbv⟩
        · rw [hav, hbt]
          rfl
        · rw [hat, hbv]
          exact eq_comm
    | dynamic hany =>
      rcases hany with hany | hany
      · exact absurd hany (Ty.Static.ne_any ha)
      · exact absurd hany (Ty.Static.ne_any hb)
    | pairs hav hbv hhead =>
      have hpairs :=
        meaning_forPairs (grows_unifyWithin fuel) ih _ _ u.tick
          (Ty.length_children_of_sameHead hhead) h.grows_tick.coherent hl
          (fun x hx => ha.child h hx) (fun x hx => hb.child h hx)
      have hiff : ∀ f, Ty.Flexible f → Subst.Respects f u.subst → (a.bind f = b.bind f ↔
          (u.apply a).children.map (Ty.bind f) = (u.apply b).children.map (Ty.bind f)) :=
        fun f hf hfu => by
        rw [hsaid f hfu, Ty.bind_eq_bind_iff hf hav hbv]
        simp [hhead]
      refine ⟨hpairs.adds, fun hok f hf => ?_, fun e he hne f hf hfu heq => ?_⟩
      · rw [hpairs.ok hok f hf]
        exact and_congr_right fun hfu => (hiff f hf hfu).symm
      · exact hpairs.error e he hne f hf hfu ((hiff f hf hfu).1 heq)
    | clash hav hbv hhead =>
      refine ⟨.refl _, by simp, fun e _ _ f hf hfu heq => ?_⟩
      rw [hsaid f hfu, Ty.bind_eq_bind_iff hf hav hbv] at heq
      simp [hhead] at heq

/-! ### Equations one after the other -/

/-- Unifies the two sides of equations, one after the other. -/
def solve : List (Ty × Ty) → Unifying Unit
  | [] => pure ()
  | (a, b) :: eqs => do
    unify a b
    solve eqs

end Unifying

/-- A substitution makes the two sides of every equation equal. -/
def Ty.Solves (f : String → Ty) (eqs : List (Ty × Ty)) : Prop := ∀ p ∈ eqs, p.1.bind f = p.2.bind f

namespace Unifying

theorem grows_unify (a b : Ty) (u : Unifier) (h : u.Coherent) : u.Grows (exec (unify a b) u).2 :=
  grows_unifyWithin _ a b u h

theorem meaning_unify (a b : Ty) (u : Unifier) (h : u.Coherent) (hl : u.limit = 0) (ha : u.Clear a)
    (hb : u.Clear b) : Meaning u (fun f => a.bind f = b.bind f) (exec (unify a b) u) :=
  meaning_unifyWithin _ a b u h hl ha hb

/-- After successful calls the bindings say what the equations say. -/
theorem respects_solve {eqs : List (Ty × Ty)} (heqs : ∀ p ∈ eqs, p.1.Static ∧ p.2.Static)
    {u u' : Unifier} (h : u.Coherent) (hu : u.subst.Static) (hl : u.limit = 0)
    (hrun : exec (solve eqs) u = (.ok (), u')) : u'.Coherent ∧ u'.subst.Static ∧ u'.limit = 0 ∧
      ∀ f, Ty.Flexible f →
        (Subst.Respects f u'.subst ↔ Subst.Respects f u.subst ∧ Ty.Solves f eqs) := by
  induction eqs generalizing u with
  | nil =>
    obtain rfl : u = u' := by simpa [solve, exec_pure] using hrun
    exact ⟨h, hu, hl, fun f _ => by simp [Ty.Solves]⟩
  | cons p eqs ih =>
    obtain ⟨a, b⟩ := p
    obtain ⟨ha, hb⟩ := heqs (a, b) List.mem_cons_self
    have hg := grows_unify a b u h
    have hm := meaning_unify a b u h hl (Unifier.clear_of_static h.triangular hu ha)
      (Unifier.clear_of_static h.triangular hu hb)
    rw [solve, exec_bind] at hrun
    rcases hr : exec (unify a b) u with ⟨_ | _, v⟩ <;> rw [hr] at hrun hg hm
    · simp at hrun
    · obtain ⟨h', hu', hl', hf'⟩ :=
        ih (fun q hq => heqs q (List.mem_cons_of_mem _ hq)) hg.coherent (hm.adds.static hu)
          (hg.limit.trans hl) hrun
      refine ⟨h', hu', hl', fun f hf => ?_⟩
      rw [hf' f hf, hm.ok rfl f hf]
      simp only [Ty.Solves, List.forall_mem_cons, and_assoc]

/-- **A call finds a most general solution.** After any successful calls of a new unifier without a
limit on steps, on types without the dynamic type, one more call succeeds exactly if a substitution
of the variables that are not rigid solves its equation along with the earlier ones. If it does,
following the bindings solves all of them, leaves the rigid variables alone, and every solution is
that followed by another substitution. -/
theorem unify_most_general (stem : String) (eqs : List (Ty × Ty))
    (heqs : ∀ p ∈ eqs, p.1.Static ∧ p.2.Static) (a b : Ty) (ha : a.Static) (hb : b.Static)
    (u : Unifier) (hu : exec (solve eqs) (.new stem 0) = (.ok (), u)) :
    ((exec (unify a b) u).1 = .ok () ↔ ∃ f, Ty.Flexible f ∧ Ty.Solves f (eqs ++ [(a, b)])) ∧
      ((exec (unify a b) u).1 = .ok () →
        (∀ p ∈ eqs ++ [(a, b)],
          (exec (unify a b) u).2.apply p.1 = (exec (unify a b) u).2.apply p.2) ∧
        (∀ v, Ty.rigidName v = true → (exec (unify a b) u).2.apply (.var v) = .var v) ∧
        ∀ f, Ty.Flexible f → Ty.Solves f (eqs ++ [(a, b)]) →
          ∃ g, Ty.Flexible g ∧ ∀ t, t.bind f = ((exec (unify a b) u).2.apply t).bind g) := by
  obtain ⟨hc, hs, hl, hsolve⟩ :=
    respects_solve heqs (Unifier.coherent_new stem 0) (by simp [Unifier.new, Subst.Static])
      (by simp [Unifier.new]) hu
  have hg := grows_unify a b u hc
  have hm := meaning_unify a b u hc hl (Unifier.clear_of_static hc.triangular hs ha)
    (Unifier.clear_of_static hc.triangular hs hb)
  have hexhausted := exec_unify_ne_exhausted hc a b
  generalize exec (unify a b) u = r at hg hm hexhausted
  have hall : ∀ f, Ty.Flexible f →
      (Subst.Respects f u.subst ∧ a.bind f = b.bind f ↔ Ty.Solves f (eqs ++ [(a, b)])) :=
    fun f hf => by
    rw [hsolve f hf]
    simp [Ty.Solves, Unifier.new, Subst.respects_nil, or_imp, forall_and]
  have hok : r.1 = .ok () → ∀ f, Ty.Flexible f →
      (Subst.Respects f r.2.subst ↔ Ty.Solves f (eqs ++ [(a, b)])) := fun hr f hf => by
    rw [hm.ok hr f hf, hall f hf]
  have happly : r.1 = .ok () → ∀ p ∈ eqs ++ [(a, b)], r.2.apply p.1 = r.2.apply p.2 :=
    fun hr p hp => by
    have := (hok hr _ hg.coherent.flexible_apply).1 hg.coherent.triangular.respects_apply p hp
    rwa [← Unifier.apply_eq_bind, ← Unifier.apply_eq_bind] at this
  refine ⟨⟨fun hr => ?_, ?_⟩, fun hr => ⟨happly hr, hg.coherent.flexible_apply, fun f hf hfs => ?_⟩⟩
  · exact ⟨_, hg.coherent.flexible_apply,
      (hok hr _ hg.coherent.flexible_apply).1 hg.coherent.triangular.respects_apply⟩
  · rintro ⟨f, hf, hfs⟩
    obtain ⟨hfu, hfab⟩ := (hall f hf).2 hfs
    rcases hr : r.1 with e | _
    · exact absurd hfab (hm.error e hr (hexhausted e hr) f hf hfu)
    · rfl
  · exact ⟨f, hf, fun t => (((hok hr f hf).2 hfs).bind_apply hg.coherent.triangular t).symm⟩

/-- A variable of an earlier binding meets a rigid variable: after `a = b -> u24`, the lists
`List<b>` and `List<'r>` can be made equal, and then `a` stands for `'r -> u24`. -/
theorem unify_most_general_rigid :
    let u : Unifier := { subst := [("a", .func (.var "b") .u24)], steps := 1 }
    exec (solve [(.var "a", .func (.var "b") .u24)]) (.new "t" 0) = (.ok (), u) ∧
      (exec (unify (.listOf (.var "b")) (.listOf (.var "'r"))) u).1 = .ok () ∧
      (exec (unify (.listOf (.var "b")) (.listOf (.var "'r"))) u).2.apply (.var "a") =
        .func (.var "'r") .u24 := by
  have hrun : exec (solve [(.var "a", .func (.var "b") .u24)]) (.new "t" 0) =
      (.ok (), { subst := [("a", .func (.var "b") .u24)], steps := 1 }) := by rfl
  refine ⟨hrun, ?_, by decide⟩
  refine (unify_most_general "t" [(.var "a", .func (.var "b") .u24)] (by decide)
    (.listOf (.var "b")) (.listOf (.var "'r")) (by decide) (by decide) _ hrun).1.2
    ⟨fun v => if v = "a" then .func (.var "'r") .u24 else if v = "b" then .var "'r"
      else .var v, ?_, ?_⟩
  · intro v hv
    have ha : v ≠ "a" := by rintro rfl; revert hv; decide
    have hb : v ≠ "b" := by rintro rfl; revert hv; decide
    simp [ha, hb]
  · intro p hp
    have hp' : p = (.var "a", .func (.var "b") .u24) ∨
      p = (.listOf (.var "b"), .listOf (.var "'r")) := by simpa using hp
    rcases hp' with rfl | rfl <;> rfl

end Unifying

end FunRiscv
