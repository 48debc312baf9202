import Mathlib
import FunRiscv.Proofs.Ty.Substitution

/-!
# What a unification step does

* `Unifying.exec`: an action as a function from a unifier to a result and a unifier.
* `Ty.children`, `Ty.sameHead`: a type as a head with children.
* `Unifying.meet`: what a call of the unifier does with the two types after the bindings so far were
  followed. `Unifying.exec_unifyWithin_eq`: a call counts a step and does that.
* `Unifying.Outcome`: the things that a call can do. `Unifying.exec_unifyWithin`: it
  does one of them.
* `Unifier.Coherent`: the bindings are triangular and no rigid variable is bound.
  `Unifying.grows_unifyWithin`: a call keeps that and only adds bindings, whether it
  succeeds or fails.
* `Subst.MayBind`: what may be bound.  `Unifying.mayBind_of_outcome`: whatever a call binds, may be.
-/

namespace FunRiscv

/-! ### Actions as functions -/

namespace Unifying

variable {α β : Type}

/-- The result of an action and the unifier after it. -/
def exec (m : Unifying α) (u : Unifier) : Except TypeError α × Unifier := (ExceptT.run m).run u

theorem exec_bind (m : Unifying α) (f : α → Unifying β) (u : Unifier) :
    exec (m >>= f) u = match exec m u with
      | (.ok a, u') => exec (f a) u'
      | (.error e, u') => (.error e, u') := by
  rcases h : exec m u with ⟨r, u'⟩
  unfold exec at h ⊢
  rw [ExceptT.run_bind, StateT.run_bind, h]
  cases r <;> rfl

theorem exec_pure (a : α) (u : Unifier) : exec (pure a) u = (.ok a, u) := rfl

theorem exec_fail (c : TypeCause) (u : Unifier) :
    exec (fail c : Unifying α) u = (.error { cause := c }, u) := rfl

theorem exec_get (u : Unifier) : exec get u = (.ok u, u) := rfl

theorem exec_set (u v : Unifier) : exec (set v) u = (.ok (), v) := rfl

end Unifying

/-- A unifier after one more step. -/
def Unifier.tick (u : Unifier) : Unifier := { u with steps := u.steps + 1 }

@[simp]
theorem Unifier.tick_subst (u : Unifier) : u.tick.subst = u.subst := rfl

@[simp]
theorem Unifier.tick_limit (u : Unifier) : u.tick.limit = u.limit := rfl

theorem Unifying.exec_step (u : Unifier) :
    exec step u = if u.limit > 0 && u.limit < u.steps + 1 then
      (.error { cause := .stepLimit u.limit }, u.tick)
      else (.ok (), u.tick) := by
  unfold step
  simp only [exec_bind, exec_get, exec_set]
  split <;> rfl

/-! ### Heads and children -/

namespace Ty

/-- The types directly below the head of a type. -/
def children : Ty → List Ty
  | named _ args => args
  | func p r => [p, r]
  | tuple elems => elems
  | _ => []

/-- Whether two types have the same head and equally many children. -/
def sameHead : Ty → Ty → Bool
  | word v, word w => v = w
  | any, any | none, none => true
  | var v, var w => v = w
  | named n as, named m bs => n = m && as.length = bs.length
  | func .., func .. => true
  | tuple as, tuple bs => as.length = bs.length
  | _, _ => false

theorem sameHead_self (a : Ty) : a.sameHead a = true := by
  cases a <;> simp [sameHead]

/-- Types with the same head are equal if their children are. -/
theorem eq_iff_children_of_sameHead {a b : Ty} (h : a.sameHead b = true) :
    a = b ↔ a.children = b.children := by
  cases a <;> cases b <;> simp_all [sameHead, children]

theorem length_children_of_sameHead {a b : Ty} (h : a.sameHead b = true) :
    a.children.length = b.children.length := by
  cases a <;> cases b <;> simp_all [sameHead, children]

/-- Types with the same head are both named, both functions or both tuples, or they are equal and
have no children. -/
theorem eq_of_sameHead {a b : Ty} (h : a.sameHead b = true)
    (hnamed : ∀ n as m bs, a = named n as → b = named m bs → False)
    (hfunc : ∀ p r q s, a = func p r → b = func q s → False)
    (htuple : ∀ as bs, a = tuple as → b = tuple bs → False) : a = b ∧ a.children = [] := by
  unfold sameHead at h
  split at h
  · exact ⟨by simpa using h, rfl⟩
  · exact ⟨rfl, rfl⟩
  · exact ⟨rfl, rfl⟩
  · exact ⟨by simpa using h, rfl⟩
  · exact (hnamed _ _ _ _ rfl rfl).elim
  · exact (hfunc _ _ _ _ rfl rfl).elim
  · exact (htuple _ _ rfl rfl).elim
  · cases h

/-- A substitution of variables that are not rigid: it leaves the rigid ones alone. -/
def Flexible (f : String → Ty) : Prop := ∀ v, rigidName v = true → f v = var v

theorem children_bind {f : String → Ty} (hf : Flexible f) {a : Ty}
    (ha : Unifying.bindable? a = .none) : (a.bind f).children = a.children.map (bind f) := by
  cases a with
  | word | any | none => rfl
  | var v =>
    have hv : rigidName v = true := by simpa [Unifying.bindable?] using ha
    simp [bind, hf v hv, children]
  | named | tuple => simp [bind, children]
  | func => simp [bind, children]

theorem sameHead_bind {f : String → Ty} (hf : Flexible f) {a b : Ty}
    (ha : Unifying.bindable? a = .none) (hb : Unifying.bindable? b = .none) :
    (a.bind f).sameHead (b.bind f) = a.sameHead b := by
  have fixed : ∀ {v}, Unifying.bindable? (var v) = .none → f v = var v := fun {v} h =>
    hf v (by simpa [Unifying.bindable?] using h)
  cases a <;> cases b <;> simp_all [bind, sameHead]

/-- Two types that cannot be bound get equal if they have the same head and their
children get equal. -/
theorem bind_eq_bind_iff {f : String → Ty} (hf : Flexible f) {a b : Ty}
    (ha : Unifying.bindable? a = .none) (hb : Unifying.bindable? b = .none) :
    a.bind f = b.bind f ↔ a.sameHead b = true ∧
      a.children.map (bind f) = b.children.map (bind f) := by
  constructor
  · intro h
    have hhead : a.sameHead b = true := by
      rw [← sameHead_bind hf ha hb, h]
      exact sameHead_self _
    refine ⟨hhead, ?_⟩
    rw [← children_bind hf ha, ← children_bind hf hb, h]
  · rintro ⟨hhead, hchildren⟩
    rw [eq_iff_children_of_sameHead (by rw [sameHead_bind hf ha hb]; exact hhead),
      children_bind hf ha, children_bind hf hb]
    exact hchildren

end Ty

namespace Unifying

/-! ### A call of the unifier -/

/-- What a call does with two types, the bindings in which were followed. -/
def meet (fuel : Nat) (a b : Ty) : Unifying Unit :=
  match bindable? a, bindable? b with
  | some v, _ => bindVar v b
  | none, some w => bindVar w a
  | none, none =>
    if a = .any ∨ b = .any then pure ()
    else if a.sameHead b then forPairs (unifyWithin fuel) a.children b.children
    else do fail (.mismatch ((← get).apply a) ((← get).apply b))

theorem exec_forPairs_pair (fuel : Nat) (p q r s : Ty) (u : Unifier) :
    exec (forPairs (unifyWithin fuel) [p, r] [q, s]) u =
      exec (do unifyWithin fuel p q; unifyWithin fuel r s) u := by
  simp only [forPairs, exec_bind, exec_pure]
  rcases exec (unifyWithin fuel p q) u with ⟨_ | _, v⟩
  · rfl
  · dsimp only
    rcases exec (unifyWithin fuel r s) v with ⟨_ | _, w⟩ <;> rfl

/-- A call counts a step, follows the bindings and looks at the two types. -/
theorem exec_unifyWithin_eq (fuel : Nat) (a b : Ty) (u : Unifier) :
    exec (unifyWithin (fuel + 1) a b) u = if u.limit > 0 && u.limit < u.steps + 1 then
      (.error { cause := .stepLimit u.limit }, u.tick)
    else exec (meet fuel (u.apply a) (u.apply b)) u.tick := by
  rw [unifyWithin, exec_bind, exec_step]
  by_cases h : (u.limit > 0 && u.limit < u.steps + 1) = true
  · rw [if_pos h, if_pos h]
  · rw [if_neg h, if_neg h]
    have happly : ∀ t, u.tick.apply t = u.apply t := fun t => rfl
    simp only [exec_bind, exec_get, happly]
    generalize u.apply a = a
    generalize u.apply b = b
    unfold meet
    cases ha : bindable? a with
    | some v => rfl
    | none =>
      cases hb : bindable? b with
      | some w => rfl
      | none =>
        dsimp only
        split
        · rw [if_pos (.inl rfl)]
        · rw [if_pos (.inr rfl)]
        · next n as m bs =>
          have hne : ¬(Ty.named n as = .any ∨ Ty.named m bs = .any) := by simp
          rw [if_neg hne]
          by_cases h : n = m ∧ as.length = bs.length
          · rw [if_pos h, if_pos (by simp [Ty.sameHead, h])]
            rfl
          · rw [if_neg h, if_neg (by simpa [Ty.sameHead] using h)]
            simp only [exec_bind, exec_get]
        · next p r q s =>
          have hne : ¬(Ty.func p r = .any ∨ Ty.func q s = .any) := by simp
          have hhead : (Ty.func p r).sameHead (.func q s) = true := rfl
          rw [if_neg hne, if_pos hhead]
          exact (exec_forPairs_pair fuel p q r s u.tick).symm
        · next as bs =>
          have hne : ¬(Ty.tuple as = .any ∨ Ty.tuple bs = .any) := by simp
          rw [if_neg hne]
          by_cases h : as.length = bs.length
          · rw [if_pos h, if_pos (by simpa [Ty.sameHead] using h)]
            rfl
          · rw [if_neg h, if_neg (by simpa [Ty.sameHead] using h)]
            simp only [exec_bind, exec_get]
        · next hany hany' hnamed hfunc htuple =>
          have hne : ¬(a = .any ∨ b = .any) := by
            rintro (rfl | rfl)
            · exact hany rfl
            · exact hany' rfl
          rw [if_neg hne]
          by_cases hhead : a.sameHead b = true
          · obtain ⟨rfl, hchildren⟩ := Ty.eq_of_sameHead hhead hnamed hfunc htuple
            rw [if_pos rfl, if_pos hhead, hchildren]
            rfl
          · have hab : ¬a = b := fun hab => hhead (hab ▸ Ty.sameHead_self a)
            rw [if_neg hab, if_neg hhead]
            simp only [exec_bind, exec_get]

/-! ### The outcomes of a call -/

/-- What a call of the unifier on two types, the bindings in which were followed, can do. -/
inductive Outcome (fuel : Nat) (u : Unifier) (a b : Ty) :
    Except TypeError Unit × Unifier → Prop where
  /-- There were too many steps. -/
  | limited (hl : 0 < u.limit) : Outcome fuel u a b (.error { cause := .stepLimit u.limit }, u.tick)
  /-- Both are the same variable. -/
  | same (v : String) (ha : a = .var v) (hb : b = .var v) : Outcome fuel u a b (.ok (), u.tick)
  /-- A variable meets a larger type that it occurs in. -/
  | cyclic (v : String) (t : Ty) (hv : Ty.rigidName v = false)
      (hab : a = .var v ∧ b = t ∨ a = t ∧ b = .var v) (hne : t ≠ .var v)
      (hocc : t.occurs v = true) :
      Outcome fuel u a b (.error { cause := .mismatch (.var v) t }, u.tick)
  /-- A variable is bound. -/
  | bound (v : String) (t : Ty) (hv : Ty.rigidName v = false)
      (hab : a = .var v ∧ b = t ∨ a = t ∧ b = .var v) (hocc : t.occurs v = false) :
    Outcome fuel u a b (.ok (), { u.tick with subst := u.subst.insert v t })
  /-- One of them is the dynamic type. -/
  | dynamic (hab : a = .any ∨ b = .any) : Outcome fuel u a b (.ok (), u.tick)
  /-- The heads agree, and the children are unified one pair after the other. -/
  | pairs (ha : bindable? a = none) (hb : bindable? b = none) (hhead : a.sameHead b = true) :
      Outcome fuel u a b (exec (forPairs (unifyWithin fuel) a.children b.children) u.tick)
  /-- The heads differ. -/
  | clash (ha : bindable? a = none) (hb : bindable? b = none) (hhead : a.sameHead b = false) :
      Outcome fuel u a b (.error { cause := .mismatch (u.apply a) (u.apply b) }, u.tick)

theorem exec_bindVar (v : String) (t : Ty) (u : Unifier) :
    exec (bindVar v t) u = if t = .var v then (.ok (), u)
      else if t.occurs v then (.error { cause := .mismatch (.var v) t }, u)
      else (.ok (), { u with subst := u.subst.insert v t }) := by
  unfold bindVar
  split
  · rfl
  · split <;> rfl

theorem bindable?_eq_some {a : Ty} {v : String} (h : bindable? a = some v) :
    a = .var v ∧ Ty.rigidName v = false := by
  cases a with
  | var w =>
    simp only [bindable?] at h
    split at h
    · simp at h
    · next hw => exact ⟨by simpa using h, by simpa [Option.some.inj h] using hw⟩
  | word | any | none | named | func | tuple => simp [bindable?] at h

theorem outcome_bindVar {fuel : Nat} {u : Unifier} {a b : Ty} {v : String} {t : Ty}
    (hv : Ty.rigidName v = false) (hab : a = .var v ∧ b = t ∨ a = t ∧ b = .var v) :
    Outcome fuel u a b (exec (bindVar v t) u.tick) := by
  rw [exec_bindVar]
  by_cases ht : t = .var v
  · rw [if_pos ht]
    exact .same v (by rcases hab with h | h <;> simp [h.1, ht])
      (by rcases hab with h | h <;> simp [h.2, ht])
  · rw [if_neg ht]
    by_cases hocc : t.occurs v = true
    · rw [if_pos hocc]
      exact .cyclic v t hv hab ht hocc
    · rw [if_neg hocc]
      exact .bound v t hv hab (by simpa using hocc)

/-- Meeting does one of the things listed. -/
theorem outcome_meet (fuel : Nat) (u : Unifier) (a b : Ty) :
    Outcome fuel u a b (exec (meet fuel a b) u.tick) := by
  unfold meet
  cases ha : bindable? a with
  | some v =>
    obtain ⟨hav, hv⟩ := bindable?_eq_some ha
    exact outcome_bindVar hv (.inl ⟨hav, rfl⟩)
  | none =>
    cases hb : bindable? b with
    | some w =>
      obtain ⟨hbw, hw⟩ := bindable?_eq_some hb
      exact outcome_bindVar hw (.inr ⟨rfl, hbw⟩)
    | none =>
      dsimp only
      split
      · next hany => exact .dynamic hany
      · split
        · next hhead => exact .pairs ha hb hhead
        · next hhead => exact .clash ha hb (by simpa using hhead)

/-- A call does one of the things listed. -/
theorem exec_unifyWithin (fuel : Nat) (a b : Ty) (u : Unifier) :
    Outcome fuel u (u.apply a) (u.apply b) (exec (unifyWithin (fuel + 1) a b) u) := by
  rw [exec_unifyWithin_eq]
  split
  · next h =>
    rw [Bool.and_eq_true, decide_eq_true_eq] at h
    exact .limited h.1
  · exact outcome_meet fuel u (u.apply a) (u.apply b)

/-! ### What every call keeps -/

end Unifying

/-- The bindings are triangular and no rigid variable is bound. -/
structure Unifier.Coherent (u : Unifier) : Prop where
  triangular : u.subst.Triangular
  flexible : ∀ v t, u.subst.lookup v = some t → Ty.rigidName v = false

/-- A unifier that has the same bindings as another and perhaps later ones. -/
structure Unifier.Grows (u u' : Unifier) : Prop where
  coherent : u'.Coherent
  suffix : u.subst <:+ u'.subst
  limit : u'.limit = u.limit

namespace Unifier

theorem apply_eq_bind (u : Unifier) (t : Ty) : u.apply t = t.bind fun v => u.apply (.var v) :=
  Subst.apply_eq_bind u.subst t

theorem coherent_new (stem : String) (limit : Nat) : (Unifier.new stem limit).Coherent :=
  ⟨.nil, fun _ _ h => by simp [Unifier.new] at h⟩

theorem Coherent.of_subst {u u' : Unifier} (h : u.Coherent) (hsubst : u'.subst = u.subst) :
    u'.Coherent :=
  ⟨hsubst ▸ h.triangular, fun v t hv => h.flexible v t (hsubst ▸ hv)⟩

theorem Coherent.grows_tick {u : Unifier} (h : u.Coherent) : u.Grows u.tick :=
  ⟨h.of_subst rfl, List.suffix_refl _, rfl⟩

theorem Grows.trans {u v w : Unifier} (h : u.Grows v) (h' : v.Grows w) : u.Grows w :=
  ⟨h'.coherent, h.suffix.trans h'.suffix, h'.limit.trans h.limit⟩

theorem Coherent.flexible_apply {u : Unifier} (h : u.Coherent) :
    Ty.Flexible fun v => u.apply (.var v) := by
  intro v hv
  refine Subst.apply_of_unbound fun w hw => ?_
  obtain rfl : v = w := by simpa [Ty.occurs] using hw
  cases hl : u.subst.lookup v with
  | none => rfl
  | some t => simp [h.flexible v t hl] at hv

end Unifier

namespace Subst

theorem filter_of_lookup_none {s : Subst} {v : String} (h : s.lookup v = none) :
    s.filter (·.1 != v) = s := by
  rw [List.filter_eq_self]
  intro p hp
  rw [List.lookup_eq_none_iff] at h
  simpa [bne_iff_ne, ne_comm] using h p hp

/-- A variable may be bound to a type in which it does not occur, if both are free of
bound variables. -/
structure MayBind (s : Subst) (v : String) (t : Ty) : Prop where
  flexible : Ty.rigidName v = false
  free : s.lookup v = none
  unbound : ∀ w, t.occurs w = true → s.lookup w = none
  acyclic : t.occurs v = false

theorem MayBind.insert_eq {s : Subst} {v : String} {t : Ty} (h : s.MayBind v t) :
    s.insert v t = (v, t) :: s := by
  rw [Subst.insert, filter_of_lookup_none h.free]

/-- Later bindings leave the earlier ones true. -/
theorem Triangular.respects_of_suffix {s s' : Subst} (h : s'.Triangular) (hs : s <:+ s')
    {f : String → Ty} (hf : Respects f s') : Respects f s := by
  induction h with
  | nil =>
    obtain rfl := List.suffix_nil.1 hs
    exact hf
  | @cons s₁ v t h₁ hv hvt ht ih =>
    rcases List.suffix_cons_iff.1 hs with rfl | hs
    · exact hf
    · exact ih hs ((respects_cons hv).1 hf).1

theorem Triangular.of_suffix {s s' : Subst} (h : s'.Triangular) (hs : s <:+ s') : s.Triangular := by
  induction h with
  | nil =>
    obtain rfl := List.suffix_nil.1 hs
    exact .nil
  | @cons s₁ v t h₁ hv hvt ht ih =>
    rcases List.suffix_cons_iff.1 hs with rfl | hs
    · exact .cons h₁ hv hvt ht
    · exact ih hs

/-- Following earlier bindings first makes no difference. -/
theorem Triangular.apply_apply_of_suffix {s s' : Subst} (h : s'.Triangular) (hs : s <:+ s')
    (t : Ty) : s'.apply (s.apply t) = s'.apply t := by
  rw [apply_eq_bind s' (s.apply t),
    (h.respects_of_suffix hs h.respects_apply).bind_apply (h.of_suffix hs), ← apply_eq_bind]

end Subst

namespace Unifying

/-- What a call binds may be bound. -/
theorem mayBind_of_outcome {u : Unifier} (h : u.Coherent) {a b t : Ty} {v : String}
    (hv : Ty.rigidName v = false)
    (hab : u.apply a = .var v ∧ u.apply b = t ∨ u.apply a = t ∧ u.apply b = .var v)
    (hocc : t.occurs v = false) : u.subst.MayBind v t := by
  have hfree : ∀ x w, (u.apply x).occurs w = true → u.subst.lookup w = none := fun x w hw =>
    h.triangular.lookup_of_occurs_apply hw
  rcases hab with ⟨ha, hb⟩ | ⟨ha, hb⟩
  · exact ⟨hv, hfree a v (by simp [ha, Ty.occurs]), fun w hw => hfree b w (hb ▸ hw), hocc⟩
  · exact ⟨hv, hfree b v (by simp [hb, Ty.occurs]), fun w hw => hfree a w (ha ▸ hw), hocc⟩

/-- Binding a variable keeps the unifier coherent. -/
theorem grows_bound {u : Unifier} (h : u.Coherent) {v : String} {t : Ty}
    (hvt : u.subst.MayBind v t) : u.Grows { u with subst := u.subst.insert v t } := by
  have heq := hvt.insert_eq
  refine ⟨⟨?_, ?_⟩, ?_, rfl⟩
  · simp only [heq]
    exact .cons h.triangular hvt.free hvt.acyclic hvt.unbound
  · intro w r hw
    by_cases hwv : w = v
    · rw [hwv]
      exact hvt.flexible
    · simp only [heq, Subst.lookup_cons_of_ne hwv] at hw
      exact h.flexible w r hw
  · simp only [heq]
    exact List.suffix_cons _ _

theorem grows_forPairs {act : Ty → Ty → Unifying Unit}
    (hact : ∀ a b (u : Unifier), u.Coherent → u.Grows (exec (act a b) u).2) :
    ∀ as bs (u : Unifier), u.Coherent → u.Grows (exec (forPairs act as bs) u).2
  | [], _, u, h => ⟨h, List.suffix_refl _, rfl⟩
  | _ :: _, [], u, h => ⟨h, List.suffix_refl _, rfl⟩
  | a :: as, b :: bs, u, h => by
    have hab := hact a b u h
    rw [forPairs, exec_bind]
    rcases hr : exec (act a b) u with ⟨_ | _, u'⟩ <;> rw [hr] at hab
    · exact hab
    · exact hab.trans (grows_forPairs hact as bs u' hab.coherent)

/-- A call only adds bindings, whether it succeeds or fails, and leaves the unifier coherent. -/
theorem grows_unifyWithin (fuel : Nat) (a b : Ty) (u : Unifier) (h : u.Coherent) :
    u.Grows (exec (unifyWithin fuel a b) u).2 := by
  induction fuel generalizing a b u with
  | zero => exact ⟨h, List.suffix_refl _, rfl⟩
  | succ fuel ih =>
    have ho := exec_unifyWithin fuel a b u
    generalize exec (unifyWithin (fuel + 1) a b) u = r at ho
    cases ho with
    | limited | same | cyclic | dynamic | clash => exact h.grows_tick
    | bound v t hv hab hocc =>
      have hvt : u.tick.subst.MayBind v t := mayBind_of_outcome h hv hab hocc
      exact h.grows_tick.trans (grows_bound h.grows_tick.coherent hvt)
    | pairs => exact h.grows_tick.trans (grows_forPairs ih _ _ u.tick h.grows_tick.coherent)

end Unifying

end FunRiscv
