import Mathlib
import FunRiscv.Proofs.Typing.Lookups

/-!
# The limit on unification steps

A limit cuts a run short and shows in no other way: under a looser limit the run goes on as before
and comes to the same results. Where the limit is reached while the operands of an operator are
unified, the operator reports the failure as its own.

* `Checking.Fails`: an action fails with an error.
* `Looser`, `Checker.loosened`: a limit that allows whatever another one allows, and a
  checker under it.
* `Loosens`: an action that goes on alike under a looser limit, and whose failures are due to the
  limit or happen under both.
* `loosens_checkProgram`: checking a program does.  `check_under_limit`: what a limit shows.
-/

namespace FunRiscv

open Checking

/-! ### Failing -/

namespace Checking

/-- An action fails with an error. -/
def Fails {α : Type} (m : Checking α) (c : Checker) (e : Traced TypeError) : Prop :=
  ((ExceptT.run m).run c).1 = .error e

variable {α β : Type} {m : Checking α} {f : α → Checking β} {c c' : Checker} {e : Traced TypeError}

theorem gives_or_fails (m : Checking α) (c : Checker) :
    (∃ a c', Gives m c a c') ∨ ∃ e, Fails m c e := by
  unfold Gives Fails
  rcases (ExceptT.run m).run c with ⟨e | a, c'⟩
  · exact .inr ⟨e, rfl⟩
  · exact .inl ⟨a, c', rfl⟩

theorem Gives.not_fails {a : α} (h : Gives m c a c') : ¬Fails m c e := by
  unfold Gives at h
  intro hfails
  unfold Fails at hfails
  rw [h] at hfails
  cases hfails

theorem Gives.unique {a b : α} {d : Checker} (h : Gives m c a c') (h' : Gives m c b d) :
    b = a ∧ d = c' :=
  (gives_iff_of_run h).1 h'

theorem fails_bind :
    Fails (m >>= f) c e ↔ Fails m c e ∨ ∃ a c', Gives m c a c' ∧ Fails (f a) c' e := by
  unfold Fails Gives
  rw [ExceptT.run_bind, StateT.run_bind]
  rcases h : (ExceptT.run m).run c with ⟨r, c₁⟩
  cases r with
  | error e₁ =>
    constructor
    · intro he
      cases he
      exact .inl rfl
    · rintro (he | ⟨a, c', ha, -⟩)
      · cases he
        rfl
      · cases ha
  | ok a =>
    constructor
    · exact fun he => .inr ⟨a, c₁, rfl, he⟩
    · rintro (he | ⟨a', c', ha, he⟩)
      · cases he
      · cases ha
        exact he

theorem fails_failWith {x : TypeError} : Fails (failWith x : Checking α) c e ↔ e = .ofCause x := by
  have hrun : ((ExceptT.run (failWith x : Checking α)).run c).1 = .error (.ofCause x) := rfl
  unfold Fails
  rw [hrun]
  constructor
  · intro h
    cases h
    rfl
  · rintro rfl
    rfl

/-- A context is put in front of the trail, and the cause stays. -/
theorem fails_inContext {label : String} :
    Fails (inContext label m) c e ↔ ∃ e', Fails m c e' ∧ e = e'.within label := by
  unfold Fails
  rw [run_inContext]
  cases ((ExceptT.run m).run c).1 with
  | ok a => simp [Except.mapError]
  | error e₁ =>
    constructor
    · intro h
      cases h
      exact ⟨e₁, rfl, rfl⟩
    · rintro ⟨e', h, rfl⟩
      cases h
      rfl

end Checking

/-! ### Looser limits -/

/-- A limit on steps that allows whatever another one allows.  Zero stands for no limit. -/
def Looser (limit n : Nat) : Prop := n = 0 ∨ 0 < limit ∧ limit ≤ n

/-- A unifier under another limit. -/
def Unifier.loosened (u : Unifier) (n : Nat) : Unifier := { u with limit := n }

/-- A checker under another limit. -/
def Checker.loosened (c : Checker) (n : Nat) : Checker :=
  { c with options := { c.options with limit := n }, unifier := c.unifier.loosened n }

theorem Unifier.loosened_beyond {u : Unifier} {n : Nat} (hn : Looser u.limit n)
    (h : ¬(u.limit > 0 && u.limit < u.steps + 1) = true) :
    ¬((u.loosened n).limit > 0 && (u.loosened n).limit < (u.loosened n).steps + 1) = true := by
  rw [Bool.and_eq_true, decide_eq_true_eq, decide_eq_true_eq] at h ⊢
  show ¬(n > 0 ∧ n < u.steps + 1)
  rcases hn with hn | hn <;> omega

namespace Unifying

/-- What a call does under a limit and under a looser one. -/
structure Loosens (n : Nat) (u : Unifier) (r r' : Except TypeError Unit × Unifier) : Prop where
  forth : r.1 = .ok () → r' = (.ok (), r.2.loosened n)
  back : ∀ e, r.1 = .error e → e.cause = .stepLimit u.limit ∨ ∃ e', r'.1 = .error e'

section Calls

variable {n : Nat}

theorem loosens_forPairs {act : Ty → Ty → Unifying Unit}
    (hmoves : ∀ a b (u : Unifier), u.Moves (exec (act a b) u).2)
    (hact : ∀ a b (u : Unifier), Looser u.limit n → Loosens n u (exec (act a b) u)
      (exec (act a b) (u.loosened n))) : ∀ (as bs : List Ty) (u : Unifier), Looser u.limit n →
      Loosens n u (exec (forPairs act as bs) u) (exec (forPairs act as bs) (u.loosened n))
  | [], _, u, _ | _ :: _, [], u, _ => ⟨fun _ => rfl, fun _ h => (by cases h)⟩
  | a :: as, b :: bs, u, hn => by
    have hab := hact a b u hn
    have hlimit := (hmoves a b u).limit
    rw [forPairs, exec_bind, exec_bind]
    rcases hr : exec (act a b) u with ⟨e | _, u'⟩ <;> rw [hr] at hab hlimit
    · refine ⟨fun h => (by cases h), fun e' he' => ?_⟩
      refine (hab.back e' he').imp_right ?_
      rintro ⟨e₁, he₁⟩
      rcases hr' : exec (act a b) (u.loosened n) with ⟨e₂ | _, u₂⟩
      · exact ⟨e₂, rfl⟩
      · rw [hr'] at he₁
        cases he₁
    · rw [hab.forth rfl]
      have hrest := loosens_forPairs hmoves hact as bs u' (hlimit ▸ hn)
      exact ⟨hrest.forth, fun e he => hlimit ▸ hrest.back e he⟩

theorem loosens_bindVar (v : String) (t : Ty) (u : Unifier) :
    Loosens n u (exec (bindVar v t) u) (exec (bindVar v t) (u.loosened n)) := by
  rw [exec_bindVar, exec_bindVar]
  split
  · exact ⟨fun _ => rfl, fun _ h => (by cases h)⟩
  · split
    · exact ⟨fun h => (by cases h), fun _ _ => .inr ⟨_, rfl⟩⟩
    · exact ⟨fun _ => rfl, fun _ h => (by cases h)⟩

theorem loosens_meet {fuel : Nat} (hfuel : ∀ a b (u : Unifier), Looser u.limit n →
      Loosens n u (exec (unifyWithin fuel a b) u) (exec (unifyWithin fuel a b) (u.loosened n)))
    (a b : Ty) (u : Unifier) (hn : Looser u.limit n) :
    Loosens n u (exec (meet fuel a b) u) (exec (meet fuel a b) (u.loosened n)) := by
  unfold meet
  split
  · exact loosens_bindVar _ _ u
  · exact loosens_bindVar _ _ u
  · split
    · exact ⟨fun _ => rfl, fun _ h => (by cases h)⟩
    · split
      · exact loosens_forPairs (moves_unifyWithin fuel) hfuel _ _ u hn
      · exact ⟨fun h => (by cases h), fun _ _ => .inr ⟨_, rfl⟩⟩

theorem loosens_unifyWithin (fuel : Nat) (a b : Ty) (u : Unifier) (hn : Looser u.limit n) :
    Loosens n u (exec (unifyWithin fuel a b) u) (exec (unifyWithin fuel a b) (u.loosened n)) := by
  induction fuel generalizing a b u with
  | zero => exact ⟨fun h => (by cases h), fun _ _ => .inr ⟨_, rfl⟩⟩
  | succ fuel ih =>
    rw [exec_unifyWithin_eq, exec_unifyWithin_eq]
    by_cases h : (u.limit > 0 && u.limit < u.steps + 1) = true
    · rw [if_pos h]
      refine ⟨fun hok => (by cases hok), fun e he => .inl ?_⟩
      cases he
      rfl
    · rw [if_neg h, if_neg (Unifier.loosened_beyond hn h)]
      have hmeet := loosens_meet ih (u.apply a) (u.apply b) u.tick hn
      exact ⟨hmeet.forth, hmeet.back⟩

/-- Unifying two types goes the same way under a looser limit, unless the stricter one
is reached. -/
theorem loosens_unify (a b : Ty) (u : Unifier) (hn : Looser u.limit n) :
    Loosens n u (exec (unify a b) u) (exec (unify a b) (u.loosened n)) :=
  loosens_unifyWithin _ a b u hn

end Calls

end Unifying

/-! ### Actions -/

/-- A failure that may be due to a limit: it is the limit's own, or that of an operator that
unifies its operands. -/
def Excused (limit : Nat) (cause : TypeCause) : Prop :=
  cause = .stepLimit limit ∨ ∃ (op : Operator) (l r : Ty), op.kind ≠ .shift ∧
    cause = .operation op.symbol l r

/-- An action goes on alike under a looser limit, and where it fails under the stricter one, this
may be due to the limit, or it fails under both. -/
structure Loosens {α : Type} (n : Nat) (m : Checking α) : Prop where
  forth : ∀ ⦃c : Checker⦄ ⦃a : α⦄ ⦃c' : Checker⦄, Looser c.unifier.limit n → Gives m c a c' →
    c'.unifier.limit = c.unifier.limit ∧ Gives m (c.loosened n) a (c'.loosened n)
  back : ∀ ⦃c : Checker⦄ ⦃e : Traced TypeError⦄, Looser c.unifier.limit n → Fails m c e →
    Excused c.unifier.limit e.cause.cause ∨ ∃ e', Fails m (c.loosened n) e'

section Loosens

variable {α β : Type} {n : Nat} {m : Checking α} {f : α → Checking β}

/-- An action that always succeeds, whatever the limit. -/
theorem Loosens.of_gives {v : Checker → α} {g : Checker → Checker} (hm : ∀ c, Gives m c (v c) (g c))
    (hlimit : ∀ c, (g c).unifier.limit = c.unifier.limit) (hv : ∀ c, v (c.loosened n) = v c)
    (hg : ∀ c, g (c.loosened n) = (g c).loosened n) : Loosens n m where
  forth c a c' _ h := by
    obtain ⟨rfl, rfl⟩ := (hm c).unique h
    exact ⟨hlimit c, hv c ▸ hg c ▸ hm (c.loosened n)⟩
  back c e _ h := ((hm c).not_fails h).elim

theorem Loosens.pure (a : α) : Loosens n (pure a : Checking α) :=
  .of_gives (fun _ => gives_pure.2 ⟨rfl, rfl⟩) (fun _ => rfl) (fun _ => rfl) fun _ => rfl

theorem Loosens.bind (hm : Loosens n m) (hf : ∀ a, Loosens n (f a)) : Loosens n (m >>= f) where
  forth c b c'' hn h := by
    obtain ⟨a, c', ha, hb⟩ := gives_bind.1 h
    obtain ⟨hlimit, ha'⟩ := hm.forth hn ha
    obtain ⟨hlimit', hb'⟩ := (hf a).forth (hlimit ▸ hn) hb
    exact ⟨hlimit'.trans hlimit, gives_bind.2 ⟨a, _, ha', hb'⟩⟩
  back c e hn h := by
    rcases fails_bind.1 h with h | ⟨a, c', ha, h⟩
    · exact (hm.back hn h).imp_right fun ⟨e', he'⟩ => ⟨e', fails_bind.2 (.inl he')⟩
    · obtain ⟨hlimit, ha'⟩ := hm.forth hn ha
      have hback := (hf a).back (hlimit ▸ hn) h
      rw [hlimit] at hback
      exact hback.imp_right fun ⟨e', he'⟩ => ⟨e', fails_bind.2 (.inr ⟨a, _, ha', he'⟩)⟩

theorem loosens_failWith (e : TypeError) : Loosens n (failWith e : Checking α) :=
  ⟨fun _ _ _ _ h => (not_gives_failWith h).elim, fun _ _ _ _ => .inr ⟨_, fails_failWith.2 rfl⟩⟩

theorem Loosens.inContext (hm : Loosens n m) (label : String) : Loosens n (inContext label m) where
  forth c a c' hn h := by
    rw [gives_inContext] at h ⊢
    exact hm.forth hn h
  back c e hn h := by
    obtain ⟨e', he', rfl⟩ := fails_inContext.1 h
    exact (hm.back hn he').imp_right fun ⟨e₁, he₁⟩ => ⟨_, fails_inContext.2 ⟨e₁, he₁, rfl⟩⟩

/-- An action that reads the checker, except for the limit. -/
theorem Loosens.read {k : Checker → Checking β} (hk : ∀ c, Loosens n (k c))
    (hsame : ∀ c, k (c.loosened n) = k c) : Loosens n (get >>= k) where
  forth c b c' hn h := by
    obtain ⟨d, c₁, hd, h⟩ := gives_bind.1 h
    rw [(gives_get.1 hd).1, (gives_get.1 hd).2] at h
    obtain ⟨hlimit, h'⟩ := (hk c).forth hn h
    exact ⟨hlimit, gives_bind.2 ⟨_, _, gives_get.2 ⟨rfl, rfl⟩, (hsame c).symm ▸ h'⟩⟩
  back c e hn h := by
    have hget : Gives get c c c := gives_get.2 ⟨rfl, rfl⟩
    rcases fails_bind.1 h with h | ⟨d, c₁, hd, h⟩
    · exact (hget.not_fails h).elim
    · rw [(gives_get.1 hd).1, (gives_get.1 hd).2] at h
      exact ((hk c).back hn h).imp_right fun ⟨e', he'⟩ =>
        ⟨e', fails_bind.2 (.inr ⟨_, _, gives_get.2 ⟨rfl, rfl⟩, (hsame c).symm ▸ he'⟩)⟩

theorem loosens_modify {g : Checker → Checker} (hlimit : ∀ c, (g c).unifier.limit = c.unifier.limit)
    (hg : ∀ c, g (c.loosened n) = (g c).loosened n) : Loosens n (modify g) :=
  .of_gives (v := fun _ => ⟨⟩) (fun _ => gives_modify.2 rfl) hlimit (fun _ => rfl) hg

theorem loosens_forM {γ : Type} {act : γ → Checking Unit} (xs : List γ)
    (h : ∀ x, Loosens n (act x)) : Loosens n (xs.forM act) := by
  induction xs with
  | nil => exact .pure ()
  | cons x xs ih => exact (h x).bind fun _ => ih

/-! ### Steps -/

theorem loosens_applied (t : Ty) : Loosens n (applied t) :=
  .of_gives (g := id) (fun _ => gives_applied.2 ⟨rfl, rfl⟩) (fun _ => rfl) (fun _ => rfl) fun _ =>
    rfl

theorem limit_freshFor (ps : List String) (u : Unifier) :
    (freshFor ps u).2.limit = u.limit ∧
      freshFor ps (u.loosened n) = ((freshFor ps u).1, (freshFor ps u).2.loosened n) := by
  induction ps generalizing u with
  | nil => exact ⟨rfl, rfl⟩
  | cons p ps ih =>
    obtain ⟨hlimit, hsame⟩ := ih u.fresh.2
    refine ⟨hlimit, ?_⟩
    have hfresh : (u.loosened n).fresh = (u.fresh.1, u.fresh.2.loosened n) := rfl
    simp only [freshFor, hfresh, hsame]

theorem loosens_instantiate (k : Constructor) : Loosens n (instantiate k) := by
  have hsame : ∀ u : Unifier, k.instantiate (u.loosened n) = ((k.instantiate u).1,
    (k.instantiate u).2.loosened n) := fun u => by
    simp only [Constructor.instantiate, (limit_freshFor k.params u).2]
  refine .of_gives (fun _ => gives_instantiate.2 ⟨rfl, rfl⟩)
    (fun c => (limit_freshFor (n := n) k.params c.unifier).1) (fun c => ?_) fun c => ?_
  · have hfst := congrArg Prod.fst (hsame c.unifier)
    exact hfst
  · show Checker.mk .. = Checker.mk ..
    rw [show (k.instantiate (c.loosened n).unifier).2 = _ from congrArg Prod.snd (hsame c.unifier)]
    rfl

theorem loosens_unifyAt (a b : Ty) (loc : Location) : Loosens n (unifyAt a b loc) where
  forth c x c' hn h := by
    obtain ⟨u, hu, rfl⟩ := gives_unifyAt.1 h
    have hloosens := Unifying.loosens_unify a b c.unifier hn
    have hlimit := (Unifying.moves_unify a b c.unifier).limit
    rw [hu] at hloosens hlimit
    exact ⟨hlimit, gives_unifyAt.2 ⟨_, hloosens.forth rfl, rfl⟩⟩
  back c e hn h := by
    have hloosens := Unifying.loosens_unify a b c.unifier hn
    rw [unifyAt] at h
    rcases fails_bind.1 h with h | ⟨r, c₁, hr, h⟩
    · exact ((gives_unify.2 ⟨_, rfl, rfl⟩).not_fails h).elim
    · obtain ⟨u, hu, rfl⟩ := gives_unify.1 hr
      rw [hu] at hloosens
      cases r with
      | ok => exact ((gives_pure.2 ⟨rfl, rfl⟩).not_fails h).elim
      | error e₁ =>
        obtain rfl := fails_failWith.1 h
        have hcause : (e₁.placedAt loc).cause = e₁.cause := by
          unfold TypeError.placedAt
          split <;> rfl
        refine (hloosens.back e₁ rfl).imp (fun hl => .inl (hcause.trans hl)) ?_
        rintro ⟨e₂, he₂⟩
        refine ⟨.ofCause (e₂.placedAt loc), ?_⟩
        rw [unifyAt]
        refine fails_bind.2 (.inr ⟨.error e₂, _, gives_unify.2 ⟨_, Prod.ext he₂ rfl, rfl⟩,
          fails_failWith.2 rfl⟩)

theorem fails_incompatible {loc : Location} {op : Operator} {l r : Ty} {c : Checker}
    {e : Traced TypeError} (h : Fails (incompatible loc op l r : Checking α) c e)
    (hop : op.kind ≠ .shift) (limit : Nat) : Excused limit e.cause.cause := by
  rw [incompatible] at h
  rcases fails_bind.1 h with h | ⟨a, c₁, -, h⟩
  · exact ((gives_applied.2 ⟨rfl, rfl⟩).not_fails h).elim
  · rcases fails_bind.1 h with h | ⟨b, c₂, -, h⟩
    · exact ((gives_applied.2 ⟨rfl, rfl⟩).not_fails h).elim
    · obtain rfl := fails_failWith.1 h
      exact .inr ⟨op, a, b, hop, rfl⟩

theorem loosens_incompatible (loc : Location) (op : Operator) (l r : Ty) :
    Loosens n (incompatible loc op l r : Checking α) :=
  (loosens_applied l).bind fun _ => (loosens_applied r).bind fun _ => loosens_failWith _

/-- Unifying the operands of an operator, which reports a failure as its own. -/
theorem Loosens.unify {a b : Ty} {g : Except TypeError Unit → Checking β} {loc : Location}
    {op : Operator} {l r : Ty} (hop : op.kind ≠ .shift)
    (herror : ∀ e, g (.error e) = incompatible loc op l r) (hok : Loosens n (g (.ok ()))) :
    Loosens n (unify a b >>= g) where
  forth c x c' hn h := by
    obtain ⟨result, c₁, hr, h⟩ := gives_bind.1 h
    cases result with
    | error e => exact (not_gives_incompatible (herror e ▸ h)).elim
    | ok =>
      obtain ⟨u, hu, rfl⟩ := gives_unify.1 hr
      have hloosens := Unifying.loosens_unify a b c.unifier hn
      have hlimit := (Unifying.moves_unify a b c.unifier).limit
      rw [hu] at hloosens hlimit
      obtain ⟨hlimit', h'⟩ := hok.forth (hlimit.symm ▸ hn) h
      exact ⟨hlimit'.trans hlimit,
        gives_bind.2 ⟨.ok (), _, gives_unify.2 ⟨_, hloosens.forth rfl, rfl⟩, h'⟩⟩
  back c e hn h := by
    rcases fails_bind.1 h with h | ⟨result, c₁, hr, h⟩
    · exact ((gives_unify.2 ⟨_, rfl, rfl⟩).not_fails h).elim
    · cases result with
      | error e₁ => exact .inl (fails_incompatible (herror e₁ ▸ h) hop _)
      | ok =>
        obtain ⟨u, hu, rfl⟩ := gives_unify.1 hr
        have hloosens := Unifying.loosens_unify a b c.unifier hn
        have hlimit := (Unifying.moves_unify a b c.unifier).limit
        rw [hu] at hloosens hlimit
        have hback := hok.back (hlimit.symm ▸ hn) h
        rw [show ({ c with unifier := u } : Checker).unifier.limit = c.unifier.limit from hlimit]
          at hback
        exact hback.imp_right fun ⟨e', he'⟩ =>
          ⟨e', fails_bind.2 (.inr ⟨.ok (), _, gives_unify.2 ⟨_, hloosens.forth rfl, rfl⟩, he'⟩)⟩

theorem loosens_sameOperands {op : Operator} (hop : op.kind ≠ .shift) (loc : Location) (l r : Ty)
    (test : Ty → Bool) : Loosens n (sameOperands loc op l r test) := by
  have hlast : ∀ t : Ty, Loosens n (if t.isVar || test t then Pure.pure t else
    incompatible loc op l r : Checking Ty) := by
    intro t
    split
    · exact .pure t
    · exact loosens_incompatible _ _ _ _
  rw [sameOperands]
  refine .unify hop (fun _ => rfl) ((loosens_applied l).bind fun a => ?_)
  dsimp only
  split
  · exact (loosens_applied r).bind hlast
  · exact (Loosens.pure _).bind hlast

theorem loosens_operationType (loc : Location) (op : Operator) (l r : Ty) :
    Loosens n (operationType loc op l r) := by
  have hop : ∀ {kind : OperatorKind}, op.kind = kind → kind ≠ .shift → op.kind ≠ .shift :=
    fun h hne => h ▸ hne
  rw [operationType]
  split
  · next h => exact loosens_sameOperands (hop h (by decide)) _ _ _ _
  · next h => exact loosens_sameOperands (hop h (by decide)) _ _ _ _
  · next h => exact .unify (hop h (by decide)) (fun _ => rfl) (.pure _)
  · refine (loosens_applied l).bind fun a => (loosens_applied r).bind fun b => ?_
    split
    · exact .pure _
    · exact loosens_incompatible _ _ _ _
  · next h => exact .unify (hop h (by decide)) (fun _ => rfl) (.unify (hop h (by decide))
      (fun _ => rfl) (.pure _))

/-- Every step goes on alike under a looser limit. -/
theorem compositional_loosens (n : Nat) : Compositional (Loosens n) where
  pure := .pure
  bind := .bind
  failWith := loosens_failWith
  applied := loosens_applied
  fresh := .of_gives (fun _ => gives_fresh.2 ⟨rfl, rfl⟩) (fun _ => rfl) (fun _ => rfl) fun _ => rfl
  unifyAt := loosens_unifyAt
  operationType := loosens_operationType
  record _ _ := loosens_modify (fun _ => rfl) fun _ => rfl
  instantiate := loosens_instantiate
  find? _ _ := .of_gives (g := id) (fun _ => gives_find?.2 ⟨rfl, rfl⟩) (fun _ => rfl) (fun _ => rfl)
    fun _ => rfl
  global _ := .read (fun _ => .pure _) fun _ => rfl

/-! ### Functions and programs -/

theorem loosens_paramTypes (ps : List Param) : Loosens n (paramTypes ps) := by
  refine (compositional_loosens n).mapM fun p _ => ?_
  split
  · exact .pure _
  · exact ((compositional_loosens n).resolve [] _).inContext _

theorem loosens_resultType? (d : FuncDef) : Loosens n (resultType? d) := by
  rw [resultType?]
  split
  · exact .pure _
  · exact (((compositional_loosens n).resolve [] _).inContext _).bind fun _ => .pure _

theorem loosens_checkFunc (name : String) (d : FuncDef) : Loosens n (checkFunc name d) := by
  have hfinish : ∀ (params : List Ty) (i : Nat) (result : Ty), Loosens n (do
      let returned ← checkStmts result (withParams [[]] d.params params) i d.body.stmts
      if !returned then unifyAt result .none d.loc
      let t := (← get).settle (Ty.curry params result)
      modify fun c => { c with funcs := (name, t) :: c.funcs }
      insertGlobal name (.function name t true)) := by
    intro params i result
    have hend : Loosens n (do
        let t := (← get).settle (Ty.curry params result)
        modify fun c => { c with funcs := (name, t) :: c.funcs }
        insertGlobal name (.function name t true)) := by
      refine .read (fun c => ?_) fun _ => rfl
      refine .bind (loosens_modify ?_ ?_) fun _ => loosens_modify ?_ ?_ <;> exact fun _ => rfl
    refine ((compositional_loosens n).checkStmts result _ _ _).bind fun returned => ?_
    cases returned with
    | true => exact hend
    | false => exact (loosens_unifyAt _ _ _).bind fun _ => hend
  rw [checkFunc]
  refine .bind (loosens_modify (fun _ => rfl) fun _ => rfl) fun _ => .read (fun c => ?_) fun c => ?_
  · refine .bind (loosens_modify (fun _ => rfl) fun _ => rfl) fun _ =>
      (loosens_paramTypes _).bind fun params =>
      (loosens_resultType? d).bind fun written => ?_
    cases written with
    | some t => exact (Loosens.pure t).bind fun result => hfinish params _ result
    | none => exact (compositional_loosens n).fresh.bind fun result => hfinish params _ result
  · rfl

/-- An action on the table does not see the limit. -/
theorem Tabulates.loosens {m : Checking Unit} {r : Frame → Option Frame}
    (h : ∀ path, Tabulates m path r) : Loosens n m where
  forth c x c' _ hm := by
    obtain ⟨G, hG, rfl⟩ := (h _ rfl).1 hm
    exact ⟨rfl, (h _ rfl).2 ⟨G, hG, rfl⟩⟩
  back c e _ hm := by
    rcases gives_or_fails m (c.loosened n) with ⟨x, c', hgives⟩ | hfails
    · obtain ⟨G, hG, -⟩ := (h _ rfl).1 hgives
      exact (((h _ rfl).2 ⟨G, hG, rfl⟩ : Gives m c x _).not_fails hm).elim
    · exact .inr hfails

theorem loosens_checkAll (fs : List NamedFunction) : Loosens n (checkAll fs) :=
  loosens_forM fs fun f => (loosens_checkFunc f.name f.func).inContext _

/-- Filling the table and checking the functions goes on alike under a looser limit. -/
theorem loosens_program (p : Program) :
    Loosens n (declareAll p.defs >>= fun _ => checkAll p.functions) :=
  (Tabulates.loosens fun path => tabulates_declareAll p path).bind fun _ => loosens_checkAll _

end Loosens

/-- The options of a checker with another limit. -/
def CheckOptions.loosened (o : CheckOptions) (n : Nat) : CheckOptions := { o with limit := n }

theorem gives_check {p : Program} {o : CheckOptions} {c : Checker} :
    p.check o = (.ok (), c) ↔ Gives (declareAll p.defs >>= fun _ => checkAll p.functions)
      (Checker.new o) () c := by
  show Gives (checkProgram p) (Checker.new o) () c ↔ _
  rw [checkProgram_eq, gives_bind]
  constructor
  · rintro ⟨_, c₀, hreset, h⟩
    obtain rfl := gives_modify.1 hreset
    exact h
  · exact fun h => ⟨⟨⟩, _, gives_modify.2 rfl, h⟩

theorem fails_check {p : Program} {o : CheckOptions} {e : Traced TypeError} {c : Checker}
    (h : p.check o = (.error e, c)) :
    Fails (declareAll p.defs >>= fun _ => checkAll p.functions) (Checker.new o) e := by
  have hfails : Fails (checkProgram p) (Checker.new o) e := congrArg Prod.fst h
  have hmodify : Gives (modify Checker.reset) (Checker.new o) ⟨⟩ (Checker.new o) :=
    gives_modify.2 rfl
  rw [checkProgram_eq] at hfails
  rcases fails_bind.1 hfails with hfails | ⟨_, c₀, hreset, hfails⟩
  · exact (hmodify.not_fails hfails).elim
  · obtain rfl := gives_modify.1 hreset
    exact hfails

/-- What is accepted under a limit is accepted under every looser one, with the same types. What
only a stricter limit rejects fails with the error of the limit, or as an operation whose operands
could not be unified within it. -/
theorem check_under_limit (p : Program) (o : CheckOptions) (n : Nat) (hn : Looser o.limit n) :
    (∀ c, p.check o = (.ok (), c) → ∃ d, p.check (o.loosened n) = (.ok (), d) ∧
      d.funcTypes p = c.funcTypes p ∧ ∀ i, d.typeOf? i = c.typeOf? i) ∧
    ∀ e c d, p.check o = (.error e, c) → p.check (o.loosened n) = (.ok (), d) →
      Excused o.limit e.cause.cause := by
  constructor
  · intro c h
    obtain ⟨-, h'⟩ := (loosens_program p).forth hn (gives_check.1 h)
    exact ⟨c.loosened n, gives_check.2 h', rfl, fun _ => rfl⟩
  · intro e c d hstrict hloose
    rcases (loosens_program p).back hn (fails_check hstrict) with h | ⟨e', h⟩
    · exact h
    · exact ((gives_check.1 hloose).not_fails h).elim

/-- A function that returns a sum of three numbers. -/
def sumOfThree : Program :=
  ⟨[], [.func {
    loc := {}, name := "main", params := [], ret := some (.name {} "u24" []), checked := true
    body := ⟨{}, [.ret {}
      (some (.binOp {} .add (.binOp {} .add (.uint {} 1) (.uint {} 2)) (.uint {} 3)))]⟩ }]⟩

/-- Three steps are enough for a sum of three numbers, and two are not: the third one
is for the result. -/
theorem check_under_limit_sumOfThree :
    (∃ d, sumOfThree.check { limit := 5 } = (.ok (), d) ∧ d.typeOf? 0 = some (.word .u24)) ∧
    ∃ e c, sumOfThree.check { limit := 2 } = (.error e, c) ∧ Excused 2 e.cause.cause := by
  have hthree : sumOfThree.check { limit := 3 } = (.ok (), (sumOfThree.check { limit := 3 }).2) :=
    check_eq_of_isOk (by decide +kernel)
  have htype : (sumOfThree.check { limit := 3 }).2.typeOf? 0 = some (.word .u24) := by
    decide +kernel
  obtain ⟨d, hd, -, hsame⟩ :=
    (check_under_limit sumOfThree { limit := 3 } 5 (.inr (by decide))).1 _ hthree
  refine ⟨⟨d, hd, (hsame 0).trans htype⟩, ?_⟩
  have htwo : (sumOfThree.check { limit := 2 }).1.isOk = false := by decide +kernel
  rcases hr : sumOfThree.check { limit := 2 } with ⟨e | _, c⟩
  · exact ⟨e, c, rfl, (check_under_limit sumOfThree { limit := 2 } 3 (.inr (by decide))).2 e
      c _ hr hthree⟩
  · rw [hr] at htwo
    cases htwo

/-- With one step the operands of the outer sum cannot be unified, and the sum is reported as one of
numbers that cannot be added. -/
theorem limit_shown_as_operation : ∃ e c d, sumOfThree.check { limit := 1 } = (.error e, c) ∧
    sumOfThree.check { limit := 0 } = (.ok (), d) ∧ e.cause.cause.kind = .operation := by
  have hzero : sumOfThree.check { limit := 0 } = (.ok (), (sumOfThree.check { limit := 0 }).2) :=
    check_eq_of_isOk (by decide +kernel)
  have hone : (match (sumOfThree.check { limit := 1 }).1 with
      | .error e => e.cause.cause.kind
      | .ok _ => .generic) = .operation := by decide +kernel
  rcases hr : sumOfThree.check { limit := 1 } with ⟨e | _, c⟩ <;> rw [hr] at hone
  · exact ⟨e, c, _, rfl, hzero, hone⟩
  · cases hone

end FunRiscv
