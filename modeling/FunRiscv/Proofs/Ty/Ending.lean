import Mathlib
import FunRiscv.Proofs.Ty.Histories
import FunRiscv.Proofs.Ty.Nesting

/-!
# The end of unification

`Unifying.unify` gives itself a bound on how deep its calls nest. Here the recursion is described
without one, as a relation that holds only of calls with finitely many calls inside them; and
whatever a unifier was asked for before, every call is of that kind.

* `Unifying.Ends`: a call ends with a result, with calls nested at most so deep.
* `Unifying.ends_of_exec`, `Unifying.Ends.exec`: calls that end are those in which a bound on
  nesting is not reached.
* `Unifying.unify_ends`: the theorem about calls after any requests.
-/

namespace FunRiscv

/-- The limit on steps forbids another one.  No limit does not. -/
def Unifier.spent (u : Unifier) : Bool := u.limit > 0 && u.limit < u.steps + 1

namespace Unifying

theorem exec_of_spent {u : Unifier} (h : u.spent = true) (n : Nat) (a b : Ty) :
    exec (unifyWithin (n + 1) a b) u = (.error { cause := .stepLimit u.limit }, u.tick) :=
  (exec_unifyWithin_eq n a b u).trans (if_pos h)

theorem exec_of_not_spent {u : Unifier} (h : u.spent = false) (n : Nat) (a b : Ty) :
    exec (unifyWithin (n + 1) a b) u = exec (meet n (u.apply a) (u.apply b)) u.tick :=
  (exec_unifyWithin_eq n a b u).trans
    (if_neg (by rw [← Unifier.spent, h]; exact Bool.false_ne_true))

/-! ### Calls that end -/

mutual

/-- A call on two types ends with a result, with calls nested at most `n` deep. -/
inductive Ends : (n : Nat) → Ty → Ty → Unifier → Except TypeError Unit × Unifier → Prop where
  | limited {n a b u} (hspent : u.spent = true) :
    Ends (n + 1) a b u (.error { cause := .stepLimit u.limit }, u.tick)
  | left {n a b u v} (hspent : u.spent = false) (ha : bindable? (u.apply a) = some v) :
      Ends (n + 1) a b u (exec (bindVar v (u.apply b)) u.tick)
  | right {n a b u w} (hspent : u.spent = false) (ha : bindable? (u.apply a) = none)
    (hb : bindable? (u.apply b) = some w) : Ends (n + 1) a b u (exec (bindVar w (u.apply a)) u.tick)
  | dynamic {n a b u} (hspent : u.spent = false) (ha : bindable? (u.apply a) = none)
      (hb : bindable? (u.apply b) = none) (hany : u.apply a = .any ∨ u.apply b = .any) :
    Ends (n + 1) a b u (.ok (), u.tick)
  /-- The heads agree, and the calls on the children end. -/
  | children {n a b u r} (hspent : u.spent = false) (ha : bindable? (u.apply a) = none)
      (hb : bindable? (u.apply b) = none) (hany : ¬(u.apply a = .any ∨ u.apply b = .any))
      (hhead : (u.apply a).sameHead (u.apply b) = true)
      (h : EndsAll n (u.apply a).children (u.apply b).children u.tick r) : Ends (n + 1) a b u r
  | clash {n a b u} (hspent : u.spent = false) (ha : bindable? (u.apply a) = none)
      (hb : bindable? (u.apply b) = none) (hany : ¬(u.apply a = .any ∨ u.apply b = .any))
      (hhead : (u.apply a).sameHead (u.apply b) = false) :
    Ends (n + 1) a b u (.error { cause := .mismatch (u.apply (u.apply a)) (u.apply (u.apply b)) },
      u.tick)

/-- Calls on the pairs of two lists, one after the other, end with a result. A failure
ends them all. -/
inductive EndsAll : (n : Nat) → List Ty → List Ty → Unifier → Except TypeError Unit × Unifier → Prop
    where
  | nil {n u} : EndsAll n [] [] u (.ok (), u)
  | fail {n a as b bs u e u'} (h : Ends n a b u (.error e, u')) :
    EndsAll n (a :: as) (b :: bs) u (.error e, u')
  | cons {n a as b bs u u' r} (h : Ends n a b u (.ok (), u')) (hs : EndsAll n as bs u' r) :
    EndsAll n (a :: as) (b :: bs) u r

end

/-- A result that is not that of reaching the bound on nesting. -/
def Unexhausted (r : Except TypeError Unit × Unifier) : Prop :=
  ∀ e, r.1 = .error e → e.cause ≠ .exhausted

theorem unexhausted_ok (u : Unifier) : Unexhausted (.ok (), u) := fun _ h => by cases h

/-! ### Ends and bounds -/

theorem endsAll_of_exec {n : Nat}
    (hact : ∀ a b u, Unexhausted (exec (unifyWithin n a b) u) →
      Ends n a b u (exec (unifyWithin n a b) u)) {as bs : List Ty} (u : Unifier)
    (hlength : as.length = bs.length) (h : Unexhausted (exec (forPairs (unifyWithin n) as bs) u)) :
    EndsAll n as bs u (exec (forPairs (unifyWithin n) as bs) u) := by
  induction as generalizing bs u with
  | nil =>
    obtain rfl := List.length_eq_zero_iff.1 hlength.symm
    exact .nil
  | cons a as ih =>
    obtain ⟨b, bs, rfl⟩ := List.exists_cons_of_length_eq_add_one hlength.symm
    have hab := hact a b u
    rw [forPairs, exec_bind] at h ⊢
    rcases hr : exec (unifyWithin n a b) u with ⟨e | _, u'⟩ <;> rw [hr] at hab h
    · exact .fail (hab h)
    · exact .cons (hab (unexhausted_ok u')) (ih u' (Nat.succ.inj hlength) h)

/-- A call that does not reach a bound on nesting ends within it. -/
theorem ends_of_exec (n : Nat) (a b : Ty) (u : Unifier)
    (h : Unexhausted (exec (unifyWithin n a b) u)) : Ends n a b u (exec (unifyWithin n a b) u) := by
  induction n generalizing a b u with
  | zero => exact absurd rfl (h _ rfl)
  | succ n ih =>
    cases hspent : u.spent with
    | true =>
      rw [exec_of_spent hspent]
      exact .limited hspent
    | false =>
      rw [exec_of_not_spent hspent] at h ⊢
      cases ha : bindable? (u.apply a) with
      | some v =>
        simp only [meet, ha]
        exact .left hspent ha
      | none =>
        cases hb : bindable? (u.apply b) with
        | some w =>
          simp only [meet, ha, hb]
          exact .right hspent ha hb
        | none =>
          simp only [meet, ha, hb] at h ⊢
          by_cases hany : u.apply a = .any ∨ u.apply b = .any
          · rw [if_pos hany]
            exact .dynamic hspent ha hb hany
          · rw [if_neg hany] at h ⊢
            cases hhead : (u.apply a).sameHead (u.apply b) with
            | true =>
              rw [hhead, if_pos rfl] at h
              rw [if_pos rfl]
              exact .children hspent ha hb hany hhead
                (endsAll_of_exec ih u.tick (Ty.length_children_of_sameHead hhead) h)
            | false =>
              rw [if_neg Bool.false_ne_true]
              exact .clash hspent ha hb hany hhead

mutual

/-- A call that ends within a bound on nesting has the same result under every bound
that is no less. -/
theorem Ends.exec {n : Nat} {a b : Ty} {u : Unifier} {r : Except TypeError Unit × Unifier} :
    Ends n a b u r → ∀ m, Unifying.exec (unifyWithin (n + m) a b) u = r
  | .limited hspent, m => by
    rw [Nat.add_right_comm, exec_of_spent hspent]
  | .left hspent ha, m => by
    rw [Nat.add_right_comm, exec_of_not_spent hspent]
    simp only [meet, ha]
  | .right hspent ha hb, m => by
    rw [Nat.add_right_comm, exec_of_not_spent hspent]
    simp only [meet, ha, hb]
  | .dynamic hspent ha hb hany, m => by
    rw [Nat.add_right_comm, exec_of_not_spent hspent]
    simp only [meet, ha, hb, if_pos hany, exec_pure]
  | .children hspent ha hb hany hhead h, m => by
    rw [Nat.add_right_comm, exec_of_not_spent hspent]
    simp only [meet, ha, hb, if_neg hany, hhead, if_true]
    exact h.exec m
  | .clash hspent ha hb hany hhead, m => by
    rw [Nat.add_right_comm, exec_of_not_spent hspent]
    simp only [meet, ha, hb, if_neg hany, hhead, Bool.false_eq_true, if_false]
    rfl

theorem EndsAll.exec {n : Nat} {as bs : List Ty} {u : Unifier}
    {r : Except TypeError Unit × Unifier} :
    EndsAll n as bs u r → ∀ m, Unifying.exec (forPairs (unifyWithin (n + m)) as bs) u = r
  | .nil, m => rfl
  | .fail h, m => by rw [forPairs, exec_bind, h.exec m]
  | .cons h hs, m => by
    rw [forPairs, exec_bind, h.exec m]
    exact hs.exec m

end

/-- A call has at most one end. -/
theorem Ends.unique {n n' : Nat} {a b : Ty} {u : Unifier} {r r' : Except TypeError Unit × Unifier}
    (h : Ends n a b u r) (h' : Ends n' a b u r') : r = r' := by
  rw [← h.exec n', ← h'.exec n, Nat.add_comm]

/-- **Unification terminates without a limit on steps.** Whatever a unifier was asked for, and
whatever its limit was and is, if it has one: the calls that unifying two types makes are nested no
deeper than the types and all bindings have nodes, and so they end. They end with the result of
`unify` and with no other, under every bound on nesting from that depth on. -/
theorem unify_ends (stem : String) (initial limit : Nat) (rs : List Unifier.Request) (a b : Ty) :
    let u : Unifier := { (Unifier.new stem initial).after rs with limit }
    let depth := a.size + b.size + u.subst.size + 1
    Ends depth a b u (exec (unify a b) u) ∧ (∀ r, (∃ n, Ends n a b u r) ↔ r = exec (unify a b) u) ∧
      ∀ m, exec (unifyWithin (depth + m) a b) u = exec (unify a b) u := by
  intro u depth
  have hu : u.Coherent := (Unifier.coherent_after stem initial rs).of_subst rfl
  have hends : Ends depth a b u (exec (unify a b) u) :=
    ends_of_exec depth a b u (exec_unify_ne_exhausted hu a b)
  refine ⟨hends, fun r => ⟨?_, ?_⟩, hends.exec⟩
  · rintro ⟨n, h⟩
    exact h.unique hends
  · rintro rfl
    exact ⟨depth, hends⟩

end Unifying

end FunRiscv
