import Mathlib
import FunRiscv.Proofs.Typing.Calls
import FunRiscv.Proofs.Typing.Respelling
import FunRiscv.Proofs.Typing.Steady

/-!
# States without type parameters

Outside the symbols that declare them, type parameters occur nowhere: all variables are fresh ones
that were made before.

* `Unifier.Made`: a variable that was made. `Checker.Clean`: all variables of a checker were, but
  for the parameters of symbols.
* `Orderly`: calls one after the other, each with clean frames and types, from a clean state.
* `Safe`: an action from a clean state, the calls it makes, and what holds of its result. It does
  the same whatever the parameters of symbols are called.
* `safe_fresh`, `safe_unify`, `safe_instantiate` and others: the steps.
-/

namespace FunRiscv

open Checking

/-! ### Variables made so far -/

namespace Unifier

/-- A variable that was made: `fresh` gave it when there were fewer. -/
def Made (u : Unifier) (v : String) : Prop := ∃ n < u.made, v = { u with made := n }.fresh.1

variable {u u' : Unifier} {v : String}

theorem Moves.made_of (h : u.Moves u') (hv : u.Made v) : u'.Made v := by
  obtain ⟨n, hn, rfl⟩ := hv
  refine ⟨n, hn.trans_le h.made, ?_⟩
  show u.stem ++ "_" ++ toString (n + 1) = u'.stem ++ "_" ++ toString (n + 1)
  rw [h.stem]

theorem Moves.over_made (h : u.Moves u') {t : Ty} (ht : t.Over u.Made) : t.Over u'.Made :=
  ht.mono fun _ => h.made_of

theorem made_fresh (u : Unifier) : u.fresh.2.Made u.fresh.1 := ⟨u.made, Nat.lt_succ_self _, rfl⟩

/-- A variable is made once. -/
theorem not_made_fresh (u : Unifier) : ¬u.Made u.fresh.1 := by
  rintro ⟨n, hn, heq⟩
  have hname : u.freshName (u.made + 1) = u.freshName (n + 1) := heq
  exact absurd (freshName_inj hname) (by omega)

theorem made_freshFor (ps : List String) (u : Unifier) :
    ∀ t ∈ (freshFor ps u).1, t.Over (freshFor ps u).2.Made := by
  induction ps generalizing u with
  | nil => simp [freshFor]
  | cons p ps ih =>
    refine List.forall_mem_cons.2 ⟨Ty.over_var.2 ?_, ih u.fresh.2⟩
    exact (moves_freshFor ps u.fresh.2).made_of (made_fresh u)

/-- The variables that a use makes are new. -/
theorem not_made_freshFor (ps : List String) {u u' : Unifier} (h : u'.Moves u) :
    ∀ t ∈ (freshFor ps u).1, t.Over fun v => ¬u'.Made v := by
  induction ps generalizing u with
  | nil => simp [freshFor]
  | cons p ps ih =>
    refine List.forall_mem_cons.2 ⟨Ty.over_var.2 fun hv => ?_, ih (h.trans u.moves_fresh)⟩
    exact u.not_made_fresh (h.made_of hv)

end Unifier

/-! ### Clean states -/

/-- All variables of a checker were made by it, but for the type parameters that occur in the
symbols which declare them. -/
structure Checker.Clean (c : Checker) : Prop where
  bindings : c.unifier.subst.Over c.unifier.Made
  types : ∀ e ∈ c.types, e.2.Over c.unifier.Made
  funcs : ∀ e ∈ c.funcs, e.2.Over c.unifier.Made
  globals : c.globals.Tidy

/-- The scope path is of no matter. -/
theorem Checker.Clean.under {c : Checker} (hc : c.Clean) (path : String) :
    ({ c with scopePath := path } : Checker).Clean :=
  ⟨hc.bindings, hc.types, hc.funcs, hc.globals⟩

/-- What a call needs besides clean types. -/
def Call.Fits : Call → Checker → Prop
  | .instantiate k, _ => k.Tidy
  | .declareName _ s _, _ | .insertGlobal _ s, _ => s.Tidy
  | .checkProgram _, c => c.reset = c
  | .inContext _ x, c => x.Fits c
  | .underPath path x, c => x.Fits { c with scopePath := path }
  | _, _ => True

/-- The variables of what a call gives were made. -/
def Call.Returns : (x : Call) → Unifier → x.Result → Prop
  | .fresh, u, (t : Ty) | .instantiate _, u, (t : Ty) | .inferVar .., u, (t : Ty)
  | .operationType .., u, (t : Ty)
  | .infer .., u, (t : Ty) | .applyArguments .., u, (t : Ty) => t.Over u.Made
  | .inferCases .., u, (t? : Option Ty) => ∀ t ∈ t?, t.Over u.Made
  | .lambdaParams .., u, (ts : List Ty) | .inferList .., u, (ts : List Ty)
  | .freshes _, u, (ts : List Ty) => ∀ t ∈ ts, t.Over u.Made
  | .bindPattern .., u, (inner : List Frame) | .bindPatterns .., u, (inner : List Frame)
  | .assignLocal .., u, (inner : List Frame) =>
    AreLocal (·.Over u.Made) inner
  | .checkStmt .., u, (out : List Frame × Bool) => AreLocal (·.Over u.Made) out.1
  | .inContext _ x, u, r => x.Returns u r
  | .underPath _ x, u, r => x.Returns u r
  | _, _, _ => True

/-- A call whose frames and types hold variables made so far. -/
structure Call.Given (x : Call) (c : Checker) : Prop where
  locals : AreLocal (·.Over c.unifier.Made) x.locals
  types : ∀ t ∈ x.types, t.Over c.unifier.Made
  fits : x.Fits c

theorem areLocal_nil {P : Ty → Prop} : AreLocal P [] := fun f hf => by simp at hf

section Given

variable {x : Call} {c : Checker} {a b : Ty}

/-- A call that is given frames only. -/
theorem Call.Given.of_locals (hlocals : AreLocal (·.Over c.unifier.Made) x.locals)
    (htypes : x.types = []) (hfits : x.Fits c) : x.Given c := ⟨hlocals, by simp [htypes], hfits⟩

/-- A call that is given no types at all. -/
theorem Call.Given.of_nil (hlocals : x.locals = []) (htypes : x.types = []) (hfits : x.Fits c) :
    x.Given c :=
  .of_locals (hlocals ▸ areLocal_nil) htypes hfits

/-- A call that is given frames and a type. -/
theorem Call.Given.of_type (hlocals : AreLocal (·.Over c.unifier.Made) x.locals)
    (htypes : x.types = [a]) (ha : a.Over c.unifier.Made) (hfits : x.Fits c) : x.Given c :=
  ⟨hlocals, by simpa [htypes] using ha, hfits⟩

/-- A call that is given frames and perhaps a type. -/
theorem Call.Given.of_type? {a? : Option Ty} (hlocals : AreLocal (·.Over c.unifier.Made) x.locals)
    (htypes : x.types = a?.toList) (ha : ∀ a ∈ a?, a.Over c.unifier.Made) (hfits : x.Fits c) :
    x.Given c := ⟨hlocals, by simpa [htypes] using ha, hfits⟩

/-- A call that is given two types. -/
theorem Call.Given.of_pair (hlocals : x.locals = []) (htypes : x.types = [a, b])
    (ha : a.Over c.unifier.Made) (hb : b.Over c.unifier.Made) (hfits : x.Fits c) : x.Given c :=
  ⟨hlocals ▸ areLocal_nil, by simp [htypes, ha, hb], hfits⟩

theorem Call.Given.first {ts : List Ty} (hx : x.Given c) (htypes : x.types = a :: ts) :
    a.Over c.unifier.Made :=
  hx.types a (htypes ▸ List.mem_cons_self)

theorem Call.Given.second {ts : List Ty} (hx : x.Given c) (htypes : x.types = a :: b :: ts) :
    b.Over c.unifier.Made :=
  hx.types b (htypes ▸ List.mem_cons_of_mem _ List.mem_cons_self)

end Given

/-- Calls one after the other that lead the unifier from one state to another, each from a clean
state. Between them it stays as it is. -/
inductive Orderly : Unifier → List (Call × Checker) → Unifier → Prop
  | nil (u : Unifier) : Orderly u [] u
  | cons {x : Call} {c : Checker} {l : List (Call × Checker)} {u : Unifier} (hc : c.Clean)
      (hx : x.Given c) (hrest : Orderly (after x.action c).unifier l u) :
    Orderly c.unifier ((x, c) :: l) u

/-- What an action does from a state: the next state is clean, the action consists of some calls,
something holds of its result, and all that does not depend on what type parameters are called. -/
structure Safe {α : Type} (m : Checking α) (c : Checker) (calls : List (Call × Checker))
    (Q : Unifier → α → Prop) : Prop where
  clean : (after m c).Clean
  moves : c.unifier.Moves (after m c).unifier
  calls : Orderly c.unifier calls (after m c).unifier
  result : ∀ a, outcome m c = .ok a → Q (after m c).unifier a
  blind : ∀ d, c.Respelled d → outcome m d = outcome m c ∧ (after m c).Respelled (after m d)

theorem Orderly.append {u u' u'' : Unifier} {l l' : List (Call × Checker)} (h : Orderly u l u')
    (h' : Orderly u' l' u'') : Orderly u (l ++ l') u'' := by
  induction h with
  | nil => exact h'
  | cons hc hx _ ih => exact .cons hc hx (ih h')

/-! ### Putting actions together -/

namespace Checking

variable {α β : Type} {m : Checking α} {f : α → Checking β} {c : Checker} {a : α}
  {e : Traced TypeError}

theorem run_eq (m : Checking α) (c : Checker) : (ExceptT.run m).run c = (outcome m c, after m c) :=
  rfl

theorem run_bind_ok (h : outcome m c = .ok a) :
    (ExceptT.run (m >>= f)).run c = (ExceptT.run (f a)).run (after m c) := by
  rw [ExceptT.run_bind, StateT.run_bind, run_eq m c, h]
  rfl

theorem run_bind_error (h : outcome m c = .error e) :
    (ExceptT.run (m >>= f)).run c = (.error e, after m c) := by
  rw [ExceptT.run_bind, StateT.run_bind, run_eq m c, h]
  rfl

theorem outcome_bind_ok (h : outcome m c = .ok a) :
    outcome (m >>= f) c = outcome (f a) (after m c) := congrArg Prod.fst (run_bind_ok h)

theorem after_bind_ok (h : outcome m c = .ok a) : after (m >>= f) c = after (f a) (after m c) :=
  congrArg Prod.snd (run_bind_ok h)

theorem outcome_bind_error (h : outcome m c = .error e) : outcome (m >>= f) c = .error e :=
  congrArg Prod.fst (run_bind_error h)

theorem after_bind_error (h : outcome m c = .error e) : after (m >>= f) c = after m c :=
  congrArg Prod.snd (run_bind_error h)

theorem outcome_inContext (label : String) (m : Checking α) (c : Checker) :
    outcome (inContext label m) c = (outcome m c).mapError (Traced.within label) := by
  rw [outcome, run_inContext]
  rfl

theorem after_inContext (label : String) (m : Checking α) (c : Checker) :
    after (inContext label m) c = after m c := by
  rw [after, run_inContext]
  rfl

end Checking

section Safe

variable {α β : Type} {m : Checking α} {f : α → Checking β} {c : Checker}
  {l : List (Call × Checker)} {Q Q' : Unifier → α → Prop} {R : Unifier → β → Prop}
  {k : α → Checker → List (Call × Checker)}

theorem Safe.imp (h : Safe m c l Q) (hQ : ∀ a, Q (after m c).unifier a → Q' (after m c).unifier a) :
    Safe m c l Q' :=
  ⟨h.clean, h.moves, h.calls, fun a ha => hQ a (h.result a ha), h.blind⟩

/-- An action and what follows it. -/
theorem Safe.bind (hm : Safe m c l Q)
    (hf : ∀ a c', c'.Clean → c.unifier.Moves c'.unifier → Q c'.unifier a →
      Safe (f a) c' (k a c') R) :
    Safe (m >>= f) c (l ++ followed m c k) R := by
  cases h : outcome m c with
  | error e =>
    have hcalls : l ++ followed m c k = l := by rw [followed, h, List.append_nil]
    rw [hcalls]
    refine ⟨?_, ?_, ?_, fun b hb => ?_, fun d hd => ?_⟩
    · rw [after_bind_error h]
      exact hm.clean
    · rw [after_bind_error h]
      exact hm.moves
    · rw [after_bind_error h]
      exact hm.calls
    · rw [outcome_bind_error h] at hb
      cases hb
    · obtain ⟨hsame, hafter⟩ := hm.blind d hd
      rw [outcome_bind_error h, after_bind_error h, outcome_bind_error (hsame.trans h),
        after_bind_error (hsame.trans h)]
      exact ⟨rfl, hafter⟩
  | ok a =>
    have hcalls : l ++ followed m c k = l ++ k a (after m c) := by rw [followed, h]
    have hrest := hf a (after m c) hm.clean hm.moves (hm.result a h)
    rw [hcalls]
    refine ⟨?_, ?_, ?_, fun b hb => ?_, fun d hd => ?_⟩
    · rw [after_bind_ok h]
      exact hrest.clean
    · rw [after_bind_ok h]
      exact hm.moves.trans hrest.moves
    · rw [after_bind_ok h]
      exact hm.calls.append hrest.calls
    · rw [outcome_bind_ok h] at hb
      rw [after_bind_ok h]
      exact hrest.result b hb
    · obtain ⟨hsame, hafter⟩ := hm.blind d hd
      rw [outcome_bind_ok h, after_bind_ok h, outcome_bind_ok (hsame.trans h),
        after_bind_ok (hsame.trans h)]
      exact hrest.blind _ hafter

/-- A call on its own. -/
theorem Safe.call {x : Call} {Q : Unifier → x.Result → Prop} (h : Safe x.action c l Q)
    (hc : c.Clean) (hx : x.Given c) : Safe x.action c [(x, c)] Q :=
  ⟨h.clean, h.moves, .cons hc hx (.nil _), h.result, h.blind⟩

/-- A call and what follows it. -/
theorem Safe.next (x : Call) {Q : Unifier → x.Result → Prop} {f : x.Result → Checking β}
    {k : x.Result → Checker → List (Call × Checker)} (h : Safe x.action c l Q) (hc : c.Clean)
    (hx : x.Given c) (hf : ∀ a c', c'.Clean → c.unifier.Moves c'.unifier → Q c'.unifier a →
      Safe (f a) c' (k a c') R) :
    Safe (x.action >>= f) c (x.next c k) R :=
  (h.call hc hx).bind hf

/-- An action after which no more calls are made. -/
theorem Safe.before (hm : Safe m c l Q) (hf : ∀ a c', c'.Clean → c.unifier.Moves c'.unifier →
    Q c'.unifier a → Safe (f a) c' [] R) :
    Safe (m >>= f) c l R := by
  have hbind := hm.bind (k := fun _ _ => []) hf
  have hnone : followed m c (fun _ _ => ([] : List (Call × Checker))) = [] := by
    unfold followed
    split <;> rfl
  rwa [hnone, List.append_nil] at hbind

/-- An action before which no calls are made. -/
theorem Safe.andThen (hm : Safe m c [] Q)
    (hf : ∀ a c', c'.Clean → c.unifier.Moves c'.unifier → Q c'.unifier a →
      Safe (f a) c' (k a c') R) :
    Safe (m >>= f) c (followed m c k) R := hm.bind hf

/-- A call after which no other one is made. -/
theorem Safe.last (x : Call) {Q : Unifier → x.Result → Prop} {f : x.Result → Checking β}
    (h : Safe x.action c l Q) (hc : c.Clean) (hx : x.Given c)
    (hf : ∀ a c', c'.Clean → c.unifier.Moves c'.unifier → Q c'.unifier a → Safe (f a) c' [] R) :
    Safe (x.action >>= f) c [(x, c)] R := (h.call hc hx).before hf

theorem safe_pure {a : α} (hc : c.Clean) (h : Q c.unifier a) :
    Safe (pure a : Checking α) c [] Q where
  clean := hc
  moves := .refl _
  calls := .nil _
  result b hb := by
    cases hb
    exact h
  blind d hd := ⟨rfl, hd⟩

theorem safe_failWith (hc : c.Clean) (e : TypeError) : Safe (failWith e : Checking α) c [] Q where
  clean := hc
  moves := .refl _
  calls := .nil _
  result b hb := by cases hb
  blind d hd := ⟨rfl, hd⟩

theorem safe_fail (hc : c.Clean) (loc : Location) (cause : TypeCause) :
    Safe (fail loc cause : Checking α) c [] Q := safe_failWith hc _

theorem Safe.inContext (h : Safe m c l Q) (label : String) : Safe (inContext label m) c l Q := by
  refine ⟨?_, ?_, ?_, fun a ha => ?_, fun d hd => ?_⟩
  · rw [after_inContext]
    exact h.clean
  · rw [after_inContext]
    exact h.moves
  · rw [after_inContext]
    exact h.calls
  · rw [outcome_inContext] at ha
    rw [after_inContext]
    cases ho : outcome m c with
    | error e =>
      rw [ho] at ha
      cases ha
    | ok b =>
      rw [ho] at ha
      cases ha
      exact h.result a ho
  · obtain ⟨hsame, hrel⟩ := h.blind d hd
    rw [outcome_inContext, outcome_inContext, after_inContext, after_inContext, hsame]
    exact ⟨rfl, hrel⟩

theorem Safe.underPath {path : String} (h : Safe m { c with scopePath := path } l Q) :
    Safe (underPath path m) c l Q := by
  have hrun : ∀ d : Checker, (ExceptT.run (Checking.underPath path m)).run d =
      (outcome m { d with scopePath := path }, { after m { d with scopePath := path } with
        scopePath := d.scopePath }) := fun d =>
    run_tryFinally (f := fun c => { c with scopePath := d.scopePath })
      (run_eq m { d with scopePath := path })
  have hafter : ∀ d : Checker, after (Checking.underPath path m) d =
      { after m { d with scopePath := path } with scopePath := d.scopePath } :=
    fun d => by rw [after, hrun]
  have houtcome : ∀ d : Checker, outcome (Checking.underPath path m) d =
    outcome m { d with scopePath := path } := fun d => by
    rw [outcome, hrun]
  refine ⟨?_, ?_, ?_, fun a ha => ?_, fun d hd => ?_⟩
  · rw [hafter]
    exact h.clean.under _
  · rw [hafter]
    exact h.moves
  · rw [hafter]
    exact h.calls
  · rw [houtcome] at ha
    rw [hafter]
    exact h.result a ha
  · obtain ⟨G, hG, rfl⟩ := hd
    obtain ⟨hsame, G', hG', hrel⟩ := h.blind { c with globals := G, scopePath := path } ⟨G, hG, rfl⟩
    rw [houtcome, houtcome, hafter, hafter]
    refine ⟨hsame, G', hG', ?_⟩
    rw [hrel]

/-! ### Steps -/

/-- An action that always succeeds, and does not look at the table of names. -/
theorem safe_of_run {g : Checker → α × Checker}
    (hrun : ∀ d, (ExceptT.run m).run d = (.ok (g d).1, (g d).2))
    (hg : ∀ G, g { c with globals := G } = ((g c).1, { (g c).2 with globals := G }))
    (hglobals : (g c).2.globals = c.globals) (hclean : (g c).2.Clean)
    (hmoves : c.unifier.Moves (g c).2.unifier) (hcalls : Orderly c.unifier l (g c).2.unifier)
    (hQ : Q (g c).2.unifier (g c).1) : Safe m c l Q := by
  have hafter : ∀ d, after m d = (g d).2 := fun d => congrArg Prod.snd (hrun d)
  have houtcome : ∀ d, outcome m d = .ok (g d).1 := fun d => congrArg Prod.fst (hrun d)
  refine ⟨?_, ?_, ?_, fun a ha => ?_, fun d hd => ?_⟩
  · rw [hafter]
    exact hclean
  · rw [hafter]
    exact hmoves
  · rw [hafter]
    exact hcalls
  · rw [houtcome] at ha
    rw [hafter]
    cases ha
    exact hQ
  · obtain ⟨G, hG, rfl⟩ := hd
    rw [houtcome, houtcome, hafter, hafter, hg]
    exact ⟨rfl, G, hglobals ▸ hG, rfl⟩

/-- A checker whose unifier moved on. -/
theorem Checker.Clean.set (hc : c.Clean) {u : Unifier} (hmoves : c.unifier.Moves u)
    (hu : u.subst.Over u.Made) : ({ c with unifier := u } : Checker).Clean where
  bindings := hu
  types e he := hmoves.over_made (hc.types e he)
  funcs e he := hmoves.over_made (hc.funcs e he)
  globals := hc.globals

/-- A step of the unifier. -/
theorem safe_of_move {x : Call} {Q : Unifier → x.Result → Prop} {g : Unifier → x.Result × Unifier}
    (hrun : ∀ d, (ExceptT.run x.action).run d = (.ok (g d.unifier).1,
      { d with unifier := (g d.unifier).2 })) (hc : c.Clean)
    (hx : x.Given c) (hmoves : c.unifier.Moves (g c.unifier).2)
    (hu : (g c.unifier).2.subst.Over (g c.unifier).2.Made)
    (hQ : Q (g c.unifier).2 (g c.unifier).1) : Safe x.action c [(x, c)] Q := by
  have hafter : (after x.action c).unifier = (g c.unifier).2 :=
    congrArg (fun r => r.2.unifier) (hrun c)
  have hcalls : Orderly c.unifier [(x, c)] (g c.unifier).2 := .cons hc hx (hafter ▸ .nil _)
  exact safe_of_run (g := fun d => ((g d.unifier).1, { d with unifier := (g d.unifier).2 })) hrun
    (fun _ => rfl) rfl (hc.set hmoves hu) hmoves hcalls hQ

theorem safe_fresh (hc : c.Clean) : Safe fresh c [(.fresh, c)] fun u t => t.Over u.Made := by
  have hmoves := c.unifier.moves_fresh
  exact safe_of_move (x := .fresh) (g := fun u => (.var u.fresh.1, u.fresh.2)) (fun _ => rfl) hc
    (.of_nil rfl rfl trivial) hmoves (hc.bindings.mono fun _ => hmoves.made_of)
    (Ty.over_var.2 c.unifier.made_fresh)

theorem safe_unify {a b : Ty} (hc : c.Clean) (ha : a.Over c.unifier.Made)
    (hb : b.Over c.unifier.Made) : Safe (unify a b) c [(.unify a b, c)] fun _ _ => True := by
  have hmoves := Unifying.moves_unify a b c.unifier
  have hbindings := (Unifying.within_unify hc.bindings ha hb).bindings
  exact safe_of_move (x := .unify a b) (g := fun u => Unifying.exec (Unifying.unify a b) u)
    (fun _ => rfl) hc (.of_pair rfl rfl ha hb trivial) hmoves
    (hbindings.mono fun _ => hmoves.made_of) trivial

theorem freshFor_subst (ps : List String) (u : Unifier) : (freshFor ps u).2.subst = u.subst := by
  induction ps generalizing u with
  | nil => rfl
  | cons p ps ih => exact ih u.fresh.2

theorem safe_instantiate {k : Constructor} (hc : c.Clean) (hk : k.Tidy) :
    Safe (instantiate k) c [(.instantiate k, c)] fun u t => t.Over u.Made := by
  have hmoves : c.unifier.Moves (k.instantiate c.unifier).2 := c.unifier.moves_freshFor k.params
  refine safe_of_move (x := .instantiate k) (g := k.instantiate) (fun _ => rfl) hc
    (.of_nil rfl rfl hk) hmoves ?_ ?_
  · have hsubst : (k.instantiate c.unifier).2.subst = c.unifier.subst :=
      freshFor_subst k.params c.unifier
    rw [hsubst]
    exact hc.bindings.mono fun _ => hmoves.made_of
  · exact hk.replace (length_freshFor k.params c.unifier) (c.unifier.made_freshFor k.params)

theorem safe_record {i : Nat} {t : Ty} (hc : c.Clean) (ht : t.Over c.unifier.Made) :
    Safe (record i t) c [] fun _ _ => True :=
  safe_of_run (g := fun d => ((), { d with types := (i, t) :: d.types })) (fun _ => rfl)
    (fun _ => rfl) rfl ⟨hc.bindings, List.forall_mem_cons.2 ⟨ht, hc.types⟩, hc.funcs, hc.globals⟩
    (.refl _) (.nil _) trivial

/-- Following the bindings. -/
theorem Safe.applied {t : Ty} {f : Ty → Checking β} {l : List (Call × Checker)}
    (h : Safe (f (c.unifier.apply t)) c l R) : Safe (applied t >>= f) c l R where
  clean := h.clean
  moves := h.moves
  calls := h.calls
  result := h.result
  blind d hd := by
    obtain ⟨G, hG, rfl⟩ := hd
    exact h.blind _ ⟨G, hG, rfl⟩

theorem Safe.mapM_applied {t? : Option Ty} {f : Option Ty → Checking β}
    (h : Safe (f (t?.map c.unifier.apply)) c l R) :
    Safe (t?.mapM Checking.applied >>= f) c l R := by
  cases t? with
  | none => exact h
  | some t => exact Safe.applied (f := fun u => f (some u)) h

/-- Looking a name up.  What follows does not see what type parameters are called. -/
theorem Safe.find? {locals : List Frame} {n : String} {f : Option Symbol → Checking β}
    (h : Safe (f (c.find? locals n)) c l R)
    (hsame : ∀ s s', c.find? locals n = some s → s.Respelled s' → f (some s') = f (some s)) :
    Safe (Checking.find? locals n >>= f) c l R := by
  have hgives : ∀ d : Checker, Gives (Checking.find? locals n) d (d.find? locals n) d :=
    fun d => gives_find?.2 ⟨rfl, rfl⟩
  have houtcome : ∀ d : Checker, outcome (Checking.find? locals n) d = .ok (d.find? locals n) :=
    fun d => congrArg Prod.fst (hgives d)
  have hafter : ∀ d : Checker, after (Checking.find? locals n) d = d :=
    fun d => congrArg Prod.snd (hgives d)
  have hbind : ∀ d : Checker,
    outcome (Checking.find? locals n >>= f) d = outcome (f (d.find? locals n)) d ∧
      after (Checking.find? locals n >>= f) d = after (f (d.find? locals n)) d := fun d => by
    rw [outcome_bind_ok (houtcome d), after_bind_ok (houtcome d), hafter]
    exact ⟨rfl, rfl⟩
  refine ⟨?_, ?_, ?_, fun b hb => ?_, fun d hd => ?_⟩
  · rw [(hbind c).2]
    exact h.clean
  · rw [(hbind c).2]
    exact h.moves
  · rw [(hbind c).2]
    exact h.calls
  · rw [(hbind c).1] at hb
    rw [(hbind c).2]
    exact h.result b hb
  · have hsymbol : f (d.find? locals n) = f (c.find? locals n) :=
      Symbol.apply_eq_of_rel (hd.find? locals n) hsame
    rw [(hbind d).1, (hbind d).2, (hbind c).1, (hbind c).2, hsymbol]
    exact h.blind d hd

/-- A change of the state that neither touches the unifier nor looks at the table of names. -/
theorem Safe.modify {g : Checker → Checker} (h : Safe m (g c) l Q)
    (hunifier : (g c).unifier = c.unifier)
    (hg : ∀ G, g { c with globals := G } = { g c with globals := G })
    (hglobals : (g c).globals = c.globals) : Safe (modify g >>= fun _ => m) c l Q where
  clean := h.clean
  moves := hunifier ▸ h.moves
  calls := hunifier ▸ h.calls
  result := h.result
  blind d hd := by
    obtain ⟨G, hG, rfl⟩ := hd
    exact h.blind (g { c with globals := G }) ⟨G, hglobals.symm ▸ hG, hg G⟩

/-- A look at the state, but not at the table of names. -/
theorem Safe.read {γ : Type} {g : Checker → γ} {f : γ → Checking β} (h : Safe (f (g c)) c l R)
    (hg : ∀ G, g { c with globals := G } = g c) : Safe (do f (g (← get))) c l R where
  clean := h.clean
  moves := h.moves
  calls := h.calls
  result := h.result
  blind d hd := by
    obtain ⟨G, hG, rfl⟩ := hd
    have hsame : f (g { c with globals := G }) = f (g c) := congrArg f (hg G)
    show outcome (f (g { c with globals := G })) _ = _ ∧
      (after (f (g c)) c).Respelled (after (f (g { c with globals := G })) _)
    rw [hsame]
    exact h.blind _ ⟨G, hG, rfl⟩

/-- Looking a global name up. -/
theorem Safe.global {n : String} {f : Option Symbol → Checking β}
    (h : Safe (f (c.globals.find? n)) c l R)
    (hsame : ∀ s s', c.globals.find? n = some s → s.Respelled s' → f (some s') = f (some s)) :
    Safe (do f ((← get).globals.find? n)) c l R where
  clean := h.clean
  moves := h.moves
  calls := h.calls
  result := h.result
  blind d hd := by
    have hsymbol : f (d.globals.find? n) = f (c.globals.find? n) := by
      obtain ⟨G, hG, rfl⟩ := hd
      exact Symbol.apply_eq_of_rel (hG.find? n) hsame
    show outcome (f (d.globals.find? n)) d = _ ∧
      (after (f (c.globals.find? n)) c).Respelled (after (f (d.globals.find? n)) d)
    rw [hsymbol]
    exact h.blind d hd

theorem safe_insertGlobal {n : String} {s : Symbol} (hc : c.Clean) (hs : s.Tidy) :
    Safe (insertGlobal n s) c [] fun _ _ => True where
  clean := ⟨hc.bindings, hc.types, hc.funcs, hc.globals.insert hs⟩
  moves := .refl _
  calls := .nil _
  result _ _ := trivial
  blind d hd := by
    obtain ⟨G, hG, rfl⟩ := hd
    exact ⟨rfl, G.insert n s, hG.insert n s, rfl⟩

theorem safe_declareName {n : String} {s : Symbol} {loc : Location} (hc : c.Clean) (hs : s.Tidy) :
    Safe (declareName n s loc) c [] fun _ _ => True := by
  refine Safe.global (n := n)
    (f := fun found => if found.isSome then Checking.fail loc (.duplicate n) else insertGlobal n s)
    ?_ ?_
  · split
    · exact safe_fail hc _ _
    · exact safe_insertGlobal hc hs
  · exact fun _ _ _ _ => rfl

end Safe

end FunRiscv
