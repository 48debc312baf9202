import Mathlib
import FunRiscv.Proofs.Pass.Sweeps
import FunRiscv.Proofs.Typing.Coverage
import FunRiscv.Proofs.Typing.Operators

/-!
# The fixpoint of optimization

On ill-typed programs the passes can feed each other without end. The type checker accepts no call
of a float, and this is enough for two sweeps to leave nothing to do.

* `Expr.Accepted.soundCall`: an expression of float form has the type of floats, so no
  call of one is accepted.
* `countedSweeps`: sweeping with the number of sweeps that modified the program;
  `fst_countedSweeps`: otherwise it is sweeping.
* `Level.Remaining`: a program on which so many more sweeps may modify something.
* `optimize_settles`: the theorem about programs that are accepted.
-/

namespace FunRiscv

open Checking

/-! ### Calls of floats -/

theorem sameOperands_float {loc : Location} {op : Operator} {l r t : Ty} {c c' : Checker}
    (hc : c.unifier.Coherent) (h : Gives (sameOperands loc op l r Ty.numeric) c t c')
    (hfloat : l = .f24 ∨ r = .f24) : t = .f24 := by
  obtain ⟨⟨u, hu, rfl⟩, hpassed, hresult⟩ := unified_of_sameOperands h
  rw [Bool.or_eq_true] at hpassed
  have hgrows := Unifying.grows_unify l r c.unifier hc
  rw [hu] at hgrows
  have hagree : (u.apply l).Agrees (u.apply r) := by
    have := Unifying.agrees_of_unify hc hu _ hgrows.coherent.triangular.respects_apply
    rwa [← Subst.apply_eq_bind, ← Subst.apply_eq_bind] at this
  rcases hresult with ⟨rfl, hany⟩ | ⟨hany, rfl⟩
  · rcases hfloat with rfl | rfl
    · rfl
    · -- The left operand agrees with the type of floats, and is neither unknown nor dynamic.
      rcases hagree.eq_or_any hpassed hany with heq | heq
      · exact heq.symm
      · cases heq
  · rcases hfloat with rfl | rfl
    · cases hany
    · rfl

theorem power_float {loc : Location} {op : Operator} (hkind : op.kind = .power) {l r t : Ty}
    {c c' : Checker} (h : Gives (operationType loc op l r) c t c') : t = .f24 := by
  rw [operationType, hkind] at h
  obtain ⟨c₁, -, h⟩ := (gives_unify_bind fun _ _ _ _ => not_gives_incompatible).1 h
  obtain ⟨c₂, -, h⟩ := (gives_unify_bind fun _ _ _ _ => not_gives_incompatible).1 h
  exact (gives_pure.1 h).1

/-- An expression of float form can only have the type of floats. -/
theorem infer_floatForm {e : Expr} {locals : List Frame} {i : Nat} {expected : Option Ty}
    {c c' : Checker} {t : Ty} (hform : e.FloatForm) (hc : c.unifier.Coherent)
    (h : Gives (infer locals i expected e) c t c') : t = .f24 := by
  induction e using Expr.children_induction generalizing locals i expected c c' t with
  | step e ih =>
    cases e with
    | float loc v =>
      rw [infer, gives_bind] at h
      obtain ⟨_, c₁, -, h⟩ := h
      exact (gives_pure.1 h).1
    | binOp loc op l r =>
      rw [infer, gives_bind] at h
      obtain ⟨a, c₁, ha, h⟩ := h
      rw [gives_bind] at h
      obtain ⟨b, c₂, hb, h⟩ := h
      rw [gives_bind] at h
      obtain ⟨t', c₃, ht, h⟩ := h
      rw [gives_bind] at h
      obtain ⟨_, c₄, -, h⟩ := h
      obtain ⟨rfl, -⟩ := gives_pure.1 h
      have hc₁ := (covers l locals (i + 1) none hc ha).1
      have hc₂ := (covers r locals _ none hc₁ hb).1
      rcases hform with hkind | ⟨hkind, hform⟩
      · exact power_float hkind ht
      · rw [operationType, hkind] at ht
        refine sameOperands_float hc₂ ht (hform.imp (fun hl => ?_) fun hr => ?_)
        · exact ih l (by simp [Expr.children]) hl hc ha
        · exact ih r (by simp [Expr.children]) hr hc₁ hb
    | _ => exact hform.elim

/-- No accepted expression calls a float. -/
theorem Expr.Accepted.soundCall {e : Expr} (h : e.Accepted) : e.SoundCall := by
  obtain ⟨locals, i, expected, c, t, c', hc, h⟩ := h
  cases e with
  | call loc f args named =>
    cases named with
    | cons => trivial
    | nil =>
      intro hargs hform
      rw [infer, gives_bind] at h
      obtain ⟨callee, c₁, hcallee, h⟩ := h
      obtain rfl := infer_floatForm hform hc hcallee
      dsimp only at h
      rw [gives_bind] at h
      obtain ⟨fields, c₂, -, h⟩ := h
      cases args with
      | nil => exact hargs rfl
      | cons a args =>
        rw [namedArguments, placeArguments, if_pos List.isEmpty_nil] at h
        dsimp only at h
        rw [arguments, applyArguments, gives_bind] at h
        obtain ⟨_, c₃, h, -⟩ := h
        obtain ⟨u, c₄, hu, h⟩ := gives_bind.1 h
        obtain ⟨rfl, rfl⟩ := gives_applied.1 hu
        exact not_gives_fail h
  | _ => trivial

/-- Calls are sound in every function of an accepted program. -/
theorem Program.soundCalls_of_check {p : Program} {o : CheckOptions} {c : Checker}
    (h : p.check o = (.ok (), c)) : p.Bodies (StmtsAll Expr.SoundCall) :=
  fun f hf => stmtsAll_of_nodes fun x hx => (Program.accepted_of_check h f hf x hx).soundCall

/-! ### Counted sweeps -/

section Counted

variable {σ : Type}

/-- Sweeps passes until a sweep changes nothing, and counts the sweeps that modified the program. -/
def countedSweeps (passes : List (Pass σ)) : (bound : Nat) → Progress → PassM σ (Progress × Nat)
  | 0, s => return (s, 0)
  | bound + 1, s => do
    let s ← sweep passes { s with modified := false }
    if s.modified then
      let (q, n) ← countedSweeps passes bound s
      return (q, n + 1)
    else return (s, 0)

/-- Forgetting the number is sweeping. -/
theorem fst_countedSweeps (passes : List (Pass σ)) (bound : Nat) (s : Progress) :
    Prod.fst <$> countedSweeps passes bound s = sweeps passes bound s := by
  induction bound generalizing s with
  | zero => rfl
  | succ bound ih =>
    rw [countedSweeps, sweeps, map_bind]
    refine bind_congr fun s' => ?_
    split
    · rw [← ih, map_bind]
      simp only [map_pure]
      rfl
    · rw [map_pure]

end Counted

/-! ### Clean sweeps -/

section Clean

open StandardPass

variable {a : Progress × Int64} {l : Level}

/-- A sweep that modified nothing left the progress as it was, and no pass had anything to do. -/
theorem clean_sweep (ks : List StandardPass) (h : (ks.foldl advance a).1.modified = false) :
    (ks.foldl advance a).1 = a.1 ∧ ∀ k ∈ ks, a.1.program.Bodies k.Settled := by
  induction ks generalizing a with
  | nil => exact ⟨rfl, by simp⟩
  | cons k ks ih =>
    obtain ⟨hsame, hsettled⟩ := ih h
    rw [List.foldl_cons, hsame] at h ⊢
    have hunchanged : (k.apply a.1.program a.2).1.changed = false := by
      by_contra hchanged
      rw [Bool.not_eq_false] at hchanged
      simp [advance, Progress.after, hchanged] at h
    have hadvance : (k.advance a).1 = a.1 := by simp [advance, Progress.after, hunchanged]
    rw [hadvance] at hsettled
    exact ⟨hadvance, List.forall_mem_cons.2 ⟨settled_of_unchanged hunchanged, hsettled⟩⟩

/-- A program on which so many more sweeps of a level may modify something. -/
def Level.Remaining (l : Level) (n : Nat) (p : Program) : Prop :=
  match n with
  | 0 => Calm l.passes p
  | 1 => Calm l.passes.tail p
  | _ => Calm [] p

theorem Level.Remaining.sweep {n : Nat} (h : l.Remaining (n + 1) a.1.program) (hl : l ≠ .none) :
    l.Remaining n (l.passes.foldl advance a).1.program := by
  match n with
  | 0 => exact Calm.second h hl
  | 1 => exact Calm.first h hl
  | n + 2 => exact (Calm.first h hl).mono (by simp)

/-- Counted sweeps of a program on which so many more may modify something: no more do, and if the
bound is greater, they end with a sweep that modified nothing. -/
theorem run_countedSweeps (hl : l ≠ .none) (bound : Nat) :
    ∀ (n : Nat) (s : Progress) (last : Int64), l.Remaining n s.program →
      ∃ q m last', (ExceptT.run (countedSweeps l.passList bound s)).run last = (.ok (q, m), last') ∧
        m ≤ n ∧ (n < bound → q.modified = false ∧ ∀ k ∈ l.passes, q.program.Bodies k.Settled) := by
  induction bound with
  | zero => exact fun n s last _ =>
    ⟨s, 0, last, rfl, Nat.zero_le _, fun h => absurd h (Nat.not_lt_zero _)⟩
  | succ bound ih =>
    intro n s last h
    have hsweep : (ExceptT.run (sweep l.passList { s with modified := false })).run last = _ :=
      sweep_standard l.passes { s with modified := false } last
    generalize hs' : l.passes.foldl advance ({ s with modified := false }, last) = s' at hsweep
    rw [countedSweeps, run_bind_of_ok hsweep]
    cases hmodified : s'.1.modified with
    | false =>
      obtain ⟨hsame, hsettled⟩ := clean_sweep l.passes (hs' ▸ hmodified)
      rw [hs'] at hsame
      refine ⟨s'.1, 0, s'.2, rfl, Nat.zero_le _, fun _ => ⟨hmodified, ?_⟩⟩
      rw [hsame]
      exact hsettled
    | true =>
      cases n with
      | zero =>
        have hstill := Calm.third (a := ({ s with modified := false }, last)) h l.passes fun _ => id
        rw [hs'] at hstill
        rw [hstill] at hmodified
        cases hmodified
      | succ n =>
        have hnext : l.Remaining n s'.1.program :=
          hs' ▸ Level.Remaining.sweep (a := ({ s with modified := false }, last)) h hl
        obtain ⟨q, m, last', hrun, hm, hclean⟩ := ih n s'.1 s'.2 hnext
        refine ⟨q, m + 1, last', ?_, Nat.succ_le_succ hm,
          fun hbound => hclean (Nat.lt_of_succ_lt_succ hbound)⟩
        rw [if_pos rfl, run_bind_of_ok hrun]
        rfl

/-- **Optimization reaches a fixpoint.** On a program that the type checker accepts, whatever it was
told, at most two sweeps of a level modify the program. So if more are allowed, optimization ends
with a sweep that modified nothing, and each of its passes run again on the result keeps it and
claims no modification. -/
theorem optimize_settles (p : Program) (o : CheckOptions) (c : Checker)
    (h : p.check o = (.ok (), c)) (l : Level) (hl : l ≠ .none) (bound : Nat) (last : Int64) :
    ∃ q n last',
      (ExceptT.run (countedSweeps l.passList bound { program := p })).run last =
        (.ok (q, n), last') ∧
      (ExceptT.run (optimize l.passList bound p)).run last = (.ok q, last') ∧ n ≤ 2 ∧
      (2 < bound → q.modified = false ∧ ∀ k ∈ l.passList, ∀ last, ∃ last',
        (ExceptT.run (k.run q.program)).run last = (.ok ⟨.kept, false⟩, last')) := by
  have hstage : l.Remaining 2 p := ⟨Program.soundCalls_of_check h, by simp⟩
  obtain ⟨q, n, last', hrun, hn, hclean⟩ :=
    run_countedSweeps hl bound 2 { program := p } last hstage
  refine ⟨q, n, last', hrun, ?_, hn, fun hbound => ⟨(hclean hbound).1, fun k hk last => ?_⟩⟩
  · have hpasses : l.passList.isEmpty = false := by
      cases l with
      | none => exact absurd rfl hl
      | standard | aggressive => rfl
    rw [optimize, if_neg (by simp [hpasses]), ← fst_countedSweeps, ExceptT.run_map,
      StateT.run_map, hrun]
    rfl
  · obtain ⟨j, hj, rfl⟩ := List.mem_map.1 hk
    have hunchanged := unchanged_of_settled ((hclean hbound).2 j hj) last
    refine ⟨(j.apply q.program last).2, ?_⟩
    refine (run_pass j q.program last).trans ?_
    simp [Revised.result, hunchanged]

/-- A function `f` on floats, and a function that gives `x ↦ f x + 0`. Once the zero is folded away,
this is `f` itself. -/
def addsZero : Program := ⟨[], [
  .func {
    loc := {}, name := "f", params := [⟨{}, "x", some (.name {} "f24" [])⟩],
    ret := some (.name {} "f24" []), checked := true
    body := ⟨{}, [.ret {} (some (.var {} "x"))]⟩ },
  .func {
    loc := {}, name := "main", params := [], ret := none, checked := true
    body := ⟨{}, [.ret {} (some (.lambda {} [⟨{}, "x", none⟩]
      (.binOp {} .add (.call {} (.var {} "f") [.var {} "x"] []) (.float {} 0))))]⟩ }]⟩

theorem optimize_settles_addsZero :
    ∃ c, addsZero.check {} = (.ok (), c) ∧ Level.standard ≠ .none ∧ 2 < defaultSweeps ∧
      ∃ q last, (ExceptT.run (optimize Level.standard.passList defaultSweeps addsZero)).run 0 =
        (.ok q, last) ∧ q.modified = false := by
  have haccepted : addsZero.check {} = (.ok (), (addsZero.check {}).2) :=
    check_eq_of_isOk (by decide +kernel)
  have hbound : 2 < defaultSweeps := by decide
  obtain ⟨q, n, last, -, hrun, -, hclean⟩ :=
    optimize_settles addsZero {} _ haccepted .standard (by decide) defaultSweeps 0
  exact ⟨_, haccepted, by decide, hbound, q, last, hrun, (hclean hbound).1⟩

example : ((ExceptT.run (countedSweeps Level.standard.passList defaultSweeps
    { program := addsZero })).run 0).1.toOption.map (·.2) =
    some 2 := by decide +kernel

end Clean

end FunRiscv
