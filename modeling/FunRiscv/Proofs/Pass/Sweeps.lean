import Mathlib
import FunRiscv.Pass.Optimize
import FunRiscv.Proofs.Pass.Settling
import FunRiscv.Proofs.Pass.Sharing

/-!
# Sweeps of the standard passes

* `StandardPass.Turns`: what a pass makes of a function body. `StandardPass.Settled`: a body
  that it leaves alone.
* `StandardPass.Turns.keeps`: what is settled for one pass stays so under others,
  where calls are sound.
* `StandardPass.idempotent`: the theorem about passes run again.
* `sweep_standard`: a sweep of standard passes as a function of the program and the number
  of the last temporary.
* `optimize_keeps`: optimization keeps what every pass keeps.
* `Calm`: a program with sound calls that some passes leave alone. `Calm.third`: after two sweeps
  all passes of a level do.
-/

namespace FunRiscv

/-! ### Bodies -/

/-- A property holds of the body of every function of a program. -/
def Program.Bodies (P : List Stmt → Prop) (p : Program) : Prop :=
  ∀ f ∈ p.functions, P f.func.body.stmts

theorem mapBodies_revised (g : List Stmt → Revised (List Stmt)) (fs : List NamedFunction) :
    mapBodies g fs = ⟨fs.map fun f => f.withBody (g f.func.body.stmts).value,
      fs.any fun f => (g f.func.body.stmts).changed⟩ := by
  induction fs with
  | nil => rfl
  | cons f fs ih =>
    rw [mapBodies, List.mapM_cons, ← mapBodies, ih]
    simp [bind, pure, Functor.map]

/-- Revising the bodies of a program revises those of its functions. -/
theorem Program.revised_bodies (g : List Stmt → Revised (List Stmt)) (p : Program) :
    (p.mapFunctions (mapBody g)).value.functions =
      (p.functions.map fun f => f.withBody (g f.func.body.stmts).value) ∧
      (p.mapFunctions (mapBody g)).changed =
        p.functions.any fun f => (g f.func.body.stmts).changed := by
  have h := (p.functions_mapFunctions g).trans (mapBodies_revised g p.functions)
  refine ⟨congrArg Revised.value h, ?_⟩
  simpa [Functor.map, bind, pure] using congrArg Revised.changed h

/-! ### Passes -/

namespace StandardPass

/-- What a pass makes of a function body. -/
def Turns (k : StandardPass) (ss ss' : List Stmt) : Prop :=
  match k with
  | eta => ss' = (reviseStmts etaRule ss).value
  | float => ss' = (reviseStmts floatRule ss).value
  | unreachable => ss' = (trimStmts ss).value
  | linearize => ∃ s s', Hoisting.SettlesStmts (Hoisting.stmts ss) ss s ss' s'

/-- A function body that a pass leaves alone. -/
def Settled (k : StandardPass) (ss : List Stmt) : Prop :=
  match k with
  | eta => StmtsAll (fun x => etaRule x = none) ss
  | float => StmtsAll (fun x => floatRule x = none) ss
  | unreachable => StmtsTight ss
  | linearize => ∀ t ∈ ss, Hoisting.Still t

/-- What is settled for the second pass stays so under the first. -/
def keeps : StandardPass → StandardPass → Bool
  | eta, float | eta, unreachable | unreachable, eta | unreachable, float => true
  | linearize, eta | linearize, float | linearize, unreachable => true
  | _, _ => false

variable {k j : StandardPass} {ss ss' : List Stmt}

/-- What a pass made of a body it leaves alone. -/
theorem Turns.settled (h : k.Turns ss ss') : k.Settled ss' := by
  cases k with
  | eta =>
    obtain rfl : ss' = _ := h
    exact stmtsAll_revise fun x _ => x.normal_etaReduce
  | float =>
    obtain rfl : ss' = _ := h
    exact stmtsAll_revise fun x _ => x.normal_foldFloats
  | unreachable =>
    obtain rfl : ss' = _ := h
    exact stmtsTight_trimStmts ss
  | linearize =>
    obtain ⟨s, s', h⟩ := h
    exact h.still

/-- Calls stay sound. -/
theorem Turns.sound (h : k.Turns ss ss') (hss : StmtsAll Expr.SoundCall ss) :
    StmtsAll Expr.SoundCall ss' := by
  cases k with
  | eta =>
    obtain rfl : ss' = _ := h
    exact stmtsAll_revise fun x hx => (x.etaReduce_keeps (hss x hx)).1
  | float =>
    obtain rfl : ss' = _ := h
    exact stmtsAll_revise fun x hx => x.foldFloats_keeps (hss x hx)
  | unreachable =>
    obtain rfl : ss' = _ := h
    exact hss.trim
  | linearize =>
    obtain ⟨s, s', h⟩ := h
    exact h.keeps _ Hoisting.portable_soundCall hss

/-- What is settled for another pass stays so, if the pass keeps it. -/
theorem Turns.keeps (h : k.Turns ss ss') (hkeeps : k.keeps j = true)
    (hsound : StmtsAll Expr.SoundCall ss) (hj : j.Settled ss) : j.Settled ss' := by
  cases k with
  | eta =>
    obtain rfl : ss' = _ := h
    cases j with
    | float => exact stmtsAll_revise fun x hx => (x.etaReduce_keeps (hsound x hx)).2 (hj x hx)
    | unreachable => exact StmtsTight.revise etaRule hj
    | eta | linearize => cases hkeeps
  | float => cases hkeeps
  | unreachable =>
    obtain rfl : ss' = _ := h
    cases j with
    | eta | float => exact StmtsAll.trim hj
    | unreachable | linearize => cases hkeeps
  | linearize =>
    obtain ⟨s, s', h⟩ := h
    cases j with
    | eta => exact h.keeps _ Hoisting.portable_etaRule hj
    | float => exact h.keeps _ Hoisting.portable_floatRule hj
    | unreachable => exact h.tight hj
    | linearize => cases hkeeps

/-- A pass turns every body, and gives the same functions unless it claims a modification. -/
structure Result (k : StandardPass) (p : Program) (r : Revised Program) : Prop where
  turns : List.Forall₂ (fun f g : NamedFunction => k.Turns f.func.body.stmts g.func.body.stmts)
    p.functions r.value.functions
  same : r.changed = false → r.value.functions = p.functions

/-- A pass leaves the bodies that it gave alone. -/
theorem Result.settled {p : Program} {r : Revised Program} (h : k.Result p r) :
    r.value.Bodies k.Settled := by
  intro g hg
  obtain ⟨hlen, hturns⟩ := List.forall₂_iff_get.1 h.turns
  obtain ⟨i, hi, rfl⟩ := List.mem_iff_getElem.1 hg
  exact (hturns i (hlen ▸ hi) hi).settled

theorem result_of_revised {g : List Stmt → Revised (List Stmt)}
    (hturns : ∀ ss, k.Turns ss (g ss).value)
    (hsame : ∀ ss, (g ss).changed = false → (g ss).value = ss) (p : Program) :
    k.Result p (p.mapFunctions (mapBody g)) := by
  obtain ⟨hvalue, hchanged⟩ := p.revised_bodies g
  constructor
  · rw [hvalue]
    exact List.forall₂_map_right_iff.2 (List.forall₂_same.2 fun f _ => hturns _)
  · intro h
    rw [hchanged, List.any_eq_false] at h
    have hself : ∀ f ∈ p.functions, f.withBody (g f.func.body.stmts).value = f := by
      intro f hf
      rw [hsame _ (by simpa using h f hf)]
      rfl
    rw [hvalue, List.map_congr_left hself, List.map_id']

/-- The bodies that linearization gives. -/
theorem settle_bodies : ∀ (fs : List NamedFunction) (s : Temporaries), ∃ gs s',
    ((mapBodies Hoisting.stmts fs).run s).value = (gs, s') ∧
      List.Forall₂
        (fun f g : NamedFunction => linearize.Turns f.func.body.stmts g.func.body.stmts) fs gs
  | [], s => ⟨[], s, rfl, .nil⟩
  | f :: fs, s => by
    obtain ⟨ss', s₁, hf⟩ := Hoisting.stmts_settle f.func.body.stmts s
    obtain ⟨gs, s', hrun, hturns⟩ := settle_bodies fs s₁
    refine ⟨f.withBody ss' :: gs, s', ?_, .cons ⟨s, s₁, hf⟩ hturns⟩
    rw [Hoisting.mapBodies_cons, Hoisting.value_bind hf.run, Hoisting.value_bind hrun]
    rfl

theorem result_linearize (p : Program) (last : Int64) :
    linearize.Result p (p.linearize last).1 := by
  obtain ⟨gs, s', hrun, hturns⟩ := settle_bodies p.functions { last := p.lastTemporary last }
  obtain ⟨hfunctions, hchanged⟩ := p.linearized_bodies last
  constructor
  · rw [hfunctions, hrun]
    exact hturns
  · intro h
    rw [hchanged] at h
    rw [hfunctions, Hoisting.keeps_mapBodies p.functions _ h]

/-- What a pass makes of a program. -/
theorem result_apply (k : StandardPass) (p : Program) (last : Int64) :
    k.Result p (k.apply p last).1 := by
  cases k with
  | eta =>
    show eta.Result p (p.revise etaRule)
    rw [p.revise_eq]
    exact result_of_revised (k := eta) (g := reviseStmts etaRule) (fun _ => rfl)
      (reviseStmts_value_of_unchanged etaRule) p
  | float =>
    show float.Result p (p.revise floatRule)
    rw [p.revise_eq]
    exact result_of_revised (k := float) (g := reviseStmts floatRule) (fun _ => rfl)
      (reviseStmts_value_of_unchanged floatRule) p
  | unreachable =>
    exact result_of_revised (k := unreachable) (g := trimStmts) (fun _ => rfl)
      value_trimStmts_of_unchanged p
  | linearize => exact result_linearize p last

theorem mapBodies_of_still {fs : List NamedFunction}
    (h : ∀ f ∈ fs, linearize.Settled f.func.body.stmts) :
    mapBodies Hoisting.stmts fs = pure fs := by
  induction fs with
  | nil => rfl
  | cons f fs ih =>
    rw [List.forall_mem_cons] at h
    rw [Hoisting.mapBodies_cons, Hoisting.stmts_of_still h.1, pure_bind, ih h.2]
    rfl

/-- A pass claims no modification of a program whose bodies it leaves alone. -/
theorem unchanged_of_settled {p : Program} (h : p.Bodies k.Settled) (last : Int64) :
    (k.apply p last).1.changed = false := by
  have hrevised : ∀ g : List Stmt → Revised (List Stmt),
    (∀ ss, k.Settled ss → (g ss).changed = false) →
      (p.mapFunctions (mapBody g)).changed = false := by
    intro g hg
    rw [(p.revised_bodies g).2, List.any_eq_false]
    intro f hf
    rw [hg _ (h f hf)]
    exact Bool.false_ne_true
  cases k with
  | eta =>
    show (p.revise etaRule).changed = false
    rw [p.revise_eq]
    exact hrevised _ fun ss hss => reviseStmts_unchanged hss
  | float =>
    show (p.revise floatRule).changed = false
    rw [p.revise_eq]
    exact hrevised _ fun ss hss => reviseStmts_unchanged hss
  | unreachable => exact hrevised _ trimStmts_of_tight
  | linearize =>
    show (p.linearize last).1.changed = false
    rw [(p.linearized_bodies last).2, mapBodies_of_still h]
    rfl

/-- A pass that claims no modification had nothing to do. -/
theorem settled_of_unchanged {p : Program} {last : Int64} (h : (k.apply p last).1.changed = false) :
    p.Bodies k.Settled := by
  have hresult := result_apply k p last
  intro f hf
  exact hresult.settled f (by rwa [hresult.same h])

end StandardPass

/-! ### Sweeps -/

section Actions

variable {σ α β : Type} {m : PassM σ α} {n n' : σ} {a : α}

theorem run_bind_of_ok (h : (ExceptT.run m).run n = (.ok a, n')) (f : α → PassM σ β) :
    (ExceptT.run (m >>= f)).run n = (ExceptT.run (f a)).run n' := by
  rw [ExceptT.run_bind, StateT.run_bind, h]
  rfl

theorem run_inContext_of_ok (h : (ExceptT.run m).run n = (.ok a, n')) (label : String) :
    (ExceptT.run (inContext label m)).run n = (.ok a, n') := by
  show (ExceptT.run (ExceptT.tryCatch m fun e => throw (e.within label))).run n = _
  unfold ExceptT.tryCatch ExceptT.run ExceptT.mk
  rw [StateT.run_bind]
  have hrun : StateT.run m n = (.ok a, n') := h
  rw [hrun]
  rfl

end Actions

/-- Progress after a pass: the program is replaced if the pass claims a modification. -/
def Progress.after (s : Progress) (r : Revised Program) : Progress :=
  if r.changed then { program := r.value, replaced := true, modified := true } else s

/-- A standard pass on the progress of a sweep and the number of the last temporary. -/
def StandardPass.advance (a : Progress × Int64) (k : StandardPass) : Progress × Int64 :=
  (a.1.after (k.apply a.1.program a.2).1, (k.apply a.1.program a.2).2)

/-- The pass with the number of the last temporary as the whole state. -/
def StandardPass.pass (k : StandardPass) : Pass Int64 := k.toPass id fun n _ => n

theorem run_pass (k : StandardPass) (p : Program) (last : Int64) :
    (ExceptT.run (k.pass.run p)).run last = (.ok (k.apply p last).1.result, (k.apply p last).2) :=
  rfl

/-- The program that a pass gives back for one, if it gives any. -/
def PassOutcome.program? (p : Program) : PassOutcome → Option Program
  | .kept => some p
  | .replaced q => some q
  | .nothing => none

/-- **Passes are idempotent.** On every program a pass succeeds and gives a program back. Run again
on that, from the number of the last temporary that it left or from any other one, it keeps the
program and claims no modification. -/
theorem StandardPass.idempotent (k : StandardPass) (p : Program) (last : Int64) : ∃ r q last',
    (ExceptT.run (k.pass.run p)).run last = (.ok r, last') ∧ r.outcome.program? p = some q ∧
      ∀ n, ∃ n', (ExceptT.run (k.pass.run q)).run n = (.ok ⟨.kept, false⟩, n') := by
  have hkeeps : ∀ q : Program, q.Bodies k.Settled →
    ∀ n, ∃ n', (ExceptT.run (k.pass.run q)).run n = (.ok ⟨.kept, false⟩, n') := by
    intro q hq n
    refine ⟨(k.apply q n).2, ?_⟩
    rw [run_pass, Revised.result, unchanged_of_settled hq, if_neg Bool.false_ne_true]
  rw [run_pass, Revised.result]
  cases hchanged : (k.apply p last).1.changed with
  | true => exact ⟨_, (k.apply p last).1.value, _, rfl, rfl,
    hkeeps _ (result_apply k p last).settled⟩
  | false => exact ⟨_, p, _, rfl, rfl, hkeeps p (settled_of_unchanged hchanged)⟩

theorem run_runPass (k : StandardPass) (s : Progress) (last : Int64) :
    (ExceptT.run (runPass k.pass s)).run last = (.ok (k.advance (s, last)).1,
      (k.advance (s, last)).2) := by
  rw [runPass, run_bind_of_ok (run_inContext_of_ok (run_pass k s.program last) _)]
  simp only [StandardPass.advance, Progress.after, Revised.result]
  cases (k.apply s.program last).1.changed with
  | false =>
    simp only [Bool.false_eq_true, if_false, Bool.or_false]
    rfl
  | true =>
    simp only [if_true, Bool.or_true]
    rfl

/-- A sweep runs the passes one after the other. -/
theorem sweep_standard (ks : List StandardPass) (s : Progress) (last : Int64) :
    (ExceptT.run (sweep (ks.map StandardPass.pass) s)).run last =
      (.ok (ks.foldl StandardPass.advance (s, last)).1,
        (ks.foldl StandardPass.advance (s, last)).2) := by
  induction ks generalizing s last with
  | nil => rfl
  | cons k ks ih =>
    rw [List.map_cons, sweep, List.foldlM_cons, run_bind_of_ok (run_runPass k s last)]
    exact ih _ _

/-! ### Invariants -/

section Invariants

variable {P : Program → Prop} {ks : List StandardPass}

theorem advance_keeps (h : ∀ k ∈ ks, ∀ q last, P q → P (k.apply q last).1.value)
    (a : Progress × Int64) (ha : P a.1.program) :
    P (ks.foldl StandardPass.advance a).1.program := by
  induction ks generalizing a with
  | nil => exact ha
  | cons k ks ih =>
    rw [List.forall_mem_cons] at h
    refine ih h.2 _ ?_
    simp only [StandardPass.advance, Progress.after]
    split
    · exact h.1 _ _ ha
    · exact ha

theorem sweeps_keep (h : ∀ k ∈ ks, ∀ q last, P q → P (k.apply q last).1.value) (bound : Nat)
    (s : Progress) (last : Int64) (hs : P s.program) :
    ∃ q last', (ExceptT.run (sweeps (ks.map StandardPass.pass) bound s)).run last = (.ok q, last') ∧
      P q.program := by
  induction bound generalizing s last with
  | zero => exact ⟨s, last, rfl, hs⟩
  | succ bound ih =>
    have hnext := advance_keeps h ({ s with modified := false }, last) hs
    rw [sweeps, run_bind_of_ok (sweep_standard ks { s with modified := false } last)]
    split
    · exact ih _ _ hnext
    · exact ⟨_, _, rfl, hnext⟩

/-- Optimization succeeds, and it keeps what every pass keeps. -/
theorem optimize_keeps {l : Level} (h : ∀ k ∈ l.passes, ∀ q last, P q → P (k.apply q last).1.value)
    (bound : Nat) {p : Program} (hp : P p) (last : Int64) :
    ∃ q last', (ExceptT.run (optimize l.passList bound p)).run last = (.ok q, last') ∧
      P q.program := by
  rw [optimize]
  split
  · exact ⟨{ program := p }, last, rfl, hp⟩
  · exact sweeps_keep h bound { program := p } last hp

end Invariants

/-! ### Stages -/

/-- A program in which calls are sound, and whose bodies some passes leave alone. -/
structure Calm (js : List StandardPass) (p : Program) : Prop where
  sound : p.Bodies (StmtsAll Expr.SoundCall)
  settled : ∀ j ∈ js, p.Bodies j.Settled

theorem Calm.mono {js js' : List StandardPass} {p : Program} (h : Calm js p)
    (hjs : ∀ j ∈ js', j ∈ js) : Calm js' p :=
  ⟨h.sound, fun j hj => h.settled j (hjs j hj)⟩

section Stages

open StandardPass

variable {k : StandardPass} {js : List StandardPass} {a : Progress × Int64}

/-- Whether or not the program is replaced, its functions are those that the pass gives. -/
theorem functions_advance (k : StandardPass) (a : Progress × Int64) :
    (k.advance a).1.program.functions = (k.apply a.1.program a.2).1.value.functions := by
  simp only [advance, Progress.after]
  split
  · rfl
  · next hchanged => exact ((result_apply k a.1.program a.2).same (by simpa using hchanged)).symm

/-- After a pass, its own bodies are settled, and so are those it keeps. -/
theorem Calm.step (h : Calm js a.1.program) (k : StandardPass) :
    Calm (k :: js.filter k.keeps) (k.advance a).1.program := by
  have hresult := result_apply k a.1.program a.2
  have hturns : ∀ g ∈ (k.advance a).1.program.functions, ∃ f ∈ a.1.program.functions,
    k.Turns f.func.body.stmts g.func.body.stmts := by
    rw [functions_advance]
    intro g hg
    have hmem := List.forall₂_iff_get.1 hresult.turns
    obtain ⟨i, hi, rfl⟩ := List.mem_iff_getElem.1 hg
    exact ⟨_, List.getElem_mem (hmem.1 ▸ hi), hmem.2 i (hmem.1 ▸ hi) hi⟩
  constructor
  · intro g hg
    obtain ⟨f, hf, hfg⟩ := hturns g hg
    exact hfg.sound (h.sound f hf)
  · intro j hj g hg
    obtain ⟨f, hf, hfg⟩ := hturns g hg
    rcases List.mem_cons.1 hj with rfl | hj
    · exact hfg.settled
    · obtain ⟨hmem, hkeeps⟩ := List.mem_filter.1 hj
      exact hfg.keeps hkeeps (h.sound f hf) (h.settled j hmem f hf)

/-- A pass leaves the progress as it is if it leaves the program alone. -/
theorem Calm.still (h : Calm js a.1.program) (hk : k ∈ js) : (k.advance a).1 = a.1 := by
  simp [advance, Progress.after, unchanged_of_settled (h.settled k hk)]

theorem Calm.stays (h : Calm js a.1.program) (hk : k ∈ js) : Calm js (k.advance a).1.program := by
  rw [h.still hk]
  exact h

/-- After one sweep only eta reduction may find something to do. -/
theorem Calm.first {l : Level} (h : Calm [] a.1.program) (hl : l ≠ .none) :
    Calm l.passes.tail (l.passes.foldl advance a).1.program := by
  cases l with
  | none => exact absurd rfl hl
  | standard => exact (((h.step eta).step float).step linearize).mono (by decide)
  | aggressive =>
    exact ((((h.step eta).step float).step unreachable).step linearize).mono (by decide)

/-- After two sweeps no pass finds anything to do. -/
theorem Calm.second {l : Level} (h : Calm l.passes.tail a.1.program) (hl : l ≠ .none) :
    Calm l.passes (l.passes.foldl advance a).1.program := by
  -- Eta reduction may undo what linearization settled, so it is the one pass that has
  -- to run once more.
  have heta := h.step eta
  cases l with
  | none => exact absurd rfl hl
  | standard => exact ((heta.stays (k := float) (by decide)).step linearize).mono (by decide)
  | aggressive =>
    exact (((heta.stays (k := float) (by decide)).stays (k := unreachable) (by decide)).step
      linearize).mono (by decide)

/-- Passes that leave the program alone leave the progress as it is. -/
theorem Calm.third (h : Calm js a.1.program) (ks : List StandardPass) (hks : ∀ k ∈ ks, k ∈ js) :
    (ks.foldl advance a).1 = a.1 := by
  induction ks generalizing a with
  | nil => rfl
  | cons k ks ih =>
    rw [List.forall_mem_cons] at hks
    rw [List.foldl_cons, ih (h.stays hks.1) hks.2, h.still hks.1]

/-- Of a program that eta reduction and float folding leave alone, the standard level makes what
linearization makes of it. -/
theorem optimize_calm {p : Program} (h : Calm [eta, float] p) (bound : Nat) (last : Int64) :
    ∃ q last',
      (ExceptT.run (optimize Level.standard.passList (bound + 1) p)).run last = (.ok q, last') ∧
      q.program.functions = (p.linearize last).1.value.functions := by
  have heta : eta.advance ({ program := p }, last) = ({ program := p }, last) :=
    Prod.ext (h.still List.mem_cons_self) rfl
  have hfloat : float.advance ({ program := p }, last) = ({ program := p }, last) :=
    Prod.ext (h.still (by decide)) rfl
  have hsweep : Level.standard.passes.foldl advance ({ program := p }, last) =
      linearize.advance ({ program := p }, last) := by
    show linearize.advance (float.advance (eta.advance ({ program := p }, last))) = _
    rw [heta, hfloat]
  have hcalm : Calm Level.standard.passes (linearize.advance ({ program := p }, last)).1.program :=
    (Calm.step (a := ({ program := p }, last)) h linearize).mono (by decide)
  have hfunctions := functions_advance linearize ({ program := p }, last)
  have hfirst : (ExceptT.run (sweep Level.standard.passList { program := p })).run last = _ :=
    sweep_standard Level.standard.passes { program := p } last
  rw [hsweep] at hfirst
  generalize linearize.advance ({ program := p }, last) = s at hcalm hfunctions hfirst
  rw [optimize, if_neg (by decide), sweeps, run_bind_of_ok hfirst]
  split
  · -- The next sweep finds nothing to do.
    cases bound with
    | zero => exact ⟨s.1, s.2, rfl, hfunctions⟩
    | succ bound =>
      have hsecond :
        (ExceptT.run (sweep Level.standard.passList { s.1 with modified := false })).run s.2 = _ :=
        sweep_standard Level.standard.passes { s.1 with modified := false } s.2
      rw [Calm.third (a := ({ s.1 with modified := false }, s.2)) hcalm Level.standard.passes
        fun _ => id] at hsecond
      rw [sweeps, run_bind_of_ok hsecond]
      exact ⟨_, _, rfl, hfunctions⟩
  · exact ⟨s.1, s.2, rfl, hfunctions⟩

end Stages

end FunRiscv
