import Mathlib
import FunRiscv.Proofs.Codegen.Levels
import FunRiscv.Proofs.Pass.Fixpoint

/-!
# Many nested calls

* `nesting_none`: code for many nested calls is generated without optimization.
* `expr_nested`, `linearize_nesting`: linearization names all of the calls but the outermost ones.
* `nesting_standard`: with a word for each name, no frame has room for them.
-/

namespace FunRiscv

open Hoisting

/-- A call is done with each register before it comes to the next, so nested calls need no
words on the stack. -/
theorem nesting_generates : ∃ code, (nesting 39 14).markChecked.generate {} = .ok code := by
  have hturn : functionsInTurn {} ["f", "main"] 0 (nesting 39 14).markChecked.functions = true := by
    decide +kernel
  obtain ⟨code, hcode⟩ := generateFunctions_inTurn hturn
  have hnames : (nesting 39 14).markChecked.functions.map (·.name) = ["f", "main"] := rfl
  have hlabels : duplicateLabel? [] (nesting 39 14).markChecked.functions = none := by
    decide +kernel
  refine ⟨code, ?_⟩
  rw [Program.generate, hlabels, hnames]
  exact hcode

/-- Without optimization many nested calls are built. -/
theorem nesting_none : ∃ b, (nesting 39 14).build { level := "none" } .assemble = .ok b := by
  have hchecks : ((nesting 39 14).check { stem := "t", limit := 100000 }).1.isOk = true := by
    decide +kernel
  have hoptimized : (nesting 39 14).Optimized { level := "none" } (nesting 39 14).markChecked :=
    ⟨rfl, congrArg Prod.fst (check_eq_of_isOk hchecks), { program := (nesting 39 14).markChecked },
      0, rfl, rfl⟩
  obtain ⟨code, hgenerated⟩ := nesting_generates
  refine ⟨{ program := (nesting 39 14).markChecked, code }, ?_⟩
  rw [hoptimized.build]
  show (stageResult "generate" .codegen ((nesting 39 14).markChecked.generate {})).map _ = _
  rw [hgenerated]
  rfl

/-! ### What linearization makes of nested calls -/

/-- All calls but the outermost are named. -/
theorem expr_nested (n : Nat) (s : Temporaries) : ∃ y new s',
    Emits (expr (nested (n + 1))) s (.call {} (.var {} "f") [y] []) new s' ∧
      y.nodeCount = 1 ∧ new.length = n ∧ stmtsNodeCount new = 3 * n := by
  have hcall : ∀ x : Expr, expr (.call {} (.var {} "f") [x] []) =
      (simple x (expr x) >>= fun y => pure (.call {} (.var {} "f") [y] [])) := by
    intro x
    rw [expr_call, simple_of_not_complex rfl, expr, operands, operands, namedOperands]
    simp
  induction n generalizing s with
  | zero =>
    refine ⟨.uint {} 1, [], s, ?_, rfl, rfl, rfl⟩
    show Emits (expr (.call {} (.var {} "f") [.uint {} 1] [])) s _ _ _
    rw [hcall, simple_of_not_complex rfl, expr, pure_bind]
    exact emits_pure _ s
  | succ n ih =>
    obtain ⟨y, new, s₁, hy, hcount, hlength, hnodes⟩ := ih s
    obtain ⟨s', hname⟩ := emits_name (.call {} (.var {} "f") [y] []) s₁
    let named : Stmt :=
      .assign {} (temporaryName (s₁.last + 1)) none (.call {} (.var {} "f") [y] [])
    refine ⟨.var {} (temporaryName (s₁.last + 1)), new ++ [named], s', ?_, rfl, ?_, ?_⟩
    · show Emits (expr (.call {} (.var {} "f") [nested (n + 1)] [])) s _ _ _
      rw [hcall, simple_of_complex rfl]
      exact (hy.bind hname).map (f := fun y => Expr.call {} (.var {} "f") [y] [])
    · rw [List.length_append, hlength, List.length_singleton]
    · rw [stmtsNodeCount_append, hnodes]
      simp only [named, stmtsNodeCount, Stmt.nodeCount, Expr.nodeCount, exprsNodeCount,
        namedNodeCount, hcount]
      omega

theorem stmts_nesting (k n : Nat) (s : Temporaries) : ∃ ss' s',
    ((stmts (List.replicate k (.expr {} (nested (n + 1))) ++ [.ret {} (some (.uint {} 1))])).run
      s).value = (ss', s') ∧
      stmtsTargets ss' = temporaries s.last (k * n) ∧ stmtsNodeCount ss' = k * (3 * n + 3) + 1 := by
  induction k generalizing s with
  | zero =>
    have hstill : Still (.ret {} (some (.uint {} 1))) := by
      rw [Still, stmt_leaf (fun x => .ret {} (some x)) (by rw [stmt]), expr, pure_bind]
    refine ⟨[.ret {} (some (.uint {} 1))], s,
      ?_, by simp [stmtsTargets, Stmt.targets], by simp [stmtsNodeCount, Stmt.nodeCount,
        Expr.nodeCount]⟩
    rw [List.replicate_zero, List.nil_append, stmts_of_still (List.forall_mem_singleton.2 hstill)]
    rfl
  | succ k ih =>
    obtain ⟨y, new, s₁, hy, hcount, hlength, hnodes⟩ := expr_nested n { s with pending := [] }
    have hrun : ((stmt (.expr {} (nested (n + 1)))).run { s with pending := [] }).value =
        (.expr {} (.call {} (.var {} "f") [y] []), s₁) := by
      rw [stmt_leaf (fun x => .expr {} x) (by rw [stmt]), value_bind hy.run]
      rfl
    have hplaced := value_placed hrun
    rw [hy.pending_reverse] at hplaced
    obtain ⟨ss', s', hss, htargets, hcounts⟩ := ih { s₁ with pending := s.pending }
    refine ⟨new ++ [Stmt.expr {} (.call {} (.var {} "f") [y] [])] ++ ss', s', ?_, ?_, ?_⟩
    · rw [List.replicate_succ, List.cons_append, stmts_cons, value_bind hplaced, value_bind hss]
      rfl
    · rw [stmtsTargets_append, stmtsTargets_append, htargets, hy.targets, hlength, Nat.succ_mul,
        Nat.add_comm, temporaries_add]
      have hlast : s₁.last = s.last + Int64.ofNat n := by rw [hy.last, hlength]
      simp [stmtsTargets, Stmt.targets, hlast]
    · rw [stmtsNodeCount_append, stmtsNodeCount_append, hcounts, hnodes, Nat.succ_mul k (3 * n + 3)]
      simp only [stmtsNodeCount, Stmt.nodeCount, Expr.nodeCount, exprsNodeCount,
        namedNodeCount, hcount]
      omega

theorem stmtsTargets_nesting (k n : Nat) :
    stmtsTargets (List.replicate k (.expr {} (nested n)) ++ [.ret {} (some (.uint {} 1))]) =
      [] := by
  induction k with
  | zero => simp [stmtsTargets, Stmt.targets]
  | succ k ih =>
    rw [List.replicate_succ, List.cons_append, stmtsTargets, ih, Stmt.targets, List.append_nil]

/-- The function that nests calls assigns as many variables, each of them another. -/
theorem linearize_nesting (k n : Nat) {m : Nat} (hm : m = n + 1) : ∃ f g,
    ((nesting k m).markChecked.linearize 0).1.value.functions = [f, g] ∧
      stmtsTargets g.func.body.stmts = temporaries 0 (k * n) ∧
      stmtsNodeCount g.func.body.stmts = k * (3 * n + 3) + 1 := by
  subst hm
  obtain ⟨f, g, hfunctions, hf, hg⟩ : ∃ f g : NamedFunction,
    (nesting k (n + 1)).markChecked.functions = [f, g] ∧
      f.func.body.stmts = [.ret {} (some (.var {} "x"))] ∧
      g.func.body.stmts = List.replicate k (.expr {} (nested (n + 1))) ++
        [.ret {} (some (.uint {} 1))] :=
    ⟨_, _, rfl, rfl, rfl⟩
  have hlast : (nesting k (n + 1)).markChecked.lastTemporary 0 = 0 := by
    simp [Program.lastTemporary, hfunctions, hf, hg, stmtsTargets_nesting, stmtsTargets,
      Stmt.targets]
  have hstill : Still (.ret {} (some (.var {} "x"))) := by
    rw [Still, stmt_leaf (fun x => .ret {} (some x)) (by rw [stmt]), expr, pure_bind]
  obtain ⟨ss', s', hss, htargets, hcount⟩ := stmts_nesting k n { last := 0 }
  refine ⟨f.withBody [.ret {} (some (.var {} "x"))], g.withBody ss', ?_, htargets, hcount⟩
  rw [(Program.linearized_bodies _ 0).1, hfunctions, hlast, mapBodies_cons, mapBodies_cons, hf, hg,
    stmts_of_still (List.forall_mem_singleton.2 hstill), pure_bind, bind_assoc, value_bind hss]
  rfl

/-! ### At the standard level -/

/-- Nested calls that are accepted are left alone by the other passes. -/
theorem calm_nesting {o : CheckOptions} (hchecked : ((nesting 39 14).check o).1 = .ok ()) :
    Calm [.eta, .float] (nesting 39 14).markChecked := by
  obtain ⟨code, hcode⟩ := nesting_generates
  have hadmitted := (Program.admitted_of_generate hcode).1
  refine ⟨?_, fun k hk f hf => ?_⟩
  · have hsound :=
      Program.soundCalls_of_check (Prod.ext hchecked rfl : (nesting 39 14).check o = (.ok (), _))
    rw [Program.Bodies, Program.functions_markChecked]
    exact List.forall_mem_map.2 hsound
  · have hsettled := stmtsAdmitted_settled (hadmitted f hf).2.2
    simp only [List.mem_cons, List.not_mem_nil, or_false] at hk
    rcases hk with rfl | rfl
    · exact hsettled.1
    · exact hsettled.2

/-- At the standard level each call that is an argument becomes a variable, and there are more of
them than a frame has words for. -/
theorem nesting_standard :
    ¬∃ b, (nesting 39 14).build { level := "standard" } .assemble = .ok b := by
  rintro ⟨b, hbuild⟩
  obtain ⟨⟨-, hchecked, progress, last, hrun, hprogram⟩, hgenerated⟩ :=
    Program.optimized_of_build hbuild
  have hlevel : (Level.ofName? "standard").getD .none = .standard := rfl
  have hsweeps : ({ level := "standard" } : Settings).maxSweeps.toNat = 9 + 1 := rfl
  obtain ⟨q, last', hq, hfunctions⟩ := optimize_calm (calm_nesting hchecked) 9 0
  rw [hlevel, hsweeps, hq] at hrun
  obtain rfl : q = progress := Except.ok.inj (congrArg Prod.fst hrun)
  obtain ⟨f, g, hlinearized, htargets, hcount⟩ := linearize_nesting 39 13 (m := 14) rfl
  have hg : g ∈ b.program.functions := by
    rw [← hprogram, hfunctions, hlinearized]
    exact List.mem_cons_of_mem _ List.mem_cons_self
  rw [Program.generate] at hgenerated
  split at hgenerated
  · cases hgenerated
  · obtain ⟨start, lf, supply, a, origin, hcompiles, -⟩ := generateFunctions_block hgenerated hg
    have hlength :=
      hcompiles.variables_le rfl (by omega) (nodup_temporaries (n := 0) (k := 39 * 13) (by decide))
        fun n hn => htargets ▸ hn
    rw [length_temporaries] at hlength
    omega

/-- Optimization does break builds: what fits into a frame before operands have words of their own
need not fit after. -/
theorem standard_breaks_build :
    Level.ofName? "none" = some .none ∧ Level.ofName? "standard" = some .standard ∧
    (∃ b, (nesting 39 14).build { level := "none" } .assemble = .ok b) ∧
    ¬∃ b, (nesting 39 14).build { level := "standard" } .assemble = .ok b :=
  ⟨rfl, rfl, nesting_none, nesting_standard⟩

end FunRiscv
