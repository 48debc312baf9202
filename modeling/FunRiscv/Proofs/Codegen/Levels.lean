import Mathlib
import FunRiscv.Build
import FunRiscv.Proofs.Codegen.Hoisted
import FunRiscv.Proofs.Codegen.Limits
import FunRiscv.Proofs.Typing.Soundness

/-!
# Levels of optimization and the success of a build

What can be lowered without optimization can be lowered after it at the standard level. So only the
frame of a function, which takes a word for each temporary, may then be too large.

* `Program.Admitted`: a program all of whose functions can be lowered. `Program.generate_admitted`:
  its code can be generated unless a frame is too large.
* `Expr.Admitted.settled`: eta reduction and float folding find nothing to do in what
  can be lowered.
* `Program.Admitted.apply`: the passes of the standard level keep programs that can be lowered so.
* `build_standard`: the theorem about builds, and `standard_breaks_build`: a program whose frame is
  too large after optimization.
-/

namespace FunRiscv

/-! ### Passes that have nothing to do -/

section Settled

variable {g : Ground} {vars : Set String} {depth : Nat} {x y : Expr}

theorem exprsAdmitted_mem {xs : List Expr} (h : exprsAdmitted g vars depth xs) (hx : x ∈ xs) :
    x.Admitted g vars depth := by
  induction xs with
  | nil => cases hx
  | cons z xs ih =>
    rw [exprsAdmitted] at h
    rcases List.mem_cons.1 hx with rfl | hx
    · exact h.1
    · exact ih h.2 hx

theorem casesAdmitted_body {cs : List Case} {k : Case} (h : casesAdmitted g vars depth cs)
    (hk : k ∈ cs) : ∃ vars', k.body.Admitted g vars' depth := by
  induction cs with
  | nil => cases hk
  | cons c cs ih =>
    obtain ⟨loc, p, b⟩ := c
    rw [casesAdmitted] at h
    rcases List.mem_cons.1 hk with rfl | hk
    · exact ⟨_, h.2.1⟩
    · exact ih h.2.2 hk

/-- The expressions inside one that can be lowered can be lowered. -/
theorem Expr.Admitted.child (h : x.Admitted g vars depth) (hy : y ∈ x.children) :
    ∃ vars' depth', y.Admitted g vars' depth' := by
  cases x with
  | binOp loc op l r =>
    rw [Expr.Admitted] at h
    simp only [Expr.children, List.mem_cons, List.not_mem_nil, or_false] at hy
    rcases hy with rfl | rfl
    · exact ⟨_, _, h.2.2.1⟩
    · exact ⟨_, _, h.2.2.2⟩
  | call loc f as ns =>
    obtain ⟨vloc, n, rfl, rfl⟩ := h.calls_name
    rw [Expr.Admitted] at h
    simp only [Expr.children, List.map_nil, List.append_nil, List.mem_cons] at hy
    rcases hy with rfl | hy
    · refine ⟨vars, depth, ?_⟩
      rw [Expr.Admitted]
      exact ⟨h.1, .inr h.2.1.1.2.2⟩
    · exact ⟨_, _, exprsAdmitted_mem h.2.2 hy⟩
  | ifElse loc c t e =>
    rw [Expr.Admitted] at h
    simp only [Expr.children, List.mem_cons, List.not_mem_nil, or_false] at hy
    rcases hy with rfl | rfl | rfl
    · exact ⟨_, _, h.2.1⟩
    · exact ⟨_, _, h.2.2.1⟩
    · exact ⟨_, _, h.2.2.2⟩
  | matchOn loc s cs =>
    rw [Expr.Admitted] at h
    simp only [Expr.children, List.mem_cons, List.mem_map] at hy
    rcases hy with rfl | ⟨k, hk, rfl⟩
    · exact ⟨_, _, h.2.1⟩
    · obtain ⟨vars', hbody⟩ := casesAdmitted_body h.2.2 hk
      exact ⟨vars', _, hbody⟩
  | tuple | list | lambda | access => simp [Expr.Admitted] at h
  | _ => simp [Expr.children] at hy

theorem Expr.Admitted.float?_eq (h : x.Admitted g vars depth) : x.float? = none := by
  cases x with
  | float => simp [Expr.Admitted] at h
  | _ => rfl

/-- No lambda and no float can be lowered, so eta reduction and float folding find nothing to do. -/
theorem Expr.Admitted.settled (h : x.Admitted g vars depth) :
    x.All fun y => etaRule y = none ∧ floatRule y = none := by
  induction x using Expr.children_induction generalizing vars depth with
  | step x ih =>
    refine .intro ⟨?_, ?_⟩ fun y hy => ?_
    · cases x with
      | lambda => simp [Expr.Admitted] at h
      | _ => rfl
    · cases x with
      | binOp loc op l r =>
        rw [Expr.Admitted] at h
        have hl := h.2.2.1.float?_eq
        have hr := h.2.2.2.float?_eq
        have hgaps : foldIdentity loc op .missing .missing = none := by cases op <;> rfl
        rw [Expr.floatRule_binOp, hl, hr]
        exact (Expr.foldIdentity_eq_none_iff loc op hl hr).2 hgaps
      | _ => rfl
    · obtain ⟨vars', depth', hchild⟩ := h.child hy
      exact ih y hy hchild

mutual

theorem Stmt.Admitted.exprs :
    ∀ {s : Stmt} {vars : Set String} {depth : Nat}, s.Admitted g vars depth →
      ∀ x ∈ s.exprs, ∃ vars' depth', x.Admitted g vars' depth'
  | .ret _ none, _, _, _, _, hx | .missing, _, _, _, _, hx => by simp [Stmt.exprs] at hx
  | .ret _ (some y), _, _, h, x, hx | .assign _ _ _ y, _, _, h, x, hx | .use _ _ y, _, _, h, x, hx
  | .expr _ y, _, _, h, x, hx => by
    rw [Stmt.Admitted] at h
    obtain rfl : x = y := by simpa [Stmt.exprs] using hx
    exact ⟨_, _, h.2⟩
  | .ifThen _ c _ t, _, _, h, x, hx => by
    rw [Stmt.Admitted] at h
    simp only [Stmt.exprs, List.mem_cons] at hx
    rcases hx with rfl | hx
    · exact ⟨_, _, h.2.1⟩
    · exact stmtsAdmitted_exprs h.2.2.2 x hx
  | .ifElse _ c _ t _ e, _, _, h, x, hx => by
    rw [Stmt.Admitted] at h
    simp only [Stmt.exprs, List.mem_cons, List.mem_append] at hx
    rcases hx with rfl | hx | hx
    · exact ⟨_, _, h.2.1⟩
    · exact stmtsAdmitted_exprs h.2.2.2.1 x hx
    · exact stmtsAdmitted_exprs h.2.2.2.2 x hx

theorem stmtsAdmitted_exprs :
    ∀ {ss : List Stmt} {vars : Set String} {depth : Nat}, stmtsAdmitted g vars depth ss →
      ∀ x ∈ stmtsExprs ss, ∃ vars' depth', x.Admitted g vars' depth'
  | [], _, _, _, _, hx => by simp [stmtsExprs] at hx
  | s :: ss, _, _, h, x, hx => by
    rw [stmtsAdmitted] at h
    rw [stmtsExprs, List.mem_append] at hx
    rcases hx with hx | hx
    · exact h.1.exprs x hx
    · exact stmtsAdmitted_exprs h.2 x hx

end

theorem stmtsAdmitted_settled {ss : List Stmt} (h : stmtsAdmitted g vars depth ss) :
    StandardPass.eta.Settled ss ∧ StandardPass.float.Settled ss := by
  constructor <;> intro x hx <;> obtain ⟨vars', depth', hadmitted⟩ := stmtsAdmitted_exprs h x hx
  · exact hadmitted.settled.imp fun y hy => hy.1
  · exact hadmitted.settled.imp fun y hy => hy.2

end Settled

/-! ### Programs -/

/-- The name and the place of a function. -/
def NamedFunction.title (f : NamedFunction) : String × Location := (f.name, f.func.loc)

/-- The names and places of the functions of a program. -/
def Program.titles (p : Program) : List (String × Location) := p.functions.map NamedFunction.title

/-- Every function of a program can be lowered. -/
def Program.Admitted (opts : CodegenOptions) (reserved : Set String) (p : Program) : Prop :=
  ∀ f ∈ p.functions, f.Admitted opts (p.functions.map (·.name)) reserved

section Passes

variable {opts : CodegenOptions} {functions : List String} {p q : Program} {reserved : Set String}

namespace Hoisting

/-- Functions that can be lowered stay so when their operands are hoisted. -/
theorem bodies_admits (hreserved : ∀ k, temporaryName k ∈ reserved) {fs : List NamedFunction}
    (h : ∀ f ∈ fs, f.Admitted opts functions reserved) (s : Temporaries) : ∃ gs s',
      ((mapBodies stmts fs).run s).value = (gs, s') ∧
      (∀ g ∈ gs, g.Admitted opts functions reserved) ∧
      gs.map NamedFunction.title = fs.map NamedFunction.title := by
  induction fs generalizing s with
  | nil => exact ⟨[], s, rfl, by simp, rfl⟩
  | cons f fs ih =>
    rw [List.forall_mem_cons] at h
    obtain ⟨hcount, hdepth, hbody⟩ := h.1
    obtain ⟨ss', s₁, hrun, -, hreplaces⟩ :=
      stmts_admits (g := groundOf opts functions reserved f) hreserved hbody s
    obtain ⟨gs, s', hrest, hgs, htitles⟩ := ih h.2 s₁
    refine ⟨f.withBody ss' :: gs, s', ?_,
      List.forall_mem_cons.2 ⟨⟨hcount, hdepth, hreplaces.admitted⟩, hgs⟩, ?_⟩
    · rw [mapBodies_cons, value_bind hrun, value_bind hrest]
      rfl
    · rw [List.map_cons, List.map_cons, htitles]
      rfl

end Hoisting

/-- A pass of the standard level keeps a program that can be lowered so. -/
theorem Program.Admitted.apply (h : p.Admitted opts reserved)
    (hreserved : ∀ k, temporaryName k ∈ reserved) {k : StandardPass}
    (hk : k ∈ Level.standard.passes) (last : Int64) :
    (k.apply p last).1.value.Admitted opts reserved ∧
      (k.apply p last).1.value.titles = p.titles := by
  have hsame : p.Bodies k.Settled → (k.apply p last).1.value.Admitted opts reserved ∧
    (k.apply p last).1.value.titles = p.titles := by
    intro hsettled
    have hfunctions :=
      (StandardPass.result_apply k p last).same (StandardPass.unchanged_of_settled hsettled last)
    rw [Program.Admitted, Program.titles, hfunctions]
    exact ⟨h, rfl⟩
  cases k with
  | eta => exact hsame fun f hf => (stmtsAdmitted_settled (h f hf).2.2).1
  | float => exact hsame fun f hf => (stmtsAdmitted_settled (h f hf).2.2).2
  | unreachable => simp [Level.passes] at hk
  | linearize =>
    obtain ⟨gs, s', hrun, hgs, htitles⟩ :=
      Hoisting.bodies_admits hreserved h { last := p.lastTemporary last }
    have hfunctions : (StandardPass.linearize.apply p last).1.value.functions = gs :=
      (p.linearized_bodies last).1.trans (congrArg Prod.fst hrun)
    have hnames : gs.map (·.name) = p.functions.map (·.name) := by
      have := congrArg (List.map Prod.fst) htitles
      rwa [List.map_map, List.map_map] at this
    rw [Program.Admitted, Program.titles, hfunctions, hnames]
    exact ⟨hgs, htitles⟩

/-! ### Code of a program -/

theorem duplicateLabel?_eq_none_iff {seen : List String} {fs : List NamedFunction} :
    duplicateLabel? seen fs = none ↔ (fs.map fun f => functionLabel f.name).Nodup ∧
      ∀ f ∈ fs, functionLabel f.name ∉ seen := by
  refine ⟨duplicateLabel?_none, fun h => ?_⟩
  induction fs generalizing seen with
  | nil => rfl
  | cons f fs ih =>
    obtain ⟨hnodup, hseen⟩ := h
    rw [List.map_cons, List.nodup_cons] at hnodup
    rw [List.forall_mem_cons] at hseen
    rw [duplicateLabel?]
    rw [if_neg (by simpa using hseen.1)]
    refine ih ⟨hnodup.2, fun g hg hmem => ?_⟩
    rcases List.mem_cons.1 hmem with heq | hmem
    · exact hnodup.1 (heq ▸ List.mem_map_of_mem hg)
    · exact hseen.2 g hg hmem

/-- No two functions of a program have one label. -/
def Program.Distinct (p : Program) : Prop := (p.functions.map fun f => functionLabel f.name).Nodup

theorem Program.Distinct.congr (h : p.Distinct) (htitles : q.titles = p.titles) : q.Distinct := by
  have hlabels := congrArg (List.map fun t : String × Location => functionLabel t.1) htitles
  rw [Program.titles, Program.titles, List.map_map, List.map_map] at hlabels
  exact (congrArg List.Nodup hlabels).mpr h

/-- Code of a program that can be lowered can be generated unless the frame of a
function is too large. -/
theorem Program.generate_admitted (h : p.Admitted opts ∅) (hdistinct : p.Distinct) :
    (∃ code, p.generate opts = .ok code) ∨
      ∃ e, FrameTooLarge p.functions e ∧ p.generate opts = .error e := by
  rw [Program.generate, duplicateLabel?_eq_none_iff.2 ⟨hdistinct, by simp⟩]
  exact generateFunctions_admitted h

/-- Code can only be generated of a program that can be lowered. -/
theorem Program.admitted_of_generate {code : Listing} (h : p.generate opts = .ok code) :
    p.Admitted opts ∅ ∧ p.Distinct := by
  rw [Program.generate] at h
  split at h
  · cases h
  · next hnone => exact ⟨admitted_of_generateFunctions h, (duplicateLabel?_none hnone).1⟩

end Passes

/-! ### Checked programs -/

/-- The function, checked. -/
def NamedFunction.marked (f : NamedFunction) : NamedFunction :=
  { f with func := { f.func with checked := true } }

section Marked

/-- Records that a function was checked. -/
def markFunction (d : FuncDef) : Id FuncDef := pure { d with checked := true }

theorem mapFuncs_marked (ds : List FuncDef) (scope : String) :
    ((mapFuncs markFunction ds).run.map fun d => (⟨scope ++ d.name, d⟩ : NamedFunction)) =
      (ds.map fun d => (⟨scope ++ d.name, d⟩ : NamedFunction)).map NamedFunction.marked := by
  induction ds with
  | nil => rfl
  | cons d ds ih =>
    rw [List.map_cons, List.map_cons, ← ih]
    rfl

mutual

theorem Definition.functions_marked : ∀ (d : Definition) (scope : String),
    (d.mapFunctions markFunction).run.functions scope = (d.functions scope).map NamedFunction.marked
  | .func d, scope => rfl
  | .object d, scope => by
    rw [Definition.functions, ← mapFuncs_marked]
    rfl
  | .module loc n ds, scope => by
    rw [Definition.functions, ← functionsOf_marked]
    rfl
  | .type d, scope | .alias d, scope => rfl

theorem functionsOf_marked : ∀ (ds : List Definition) (scope : String),
    functionsOf scope (mapDefinitions markFunction ds).run =
      (functionsOf scope ds).map NamedFunction.marked
  | [], scope => rfl
  | d :: ds, scope => by
    rw [functionsOf, List.map_append, ← Definition.functions_marked, ← functionsOf_marked]
    rfl

end

theorem Program.functions_markChecked (p : Program) :
    p.markChecked.functions = p.functions.map NamedFunction.marked :=
  functionsOf_marked p.defs ""

theorem Program.titles_markChecked (p : Program) : p.markChecked.titles = p.titles := by
  rw [Program.titles, Program.titles, Program.functions_markChecked, List.map_map]
  rfl

theorem Program.nodes_markChecked (p : Program) : p.markChecked.nodes = p.nodes := by
  rw [Program.nodes, Program.nodes, Program.functions_markChecked, List.flatMap_map]
  rfl

end Marked

/-! ### Builds -/

section Builds

variable {s : Settings} {p : Program}

/-- The options of code generation. -/
def Settings.codegen (s : Settings) : CodegenOptions :=
  { maxDepth := s.maxDepth, comments := s.comments }

/-- A build that has come to code generation: what it builds it for. -/
structure Program.Optimized (s : Settings) (p q : Program) : Prop where
  settings : s.problem? = none
  checked : (p.check { stem := s.stem, limit := s.stepLimit.toNat }).1 = .ok ()
  optimized : ∃ progress last,
    (ExceptT.run (optimize ((Level.ofName? s.level).getD .none).passList s.maxSweeps.toNat
      p.markChecked)).run 0 = (.ok progress, last) ∧ progress.program = q

theorem Program.Optimized.build {q : Program} (h : p.Optimized s q) : p.build s .assemble =
    (stageResult "generate" .codegen (q.generate s.codegen)).map fun code =>
      { program := q, code } := by
  obtain ⟨hsettings, hchecked, progress, last, hrun, rfl⟩ := h
  have hrun' :
    ((optimize ((Level.ofName? s.level).getD .none).passList s.maxSweeps.toNat p.markChecked).run
      0).1 = .ok progress :=
    congrArg Prod.fst hrun
  unfold Program.build
  simp only [hsettings, hchecked, hrun', stageResult]
  rfl

/-- A build that succeeds has come to code generation. -/
theorem Program.optimized_of_build {b : Built} (h : p.build s .assemble = .ok b) :
    p.Optimized s b.program ∧ b.program.generate s.codegen = .ok b.code := by
  unfold Program.build at h
  cases hsettings : s.problem? with
  | some e =>
    rw [hsettings] at h
    cases h
  | none =>
    cases hchecked : (p.check { stem := s.stem, limit := s.stepLimit.toNat }).1 with
    | error e =>
      rw [hsettings, hchecked] at h
      cases h
    | ok =>
      cases hrun :
        (ExceptT.run (optimize ((Level.ofName? s.level).getD .none).passList s.maxSweeps.toNat
          p.markChecked)).run 0 with
      | mk r last =>
        have hrun' :
          ((optimize ((Level.ofName? s.level).getD .none).passList s.maxSweeps.toNat
            p.markChecked).run 0).1 = r :=
          congrArg Prod.fst hrun
        rw [hsettings, hchecked] at h
        simp only [hrun'] at h
        cases r with
        | error e => cases h
        | ok progress =>
          have hgenerated :
            (stageResult "generate" .codegen (progress.program.generate s.codegen)).map
              (fun code => ({ program := progress.program, code } : Built)) = .ok b := h
          cases hcode : progress.program.generate s.codegen with
          | error e =>
            rw [hcode] at hgenerated
            cases hgenerated
          | ok code =>
            rw [hcode] at hgenerated
            obtain rfl := Except.ok.inj hgenerated
            exact ⟨⟨hsettings, hchecked, progress, last, hrun, rfl⟩, hcode⟩

/-- Without optimization code is generated of the program itself. -/
theorem Program.Optimized.of_none {q : Program} (h : p.Optimized s q)
    (hnone : Level.ofName? s.level = some .none) : q = p.markChecked := by
  obtain ⟨-, -, progress, last, hrun, rfl⟩ := h
  rw [hnone] at hrun
  have hprogress : ({ program := p.markChecked } : Progress) = progress :=
    Except.ok.inj (congrArg Prod.fst hrun)
  rw [← hprogress]

theorem Settings.problem?_level {level : String} (hlevel : (Level.ofName? level).isSome = true)
    (h : s.problem? = none) : ({ s with level } : Settings).problem? = none := by
  unfold Settings.problem? at h ⊢
  split at h
  · cases h
  · rw [if_neg (by simpa using Option.isSome_iff_ne_none.1 hlevel)]
    exact h

/-- **Optimization at the standard level breaks a build in one way only.** Take a program that is
built without optimization, and in which no function is called by the name of a temporary. With the
standard level instead, and everything else as it is, the build succeeds too, or it fails with the
error that the stack frame of one of the functions is too large. -/
theorem build_standard (s : Settings) (level : String) (p : Program) (b : Built)
    (hnone : Level.ofName? s.level = some .none) (hstandard : Level.ofName? level = some .standard)
    (hcalls : ∀ x ∈ p.nodes, ∀ k, x.callee? ≠ some (temporaryName k))
    (hbuild : p.build s .assemble = .ok b) : (∃ b', p.build { s with level } .assemble = .ok b') ∨
    ∃ f ∈ p.functions, ∃ n, fitsImmediate n = false ∧
        p.build { s with level } .assemble = .error ⟨["generate", "func " ++ f.name],
          .codegen ⟨f.func.loc, .frameSize f.name n⟩⟩ := by
  obtain ⟨hoptimized, hgenerated⟩ := Program.optimized_of_build hbuild
  have hprogram := hoptimized.of_none hnone
  rw [hprogram] at hgenerated
  obtain ⟨hadmitted, hdistinct⟩ := Program.admitted_of_generate hgenerated
  -- The names of temporaries are kept for variables, which hoisting relies on, and
  -- given free again.
  have hreserved : p.markChecked.Admitted s.codegen (Set.range temporaryName) := by
    refine fun f hf => (hadmitted f hf).reserve fun y hy n hn => ?_
    obtain ⟨k, rfl⟩ := hn
    refine hcalls y ?_ k
    rw [← p.nodes_markChecked]
    exact List.mem_flatMap.2 ⟨f, hf, hy⟩
  obtain ⟨progress, last, hrun, hkept, htitles⟩ := optimize_keeps (l := .standard)
    (P := fun q => q.Admitted s.codegen (Set.range temporaryName) ∧ q.titles = p.markChecked.titles)
    (fun k hk q last hq => (hq.1.apply Set.mem_range_self hk last).imp_right fun h => h.trans hq.2)
    s.maxSweeps.toNat ⟨hreserved, rfl⟩ 0
  have hbuilt : p.Optimized { s with level } progress.program := by
    refine ⟨Settings.problem?_level (by rw [hstandard]; rfl) hoptimized.settings,
      hoptimized.checked, progress, last, ?_, rfl⟩
    simp only [hstandard]
    exact hrun
  rw [hbuilt.build]
  have hfree : progress.program.Admitted s.codegen ∅ :=
    fun f hf => (hkept f hf).reserve fun _ _ _ hn => hn.elim
  rcases Program.generate_admitted hfree (hdistinct.congr htitles) with
    ⟨code, hcode⟩ | ⟨e, ⟨g, hg, n, hn, rfl⟩, herror⟩
  · refine .inl ⟨{ program := progress.program, code }, ?_⟩
    have hcode' : progress.program.generate ({ s with level } : Settings).codegen = .ok code :=
      hcode
    rw [hcode']
    rfl
  · have hmem : g.title ∈ p.titles := by
      rw [← p.titles_markChecked, ← htitles]
      exact List.mem_map_of_mem hg
    obtain ⟨f, hf, htitle⟩ := List.mem_map.1 hmem
    obtain ⟨hname, hloc⟩ := Prod.mk.inj htitle
    refine .inr ⟨f, hf, n, hn, ?_⟩
    have herror' : progress.program.generate ({ s with level } : Settings).codegen = .error _ :=
      herror
    rw [herror', hname, hloc]
    rfl

end Builds

/-! ### Nested calls -/

/-- Nested calls of one function: `f(f(… f(1) …))`. -/
def nested (n : Nat) : Expr := n.repeat (fun x => .call {} (.var {} "f") [x] []) (.uint {} 1)

/-- The function that returns its argument, and one that nests calls of it: `k` times
`n` of them. -/
def nesting (k n : Nat) : Program :=
  let word : TypeExpr := .name {} "u24" []
  let function (name : String) (params : List Param) (stmts : List Stmt) : Definition :=
    .func { loc := {}, name, params, ret := some word, body := ⟨{}, stmts⟩, checked := false }
  ⟨[], [function "f" [⟨{}, "x", some word⟩] [.ret {} (some (.var {} "x"))],
    function "main" [] (List.replicate k (.expr {} (nested n)) ++ [.ret {} (some (.uint {} 1))])]⟩

/-- Three nested calls, two of which are operands. -/
theorem build_standard_nesting : (∃ b, (nesting 1 3).build { level := "none" } .assemble = .ok b) ∧
    ((∃ b, (nesting 1 3).build { level := "standard" } .assemble = .ok b) ∨
      ∃ f ∈ (nesting 1 3).functions, ∃ n, fitsImmediate n = false ∧
        (nesting 1 3).build { level := "standard" } .assemble =
          .error ⟨["generate", "func " ++ f.name],
            .codegen ⟨f.func.loc, .frameSize f.name n⟩⟩) := by
  have hbuilds : ((nesting 1 3).build { level := "none" } .assemble).isOk = true := by
    decide +kernel
  have hcalls : ∀ x ∈ (nesting 1 3).nodes, (x.callee?.all fun n => !n.startsWith temporaryStem) =
    true := by decide +kernel
  cases hbuild : (nesting 1 3).build { level := "none" } .assemble with
  | error e =>
    rw [hbuild] at hbuilds
    cases hbuilds
  | ok b =>
    refine ⟨⟨b, rfl⟩, build_standard { level := "none" } "standard" (nesting 1 3) b rfl rfl
      (fun x hx k hcallee => ?_) hbuild⟩
    have hname := hcalls x hx
    rw [hcallee, Option.all_some, startsWith_temporaryName] at hname
    cases hname

end FunRiscv
