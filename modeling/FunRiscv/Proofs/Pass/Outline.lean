import Mathlib
import FunRiscv.Proofs.Pass.Sweeps

/-!
# Outlines of programs

* `Program.outline`: a program without the statements of its functions.
* `outline_mapFunctions`: replacing bodies keeps the outline.
* `Program.eq_of_outline`: a program is its outline with its functions.
* `Program.passes_keep_outline`: the theorem about what passes report and what they may touch.
-/

namespace FunRiscv

/-! ### Outlines -/

/-- A function without its statements. -/
def FuncDef.outline (f : FuncDef) : FuncDef := { f with body := { f.body with stmts := [] } }

mutual

/-- A definition without the statements of its functions. -/
def Definition.outline : Definition → Definition
  | .func d => .func d.outline
  | .type d => .type d
  | .object d => .object { d with funcs := d.funcs.map FuncDef.outline }
  | .alias d => .alias d
  | .module loc name defs => .module loc name (outlines defs)

/-- Definitions without the statements of their functions. -/
def outlines : List Definition → List Definition
  | [] => []
  | d :: ds => d.outline :: outlines ds

end

/-- A program without the statements of its functions: its imports, its definitions, and of each
function all but the body. -/
def Program.outline (p : Program) : Program := { p with defs := outlines p.defs }

/-! ### Replaced bodies -/

section Bodies

variable {m : Type → Type} [Monad m] [LawfulMonad m] (g : List Stmt → m (List Stmt))

theorem outline_mapBody (f : FuncDef) :
    SatisfiesM (fun f' => f'.outline = f.outline) (mapBody g f) :=
  .bind (.of_true fun _ => trivial) fun _ _ => .pure rfl

theorem outline_mapFuncs (fs : List FuncDef) :
    SatisfiesM (fun fs' => fs'.map FuncDef.outline = fs.map FuncDef.outline)
      (mapFuncs (mapBody g) fs) := by
  induction fs with
  | nil => exact .pure rfl
  | cons f fs ih =>
    refine .bind (outline_mapBody g f) fun f' hf => .bind ih fun fs' hfs => .pure ?_
    rw [List.map_cons, List.map_cons, hf, hfs]

mutual

theorem outline_mapDefinition :
    ∀ d : Definition, SatisfiesM (fun d' => d'.outline = d.outline) (d.mapFunctions (mapBody g))
  | .func f =>
    .bind (outline_mapBody g f) fun f' hf =>
      .pure (by rw [Definition.outline, Definition.outline, hf])
  | .type d => .pure rfl
  | .object d =>
    .bind (outline_mapFuncs g d.funcs) fun fs hfs =>
      .pure (by rw [Definition.outline, Definition.outline, hfs])
  | .alias d => .pure rfl
  | .module loc n ds =>
    .bind (outlines_mapDefinitions ds) fun ds' hds =>
      .pure (by rw [Definition.outline, Definition.outline, hds])

theorem outlines_mapDefinitions : ∀ ds : List Definition,
    SatisfiesM (fun ds' => outlines ds' = outlines ds) (mapDefinitions (mapBody g) ds)
  | [] => .pure rfl
  | d :: ds =>
    .bind (outline_mapDefinition d) fun d' hd => .bind (outlines_mapDefinitions ds) fun ds' hds =>
      .pure (by rw [outlines, outlines, hd, hds])

end

/-- Replacing bodies keeps the outline. -/
theorem outline_mapFunctions (p : Program) :
    SatisfiesM (fun q => q.outline = p.outline) (p.mapFunctions (mapBody g)) :=
  .bind (outlines_mapDefinitions g p.defs) fun ds hds =>
    .pure (by rw [Program.outline, Program.outline, hds])

end Bodies

theorem Revised.of_satisfiesM {α : Type} {P : α → Prop} {r : Revised α} (h : SatisfiesM P r) :
    P r.value := by
  obtain ⟨r', rfl⟩ := h
  exact r'.value.2

/-- A pass keeps the outline. -/
theorem StandardPass.outline_apply (k : StandardPass) (p : Program) (last : Int64) :
    (k.apply p last).1.value.outline = p.outline := by
  have hrevised : ∀ g : List Stmt → Revised (List Stmt),
    (p.mapFunctions (mapBody g)).value.outline = p.outline :=
    fun g => Revised.of_satisfiesM (outline_mapFunctions g p)
  cases k with
  | eta =>
    show (p.revise etaRule).value.outline = p.outline
    rw [p.revise_eq]
    exact hrevised (reviseStmts etaRule)
  | float =>
    show (p.revise floatRule).value.outline = p.outline
    rw [p.revise_eq]
    exact hrevised (reviseStmts floatRule)
  | unreachable => exact hrevised trimStmts
  | linearize =>
    have h := SatisfiesM_StateT_eq.1 (outline_mapFunctions Hoisting.stmts p)
      { last := p.lastTemporary last }
    show (p.linearize last).1.value.outline = p.outline
    rw [p.linearize_eq]
    exact Revised.of_satisfiesM h

/-! ### Equal outlines -/

/-- A named function without its statements. -/
def NamedFunction.outline (f : NamedFunction) : NamedFunction := { f with func := f.func.outline }

mutual

theorem Definition.functions_outline : ∀ (d : Definition) (scope : String),
    d.outline.functions scope = (d.functions scope).map NamedFunction.outline
  | .func _, _ | .type _, _ | .alias _, _ => rfl
  | .object d, scope => by
    simp [Definition.outline, Definition.functions, NamedFunction.outline, FuncDef.outline]
  | .module _ n ds, scope => functionsOf_outlines ds (scope ++ n ++ "/")

/-- The functions of an outline are those of the definitions, without their statements. -/
theorem functionsOf_outlines : ∀ (ds : List Definition) (scope : String),
    functionsOf scope (outlines ds) = (functionsOf scope ds).map NamedFunction.outline
  | [], _ => rfl
  | d :: ds, scope => by
    rw [outlines, functionsOf, functionsOf, List.map_append, d.functions_outline,
      functionsOf_outlines ds]

end

theorem ObjectDef.eq_of_outline {d e : ObjectDef} {scope : String}
    (houtline : (Definition.object d).outline = (Definition.object e).outline)
    (hfunctions : (Definition.object d).functions scope = (Definition.object e).functions scope) :
    d = e := by
  obtain ⟨loc, n, ps, fields, fs⟩ := d
  obtain ⟨loc', n', ps', fields', fs'⟩ := e
  simp only [Definition.outline, Definition.object.injEq, ObjectDef.mk.injEq] at houtline
  obtain ⟨rfl, rfl, rfl, rfl, -⟩ := houtline
  have hinj : Function.Injective fun f : FuncDef =>
    (⟨scope ++ n ++ "/" ++ f.name, f⟩ : NamedFunction) :=
    fun f f' h => congrArg NamedFunction.func h
  obtain rfl : fs = fs' := List.map_injective_iff.2 hinj hfunctions
  rfl

mutual

theorem Definition.eq_of_outline :
    ∀ (d : Definition) {e : Definition} {scope : String}, d.outline = e.outline →
      d.functions scope = e.functions scope → d = e
  | .func f, e, scope, houtline, hfunctions => by
    cases e with
    | func f' =>
      simp only [Definition.functions, List.cons.injEq, NamedFunction.mk.injEq] at hfunctions
      rw [hfunctions.1.2]
    | _ => cases houtline
  | .type _, e, _, houtline, _ => by
    cases e <;> cases houtline
    rfl
  | .alias _, e, _, houtline, _ => by
    cases e <;> cases houtline
    rfl
  | .object d, e, scope, houtline, hfunctions => by
    cases e with
    | object e => rw [ObjectDef.eq_of_outline houtline hfunctions]
    | _ => cases houtline
  | .module loc n ds, e, scope, houtline, hfunctions => by
    cases e with
    | module loc' n' es =>
      simp only [Definition.outline, Definition.module.injEq] at houtline
      obtain ⟨rfl, rfl, hds⟩ := houtline
      rw [eq_of_outlines ds hds hfunctions]
    | _ => cases houtline

/-- Definitions are determined by their outlines and their functions. -/
theorem eq_of_outlines :
    ∀ (ds : List Definition) {es : List Definition} {scope : String}, outlines ds = outlines es →
      functionsOf scope ds = functionsOf scope es → ds = es
  | [], es, _, houtlines, _ => by
    cases es with
    | nil => rfl
    | cons e es => cases houtlines
  | d :: ds, es, scope, houtlines, hfunctions => by
    cases es with
    | nil => cases houtlines
    | cons e es =>
      simp only [outlines, List.cons.injEq] at houtlines
      obtain ⟨hd, hds⟩ := houtlines
      -- Equal outlines have equally many functions, so the functions of the heads are equal, and so
      -- are those of the tails.
      have hlength : (d.functions scope).length = (e.functions scope).length := by
        have h := congrArg (fun x => (Definition.functions scope x).length) hd
        simpa [Definition.functions_outline] using h
      obtain ⟨hhead, htail⟩ := List.append_inj hfunctions hlength
      rw [d.eq_of_outline hd hhead, eq_of_outlines ds hds htail]

end

/-- A program is determined by its outline and its functions. -/
theorem Program.eq_of_outline {p q : Program} (houtline : p.outline = q.outline)
    (hfunctions : p.functions = q.functions) : p = q := by
  obtain ⟨imports, defs⟩ := p
  obtain ⟨imports', defs'⟩ := q
  simp only [Program.outline, Program.mk.injEq] at houtline
  rw [houtline.1, eq_of_outlines _ houtline.2 hfunctions]

/-! ### What passes report and touch -/

/-- A pass reports no modification just when it gives the program that it was given. -/
theorem StandardPass.unchanged_iff (k : StandardPass) (p : Program) (last : Int64) :
    (k.apply p last).1.changed = false ↔ (k.apply p last).1.value = p := by
  have hresult := result_apply k p last
  constructor
  · intro h
    exact Program.eq_of_outline (k.outline_apply p last) (hresult.same h)
  · intro h
    -- The bodies that a pass gives are settled, so those of an equal program are, and of settled
    -- bodies nothing is changed.
    have hsettled := hresult.settled
    rw [h] at hsettled
    exact unchanged_of_settled hsettled last

/-- **Passes report changes exactly and touch only bodies.** A pass succeeds on every program
and gives a program back. It claims a modification just when that is another program, and the
outline stays: the imports, the definitions in their order at every depth, and of every function
all but its statements. Optimization succeeds at every level, whatever the bound on sweeps, and
keeps the outline too. -/
theorem Program.passes_keep_outline (p : Program) (last : Int64) :
    (∀ k : StandardPass, ∃ r q last', (ExceptT.run (k.pass.run p)).run last = (.ok r, last') ∧
      r.outcome.program? p = some q ∧ (r.modified = false ↔ q = p) ∧ q.outline = p.outline) ∧
    ∀ (l : Level) (bound : Nat),
      ∃ q last', (ExceptT.run (optimize l.passList bound p)).run last = (.ok q, last') ∧
        q.program.outline = p.outline := by
  constructor
  · intro k
    have hiff := k.unchanged_iff p last
    rw [run_pass, Revised.result]
    cases hchanged : (k.apply p last).1.changed with
    | true =>
      rw [hchanged] at hiff
      exact ⟨_, (k.apply p last).1.value, _, rfl, rfl, hiff, k.outline_apply p last⟩
    | false => exact ⟨_, p, _, rfl, rfl, iff_of_true rfl rfl, rfl⟩
  · intro l bound
    exact optimize_keeps (P := fun q => q.outline = p.outline)
      (fun k _ q n hq => (k.outline_apply q n).trans hq) bound rfl last

end FunRiscv
