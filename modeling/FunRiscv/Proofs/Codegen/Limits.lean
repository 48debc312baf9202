import Mathlib
import FunRiscv.Pass.Linearize
import FunRiscv.Proofs.Alloc.InTurn
import FunRiscv.Proofs.Codegen.Definedness

/-!
# What fits into a frame

* `handed_expr`, `handed_stmts`: lowering hands out at most two registers and words
  for each expression.
* `Stmt.targets_after`: variables that statements assign are in scope after them.
* `Compiles.variables_le`: each variable that a function assigns has a word of its own, so there is
  a limit on their number.
* `generateFunctions_inTurn`: functions that use registers in turn need words for variables only.
-/

namespace FunRiscv

open Lowering

/-! ### At most -/

/-- How many registers and words of the frame were handed out. -/
def Supply.handed (s : Supply) : Nat := s.regs + s.slots

/-- The statement of `handed_expr` for one expression. -/
def HandsOut (x : Expr) : Prop :=
  ∀ (c : LowerContext) (slots : Slots) (depth : Nat) (s : Supply) (code : Listing) (r : Reg)
    (s' : Supply),
    Gives (lowerExpr c slots depth x) s (code, r) s' → s'.handed + 1 ≤ s.handed + 2 * x.nodeCount

section Most

variable {c : LowerContext} {slots slots' : Slots} {depth : Nat} {s s' : Supply} {code : Listing}

theorem handed_args {xs : List Expr} (ih : ∀ x ∈ xs, HandsOut x) {rs : List Reg}
    (h : Gives (lowerArgs c slots depth xs) s (code, rs) s') :
    s'.handed ≤ s.handed + 2 * exprsNodeCount xs := by
  induction xs generalizing s code rs with
  | nil =>
    obtain ⟨-, -, rfl⟩ := gives_args_nil h
    exact Nat.le_add_right _ _
  | cons x xs ihxs =>
    obtain ⟨xc, xr, s₁, rest, rs', hx, hrest, -, -⟩ := gives_args_cons h
    have hfirst := ih x List.mem_cons_self c slots depth s xc xr s₁ hx
    have hothers := ihxs (fun y hy => ih y (List.mem_cons_of_mem x hy)) hrest
    rw [exprsNodeCount]
    omega

theorem handed_pattern {x : Reg} {next : String} {p : Pattern} {inner : Slots}
    (ih : ∀ v ∈ p.parts, HandsOut v)
    (h : Gives (lowerPattern c slots depth x next p) s (code, inner) s') :
    s'.handed ≤ s.handed + 2 * p.nodeCount + 1 := by
  rcases gives_pattern h with ⟨loc, v, vc, vr, rfl, hv, -, -⟩ | ⟨loc, n, rfl, rfl, -, -⟩ | ⟨loc,
    rfl, rfl, -, -⟩
  · have := ih v (by simp [Pattern.parts]) c _ _ s vc vr s' hv
    rw [Pattern.nodeCount]
    omega
  · simp [Supply.handed, Pattern.nodeCount]
    omega
  · omega

theorem handed_cases {x d : Reg} {l : String} {cs : List Case}
    (ih : ∀ k ∈ cs, ∀ v ∈ k.parts, HandsOut v)
    (h : Gives (lowerCases c slots depth x d l cs) s code s') :
    s'.handed ≤ s.handed + 2 * casesNodeCount cs := by
  induction cs generalizing s code with
  | nil =>
    obtain ⟨-, rfl⟩ := gives_cases_nil h
    exact Nat.le_add_right _ _
  | cons k cs ihcs =>
    obtain ⟨loc, p, b⟩ := k
    obtain ⟨test, inner, s₁, bc, br, s₂, others, hp, hb, ho, -⟩ := gives_cases_cons h
    have hparts := ih (.mk loc p b) List.mem_cons_self
    have hpattern := handed_pattern (p := p) (fun v hv => hparts v (List.mem_append_left _ hv)) hp
    have hbody := hparts b (List.mem_append_right _ List.mem_cons_self) c inner depth s₁ bc br s₂ hb
    have hothers := ihcs (fun k hk => ih k (List.mem_cons_of_mem _ hk)) ho
    simp only [Supply.handed, casesNodeCount] at hpattern hbody hothers ⊢
    omega

/-- An expression takes fewer than two registers and words for each expression in it. -/
theorem handed_expr (x : Expr) : HandsOut x := by
  induction x using Expr.induction with
  | step x ih =>
    intro c slots depth s code r s' h
    rcases shape_of_gives h with
      hlit | ⟨loc, n, rfl⟩ | ⟨loc, op, l, y, rfl⟩ | ⟨loc, f, args, named, rfl⟩ | ⟨loc, y, t, e,
        rfl⟩ | ⟨loc, y, cs, rfl⟩
    · obtain ⟨v, hv⟩ := Option.isSome_iff_exists.1 hlit
      obtain ⟨-, -, rfl⟩ := gives_literal hv h
      have hcount : 1 ≤ x.nodeCount := by cases x <;> simp [Expr.nodeCount]
      simp only [Supply.handed]
      omega
    · obtain ⟨-, rfl, -⟩ := gives_var h
      simp only [Supply.handed, Expr.nodeCount]
      omega
    · obtain ⟨-, lc, lr, s₁, yc, yr, s₂, oc, hl, hy, ho, -⟩ := gives_binOp h
      have hleft := ih l (by simp [Expr.parts]) _ _ _ _ _ _ _ hl
      have hright := ih y (by simp [Expr.parts]) _ _ _ _ _ _ _ hy
      simp only [Supply.handed] at hleft hright ⊢
      rw [Expr.nodeCount]
      rcases gives_operator ho with ⟨-, ⟨-, rfl, rfl⟩ | ⟨-, rfl, rfl⟩⟩ <;> dsimp only <;> omega
    · obtain ⟨-, -, vloc, n, l, ac, rs, s₁, rfl, -, -, ha, rfl, rfl, rfl⟩ := gives_call h
      have hargs : s₁.handed ≤ s.handed + 2 * exprsNodeCount args :=
        handed_args (fun x hx => ih x hx) ha
      simp only [Supply.handed, Expr.nodeCount] at hargs ⊢
      omega
    · obtain ⟨yc, yr, s₁, tc, tr, s₂, ec, er, hy, ht, he, -, -⟩ := gives_ifElse h
      have hcond := ih y (by simp [Expr.parts]) _ _ _ _ _ _ _ hy
      have hthen := ih t (by simp [Expr.parts]) _ _ _ _ _ _ _ ht
      have helse := ih e (by simp [Expr.parts]) _ _ _ _ _ _ _ he
      simp only [Supply.handed, afterChoice, Expr.nodeCount] at hcond hthen helse ⊢
      omega
    · obtain ⟨yc, yr, s₁, body, hy, hbody, -, -⟩ := gives_matchOn h
      have hscrutinee := ih y (by simp [Expr.parts]) _ _ _ _ _ _ _ hy
      have hcases :=
        handed_cases
          (fun k hk v hv => ih v (List.mem_cons_of_mem y (List.mem_flatMap.2 ⟨k, hk, hv⟩))) hbody
      simp only [Supply.handed, Expr.nodeCount] at hscrutinee hcases ⊢
      omega

theorem handed_store {n : String} {x : Expr}
    (h : Gives (lowerStore c slots depth n x) s (code, slots') s') :
    s'.handed ≤ s.handed + 2 * x.nodeCount := by
  obtain ⟨xc, xr, s₁, o, hx, ho, -⟩ := gives_store h
  have hvalue := handed_expr x _ _ _ _ _ _ _ hx
  rcases gives_slotOf ho with ⟨-, -, rfl⟩ | ⟨-, -, -, rfl⟩ <;> simp only [Supply.handed] at hvalue ⊢
    <;> omega

theorem handed_return {last : Bool} {x : Option Expr} (loc : Location)
    (h : Gives (lowerReturn c slots depth last x) s code s') :
    s'.handed ≤ s.handed + 2 * (Stmt.ret loc x).nodeCount := by
  rcases gives_return h with ⟨rfl, rfl, -⟩ | ⟨y, xc, xr, rfl, hy, -⟩
  · exact Nat.le_add_right _ _
  · have := handed_expr y _ _ _ _ _ _ _ hy
    rw [Stmt.nodeCount]
    omega

/-- The statement of `handed_stmt` for one statement. -/
def HandsOutStmt (t : Stmt) : Prop :=
  ∀ (c : LowerContext) (slots : Slots) (depth : Nat) (last : Bool) (s : Supply) (code : Listing)
    (slots' : Slots) (s' : Supply),
    c.comments = false → Gives (lowerStmt c slots depth last t) s (code, slots') s' →
      s'.handed ≤ s.handed + 2 * t.nodeCount

theorem handed_stmts_of {top : Bool} {ts : List Stmt} (ih : ∀ t ∈ ts, HandsOutStmt t)
    (hc : c.comments = false) (h : Gives (lowerStmts c slots depth top ts) s (code, slots') s') :
    s'.handed ≤ s.handed + 2 * stmtsNodeCount ts := by
  induction ts generalizing s slots code with
  | nil =>
    obtain ⟨-, -, rfl⟩ := gives_stmts_nil h
    exact Nat.le_add_right _ _
  | cons t ts ihts =>
    obtain ⟨tc, inner, s₁, rest, ht, hrest, -⟩ := gives_stmts_cons h
    have hfirst := ih t List.mem_cons_self _ _ _ _ _ _ _ _ hc ht
    have hothers := ihts (fun u hu => ih u (List.mem_cons_of_mem t hu)) hrest
    rw [stmtsNodeCount]
    omega

theorem handed_stmt (t : Stmt) : HandsOutStmt t := by
  induction t using Stmt.induction with
  | step t ih =>
    intro c slots depth last s code slots' s' hc h
    cases t with
    | ret loc x =>
      obtain ⟨-, h⟩ := gives_ret hc h
      exact handed_return loc h
    | assign loc n type x =>
      rw [Stmt.nodeCount]
      exact handed_store (gives_assign hc h)
    | use loc n x =>
      rw [Stmt.nodeCount]
      exact handed_store (gives_use hc h)
    | ifThen loc x tl t =>
      obtain ⟨xc, xr, s₁, tc, hx, ht, -⟩ := gives_ifThen hc h
      have hcond := handed_expr x _ _ _ _ _ _ _ hx
      have hthen : s'.handed ≤ _ + 2 * stmtsNodeCount t := handed_stmts_of ih hc ht
      simp only [Supply.handed, afterChoice, Stmt.nodeCount] at hcond hthen ⊢
      omega
    | ifElse loc x tl t el e =>
      obtain ⟨xc, xr, s₁, tc, inner, s₂, ec, hx, ht, he, -⟩ := gives_ifElseStmt hc h
      have hcond := handed_expr x _ _ _ _ _ _ _ hx
      have hthen := handed_stmts_of (fun u hu => ih u (List.mem_append_left e hu)) hc ht
      have helse := handed_stmts_of (fun u hu => ih u (List.mem_append_right t hu)) hc he
      simp only [Supply.handed, afterChoice, Stmt.nodeCount] at hcond hthen helse ⊢
      omega
    | expr loc x =>
      obtain ⟨-, xr, hx⟩ := gives_exprStmt hc h
      have := handed_expr x _ _ _ _ _ _ _ hx
      rw [Stmt.nodeCount]
      omega
    | missing => exact absurd h not_gives_missing

/-- Statements take at most two registers and words for each expression in them. -/
theorem handed_stmts {top : Bool} {ts : List Stmt} (hc : c.comments = false)
    (h : Gives (lowerStmts c slots depth top ts) s (code, slots') s') :
    s'.handed ≤ s.handed + 2 * stmtsNodeCount ts :=
  handed_stmts_of (fun t _ => handed_stmt t) hc h

theorem handed_params {ps : List Param} {i : Nat}
    (h : Gives (lowerParams i slots ps) s (code, slots') s') :
    s'.handed = s.handed + ps.length := by
  induction ps generalizing i slots s code with
  | nil =>
    obtain ⟨-, -, rfl⟩ := gives_params_nil h
    rfl
  | cons p ps ih =>
    obtain ⟨rest, hrest, -⟩ := gives_params_cons h
    rw [ih hrest, List.length_cons]
    simp only [Supply.handed]
    omega

end Most

/-! ### At least -/

section Least

mutual

theorem Stmt.subset_after : ∀ (s : Stmt) (vars : Set String), vars ⊆ s.after vars
  | .assign _ n _ _, vars | .use _ n _, vars => by
    rw [Stmt.after]
    exact Set.subset_insert n vars
  | .ifThen _ _ _ t, vars => by
    rw [Stmt.after]
    exact subset_stmtsAfter t vars
  | .ifElse _ _ _ t _ e, vars => by
    rw [Stmt.after]
    exact (subset_stmtsAfter t vars).trans (subset_stmtsAfter e _)
  | .ret .., vars | .expr .., vars | .missing, vars => by
    rw [Stmt.after]

theorem subset_stmtsAfter : ∀ (ss : List Stmt) (vars : Set String), vars ⊆ stmtsAfter vars ss
  | [], vars => by rw [stmtsAfter]
  | s :: ss, vars => by
    rw [stmtsAfter]
    exact (s.subset_after vars).trans (subset_stmtsAfter ss _)

end

mutual

theorem Stmt.targets_after : ∀ (s : Stmt) (vars : Set String), ∀ n ∈ s.targets, n ∈ s.after vars
  | .assign _ m _ _, vars, n, hn => by
    rw [Stmt.after]
    exact .inl (by simpa [Stmt.targets] using hn)
  | .ifThen _ _ _ t, vars, n, hn => by
    rw [Stmt.after]
    exact targets_stmtsAfter t vars n (by simpa [Stmt.targets] using hn)
  | .ifElse _ _ _ t _ e, vars, n, hn => by
    rw [Stmt.after]
    rw [Stmt.targets, List.mem_append] at hn
    exact hn.elim (fun hn => subset_stmtsAfter e _ (targets_stmtsAfter t vars n hn))
      (targets_stmtsAfter e _ n)
  | .use .., _, _, hn | .ret .., _, _, hn | .expr .., _, _, hn
  | .missing, _, _, hn => by simp [Stmt.targets] at hn

/-- The variables that statements assign are in scope after them. -/
theorem targets_stmtsAfter :
    ∀ (ss : List Stmt) (vars : Set String), ∀ n ∈ stmtsTargets ss, n ∈ stmtsAfter vars ss
  | [], _, _, hn => by simp [stmtsTargets] at hn
  | s :: ss, vars, n, hn => by
    rw [stmtsTargets, List.mem_append] at hn
    rw [stmtsAfter]
    exact hn.elim (fun hn => subset_stmtsAfter ss _ (s.targets_after vars n hn))
      (targets_stmtsAfter ss _ n)

end

/-- Variables in scope have words of their own. -/
theorem Lowering.Known.length_le {slots : Slots} {n : Nat} (h : Known slots n) {names : List String}
    (hnodup : names.Nodup) (hnames : ∀ x ∈ names, x ∈ slots.words) : names.length ≤ n := by
  obtain ⟨number, hlookup, hlt, hinj⟩ := h
  have hnumber : ∀ x ∈ names, ∃ k, number x = some k := by
    intro x hx
    have hword := hnames x hx
    rw [Slots.mem_words, hlookup, Option.isSome_map, Option.isSome_iff_exists] at hword
    exact hword
  have hsubset : names.map (fun x => (number x).getD 0) ⊆ List.range n := by
    intro k hk
    obtain ⟨x, hx, rfl⟩ := List.mem_map.1 hk
    obtain ⟨k, hk⟩ := hnumber x hx
    rw [hk]
    exact List.mem_range.2 (hlt x k hk)
  have hdistinct : (names.map fun x => (number x).getD 0).Nodup := by
    refine hnodup.map_on fun x hx y hy heq => ?_
    obtain ⟨k, hk⟩ := hnumber x hx
    obtain ⟨l, hl⟩ := hnumber y hy
    rw [hk, hl, Option.getD_some, Option.getD_some] at heq
    exact hinj x y k hk (heq ▸ hl)
  have hlength := (List.subperm_of_subset hdistinct hsubset).length_le
  rwa [List.length_map, List.length_range] at hlength

end Least

/-! ### Functions -/

section Functions

variable {opts : CodegenOptions} {functions : List String} {labels : Nat} {f : NamedFunction}
  {lf : LoweredFunction} {s : Supply}

/-- What is handed out for a function: at most two registers and words for each expression, beside
the words of the parameters, and at least a word for each variable that it assigns. -/
theorem handed_function (hcomments : opts.comments = false)
    (h : Gives (lowerFunction opts functions f) { labels } lf s) :
    s.handed ≤ Reg.argCount + 2 * stmtsNodeCount f.func.body.stmts ∧
      ∀ names : List String, names.Nodup → (∀ n ∈ names, n ∈ stmtsTargets f.func.body.stmts) →
        names.length ≤ s.slots := by
  obtain ⟨hcount, -, pc, inner, s₁, bc, hp, hb, -⟩ := gives_function h
  obtain ⟨sc, outer, hs, -⟩ := gives_body hb
  obtain ⟨-, hknown, -⟩ :=
    shape_params (E := fun _ => False) (s := started labels) (by omega) known_nil hp
  constructor
  · have hparams := handed_params hp
    have hbody := handed_stmts (c := contextOf opts functions f (exitLabel { labels })) hcomments hs
    have hstart : (started labels).handed = 0 := rfl
    change s₁.handed = (started labels).handed + _ at hparams
    omega
  · intro names hnodup hnames
    have shape :=
      shape_stmts (c := contextOf opts functions f (exitLabel { labels })) hcomments hknown hs
    have hwords := ((lowerStmts_decides f.func.body.stmts inner 1 true).only _ _ _ hs).2
    refine shape.known.length_le hnodup fun n hn => ?_
    have hafter := targets_stmtsAfter f.func.body.stmts inner.words n (hnames n hn)
    rwa [← hwords] at hafter

/-- **The number of variables is limited.** No function that assigns more than 506 variables can be
compiled, unless it is so large that the size of its frame may run over. -/
theorem Compiles.variables_le {a : Allocation} (h : Compiles opts functions labels f lf s a)
    (hcomments : opts.comments = false) (hcount : stmtsNodeCount f.func.body.stmts < 2 ^ 25)
    {names : List String} (hnodup : names.Nodup)
    (hnames : ∀ n ∈ names, n ∈ stmtsTargets f.func.body.stmts) : names.length ≤ 506 := by
  obtain ⟨hmost, hleast⟩ := handed_function hcomments h.lowered
  have hslots := hleast names hnodup hnames
  unfold Supply.handed Reg.argCount at hmost
  have hfits := h.frame_fits hcomments (by omega) (by omega)
  have hbytes := (StackFrame.bytes_le_total _).trans (StackFrame.total_le hfits)
  have hframe : slotBase + slotSize * s.slots ≤ (frameOf s a).bytes :=
    (Nat.le_add_right _ _).trans (Nat.le_add_right _ _)
  unfold slotBase slotSize at hframe
  omega

/-- A function that uses registers in turn needs a frame for its variables only. -/
theorem generateFunction_inTurn {n : Nat}
    (h : Gives (lowerFunction opts functions f) { labels } lf s) (hturn : lf.code.inTurn n = true)
    (hfits : fitsImmediate (StackFrame.size ⟨s.slots, 0, []⟩) = true) :
    ∃ code, generateFunction opts functions labels f = .ok (code, s.labels) := by
  obtain ⟨a, ha, hspills, hsaved⟩ :=
    allocate_inTurn Pools.standard_sound (by decide) (StackFrame.spillBase s.slots)
      (writesFirst_function h) hturn
  have hrun : (lowerFunction opts functions f).run { labels } = .ok (lf, s) := h
  unfold generateFunction
  rw [hrun]
  simp only [bind, Except.bind, ha, hspills, hsaved, hfits]
  exact ⟨_, rfl⟩

/-- Whether functions use registers in turn and a frame has room for the variables of each. -/
def functionsInTurn (opts : CodegenOptions) (functions : List String) :
    Nat → List NamedFunction → Bool
  | _, [] => true
  | labels, f :: fs =>
    match (lowerFunction opts functions f).run { labels } with
    | .error _ => false
    | .ok (lf, s) =>
      lf.code.inTurn 0 && fitsImmediate (StackFrame.size ⟨s.slots, 0, []⟩) && functionsInTurn opts
        functions s.labels fs

/-- **Functions that use registers in turn are compiled**, if a frame has room for the
variables of each. -/
theorem generateFunctions_inTurn {fs : List NamedFunction}
    (h : functionsInTurn opts functions labels fs = true) :
    ∃ code, generateFunctions opts functions labels fs = .ok code := by
  induction fs generalizing labels with
  | nil => exact ⟨[], rfl⟩
  | cons f fs ih =>
    rw [functionsInTurn] at h
    split at h
    · cases h
    · next lf s hrun =>
      simp only [Bool.and_eq_true] at h
      obtain ⟨⟨hturn, hfits⟩, hothers⟩ := h
      obtain ⟨code, hcode⟩ := generateFunction_inTurn hrun hturn hfits
      obtain ⟨rest, hrest⟩ := ih hothers
      refine ⟨code ++ rest, ?_⟩
      rw [generateFunctions, hcode]
      show (generateFunctions opts functions s.labels fs >>= fun rest => pure (code ++ rest)) = _
      rw [hrest]
      rfl

end Functions

end FunRiscv
