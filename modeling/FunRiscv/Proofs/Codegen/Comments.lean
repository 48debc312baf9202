import Mathlib
import FunRiscv.Proofs.Alloc.Renumbering
import FunRiscv.Proofs.Codegen.Definedness

/-!
# Code with and without comments

Whether statements are shown in comments makes no difference to the other lines. Each part of code
generation is compared with itself without comments: the results are the same up to comments, and so
are the errors, unless a statement cannot be described.

* `Lowering.Silences`: one action does the same as another up to comments.
* `Lowering.lowerExpr_silences`, `Lowering.lowerStmts_silences`: lowering with and without comments.
* `generateFunction_silences`: the code of a function. Its registers are the same, by
  `allocate_bare`.
* `Program.generate_silences`: the theorem about the code of a program.
-/

namespace FunRiscv

/-- The same context, in which statements are not shown in comments. -/
def LowerContext.silent (c : LowerContext) : LowerContext := { c with comments := false }

/-! ### Outcomes -/

/-- The second outcome is the first one under a function. They have the same error, or the error of
the first one is excused. -/
def Silenced {ε α β : Type} (excused : ε → Prop) (f : α → β) (r : Except ε α) (r' : Except ε β) :
    Prop :=
  match r with
  | .ok a => r' = .ok (f a)
  | .error e => excused e ∨ r' = .error e

section Outcomes

variable {ε α β γ δ : Type} {excused : ε → Prop} {f : α → β} {g : γ → δ} {r : Except ε α}
  {r' : Except ε β}

theorem silenced_ok {a : α} {b : β} (h : f a = b) : Silenced excused f (.ok a) (.ok b) :=
  congrArg Except.ok h.symm

theorem Silenced.bind {k : α → Except ε γ} {l : β → Except ε δ} (h : Silenced excused f r r')
    (hk : ∀ a, Silenced excused g (k a) (l (f a))) : Silenced excused g (r >>= k) (r' >>= l) := by
  cases r with
  | ok a =>
    obtain rfl : r' = .ok (f a) := h
    exact hk a
  | error e =>
    refine h.imp_right fun hr => ?_
    rw [hr]
    rfl

theorem Silenced.inContext (h : Silenced excused f r r') (label : String) :
    Silenced (fun e : Traced ε => excused e.cause) f (inContext label (r.mapError Traced.ofCause))
      (FunRiscv.inContext label (r'.mapError Traced.ofCause)) := by
  cases r with
  | ok a =>
    obtain rfl : r' = .ok (f a) := h
    rfl
  | error e =>
    refine h.imp_right fun hr => ?_
    rw [hr]
    rfl

end Outcomes

/-- A statement cannot be described. -/
def CodegenError.undescribed (e : CodegenError) : Prop := e.cause = .undescribable

namespace Lowering

/-! ### Actions -/

/-- The second action gives what the first one gives, under a function, unless the first one cannot
describe a statement. -/
def Silences {α β : Type} (f : α → β) (m : Lowering α) (n : Lowering β) : Prop :=
  ∀ s, Silenced CodegenError.undescribed (Prod.map f id) (m.run s) (n.run s)

section Actions

variable {α β γ δ : Type} {f : α → β} {g : γ → δ} {m : Lowering α} {n : Lowering β}

theorem silences_pure {a : α} {b : β} (h : f a = b) : Silences f (pure a) (pure b) :=
  fun _ => silenced_ok (Prod.ext h rfl)

theorem silences_fail (loc : Location) (cause : CodegenCause) :
    Silences f (fail loc cause) (fail loc cause) := fun _ => .inr rfl

theorem silences_undescribable (loc : Location) : Silences f (fail loc .undescribable) n :=
  fun _ => .inl rfl

theorem silences_refl (m : Lowering α) : Silences id m m := fun s => by
  cases m.run s with
  | ok r => rfl
  | error e => exact .inr rfl

theorem Silences.bind {k : α → Lowering γ} {l : β → Lowering δ} (h : Silences f m n)
    (hk : ∀ a, Silences g (k a) (l (f a))) : Silences g (m >>= k) (n >>= l) := by
  intro s
  rw [StateT.run_bind, StateT.run_bind]
  exact (h s).bind fun r => hk r.1 r.2

/-- The first action is the same on both sides. -/
theorem silences_bind {k : α → Lowering γ} {l : α → Lowering δ} (m : Lowering α)
    (hk : ∀ a, Silences g (k a) (l a)) : Silences g (m >>= k) (m >>= l) := (silences_refl m).bind hk

end Actions

/-- Code without its comments, beside something else. -/
def bareCode {α : Type} (r : Listing × α) : Listing × α := (r.1.bare, r.2)

/-! ### Expressions -/

section Expressions

variable {c : LowerContext}

theorem silences_constant (n : Int32) : Silences bareCode (constant n) (constant n) :=
  silences_bind newReg fun _ => silences_pure rfl

theorem silences_loadVariable (slots : Slots) (loc : Location) (n : String) :
    Silences bareCode (loadVariable c slots loc n) (loadVariable c.silent slots loc n) := by
  refine silences_bind newReg fun r => ?_
  split
  · exact silences_pure rfl
  · rw [show c.silent.functionLabel? n = c.functionLabel? n from rfl]
    split
    · exact silences_pure rfl
    · exact silences_fail loc _

theorem bare_operatorCode (op : Operator) (d l r t : Reg) :
    Listing.bare (operatorCode op d l r t) = operatorCode op d l r t := by
  cases op <;> rfl

theorem silences_operator (op : Operator) (l r : Reg) :
    Silences bareCode (operator op l r) (operator op l r) := by
  have hcode : ∀ d t, Silences bareCode (pure (operatorCode op d l r t, d))
    (pure (operatorCode op d l r t, d)) :=
    fun d t => silences_pure (by simp only [bareCode, bare_operatorCode])
  refine silences_bind newReg fun d => ?_
  dsimp only
  split
  · exact silences_bind newReg (hcode d)
  · exact silences_bind (pure d) (hcode d)

theorem bare_passArgs (i : Nat) (rs : List Reg) : Listing.bare (passArgs i rs) = passArgs i rs := by
  induction rs generalizing i with
  | nil => rfl
  | cons r rs ih => rw [passArgs, Listing.bare_cons_of_line rfl, ih]

mutual

/-- The code of an expression has no comments of its own. -/
theorem lowerExpr_silences : ∀ (x : Expr) (slots : Slots) (depth : Nat),
    Silences bareCode (lowerExpr c slots depth x) (lowerExpr c.silent slots depth x)
  | .uint loc v, slots, depth => by
    rw [lowerExpr, lowerExpr]
    refine silences_bind _ fun _ => ?_
    split
    · exact silences_fail loc _
    · exact silences_constant _
  | .int loc v, slots, depth => by
    rw [lowerExpr, lowerExpr]
    refine silences_bind _ fun _ => ?_
    split
    · exact silences_fail loc _
    · exact silences_constant v
  | .bool _ _, slots, depth | .eraser _, slots, depth => by
    rw [lowerExpr, lowerExpr]
    exact silences_bind _ fun _ => silences_constant _
  | .var loc n, slots, depth => by
    rw [lowerExpr, lowerExpr]
    exact silences_bind _ fun _ => silences_loadVariable slots loc n
  | .binOp loc op l r, slots, depth => by
    rw [lowerExpr, lowerExpr]
    refine silences_bind _ fun _ => ?_
    split
    · exact silences_fail loc _
    · exact (lowerExpr_silences l slots (depth + 1)).bind fun _ =>
        (lowerExpr_silences r slots (depth + 1)).bind fun _ =>
        (silences_operator op _ _).bind fun _ => silences_pure (by simp [bareCode])
  | .call loc f as ns, slots, depth => by
    rw [lowerExpr, lowerExpr]
    exact silences_bind _ fun _ =>
      silences_bind (callee c slots loc f as.length (!ns.isEmpty)) fun _ =>
      (lowerArgs_silences as slots (depth + 1)).bind fun _ => silences_bind newReg fun _ =>
        silences_pure (by simp [bareCode, bare_passArgs, Listing.bare_cons, Instr.isComment])
  | .ifElse loc x t e, slots, depth => by
    rw [lowerExpr, lowerExpr]
    refine silences_bind _ fun _ => (lowerExpr_silences x slots (depth + 1)).bind fun _ => ?_
    refine silences_bind newReg fun _ =>
      silences_bind (newLabel _) fun _ => silences_bind (newLabel _) fun _ => ?_
    refine silences_bind (newLabel _) fun _ =>
      (lowerExpr_silences t slots (depth + 1)).bind fun _ => ?_
    exact (lowerExpr_silences e slots (depth + 1)).bind fun _ =>
      silences_pure (by simp [bareCode, choose, Listing.bare_cons, Instr.isComment])
  | .matchOn loc x cs, slots, depth => by
    rw [lowerExpr, lowerExpr]
    refine silences_bind _ fun _ => (lowerExpr_silences x slots (depth + 1)).bind fun _ => ?_
    refine silences_bind newReg fun _ => silences_bind (newLabel _) fun _ => ?_
    exact (lowerCases_silences cs slots (depth + 1) _ _ _).bind fun _ =>
      silences_pure (by simp [bareCode, Listing.bare_cons, Instr.isComment])
  | .float loc _, slots, depth | .str loc _, slots, depth | .tuple loc _, slots, depth
  | .list loc _, slots, depth
  | .lambda loc _ _, slots, depth | .access loc _ _, slots, depth | .missing, slots, depth => by
    rw [lowerExpr, lowerExpr]
    exact silences_bind _ fun _ => silences_fail _ _

theorem lowerArgs_silences : ∀ (xs : List Expr) (slots : Slots) (depth : Nat),
    Silences bareCode (lowerArgs c slots depth xs) (lowerArgs c.silent slots depth xs)
  | [], slots, depth => by
    rw [lowerArgs, lowerArgs]
    exact silences_pure rfl
  | x :: xs, slots, depth => by
    rw [lowerArgs, lowerArgs]
    exact (lowerExpr_silences x slots depth).bind fun _ =>
      (lowerArgs_silences xs slots depth).bind fun _ =>
      silences_pure (by simp [bareCode])

theorem lowerCases_silences :
    ∀ (cs : List Case) (slots : Slots) (depth : Nat) (x d : Reg) (l : String),
      Silences Listing.bare (lowerCases c slots depth x d l cs)
        (lowerCases c.silent slots depth x d l cs)
  | [], slots, depth, _, _, _ => by
    rw [lowerCases, lowerCases]
    exact silences_pure rfl
  | .mk _ p b :: cs, slots, depth, x, d, l => by
    rw [lowerCases, lowerCases]
    refine silences_bind (newLabel _) fun _ =>
      (lowerPattern_silences p slots depth x _).bind fun r => ?_
    exact (lowerExpr_silences b r.2 depth).bind fun _ =>
      (lowerCases_silences cs slots depth x d l).bind fun _ =>
      silences_pure (by simp [Listing.bare_cons, Instr.isComment])

theorem lowerPattern_silences :
    ∀ (p : Pattern) (slots : Slots) (depth : Nat) (x : Reg) (next : String),
      Silences bareCode (lowerPattern c slots depth x next p)
        (lowerPattern c.silent slots depth x next p)
  | .lit _ v, slots, depth, _, _ => by
    rw [lowerPattern, lowerPattern]
    exact (lowerExpr_silences v slots depth).bind fun _ =>
      silences_pure (by simp [bareCode, Listing.bare_cons, Instr.isComment])
  | .var _ n, slots, _, _, _ => by
    rw [lowerPattern, lowerPattern]
    exact silences_bind newSlot fun _ => silences_pure rfl
  | .wild _, _, _, _, _ => by
    rw [lowerPattern, lowerPattern]
    exact silences_pure rfl
  | .cons .., _, _, _, _ | .tuple .., _, _, _, _ | .missing, _, _, _, _ => by
    rw [lowerPattern, lowerPattern]
    exact silences_fail _ _

end

/-! ### Statements -/

/-- The comment on a statement is the only difference. -/
theorem silences_note {α β : Type} {f : α → β} {st : Stmt} {k : Listing → Lowering α}
    {l : Listing → Lowering β} (h : st ≠ .missing)
    (hk : ∀ note, Listing.bare note = [] → Silences f (k note) (l [])) :
    Silences f (if c.comments then describe st >>= fun i => pure [i] >>= k else pure [] >>= k)
      (if c.silent.comments then describe st >>= fun i => pure [i] >>= l else pure [] >>= l) := by
  rw [show c.silent.comments = false from rfl, if_neg Bool.false_ne_true]
  simp only [pure_bind]
  split
  · unfold describe
    split
    · exact absurd rfl h
    · split
      · rw [pure_bind]
        exact hk _ rfl
      · exact silences_undescribable _
  · exact hk [] rfl

theorem lowerStore_silences (slots : Slots) (depth : Nat) (n : String) (x : Expr) :
    Silences bareCode (lowerStore c slots depth n x) (lowerStore c.silent slots depth n x) :=
  (lowerExpr_silences x slots depth).bind fun _ => silences_bind (slotOf slots n) fun _ =>
    silences_pure (by simp [bareCode, Listing.bare_cons, Instr.isComment])

theorem lowerReturn_silences (slots : Slots) (depth : Nat) (last : Bool) (x : Option Expr) :
    Silences Listing.bare (lowerReturn c slots depth last x)
      (lowerReturn c.silent slots depth last x) := by
  have hleave : ∀ (code : Listing) (r : Reg), let leave : Listing :=
    if last then [] else [.jal .zero c.exit]
      Silences Listing.bare (pure (code ++ [.mv .a0 r] ++ leave))
    (pure (code.bare ++ [.mv .a0 r] ++ leave)) := by
    intro code r leave
    refine silences_pure ?_
    cases last <;> simp [leave, Listing.bare_cons, Instr.isComment]
  cases x with
  | none =>
    have hzero : Silences bareCode (pure ([], Reg.zero)) (pure ([], Reg.zero)) := silences_pure rfl
    exact hzero.bind fun r => hleave r.1 r.2
  | some x => exact (lowerExpr_silences x slots depth).bind fun r => hleave r.1 r.2

mutual

/-- The code of a statement with its comment removed is the code that it has without comments. -/
theorem lowerStmt_silences : ∀ (st : Stmt) (slots : Slots) (depth : Nat) (last : Bool),
    Silences bareCode (lowerStmt c slots depth last st) (lowerStmt c.silent slots depth last st)
  | .ret loc x, slots, depth, last => by
    rw [lowerStmt, lowerStmt]
    refine silences_note (by simp) fun note hnote => ?_
    exact (lowerReturn_silences slots (depth + 1) last x).bind fun _ =>
      silences_pure (by simp [bareCode, hnote])
  | .assign loc n type x, slots, depth, last => by
    rw [lowerStmt, lowerStmt]
    refine silences_note (by simp) fun note hnote => ?_
    exact (lowerStore_silences slots (depth + 1) n x).bind fun _ =>
      silences_pure (by simp [bareCode, hnote])
  | .use loc n x, slots, depth, last => by
    rw [lowerStmt, lowerStmt]
    refine silences_note (by simp) fun note hnote => ?_
    exact (lowerStore_silences slots (depth + 1) n x).bind fun _ =>
      silences_pure (by simp [bareCode, hnote])
  | .ifThen loc x tl t, slots, depth, last => by
    rw [lowerStmt, lowerStmt]
    refine silences_note (by simp) fun note hnote =>
      (lowerExpr_silences x slots (depth + 1)).bind fun _ => ?_
    refine silences_bind (newLabel _) fun _ =>
      silences_bind (newLabel _) fun _ => silences_bind (newLabel _) fun _ => ?_
    refine silences_bind _ fun _ => (lowerStmts_silences t slots (depth + 1) false).bind fun _ => ?_
    exact silences_pure (by simp [bareCode, hnote, choose, Listing.bare_cons, Instr.isComment])
  | .ifElse loc x tl t el e, slots, depth, last => by
    rw [lowerStmt, lowerStmt]
    refine silences_note (by simp) fun note hnote =>
      (lowerExpr_silences x slots (depth + 1)).bind fun _ => ?_
    refine silences_bind (newLabel _) fun _ =>
      silences_bind (newLabel _) fun _ => silences_bind (newLabel _) fun _ => ?_
    refine silences_bind _ fun _ => (lowerStmts_silences t slots (depth + 1) false).bind fun r => ?_
    refine silences_bind _ fun _ => (lowerStmts_silences e r.2 (depth + 1) false).bind fun _ => ?_
    exact silences_pure (by simp [bareCode, hnote, choose, Listing.bare_cons, Instr.isComment])
  | .expr loc x, slots, depth, last => by
    rw [lowerStmt, lowerStmt]
    refine silences_note (by simp) fun note hnote => ?_
    exact (lowerExpr_silences x slots (depth + 1)).bind fun _ =>
      silences_pure (by simp [bareCode, hnote])
  | .missing, slots, depth, last => by
    rw [lowerStmt, lowerStmt, show c.silent.comments = false from rfl]
    -- With and without comments the gap is found, be it when the comment is written or after that.
    intro s
    cases c.comments with
    | false => exact .inr rfl
    | true => exact .inr rfl

theorem lowerStmts_silences : ∀ (ss : List Stmt) (slots : Slots) (depth : Nat) (top : Bool),
    Silences bareCode (lowerStmts c slots depth top ss) (lowerStmts c.silent slots depth top ss)
  | [], slots, depth, top => by
    rw [lowerStmts, lowerStmts]
    exact silences_pure rfl
  | s :: ss, slots, depth, top => by
    rw [lowerStmts, lowerStmts]
    exact (lowerStmt_silences s slots depth _).bind fun r =>
      (lowerStmts_silences ss r.2 depth top).bind fun _ =>
      silences_pure (by simp [bareCode])

end

theorem lowerBody_silences (slots : Slots) (b : Block) :
    Silences Listing.bare (lowerBody c slots b) (lowerBody c.silent slots b) := by
  refine silences_bind (checkDepth c 1 b.loc) fun _ =>
    (lowerStmts_silences b.stmts slots 1 true).bind fun r => silences_pure ?_
  cases endsWithReturn b.stmts <;> simp [Listing.bare_cons, Instr.isComment]

theorem silences_params (i : Nat) (slots : Slots) (ps : List Param) :
    Silences bareCode (lowerParams i slots ps) (lowerParams i slots ps) := by
  induction ps generalizing i slots with
  | nil => exact silences_pure rfl
  | cons p ps ih =>
    rw [lowerParams]
    exact silences_bind newSlot fun _ => (ih (i + 1) _).bind fun _ =>
      silences_pure (by simp [bareCode, Listing.bare_cons, Instr.isComment])

end Expressions

end Lowering

/-! ### Functions and programs -/

/-- The same options without comments. -/
def CodegenOptions.silent (opts : CodegenOptions) : CodegenOptions :=
  { opts with comments := false }

open Lowering

section Generation

variable (opts : CodegenOptions) (functions : List String)

/-- A lowered function is the same with and without comments. -/
theorem lowerFunction_silences (f : NamedFunction) :
    Silences (fun lf => { lf with code := lf.code.bare }) (lowerFunction opts functions f)
      (lowerFunction opts.silent functions f) := by
  unfold lowerFunction
  dsimp only
  split
  · exact fun s => .inr rfl
  · refine silences_bind (newLabel "ret") fun exit =>
      (silences_params 0 [] f.func.params).bind fun r => ?_
    exact (lowerBody_silences (c := contextOf opts functions f exit) r.2 f.func.body).bind fun _ =>
      silences_pure (by simp [bareCode])

/-- Without comments a function is lowered to the same code but for the comments. -/
theorem Lowering.Gives.silent {opts : CodegenOptions} {functions : List String} {f : NamedFunction}
    {s s' : Supply} {lf : LoweredFunction} (h : Gives (lowerFunction opts functions f) s lf s') :
    Gives (lowerFunction opts.silent functions f) s { lf with code := lf.code.bare } s' := by
  have hsilenced := lowerFunction_silences opts functions f s
  have hrun : (lowerFunction opts functions f).run s = .ok (lf, s') := h
  rw [hrun] at hsilenced
  exact hsilenced

theorem bare_leave (frame : StackFrame) : Listing.bare frame.leave = frame.leave := by
  refine Listing.bare_eq_self fun i hi => ?_
  simp only [StackFrame.leave, List.mem_append, List.mem_map, List.mem_cons, List.not_mem_nil,
    or_false] at hi
  rcases hi with ⟨_, -, rfl⟩ | rfl | rfl | rfl <;> rfl

theorem bare_enter (frame : StackFrame) : Listing.bare frame.enter = frame.enter := by
  refine Listing.bare_eq_self fun i hi => ?_
  simp only [StackFrame.enter, List.mem_append, List.mem_map, List.mem_cons, List.not_mem_nil,
    or_false] at hi
  rcases hi with (rfl | rfl) | ⟨_, -, rfl⟩ <;> rfl

/-- The code of a function is the same with and without comments. -/
theorem generateFunction_silences (labels : Nat) (f : NamedFunction) :
    Silenced CodegenError.undescribed (Prod.map Listing.bare id)
      (generateFunction opts functions labels f) (generateFunction opts.silent functions
        labels f) := by
  have hlower := lowerFunction_silences opts functions f { labels }
  unfold generateFunction
  cases hrun : (lowerFunction opts functions f).run { labels } with
  | error e =>
    rw [hrun] at hlower
    refine hlower.imp_right fun hsilent => ?_
    rw [hsilent]
    rfl
  | ok r =>
    obtain ⟨lf, s⟩ := r
    rw [hrun] at hlower
    have hsilent : (lowerFunction opts.silent functions f).run { labels } =
      .ok ({ lf with code := lf.code.bare }, s) := hlower
    -- Allocation succeeds without the comments, and so it does the same with them.
    obtain ⟨a, -, ha, -⟩ :=
      exists_standard (StackFrame.spillBase s.slots) (writesFirst_function hsilent)
    obtain ⟨hcommented, hbare⟩ := allocate_bare ha
    rw [hsilent]
    simp only [bind, Except.bind, ha, hcommented, Allocation.spills]
    by_cases hfits : fitsImmediate (StackFrame.size ⟨s.slots, a.placement.spilled.length,
      a.saved⟩) = true
    · simp only [hfits, Bool.not_true, Bool.false_eq_true, if_false]
      exact silenced_ok
        (by simp [bare_enter, bare_leave, hbare, Listing.bare_cons, Instr.isComment])
    · simp only [hfits]
      exact .inr rfl

/-- The code of functions is the same with and without comments. -/
theorem generateFunctions_silences (labels : Nat) (fs : List NamedFunction) :
    Silenced (fun e => e.cause.undescribed) Listing.bare
      (generateFunctions opts functions labels fs) (generateFunctions opts.silent functions
        labels fs) := by
  induction fs generalizing labels with
  | nil => exact silenced_ok rfl
  | cons f fs ih =>
    rw [generateFunctions, generateFunctions]
    refine ((generateFunction_silences opts functions labels f).inContext _).bind fun r =>
      (ih r.2).bind fun rest => ?_
    exact silenced_ok (Listing.bare_append r.1 rest)

end Generation

/-- **Comments do not change the code.** If code is generated for a program with comments, then
without comments the code is the same but for these. If there is an error instead, then it is that a
statement cannot be described, or the same error arises without comments. -/
theorem Program.generate_silences (p : Program) (maxDepth : Int) :
    match p.generate { maxDepth, comments := true } with
    | .ok code => p.generate { maxDepth, comments := false } = .ok code.bare
    | .error e =>
      e.cause.cause = .undescribable ∨ p.generate { maxDepth, comments := false } = .error e := by
  have h : Silenced (fun e => e.cause.undescribed) Listing.bare
      (p.generate { maxDepth, comments := true }) (p.generate { maxDepth, comments := false }) := by
    unfold Program.generate
    cases duplicateLabel? [] p.functions with
    | some f => exact .inr rfl
    | none => exact generateFunctions_silences { maxDepth, comments := true } (p.functions.map
      (·.name)) 0 p.functions
  cases hr : p.generate { maxDepth, comments := true } with
  | ok code =>
    rw [hr] at h
    exact h
  | error e =>
    rw [hr] at h
    exact h

end FunRiscv
