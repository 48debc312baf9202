import Mathlib
import FunRiscv.Proofs.Codegen.Comments
import FunRiscv.Proofs.Codegen.Layout

/-!
# The labels of a listing

Jumps stay within the code of a function, and all other lines that name a label name the label of a
function. With the distinct labels of Proofs/Codegen/Layout, each label that is named therefore
stands in the listing once.

* `Instr.names?`: the label that a line names.
* `Instr.Links`: a line jumps to a label that it names, or calls it or takes its address.
* `Lowering.lowerExpr_links`, `Lowering.lowerStmts_links`: what is called and whose address is
  taken is a function.
* `generateFunctions_blocks`: the listing consists of the code of the functions, in their order.
* `Program.labels_sound`: the theorem about the labels of a listing.
-/

namespace FunRiscv

/-- The label that a line names. -/
def Instr.names? : Instr → Option String
  | branch _ _ _ l | jal _ l | la _ l => some l
  | _ => none

/-- The labels that stand in a listing, in their order. -/
def Listing.labels (code : Listing) : List String := code.filterMap fun
  | .label l => some l
  | _ => none

theorem Instr.names?_of_jumpsTo? {i : Instr} {l : String} (h : i.jumpsTo? = some l) :
    i.names? = some l := by
  cases i with
  | branch => exact h
  | jal rd l' =>
    rw [jumpsTo?] at h
    split at h
    · exact h
    · cases h
  | _ => cases h

/-- What a line does with a label that it names: it jumps to it, or it calls it or takes its
address, and then it is of a certain kind. -/
def Instr.Links (L : String → Prop) : Instr → Prop
  | jal rd l => rd = .zero ∨ rd = .ra ∧ L l
  | la _ l => L l
  | _ => True

/-- Every line does so. -/
def Listing.Links (L : String → Prop) (code : Listing) : Prop := ∀ i ∈ code, i.Links L

section Links

variable {L : String → Prop} {a b : Listing}

@[simp]
theorem links_nil : Listing.Links L [] := List.forall_mem_nil _

@[simp]
theorem links_cons {i : Instr} : Listing.Links L (i :: a) ↔ i.Links L ∧ Listing.Links L a :=
  List.forall_mem_cons

@[simp]
theorem links_append : Listing.Links L (a ++ b) ↔ Listing.Links L a ∧ Listing.Links L b :=
  List.forall_mem_append

end Links

namespace Lowering

/-! ### Lowered code -/

section Lowered

variable {c : LowerContext}

/-- A label by which a function is called or its address is taken. -/
def IsCallee (c : LowerContext) (l : String) : Prop := ∃ n, c.functionLabel? n = some l

theorem satisfiesM_fail {α : Type} {P : α → Prop} (loc : Location) (cause : CodegenCause) :
    SatisfiesM P (fail loc cause : Lowering α) :=
  ⟨fail loc cause, rfl⟩

theorem Gives.of_satisfiesM {α : Type} {P : α → Prop} {m : Lowering α} {s s' : Supply} {a : α}
    (h : Gives m s a s') (hP : SatisfiesM P m) :
    P a := SatisfiesM_Except_eq.1 (SatisfiesM_StateT_eq.1 hP s) (a, s') h

theorem links_constant (n : Int32) : SatisfiesM (fun r => r.1.Links (IsCallee c)) (constant n) :=
  .bind .trivial fun r _ => .pure (by simp [Instr.Links])

theorem links_loadVariable (slots : Slots) (loc : Location) (n : String) :
    SatisfiesM (fun r => r.1.Links (IsCallee c)) (loadVariable c slots loc n) := by
  refine .bind .trivial fun r _ => ?_
  split
  · exact .pure (by simp [Instr.Links])
  · split
    · next l hl => exact .pure (by simpa [Instr.Links] using ⟨n, hl⟩)
    · exact satisfiesM_fail loc _

theorem links_operator (op : Operator) (l r : Reg) :
    SatisfiesM (fun r => r.1.Links (IsCallee c)) (operator op l r) := by
  have hcode : ∀ d t, Listing.Links (IsCallee c) (operatorCode op d l r t) :=
    fun d t => by cases op <;> simp [operatorCode, Instr.Links]
  refine .bind .trivial fun d _ => ?_
  dsimp only
  split
  · exact .bind .trivial fun t _ => .pure (hcode d t)
  · exact .bind .trivial fun t _ => .pure (hcode d t)

theorem isCallee_callee (slots : Slots) (loc : Location) (f : Expr) (args : Nat) (named : Bool) :
    SatisfiesM (IsCallee c) (callee c slots loc f args named) := by
  unfold callee
  split
  · split
    · exact satisfiesM_fail _ _
    · exact satisfiesM_fail _ _
    · next n _ _ l _ hl =>
      split
      · exact satisfiesM_fail _ _
      · split
        · exact satisfiesM_fail _ _
        · exact .pure ⟨n, hl⟩
  · exact satisfiesM_fail _ _

theorem links_passArgs (i : Nat) (rs : List Reg) : Listing.Links (IsCallee c) (passArgs i rs) := by
  induction rs generalizing i with
  | nil => exact links_nil
  | cons r rs ih => simp [passArgs, Instr.Links, ih]

mutual

/-- The code of an expression calls functions and takes their addresses. -/
theorem lowerExpr_links : ∀ (x : Expr) (slots : Slots) (depth : Nat),
    SatisfiesM (fun r => r.1.Links (IsCallee c)) (lowerExpr c slots depth x)
  | .uint loc v, slots, depth => by
    rw [lowerExpr]
    refine .bind .trivial fun _ _ => ?_
    split
    · exact satisfiesM_fail loc _
    · exact links_constant _
  | .int loc v, slots, depth => by
    rw [lowerExpr]
    refine .bind .trivial fun _ _ => ?_
    split
    · exact satisfiesM_fail loc _
    · exact links_constant v
  | .bool _ _, slots, depth | .eraser _, slots, depth => by
    rw [lowerExpr]
    exact .bind .trivial fun _ _ => links_constant _
  | .var loc n, slots, depth => by
    rw [lowerExpr]
    exact .bind .trivial fun _ _ => links_loadVariable slots loc n
  | .binOp loc op l r, slots, depth => by
    rw [lowerExpr]
    refine .bind .trivial fun _ _ => ?_
    split
    · exact satisfiesM_fail loc _
    · exact .bind (lowerExpr_links l slots (depth + 1)) fun _ hl =>
        .bind (lowerExpr_links r slots (depth + 1)) fun _ hr =>
        .bind (links_operator (c := c) op _ _) fun _ ho => .pure (by simp [hl, hr, ho])
  | .call loc f as ns, slots, depth => by
    rw [lowerExpr]
    exact .bind .trivial fun _ _ =>
      .bind (isCallee_callee slots loc f as.length (!ns.isEmpty)) fun _ hf =>
      .bind (lowerArgs_links as slots (depth + 1)) fun _ has => .bind .trivial fun _ _ =>
        .pure (by simp [has, links_passArgs, Instr.Links, hf])
  | .ifElse loc x t e, slots, depth => by
    rw [lowerExpr]
    refine .bind .trivial fun _ _ => .bind (lowerExpr_links x slots (depth + 1)) fun _ hx => ?_
    refine .bind .trivial fun _ _ =>
      .bind .trivial fun _ _ => .bind .trivial fun _ _ => .bind .trivial fun _ _ => ?_
    exact .bind (lowerExpr_links t slots (depth + 1)) fun _ ht =>
      .bind (lowerExpr_links e slots (depth + 1)) fun _ he =>
      .pure (by simp [hx, ht, he, choose, Instr.Links])
  | .matchOn loc x cs, slots, depth => by
    rw [lowerExpr]
    refine .bind .trivial fun _ _ => .bind (lowerExpr_links x slots (depth + 1)) fun _ hx => ?_
    exact .bind .trivial fun _ _ =>
      .bind .trivial fun _ _ => .bind (lowerCases_links cs slots (depth + 1) _ _ _) fun _ hcs =>
      .pure (by simp [hx, hcs, Instr.Links])
  | .float loc _, slots, depth | .str loc _, slots, depth | .tuple loc _, slots, depth
  | .list loc _, slots, depth
  | .lambda loc _ _, slots, depth | .access loc _ _, slots, depth | .missing, slots, depth => by
    rw [lowerExpr]
    exact .bind .trivial fun _ _ => satisfiesM_fail _ _

theorem lowerArgs_links : ∀ (xs : List Expr) (slots : Slots) (depth : Nat),
    SatisfiesM (fun r => r.1.Links (IsCallee c)) (lowerArgs c slots depth xs)
  | [], slots, depth => by
    rw [lowerArgs]
    exact .pure links_nil
  | x :: xs, slots, depth => by
    rw [lowerArgs]
    exact .bind (lowerExpr_links x slots depth) fun _ hx =>
      .bind (lowerArgs_links xs slots depth) fun _ hxs =>
      .pure (links_append.2 ⟨hx, hxs⟩)

theorem lowerCases_links :
    ∀ (cs : List Case) (slots : Slots) (depth : Nat) (x d : Reg) (l : String),
      SatisfiesM (fun code => code.Links (IsCallee c)) (lowerCases c slots depth x d l cs)
  | [], slots, depth, _, _, _ => by
    rw [lowerCases]
    exact .pure links_nil
  | .mk _ p b :: cs, slots, depth, x, d, l => by
    rw [lowerCases]
    refine .bind .trivial fun _ _ => .bind (lowerPattern_links p slots depth x _) fun r hp => ?_
    exact .bind (lowerExpr_links b r.2 depth) fun _ hb =>
      .bind (lowerCases_links cs slots depth x d l) fun _ hcs =>
      .pure (by simp [hp, hb, hcs, Instr.Links])

theorem lowerPattern_links :
    ∀ (p : Pattern) (slots : Slots) (depth : Nat) (x : Reg) (next : String),
      SatisfiesM (fun r => r.1.Links (IsCallee c)) (lowerPattern c slots depth x next p)
  | .lit _ v, slots, depth, _, _ => by
    rw [lowerPattern]
    exact .bind (lowerExpr_links v slots depth) fun _ hv => .pure (by simp [hv, Instr.Links])
  | .var _ n, slots, _, _, _ => by
    rw [lowerPattern]
    exact .bind .trivial fun _ _ => .pure (by simp [Instr.Links])
  | .wild _, _, _, _, _ => by
    rw [lowerPattern]
    exact .pure links_nil
  | .cons .., _, _, _, _ | .tuple .., _, _, _, _ | .missing, _, _, _, _ => by
    rw [lowerPattern]
    exact satisfiesM_fail _ _

end

theorem links_note {α : Type} {P : α → Prop} {st : Stmt} {k : Listing → Lowering α}
    (hk : ∀ note, Listing.Links (IsCallee c) note → SatisfiesM P (k note)) :
    SatisfiesM P (if c.comments then describe st >>= fun i => pure [i] >>= k else
      pure [] >>= k) := by
  have hdescribe : SatisfiesM (fun i => i.Links (IsCallee c)) (describe st) := by
    unfold describe
    split
    · exact satisfiesM_fail _ _
    · split
      · exact .pure trivial
      · exact satisfiesM_fail _ _
  simp only [pure_bind]
  split
  · exact .bind hdescribe fun i hi => hk [i] (links_cons.2 ⟨hi, links_nil⟩)
  · exact hk [] links_nil

theorem lowerStore_links (slots : Slots) (depth : Nat) (n : String) (x : Expr) :
    SatisfiesM (fun r => r.1.Links (IsCallee c)) (lowerStore c slots depth n x) :=
  .bind (lowerExpr_links x slots depth) fun _ hx =>
    .bind .trivial fun _ _ => .pure (by simp [hx, Instr.Links])

theorem lowerReturn_links (slots : Slots) (depth : Nat) (last : Bool) (x : Option Expr) :
    SatisfiesM (fun code => code.Links (IsCallee c)) (lowerReturn c slots depth last x) := by
  have hleave : ∀ r : Listing × Reg, r.1.Links (IsCallee c) → let leave : Listing :=
    if last then [] else [.jal .zero c.exit]
      Listing.Links (IsCallee c) (r.1 ++ [.mv .a0 r.2] ++ leave) := by
    intro r hr leave
    cases last <;> simp [leave, hr, Instr.Links]
  cases x with
  | none => exact .bind (.pure links_nil) fun r hr => .pure (hleave r hr)
  | some x => exact .bind (lowerExpr_links x slots depth) fun r hr => .pure (hleave r hr)

mutual

theorem lowerStmt_links : ∀ (st : Stmt) (slots : Slots) (depth : Nat) (last : Bool),
    SatisfiesM (fun r => r.1.Links (IsCallee c)) (lowerStmt c slots depth last st)
  | .ret loc x, slots, depth, last => by
    rw [lowerStmt]
    exact links_note fun note hnote =>
      .bind (lowerReturn_links slots (depth + 1) last x) fun _ hx => .pure (by simp [hnote, hx])
  | .assign loc n type x, slots, depth, last => by
    rw [lowerStmt]
    exact links_note fun note hnote =>
      .bind (lowerStore_links slots (depth + 1) n x) fun _ hx => .pure (by simp [hnote, hx])
  | .use loc n x, slots, depth, last => by
    rw [lowerStmt]
    exact links_note fun note hnote =>
      .bind (lowerStore_links slots (depth + 1) n x) fun _ hx => .pure (by simp [hnote, hx])
  | .ifThen loc x tl t, slots, depth, last => by
    rw [lowerStmt]
    refine links_note fun note hnote => .bind (lowerExpr_links x slots (depth + 1)) fun _ hx => ?_
    refine .bind .trivial fun _ _ =>
      .bind .trivial fun _ _ => .bind .trivial fun _ _ => .bind .trivial fun _ _ => ?_
    exact .bind (lowerStmts_links t slots (depth + 1) false) fun _ ht =>
      .pure (by simp [hnote, hx, ht, choose, Instr.Links])
  | .ifElse loc x tl t el e, slots, depth, last => by
    rw [lowerStmt]
    refine links_note fun note hnote => .bind (lowerExpr_links x slots (depth + 1)) fun _ hx => ?_
    refine .bind .trivial fun _ _ =>
      .bind .trivial fun _ _ => .bind .trivial fun _ _ => .bind .trivial fun _ _ => ?_
    refine .bind (lowerStmts_links t slots (depth + 1) false) fun r ht =>
      .bind .trivial fun _ _ => ?_
    exact .bind (lowerStmts_links e r.2 (depth + 1) false) fun _ he =>
      .pure (by simp [hnote, hx, ht, he, choose, Instr.Links])
  | .expr loc x, slots, depth, last => by
    rw [lowerStmt]
    exact links_note fun note hnote =>
      .bind (lowerExpr_links x slots (depth + 1)) fun _ hx => .pure (by simp [hnote, hx])
  | .missing, slots, depth, last => by
    rw [lowerStmt]
    exact links_note fun note _ => .bind (satisfiesM_fail (P := fun _ => False) _ _) fun _ h =>
      h.elim

/-- The code of statements calls functions and takes their addresses. -/
theorem lowerStmts_links : ∀ (ss : List Stmt) (slots : Slots) (depth : Nat) (top : Bool),
    SatisfiesM (fun r => r.1.Links (IsCallee c)) (lowerStmts c slots depth top ss)
  | [], slots, depth, top => by
    rw [lowerStmts]
    exact .pure links_nil
  | s :: ss, slots, depth, top => by
    rw [lowerStmts]
    exact .bind (lowerStmt_links s slots depth _) fun r hs =>
      .bind (lowerStmts_links ss r.2 depth top) fun _ hss =>
      .pure (links_append.2 ⟨hs, hss⟩)

end

theorem lowerBody_links (slots : Slots) (b : Block) :
    SatisfiesM (fun code => code.Links (IsCallee c)) (lowerBody c slots b) := by
  refine .bind .trivial fun _ _ =>
    .bind (lowerStmts_links b.stmts slots 1 true) fun r hr => .pure ?_
  cases endsWithReturn b.stmts <;> simp [hr, Instr.Links]

theorem lowerParams_links (i : Nat) (slots : Slots) (ps : List Param) :
    SatisfiesM (fun r => r.1.Links (IsCallee c)) (lowerParams i slots ps) := by
  induction ps generalizing i slots with
  | nil => exact .pure links_nil
  | cons p ps ih =>
    rw [lowerParams]
    exact .bind .trivial fun _ _ =>
      .bind (ih (i + 1) _) fun _ hps => .pure (by simp [hps, Instr.Links])

end Lowered

/-- The labels of some functions. -/
def IsFunction (functions : List String) (l : String) : Prop := ∃ n ∈ functions, l = functionLabel n

theorem isFunction_of_isCallee {c : LowerContext} {l : String} (h : IsCallee c l) :
    IsFunction c.functions l := by
  obtain ⟨n, hn⟩ := h
  unfold LowerContext.functionLabel? at hn
  split at hn
  · next hmem => exact ⟨n, by simpa using hmem, (Option.some.inj hn).symm⟩
  · split at hn
    · next hmem =>
      rw [Bool.and_eq_true] at hmem
      exact ⟨c.path ++ n, by simpa using hmem.2, (Option.some.inj hn).symm⟩
    · cases hn

end Lowering

theorem Instr.Links.mono {L L' : String → Prop} {i : Instr} (h : i.Links L) (hL : ∀ l, L l → L' l) :
    i.Links L' := by
  cases i with
  | jal rd l => exact h.imp_right (And.imp_right (hL l))
  | la rd l => exact hL l h
  | _ => trivial

open Lowering

section Functions

variable {opts : CodegenOptions} {functions : List String} {labels : Nat} {f : NamedFunction}
  {lf : LoweredFunction} {s s' : Supply}

/-- The code of a function calls functions and takes their addresses. -/
theorem lowerFunction_links (h : Gives (lowerFunction opts functions f) s lf s') :
    lf.code.Links (IsFunction functions) := by
  obtain ⟨-, -, pc, inner, s₁, bc, hp, hb, hcode⟩ := gives_function h
  have hparams :=
    hp.of_satisfiesM (lowerParams_links (c := contextOf opts functions f (exitLabel s)) 0 []
      f.func.params)
  have hbody := hb.of_satisfiesM (lowerBody_links inner f.func.body)
  rw [hcode]
  exact fun i hi => ((links_append.2 ⟨hparams, hbody⟩) i hi).mono fun l => isFunction_of_isCallee

end Functions

/-! ### Registers in place -/

section Placed

variable {L : String → Prop} {p : Placement} {i j : Instr} {l : String}

/-- A line that names a label jumps to it, or the label is of the kind that is called. -/
theorem Instr.Links.named (h : i.Links L) (hl : i.names? = some l) : i.jumpsTo? = some l ∨ L l := by
  cases i with
  | branch => exact .inl hl
  | jal rd l' =>
    obtain rfl : l' = l := Option.some.inj hl
    exact h.imp (fun hrd => by rw [Instr.jumpsTo?, if_pos hrd]) And.right
  | la rd l' =>
    obtain rfl : l' = l := Option.some.inj hl
    exact .inr h
  | _ => cases hl

/-- Putting registers into a line leaves what it does with labels. -/
theorem Placement.links_realizeInstr (h : i.Links L) (hj : j ∈ p.realizeInstr i) :
    j.Links L ∧ ∀ l, j.jumpsTo? = some l → i.jumpsTo? = some l := by
  have hmapped : ∀ read, (i.mapRegs p.target read).Links L ∧
    ∀ l, (i.mapRegs p.target read).jumpsTo? = some l → i.jumpsTo? = some l := by
    intro read
    cases i with
    | jal rd l =>
      rcases h with rfl | ⟨rfl, hl⟩
      · exact ⟨.inl rfl, fun _ h => h⟩
      · exact ⟨.inr ⟨rfl, hl⟩, fun _ h => h⟩
    | la rd l => exact ⟨h, fun _ h => h⟩
    | _ => exact ⟨trivial, fun _ h => h⟩
  simp only [realizeInstr, List.mem_append, List.mem_cons, List.mem_map] at hj
  rcases hj with ⟨_, -, rfl⟩ | rfl | hj
  · exact ⟨trivial, fun _ h => by cases h⟩
  · exact hmapped _
  · split at hj
    · obtain rfl := List.mem_singleton.1 hj
      exact ⟨trivial, fun _ h => by cases h⟩
    · cases hj

end Placed

/-! ### The code of a function -/

section Blocks

variable {opts : CodegenOptions} {functions : List String} {labels : Nat} {f : NamedFunction}
  {lf : LoweredFunction} {s : Supply} {a : Allocation}

theorem mem_bare {code : Listing} {i : Instr} : i ∈ code.bare ↔ i ∈ code ∧ i.isComment = false := by
  simp [Listing.bare]

theorem count_label_bare (code : Listing) (l : String) :
    code.bare.count (.label l) = code.count (.label l) :=
  List.count_filter rfl

/-- Without comments a function is lowered to the same code but for the comments. -/
theorem Compiles.silent (h : Compiles opts functions labels f lf s a) :
    Gives (lowerFunction opts.silent functions f) { labels } { lf with code := lf.code.bare } s :=
  h.lowered.silent

/-- A line in the code of a function that jumps is one that was lowered, and so is one
that names a label. -/
theorem Compiles.mem_block (h : Compiles opts functions labels f lf s a) {j : Instr}
    (hj : j ∈ blockOf f lf s a) :
    j.names? = none ∨ j.Links (IsFunction functions) ∧
      ∃ i ∈ lf.code, ∀ l, j.jumpsTo? = some l → i.jumpsTo? = some l := by
  have henter : ∀ i ∈ (frameOf s a).enter, i.names? = none := by
    simp only [StackFrame.enter, List.mem_append, List.mem_map, List.mem_cons, List.not_mem_nil,
      or_false]
    rintro i ((rfl | rfl) | ⟨_, -, rfl⟩) <;> rfl
  have hleave : ∀ i ∈ (frameOf s a).leave, i.names? = none := by
    simp only [StackFrame.leave, List.mem_append, List.mem_map, List.mem_cons, List.not_mem_nil,
      or_false]
    rintro i (⟨_, -, rfl⟩ | rfl | rfl | rfl) <;> rfl
  obtain ⟨hcode, -⟩ := allocate_spec h.allocated
  simp only [blockOf, List.mem_append, List.mem_singleton] at hj
  rcases hj with (((rfl | hj) | hj) | rfl) | hj
  · exact .inl rfl
  · exact .inl (henter j hj)
  · rw [hcode] at hj
    obtain ⟨i, hi, hji⟩ := List.mem_flatMap.1 hj
    obtain ⟨hlinks, hjumps⟩ := Placement.links_realizeInstr (lowerFunction_links h.lowered i hi) hji
    exact .inr ⟨hlinks, i, hi, hjumps⟩
  · exact .inl rfl
  · exact .inl (hleave j hj)

/-- The code of a function jumps to labels in it. -/
theorem Compiles.jumps_within (h : Compiles opts functions labels f lf s a) {j : Instr}
    (hj : j ∈ blockOf f lf s a) {l : String} (hl : j.jumpsTo? = some l) :
    .label l ∈ blockOf f lf s a := by
  obtain ⟨hcode, -⟩ := allocate_spec h.allocated
  rcases h.mem_block hj with hnone | ⟨-, i, hi, hjumps⟩
  · rw [Instr.names?_of_jumpsTo? hl] at hnone
    cases hnone
  · have hline : i.isComment = false := by
      cases i with
      | comment => cases hjumps l hl
      | _ => rfl
    obtain ⟨-, piece⟩ := shape_function rfl h.silent
    simp only [blockOf, List.mem_append, List.mem_singleton]
    rcases piece.jumps.mem (mem_bare.2 ⟨hi, hline⟩) (hjumps l hl) with hmem | rfl
    · refine .inl (.inl (.inr ?_))
      rw [hcode]
      exact List.mem_flatMap.2 ⟨.label l, (mem_bare.1 hmem).1,
        Placement.label_mem_realizeInstr.2 rfl⟩
    · exact .inl (.inr rfl)

theorem Compiles.generated (h : Compiles opts functions labels f lf s a) :
    generateFunction opts functions labels f = .ok (blockOf f lf s a, s.labels) := by
  have hrun : (lowerFunction opts functions f).run { labels } = .ok (lf, s) := h.lowered
  have hfits : fitsImmediate (StackFrame.size ⟨s.slots, a.spills, a.saved⟩) = true := h.immediate
  unfold generateFunction
  rw [hrun]
  simp only [bind, Except.bind, h.allocated, hfits]
  rfl

/-- The listing of functions is the code of one after the other. -/
theorem generateFunctions_blocks {fs : List NamedFunction} {code : Listing}
    (h : generateFunctions opts functions labels fs = .ok code) :
    ∃ blocks : List Listing, code = blocks.flatten ∧
      List.Forall₂ (fun f block => ∃ n n', generateFunction opts functions n f = .ok (block, n'))
        fs blocks := by
  induction fs generalizing labels code with
  | nil =>
    obtain rfl : [] = code := Except.ok.inj h
    exact ⟨[], rfl, .nil⟩
  | cons f fs ih =>
    obtain ⟨lf, s, a, rest, hcompiles, hrest, rfl⟩ := generateFunctions_cons h
    obtain ⟨blocks, rfl, hblocks⟩ := ih hrest
    exact ⟨blockOf f lf s a :: blocks, rfl, .cons ⟨labels, s.labels, hcompiles.generated⟩ hblocks⟩

end Blocks

/-! ### The listing of a program -/

theorem exists_of_forall₂ {α β : Type} {R : α → β → Prop} {l : List α} {l' : List β}
    (h : List.Forall₂ R l l') {b : β} (hb : b ∈ l') : ∃ a ∈ l, R a b := by
  induction h with
  | nil => cases hb
  | @cons a b' l l' hab _ ih =>
    rcases List.mem_cons.1 hb with rfl | hb
    · exact ⟨a, List.mem_cons_self, hab⟩
    · obtain ⟨a', ha', hab'⟩ := ih hb
      exact ⟨a', List.mem_cons_of_mem a ha', hab'⟩

theorem count_labels (code : Listing) (l : String) :
    code.labels.count l = code.count (.label l) := by
  rw [Listing.labels, List.count, List.countP_filterMap]
  refine List.countP_congr fun i _ => ?_
  cases i <;> simp

/-- **Labels are sound.** In the listing of a program no label stands twice, and each label that a
line names stands there once. The listing is the code of the functions, one after the other in their
order. The code of a function starts with its label, which stands nowhere else, and jumps only to
labels within it. -/
theorem Program.labels_sound {opts : CodegenOptions} {p : Program} {code : Listing}
    (h : p.generate opts = .ok code) : code.labels.Nodup ∧
    (∀ i ∈ code, ∀ l, i.names? = some l → code.count (.label l) = 1) ∧
    ∃ blocks : List Listing, code = blocks.flatten ∧ List.Forall₂ (fun f block =>
      (∃ n n', generateFunction opts (p.functions.map (·.name)) n f = .ok (block, n')) ∧
      block.head? = some (.label (functionLabel f.name)) ∧
      code.count (.label (functionLabel f.name)) = 1 ∧
      ∀ i ∈ block, ∀ l, i.jumpsTo? = some l → .label l ∈ block) p.functions blocks := by
  unfold Program.generate at h
  split at h
  · cases h
  · next hnone =>
    obtain ⟨hnodup, -⟩ := duplicateLabel?_none hnone
    -- Without comments the labels are known to be distinct, and comments are no labels.
    have hsilent : generateFunctions opts.silent (p.functions.map (·.name)) 0 p.functions = .ok
      code.bare := by
      have hsilenced := generateFunctions_silences opts (p.functions.map (·.name)) 0 p.functions
      rw [h] at hsilenced
      exact hsilenced
    have honce : ∀ l, code.count (.label l) ≤ 1 := by
      intro l
      rw [← count_label_bare]
      exact (count_label_functions rfl hsilent hnodup l).1
    have hcount : ∀ l, .label l ∈ code → code.count (.label l) = 1 :=
      fun l hl => Nat.le_antisymm (honce l) (List.count_pos_iff.2 hl)
    obtain ⟨blocks, rfl, hblocks⟩ := generateFunctions_blocks h
    have hstart : ∀ f ∈ p.functions, blocks.flatten.count (.label (functionLabel f.name)) = 1 := by
      intro f hf
      obtain ⟨start, lf, s, a, origin, -, hat, -⟩ := generateFunctions_block h hf
      exact hcount _ (List.mem_of_getElem? (hat 0 _ rfl))
    refine ⟨List.nodup_iff_count_le_one.2 fun l => (count_labels _ l).trans_le (honce l), ?_,
      blocks, rfl, ?_⟩
    · intro i hi l hl
      obtain ⟨block, hblock, hi⟩ := List.mem_flatten.1 hi
      obtain ⟨f, -, n, n', hgenerated⟩ := exists_of_forall₂ hblocks hblock
      obtain ⟨lf, s, a, hcompiles, rfl, -⟩ := generateFunction_spec hgenerated
      have hown : .label l ∈ blockOf f lf s a ∨ IsFunction (p.functions.map (·.name)) l := by
        rcases hcompiles.mem_block hi with hnone | ⟨hlinks, -⟩
        · rw [hl] at hnone
          cases hnone
        · exact (hlinks.named hl).imp_left (hcompiles.jumps_within hi)
      rcases hown with hown | ⟨m, hm, rfl⟩
      · exact hcount l (List.mem_flatten.2 ⟨_, hblock, hown⟩)
      · obtain ⟨g, hg, rfl⟩ := List.mem_map.1 hm
        exact hstart g hg
    · refine ((List.forall₂_and_left _ _).2 ⟨hstart, hblocks⟩).imp fun f block hf => ?_
      obtain ⟨hstart, n, n', hgenerated⟩ := hf
      obtain ⟨lf, s, a, hcompiles, rfl, -⟩ := generateFunction_spec hgenerated
      exact ⟨⟨n, n', hgenerated⟩, rfl, hstart, fun i hi l hl => hcompiles.jumps_within hi hl⟩

/-- A function that chooses by a match, and one that returns early, calls it and takes
its address. -/
def choosingProgram : Program := ⟨[], [
  .func {
    loc := {}, name := "pick", params := [⟨{}, "x", none⟩], ret := none, checked := true
    body := ⟨{},
      [.ret {} (some (.matchOn {} (.var {} "x") [.mk {} (.lit {} (.uint {} 2)) (.uint {} 3),
        .mk {} (.wild {}) (.uint {} 4)]))]⟩ },
  .func {
    loc := {}, name := "main", params := [⟨{}, "x", none⟩], ret := none, checked := true
    body := ⟨{}, [
      .ifThen {} (.var {} "x") {} [.ret {} (some (.call {} (.var {} "pick") [.var {} "x"] []))],
      .ret {} (some (.var {} "pick"))]⟩ }]⟩

theorem choosing_labels_sound : ∃ code, choosingProgram.generate { comments := true } = .ok code ∧
    code.labels = ["function.pick", "case_3", "case_4", "match_end_2", "ret_1", "main", "then_6",
      "else_7", "endif_8", "ret_5"] ∧
    code.labels.Nodup ∧ ∀ i ∈ code, ∀ l, i.names? = some l → code.count (.label l) = 1 := by
  have hlabels : (choosingProgram.generate { comments := true }).toOption.map Listing.labels =
      some ["function.pick", "case_3", "case_4", "match_end_2", "ret_1", "main", "then_6", "else_7",
        "endif_8", "ret_5"] := by
    decide +kernel
  cases hgenerate : choosingProgram.generate { comments := true } with
  | error e =>
    rw [hgenerate] at hlabels
    cases hlabels
  | ok code =>
    rw [hgenerate] at hlabels
    obtain ⟨hnodup, hnamed, -⟩ := Program.labels_sound hgenerate
    exact ⟨code, rfl, Option.some.inj hlabels, hnodup, hnamed⟩

end FunRiscv
