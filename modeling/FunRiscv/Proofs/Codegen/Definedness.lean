import Mathlib
import FunRiscv.Proofs.Alloc.Assignment
import FunRiscv.Proofs.Codegen.Admission
import FunRiscv.Proofs.Codegen.Layout

/-!
# Lowered code writes registers before it reads them

So registers can be allocated for whatever can be lowered, and the only limit that is left is
the size of the frame.

* `Listing.Defined`: the virtual registers that code reads are known at its start or written before.
* `defined_expr`, `defined_stmts`, `writesFirst_function`: the code of expressions,
  statements and functions.
* `generateFunctions_admitted`: code generation for functions that are admitted: it succeeds or
  finds a frame too large.
-/

namespace FunRiscv

open Lowering

/-! ### Registers that are known -/

namespace Listing

/-- The registers that code writes. -/
def dests (code : Listing) : Set Reg := {r | ∃ i ∈ code, i.dest = r}

/-- Every virtual register that code reads is known at its start or written by an
earlier instruction. -/
def Defined (known : Set Reg) : Listing → Prop
  | [] => True
  | i :: code =>
    (∀ r ∈ i.reads, r.isVirtual = true → r ∈ known) ∧ Defined (insert i.dest known) code

variable {known known' : Set Reg} {a b : Listing} {i : Instr}

@[simp]
theorem dests_nil : dests [] = ∅ := by simp [dests]

@[simp]
theorem dests_cons (i : Instr) (code : Listing) :
    dests (i :: code) = insert i.dest (dests code) := by
  ext r
  simp [dests, eq_comm]

@[simp]
theorem dests_append (a b : Listing) : dests (a ++ b) = dests a ∪ dests b := by
  ext r
  simp [dests, or_and_right, exists_or]

theorem Defined.mono (h : Defined known a) (hk : known ⊆ known') : Defined known' a := by
  induction a generalizing known known' with
  | nil => trivial
  | cons i a ih => exact ⟨fun r hr hv => hk (h.1 r hr hv), ih h.2 (Set.insert_subset_insert hk)⟩

/-- Code that is defined on its own is defined anywhere. -/
theorem Defined.anywhere (h : Defined ∅ a) (known : Set Reg) : Defined known a :=
  h.mono (Set.empty_subset known)

theorem defined_append :
    Defined known (a ++ b) ↔ Defined known a ∧ Defined (known ∪ dests a) b := by
  induction a generalizing known with
  | nil => simp [Defined]
  | cons i a ih =>
    rw [List.cons_append, Defined, Defined, ih, dests_cons, Set.insert_union, ← Set.union_insert,
      and_assoc]

/-- Instructions that read no virtual registers but known ones. -/
theorem defined_of_reads (h : ∀ i ∈ a, ∀ r ∈ i.reads, r.isVirtual = true → r ∈ known) :
    Defined known a := by
  induction a generalizing known with
  | nil => trivial
  | cons i a ih =>
    rw [List.forall_mem_cons] at h
    exact ⟨h.1, ih fun j hj r hr hv => Set.mem_insert_of_mem _ (h.2 j hj r hr hv)⟩

/-- What is defined on its own writes its registers first. -/
theorem Defined.writesFirst {code : Listing} (h : Defined ∅ code) : code.WritesFirst := by
  have key : ∀ (code : Listing) (known : Set Reg), Defined known code →
    ∀ (p : Nat) (i : Instr), code[p]? = some i →
    ∀ r ∈ i.reads, r.isVirtual = true → r ∈ known ∨ ∃ j ∈ code.take p, j.dest = r := by
    intro code
    induction code with
    | nil => simp
    | cons j code ih =>
      intro known h p i hi r hr hv
      cases p with
      | zero =>
        obtain rfl : j = i := by simpa using hi
        exact .inl (h.1 r hr hv)
      | succ p =>
        rcases ih _ h.2 p i (by simpa using hi) r hr hv with (rfl | hk) | ⟨k, hk, rfl⟩
        · exact .inr ⟨j, by simp, rfl⟩
        · exact .inl hk
        · exact .inr ⟨k, by simp [hk], rfl⟩
  intro p i hi r hr hv
  exact (key code ∅ h p i hi r hr hv).resolve_left (Set.notMem_empty r)

end Listing

open Listing

/-! ### Expressions -/

/-- Code that is defined on its own leaves a value in a register. -/
structure Leaves (code : Listing) (r : Reg) : Prop where
  defined : Defined ∅ code
  written : r ∈ dests code

section Expressions

variable {c : LowerContext} {slots slots' : Slots} {depth : Nat} {s s' : Supply} {code : Listing}
  {r : Reg} {known : Set Reg}

theorem defined_operator {op : Operator} {x y : Reg} (hop : op ≠ .pow) (hx : x ∈ known)
    (hy : y ∈ known) (h : Gives (operator op x y) s (code, r) s') :
    Defined known code ∧ r ∈ dests code := by
  obtain ⟨rfl, ⟨hneeds, rfl, -⟩ | ⟨hneeds, rfl, -⟩⟩ := gives_operator h <;> cases op <;>
    first
    | exact absurd rfl hop
    | cases hneeds; done
    | simp [operatorCode, Defined, Instr.reads, Instr.dest, hx, hy, Reg.zero, Reg.isVirtual,
    Reg.machineCount]

/-- The statement of `defined_expr` for one expression. -/
def LeavesValue (x : Expr) : Prop :=
  ∀ (c : LowerContext) (slots : Slots) (depth : Nat) (s : Supply) (code : Listing) (r : Reg)
    (s' : Supply),
    Gives (lowerExpr c slots depth x) s (code, r) s' → Leaves code r

theorem defined_args {xs : List Expr} (ih : ∀ x ∈ xs, LeavesValue x) {rs : List Reg}
    (h : Gives (lowerArgs c slots depth xs) s (code, rs) s') :
    Defined ∅ code ∧ ∀ r ∈ rs, r ∈ dests code := by
  induction xs generalizing s code rs with
  | nil =>
    obtain ⟨rfl, rfl, -⟩ := gives_args_nil h
    exact ⟨trivial, by simp⟩
  | cons x xs ihxs =>
    obtain ⟨xc, xr, s₁, rest, rs', hx, hrest, rfl, rfl⟩ := gives_args_cons h
    have hleaves := ih x List.mem_cons_self c slots depth s xc xr s₁ hx
    obtain ⟨hdefined, hwritten⟩ := ihxs (fun y hy => ih y (List.mem_cons_of_mem x hy)) hrest
    refine ⟨defined_append.2 ⟨hleaves.defined, hdefined.anywhere _⟩,
      List.forall_mem_cons.2 ⟨?_, fun q hq => ?_⟩⟩
    · simp [hleaves.written]
    · simp [hwritten q hq]

theorem defined_passArgs {rs : List Reg} (h : ∀ r ∈ rs, r ∈ known) (i : Nat) :
    Defined known (passArgs i rs) := by
  refine defined_of_reads fun j hj q hq _ => ?_
  obtain ⟨k, r, -, hr, rfl⟩ := mem_passArgs hj
  obtain rfl := List.mem_singleton.1 hq
  exact h q hr

theorem defined_choice {x : Reg} {t e : Listing} (hx : x ∈ known) (ht : Defined known t)
    (he : Defined known e) : Defined known (choice x s t e) := by
  have hzero : Reg.zero.isVirtual = false := rfl
  suffices Defined (insert Reg.zero known) t ∧ Defined (insert Reg.zero known ∪ dests t) e by
    simpa [choice, choose, defined_append, Defined, Instr.reads, Instr.dest, hzero, hx] using this
  exact ⟨ht.mono (Set.subset_insert _ _),
    he.mono ((Set.subset_insert _ _).trans Set.subset_union_left)⟩

theorem defined_pattern {x : Reg} {next : String} {p : Pattern} {inner : Slots}
    (ih : ∀ v ∈ p.parts, LeavesValue v) (hx : x ∈ known)
    (h : Gives (lowerPattern c slots depth x next p) s (code, inner) s') : Defined known code := by
  rcases gives_pattern h with ⟨loc, v, vc, vr, rfl, hv, rfl, rfl⟩ | ⟨loc, n, rfl, rfl, rfl,
    rfl⟩ | ⟨loc, rfl, rfl, rfl, rfl⟩
  · have hleaves := ih v (by simp [Pattern.parts]) c _ _ s vc vr s' hv
    exact defined_append.2
      ⟨hleaves.defined.anywhere known, by simp [Defined, Instr.reads, hx, hleaves.written]⟩
  · simp [Defined, Instr.reads, hx, Reg.sp, Reg.isVirtual, Reg.machineCount]
  · trivial

theorem defined_cases {x d : Reg} {l : String} {cs : List Case}
    (ih : ∀ k ∈ cs, ∀ v ∈ k.parts, LeavesValue v) (hx : x ∈ known)
    (h : Gives (lowerCases c slots depth x d l cs) s code s') : Defined known code := by
  induction cs generalizing s code known with
  | nil =>
    obtain ⟨rfl, -⟩ := gives_cases_nil h
    trivial
  | cons k cs ihcs =>
    obtain ⟨loc, p, b⟩ := k
    obtain ⟨test, inner, s₁, bc, br, s₂, others, hp, hb, ho, rfl⟩ := gives_cases_cons h
    have hparts := ih (.mk loc p b) List.mem_cons_self
    have hleaves :=
      hparts b (List.mem_append_right _ List.mem_cons_self) c inner depth s₁ bc br s₂ hb
    refine defined_append.2 ⟨defined_append.2 ⟨defined_append.2 ⟨?_, hleaves.defined.anywhere _⟩,
      ?_⟩, ?_⟩
    · exact defined_pattern (fun v hv => hparts v (List.mem_append_left _ hv)) hx hp
    · simp [Defined, Instr.reads, hleaves.written]
    · exact ihcs (fun k hk => ih k (List.mem_cons_of_mem _ hk)) (.inl hx) ho

/-- The code of an expression is defined on its own and writes the register of the value. -/
theorem defined_expr (x : Expr) : LeavesValue x := by
  induction x using Expr.induction with
  | step x ih =>
    intro c slots depth s code r s' h
    have hsp : Reg.sp.isVirtual = false := rfl
    have ha0 : Reg.a0.isVirtual = false := rfl
    rcases shape_of_gives h with
      hlit | ⟨loc, n, rfl⟩ | ⟨loc, op, l, y, rfl⟩ | ⟨loc, f, args, named, rfl⟩ | ⟨loc, y, t, e,
        rfl⟩ | ⟨loc, y, cs, rfl⟩
    · obtain ⟨v, hv⟩ := Option.isSome_iff_exists.1 hlit
      obtain ⟨rfl, rfl, rfl⟩ := gives_literal hv h
      exact ⟨by simp [Defined, Instr.reads], by simp [Instr.dest]⟩
    · obtain ⟨rfl, -, ⟨o, -, rfl⟩ | ⟨-, l, -, rfl⟩⟩ := gives_var h
      · exact ⟨by simp [Defined, Instr.reads, hsp], by simp [Instr.dest]⟩
      · exact ⟨by simp [Defined, Instr.reads], by simp [Instr.dest]⟩
    · obtain ⟨hop, lc, lr, s₁, yc, yr, s₂, oc, hl, hy, ho, rfl⟩ := gives_binOp h
      have hleft := ih l (by simp [Expr.parts]) _ _ _ _ _ _ _ hl
      have hright := ih y (by simp [Expr.parts]) _ _ _ _ _ _ _ hy
      have hboth : Defined ∅ (lc ++ yc) :=
        defined_append.2 ⟨hleft.defined, hright.defined.anywhere _⟩
      have hoperator : Defined (∅ ∪ dests (lc ++ yc)) oc ∧ r ∈ dests oc :=
        defined_operator hop (by simp [hleft.written]) (by simp [hright.written]) ho
      exact ⟨defined_append.2 ⟨hboth, hoperator.1⟩, by simp [hoperator.2]⟩
    · obtain ⟨-, -, vloc, n, l, ac, rs, s₁, rfl, -, -, ha, rfl, rfl, rfl⟩ := gives_call h
      obtain ⟨hdefined, hwritten⟩ := defined_args (fun x hx => ih x hx) ha
      refine ⟨defined_append.2
        ⟨defined_append.2 ⟨hdefined, defined_passArgs (fun q hq => .inr (hwritten q hq)) 0⟩, ?_⟩,
        ?_⟩
      · simp [Defined, Instr.reads, ha0]
      · simp [Instr.dest]
    · obtain ⟨yc, yr, s₁, tc, tr, s₂, ec, er, hy, ht, he, rfl, rfl⟩ := gives_ifElse h
      have hcond := ih y (by simp [Expr.parts]) _ _ _ _ _ _ _ hy
      have hthen := ih t (by simp [Expr.parts]) _ _ _ _ _ _ _ ht
      have helse := ih e (by simp [Expr.parts]) _ _ _ _ _ _ _ he
      refine ⟨defined_append.2 ⟨hcond.defined, defined_choice (.inr hcond.written) ?_ ?_⟩, by
        simp [choice, Instr.dest]⟩
      · exact defined_append.2
          ⟨hthen.defined.anywhere _, by simp [Defined, Instr.reads, hthen.written]⟩
      · exact defined_append.2
          ⟨helse.defined.anywhere _, by simp [Defined, Instr.reads, helse.written]⟩
    · obtain ⟨yc, yr, s₁, body, hy, hbody, rfl, rfl⟩ := gives_matchOn h
      have hscrutinee := ih y (by simp [Expr.parts]) _ _ _ _ _ _ _ hy
      refine ⟨defined_append.2 ⟨defined_append.2 ⟨hscrutinee.defined,
        ?_⟩, by simp [Defined, Instr.reads]⟩, by simp [Instr.dest]⟩
      refine defined_cases (fun k hk v hv => ih v ?_) (.inr hscrutinee.written) hbody
      exact List.mem_cons_of_mem y (List.mem_flatMap.2 ⟨k, hk, hv⟩)

/-! ### Statements -/

theorem Lowering.Noted.defined {rest : Listing} (h : Noted c code rest) (hrest : Defined ∅ rest) :
    Defined ∅ code := by
  obtain ⟨note, rfl, -, hcomments⟩ := h
  refine defined_append.2 ⟨defined_of_reads fun i hi => ?_, hrest.anywhere _⟩
  obtain ⟨t, rfl⟩ := hcomments i hi
  simp [Instr.reads]

theorem defined_store {n : String} {x : Expr}
    (h : Gives (lowerStore c slots depth n x) s (code, slots') s') : Defined ∅ code := by
  obtain ⟨xc, xr, s₁, o, hx, -, rfl⟩ := gives_store h
  have hleaves := defined_expr x _ _ _ _ _ _ _ hx
  exact defined_append.2
    ⟨hleaves.defined, by simp [Defined, Instr.reads, hleaves.written, Reg.sp, Reg.isVirtual,
      Reg.machineCount]⟩

theorem defined_return {last : Bool} {x : Option Expr}
    (h : Gives (lowerReturn c slots depth last x) s code s') : Defined ∅ code := by
  have hleaving : ∀ known, Defined known (leaving c last) := by
    intro known
    refine defined_of_reads fun i hi => ?_
    cases last with
    | true => cases hi
    | false =>
      obtain rfl := List.mem_singleton.1 hi
      simp [Instr.reads]
  rcases gives_return h with ⟨rfl, -, rfl⟩ | ⟨y, xc, xr, rfl, hy, rfl⟩
  · exact defined_append.2
      ⟨by simp [Defined, Instr.reads, Reg.zero, Reg.isVirtual, Reg.machineCount], hleaving _⟩
  · have hleaves := defined_expr y _ _ _ _ _ _ _ hy
    exact defined_append.2
      ⟨defined_append.2 ⟨hleaves.defined, by simp [Defined, Instr.reads, hleaves.written]⟩,
        hleaving _⟩

theorem defined_stmts_of {top : Bool} {ts : List Stmt}
    (ih : ∀ t ∈ ts, ∀ (slots : Slots) (depth : Nat) (last : Bool) (s : Supply) (code : Listing)
      (slots' : Slots) (s' : Supply),
      Gives (lowerStmt c slots depth last t) s (code, slots') s' → Defined ∅ code)
    (h : Gives (lowerStmts c slots depth top ts) s (code, slots') s') : Defined ∅ code := by
  induction ts generalizing slots s code with
  | nil =>
    obtain ⟨rfl, -⟩ := gives_stmts_nil h
    trivial
  | cons t ts ihts =>
    obtain ⟨tc, inner, s₁, rest, ht, hrest, rfl⟩ := gives_stmts_cons h
    have hfirst := ih t List.mem_cons_self _ _ _ _ _ _ _ ht
    exact defined_append.2 ⟨hfirst,
      (ihts (fun u hu => ih u (List.mem_cons_of_mem t hu)) hrest).anywhere _⟩

/-- The code of a statement is defined on its own. -/
theorem defined_stmt (t : Stmt) :
    ∀ (slots : Slots) (depth : Nat) (last : Bool) (s : Supply) (code : Listing) (slots' : Slots)
      (s' : Supply), Gives (lowerStmt c slots depth last t) s (code, slots') s' →
      Defined ∅ code := by
  induction t using Stmt.induction with
  | step t ih =>
    intro slots depth last s code slots' s' h
    cases t with
    | ret loc x =>
      obtain ⟨rest, hnoted, -, hrest⟩ := gives_noted_ret h
      exact hnoted.defined (defined_return hrest)
    | assign loc n type x =>
      obtain ⟨rest, hnoted, hrest⟩ := gives_noted_assign h
      exact hnoted.defined (defined_store hrest)
    | use loc n x =>
      obtain ⟨rest, hnoted, hrest⟩ := gives_noted_use h
      exact hnoted.defined (defined_store hrest)
    | ifThen loc x tl t =>
      obtain ⟨xc, xr, s₁, tc, hx, ht, hnoted⟩ := gives_noted_ifThen h
      have hcond := defined_expr x _ _ _ _ _ _ _ hx
      have hthen := defined_stmts_of (fun u hu => ih u hu) ht
      exact hnoted.defined
        (defined_append.2 ⟨hcond.defined, defined_choice (.inr hcond.written) (hthen.anywhere _)
          trivial⟩)
    | ifElse loc x tl t el e =>
      obtain ⟨xc, xr, s₁, tc, inner, s₂, ec, hx, ht, he, hnoted⟩ := gives_noted_ifElse h
      have hcond := defined_expr x _ _ _ _ _ _ _ hx
      have hthen := defined_stmts_of (fun u hu => ih u (List.mem_append_left e hu)) ht
      have helse := defined_stmts_of (fun u hu => ih u (List.mem_append_right t hu)) he
      exact hnoted.defined
        (defined_append.2 ⟨hcond.defined, defined_choice (.inr hcond.written) (hthen.anywhere _)
          (helse.anywhere _)⟩)
    | expr loc x =>
      obtain ⟨-, xc, xr, hnoted, hx⟩ := gives_noted_exprStmt h
      exact hnoted.defined (defined_expr x _ _ _ _ _ _ _ hx).defined
    | missing => exact absurd h not_gives_missing

theorem defined_params {ps : List Param} {i : Nat} (hcount : i + ps.length ≤ Reg.argCount)
    (h : Gives (lowerParams i slots ps) s (code, slots') s') : Defined known code := by
  induction ps generalizing i slots s code known with
  | nil =>
    obtain ⟨rfl, -⟩ := gives_params_nil h
    trivial
  | cons p ps ih =>
    obtain ⟨rest, hrest, rfl⟩ := gives_params_cons h
    rw [List.length_cons] at hcount
    have harg : (Reg.arg i).isVirtual = false := by
      have key : ∀ k < Reg.argCount, (Reg.arg k).isVirtual = false := by decide
      exact key i (by omega)
    have hsp : Reg.sp.isVirtual = false := rfl
    exact ⟨by simp [Instr.reads, harg, hsp], ih (by omega) hrest⟩

end Expressions

/-- The code of a function writes virtual registers before it reads them. -/
theorem writesFirst_function {opts : CodegenOptions} {functions : List String} {f : NamedFunction}
    {lf : LoweredFunction} {s s' : Supply} (h : Gives (lowerFunction opts functions f) s lf s') :
    lf.code.WritesFirst := by
  obtain ⟨hcount, -, pc, inner, s₁, bc, hp, hb, hcode⟩ := gives_function h
  obtain ⟨sc, inner', hs, rfl⟩ := gives_body hb
  rw [hcode]
  have hparams : Defined ∅ pc := defined_params (by omega) hp
  have hbody : Defined ∅ sc := defined_stmts_of (fun t _ => defined_stmt t) hs
  have hfalling : ∀ known, Defined known (falling f.func.body.stmts) := by
    intro known
    refine defined_of_reads fun i hi => ?_
    unfold falling at hi
    split at hi
    · cases hi
    · obtain rfl := List.mem_singleton.1 hi
      simp [Instr.reads, Reg.zero, Reg.isVirtual, Reg.machineCount]
  exact (defined_append.2 ⟨hparams, (defined_append.2 ⟨hbody, hfalling _⟩).anywhere _⟩).writesFirst

/-! ### Generated code -/

section Generation

variable {opts : CodegenOptions} {functions : List String} {labels : Nat}

/-- An error that says that the frame of one of some functions is too large. -/
def FrameTooLarge (fs : List NamedFunction) (e : Traced CodegenError) : Prop :=
  ∃ f ∈ fs, ∃ n, fitsImmediate n = false ∧
    e = ⟨["func " ++ f.name], f.func.loc, .frameSize f.name n⟩

/-- Once a function is lowered, only its frame can be too large. -/
theorem generateFunction_lowered {f : NamedFunction} {lf : LoweredFunction} {s : Supply}
    (h : Gives (lowerFunction opts functions f) { labels } lf s) :
    (∃ code, generateFunction opts functions labels f = .ok (code, s.labels)) ∨
      ∃ n, fitsImmediate n = false ∧
        generateFunction opts functions labels f = .error ⟨f.func.loc, .frameSize f.name n⟩ := by
  obtain ⟨a, -, ha, -⟩ := exists_standard (StackFrame.spillBase s.slots) (writesFirst_function h)
  have hrun : (lowerFunction opts functions f).run { labels } = .ok (lf, s) := h
  unfold generateFunction
  rw [hrun]
  simp only [bind, Except.bind, ha]
  cases hfits : fitsImmediate (StackFrame.size ⟨s.slots, a.spills, a.saved⟩) with
  | true => exact .inl ⟨_, rfl⟩
  | false => exact .inr ⟨_, hfits, rfl⟩

/-- Code generation for functions that are admitted succeeds, or the frame of one of
them is too large. -/
theorem generateFunctions_admitted {fs : List NamedFunction}
    (h : ∀ f ∈ fs, f.Admitted opts functions ∅) :
    (∃ code, generateFunctions opts functions labels fs = .ok code) ∨
      ∃ e, FrameTooLarge fs e ∧ generateFunctions opts functions labels fs = .error e := by
  induction fs generalizing labels with
  | nil => exact .inl ⟨[], rfl⟩
  | cons f fs ih =>
    rw [List.forall_mem_cons] at h
    obtain ⟨lf, s, hlowered⟩ := (lowerFunction_decides opts functions f).gives h.1 { labels }
    rw [generateFunctions]
    rcases generateFunction_lowered hlowered with ⟨code, hcode⟩ | ⟨n, hn, herror⟩
    · rw [hcode]
      rcases @ih s.labels h.2 with ⟨rest, hrest⟩ | ⟨e, ⟨f', hf', n, hn, he⟩, herror⟩
      · refine .inl ⟨code ++ rest, ?_⟩
        show (generateFunctions opts functions s.labels fs >>= fun rest => pure (code ++ rest)) = _
        rw [hrest]
        rfl
      · refine .inr ⟨e, ⟨f', List.mem_cons_of_mem f hf', n, hn, he⟩, ?_⟩
        show (generateFunctions opts functions s.labels fs >>= fun rest => pure (code ++ rest)) = _
        rw [herror]
        rfl
    · rw [herror]
      exact .inr ⟨_, ⟨f, List.mem_cons_self, n, hn, rfl⟩, rfl⟩

/-- Functions for which code is generated are admitted. -/
theorem admitted_of_generateFunctions {fs : List NamedFunction} {code : Listing}
    (h : generateFunctions opts functions labels fs = .ok code) :
    ∀ f ∈ fs, f.Admitted opts functions ∅ := by
  intro f hf
  obtain ⟨start, lf, s, a, origin, hcompiles, -⟩ := generateFunctions_block h hf
  exact ((lowerFunction_decides opts functions f).only _ _ _ hcompiles.lowered).1

end Generation

end FunRiscv
