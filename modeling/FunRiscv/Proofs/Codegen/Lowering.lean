import Mathlib
import FunRiscv.Codegen.Generate

/-!
# What lowering gives

* `Lowering.Gives`: an action succeeds with a result and leaves a supply.
* `Lowering.gives_bind` and others: what the parts of an action give.
* `Lowering.gives_binOp` and others: the code of each kind of expression, pattern and statement is
  put together from the code of its parts.
* `Expr.induction`, `Stmt.induction`: induction over parts.
-/

namespace FunRiscv

/-! ### Parts -/

/-- The expression in a literal pattern. -/
def Pattern.parts : Pattern → List Expr
  | .lit _ v => [v]
  | _ => []

/-- The expressions of an arm. -/
def Case.parts (k : Case) : List Expr := k.pattern.parts ++ [k.body]

/-- The expressions directly inside one that can be lowered. -/
def Expr.parts : Expr → List Expr
  | .binOp _ _ l r => [l, r]
  | .call _ _ args _ => args
  | .ifElse _ c t e => [c, t, e]
  | .matchOn _ s cases => s :: cases.flatMap Case.parts
  | _ => []

theorem Case.sizeOf_lt {k : Case} {x : Expr} (h : x ∈ k.parts) : sizeOf x < sizeOf k := by
  obtain ⟨loc, pattern, body⟩ := k
  rcases List.mem_append.1 h with h | h
  · cases pattern with
    | lit ploc v =>
      obtain rfl : x = v := by simpa [Pattern.parts, Case.pattern] using h
      simp only [Case.mk.sizeOf_spec, Pattern.lit.sizeOf_spec]
      omega
    | _ => simp [Pattern.parts, Case.pattern] at h
  · obtain rfl : x = body := by simpa [Case.body] using h
    simp only [Case.mk.sizeOf_spec]
    omega

theorem Expr.sizeOf_lt {x y : Expr} (h : y ∈ x.parts) : sizeOf y < sizeOf x := by
  cases x with
  | binOp loc op l r =>
    simp only [Expr.parts, List.mem_cons, List.not_mem_nil, or_false] at h
    rcases h with rfl | rfl <;> simp only [Expr.binOp.sizeOf_spec] <;> omega
  | call loc f args named =>
    have := List.sizeOf_lt_of_mem (show y ∈ args from h)
    simp only [Expr.call.sizeOf_spec]
    omega
  | ifElse loc c t e =>
    simp only [Expr.parts, List.mem_cons, List.not_mem_nil, or_false] at h
    rcases h with rfl | rfl | rfl <;> simp only [Expr.ifElse.sizeOf_spec] <;> omega
  | matchOn loc s cases =>
    rcases List.mem_cons.1 h with rfl | h
    · simp only [Expr.matchOn.sizeOf_spec]
      omega
    · obtain ⟨k, hk, hy⟩ := List.mem_flatMap.1 h
      have hlt := Case.sizeOf_lt hy
      have := List.sizeOf_lt_of_mem hk
      simp only [Expr.matchOn.sizeOf_spec]
      omega
  | _ => simp [Expr.parts] at h

/-- Induction over the expressions inside an expression. -/
theorem Expr.induction {P : Expr → Prop} (step : ∀ x, (∀ y ∈ x.parts, P y) → P x) (x : Expr) :
    P x := by
  induction h : sizeOf x using Nat.strong_induction_on generalizing x with
  | _ n ih =>
    refine step x fun y hy => ?_
    have hlt := Expr.sizeOf_lt hy
    rw [h] at hlt
    exact ih (sizeOf y) hlt y rfl

/-- The statements of the arms of a statement. -/
def Stmt.parts : Stmt → List Stmt
  | .ifThen _ _ _ t => t
  | .ifElse _ _ _ t _ e => t ++ e
  | _ => []

/-- Induction over the statements inside a statement. -/
theorem Stmt.induction {P : Stmt → Prop} (step : ∀ s, (∀ t ∈ s.parts, P t) → P s) (s : Stmt) :
    P s := by
  induction h : sizeOf s using Nat.strong_induction_on generalizing s with
  | _ n ih =>
    refine step s fun t ht => ?_
    have hlt : sizeOf t < sizeOf s := by
      cases s with
      | ifThen loc c tl arm =>
        have := List.sizeOf_lt_of_mem (show t ∈ arm from ht)
        simp only [Stmt.ifThen.sizeOf_spec]
        omega
      | ifElse loc c tl arm el other =>
        rcases List.mem_append.1 ht with ht | ht
        · have := List.sizeOf_lt_of_mem ht
          simp only [Stmt.ifElse.sizeOf_spec]
          omega
        · have := List.sizeOf_lt_of_mem ht
          simp only [Stmt.ifElse.sizeOf_spec]
          omega
      | _ => simp [Stmt.parts] at ht
    rw [h] at hlt
    exact ih (sizeOf t) hlt t rfl

namespace Lowering

-- The equations of lowering are worked out here, once for all the proofs that rewrite with them.
attribute [local simp] lowerExpr lowerArgs lowerCases lowerPattern lowerStmt lowerStmts

/-! ### Actions -/

/-- An action succeeds with a result and leaves a supply. -/
def Gives {α : Type} (x : Lowering α) (s : Supply) (a : α) (s' : Supply) : Prop :=
  x.run s = .ok (a, s')

variable {α β : Type} {s s' s'' : Supply}

theorem gives_bind {x : Lowering α} {f : α → Lowering β} {b : β} :
    Gives (x >>= f) s b s'' ↔ ∃ a s', Gives x s a s' ∧ Gives (f a) s' b s'' := by
  unfold Gives
  rw [StateT.run_bind]
  cases h : x.run s with
  | error e =>
    simp only [bind, Except.bind, reduceCtorEq, false_and, exists_false]
  | ok r =>
    obtain ⟨a, s₁⟩ := r
    simp [bind, Except.bind]

theorem gives_pure {a b : α} : Gives (pure a) s b s' ↔ a = b ∧ s = s' := by
  unfold Gives
  rw [StateT.run_pure]
  simp [pure, Except.pure]

theorem not_gives_fail {loc : Location} {cause : CodegenCause} {a : α} :
    ¬Gives (fail loc cause) s a s' := by
  intro h
  cases h

theorem gives_newReg {r : Reg} :
    Gives newReg s r s' ↔ r = .virtual s.regs ∧ s' = { s with regs := s.regs + 1 } := by
  have h : newReg.run s = .ok (.virtual s.regs, { s with regs := s.regs + 1 }) := rfl
  unfold Gives
  rw [h]
  simp [eq_comm]

/-- How a new label is called. -/
def labelName (stem : String) (n : Nat) : String := stem ++ "_" ++ toString n

theorem gives_newLabel {stem l : String} :
    Gives (newLabel stem) s l s' ↔ l = labelName stem (s.labels + 1) ∧
      s' = { s with labels := s.labels + 1 } := by
  have h : (newLabel stem).run s = .ok (labelName stem (s.labels + 1),
    { s with labels := s.labels + 1 }) := rfl
  unfold Gives
  rw [h]
  simp [eq_comm]

/-- Where a variable lies in the frame. -/
def slotOffset (n : Nat) : Int32 := Int32.ofNat (slotBase + slotSize * n)

theorem gives_newSlot {o : Int32} :
    Gives newSlot s o s' ↔ o = slotOffset s.slots ∧ s' = { s with slots := s.slots + 1 } := by
  have h : newSlot.run s = .ok (slotOffset s.slots, { s with slots := s.slots + 1 }) := rfl
  unfold Gives
  rw [h]
  simp [eq_comm]

theorem gives_checkDepth {c : LowerContext} {depth : Nat} {loc : Location} {u : Unit}
    (h : Gives (checkDepth c depth loc) s u s') : s' = s := by
  unfold checkDepth at h
  split at h
  · exact absurd h not_gives_fail
  · exact (gives_pure.1 h).2.symm

theorem gives_constant {n : Int32} {code : Listing} {r : Reg}
    (h : Gives (constant n) s (code, r) s') :
    code = [.li (.virtual s.regs) n] ∧ r = .virtual s.regs ∧
      s' = { s with regs := s.regs + 1 } := by
  rw [constant, gives_bind] at h
  obtain ⟨q, s₁, hq, h⟩ := h
  obtain ⟨rfl, rfl⟩ := gives_newReg.1 hq
  rw [gives_pure, Prod.mk.injEq] at h
  obtain ⟨⟨rfl, rfl⟩, rfl⟩ := h
  exact ⟨rfl, rfl, rfl⟩

/-! ### Expressions -/

variable {c : LowerContext} {slots : Slots} {depth : Nat} {code : Listing} {r : Reg}

/-- The word that a literal stands for. -/
def literal? : Expr → Option Int32
  | .uint _ v => some (Int32.ofNat v.toNat)
  | .int _ v => some v
  | .bool _ v => some (if v then 1 else 0)
  | .eraser _ => some 0
  | _ => none

theorem gives_literal {x : Expr} {n : Int32} (hx : literal? x = some n)
    (h : Gives (lowerExpr c slots depth x) s (code, r) s') :
    code = [.li (.virtual s.regs) n] ∧ r = .virtual s.regs ∧
      s' = { s with regs := s.regs + 1 } := by
  cases x with
  | uint loc v =>
    obtain rfl := Option.some.inj hx
    rw [lowerExpr] at h
    rw [gives_bind] at h
    obtain ⟨_, s₁, hd, h⟩ := h
    obtain rfl := gives_checkDepth hd
    split at h
    · exact absurd h not_gives_fail
    · exact gives_constant h
  | int loc v =>
    obtain rfl := Option.some.inj hx
    rw [lowerExpr] at h
    rw [gives_bind] at h
    obtain ⟨_, s₁, hd, h⟩ := h
    obtain rfl := gives_checkDepth hd
    split at h
    · exact absurd h not_gives_fail
    · exact gives_constant h
  | bool loc v =>
    obtain rfl := Option.some.inj hx
    rw [lowerExpr] at h
    rw [gives_bind] at h
    obtain ⟨_, s₁, hd, h⟩ := h
    obtain rfl := gives_checkDepth hd
    exact gives_constant h
  | eraser loc =>
    obtain rfl := Option.some.inj hx
    rw [lowerExpr] at h
    rw [gives_bind] at h
    obtain ⟨_, s₁, hd, h⟩ := h
    obtain rfl := gives_checkDepth hd
    exact gives_constant h
  | _ => cases hx

theorem gives_var {loc : Location} {name : String}
    (h : Gives (lowerExpr c slots depth (.var loc name)) s (code, r) s') :
    r = .virtual s.regs ∧ s' = { s with regs := s.regs + 1 } ∧
      ((∃ o, slots.lookup name = some o ∧ code = [.load .lw (.virtual s.regs) .sp o]) ∨
        slots.lookup name = none ∧
          ∃ l, c.functionLabel? name = some l ∧ code = [.la (.virtual s.regs) l]) := by
  rw [lowerExpr] at h
  rw [gives_bind] at h
  obtain ⟨_, s₁, hd, h⟩ := h
  obtain rfl := gives_checkDepth hd
  rw [loadVariable, gives_bind] at h
  obtain ⟨q, s₂, hq, h⟩ := h
  obtain ⟨rfl, rfl⟩ := gives_newReg.1 hq
  split at h
  · next o ho =>
    rw [gives_pure, Prod.mk.injEq] at h
    obtain ⟨⟨rfl, rfl⟩, rfl⟩ := h
    exact ⟨rfl, rfl, .inl ⟨o, ho, rfl⟩⟩
  · next ho =>
    split at h
    · next l hl =>
      rw [gives_pure, Prod.mk.injEq] at h
      obtain ⟨⟨rfl, rfl⟩, rfl⟩ := h
      exact ⟨rfl, rfl, .inr ⟨ho, l, hl, rfl⟩⟩
    · exact absurd h not_gives_fail

theorem gives_operator {op : Operator} {a b : Reg} (h : Gives (operator op a b) s (code, r) s') :
    r = .virtual s.regs ∧
      ((needsIntermediate op = true ∧
          code = operatorCode op (.virtual s.regs) a b (.virtual (s.regs + 1)) ∧
          s' = { s with regs := s.regs + 2 }) ∨
        needsIntermediate op = false ∧
          code = operatorCode op (.virtual s.regs) a b (.virtual s.regs) ∧
          s' = { s with regs := s.regs + 1 }) := by
  rw [operator, gives_bind] at h
  obtain ⟨d, s₁, hd, h⟩ := h
  obtain ⟨rfl, rfl⟩ := gives_newReg.1 hd
  dsimp only at h
  split at h
  · next hop =>
    rw [gives_bind] at h
    obtain ⟨t, s₂, ht, h⟩ := h
    obtain ⟨rfl, rfl⟩ := gives_newReg.1 ht
    rw [gives_pure, Prod.mk.injEq] at h
    obtain ⟨⟨rfl, rfl⟩, rfl⟩ := h
    exact ⟨rfl, .inl ⟨hop, rfl, rfl⟩⟩
  · next hop =>
    rw [gives_bind] at h
    obtain ⟨t, s₂, ht, h⟩ := h
    obtain ⟨rfl, rfl⟩ := gives_pure.1 ht
    rw [gives_pure, Prod.mk.injEq] at h
    obtain ⟨⟨rfl, rfl⟩, rfl⟩ := h
    exact ⟨rfl, .inr ⟨by simpa using hop, rfl, rfl⟩⟩

theorem gives_binOp {loc : Location} {op : Operator} {x y : Expr}
    (h : Gives (lowerExpr c slots depth (.binOp loc op x y)) s (code, r) s') :
    op ≠ .pow ∧ ∃ xc xr s₁ yc yr s₂ oc, Gives (lowerExpr c slots (depth + 1) x) s (xc, xr) s₁ ∧
      Gives (lowerExpr c slots (depth + 1) y) s₁ (yc, yr) s₂ ∧
      Gives (operator op xr yr) s₂ (oc, r) s' ∧ code = xc ++ yc ++ oc := by
  rw [lowerExpr] at h
  rw [gives_bind] at h
  obtain ⟨_, s₁, hd, h⟩ := h
  obtain rfl := gives_checkDepth hd
  dsimp only at h
  split at h
  · exact absurd h not_gives_fail
  · next hop =>
    rw [gives_bind] at h
    obtain ⟨⟨xc, xr⟩, s₁, hx, h⟩ := h
    rw [gives_bind] at h
    obtain ⟨⟨yc, yr⟩, s₂, hy, h⟩ := h
    rw [gives_bind] at h
    obtain ⟨⟨oc, d⟩, s₃, ho, h⟩ := h
    rw [gives_pure, Prod.mk.injEq] at h
    obtain ⟨⟨rfl, rfl⟩, rfl⟩ := h
    exact ⟨hop, xc, xr, s₁, yc, yr, s₂, oc, hx, hy, ho, rfl⟩

theorem gives_callee {loc : Location} {f : Expr} {n : Nat} {named : Bool} {l : String}
    (h : Gives (callee c slots loc f n named) s l s') :
    s' = s ∧ named = false ∧ n ≤ Reg.argCount ∧
      ∃ vloc name, f = .var vloc name ∧ slots.lookup name = none ∧
      c.functionLabel? name = some l := by
  unfold callee at h
  split at h
  · next vloc name =>
    split at h
    · exact absurd h not_gives_fail
    · exact absurd h not_gives_fail
    · next l' hs hl =>
      split at h
      · exact absurd h not_gives_fail
      · next hn =>
        split at h
        · exact absurd h not_gives_fail
        · next hargs =>
          obtain ⟨rfl, rfl⟩ := gives_pure.1 h
          exact ⟨rfl, by simpa using hn, by omega, vloc, name, rfl, hs, hl⟩
  · exact absurd h not_gives_fail

theorem gives_call {loc : Location} {f : Expr} {args : List Expr} {named : List NamedArg}
    (h : Gives (lowerExpr c slots depth (.call loc f args named)) s (code, r) s') :
    named = [] ∧ args.length ≤ Reg.argCount ∧
      ∃ vloc name l ac rs s₁, f = .var vloc name ∧ slots.lookup name = none ∧
        c.functionLabel? name = some l ∧ Gives (lowerArgs c slots (depth + 1) args) s (ac, rs) s₁ ∧
        r = .virtual s₁.regs ∧ s' = { s₁ with regs := s₁.regs + 1 } ∧
        code = ac ++ passArgs 0 rs ++ [Instr.jal .ra l, Instr.mv (.virtual s₁.regs) .a0] := by
  rw [lowerExpr] at h
  rw [gives_bind] at h
  obtain ⟨_, s₁, hd, h⟩ := h
  obtain rfl := gives_checkDepth hd
  rw [gives_bind] at h
  obtain ⟨l, s₂, hl, h⟩ := h
  obtain ⟨rfl, hnamed, hcount, vloc, name, rfl, hnone, hlabel⟩ := gives_callee hl
  rw [gives_bind] at h
  obtain ⟨⟨ac, rs⟩, s₃, ha, h⟩ := h
  rw [gives_bind] at h
  obtain ⟨d, s₄, hr, h⟩ := h
  obtain ⟨rfl, rfl⟩ := gives_newReg.1 hr
  rw [gives_pure, Prod.mk.injEq] at h
  obtain ⟨⟨rfl, rfl⟩, rfl⟩ := h
  exact ⟨by simpa using hnamed, hcount, vloc, name, l, ac, rs, s₃, rfl, hnone, hlabel, ha,
    rfl, rfl, rfl⟩

theorem gives_args_nil {code : Listing} {rs : List Reg}
    (h : Gives (lowerArgs c slots depth []) s (code, rs) s') : code = [] ∧ rs = [] ∧ s' = s := by
  rw [lowerArgs] at h
  rw [gives_pure, Prod.mk.injEq] at h
  obtain ⟨⟨rfl, rfl⟩, rfl⟩ := h
  exact ⟨rfl, rfl, rfl⟩

theorem gives_args_cons {x : Expr} {xs : List Expr} {code : Listing} {rs : List Reg}
    (h : Gives (lowerArgs c slots depth (x :: xs)) s (code, rs) s') :
    ∃ xc xr s₁ rest rs', Gives (lowerExpr c slots depth x) s (xc, xr) s₁ ∧
      Gives (lowerArgs c slots depth xs) s₁ (rest, rs') s' ∧ code = xc ++ rest ∧
      rs = xr :: rs' := by
  rw [lowerArgs] at h
  rw [gives_bind] at h
  obtain ⟨⟨xc, xr⟩, s₁, hx, h⟩ := h
  rw [gives_bind] at h
  obtain ⟨⟨rest, rs'⟩, s₂, hr, h⟩ := h
  rw [gives_pure, Prod.mk.injEq] at h
  obtain ⟨⟨rfl, rfl⟩, rfl⟩ := h
  exact ⟨xc, xr, s₁, rest, rs', hx, hr, rfl, rfl⟩

/-- The supply after three new labels. -/
def afterChoice (s : Supply) : Supply := { s with labels := s.labels + 3 }

/-- The labels of the first arm, of the second and of the end of a choice. -/
def thenLabel (s : Supply) : String := labelName "then" (s.labels + 1)

@[inherit_doc thenLabel]
def elseLabel (s : Supply) : String := labelName "else" (s.labels + 2)

@[inherit_doc thenLabel]
def endLabel (s : Supply) : String := labelName "endif" (s.labels + 3)

/-- The code of a choice: it goes through one piece of code if a register is not zero and through
another if it is. -/
def choice (x : Reg) (s : Supply) (t e : Listing) : Listing :=
  choose x (thenLabel s) (elseLabel s) ++ t ++ [.jal .zero (endLabel s), .label (elseLabel s)] ++
    e ++ [.label (endLabel s)]

theorem gives_ifElse {loc : Location} {x t e : Expr}
    (h : Gives (lowerExpr c slots depth (.ifElse loc x t e)) s (code, r) s') :
    ∃ xc xr s₁ tc tr s₂ ec er, Gives (lowerExpr c slots (depth + 1) x) s (xc, xr) s₁ ∧
      Gives (lowerExpr c slots (depth + 1) t) (afterChoice { s₁ with regs := s₁.regs + 1 })
        (tc, tr) s₂ ∧
      Gives (lowerExpr c slots (depth + 1) e) s₂ (ec, er) s' ∧ r = .virtual s₁.regs ∧
      code = xc ++ choice xr s₁ (tc ++ [Instr.mv (.virtual s₁.regs) tr])
        (ec ++ [Instr.mv (.virtual s₁.regs) er]) := by
  rw [lowerExpr, gives_bind] at h
  obtain ⟨_, s₁, hd, h⟩ := h
  obtain rfl := gives_checkDepth hd
  rw [gives_bind] at h
  obtain ⟨⟨xc, xr⟩, s₁, hx, h⟩ := h
  rw [gives_bind] at h
  obtain ⟨d, s₂, hr, h⟩ := h
  obtain ⟨rfl, rfl⟩ := gives_newReg.1 hr
  rw [gives_bind] at h
  obtain ⟨l₁, s₂, hl, h⟩ := h
  obtain ⟨rfl, rfl⟩ := gives_newLabel.1 hl
  rw [gives_bind] at h
  obtain ⟨l₂, s₂, hl, h⟩ := h
  obtain ⟨rfl, rfl⟩ := gives_newLabel.1 hl
  rw [gives_bind] at h
  obtain ⟨l₃, s₂, hl, h⟩ := h
  obtain ⟨rfl, rfl⟩ := gives_newLabel.1 hl
  rw [gives_bind] at h
  obtain ⟨⟨tc, tr⟩, s₂, ht, h⟩ := h
  rw [gives_bind] at h
  obtain ⟨⟨ec, er⟩, s₃, he, h⟩ := h
  rw [gives_pure, Prod.mk.injEq] at h
  obtain ⟨⟨rfl, rfl⟩, rfl⟩ := h
  refine ⟨xc, xr, s₁, tc, tr, s₂, ec, er, hx, ht, he, rfl, ?_⟩
  simp [choice, thenLabel, elseLabel, endLabel]

/-- The label of the end of a match. -/
def matchLabel (s : Supply) : String := labelName "match_end" (s.labels + 1)

/-- The label of the next arm of a match. -/
def caseLabel (s : Supply) : String := labelName "case" (s.labels + 1)

theorem gives_matchOn {loc : Location} {x : Expr} {cases : List Case}
    (h : Gives (lowerExpr c slots depth (.matchOn loc x cases)) s (code, r) s') :
    ∃ xc xr s₁ body, Gives (lowerExpr c slots (depth + 1) x) s (xc, xr) s₁ ∧
      Gives (lowerCases c slots (depth + 1) xr (.virtual s₁.regs) (matchLabel s₁) cases)
        { s₁ with regs := s₁.regs + 1, labels := s₁.labels + 1 } body s' ∧
      r = .virtual s₁.regs ∧
      code = xc ++ body ++ [Instr.li (.virtual s₁.regs) 0, Instr.label (matchLabel s₁)] := by
  rw [lowerExpr, gives_bind] at h
  obtain ⟨_, s₁, hd, h⟩ := h
  obtain rfl := gives_checkDepth hd
  rw [gives_bind] at h
  obtain ⟨⟨xc, xr⟩, s₁, hx, h⟩ := h
  rw [gives_bind] at h
  obtain ⟨d, s₂, hr, h⟩ := h
  obtain ⟨rfl, rfl⟩ := gives_newReg.1 hr
  rw [gives_bind] at h
  obtain ⟨l₁, s₂, hl, h⟩ := h
  obtain ⟨rfl, rfl⟩ := gives_newLabel.1 hl
  rw [gives_bind] at h
  obtain ⟨body, s₂, hb, h⟩ := h
  rw [gives_pure, Prod.mk.injEq] at h
  obtain ⟨⟨rfl, rfl⟩, rfl⟩ := h
  exact ⟨xc, xr, s₁, body, hx, hb, rfl, rfl⟩

theorem gives_cases_nil {a d : Reg} {l : String}
    (h : Gives (lowerCases c slots depth a d l []) s code s') : code = [] ∧ s' = s := by
  rw [lowerCases, gives_pure] at h
  exact ⟨h.1.symm, h.2.symm⟩

theorem gives_cases_cons {a d : Reg} {l : String} {loc : Location} {pattern : Pattern} {body : Expr}
    {rest : List Case}
    (h : Gives (lowerCases c slots depth a d l (.mk loc pattern body :: rest)) s code s') :
    ∃ test inner s₁ bc br s₂ others,
      Gives (lowerPattern c slots depth a (caseLabel s) pattern) { s with labels := s.labels + 1 }
        (test, inner) s₁ ∧
      Gives (lowerExpr c inner depth body) s₁ (bc, br) s₂ ∧
      Gives (lowerCases c slots depth a d l rest) s₂ others s' ∧
      code = test ++ bc ++ [Instr.mv d br, Instr.jal .zero l, Instr.label (caseLabel s)] ++
        others := by
  rw [lowerCases, gives_bind] at h
  obtain ⟨next, s₁, hl, h⟩ := h
  obtain ⟨rfl, rfl⟩ := gives_newLabel.1 hl
  rw [gives_bind] at h
  obtain ⟨⟨test, inner⟩, s₁, hp, h⟩ := h
  rw [gives_bind] at h
  obtain ⟨⟨bc, br⟩, s₂, hb, h⟩ := h
  rw [gives_bind] at h
  obtain ⟨others, s₃, ho, h⟩ := h
  rw [gives_pure] at h
  obtain ⟨rfl, rfl⟩ := h
  exact ⟨test, inner, s₁, bc, br, s₂, others, hp, hb, ho, rfl⟩

/-- The code of a pattern: a literal is compared with, a variable gets a word of its
own, a wildcard fits. -/
theorem gives_pattern {a : Reg} {next : String} {pattern : Pattern} {inner : Slots}
    (h : Gives (lowerPattern c slots depth a next pattern) s (code, inner) s') :
    (∃ loc v vc vr, pattern = .lit loc v ∧ Gives (lowerExpr c slots depth v) s (vc, vr) s' ∧
      inner = slots ∧ code = vc ++ [Instr.branch .bne a vr next]) ∨
    (∃ loc name, pattern = .var loc name ∧ s' = { s with slots := s.slots + 1 } ∧
      inner = (name, slotOffset s.slots) :: slots ∧
      code = [.store .sw a .sp (slotOffset s.slots)]) ∨
    (∃ loc, pattern = .wild loc ∧ s' = s ∧ inner = slots ∧ code = []) := by
  cases pattern with
  | lit loc v =>
    rw [lowerPattern, gives_bind] at h
    obtain ⟨⟨vc, vr⟩, s₁, hv, h⟩ := h
    rw [gives_pure, Prod.mk.injEq] at h
    obtain ⟨⟨rfl, rfl⟩, rfl⟩ := h
    exact .inl ⟨loc, v, vc, vr, rfl, hv, rfl, rfl⟩
  | var loc name =>
    rw [lowerPattern, gives_bind] at h
    obtain ⟨o, s₁, ho, h⟩ := h
    obtain ⟨rfl, rfl⟩ := gives_newSlot.1 ho
    rw [gives_pure, Prod.mk.injEq] at h
    obtain ⟨⟨rfl, rfl⟩, rfl⟩ := h
    exact .inr (.inl ⟨loc, name, rfl, rfl, rfl, rfl⟩)
  | wild loc =>
    rw [lowerPattern, gives_pure, Prod.mk.injEq] at h
    obtain ⟨⟨rfl, rfl⟩, rfl⟩ := h
    exact .inr (.inr ⟨loc, rfl, rfl, rfl, rfl⟩)
  | cons loc name args =>
    rw [lowerPattern] at h
    exact absurd h not_gives_fail
  | tuple loc elems =>
    rw [lowerPattern] at h
    exact absurd h not_gives_fail
  | missing =>
    rw [lowerPattern] at h
    exact absurd h not_gives_fail

/-- The expressions that have code. -/
theorem shape_of_gives {x : Expr} (h : Gives (lowerExpr c slots depth x) s (code, r) s') :
    (literal? x).isSome = true ∨ (∃ loc name, x = .var loc name) ∨
      (∃ loc op l y, x = .binOp loc op l y) ∨ (∃ loc f args named, x = .call loc f args named) ∨
      (∃ loc y t e, x = .ifElse loc y t e) ∨ ∃ loc y cases, x = .matchOn loc y cases := by
  cases x with
  | uint | int | bool | eraser => exact .inl rfl
  | var loc name => exact .inr (.inl ⟨loc, name, rfl⟩)
  | binOp loc op l y => exact .inr (.inr (.inl ⟨loc, op, l, y, rfl⟩))
  | call loc f args named => exact .inr (.inr (.inr (.inl ⟨loc, f, args, named, rfl⟩)))
  | ifElse loc y t e => exact .inr (.inr (.inr (.inr (.inl ⟨loc, y, t, e, rfl⟩))))
  | matchOn loc y cases => exact .inr (.inr (.inr (.inr (.inr ⟨loc, y, cases, rfl⟩))))
  | _ =>
    rw [lowerExpr, gives_bind] at h
    obtain ⟨_, s₁, hd, h⟩ := h
    exact absurd h not_gives_fail

/-! ### Statements -/

variable {slots' : Slots}

theorem gives_slotOf {name : String} {o : Int32} (h : Gives (slotOf slots name) s (o, slots') s') :
    (slots.lookup name = some o ∧ slots' = slots ∧ s' = s) ∨
      slots.lookup name = none ∧ o = slotOffset s.slots ∧
        slots' = (name, slotOffset s.slots) :: slots ∧ s' = { s with slots := s.slots + 1 } := by
  unfold slotOf at h
  split at h
  · next o' ho =>
    rw [gives_pure, Prod.mk.injEq] at h
    obtain ⟨⟨rfl, rfl⟩, rfl⟩ := h
    exact .inl ⟨ho, rfl, rfl⟩
  · next ho =>
    rw [gives_bind] at h
    obtain ⟨o', s₁, hn, h⟩ := h
    obtain ⟨rfl, rfl⟩ := gives_newSlot.1 hn
    rw [gives_pure, Prod.mk.injEq] at h
    obtain ⟨⟨rfl, rfl⟩, rfl⟩ := h
    exact .inr ⟨ho, rfl, rfl, rfl⟩

theorem gives_store {name : String} {x : Expr}
    (h : Gives (lowerStore c slots depth name x) s (code, slots') s') :
    ∃ xc xr s₁ o, Gives (lowerExpr c slots depth x) s (xc, xr) s₁ ∧
      Gives (slotOf slots name) s₁ (o, slots') s' ∧ code = xc ++ [Instr.store .sw xr .sp o] := by
  rw [lowerStore, gives_bind] at h
  obtain ⟨⟨xc, xr⟩, s₁, hx, h⟩ := h
  rw [gives_bind] at h
  obtain ⟨⟨o, inner⟩, s₂, ho, h⟩ := h
  rw [gives_pure, Prod.mk.injEq] at h
  obtain ⟨⟨rfl, rfl⟩, rfl⟩ := h
  exact ⟨xc, xr, s₁, o, hx, ho, rfl⟩

/-- What follows the value of a return: a jump to the end, unless the return stands last. -/
def leaving (c : LowerContext) (last : Bool) : Listing := if last then [] else [.jal .zero c.exit]

theorem gives_return {last : Bool} {x : Option Expr}
    (h : Gives (lowerReturn c slots depth last x) s code s') :
    (x = none ∧ s' = s ∧ code = [Instr.mv .a0 .zero] ++ leaving c last) ∨
      ∃ y xc xr, x = some y ∧ Gives (lowerExpr c slots depth y) s (xc, xr) s' ∧
        code = xc ++ [Instr.mv .a0 xr] ++ leaving c last := by
  cases x with
  | none =>
    rw [lowerReturn] at h
    dsimp only at h
    rw [gives_bind] at h
    obtain ⟨⟨xc, xr⟩, s₁, hx, h⟩ := h
    rw [gives_pure, Prod.mk.injEq] at hx
    obtain ⟨⟨rfl, rfl⟩, rfl⟩ := hx
    obtain ⟨rfl, rfl⟩ := gives_pure.1 h
    exact .inl ⟨rfl, rfl, rfl⟩
  | some y =>
    rw [lowerReturn] at h
    dsimp only at h
    rw [gives_bind] at h
    obtain ⟨⟨xc, xr⟩, s₁, hx, h⟩ := h
    rw [gives_pure] at h
    obtain ⟨rfl, rfl⟩ := h
    exact .inr ⟨y, xc, xr, rfl, hx, rfl⟩

variable {last : Bool}

/-- What stands in front of a statement: comments, and nothing unless statements are
shown in comments. -/
def IsNote (c : LowerContext) (note : Listing) : Prop :=
  (c.comments = false → note = []) ∧ ∀ i ∈ note, ∃ t, i = .comment t

/-- Code is the code of a statement with a note in front. -/
def Noted (c : LowerContext) (code rest : Listing) : Prop :=
  ∃ note, code = note ++ rest ∧ IsNote c note

theorem Noted.eq {rest : Listing} (h : Noted c code rest) (hc : c.comments = false) :
    code = rest := by
  obtain ⟨note, rfl, hnote⟩ := h
  rw [hnote.1 hc, List.nil_append]

theorem gives_describe {st : Stmt} {i : Instr} (h : Gives (describe st) s i s') :
    s' = s ∧ ∃ t, i = .comment t := by
  unfold describe at h
  split at h
  · exact absurd h not_gives_fail
  · split at h
    · obtain ⟨rfl, rfl⟩ := gives_pure.1 h
      exact ⟨rfl, _, rfl⟩
    · exact absurd h not_gives_fail

/-- The comment on a statement takes nothing from the supply. -/
theorem gives_note {α : Type} {st : Stmt} {k : Listing → Lowering α} {a : α}
    (h : Gives (if c.comments then describe st >>= fun i => pure [i] >>= k else
      pure [] >>= k) s a s') :
    ∃ note, IsNote c note ∧ Gives (k note) s a s' := by
  split at h
  · next hc =>
    rw [gives_bind] at h
    obtain ⟨i, s₁, hi, h⟩ := h
    obtain ⟨rfl, t, rfl⟩ := gives_describe hi
    rw [pure_bind] at h
    exact ⟨[.comment t], ⟨by simp [hc], by simp⟩, h⟩
  · rw [pure_bind] at h
    exact ⟨[], ⟨fun _ => rfl, by simp⟩, h⟩

theorem gives_noted_ret {loc : Location} {x : Option Expr}
    (h : Gives (lowerStmt c slots depth last (.ret loc x)) s (code, slots') s') :
    ∃ rest, Noted c code rest ∧ slots' = slots ∧
      Gives (lowerReturn c slots (depth + 1) last x) s rest s' := by
  rw [lowerStmt] at h
  obtain ⟨note, hnote, h⟩ := gives_note h
  rw [gives_bind] at h
  obtain ⟨rc, s₂, hr, h⟩ := h
  rw [gives_bind] at h
  obtain ⟨⟨body, inner⟩, s₄, hb, h⟩ := h
  rw [gives_pure, Prod.mk.injEq] at hb
  obtain ⟨⟨rfl, rfl⟩, rfl⟩ := hb
  rw [gives_pure, Prod.mk.injEq] at h
  obtain ⟨⟨rfl, rfl⟩, rfl⟩ := h
  exact ⟨_, ⟨note, rfl, hnote⟩, rfl, hr⟩

theorem gives_ret {loc : Location} {x : Option Expr} (hc : c.comments = false)
    (h : Gives (lowerStmt c slots depth last (.ret loc x)) s (code, slots') s') :
    slots' = slots ∧ Gives (lowerReturn c slots (depth + 1) last x) s code s' := by
  obtain ⟨rest, hnoted, hslots, hrest⟩ := gives_noted_ret h
  exact ⟨hslots, hnoted.eq hc ▸ hrest⟩

theorem gives_noted_assign {loc : Location} {name : String} {type : Option TypeExpr} {x : Expr}
    (h : Gives (lowerStmt c slots depth last (.assign loc name type x)) s (code, slots') s') :
    ∃ rest, Noted c code rest ∧
      Gives (lowerStore c slots (depth + 1) name x) s (rest, slots') s' := by
  rw [lowerStmt] at h
  obtain ⟨note, hnote, h⟩ := gives_note h
  rw [gives_bind] at h
  obtain ⟨⟨body, inner⟩, s₂, hb, h⟩ := h
  rw [gives_pure, Prod.mk.injEq] at h
  obtain ⟨⟨rfl, rfl⟩, rfl⟩ := h
  exact ⟨_, ⟨note, rfl, hnote⟩, hb⟩

theorem gives_assign {loc : Location} {name : String} {type : Option TypeExpr} {x : Expr}
    (hc : c.comments = false)
    (h : Gives (lowerStmt c slots depth last (.assign loc name type x)) s (code, slots') s') :
    Gives (lowerStore c slots (depth + 1) name x) s (code, slots') s' := by
  obtain ⟨rest, hnoted, hrest⟩ := gives_noted_assign h
  exact hnoted.eq hc ▸ hrest

theorem gives_noted_use {loc : Location} {name : String} {x : Expr}
    (h : Gives (lowerStmt c slots depth last (.use loc name x)) s (code, slots') s') :
    ∃ rest, Noted c code rest ∧
      Gives (lowerStore c slots (depth + 1) name x) s (rest, slots') s' := by
  rw [lowerStmt] at h
  obtain ⟨note, hnote, h⟩ := gives_note h
  rw [gives_bind] at h
  obtain ⟨⟨body, inner⟩, s₂, hb, h⟩ := h
  rw [gives_pure, Prod.mk.injEq] at h
  obtain ⟨⟨rfl, rfl⟩, rfl⟩ := h
  exact ⟨_, ⟨note, rfl, hnote⟩, hb⟩

theorem gives_use {loc : Location} {name : String} {x : Expr} (hc : c.comments = false)
    (h : Gives (lowerStmt c slots depth last (.use loc name x)) s (code, slots') s') :
    Gives (lowerStore c slots (depth + 1) name x) s (code, slots') s' := by
  obtain ⟨rest, hnoted, hrest⟩ := gives_noted_use h
  exact hnoted.eq hc ▸ hrest

theorem gives_noted_ifThen {loc tl : Location} {x : Expr} {t : List Stmt}
    (h : Gives (lowerStmt c slots depth last (.ifThen loc x tl t)) s (code, slots') s') :
    ∃ xc xr s₁ tc, Gives (lowerExpr c slots (depth + 1) x) s (xc, xr) s₁ ∧
      Gives (lowerStmts c slots (depth + 1) false t) (afterChoice s₁) (tc, slots') s' ∧
      Noted c code (xc ++ choice xr s₁ tc []) := by
  rw [lowerStmt] at h
  obtain ⟨note, hnote, h⟩ := gives_note h
  rw [gives_bind] at h
  obtain ⟨⟨xc, xr⟩, s₁, hx, h⟩ := h
  rw [gives_bind] at h
  obtain ⟨l₁, s₂, hl, h⟩ := h
  obtain ⟨rfl, rfl⟩ := gives_newLabel.1 hl
  rw [gives_bind] at h
  obtain ⟨l₂, s₂, hl, h⟩ := h
  obtain ⟨rfl, rfl⟩ := gives_newLabel.1 hl
  rw [gives_bind] at h
  obtain ⟨l₃, s₂, hl, h⟩ := h
  obtain ⟨rfl, rfl⟩ := gives_newLabel.1 hl
  rw [gives_bind] at h
  obtain ⟨_, s₂, hd, h⟩ := h
  obtain rfl := gives_checkDepth hd
  rw [gives_bind] at h
  obtain ⟨⟨tc, inner'⟩, s₂, ht, h⟩ := h
  rw [gives_bind] at h
  obtain ⟨⟨body, inner⟩, s₄, hb, h⟩ := h
  rw [gives_pure, Prod.mk.injEq] at hb
  obtain ⟨⟨rfl, rfl⟩, rfl⟩ := hb
  rw [gives_pure, Prod.mk.injEq] at h
  obtain ⟨⟨rfl, rfl⟩, rfl⟩ := h
  refine ⟨xc, xr, s₁, tc, hx, ht, note, ?_, hnote⟩
  simp [choice, thenLabel, elseLabel, endLabel]

theorem gives_ifThen {loc tl : Location} {x : Expr} {t : List Stmt} (hc : c.comments = false)
    (h : Gives (lowerStmt c slots depth last (.ifThen loc x tl t)) s (code, slots') s') :
    ∃ xc xr s₁ tc, Gives (lowerExpr c slots (depth + 1) x) s (xc, xr) s₁ ∧
      Gives (lowerStmts c slots (depth + 1) false t) (afterChoice s₁) (tc, slots') s' ∧
      code = xc ++ choice xr s₁ tc [] := by
  obtain ⟨xc, xr, s₁, tc, hx, ht, hnoted⟩ := gives_noted_ifThen h
  exact ⟨xc, xr, s₁, tc, hx, ht, hnoted.eq hc⟩

theorem gives_noted_ifElse {loc tl el : Location} {x : Expr} {t e : List Stmt}
    (h : Gives (lowerStmt c slots depth last (.ifElse loc x tl t el e)) s (code, slots') s') :
    ∃ xc xr s₁ tc inner s₂ ec, Gives (lowerExpr c slots (depth + 1) x) s (xc, xr) s₁ ∧
      Gives (lowerStmts c slots (depth + 1) false t) (afterChoice s₁) (tc, inner) s₂ ∧
      Gives (lowerStmts c inner (depth + 1) false e) s₂ (ec, slots') s' ∧
      Noted c code (xc ++ choice xr s₁ tc ec) := by
  rw [lowerStmt] at h
  obtain ⟨note, hnote, h⟩ := gives_note h
  rw [gives_bind] at h
  obtain ⟨⟨xc, xr⟩, s₁, hx, h⟩ := h
  rw [gives_bind] at h
  obtain ⟨l₁, s₂, hl, h⟩ := h
  obtain ⟨rfl, rfl⟩ := gives_newLabel.1 hl
  rw [gives_bind] at h
  obtain ⟨l₂, s₂, hl, h⟩ := h
  obtain ⟨rfl, rfl⟩ := gives_newLabel.1 hl
  rw [gives_bind] at h
  obtain ⟨l₃, s₂, hl, h⟩ := h
  obtain ⟨rfl, rfl⟩ := gives_newLabel.1 hl
  rw [gives_bind] at h
  obtain ⟨_, s₂, hd, h⟩ := h
  obtain rfl := gives_checkDepth hd
  rw [gives_bind] at h
  obtain ⟨⟨tc, inner'⟩, s₂, ht, h⟩ := h
  rw [gives_bind] at h
  obtain ⟨_, s₃, hd, h⟩ := h
  obtain rfl := gives_checkDepth hd
  rw [gives_bind] at h
  obtain ⟨⟨ec, inner''⟩, s₃, he, h⟩ := h
  rw [gives_bind] at h
  obtain ⟨⟨body, inner⟩, s₄, hb, h⟩ := h
  rw [gives_pure, Prod.mk.injEq] at hb
  obtain ⟨⟨rfl, rfl⟩, rfl⟩ := hb
  rw [gives_pure, Prod.mk.injEq] at h
  obtain ⟨⟨rfl, rfl⟩, rfl⟩ := h
  refine ⟨xc, xr, s₁, tc, inner', _, ec, hx, ht, he, note, ?_, hnote⟩
  simp [choice, thenLabel, elseLabel, endLabel]

theorem gives_ifElseStmt {loc tl el : Location} {x : Expr} {t e : List Stmt}
    (hc : c.comments = false)
    (h : Gives (lowerStmt c slots depth last (.ifElse loc x tl t el e)) s (code, slots') s') :
    ∃ xc xr s₁ tc inner s₂ ec, Gives (lowerExpr c slots (depth + 1) x) s (xc, xr) s₁ ∧
      Gives (lowerStmts c slots (depth + 1) false t) (afterChoice s₁) (tc, inner) s₂ ∧
      Gives (lowerStmts c inner (depth + 1) false e) s₂ (ec, slots') s' ∧
      code = xc ++ choice xr s₁ tc ec := by
  obtain ⟨xc, xr, s₁, tc, inner, s₂, ec, hx, ht, he, hnoted⟩ := gives_noted_ifElse h
  exact ⟨xc, xr, s₁, tc, inner, s₂, ec, hx, ht, he, hnoted.eq hc⟩

theorem gives_noted_exprStmt {loc : Location} {x : Expr}
    (h : Gives (lowerStmt c slots depth last (.expr loc x)) s (code, slots') s') :
    slots' = slots ∧
      ∃ xc xr, Noted c code xc ∧ Gives (lowerExpr c slots (depth + 1) x) s (xc, xr) s' := by
  rw [lowerStmt] at h
  obtain ⟨note, hnote, h⟩ := gives_note h
  rw [gives_bind] at h
  obtain ⟨⟨xc, xr⟩, s₂, hr, h⟩ := h
  rw [gives_bind] at h
  obtain ⟨⟨body, inner⟩, s₄, hb, h⟩ := h
  rw [gives_pure, Prod.mk.injEq] at hb
  obtain ⟨⟨rfl, rfl⟩, rfl⟩ := hb
  rw [gives_pure, Prod.mk.injEq] at h
  obtain ⟨⟨rfl, rfl⟩, rfl⟩ := h
  exact ⟨rfl, _, xr, ⟨note, rfl, hnote⟩, hr⟩

theorem gives_exprStmt {loc : Location} {x : Expr} (hc : c.comments = false)
    (h : Gives (lowerStmt c slots depth last (.expr loc x)) s (code, slots') s') :
    slots' = slots ∧ ∃ xr, Gives (lowerExpr c slots (depth + 1) x) s (code, xr) s' := by
  obtain ⟨hslots, xc, xr, hnoted, hx⟩ := gives_noted_exprStmt h
  exact ⟨hslots, xr, hnoted.eq hc ▸ hx⟩

theorem not_gives_missing : ¬Gives (lowerStmt c slots depth last .missing) s (code, slots') s' := by
  intro h
  rw [lowerStmt] at h
  obtain ⟨note, hnote, h⟩ := gives_note h
  rw [gives_bind] at h
  obtain ⟨body, s₂, hb, h⟩ := h
  exact not_gives_fail hb

theorem gives_stmts_nil {top : Bool}
    (h : Gives (lowerStmts c slots depth top []) s (code, slots') s') :
    code = [] ∧ slots' = slots ∧ s' = s := by
  rw [lowerStmts, gives_pure, Prod.mk.injEq] at h
  obtain ⟨⟨rfl, rfl⟩, rfl⟩ := h
  exact ⟨rfl, rfl, rfl⟩

theorem gives_stmts_cons {top : Bool} {st : Stmt} {ss : List Stmt}
    (h : Gives (lowerStmts c slots depth top (st :: ss)) s (code, slots') s') :
    ∃ sc inner s₁ rest, Gives (lowerStmt c slots depth (top && ss.isEmpty) st) s (sc, inner) s₁ ∧
      Gives (lowerStmts c inner depth top ss) s₁ (rest, slots') s' ∧ code = sc ++ rest := by
  rw [lowerStmts, gives_bind] at h
  obtain ⟨⟨sc, inner⟩, s₁, hs, h⟩ := h
  rw [gives_bind] at h
  obtain ⟨⟨rest, inner'⟩, s₂, hr, h⟩ := h
  rw [gives_pure, Prod.mk.injEq] at h
  obtain ⟨⟨rfl, rfl⟩, rfl⟩ := h
  exact ⟨sc, inner, s₁, rest, hs, hr, rfl⟩

/-- What follows the statements of a body: a zero is returned unless they end with a return. -/
def falling (ss : List Stmt) : Listing := if endsWithReturn ss then [] else [.mv .a0 .zero]

theorem gives_body {b : Block} (h : Gives (lowerBody c slots b) s code s') :
    ∃ sc inner, Gives (lowerStmts c slots 1 true b.stmts) s (sc, inner) s' ∧
      code = sc ++ falling b.stmts := by
  rw [lowerBody, gives_bind] at h
  obtain ⟨_, s₁, hd, h⟩ := h
  obtain rfl := gives_checkDepth hd
  rw [gives_bind] at h
  obtain ⟨⟨sc, inner⟩, s₂, hs, h⟩ := h
  rw [gives_pure] at h
  obtain ⟨rfl, rfl⟩ := h
  exact ⟨sc, inner, hs, rfl⟩

theorem gives_params_nil {i : Nat} (h : Gives (lowerParams i slots []) s (code, slots') s') :
    code = [] ∧ slots' = slots ∧ s' = s := by
  rw [lowerParams, gives_pure, Prod.mk.injEq] at h
  obtain ⟨⟨rfl, rfl⟩, rfl⟩ := h
  exact ⟨rfl, rfl, rfl⟩

theorem gives_params_cons {i : Nat} {p : Param} {ps : List Param}
    (h : Gives (lowerParams i slots (p :: ps)) s (code, slots') s') :
    ∃ rest, Gives (lowerParams (i + 1) ((p.name, slotOffset s.slots) :: slots) ps) { s with
      slots := s.slots + 1 } (rest, slots') s' ∧
        code = .store .sw (.arg i) .sp (slotOffset s.slots) :: rest := by
  rw [lowerParams, gives_bind] at h
  obtain ⟨o, s₁, ho, h⟩ := h
  obtain ⟨rfl, rfl⟩ := gives_newSlot.1 ho
  rw [gives_bind] at h
  obtain ⟨⟨rest, inner⟩, s₂, hr, h⟩ := h
  rw [gives_pure, Prod.mk.injEq] at h
  obtain ⟨⟨rfl, rfl⟩, rfl⟩ := h
  exact ⟨rest, hr, rfl⟩

/-- The label of the end of a function. -/
def exitLabel (s : Supply) : String := labelName "ret" (s.labels + 1)

/-- What stays the same in a function. -/
def contextOf (opts : CodegenOptions) (functions : List String) (f : NamedFunction)
    (exit : String) : LowerContext where
  functions := functions
  path := pathOf f.name
  exit := exit
  maxDepth := opts.maxDepth
  comments := opts.comments

theorem gives_function {opts : CodegenOptions} {functions : List String} {f : NamedFunction}
    {lf : LoweredFunction} (h : Gives (lowerFunction opts functions f) s lf s') :
    f.func.params.length ≤ Reg.argCount ∧ lf.exit = exitLabel s ∧
      ∃ pc inner s₁ bc, Gives (lowerParams 0 [] f.func.params) { s with labels := s.labels + 1 }
        (pc, inner) s₁ ∧
        Gives (lowerBody (contextOf opts functions f (exitLabel s)) inner f.func.body) s₁ bc s' ∧
        lf.code = pc ++ bc := by
  rw [lowerFunction] at h
  dsimp only at h
  split at h
  · rw [gives_bind] at h
    obtain ⟨_, _, hf, _⟩ := h
    exact absurd hf not_gives_fail
  · next hcount =>
    rw [gives_bind] at h
    obtain ⟨exit, s₁, hl, h⟩ := h
    obtain ⟨rfl, rfl⟩ := gives_newLabel.1 hl
    rw [gives_bind] at h
    obtain ⟨⟨pc, inner⟩, s₁, hp, h⟩ := h
    rw [gives_bind] at h
    obtain ⟨bc, s₂, hb, h⟩ := h
    rw [gives_pure] at h
    obtain ⟨rfl, rfl⟩ := h
    exact ⟨by omega, rfl, pc, inner, s₁, bc, hp, hb, rfl⟩

end Lowering

end FunRiscv
