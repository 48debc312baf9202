import Mathlib
import FunRiscv.Proofs.Codegen.Evaluation
import FunRiscv.Proofs.Pass.Blocks

/-!
# What trimming keeps

* `Interpretation`: what expressions, assignments and other uses of values mean, in any monad, with
  any states and values.
* `Interpretation.runStmts`: what statements do. A return ends all blocks around it.
* `Interpretation.returns_runStmt`: a terminating statement does not fall through.
* `Interpretation.ofCalls`: the meaning of programs as an interpretation;
  `evalStmts_trim`: trimming keeps it.
* `Stmt.Terminating`, `Encloses`: what a terminating statement is, and the blocks of a block.
* `trimStmts_correct`: the theorem about meaning and completeness.
-/

namespace FunRiscv

/-! ### Statements under an interpretation -/

/-- An interpretation of expressions and of what statements do with values, with states `σ` and
values `V`. An expression may change the state, and everything may have the effects of the monad. -/
structure Interpretation (m : Type → Type) (σ V : Type) where
  /-- The value of an expression. -/
  value : Expr → σ → m (V × σ)
  /-- What a return without an expression gives. -/
  unit : V
  /-- Whether a value lets the first arm of a conditional run. -/
  holds : V → σ → m Bool
  assign : String → Option TypeExpr → V → σ → m σ
  use : String → V → σ → m σ
  /-- What a gap between statements does. -/
  gap : σ → m σ
  /-- The state at the start of an arm. -/
  enter : σ → m σ
  /-- The state after an arm that came to its end, from the one before the arm. -/
  leave : σ → σ → m σ

/-- How statements end: they fall through to what follows, or return a value. -/
inductive Ended (V σ : Type) where
  | through (s : σ)
  | returned (v : V) (s : σ)

namespace Interpretation

variable {m : Type → Type} [Monad m] {σ V : Type} (I : Interpretation m σ V)

/-- What an arm of a conditional does, from what its statements do. -/
def arm (run : σ → m (Ended V σ)) (s : σ) : m (Ended V σ) := do
  let inner ← I.enter s
  match ← run inner with
  | .through inner => return .through (← I.leave s inner)
  | .returned v s => return .returned v s

mutual

/-- What a statement does. -/
def runStmt : Stmt → σ → m (Ended V σ)
  | .ret _ none, s => pure (.returned I.unit s)
  | .ret _ (some x), s => do
    let (v, s) ← I.value x s
    return .returned v s
  | .assign _ target type x, s => do
    let (v, s) ← I.value x s
    return .through (← I.assign target type v s)
  | .use _ n x, s => do
    let (v, s) ← I.value x s
    return .through (← I.use n v s)
  | .ifThen _ c _ t, s => do
    let (v, s) ← I.value c s
    if ← I.holds v s then I.arm (runStmts t) s else return .through s
  | .ifElse _ c _ t _ e, s => do
    let (v, s) ← I.value c s
    if ← I.holds v s then I.arm (runStmts t) s else I.arm (runStmts e) s
  | .expr _ x, s => do
    let (_, s) ← I.value x s
    return .through s
  | .missing, s => do return .through (← I.gap s)

/-- What statements do, one after the other. -/
def runStmts : List Stmt → σ → m (Ended V σ)
  | [], s => pure (.through s)
  | t :: ts, s => do
    match ← runStmt t s with
    | .through s => runStmts ts s
    | .returned v s => return .returned v s

end

/-! ### What follows a terminating statement -/

section Terminates

/-- An action does not fall through: what it is followed by matters only where it returned. -/
def Returns (a : m (Ended V σ)) : Prop :=
  ∀ (β : Type) (k k' : Ended V σ → m β), (∀ v s, k (.returned v s) = k' (.returned v s)) →
    a >>= k = a >>= k'

variable [LawfulMonad m]

theorem Returns.bind {α : Type} {a : m α} {f : α → m (Ended V σ)} (hf : ∀ x, Returns (f x)) :
    Returns (a >>= f) := by
  intro β k k' hk
  rw [bind_assoc, bind_assoc]
  congr 1
  funext x
  exact hf x β k k' hk

theorem returns_pure (v : V) (s : σ) : Returns (pure (.returned v s) : m (Ended V σ)) := by
  intro β k k' hk
  rw [pure_bind, pure_bind, hk]

theorem returns_arm {run : σ → m (Ended V σ)} (hrun : ∀ s, Returns (run s)) (s : σ) :
    Returns (I.arm run s) := by
  refine Returns.bind fun inner => ?_
  intro β k k' hk
  rw [bind_assoc, bind_assoc]
  refine hrun inner β _ _ fun v s => ?_
  rw [pure_bind, pure_bind, hk]

mutual

/-- A terminating statement does not fall through. -/
theorem returns_runStmt : ∀ (t : Stmt), t.terminates = true → ∀ s, Returns (I.runStmt t s)
  | .ret _ none, _, s => by
    rw [runStmt]
    exact returns_pure I.unit s
  | .ret _ (some x), _, s => by
    rw [runStmt]
    exact Returns.bind fun (v, s) => returns_pure v s
  | .ifElse _ c _ t _ e, h, s => by
    rw [Stmt.terminates, Bool.and_eq_true] at h
    rw [runStmt]
    refine Returns.bind fun (v, s) => Returns.bind fun b => ?_
    cases b with
    | true => exact I.returns_arm (returns_runStmts t h.1) s
    | false => exact I.returns_arm (returns_runStmts e h.2) s
  | .assign .., h, _ | .use .., h, _ | .ifThen .., h, _ | .expr .., h, _ | .missing, h, _ => by
    rw [Stmt.terminates] at h
    cases h

/-- A block whose last statement terminates does not fall through. -/
theorem returns_runStmts :
    ∀ (ts : List Stmt), stmtsTerminate ts = true → ∀ s, Returns (I.runStmts ts s)
  | [], h, _ => by
    rw [stmtsTerminate] at h
    cases h
  | t :: ts, h, s => by
    rw [stmtsTerminate_cons] at h
    rw [runStmts]
    intro β k k' hk
    rw [bind_assoc, bind_assoc]
    cases ts with
    | nil =>
      refine returns_runStmt t h s β _ _ fun v s => ?_
      rw [pure_bind, pure_bind, hk]
    | cons u us =>
      congr 1
      funext r
      cases r with
      | through s => exact returns_runStmts (u :: us) h s β k k' hk
      | returned v s => exact returns_pure v s β k k' hk

end

end Terminates

/-! ### Trimmed blocks -/

mutual

theorem runStmt_trim [LawfulMonad m] : ∀ (t : Stmt), I.runStmt t.trim.value = I.runStmt t
  | .ret .. | .assign .. | .use .. | .expr .. | .missing => by
    rw [Stmt.trim]
    rfl
  | .ifThen _ c _ t => by
    funext s
    show I.runStmt (.ifThen _ c _ (trimStmts t).value) s = _
    rw [runStmt, runStmt, runStmts_trim t]
  | .ifElse _ c _ t _ e => by
    funext s
    show I.runStmt (.ifElse _ c _ (trimStmts t).value _ (trimStmts e).value) s = _
    rw [runStmt, runStmt, runStmts_trim t, runStmts_trim e]

/-- Trimmed statements do the same. -/
theorem runStmts_trim [LawfulMonad m] :
    ∀ (ts : List Stmt), I.runStmts (trimStmts ts).value = I.runStmts ts
  | [] => by
    rw [trimStmts]
    rfl
  | t :: ts => by
    have hhead := runStmt_trim t
    have hrest := runStmts_trim ts
    funext s
    rw [trimStmts_cons]
    by_cases hcut : (t.trim.value.terminates && !ts.isEmpty) = true
    · -- the rest is dropped, and what stands before it does not fall through
      rw [if_pos hcut, runStmts, runStmts, ← hhead]
      rw [Bool.and_eq_true] at hcut
      exact I.returns_runStmt _ hcut.1 s _ _ _ fun v s => rfl
    · rw [if_neg hcut, runStmts, runStmts, hhead, hrest]

end

end Interpretation

/-! ### The meaning of programs -/

/-- The meaning that generated code has, as an interpretation: calls by name mean `call`, and a
gap has no meaning. -/
def Interpretation.ofCalls (call : String → List Machine.Val → Option Machine.Val) :
    Interpretation Option Store Machine.Val where
  value x σ := (evalExpr call σ x).map fun v => (v, σ)
  unit := 0
  holds v _ := some (v ≠ 0)
  assign name _ v σ := some (σ.set name v)
  use name v σ := some (σ.set name v)
  gap _ := none
  enter σ := some σ
  leave _ σ := some σ

/-- The outcome of statements, from how they ended. -/
def Ended.outcome : Ended Machine.Val Store → Outcome
  | .through σ => .next σ
  | .returned v _ => .done v

section Calls

variable (call : String → List Machine.Val → Option Machine.Val)

theorem arm_ofCalls (run : Store → Option (Ended Machine.Val Store)) (σ : Store) :
    (Interpretation.ofCalls call).arm run σ = run σ := by
  show (run σ).bind _ = run σ
  cases hrun : run σ with
  | none => rfl
  | some r => cases r <;> rfl

mutual

theorem runStmt_ofCalls :
    ∀ (t : Stmt) (σ : Store),
      ((Interpretation.ofCalls call).runStmt t σ).map Ended.outcome = evalStmt call σ t
  | .ret _ none, σ => rfl
  | .ret _ (some x), σ | .assign _ _ _ x, σ | .use _ _ x, σ | .expr _ x, σ => by
    rw [evalStmt, Interpretation.runStmt]
    show ((Option.map _ (evalExpr call σ x)).bind _).map _ = _
    cases evalExpr call σ x <;> rfl
  | .ifThen _ c _ t, σ => by
    rw [evalStmt, Interpretation.runStmt]
    show ((Option.map _ (evalExpr call σ c)).bind _).map _ = _
    cases evalExpr call σ c with
    | none => rfl
    | some v =>
      show (if decide (v ≠ 0) = true then _ else _ : Option _).map _ = if v ≠ 0 then _ else _
      by_cases hv : v ≠ 0
      · rw [if_pos (decide_eq_true hv), if_pos hv, arm_ofCalls, runStmts_ofCalls t]
      · rw [if_neg (by simpa using hv), if_neg hv]
        rfl
  | .ifElse _ c _ t _ e, σ => by
    rw [evalStmt, Interpretation.runStmt]
    show ((Option.map _ (evalExpr call σ c)).bind _).map _ = _
    cases evalExpr call σ c with
    | none => rfl
    | some v =>
      show (if decide (v ≠ 0) = true then _ else _ : Option _).map _ = if v ≠ 0 then _ else _
      by_cases hv : v ≠ 0
      · rw [if_pos (decide_eq_true hv), if_pos hv, arm_ofCalls, runStmts_ofCalls t]
      · rw [if_neg (by simpa using hv), if_neg hv, arm_ofCalls, runStmts_ofCalls e]
  | .missing, σ => rfl

/-- Statements do what they mean. -/
theorem runStmts_ofCalls : ∀ (ts : List Stmt) (σ : Store),
    ((Interpretation.ofCalls call).runStmts ts σ).map Ended.outcome = evalStmts call σ ts
  | [], σ => rfl
  | t :: ts, σ => by
    rw [evalStmts, ← runStmt_ofCalls t, Interpretation.runStmts]
    show (((Interpretation.ofCalls call).runStmt t σ).bind _).map _ = _
    cases (Interpretation.ofCalls call).runStmt t σ with
    | none => rfl
    | some r =>
      cases r with
      | through τ => exact runStmts_ofCalls ts τ
      | returned v τ => rfl

end

/-- Trimmed statements mean the same. -/
theorem evalStmts_trim (ts : List Stmt) (σ : Store) :
    evalStmts call σ (trimStmts ts).value = evalStmts call σ ts := by
  rw [← runStmts_ofCalls, Interpretation.runStmts_trim, runStmts_ofCalls]

end Calls

/-! ### Completeness -/

/-- A statement that does not fall through, by the rule: a return, or a conditional both of whose
arms end in such a statement. -/
inductive Stmt.Terminating : Stmt → Prop
  | ret (loc : Location) (x : Option Expr) : Stmt.Terminating (.ret loc x)
  | ifElse (loc : Location) (c : Expr) (tl el : Location) (ts us : List Stmt) {t u : Stmt}
    (ht : Stmt.Terminating t) (hu : Stmt.Terminating u) :
    Stmt.Terminating (.ifElse loc c tl (ts ++ [t]) el (us ++ [u]))

/-- The blocks of a block, at any depth: itself, and those of the arms of its conditionals. -/
inductive Encloses : List Stmt → List Stmt → Prop
  | self (ts : List Stmt) : Encloses ts ts
  | onlyArm {ts t b : List Stmt} {loc tl : Location} {c : Expr} (h : .ifThen loc c tl t ∈ ts)
    (hb : Encloses t b) : Encloses ts b
  | firstArm {ts t e b : List Stmt} {loc tl el : Location} {c : Expr}
    (h : .ifElse loc c tl t el e ∈ ts) (hb : Encloses t b) : Encloses ts b
  | secondArm {ts t e b : List Stmt} {loc tl el : Location} {c : Expr}
    (h : .ifElse loc c tl t el e ∈ ts) (hb : Encloses e b) : Encloses ts b

theorem stmtsTerminate_concat (ts : List Stmt) (t : Stmt) :
    stmtsTerminate (ts ++ [t]) = t.terminates := by
  rw [stmtsTerminate_append (by simp), stmtsTerminate]

theorem Stmt.Terminating.terminates {t : Stmt} (h : t.Terminating) : t.terminates = true := by
  induction h with
  | ret => rfl
  | ifElse loc c tl el ts us _ _ ht hu =>
    rw [Stmt.terminates, stmtsTerminate_concat, stmtsTerminate_concat, ht, hu]; rfl

theorem StmtsTight.of_mem {ts : List Stmt} (h : StmtsTight ts) : ∀ t ∈ ts, t.Tight := by
  induction ts with
  | nil => simp
  | cons u us ih =>
    rw [StmtsTight] at h
    rw [List.forall_mem_cons]
    exact ⟨h.1, ih h.2.2⟩

/-- The blocks of a tight block are tight. -/
theorem StmtsTight.of_encloses {ts b : List Stmt} (h : StmtsTight ts) (hb : Encloses ts b) :
    StmtsTight b := by
  induction hb with
  | self => exact h
  | onlyArm hmem _ ih =>
    have ht := h.of_mem _ hmem
    rw [Stmt.Tight] at ht
    exact ih ht
  | firstArm hmem _ ih =>
    have ht := h.of_mem _ hmem
    rw [Stmt.Tight] at ht
    exact ih ht.1
  | secondArm hmem _ ih =>
    have ht := h.of_mem _ hmem
    rw [Stmt.Tight] at ht
    exact ih ht.2

/-- Nothing stands after a terminating statement of a tight block. -/
theorem StmtsTight.last {before after : List Stmt} {t : Stmt}
    (h : StmtsTight (before ++ t :: after)) (ht : t.terminates = true) : after = [] := by
  induction before with
  | nil =>
    rw [List.nil_append, StmtsTight] at h
    exact h.2.1 ht
  | cons u us ih =>
    rw [List.cons_append, StmtsTight] at h
    exact ih h.2.2

/-- **Trimming keeps the meaning and leaves nothing to trim.** Under every interpretation and from
every state, a trimmed block ends as the block does: it falls through with the same state or returns
the same value. In no block of the result, at any depth, does a statement stand after a return or
after a conditional both of whose arms end in a terminating statement. -/
theorem trimStmts_correct {m : Type → Type} [Monad m] [LawfulMonad m] {σ V : Type}
    (I : Interpretation m σ V) (ts : List Stmt) :
    (∀ s, I.runStmts (trimStmts ts).value s = I.runStmts ts s) ∧
      ∀ b, Encloses (trimStmts ts).value b → ∀ before t after, b = before ++ t :: after →
        t.Terminating → after = [] := by
  constructor
  · intro s
    rw [I.runStmts_trim]
  · rintro b hb before t after rfl ht
    have htight := (stmtsTight_trimStmts ts).of_encloses hb
    exact htight.last ht.terminates

/-- What follows a return in an arm goes first; then both arms end in a return, and what follows the
conditional goes too. -/
theorem trimStmts_conditional :
    let I := Interpretation.ofCalls fun _ _ => none
    let block : List Stmt :=
      [.ifElse {} (.var {} "x") {} [.ret {} (some (.uint {} 1)), .assign {} "y" none (.uint {} 2)]
        {} [.ret {} (some (.uint {} 2))],
        .ret {} (some (.uint {} 3))]
    let trimmed : List Stmt :=
      [.ifElse {} (.var {} "x") {} [.ret {} (some (.uint {} 1))] {} [.ret {} (some (.uint {} 2))]]
    LawfulMonad Option ∧ (trimStmts block).value = trimmed ∧
      ∀ s, I.runStmts trimmed s = I.runStmts block s := by
  intro I block trimmed
  have htrimmed : (trimStmts block).value = trimmed := rfl
  refine ⟨inferInstance, htrimmed, ?_⟩
  rw [← htrimmed]
  exact (trimStmts_correct I block).1

end FunRiscv
