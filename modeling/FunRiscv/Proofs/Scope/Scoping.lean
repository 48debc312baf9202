import Mathlib
import FunRiscv.Proofs.Codegen.Correctness
import FunRiscv.Proofs.Scope.Lowered

/-!
# Programs with scoped variables

The checker opens a frame for each arm of a conditional: an assignment changes the variable that is
in scope, or else makes a new one in the innermost frame, and a `use` always makes a new one. What
an arm made is gone after it.

* `Chain`: the values of variables, frame by frame.
* `scopedStmt`, `scopedStmts`: what statements do under that scoping, and `Program.scopedEval`: what
  a call of a function means.
* `FuncDef.Apart`: no `use` in an arm has the name of a variable that is in scope outside the arm.
* `Program.eval_of_scopedEval`: then one variable for each name throughout a function does as well.
* `scoping_followed`: so the code that is generated follows the scoping of the checker.
* `using_arm_changes_outer`: without the condition it need not.
-/

namespace FunRiscv

open Machine

/-! ### Chains of frames -/

/-- The values of variables, frame by frame, the innermost frame first. -/
abbrev Chain := List (List (String × Val))

namespace Chain

/-- The values that the names in scope have. -/
def store (κ : Chain) : Store := fun n => κ.findSome? (List.lookup n)

/-- The innermost frame. -/
def top (κ : Chain) : List (String × Val) := κ.headD []

/-- The frames around the innermost one. -/
def around (κ : Chain) : Chain := κ.tail

/-- A new variable in the innermost frame. -/
def declare (κ : Chain) (n : String) (v : Val) : Chain := ((n, v) :: κ.top) :: κ.around

/-- A new value for the variable in scope, if there is one. -/
def assign? (n : String) (v : Val) : Chain → Option Chain
  | [] => none
  | f :: κ => if (f.lookup n).isSome then some (((n, v) :: f) :: κ) else
    (assign? n v κ).map (f :: ·)

/-- A new value for the variable in scope, or else a new variable in the innermost frame. -/
def assign (κ : Chain) (n : String) (v : Val) : Chain := (κ.assign? n v).getD (κ.declare n v)

end Chain

/-! ### Statements -/

/-- What a statement does under scoping: it leaves frames, or returns a value. -/
inductive ScopedOutcome where
  | next (κ : Chain)
  | done (v : Val)

/-- Leaves the innermost frame. -/
def ScopedOutcome.leave : ScopedOutcome → ScopedOutcome
  | next κ => next κ.around
  | done v => done v

section

variable (call : String → List Val → Option Val)

mutual

/-- What a statement does. An arm has a frame of its own. -/
def scopedStmt (κ : Chain) : Stmt → Option ScopedOutcome
  | .ret _ none => some (.done 0)
  | .ret _ (some x) => (evalExpr call κ.store x).map .done
  | .assign _ n _ x => (evalExpr call κ.store x).map fun v => .next (κ.assign n v)
  | .use _ n x => (evalExpr call κ.store x).map fun v => .next (κ.declare n v)
  | .ifThen _ c _ a => (evalExpr call κ.store c).bind fun x =>
      if x ≠ 0 then (scopedStmts ([] :: κ) a).map .leave else some (.next κ)
  | .ifElse _ c _ a _ b => (evalExpr call κ.store c).bind fun x =>
      if x ≠ 0 then (scopedStmts ([] :: κ) a).map .leave else (scopedStmts ([] :: κ) b).map .leave
  | .expr _ x => (evalExpr call κ.store x).map fun _ => .next κ
  | .missing => none

/-- What statements do, one after the other. -/
def scopedStmts (κ : Chain) : List Stmt → Option ScopedOutcome
  | [] => some (.next κ)
  | s :: ss => (scopedStmt κ s).bind fun
    | .next κ' => scopedStmts κ' ss
    | .done v => some (.done v)

end

/-- The value that a function returns; zero if its statements come to an end. -/
def scopedBody (κ : Chain) (ss : List Stmt) : Option Val :=
  (scopedStmts call κ ss).map fun
    | .next _ => 0
    | .done v => v

end

/-- The frame of parameters, in which a later one of the same name counts. -/
def paramFrame (ps : List Param) (vs : List Val) : List (String × Val) :=
  (ps.zip vs).foldl (fun f e => (e.1.name, e.2) :: f) []

/-- The value of a call of a function of a program under scoping, if calls are nested
at most so deeply. -/
def Program.scopedEval (p : Program) : (depth : Nat) → String → List Val → Option Val
  | 0, _, _ => none
  | depth + 1, name, args =>
    (p.functions.find? (·.name == name)).bind fun f =>
      if args.length = f.func.params.length then
        scopedBody
          (fun callee vs => (resolveName (p.functions.map (·.name)) (pathOf f.name) callee).bind
            fun q => p.scopedEval depth q vs)
          [paramFrame f.func.params args] f.func.body.stmts
      else none

/-! ### Names that are apart -/

mutual

/-- Whether no `use` has the name of a variable outside: `outer` are the names in scope around the
innermost frame, `seen` all those in scope. -/
def Stmt.apart (outer seen : List String) : Stmt → Bool
  | .use _ n _ => !outer.contains n
  | .ifThen _ _ _ a => stmtsApart seen seen a
  | .ifElse _ _ _ a _ b => stmtsApart seen seen a && stmtsApart seen seen b
  | .ret .. | .assign .. | .expr .. | .missing => true

/-- Whether no `use` in statements has the name of a variable outside. -/
def stmtsApart (outer seen : List String) : List Stmt → Bool
  | [] => true
  | s :: ss => s.apart outer seen && stmtsApart outer (s.names ⟨seen, []⟩).seen ss

end

/-- Whether no `use` in an arm has the name of a variable that is in scope outside the arm. -/
def FuncDef.apart (d : FuncDef) : Bool := stmtsApart [] d.paramNames.seen d.body.stmts

/-! ### More values -/

/-- A store has all the values of another one. -/
def Store.Sub (σ σ' : Store) : Prop := ∀ n, Upholds (σ n) (σ' n)

theorem Store.Sub.set {σ σ' : Store} (h : σ.Sub σ') (n : String) (v : Val) :
    (σ.set n v).Sub (σ'.set n v) := by
  intro m w hw
  unfold Store.set at hw ⊢
  split at hw
  · next hm => rwa [if_pos hm]
  · next hm =>
    rw [if_neg hm]
    exact h m w hw

theorem Upholds.ite {c : Prop} [Decidable c] {x x' y y' : Option Val} (hx : Upholds x x')
    (hy : Upholds y y') : Upholds (if c then x else y) (if c then x' else y') := by
  split
  · exact hx
  · exact hy

section Mono

variable {call call' : String → List Val → Option Val}

mutual

/-- With more values, expressions keep theirs. -/
theorem evalExpr_mono (hcall : ∀ n vs, Upholds (call n vs) (call' n vs)) :
    ∀ (e : Expr) {σ σ' : Store}, σ.Sub σ' → Upholds (evalExpr call σ e) (evalExpr call' σ' e)
  | .uint .., _, _, _ | .int .., _, _, _ | .bool .., _, _, _ | .eraser _, _, _, _ => by
    intro v hv
    rw [evalExpr] at hv ⊢
    exact hv
  | .var _ n, _, _, h => by
    intro v hv
    rw [evalExpr] at hv ⊢
    exact h n v hv
  | .binOp _ op a b, _, _, h => by
    intro v hv
    rw [evalExpr] at hv ⊢
    simp only [Option.bind_eq_some_iff] at hv ⊢
    obtain ⟨x, hx, y, hy, hv⟩ := hv
    exact ⟨x, evalExpr_mono hcall a h x hx, y, evalExpr_mono hcall b h y hy, hv⟩
  | .call _ f args named, _, _, h => by
    intro v hv
    unfold evalExpr at hv ⊢
    split at hv
    · rw [Option.bind_eq_some_iff] at hv ⊢
      obtain ⟨vs, hvs, hv⟩ := hv
      exact ⟨vs, evalArgs_mono hcall args h vs hvs, hcall _ _ v hv⟩
    · cases hv
  | .ifElse _ c a b, _, _, h => by
    intro v hv
    rw [evalExpr, Option.bind_eq_some_iff] at hv ⊢
    obtain ⟨x, hx, hv⟩ := hv
    exact ⟨x, evalExpr_mono hcall c h x hx, Upholds.ite (evalExpr_mono hcall a h)
      (evalExpr_mono hcall b h) v hv⟩
  | .matchOn _ x cases, _, _, h => by
    intro v hv
    rw [evalExpr, Option.bind_eq_some_iff] at hv ⊢
    obtain ⟨y, hy, hv⟩ := hv
    exact ⟨y, evalExpr_mono hcall x h y hy, evalCases_mono hcall cases h v hv⟩
  | .float .., _, _, _ | .str .., _, _, _ | .tuple .., _, _, _ | .list .., _, _, _
  | .lambda .., _, _, _ | .access .., _, _, _
  | .missing, _, _, _ => by
    intro v hv
    rw [evalExpr] at hv
    cases hv
termination_by e => sizeOf e
decreasing_by
  all_goals simp only [Expr.binOp.sizeOf_spec, Expr.call.sizeOf_spec, Expr.ifElse.sizeOf_spec,
    Expr.matchOn.sizeOf_spec]
  all_goals omega

theorem evalArgs_mono (hcall : ∀ n vs, Upholds (call n vs) (call' n vs)) :
    ∀ (es : List Expr) {σ σ' : Store}, σ.Sub σ' →
      ∀ vs, evalArgs call σ es = some vs → evalArgs call' σ' es = some vs
  | [], _, _, _ => by
    intro vs hvs
    rw [evalArgs] at hvs ⊢
    exact hvs
  | e :: es, _, _, h => by
    intro vs hvs
    rw [evalArgs] at hvs ⊢
    simp only [Option.bind_eq_some_iff, Option.map_eq_some_iff] at hvs ⊢
    obtain ⟨x, hx, ws, hws, rfl⟩ := hvs
    exact ⟨x, evalExpr_mono hcall e h x hx, ws, evalArgs_mono hcall es h ws hws, rfl⟩
termination_by es => sizeOf es
decreasing_by
  all_goals simp only [List.cons.sizeOf_spec]
  all_goals omega

theorem evalCases_mono (hcall : ∀ n vs, Upholds (call n vs) (call' n vs)) :
    ∀ (cs : List Case) {σ σ' : Store} {x : Val}, σ.Sub σ' →
      Upholds (evalCases call σ x cs) (evalCases call' σ' x cs)
  | [], _, _, _, _ => by
    intro v hv
    rw [evalCases] at hv ⊢
    exact hv
  | .mk _ p body :: cs, _, _, x, h => by
    intro v hv
    unfold evalCases at hv ⊢
    split at hv
    · next e =>
      rw [Option.bind_eq_some_iff] at hv ⊢
      obtain ⟨y, hy, hv⟩ := hv
      exact ⟨y, evalExpr_mono hcall e h y hy, Upholds.ite (evalExpr_mono hcall body h)
        (evalCases_mono hcall cs h) v hv⟩
    · exact evalExpr_mono hcall body (h.set _ x) v hv
    · exact evalExpr_mono hcall body h v hv
    · cases hv
    · cases hv
    · cases hv
termination_by cs => sizeOf cs
decreasing_by
  all_goals subst_vars
  all_goals simp only [List.cons.sizeOf_spec, Case.mk.sizeOf_spec, Pattern.lit.sizeOf_spec]
  all_goals omega

end

end Mono

/-! ### Values and names of chains -/

namespace Chain

variable {κ κ' κ'' : Chain} {n m : String} {v : Val}

theorem store_eq (κ : Chain) (n : String) :
    κ.store n = (List.lookup n κ.top).or (κ.around.store n) := by
  unfold store
  cases κ with
  | nil => rfl
  | cons f κ =>
    rw [List.findSome?_cons]
    show _ = (List.lookup n f).or (List.findSome? (List.lookup n) κ)
    cases List.lookup n f <;> rfl

theorem lookup_cons_frame (f : List (String × Val)) (n : String) (v : Val) (m : String) :
    List.lookup m ((n, v) :: f) = if m = n then some v else List.lookup m f := by
  rw [List.lookup_cons]
  by_cases h : m = n
  · simp [h]
  · simp [h, beq_false_of_ne h]

theorem store_declare (κ : Chain) (n : String) (v : Val) :
    (κ.declare n v).store = κ.store.set n v := by
  funext m
  rw [store_eq, Store.set, store_eq κ]
  show (List.lookup m ((n, v) :: κ.top)).or (κ.around.store m) = _
  rw [lookup_cons_frame]
  split <;> rfl

theorem store_assign? (h : κ.assign? n v = some κ') : κ'.store = κ.store.set n v := by
  induction κ generalizing κ' with
  | nil => cases h
  | cons f κ ih =>
    rw [assign?] at h
    split at h
    · obtain rfl := Option.some.inj h
      exact store_declare (f :: κ) n v
    · next hnone =>
      obtain ⟨κ₁, hκ₁, rfl⟩ := Option.map_eq_some_iff.1 h
      funext m
      rw [store_eq, Store.set, store_eq (f :: κ)]
      show (List.lookup m f).or (store κ₁ m) = if m = n then some v else
        (List.lookup m f).or (store κ m)
      rw [ih hκ₁, Store.set]
      split
      · next hm =>
        have hf : List.lookup m f = none := hm ▸ Option.not_isSome_iff_eq_none.1 hnone
        rw [hf]
        rfl
      · rfl

/-- An assignment changes one value, wherever the variable is. -/
theorem store_assign (κ : Chain) (n : String) (v : Val) :
    (κ.assign n v).store = κ.store.set n v := by
  unfold assign
  cases h : κ.assign? n v with
  | none => exact store_declare κ n v
  | some κ' => exact store_assign? h

/-- Two chains have the same names, frame by frame. -/
def Like (κ κ' : Chain) : Prop :=
  List.Forall₂ (fun f f' => ∀ n, (List.lookup n f).isSome = (List.lookup n f').isSome) κ κ'

theorem Like.refl (κ : Chain) : Like κ κ := List.forall₂_same.2 fun _ _ _ => rfl

theorem Like.trans (h : Like κ κ') (h' : Like κ' κ'') : Like κ κ'' := by
  induction h generalizing κ'' with
  | nil => exact h'
  | cons hf _ ih =>
    cases h' with
    | cons hf' h' => exact .cons (fun n => (hf n).trans (hf' n)) (ih h')

theorem Like.tail (h : Like κ κ') : Like κ.around κ'.around := by
  cases h with
  | nil => exact .nil
  | cons _ h => exact h

theorem Like.head (h : Like κ κ') (n : String) :
    (List.lookup n κ.top).isSome = (List.lookup n κ'.top).isSome := by
  cases h with
  | nil => rfl
  | cons hf _ => exact hf n

theorem Like.store (h : Like κ κ') (n : String) : (κ.store n).isSome = (κ'.store n).isSome := by
  induction h with
  | nil => rfl
  | cons hf _ ih =>
    rw [store_eq, store_eq (_ :: _)]
    simp only [top, around, List.headD_cons, List.tail_cons, Option.isSome_or, hf n, ih]

theorem like_assign? (h : κ.assign? n v = some κ') : Like κ κ' := by
  induction κ generalizing κ' with
  | nil => cases h
  | cons f κ ih =>
    rw [assign?] at h
    split at h
    · next hsome =>
      obtain rfl := Option.some.inj h
      refine .cons (fun m => ?_) (Like.refl κ)
      rw [lookup_cons_frame]
      split
      · next hm => rw [hm, hsome]; rfl
      · rfl
    · obtain ⟨κ₁, hκ₁, rfl⟩ := Option.map_eq_some_iff.1 h
      exact .cons (fun _ => rfl) (ih hκ₁)

theorem assign?_eq_none (h : κ.assign? n v = none) : κ.store n = none := by
  induction κ with
  | nil => rfl
  | cons f κ ih =>
    rw [assign?] at h
    split at h
    · cases h
    · next hnone =>
      rw [store_eq]
      simp only [top, around, List.headD_cons, List.tail_cons, Option.or_eq_none_iff]
      exact ⟨Option.not_isSome_iff_eq_none.1 hnone, ih (Option.map_eq_none_iff.1 h)⟩

/-- The names of a chain: `outer` are those around the innermost frame, none of which that frame
has, and `seen` are all. -/
structure Fits (κ : Chain) (outer seen : List String) : Prop where
  around : ∀ n, (κ.around.store n).isSome = true ↔ n ∈ outer
  all : ∀ n, (κ.store n).isSome = true ↔ n ∈ seen
  apart : ∀ n, (List.lookup n κ.top).isSome = true → n ∉ outer

variable {outer seen : List String}

theorem Fits.push (h : κ.Fits outer seen) : Fits ([] :: κ) seen seen :=
  ⟨h.all, h.all, by simp [top]⟩

theorem Fits.like (h : κ.Fits outer seen) (hlike : Like κ κ') : κ'.Fits outer seen :=
  ⟨fun n => hlike.tail.store n ▸ h.around n, fun n => hlike.store n ▸ h.all n,
    fun n => hlike.head n ▸ h.apart n⟩

theorem isSome_set {σ : Store} (h : ∀ m, (σ m).isSome = true ↔ m ∈ seen) (n : String) (v : Val)
    (m : String) : ((σ.set n v) m).isSome = true ↔ m ∈ n :: seen := by
  rw [Store.set, List.mem_cons]
  split
  · next hm => simp [hm]
  · next hm => simp [hm, h m]

theorem Fits.declare (h : κ.Fits outer seen) (hn : n ∉ outer) (v : Val) :
    (κ.declare n v).Fits outer (n :: seen) := by
  refine ⟨h.around, fun m => ?_, fun m hm => ?_⟩
  · rw [store_declare]
    exact isSome_set h.all n v m
  · have hm : (List.lookup m ((n, v) :: κ.top)).isSome = true := hm
    rw [lookup_cons_frame] at hm
    split at hm
    · next heq => exact heq ▸ hn
    · exact h.apart m hm

theorem Fits.assign (h : κ.Fits outer seen) (n : String) (v : Val) :
    (κ.assign n v).Fits outer (n :: seen) ∧ Like κ.around (κ.assign n v).around := by
  cases hassign : κ.assign? n v with
  | none =>
    have hnone := assign?_eq_none hassign
    have hout : n ∉ outer := by
      rw [store_eq, Option.or_eq_none_iff] at hnone
      rw [← h.around n, hnone.2]
      simp
    have heq : κ.assign n v = κ.declare n v := by rw [Chain.assign, hassign, Option.getD_none]
    rw [heq]
    exact ⟨h.declare hout v, Like.refl _⟩
  | some κ' =>
    have heq : κ.assign n v = κ' := by rw [Chain.assign, hassign, Option.getD_some]
    have hlike := like_assign? hassign
    rw [heq]
    have hfits := h.like hlike
    refine ⟨⟨hfits.around, fun m => ?_, hfits.apart⟩, hlike.tail⟩
    rw [store_assign? hassign]
    exact isSome_set h.all n v m

end Chain

/-! ### One variable for each name -/

/-- What statements do to a chain is what they do to a store that has its values: the frames around
the innermost one keep their names. -/
def Agree (κ : Chain) (outer seen : List String) : ScopedOutcome → Outcome → Prop
  | .next κ', .next σ => κ'.Fits outer seen ∧ Chain.Like κ.around κ'.around ∧ κ'.store.Sub σ
  | .done v, .done w => v = w
  | _, _ => False

/-- After an arm the innermost frame is left. What it had is not in scope around it, so no
value there is lost. -/
theorem Agree.leave {κ : Chain} {outer seen inner : List String} (hκ : κ.Fits outer seen) :
    ∀ {out : ScopedOutcome} {out' : Outcome}, Agree ([] :: κ) seen inner out out' →
      Agree κ outer seen out.leave out'
  | .next κ', .next σ, ⟨hfits, hlike, hsub⟩ => by
    refine ⟨hκ.like hlike, Chain.Like.tail hlike, fun n v hv => hsub n v ?_⟩
    have hn : n ∈ seen := by
      rw [← hfits.around n, hv]
      rfl
    have hnone : List.lookup n κ'.top = none :=
      Option.not_isSome_iff_eq_none.1 fun hsome => hfits.apart n hsome hn
    rw [Chain.store_eq, hnone, Option.none_or]
    exact hv
  | .done _, .done _, h => h
  | .next _, .done _, h | .done _, .next _, h => h.elim

/-- An earlier chain has the same names around its innermost frame. -/
theorem Agree.before {κ κ₁ : Chain} {outer seen : List String}
    (hlike : Chain.Like κ.around κ₁.around) :
    ∀ {out : ScopedOutcome} {out' : Outcome}, Agree κ₁ outer seen out out' →
      Agree κ outer seen out out'
  | .next _, .next _, ⟨hfits, hlike', hsub⟩ => ⟨hfits, hlike.trans hlike', hsub⟩
  | .done _, .done _, h => h
  | .next _, .done _, h | .done _, .next _, h => h.elim

section Statements

variable {call call' : String → List Val → Option Val}

mutual

/-- What a statement does under scoping it does with one variable for each name. -/
theorem scopedStmt_agree (hcall : ∀ n vs, Upholds (call n vs) (call' n vs)) :
    ∀ (s : Stmt) {κ : Chain} {σ : Store} {outer seen : List String} {out : ScopedOutcome},
      κ.Fits outer seen → κ.store.Sub σ → s.apart outer seen = true →
        scopedStmt call κ s = some out → ∃ out', evalStmt call' σ s = some out' ∧
          Agree κ outer (s.names ⟨seen, []⟩).seen out out'
  | .ret _ none, _, _, _, _, _, _, _, _, h => by
    rw [scopedStmt] at h
    obtain rfl := Option.some.inj h
    exact ⟨.done 0, by rw [evalStmt], rfl⟩
  | .ret _ (some e), _, _, _, _, _, _, hsub, _, h => by
    rw [scopedStmt] at h
    obtain ⟨v, hv, rfl⟩ := Option.map_eq_some_iff.1 h
    exact ⟨.done v, by rw [evalStmt, evalExpr_mono hcall e hsub v hv, Option.map_some], rfl⟩
  | .assign _ n _ e, κ, σ, _, _, _, hκ, hsub, _, h => by
    rw [scopedStmt] at h
    obtain ⟨v, hv, rfl⟩ := Option.map_eq_some_iff.1 h
    refine ⟨.next (σ.set n v), by rw [evalStmt, evalExpr_mono hcall e hsub v hv, Option.map_some],
      ?_⟩
    obtain ⟨hfits, hlike⟩ := hκ.assign n v
    exact ⟨hfits, hlike, Chain.store_assign κ n v ▸ hsub.set n v⟩
  | .use _ n e, κ, σ, outer, _, _, hκ, hsub, hapart, h => by
    rw [scopedStmt] at h
    obtain ⟨v, hv, rfl⟩ := Option.map_eq_some_iff.1 h
    refine ⟨.next (σ.set n v), by rw [evalStmt, evalExpr_mono hcall e hsub v hv, Option.map_some],
      ?_⟩
    have hn : n ∉ outer := by simpa [Stmt.apart] using hapart
    exact ⟨hκ.declare hn v, Chain.Like.refl _, Chain.store_declare κ n v ▸ hsub.set n v⟩
  | .ifThen _ c _ a, κ, σ, _, _, _, hκ, hsub, hapart, h => by
    rw [scopedStmt, Option.bind_eq_some_iff] at h
    obtain ⟨x, hx, h⟩ := h
    rw [evalStmt, evalExpr_mono hcall c hsub x hx, Option.bind_some]
    split at h
    · next hx =>
      obtain ⟨out, hout, rfl⟩ := Option.map_eq_some_iff.1 h
      obtain ⟨out', hout', inner, hagree⟩ :=
        scopedStmts_agree hcall a hκ.push hsub (by simpa [Stmt.apart] using hapart) hout
      exact ⟨out', by rw [if_pos hx, hout'], hagree.leave hκ⟩
    · next hx =>
      obtain rfl := Option.some.inj h
      exact ⟨.next σ, by rw [if_neg hx], hκ, Chain.Like.refl _, hsub⟩
  | .ifElse _ c _ a _ b, κ, σ, _, _, _, hκ, hsub, hapart, h => by
    rw [scopedStmt, Option.bind_eq_some_iff] at h
    obtain ⟨x, hx, h⟩ := h
    rw [evalStmt, evalExpr_mono hcall c hsub x hx, Option.bind_some]
    rw [Stmt.apart, Bool.and_eq_true] at hapart
    split at h
    · next hx =>
      obtain ⟨out, hout, rfl⟩ := Option.map_eq_some_iff.1 h
      obtain ⟨out', hout', inner, hagree⟩ := scopedStmts_agree hcall a hκ.push hsub hapart.1 hout
      exact ⟨out', by rw [if_pos hx, hout'], hagree.leave hκ⟩
    · next hx =>
      obtain ⟨out, hout, rfl⟩ := Option.map_eq_some_iff.1 h
      obtain ⟨out', hout', inner, hagree⟩ := scopedStmts_agree hcall b hκ.push hsub hapart.2 hout
      exact ⟨out', by rw [if_neg hx, hout'], hagree.leave hκ⟩
  | .expr _ e, κ, σ, _, _, _, hκ, hsub, _, h => by
    rw [scopedStmt] at h
    obtain ⟨v, hv, rfl⟩ := Option.map_eq_some_iff.1 h
    exact ⟨.next σ, by rw [evalStmt, evalExpr_mono hcall e hsub v hv, Option.map_some], hκ,
      Chain.Like.refl _, hsub⟩
  | .missing, _, _, _, _, _, _, _, _, h => by
    rw [scopedStmt] at h
    cases h

theorem scopedStmts_agree (hcall : ∀ n vs, Upholds (call n vs) (call' n vs)) :
    ∀ (ss : List Stmt) {κ : Chain} {σ : Store} {outer seen : List String} {out : ScopedOutcome},
      κ.Fits outer seen → κ.store.Sub σ → stmtsApart outer seen ss = true →
        scopedStmts call κ ss = some out → ∃ out', evalStmts call' σ ss = some out' ∧
          ∃ inner, Agree κ outer inner out out'
  | [], κ, σ, _, seen, _, hκ, hsub, _, h => by
    rw [scopedStmts] at h
    obtain rfl := Option.some.inj h
    exact ⟨.next σ, by rw [evalStmts], seen, hκ, Chain.Like.refl _, hsub⟩
  | s :: ss, κ, σ, _, seen, _, hκ, hsub, hapart, h => by
    rw [stmtsApart, Bool.and_eq_true] at hapart
    rw [scopedStmts, Option.bind_eq_some_iff] at h
    obtain ⟨out₁, hout₁, h⟩ := h
    obtain ⟨out₁', hout₁', hagree₁⟩ := scopedStmt_agree hcall s hκ hsub hapart.1 hout₁
    rw [evalStmts, hout₁', Option.bind_some]
    match out₁, out₁', hagree₁ with
    | .next κ₁, .next σ₁, ⟨hfits₁, hlike₁, hsub₁⟩ =>
      obtain ⟨out₂', hout₂', inner, hagree₂⟩ := scopedStmts_agree hcall ss hfits₁ hsub₁ hapart.2 h
      exact ⟨out₂', hout₂', inner, hagree₂.before hlike₁⟩
    | .done v, .done w, hvw =>
      obtain rfl := Option.some.inj h
      exact ⟨.done w, rfl, seen, hvw⟩

end

end Statements

/-! ### Functions -/

/-- The values of the parameters are those with one variable for each name. -/
theorem bindParams_eq (ps : List Param) (vs : List Val) (f : List (String × Val)) (σ : Store)
    (h : ∀ n, List.lookup n f = σ n) :
    ∀ n, List.lookup n ((ps.zip vs).foldl (fun f e => (e.1.name, e.2) :: f) f) =
      bindParams σ ps vs n := by
  induction ps generalizing vs f σ with
  | nil => exact h
  | cons p ps ih =>
    cases vs with
    | nil => exact h
    | cons v vs =>
      refine ih vs _ (σ.set p.name v) fun n => ?_
      rw [Chain.lookup_cons_frame, Store.set, h n]

/-- The names of the parameters are those in scope at the start. -/
theorem isSome_paramFrame {ps : List Param} {vs : List Val} (hlen : vs.length = ps.length)
    (f : List (String × Val)) (k : Names) (h : ∀ n, (List.lookup n f).isSome = true ↔ n ∈ k.seen) :
    ∀ n,
      (List.lookup n ((ps.zip vs).foldl (fun f e => (e.1.name, e.2) :: f) f)).isSome = true ↔
        n ∈ (k.bindAll (ps.map (·.name))).seen := by
  induction ps generalizing vs f k with
  | nil => exact h
  | cons p ps ih =>
    cases vs with
    | nil => simp at hlen
    | cons v vs =>
      refine ih (by simpa using hlen) _ (k.bind p.name) fun n => ?_
      rw [Chain.lookup_cons_frame]
      show _ ↔ n ∈ p.name :: k.seen
      rw [List.mem_cons]
      split
      · next hn => simp [hn]
      · next hn => simp [hn, h n]

/-- What a function returns under scoping it returns with one variable for each name. -/
theorem evalBody_of_scopedBody {call call' : String → List Val → Option Val}
    (hcall : ∀ n vs, Upholds (call n vs) (call' n vs)) {d : FuncDef} (hapart : d.apart = true)
    {args : List Val} (hlen : args.length = d.params.length) {v : Val}
    (h : scopedBody call [paramFrame d.params args] d.body.stmts = some v) :
    evalBody call' (bindParams (fun _ => none) d.params args) d.body.stmts = some v := by
  have hstore : ∀ n, Chain.store [paramFrame d.params args] n =
    List.lookup n (paramFrame d.params args) := by
    intro n
    rw [Chain.store_eq]
    exact Option.or_none
  have hfits : Chain.Fits [paramFrame d.params args] [] d.paramNames.seen := by
    refine ⟨fun n => by simp [Chain.around, Chain.store], fun n => ?_, fun n _ => by simp⟩
    rw [hstore]
    exact isSome_paramFrame hlen [] ⟨[], []⟩ (fun n => by simp) n
  have hsub : Store.Sub (Chain.store [paramFrame d.params args])
    (bindParams (fun _ => none) d.params args) := by
    intro n w hw
    rw [hstore] at hw
    exact (bindParams_eq d.params args [] (fun _ => none) (fun n => rfl) n).symm.trans hw
  obtain ⟨out, hout, hv⟩ := Option.map_eq_some_iff.1 h
  obtain ⟨out', hout', inner, hagree⟩ := scopedStmts_agree hcall d.body.stmts hfits hsub hapart hout
  rw [evalBody, hout', Option.map_some, ← hv]
  match out, out', hagree with
  | .next _, .next _, _ => rfl
  | .done _, .done _, hvw => exact congrArg some hvw.symm

/-- Where the variables of arms are apart from those around them, calls mean the same with one
variable for each name. -/
theorem Program.eval_of_scopedEval {p : Program} (hapart : ∀ f ∈ p.functions, f.func.apart = true)
    (depth : Nat) (name : String) (args : List Val) :
    Upholds (p.scopedEval depth name args) (p.eval depth name args) := by
  induction depth generalizing name args with
  | zero =>
    intro v hv
    cases hv
  | succ depth ih =>
    intro v hv
    rw [scopedEval, Option.bind_eq_some_iff] at hv
    obtain ⟨f, hf, hv⟩ := hv
    split at hv
    · next hlen =>
      rw [Program.eval, hf, Option.bind_some, if_pos hlen]
      refine evalBody_of_scopedBody (fun n vs w hw => ?_) (hapart f (List.mem_of_find?_eq_some hf))
        hlen hv
      rw [Option.bind_eq_some_iff] at hw ⊢
      obtain ⟨q, hq, hw⟩ := hw
      exact ⟨q, hq, ih q vs w hw⟩
    · cases hv

/-! ### Generated code -/

/-- A name that is read is a variable in scope if and only if a word is loaded for it, unless it
was in scope once. -/
theorem Place.Compiled.local_iff_load {r : Report} {c : LowerContext} {code : Listing} {q : Place}
    {locals : List Frame} {slots : Slots} (h : q.Compiled r c code locals slots) {loc : Location}
    {n : String} (hq : q.expr = .var loc n) (hn : n ∉ q.names.gone) :
    (∃ u, findIn? locals n = some (.variable n u)) ↔
      ∃ o d, slots.lookup n = some o ∧ .load .lw d .sp o ∈ code := by
  constructor
  · rintro ⟨u, hu⟩
    have hseen : n ∈ q.names.seen := by
      by_contra hnot
      rw [h.sees.free n hnot] at hu
      cases hu
    obtain ⟨depth, s, part, reg, s', hgives, hpart⟩ := h.lowered
    rw [hq] at hgives
    obtain ⟨-, -, ⟨o, ho, rfl⟩ | ⟨hnone, -⟩⟩ := Lowering.gives_var hgives
    · exact ⟨o, _, ho, hpart.subset List.mem_cons_self⟩
    · exact absurd (List.mem_append_left _ hseen) ((h.has n).1 hnone)
  · rintro ⟨o, d, ho, -⟩
    exact h.sees.bound n ((List.mem_append.1 (h.has.mem_of_lookup ho)).resolve_right hn)

/-- Variables are scoped as the checker scopes them. Take a program that is accepted and for which
code is generated. If no `use` in an arm has the name of a variable that is in scope outside the
arm, then whatever a call of a function means under scoping it means with one variable for each
name, and the code of the function returns it, under the conditions under which code returns what a
call means. And in any case a name that is read is a local variable to the checker if and only if a
word is loaded for it, unless a variable of that name was in scope in an arm that was left. -/
theorem scoping_followed (p : Program) (o : CheckOptions) (c : Checker) (opts : CodegenOptions)
    (code : Listing) (ho : o.symbols = []) (hcheck : p.check o = (.ok (), c))
    (hgenerate : p.generate opts = .ok code) :
    ((∀ f ∈ p.functions, f.func.apart = true) →
      ∀ f ∈ p.functions, ∀ depth args v, p.scopedEval depth f.name args = some v →
      p.eval depth f.name args = some v ∧
      ∀ frame sym junk sp ra d, opts.comments = false → p.Within opts frame → code.length < 2 ^ 32 →
        frame * depth ≤ 2 ^ 32 → d.pc = target code (functionLabel f.name) → Entry args sp ra d →
          ∃ ps d', Run (step sym junk code) d ps d' ∧ Returned sp ra v (frame * depth) d d') ∧
    ∀ e ∈ numberedFunctions 0 p.functions,
      ∃ g t start lf, e.2.Compiled opts p c code e.1 g t start lf ∧
        ∀ q ∈ e.2.func.places e.1, ∀ locals slots,
        q.Compiled ⟨c.typeOf?, g, pathOf e.2.name⟩
          (Lowering.contextOf opts (p.functions.map (·.name)) e.2
            (Lowering.exitLabel { labels := start })) lf.code locals slots →
        ∀ loc n, q.expr = .var loc n → n ∉ q.names.gone →
          ((∃ u, findIn? locals n = some (.variable n u)) ↔
            ∃ o d, slots.lookup n = some o ∧ .load .lw d .sp o ∈ lf.code) := by
  constructor
  · intro hapart f hf depth args v hv
    have heval := Program.eval_of_scopedEval hapart depth f.name args v hv
    refine ⟨heval, fun frame sym junk sp ra d hcomments hwithin hlength hroom hpc hentry => ?_⟩
    exact p.callsWell (Program.generate_spec hcomments hgenerate) hcomments hlength hwithin sym junk
      hroom f hf args v heval sp ra d hpc hentry
  · intro e he
    obtain ⟨g, t, start, lf, hf⟩ := compiled_places ho hcheck hgenerate e he
    exact ⟨g, t, start, lf, hf, fun q _ locals slots hplace loc n hq hn =>
      hplace.local_iff_load hq hn⟩

/-- A function that binds a variable, and after a condition does something in an arm. -/
def armFunction (arm : List Stmt) : FuncDef where
  loc := {}
  name := "main"
  params := [⟨{}, "c", some (.name {} "u24" [])⟩]
  ret := some (.name {} "u24" [])
  body := ⟨{}, [.assign {} "x" none (.uint {} 1), .ifThen {} (.var {} "c") {} arm,
    .ret {} (some (.var {} "x"))]⟩
  checked := true

/-- The program of this function. -/
def armProgram (arm : List Stmt) : Program := ⟨[], [.func (armFunction arm)]⟩

/-- A machine that is to run the function on one. -/
def armStart (code : Listing) : Config where
  pc := target code (functionLabel "main")
  regs := fun r => some (if r = .a0 then 1 else 0x80000000)
  mem := fun _ => 0

theorem entry_armStart (code : Listing) : Entry [1] 0x80000000 0x80000000 (armStart code) := by
  refine ⟨fun k w hk => ?_, rfl, rfl, fun _ _ => rfl⟩
  obtain rfl : k = 0 := by simpa using (List.getElem?_eq_some_iff.1 hk).1
  exact hk

/-- An arm that assigns to the variable and binds others. -/
def assigningArm : List Stmt :=
  [.assign {} "x" none (.uint {} 2), .assign {} "y" none (.uint {} 5), .use {} "y" (.uint {} 7)]

theorem scoping_followed_assigning : ∃ c code, (armProgram assigningArm).check {} = (.ok (), c) ∧
    (armProgram assigningArm).generate {} = .ok code ∧
    ∃ ps d', Run (step (fun _ => 0) (fun _ _ => none) code) (armStart code) ps d' ∧
    d'.regs .a0 = some 2 := by
  have hcheck : (armProgram assigningArm).check {} =
      (.ok (), ((armProgram assigningArm).check {}).2) := check_eq_of_isOk (by decide +kernel)
  obtain ⟨code, hgenerate, hlength⟩ := exists_code (armProgram assigningArm) {}
    (fun code => decide (code.length < 2 ^ 32)) (by decide +kernel)
  obtain ⟨hscoped, -⟩ := scoping_followed _ _ _ _ _ rfl hcheck hgenerate
  obtain ⟨-, hrun⟩ :=
    hscoped (by decide +kernel) ⟨"main", armFunction assigningArm⟩ List.mem_cons_self 1 [1] 2
      (by decide +kernel)
  obtain ⟨ps, d', hps, hreturned⟩ :=
    hrun 32 (fun _ => 0) (fun _ _ => none) _ _ (armStart code) rfl (by decide +kernel)
      (of_decide_eq_true hlength) (by decide) rfl (entry_armStart code)
  exact ⟨_, code, hcheck, hgenerate, ps, d', hps, hreturned.result⟩

/-- An arm that binds a new variable under the name of the one outside. -/
def usingArm : List Stmt := [.use {} "x" (.uint {} 2)]

/-- Under scoping the variable outside still has its value, but the code returns that of
the one in the arm. -/
theorem using_arm_changes_outer :
    ∃ c code, (armProgram usingArm).check {} = (.ok (), c) ∧
    (armProgram usingArm).generate {} = .ok code ∧
    (armProgram usingArm).scopedEval 1 "main" [1] = some 1 ∧
    ∃ ps d', Run (step (fun _ => 0) (fun _ _ => none) code) (armStart code) ps d' ∧
    d'.regs .a0 = some 2 := by
  have hcheck : (armProgram usingArm).check {} = (.ok (), ((armProgram usingArm).check {}).2) :=
    check_eq_of_isOk (by decide +kernel)
  obtain ⟨code, hgenerate, hlength⟩ := exists_code (armProgram usingArm) {}
    (fun code => decide (code.length < 2 ^ 32)) (by decide +kernel)
  have hcalls : (armProgram usingArm).CallsWell (fun _ => 0) (fun _ _ => none) code 32 1 :=
    Program.callsWell (Program.generate_spec rfl hgenerate) rfl (of_decide_eq_true hlength)
      (by decide +kernel) _ _ (by decide)
  obtain ⟨ps, d', hps, hreturned⟩ :=
    hcalls ⟨"main", armFunction usingArm⟩ List.mem_cons_self [1] 2 (by decide +kernel) _ _
      (armStart code) rfl (entry_armStart code)
  exact ⟨_, code, hcheck, hgenerate, by decide +kernel, ps, d', hps, hreturned.result⟩

end FunRiscv
