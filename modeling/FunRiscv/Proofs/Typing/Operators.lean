import Mathlib
import FunRiscv.Proofs.Typing.Visits

/-!
# The classes of operators

An operator tests the types of its operands when it is checked. A type that is still a variable then
passes, and is not tested again when it becomes known.

* `OperatorKind.admits`: the class of types that an operator takes.
* `OperatorKind.tested`: the expressions whose types are tested.
* `Checker.Escapes`: a type that was recorded as a variable and turned out to lie outside a class.
* `check_operands`: in an accepted program the operands of every operator lie in its class, unless a
  tested type escapes.
* `late_string_added`: a type that escapes.
-/

namespace FunRiscv

open Checking

/-- The class of types that an operator takes. -/
def OperatorKind.admits : OperatorKind → Ty → Bool
  | .arithmetic => Ty.numeric
  | .bitwise | .shift => Ty.integral
  | .comparison | .power => fun _ => true

/-- The expressions whose types an operation of number `k` tests, when its operands have
numbers `i` and `j`. The operands of arithmetic and bitwise operators have one type, which is
that of the operation. -/
def OperatorKind.tested (k i j : Nat) : OperatorKind → List Nat
  | .arithmetic | .bitwise => [k]
  | .shift => [i, j]
  | .comparison | .power => []

/-- The type recorded for an expression is a variable that turned out to stand for a type outside
the class of an operator. -/
def Checker.Escapes (c : Checker) (kind : OperatorKind) (k : Nat) : Prop :=
  ∃ v, c.types.lookup k = some (.var v) ∧ kind.admits (c.settle (.var v)) = false

/-! ### Types in a class -/

namespace Ty

theorem numeric_of_integral {t : Ty} (h : t.integral = true) : t.numeric = true := by
  cases t <;> first | rfl | cases h

theorem bind_of_numeric {t : Ty} (h : t.numeric = true) (θ : String → Ty) : t.bind θ = t := by
  cases t <;> first | rfl | cases h

/-- A type that is a variable or in a class, and not dynamic, agrees with itself and the
dynamic type only. -/
theorem Agrees.eq_or_any {a b : Ty} (h : a.Agrees b) (ha : a.isVar = true ∨ a.numeric = true)
    (hany : a ≠ .any) : b = a ∨ b = .any := by
  obtain ⟨c, hca, hcb⟩ := h
  obtain rfl : c = a := by
    cases a with
    | word | var => exact hca
    | any => exact absurd rfl hany
    | _ => simp [isVar, numeric] at ha
  cases c with
  | word w => cases b <;> simp_all [Blurs]
  | var v => cases b <;> simp_all [Blurs]
  | any => exact absurd rfl hany
  | _ => simp [isVar, numeric] at ha

theorem isVar_of_isVar_bind {t : Ty} {θ : String → Ty} (h : (t.bind θ).isVar = true) :
    t.isVar = true := by
  cases t <;> first | rfl | cases h

end Ty

theorem OperatorKind.admits_any (kind : OperatorKind) : kind.admits .any = true := by
  cases kind <;> rfl

theorem OperatorKind.numeric_of_admits {kind : OperatorKind} (hcomparison : kind ≠ .comparison)
    (hpower : kind ≠ .power) (t : Ty) (h : kind.admits t = true) : t.numeric = true := by
  cases kind with
  | arithmetic => exact h
  | bitwise | shift => exact Ty.numeric_of_integral h
  | comparison => exact absurd rfl hcomparison
  | power => exact absurd rfl hpower

/-! ### The test -/

variable {c c' : Checker}

/-- What the test of operands that must agree saw: the type of one of them, the other being
the same or dynamic. -/
theorem sameOperands_tested {loc : Location} {op : Operator} {l r t : Ty} {test : Ty → Bool}
    (htest : ∀ t, test t = true → t.numeric = true) (hc : c.unifier.Tidy)
    (hl : l.Over c.unifier.Past) (hr : r.Over c.unifier.Past)
    (h : Gives (sameOperands loc op l r test) c t c') :
    (t.isVar = true ∨ test t = true) ∧ ∀ θ, Subst.Respects θ c'.unifier.subst →
      (t.bind θ = l.bind θ ∨ t.bind θ = r.bind θ) ∧ (l.bind θ = t.bind θ ∨ l.bind θ = .any) ∧
        (r.bind θ = t.bind θ ∨ r.bind θ = .any) := by
  obtain ⟨hu, hpassed, hresult⟩ := unified_of_sameOperands h
  rw [Bool.or_eq_true] at hpassed
  obtain ⟨hadv, hagree⟩ := advances_unified (S := ∅) hc hl hr hu
  -- The types that the operands have now agree.
  have hnow : (c'.unifier.apply l).Agrees (c'.unifier.apply r) := by
    have := hagree _ hadv.tidy.coherent.triangular.respects_apply
    rwa [← Subst.apply_eq_bind, ← Subst.apply_eq_bind] at this
  refine ⟨hpassed, fun θ hθ => ?_⟩
  rcases hresult with ⟨rfl, hany⟩ | ⟨hany, rfl⟩
  · rw [bind_applied hadv.tidy hθ l]
    refine ⟨.inl rfl, .inl rfl, ?_⟩
    rw [← bind_applied hadv.tidy hθ r, ← bind_applied hadv.tidy hθ l]
    rcases hnow.eq_or_any (hpassed.imp_right (htest _)) hany with heq | heq
    · exact .inl (by rw [heq])
    · exact .inr (by rw [heq]; rfl)
  · rw [bind_applied hadv.tidy hθ r]
    refine ⟨.inr rfl, .inr ?_, .inl rfl⟩
    rw [← bind_applied hadv.tidy hθ l, hany]
    rfl

/-- What the test of a shift saw: each operand is unknown or an integer. -/
theorem shift_tested {loc : Location} {op : Operator} (hkind : op.kind = .shift) {l r t : Ty}
    (h : Gives (operationType loc op l r) c t c') :
    c' = c ∧ ((c.unifier.apply l).isVar = true ∨ (c.unifier.apply l).integral = true) ∧
      ((c.unifier.apply r).isVar = true ∨ (c.unifier.apply r).integral = true) := by
  rw [operationType, hkind] at h
  obtain ⟨a, c₁, ha, h⟩ := gives_bind.1 h
  obtain ⟨rfl, rfl⟩ := gives_applied.1 ha
  obtain ⟨b, c₂, hb, h⟩ := gives_bind.1 h
  obtain ⟨rfl, rfl⟩ := gives_applied.1 hb
  split at h
  · next htest =>
    obtain ⟨rfl, rfl⟩ := gives_pure.1 h
    exact ⟨rfl, by simpa using htest⟩
  · exact (not_gives_incompatible h).elim

/-! ### Operations of a program -/

/-- An operation that was checked on the way to a checker: the types of its operands were recorded,
the operator was applied to them, and its result was recorded. -/
theorem Visited.operation {loc : Location} {op : Operator} {a b : Expr} {k : Nat}
    (h : Visited (.binOp loc op a b, k) c) :
    ∃ (l m t : Ty) (c₂ c₃ : Checker), c.types.lookup (k + 1) = some l ∧
      c.types.lookup (k + 1 + a.nodeCount) = some m ∧ c.types.lookup k = some t ∧ c₂.unifier.Tidy ∧
      l.Over c₂.unifier.Past ∧ m.Over c₂.unifier.Past ∧ Gives (operationType loc op l m) c₂ t c₃ ∧
      c₃.unifier.Tidy ∧ c₃.unifier.Reaches c.unifier ∧ c.unifier.Tidy := by
  obtain ⟨locals, expected, c₀, c₁, t, later, hc, hx, hrun, hext, hdisj⟩ := h
  rw [infer, gives_bind] at hrun
  obtain ⟨l, c₂, hl, hrun⟩ := hrun
  rw [gives_bind] at hrun
  obtain ⟨m, c₃, hm, hrun⟩ := hrun
  rw [gives_bind] at hrun
  obtain ⟨u, c₄, hu, hrun⟩ := hrun
  rw [gives_bind] at hrun
  obtain ⟨x, c₅, hx', hrun⟩ := hrun
  obtain rfl := gives_record.1 hx'
  obtain ⟨rfl, rfl⟩ := gives_pure.1 hrun
  have hleft := infers a (k + 1) hc (by simp) hl
  have hright := infers b _ (hc.later hleft.advances) (by simp) hm
  have hlpast := hright.advances.reaches.over hleft.past
  obtain ⟨hadv, -, -⟩ := operationType_spec (S := ∅) hright.advances.tidy hlpast hright.past hu
  have hpos := a.nodeCount_pos
  have hpos' := b.nodeCount_pos
  -- What was recorded for the numbers of the operation has not changed since.
  have hkeep : ∀ j ∈ span (k, .binOp loc op a b),
    c.types.lookup j = (c₄.record k t).types.lookup j := fun j hj =>
    hext.lookup_eq (Set.disjoint_left.1 hdisj hj)
  have hother : ∀ j, j ≠ k → (c₄.record k t).types.lookup j = c₃.types.lookup j := by
    intro j hj
    have hb : (j == k) = false := by simpa using hj
    rw [← hadv.lookup_eq (Set.notMem_empty j), Checker.record, List.lookup_cons, hb]
  refine ⟨l, m, t, c₃, c₄, ?_, ?_, ?_, hright.advances.tidy, hlpast, hright.past, hu, hadv.tidy,
    hext.reaches, hext.tidy⟩
  · rw [hkeep _ (by simp only [mem_span, Expr.nodeCount]; omega), hother _ (by omega),
      hright.advances.lookup_eq (by simp only [mem_span]; omega), hleft.recorded]
  · rw [hkeep _ (by simp only [mem_span, Expr.nodeCount]; omega), hother _ (by omega),
      hright.recorded]
  · rw [hkeep _ (by simp only [mem_span, Expr.nodeCount]; omega)]
    simp [Checker.record]

/-- A recorded type that is a variable or in a class at the end is in the class exactly if
it does not escape. -/
theorem Checker.admits_settle_iff {kind : OperatorKind} {t : Ty} {k : Nat}
    (hk : c.types.lookup k = some t) (htest : t.isVar = true ∨ kind.admits (c.settle t) = true) :
    kind.admits (c.settle t) = true ↔ ¬c.Escapes kind k := by
  constructor
  · rintro h ⟨v, hv, hout⟩
    obtain rfl : t = .var v := Option.some.inj (hk.symm.trans hv)
    rw [h] at hout
    cases hout
  · intro h
    refine htest.elim (fun hvar => ?_) id
    obtain ⟨v, rfl⟩ : ∃ v, t = .var v := by
      cases t with
      | var v => exact ⟨v, rfl⟩
      | _ => cases hvar
    by_contra hout
    exact h ⟨v, hk, Bool.eq_false_of_not_eq_true hout⟩

/-- A type that was in a class stays there. -/
theorem Checker.admits_settle {kind : OperatorKind}
    (hnumeric : ∀ t, kind.admits t = true → t.numeric = true) {u : Unifier} (hu : u.Tidy)
    (hθ : Subst.Respects c.settled u.subst) {t : Ty} (h : kind.admits (u.apply t) = true) :
    kind.admits (c.settle t) = true := by
  have hbind : (u.apply t).bind c.settled = t.bind c.settled :=
    hθ.bind_apply hu.coherent.triangular t
  rw [Checker.settle_eq_bind, ← hbind, Ty.bind_of_numeric (hnumeric _ h)]
  exact h

/-- Operands that have to agree are in a class exactly if the type of the operation
does not escape. -/
theorem agreeing_operands {loc : Location} {op : Operator} {l m t : Ty} {c₂ c₃ : Checker} {k : Nat}
    (hnumeric : ∀ t, op.kind.admits t = true → t.numeric = true) (hc₂ : c₂.unifier.Tidy)
    (hl : l.Over c₂.unifier.Past) (hm : m.Over c₂.unifier.Past)
    (hop : Gives (sameOperands loc op l m op.kind.admits) c₂ t c₃)
    (hθ : Subst.Respects c.settled c₃.unifier.subst) (hk : c.types.lookup k = some t) :
    op.kind.admits (c.settle l) = true ∧ op.kind.admits (c.settle m) = true ↔
      ¬c.Escapes op.kind k := by
  obtain ⟨hclass, htypes⟩ := sameOperands_tested hnumeric hc₂ hl hm hop
  obtain ⟨hone, hleft, hright⟩ := htypes _ hθ
  simp only [← Checker.settle_eq_bind] at hone hleft hright
  have htest : t.isVar = true ∨ op.kind.admits (c.settle t) = true := by
    refine hclass.imp_right fun h => ?_
    rw [Checker.settle_eq_bind, Ty.bind_of_numeric (hnumeric t h)]
    exact h
  rw [← Checker.admits_settle_iff hk htest]
  constructor
  · rintro ⟨hadml, hadmr⟩
    rcases hone with heq | heq
    · rw [heq]
      exact hadml
    · rw [heq]
      exact hadmr
  · intro hadm
    have hoperand : ∀ u, u = c.settle t ∨ u = .any → op.kind.admits u = true := by
      rintro u (rfl | rfl)
      · exact hadm
      · exact op.kind.admits_any
    exact ⟨hoperand _ hleft, hoperand _ hright⟩

/-- In an accepted program the operands of every operator have types. Both lie in the class of the
operator exactly if no tested type escapes: none was recorded as a variable that later got a type
outside the class. -/
theorem check_operands (p : Program) (o : CheckOptions) (c : Checker) (ho : o.symbols = [])
    (h : p.check o = (.ok (), c)) (k : Nat) (loc : Location) (op : Operator) (a b : Expr)
    (hk : p.nodes[k]? = some (.binOp loc op a b)) :
    ∃ l m, c.typeOf? (k + 1) = some l ∧ c.typeOf? (k + 1 + a.nodeCount) = some m ∧
      (op.kind.admits l = true ∧ op.kind.admits m = true ↔
        ∀ j ∈ op.kind.tested k (k + 1) (k + 1 + a.nodeCount), ¬c.Escapes op.kind j) := by
  obtain ⟨l, m, t, c₂, c₃, hl, hm, ht, hc₂, hlpast, hmpast, hop, hc₃, hreaches, hc⟩ :=
    (Program.visited_of_check ho h hk).operation
  refine ⟨c.settle l,
    c.settle m, by rw [Checker.typeOf?, hl]; rfl, by rw [Checker.typeOf?, hm]; rfl, ?_⟩
  have hθ := hreaches.respects hc (Checker.respects_settled hc)
  cases hkind : op.kind with
  | arithmetic | bitwise =>
    have hnumeric : ∀ t, op.kind.admits t = true → t.numeric = true :=
      OperatorKind.numeric_of_admits (by simp [hkind]) (by simp [hkind])
    rw [operationType, hkind] at hop
    rw [← hkind, agreeing_operands hnumeric hc₂ hlpast hmpast (by rw [hkind]; exact hop) hθ ht,
      hkind]
    simp [OperatorKind.tested]
  | shift =>
    obtain ⟨rfl, hleft, hright⟩ := shift_tested hkind hop
    -- Each operand was tested for itself.
    have hoperand : ∀ {t : Ty} {j : Nat}, c.types.lookup j = some t →
        ((c₃.unifier.apply t).isVar = true ∨ (c₃.unifier.apply t).integral = true) →
        (OperatorKind.shift.admits (c.settle t) = true ↔ ¬c.Escapes .shift j) := by
      intro t j hj htest
      refine Checker.admits_settle_iff hj (htest.imp (fun hv => ?_) fun hi => ?_)
      · rw [Unifier.apply_eq_bind] at hv
        exact Ty.isVar_of_isVar_bind hv
      · exact Checker.admits_settle (OperatorKind.numeric_of_admits (by simp) (by simp)) hc₃ hθ hi
    rw [hoperand hl hleft, hoperand hm hright]
    simp [OperatorKind.tested]
  | comparison | power => simp [OperatorKind.admits, OperatorKind.tested]

/-- Two functions: `h`, which takes a string, and `main`, which gives a function that adds its
parameter to itself and then passes the sum either to another addition or to `h`. -/
def lateProgram (use : Expr → Expr) : Program := ⟨[], [
  .func {
    loc := {}, name := "h", params := [⟨{}, "x", some (.name {} "String" [])⟩],
    ret := some (.name {} "u24" []), checked := true
    body := ⟨{}, [.ret {} (some (.uint {} 1))]⟩ },
  .func {
    loc := {}, name := "main", params := [], ret := none, checked := true
    body := ⟨{}, [.ret {} (some (.lambda {} [⟨{}, "a", none⟩]
      (use (.binOp {} .add (.var {} "a") (.var {} "a")))))]⟩ }]⟩

/-- The sum is used as a number after it was checked: its type is a variable first and
`u24` at the end. -/
def lateNumber : Program := lateProgram fun sum => .binOp {} .add sum (.uint {} 1)

/-- The sum is used as a string after it was checked. -/
def lateString : Program := lateProgram fun sum => .call {} (.var {} "h") [sum] []

theorem check_operands_lateNumber :
    ∃ c, lateNumber.check {} = (.ok (), c) ∧ c.types.lookup 3 = some (.var "t_2") ∧
    lateNumber.nodes[3]? = some (.binOp {} .add (.var {} "a") (.var {} "a")) ∧
    ∃ l m, c.typeOf? 4 = some l ∧ c.typeOf? 5 = some m ∧ l.numeric = true ∧ m.numeric = true := by
  have haccepted : lateNumber.check {} = (.ok (), (lateNumber.check {}).2) :=
    check_eq_of_isOk (by decide +kernel)
  have hnode : lateNumber.nodes[3]? = some (.binOp {} .add (.var {} "a") (.var {} "a")) := by rfl
  have hrecorded : (lateNumber.check {}).2.types.lookup 3 = some (.var "t_2") := by decide +kernel
  obtain ⟨l, m, hl, hm, hiff⟩ := check_operands lateNumber {} _ rfl haccepted 3 {} .add _ _ hnode
  obtain ⟨hleft, hright⟩ := hiff.2 fun j hj ⟨v, hv, hout⟩ => by
    obtain rfl := List.mem_singleton.1 hj
    obtain rfl : v = "t_2" := by simpa [hrecorded] using hv.symm
    revert hout
    decide +kernel
  exact ⟨_, haccepted, hrecorded, hnode, l, m, hl, hm, hleft, hright⟩

/-- Both operands of the addition have type `String`. -/
theorem late_string_added : ∃ c, lateString.check {} = (.ok (), c) ∧
    lateString.nodes[4]? = some (.binOp {} .add (.var {} "a") (.var {} "a")) ∧
    c.typeOf? 5 = some .string ∧ c.typeOf? 6 = some .string ∧ Ty.string.numeric = false := by
  have haccepted : lateString.check {} = (.ok (), (lateString.check {}).2) :=
    check_eq_of_isOk (by decide +kernel)
  exact ⟨_, haccepted, by rfl, by decide +kernel, by decide +kernel, rfl⟩

end FunRiscv
