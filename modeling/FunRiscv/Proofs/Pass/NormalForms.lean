import Mathlib
import FunRiscv.Pass.Eta
import FunRiscv.Pass.FloatFold
import FunRiscv.Proofs.Pass.Children

/-!
# What the rules leave, and what they keep

Eta reduction and float folding rewrite expressions from the leaves up.

* `Expr.normal_revise`: where a rule has been applied everywhere, it applies nowhere.
* `Expr.FloatForm`: the forms of expressions whose type can only be that of floats;
  `Expr.SoundCall`: a call of something else.
* `Expr.Stands`: an expression that may stand where another stood without float folding, or a call,
  being touched by that.
* `Expr.foldFloats_keeps`: float folding keeps calls sound.
* `Expr.etaReduce_keeps`: so does eta reduction, and then it exposes no float literal: nothing is
  left to fold that was not before.
-/

namespace FunRiscv

namespace Expr

/-- The number of a float literal. -/
def float? : Expr → Option Float
  | .float _ v => some v
  | _ => none

/-- A float literal, a power, or an arithmetic operation with an operand of such a form. -/
def FloatForm : Expr → Prop
  | .float .. => True
  | .binOp _ op l r => op.kind = .power ∨ op.kind = .arithmetic ∧ (l.FloatForm ∨ r.FloatForm)
  | _ => False

/-- A call with arguments, none of them named, is not one of an expression of float form. -/
def SoundCall : Expr → Prop
  | .call _ f args [] => args ≠ [] → ¬f.FloatForm
  | _ => True

/-- A literal is a float literal of the same number if the other expression is, and is of float
form only if that is. -/
structure Stands (x x' : Expr) : Prop where
  float : x'.float? = x.float?
  form : x'.FloatForm → x.FloatForm

theorem Stands.refl (x : Expr) : Stands x x := ⟨rfl, id⟩

variable {x x' z : Expr}

/-! ### Operations -/

theorem isFloat_eq (x : Expr) (v : Float) : x.isFloat v = x.float?.any (· == v) := by
  cases x <;> rfl

theorem foldIdentity_eq_none_iff (loc : Location) (op : Operator) {l l' r r' : Expr}
    (hl : l'.float? = l.float?) (hr : r'.float? = r.float?) :
    foldIdentity loc op l' r' = none ↔ foldIdentity loc op l r = none := by
  unfold foldIdentity
  simp only [isFloat_eq, hl, hr]
  cases op <;> dsimp only <;> (repeat' split) <;> simp

theorem floatRule_binOp (loc : Location) (op : Operator) (l r : Expr) :
    floatRule (.binOp loc op l r) = match l.float?, r.float? with
    | some a, some b => foldConstants loc op a b
    | _, _ => foldIdentity loc op l r := by
  cases l <;> cases r <;> rfl

theorem Stands.of_congruent (h : x.Congruent Stands x') : Stands x x' := by
  cases h with
  | binOp hl hr => exact ⟨rfl, Or.imp_right (And.imp_right (Or.imp hl.form hr.form))⟩
  | atom h => exact .refl x
  | _ => exact ⟨rfl, id⟩

/-- Nothing is left to fold after the children were replaced by others that stand for them. -/
theorem floatRule_of_congruent (h : x.Congruent Stands x') (hx : floatRule x = none) :
    floatRule x' = none := by
  cases h with
  | @binOp loc op l l' r r' hl hr =>
    rw [floatRule_binOp] at hx ⊢
    rw [hl.float, hr.float]
    cases hfl : l.float? with
    | none =>
      simp only [hfl] at hx ⊢
      exact (foldIdentity_eq_none_iff loc op hl.float hr.float).2 hx
    | some a =>
      cases hfr : r.float? with
      | none =>
        simp only [hfl, hfr] at hx ⊢
        exact (foldIdentity_eq_none_iff loc op hl.float hr.float).2 hx
      | some b =>
        simp only [hfl, hfr] at hx ⊢
        cases op <;> simp_all [foldConstants]
  | atom h => exact hx
  | _ => rfl

theorem SoundCall.of_congruent (h : x.Congruent (fun y y' => y'.FloatForm → y.FloatForm) x')
    (hx : x.SoundCall) : x'.SoundCall := by
  cases h with
  | @call loc f f' as as' ns ns' hf has hns =>
    cases hns with
    | nil =>
      intro hargs hform
      exact hx (fun hnil => hargs (List.forall₂_nil_left_iff.1 (hnil ▸ has))) (hf hform)
    | cons => trivial
  | atom h => exact hx
  | _ => trivial

/-! ### The rules -/

theorem floatForm_of_congruent (h : x.Congruent (fun y y' => y'.FloatForm → y.FloatForm) x') :
    x'.FloatForm → x.FloatForm := by
  cases h with
  | binOp hl hr => exact Or.imp_right (And.imp_right (Or.imp hl hr))
  | atom h => exact id
  | _ => exact id

theorem floatForm_of_isFloat {v : Float} (h : x.isFloat v = true) : x.FloatForm := by
  cases x with
  | float loc w => trivial
  | _ => cases h

/-- A literal, or what a rule can do nothing about. -/
def Inert (x : Expr) : Prop := x.children = [] ∧ floatRule x = none ∧ x.SoundCall

theorem inert_float (loc : Location) (v : Float) : (Expr.float loc v).Inert := ⟨rfl, rfl, trivial⟩

theorem inert_truthLiteral (loc : Location) (b : Bool) : (truthLiteral loc b).Inert :=
  ⟨rfl, rfl, trivial⟩

theorem of_foldConstants {loc : Location} {op : Operator} {a b : Float}
    (h : foldConstants loc op a b = some z) :
    z.Inert ∧ (z.FloatForm → op.kind = .power ∨ op.kind = .arithmetic) := by
  cases op with
  | add | sub | mul =>
    obtain rfl := Option.some.inj h
    exact ⟨inert_float _ _, fun _ => .inr rfl⟩
  | pow =>
    obtain rfl := Option.some.inj h
    exact ⟨inert_float _ _, fun _ => .inl rfl⟩
  | div | mod =>
    rw [foldConstants] at h
    split at h
    · cases h
    · obtain rfl := Option.some.inj h
      exact ⟨inert_float _ _, fun _ => .inr rfl⟩
  | eq | ne | lt | le | gt | ge =>
    obtain rfl := Option.some.inj h
    exact ⟨inert_truthLiteral _ _, False.elim⟩
  | and | or | xor | shl | shr => cases h

theorem of_foldIdentity {loc : Location} {op : Operator} {l r : Expr}
    (h : foldIdentity loc op l r = some z) :
    (z = l ∨ z = r ∨ z.Inert) ∧
      (z.FloatForm → op.kind = .power ∨ op.kind = .arithmetic ∧ (l.FloatForm ∨ r.FloatForm)) := by
  have hleft : op.kind = .arithmetic → some l = some z → (z = l ∨ z = r ∨ z.Inert) ∧
      (z.FloatForm → op.kind = .power ∨ op.kind = .arithmetic ∧ (l.FloatForm ∨ r.FloatForm)) := by
    rintro hop ⟨rfl⟩
    exact ⟨.inl rfl, fun hform => .inr ⟨hop, .inl hform⟩⟩
  have hright : op.kind = .arithmetic → some r = some z → (z = l ∨ z = r ∨ z.Inert) ∧
      (z.FloatForm → op.kind = .power ∨ op.kind = .arithmetic ∧ (l.FloatForm ∨ r.FloatForm)) := by
    rintro hop ⟨rfl⟩
    exact ⟨.inr (.inl rfl), fun hform => .inr ⟨hop, .inr hform⟩⟩
  cases op with
  | add =>
    simp only [foldIdentity] at h
    split at h
    · exact hleft rfl h
    · split at h
      · exact hright rfl h
      · cases h
  | sub | div =>
    simp only [foldIdentity] at h
    split at h
    · exact hleft rfl h
    · cases h
  | mul =>
    simp only [foldIdentity] at h
    split at h
    · exact hleft rfl h
    · split at h
      · exact hright rfl h
      · split at h
        · next hzero =>
          obtain rfl := Option.some.inj h
          rw [Bool.or_eq_true] at hzero
          exact ⟨.inr (.inr (inert_float _ _)),
            fun _ => .inr ⟨rfl, (hzero.imp floatForm_of_isFloat floatForm_of_isFloat).symm⟩⟩
        · cases h
  | pow =>
    simp only [foldIdentity] at h
    split at h
    · obtain rfl := Option.some.inj h
      exact ⟨.inl rfl, fun _ => .inl rfl⟩
    · split at h
      · obtain rfl := Option.some.inj h
        exact ⟨.inr (.inr (inert_float _ _)), fun _ => .inl rfl⟩
      · cases h
  | _ => cases h

/-- Float folding gives an operand or a literal, and one of float form for one of
float form only. -/
theorem of_floatRule (h : floatRule x = some z) :
    (z ∈ x.children ∨ z.Inert) ∧ (z.FloatForm → x.FloatForm) := by
  cases x with
  | binOp loc op l r =>
    rw [floatRule_binOp] at h
    have hidentity : foldIdentity loc op l r = some z →
        (z ∈ children (.binOp loc op l r) ∨ z.Inert) ∧
          (z.FloatForm → FloatForm (.binOp loc op l r)) := by
      intro h
      obtain ⟨hz, hform⟩ := of_foldIdentity h
      refine ⟨?_, hform⟩
      rcases hz with rfl | rfl | hz
      · exact .inl (by simp [children])
      · exact .inl (by simp [children])
      · exact .inr hz
    cases hl : l.float? with
    | none =>
      simp only [hl] at h
      exact hidentity h
    | some a =>
      cases hr : r.float? with
      | none =>
        simp only [hl, hr] at h
        exact hidentity h
      | some b =>
        simp only [hl, hr] at h
        obtain ⟨hz, hform⟩ := of_foldConstants h
        have hfloat : l.FloatForm := by
          cases l with
          | float => trivial
          | _ => cases hl
        exact ⟨.inr hz, fun hz => (hform hz).imp id fun hop => ⟨hop, .inl hfloat⟩⟩
  | _ => cases h

/-- Eta reduction gives what the body of a lambda calls, with some arguments and none
of them named. -/
theorem of_etaRule (h : etaRule x = some z) :
    ∃ loc params loc' args, x = .lambda loc params (.call loc' z args []) ∧ args ≠ [] := by
  unfold etaRule at h
  split at h
  · next loc params loc' f args =>
    dsimp only at h
    split at h
    · next hcond =>
      obtain rfl := Option.some.inj h
      refine ⟨loc, params, loc', args, rfl, ?_⟩
      rintro rfl
      simp at hcond
    · cases h
  · cases h

/-! ### Revised expressions -/

/-- A rule that gives only what it does not apply to, if it applies to nothing below, applies
nowhere in what it made of an expression. -/
theorem normal_revise {rule : Expr → Option Expr}
    (h : ∀ x z, rule x = some z → (∀ y ∈ x.children, y.All fun y => rule y = none) →
      z.All fun y => rule y = none) (x : Expr) :
    (x.revise rule).value.All fun y => rule y = none := by
  refine revise_rel (R := fun _ x' => x'.All fun y => rule y = none) (fun x x₁ hx => ?_) x
  have hchildren := hx.forall_children (A := fun _ => True) (fun _ _ h _ => h) fun _ _ => trivial
  cases hrule : rule x₁ with
  | none => exact .intro hrule hchildren
  | some z => exact h x₁ z hrule hchildren

theorem normal_foldFloats (x : Expr) :
    (x.revise floatRule).value.All fun y => floatRule y = none := by
  refine normal_revise (fun x z hrule hchildren => ?_) x
  rcases (of_floatRule hrule).1 with hz | ⟨hatom, hz, -⟩
  · exact hchildren z hz
  · exact .atom hz hatom

theorem normal_etaReduce (x : Expr) : (x.revise etaRule).value.All fun y => etaRule y = none := by
  refine normal_revise (fun x z hrule hchildren => ?_) x
  obtain ⟨loc, params, loc', args, rfl, -⟩ := of_etaRule hrule
  have hcall := hchildren _ (List.mem_singleton.2 rfl)
  exact hcall.child (by simp [children])

/-- Float folding keeps calls sound. -/
theorem foldFloats_keeps (x : Expr) (h : x.All SoundCall) :
    (x.revise floatRule).value.All SoundCall := by
  have hrel :=
    @revise_rel floatRule fun x x' => (x'.FloatForm → x.FloatForm) ∧
      (x.All SoundCall → x'.All SoundCall)
  refine (hrel (fun x x₁ hx => ?_) x).2 h
  have hforms : x.Congruent (fun y y' => y'.FloatForm → y.FloatForm) x₁ :=
    hx.imp fun y _ y' h => h.1
  have hsound : x.All SoundCall → x₁.All SoundCall := fun h =>
    .intro (h.self.of_congruent hforms) (hx.forall_children (fun y y' h => h.2) fun y hy =>
      h.child hy)
  cases hrule : floatRule x₁ with
  | none => exact ⟨floatForm_of_congruent hforms, hsound⟩
  | some z =>
    obtain ⟨hz, hform⟩ := of_floatRule hrule
    refine ⟨floatForm_of_congruent hforms ∘ hform, fun h => ?_⟩
    rcases hz with hz | ⟨hatom, -, hz⟩
    · exact (hsound h).child hz
    · exact .atom hz hatom

/-- Eta reduction keeps calls sound, and where they are, it leaves nothing to fold that was
not there before. -/
theorem etaReduce_keeps (x : Expr) (h : x.All SoundCall) : (x.revise etaRule).value.All SoundCall ∧
    ((x.All fun y => floatRule y = none) →
      (x.revise etaRule).value.All fun y => floatRule y = none) := by
  have hrel := @revise_rel etaRule fun x x' => x.All SoundCall → x.Stands x' ∧ x'.All SoundCall ∧
    ((x.All fun y => floatRule y = none) → x'.All fun y => floatRule y = none)
  refine (hrel (fun x x₁ hx h => ?_) x h).2
  have hstands : x.Congruent Stands x₁ := hx.imp fun y hy y' h' => (h' (h.child hy)).1
  have hsound : x₁.All SoundCall := .intro (h.self.of_congruent (hstands.imp fun _ _ _ h => h.form))
    (hx.forall_children (fun y y' h' => fun hy => (h' hy).2.1) fun y hy => h.child hy)
  have hnormal : (x.All fun y => floatRule y = none) → x₁.All fun y => floatRule y = none :=
    fun hfloat =>
    .intro (floatRule_of_congruent hstands hfloat.self)
      (hx.forall_children (fun y y' h' => fun hy : y.All SoundCall ∧ y.All _ => (h' hy.1).2.2 hy.2)
        fun y hy => ⟨h.child hy, hfloat.child hy⟩)
  cases hrule : etaRule x₁ with
  | none => exact ⟨.of_congruent hstands, hsound, hnormal⟩
  | some z =>
    obtain ⟨loc, params, loc', args, rfl, hargs⟩ := of_etaRule hrule
    have hbody : (Expr.call loc' z args []) ∈
      children (.lambda loc params (.call loc' z args [])) := List.mem_singleton.2 rfl
    have hz : z ∈ children (.call loc' z args []) := by simp [children]
    -- A sound call is not one of an expression of float form, so no float literal comes to light.
    have hform : ¬z.FloatForm := (hsound.child hbody).self hargs
    refine ⟨⟨?_, fun h => absurd h hform⟩, (hsound.child hbody).child hz,
      fun hfloat => ((hnormal hfloat).child hbody).child hz⟩
    have hlambda : x.float? = none := by
      cases hstands with
      | lambda => rfl
      | atom => rfl
    rw [hlambda]
    cases z with
    | float => exact absurd trivial hform
    | _ => rfl

end Expr

end FunRiscv
