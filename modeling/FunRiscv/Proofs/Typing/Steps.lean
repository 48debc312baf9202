import Mathlib
import FunRiscv.Proofs.Typing.Advance

/-!
# Steps of inference

What the steps of inference that hold no further expression do: they only move the unifier, they
give types over past variables, and these types follow the rules, whatever makes the bindings true.

* `advances_unified`, `advances_fresh`, `advances_instantiate`: steps of the unifier.
* `resolve_spec`: a written type means a type over the parameters in scope.
* `inferVar_spec`, `operationType_spec`, `conditionType_spec`, `fieldType_spec`,
  `lambdaParams_spec`: one for each step.
* `unify_callee`: calling what has an unknown type.
-/

namespace FunRiscv

open Checking

variable {S : Set Nat} {c c' : Checker} {locals : List Frame}

/-! ### The unifier -/

theorem advances_unified {a b : Ty} (hc : c.unifier.Tidy) (ha : a.Over c.unifier.Past)
    (hb : b.Over c.unifier.Past) (h : Unified a b c c') :
    Advances S c c' ∧ Unifying.AgreeAfter c'.unifier a b := by
  obtain ⟨u, hu, rfl⟩ := h
  have hmoved := hc.unify ha hb
  rw [hu] at hmoved
  exact ⟨.of_unifier hmoved.1 hmoved.2, Unifying.agrees_of_unify hc.coherent hu⟩

theorem advances_fresh {t : Ty} (hc : c.unifier.Tidy) (h : Gives fresh c t c') :
    Advances S c c' ∧ t.Over c'.unifier.Past := by
  obtain ⟨rfl, rfl⟩ := gives_fresh.1 h
  exact ⟨.of_unifier hc.fresh (Unifier.reaches_fresh _), Ty.over_var.2 (Unifier.past_fresh _)⟩

theorem freshFor_spec (ps : List String) {u : Unifier} (hu : u.Tidy) :
    (freshFor ps u).1.length = ps.length ∧
      (∀ t ∈ (freshFor ps u).1, t.Over (freshFor ps u).2.Past) ∧ (freshFor ps u).2.Tidy ∧
      u.Reaches (freshFor ps u).2 := by
  induction ps generalizing u with
  | nil => exact ⟨rfl, by simp [freshFor], hu, .refl u⟩
  | cons p ps ih =>
    obtain ⟨hlen, hpast, htidy, hreaches⟩ := ih hu.fresh
    refine ⟨by simp [freshFor, hlen], ?_, htidy, (Unifier.reaches_fresh u).trans hreaches⟩
    intro t ht
    rcases List.mem_cons.1 ht with rfl | ht
    · exact Ty.over_var.2 (hreaches.past (Unifier.past_fresh u))
    · exact hpast t ht

theorem advances_instantiate {k : Constructor} {t : Ty} (hc : c.unifier.Tidy) (hk : k.Tidy)
    (h : Gives (instantiate k) c t c') :
    Advances S c c' ∧ t.Over c'.unifier.Past ∧ k.Instance t := by
  obtain ⟨rfl, rfl⟩ := gives_instantiate.1 h
  obtain ⟨hlen, hpast, htidy, hreaches⟩ := freshFor_spec k.params hc
  exact ⟨.of_unifier htidy hreaches, hk.replace hlen hpast, _, hlen, rfl⟩

theorem Constructor.Tidy.instance_bind {k : Constructor} (hk : k.Tidy) {t : Ty} (h : k.Instance t)
    (θ : String → Ty) : k.Instance (t.bind θ) := by
  obtain ⟨ts, hlen, rfl⟩ := h
  exact ⟨ts.map (Ty.bind θ), by simpa using hlen, hk.bind_replace hlen θ⟩

/-- Following the bindings changes nothing that a substitution which makes them true could see. -/
theorem bind_applied (hc : c.unifier.Tidy) {θ : String → Ty} (hθ : Subst.Respects θ c.unifier.subst)
    (t : Ty) : (c.unifier.apply t).bind θ = t.bind θ := hθ.bind_apply hc.coherent.triangular t

theorem gives_mapM_applied {x y : Option Ty} :
    Gives (x.mapM applied) c y c' ↔ y = x.map c.unifier.apply ∧ c' = c := by
  cases x <;> exact gives_iff_of_run rfl

/-! ### Written types -/

theorem resolveName_spec {loc : Location} {n : String} {args : List Ty} {t : Ty} {K : String → Prop}
    (hc : c.globals.Tidy) (hargs : ∀ a ∈ args, a.Over K)
    (h : Gives (Checking.resolveName loc n args) c t c') : c' = c ∧ t.Over K := by
  obtain ⟨s, c₁, hs, h⟩ := gives_bind.1 h
  obtain ⟨rfl, rfl⟩ := gives_find?.1 hs
  split at h
  · next s hs =>
    split at h
    · exact (not_gives_fail h).elim
    · next hlen =>
      have htidy : (Symbol.type s).Tidy := by
        obtain ⟨f, hf, m, hm⟩ := mem_of_symbolIn? hs
        obtain rfl : f = c₁.globals := by simpa using hf
        exact hc _ hm
      have hlen' : args.length = s.params.length := by simpa using hlen
      split at h
      · obtain ⟨rfl, rfl⟩ := gives_pure.1 h
        exact ⟨rfl, Ty.over_named.2 hargs⟩
      · next target htarget =>
        obtain ⟨rfl, rfl⟩ := gives_pure.1 h
        exact ⟨rfl, (htidy.1 target htarget).replace hlen' hargs⟩
  · exact (not_gives_fail h).elim

mutual

/-- A written type means a type over the parameters in scope. -/
theorem resolve_spec {ps : List String} :
    ∀ {e : TypeExpr} {c c' : Checker} {t : Ty}, c.globals.Tidy → Gives (resolve ps e) c t c' →
      c' = c ∧ t.Over (· ∈ ps)
  | .name loc n args, c, c', t, hc, h => by
    rw [resolve] at h
    split at h
    · next hn =>
      obtain ⟨rfl, rfl⟩ := gives_pure.1 h
      rw [Bool.and_eq_true] at hn
      exact ⟨rfl, Ty.over_var.2 (by simpa using hn.2)⟩
    · rw [gives_bind] at h
      obtain ⟨ts, c₁, hts, h⟩ := h
      obtain ⟨rfl, hover⟩ := resolveList_spec hc hts
      exact resolveName_spec hc hover h
  | .func _ p r, c, c', t, hc, h => by
    rw [resolve, gives_bind] at h
    obtain ⟨p', c₁, hp, h⟩ := h
    rw [gives_bind] at h
    obtain ⟨r', c₂, hr, h⟩ := h
    obtain ⟨rfl, hp'⟩ := resolve_spec hc hp
    obtain ⟨rfl, hr'⟩ := resolve_spec hc hr
    obtain ⟨rfl, rfl⟩ := gives_pure.1 h
    exact ⟨rfl, Ty.over_func.2 ⟨hp', hr'⟩⟩
  | .tuple _ es, c, c', t, hc, h => by
    rw [resolve, gives_bind] at h
    obtain ⟨ts, c₁, hts, h⟩ := h
    obtain ⟨rfl, hover⟩ := resolveList_spec hc hts
    obtain ⟨rfl, rfl⟩ := gives_pure.1 h
    exact ⟨rfl, Ty.over_tuple.2 hover⟩
  | .missing, c, c', t, hc, h => by
    rw [resolve] at h
    exact (not_gives_fail h).elim

theorem resolveList_spec {ps : List String} :
    ∀ {es : List TypeExpr} {c c' : Checker} {ts : List Ty}, c.globals.Tidy →
      Gives (resolveList ps es) c ts c' → c' = c ∧ ∀ t ∈ ts, t.Over (· ∈ ps)
  | [], c, c', ts, hc, h => by
    rw [resolveList] at h
    obtain ⟨rfl, rfl⟩ := gives_pure.1 h
    exact ⟨rfl, by simp⟩
  | e :: es, c, c', ts, hc, h => by
    rw [resolveList, gives_bind] at h
    obtain ⟨t, c₁, ht, h⟩ := h
    rw [gives_bind] at h
    obtain ⟨rest, c₂, hrest, h⟩ := h
    obtain ⟨rfl, ht'⟩ := resolve_spec hc ht
    obtain ⟨rfl, hrest'⟩ := resolveList_spec hc hrest
    obtain ⟨rfl, rfl⟩ := gives_pure.1 h
    exact ⟨rfl, List.forall_mem_cons.2 ⟨ht', hrest'⟩⟩

end

/-- Without parameters in scope a written type means a type without variables. -/
theorem resolve_ground (hc : c.globals.Tidy) {e : TypeExpr} {t : Ty}
    (h : Gives (resolve [] e) c t c') : c' = c ∧ t.Ground := by
  obtain ⟨rfl, ht⟩ := resolve_spec hc h
  exact ⟨rfl, ht.mono fun v hv => by simp at hv⟩

/-! ### Variables -/

theorem inferVar_spec {loc : Location} {n : String} {t : Ty} (hc : c.Ready locals)
    (h : Gives (inferVar locals loc n) c t c') :
    Advances S c c' ∧ t.Over c'.unifier.Past ∧
      ∃ s, c.find? locals n = some s ∧ ∀ θ, (s.bind θ).HasType (t.bind θ) := by
  obtain ⟨s?, c₁, hs, h⟩ := gives_bind.1 h
  obtain ⟨rfl, rfl⟩ := gives_find?.1 hs
  split at h
  · next m u hs =>
    obtain ⟨rfl, rfl⟩ := gives_pure.1 h
    exact ⟨.refl hc.tidy, hc.known hs, _, hs, fun θ => rfl⟩
  · next m u d hs =>
    obtain ⟨rfl, rfl⟩ := gives_pure.1 h
    have hground : t.Ground := hc.known hs
    exact ⟨.refl hc.tidy, hground.over, _, hs, fun θ => hground.bind_eq θ⟩
  · next s hvar hfun hs =>
    split at h
    · next k hk =>
      have htidy : k.Tidy := (hc.known hs).constructor? hk
      obtain ⟨hadv, hpast, hinst⟩ := advances_instantiate hc.tidy htidy h
      refine ⟨hadv, hpast, s, hs, fun θ => ?_⟩
      have hbind := htidy.instance_bind hinst θ
      cases s with
      | type | constructor => exact ⟨k, hk, hbind⟩
      | _ => simp [Symbol.constructor?] at hk
    · exact (not_gives_fail h).elim
  · dsimp only at h
    split at h <;> obtain ⟨o, c₂, -, h⟩ := gives_bind.1 h <;> split at h <;>
      exact (not_gives_fail h).elim

/-! ### Gaps and literals -/

theorem not_gives_infer_missing {i : Nat} {expected : Option Ty} {t : Ty} :
    ¬Gives (infer locals i expected .missing) c t c' := by
  rw [infer]
  exact not_gives_fail

theorem not_gives_bindPattern_missing {i : Nat} {t : Ty} {inner : List Frame} :
    ¬Gives (bindPattern locals i t .missing) c inner c' := by
  rw [bindPattern]
  exact not_gives_fail

theorem not_gives_checkStmt_missing {i : Nat} {t : Ty} {out : List Frame × Bool} :
    ¬Gives (checkStmt t locals i .missing) c out c' := by
  rw [checkStmt]
  exact not_gives_fail

/-- The type of a literal. -/
def Expr.literalType? : Expr → Option Ty
  | .uint .. => some .u24
  | .int .. => some .i24
  | .float .. => some .f24
  | .str .. => some .string
  | .bool .. => some .bool
  | _ => none

theorem infer_literal {e : Expr} {t : Ty} (h : e.literalType? = some t) (i : Nat)
    (expected : Option Ty) : infer locals i expected e = (do
      record i t
      return t) := by
  cases e <;> simp only [Expr.literalType?, Option.some.injEq, reduceCtorEq] at h <;> rw [infer, h]

theorem literalType?_ground {e : Expr} {t : Ty} (h : e.literalType? = some t) : t.Ground := by
  cases e <;> simp only [Expr.literalType?, Option.some.injEq, reduceCtorEq] at h <;> subst h
  · exact Ty.over_word _
  · exact Ty.over_word _
  · exact Ty.over_word _
  · exact Ty.over_named.2 (by simp)
  · exact Ty.over_named.2 (by simp)

theorem literalType?_typed {e : Expr} {t : Ty} (h : e.literalType? = some t) {r : Report} {i : Nat}
    (ht : r.types i = some t) : e.Typed r locals i := by
  cases e <;> simp only [Expr.literalType?, Option.some.injEq, reduceCtorEq] at h <;> subst h
    <;> exact ht

/-! ### Operations and conditions -/

theorem not_gives_incompatible {α : Type} {loc : Location} {op : Operator} {l r : Ty} {x : α} :
    ¬Gives (incompatible loc op l r) c x c' := by
  intro h
  obtain ⟨_, _, -, h⟩ := gives_bind.1 h
  obtain ⟨_, _, -, h⟩ := gives_bind.1 h
  exact not_gives_fail h

/-- Operands that must agree are unified. What the left one is then is the result and passes the
test, or what the right one is if the left one is dynamic. -/
theorem unified_of_sameOperands {loc : Location} {op : Operator} {l r t : Ty} {test : Ty → Bool}
    (h : Gives (sameOperands loc op l r test) c t c') :
    Unified l r c c' ∧ (t.isVar || test t) = true ∧
      (t = c'.unifier.apply l ∧ t ≠ .any ∨ c'.unifier.apply l = .any ∧ t = c'.unifier.apply r) := by
  obtain ⟨c₁, hu, h⟩ := (gives_unify_bind fun _ _ _ _ => not_gives_incompatible).1 h
  obtain ⟨a, c₂, ha, h⟩ := gives_bind.1 h
  obtain ⟨rfl, rfl⟩ := gives_applied.1 ha
  have hpassed : ∀ {x : Ty} {c₃ : Checker},
    Gives (if x.isVar || test x then pure x else incompatible loc op l r) c₃ t c' →
      (t.isVar || test t) = true ∧ t = x ∧ c' = c₃ := by
    intro x c₃ h
    split at h
    · next htest =>
      obtain ⟨rfl, rfl⟩ := gives_pure.1 h
      exact ⟨htest, rfl, rfl⟩
    · exact (not_gives_incompatible h).elim
  dsimp only at h
  split at h
  · next hany =>
    obtain ⟨x, c₃, hx, h⟩ := gives_bind.1 h
    obtain ⟨rfl, rfl⟩ := gives_applied.1 hx
    obtain ⟨htest, rfl, rfl⟩ := hpassed h
    exact ⟨hu, htest, .inr ⟨hany, rfl⟩⟩
  · next hany =>
    obtain ⟨x, c₃, hx, h⟩ := gives_bind.1 h
    obtain ⟨rfl, rfl⟩ := gives_pure.1 hx
    obtain ⟨htest, rfl, rfl⟩ := hpassed h
    exact ⟨hu, htest, .inl ⟨rfl, hany⟩⟩

theorem sameOperands_spec {loc : Location} {op : Operator} {l r t : Ty} {test : Ty → Bool}
    (hc : c.unifier.Tidy) (hl : l.Over c.unifier.Past) (hr : r.Over c.unifier.Past)
    (h : Gives (sameOperands loc op l r test) c t c') :
    Advances S c c' ∧ t.Over c'.unifier.Past ∧ ∀ θ, Subst.Respects θ c'.unifier.subst →
      (t.bind θ = l.bind θ ∨ t.bind θ = r.bind θ) ∧ (l.bind θ).Agrees (r.bind θ) := by
  obtain ⟨hu, -, hresult⟩ := unified_of_sameOperands h
  obtain ⟨hadv, hagree⟩ := advances_unified (S := S) hc hl hr hu
  rcases hresult with ⟨rfl, -⟩ | ⟨-, rfl⟩
  · exact ⟨hadv, hadv.tidy.apply (hadv.reaches.over hl),
      fun θ hθ => ⟨.inl (bind_applied hadv.tidy hθ l), hagree θ hθ⟩⟩
  · exact ⟨hadv, hadv.tidy.apply (hadv.reaches.over hr),
      fun θ hθ => ⟨.inr (bind_applied hadv.tidy hθ r), hagree θ hθ⟩⟩

theorem operationType_spec {loc : Location} {op : Operator} {l r t : Ty} (hc : c.unifier.Tidy)
    (hl : l.Over c.unifier.Past) (hr : r.Over c.unifier.Past)
    (h : Gives (operationType loc op l r) c t c') :
    Advances S c c' ∧ t.Over c'.unifier.Past ∧ ∀ θ, Subst.Respects θ c'.unifier.subst →
      op.kind.HasType (l.bind θ) (r.bind θ) (t.bind θ) := by
  rw [operationType] at h
  cases hk : op.kind with
  | arithmetic | bitwise =>
    rw [hk] at h
    exact sameOperands_spec hc hl hr h
  | comparison =>
    rw [hk] at h
    obtain ⟨c₁, hu, h⟩ := (gives_unify_bind fun _ _ _ _ => not_gives_incompatible).1 h
    obtain ⟨hadv, hagree⟩ := advances_unified (S := S) hc hl hr hu
    obtain ⟨rfl, rfl⟩ := gives_pure.1 h
    exact ⟨hadv, Ty.over_word _, fun θ hθ => ⟨rfl, hagree θ hθ⟩⟩
  | shift =>
    rw [hk] at h
    obtain ⟨a, c₁, ha, h⟩ := gives_bind.1 h
    obtain ⟨rfl, rfl⟩ := gives_applied.1 ha
    obtain ⟨b, c₂, hb, h⟩ := gives_bind.1 h
    obtain ⟨rfl, rfl⟩ := gives_applied.1 hb
    split at h
    · obtain ⟨rfl, rfl⟩ := gives_pure.1 h
      exact ⟨.refl hc, hl, fun θ _ => rfl⟩
    · exact (not_gives_incompatible h).elim
  | power =>
    rw [hk] at h
    obtain ⟨c₁, hu, h⟩ := (gives_unify_bind fun _ _ _ _ => not_gives_incompatible).1 h
    obtain ⟨hadv, hagree⟩ := advances_unified (S := S) hc (Ty.over_word _) hl hu
    obtain ⟨c₂, hu₂, h⟩ := (gives_unify_bind fun _ _ _ _ => not_gives_incompatible).1 h
    obtain ⟨hadv₂, hagree₂⟩ :=
      advances_unified (S := S) hadv.tidy (Ty.over_word _) (hadv.reaches.over hr) hu₂
    obtain ⟨rfl, rfl⟩ := gives_pure.1 h
    exact ⟨hadv.trans hadv₂, Ty.over_word _, fun θ hθ =>
      ⟨rfl, (hagree θ (hadv₂.reaches.respects hadv₂.tidy hθ)).symm, (hagree₂ θ hθ).symm⟩⟩

/-- Unifying a word type with a variable that is not bound binds it. -/
theorem unify_word_var {w : Word} {v : String} {u u' : Unifier} (hv : u.apply (.var v) = .var v)
    (h : Unifying.exec (Unifying.unify (.word w) (.var v)) u = (.ok (), u')) {θ : String → Ty}
    (hθ : Subst.Respects θ u'.subst) : θ v = .word w := by
  have hword : u.apply (.word w) = .word w := rfl
  have ho := Unifying.exec_unifyWithin ((Ty.word w).size + (Ty.var v).size + u.subst.size)
    (.word w) (.var v) u
  rw [show Unifying.exec (Unifying.unifyWithin _ (.word w) (.var v)) u = (.ok (), u') from h,
    hv, hword] at ho
  generalize hr : ((Except.ok (), u') : Except TypeError Unit × Unifier) = r at ho
  cases ho with
  | limited | cyclic | clash => simp at hr
  | same _ ha => cases ha
  | bound x t hx hab =>
    rcases hab with ⟨ha, -⟩ | ⟨rfl, hb⟩
    · cases ha
    · obtain rfl := Ty.var.inj hb
      have hu' := (Prod.mk.inj hr).2
      refine hθ v (.word w) ?_
      rw [hu']
      exact Subst.lookup_cons_self _ _ _
  | dynamic hab =>
    rcases hab with ha | hb
    · cases ha
    · cases hb
  | pairs _ _ hhead => simp [Ty.sameHead] at hhead

theorem conditionType_spec {loc : Location} {t : Ty} {x : Unit} (hc : c.unifier.Tidy)
    (ht : t.Over c.unifier.Past) (h : Gives (conditionType loc t) c x c') :
    Advances S c c' ∧ ∀ θ, Subst.Respects θ c'.unifier.subst → t.bind θ = .u24 ∨ t.bind θ = .bool ∨
      t.bind θ = .any := by
  obtain ⟨a, c₁, ha, h⟩ := gives_bind.1 h
  obtain ⟨rfl, rfl⟩ := gives_applied.1 ha
  split at h
  · next hany =>
    obtain ⟨-, rfl⟩ := gives_pure.1 h
    refine ⟨.refl hc, fun θ hθ => .inr (.inr ?_)⟩
    rw [← bind_applied hc hθ t, hany]
    rfl
  · next v hv =>
    have hvar : (Ty.var v).Over c₁.unifier.Past := hv ▸ hc.apply ht
    have hfix : c₁.unifier.apply (.var v) = .var v := by
      rw [← hv]
      exact hc.coherent.triangular.apply_apply t
    have hunified := gives_unifyAt.1 h
    obtain ⟨hadv, -⟩ := advances_unified (S := S) hc (Ty.over_word _) hvar hunified
    refine ⟨hadv, fun θ hθ => .inl ?_⟩
    obtain ⟨u, hu, rfl⟩ := hunified
    rw [← bind_applied hc (hadv.reaches.respects hadv.tidy hθ) t, hv]
    exact unify_word_var hfix hu hθ
  · next a hany hvar =>
    split at h
    · next ha =>
      obtain ⟨-, rfl⟩ := gives_pure.1 h
      refine ⟨.refl hc, fun θ hθ => ?_⟩
      rw [← bind_applied hc hθ t]
      rw [Bool.or_eq_true, decide_eq_true_eq, decide_eq_true_eq] at ha
      rcases ha with ha | ha
      · exact .inl (by rw [ha]; rfl)
      · exact .inr (.inl (by rw [ha]; rfl))
    · exact (not_gives_fail h).elim

/-! ### Fields -/

theorem fieldType_spec {loc : Location} {t u : Ty} {field : String} (hc : c.Ready locals)
    (ht : t.Over c.unifier.Past) (h : Gives (fieldType loc t field) c u c') :
    c' = c ∧ u.Over c.unifier.Past ∧
      ∀ θ r, Settles θ r S c → r.Field (t.bind θ) field (u.bind θ) := by
  rw [fieldType, gives_bind] at h
  obtain ⟨a, c₁, ha, h⟩ := h
  obtain ⟨rfl, rfl⟩ := gives_applied.1 ha
  have happlied := hc.tidy.apply ht
  have hsettled : ∀ {θ r}, Settles θ r S c₁ → t.bind θ = (c₁.unifier.apply t).bind θ := fun hs =>
    (bind_applied hc.tidy hs.respects t).symm
  split at h
  · next hany =>
    obtain ⟨rfl, rfl⟩ := gives_pure.1 h
    refine ⟨rfl, Ty.over_any, fun θ r hs => ?_⟩
    rw [hsettled hs, hany]
    rfl
  · next elems htuple =>
    rw [htuple, Ty.over_tuple] at happlied
    dsimp only at h
    cases hi : Number.readInt field with
    | error e =>
      simp only [hi] at h
      exact (not_gives_fail h).elim
    | ok i =>
      simp only [hi] at h
      split at h
      · next e he =>
        obtain ⟨rfl, rfl⟩ := gives_pure.1 h
        split at he
        · cases he
        · next hneg =>
          refine ⟨rfl, happlied _ (List.mem_of_getElem? he), fun θ r hs => ?_⟩
          rw [hsettled hs, htuple]
          refine ⟨i.toNat, ?_, ?_⟩
          · rw [hi, Int.toNat_of_nonneg (by omega)]
          · rw [Ty.bindList_eq_map, List.getElem?_map, he]
            rfl
      · exact (not_gives_fail h).elim
  · next n args hnamed =>
    rw [hnamed, Ty.over_named] at happlied
    rw [gives_bind] at h
    obtain ⟨d, c₂, hd, h⟩ := h
    obtain ⟨rfl, rfl⟩ := gives_get.1 hd
    split at h
    · next s hs =>
      split at h
      · exact (not_gives_fail h).elim
      · next hcond =>
        simp only [Bool.or_eq_true, decide_eq_true_eq, not_or, not_not, Bool.not_eq_true,
          Option.isNone_eq_false_iff] at hcond
        split at h
        · next f hf =>
          obtain ⟨rfl, rfl⟩ := gives_pure.1 h
          have hover : f.Over (· ∈ s.params) := by
            have htidy : (Symbol.type s).Tidy := hc.globals _ (Frame.mem_of_find? hs)
            exact htidy.2.1 _ (Subst.mem_of_lookup hf)
          refine ⟨rfl, hover.replace hcond.2.symm happlied, fun θ r hset => ?_⟩
          rw [hsettled hset, hnamed]
          refine ⟨s, f, ?_, hcond.1, ?_, hf, ?_⟩
          · rw [hset.globals, hs]
          · rw [Ty.bindList_eq_map, List.length_map, hcond.2]
          · rw [Ty.bindList_eq_map, hover.bind_replace hcond.2.symm]
        · exact (not_gives_fail h).elim
    · exact (not_gives_fail h).elim
  · exact (not_gives_fail h).elim

/-! ### Lambdas and calls -/

theorem lambdaHint_spec {expected hint : Option Ty} (hc : c.unifier.Tidy)
    (hx : ∀ t ∈ expected, t.Over c.unifier.Past) (h : Gives (lambdaHint expected) c hint c') :
    c' = c ∧ ∀ t ∈ hint, t.Over c.unifier.Past := by
  rw [lambdaHint, gives_bind] at h
  obtain ⟨a, c₁, ha, h⟩ := h
  obtain ⟨rfl, rfl⟩ := gives_mapM_applied.1 ha
  split at h
  · next q r hqr =>
    obtain ⟨rfl, rfl⟩ := gives_pure.1 h
    obtain ⟨t, ht, happly⟩ := Option.map_eq_some_iff.1 hqr
    refine ⟨rfl, fun u hu => ?_⟩
    rw [Option.mem_def, Option.some.injEq] at hu
    rw [← hu, ← happly]
    exact hc.apply (hx t ht)
  · obtain ⟨rfl, rfl⟩ := gives_pure.1 h
    exact ⟨rfl, by simp⟩

theorem lambdaParams_spec {hint : Option Ty} {ps : List Param} {ts : List Ty} (hc : c.Ready locals)
    (hhint : ∀ t ∈ hint, t.Over c.unifier.Past) (h : Gives (lambdaParams hint ps) c ts c') :
    Advances S c c' ∧ (∀ t ∈ ts, t.Over c'.unifier.Past) ∧
      ∀ θ (r : Report), r.globals = c.globals → r.path = c.scopePath →
        r.Params ps (ts.map (Ty.bind θ)) := by
  induction ps generalizing hint c c' ts with
  | nil =>
    obtain ⟨rfl, rfl⟩ := gives_pure.1 h
    exact ⟨.refl hc.tidy, by simp, fun θ r _ _ => .nil⟩
  | cons p ps ih =>
    -- The first parameter takes its type in three ways; the others follow in the same way.
    have tail : ∀ {t : Ty} {hint' : Option Ty} {c₁ : Checker}, Advances S c c₁ →
        t.Over c₁.unifier.Past → (∀ u ∈ hint', u.Over c₁.unifier.Past) →
        (∀ θ (r : Report), r.globals = c.globals → r.path = c.scopePath →
        ∀ a ∈ p.type, r.Means a (t.bind θ)) → Gives (do
          let ts ← lambdaParams hint' ps
          return t :: ts) c₁ ts c' →
        Advances S c c' ∧ (∀ t ∈ ts, t.Over c'.unifier.Past) ∧
          ∀ θ (r : Report), r.globals = c.globals → r.path = c.scopePath →
            r.Params (p :: ps) (ts.map (Ty.bind θ)) := by
      intro t hint' c₁ hadv hpast hhint' hmeans h
      rw [gives_bind] at h
      obtain ⟨us, c₂, hus, h⟩ := h
      obtain ⟨hadv₂, hpast₂, hmeans₂⟩ := ih (hc.later hadv) hhint' hus
      obtain ⟨rfl, rfl⟩ := gives_pure.1 h
      refine ⟨hadv.trans hadv₂, ?_, fun θ r hg hpath => ?_⟩
      · exact List.forall_mem_cons.2 ⟨hadv₂.reaches.over hpast, hpast₂⟩
      · exact .cons (hmeans θ r hg hpath) (hmeans₂ θ r (hg.trans hadv.globals_eq.symm)
          (hpath.trans hadv.scopePath_eq.symm))
    rw [lambdaParams] at h
    cases hp : p.type with
    | some e =>
      rw [hp] at h
      simp only [pure_bind] at h
      rw [gives_bind] at h
      obtain ⟨t, c₁, ht, h⟩ := h
      obtain ⟨hc₁, hground⟩ := resolve_ground hc.globals ht
      subst hc₁
      refine tail (.refl hc.tidy) hground.over hhint (fun θ r hg hpath a ha => ?_) h
      obtain rfl : e = a := by simpa [hp] using ha
      rw [hground.bind_eq]
      exact ⟨_, _, hg.symm, hpath.symm, ht⟩
    | none =>
      rw [hp] at h
      dsimp only at h
      rw [gives_bind] at h
      obtain ⟨a, c₁, ha, h⟩ := h
      obtain ⟨rfl, rfl⟩ := gives_mapM_applied.1 ha
      split at h
      · next q r hqr =>
        simp only [pure_bind] at h
        obtain ⟨t, ht, happly⟩ := Option.map_eq_some_iff.1 hqr
        have hfunc : (Ty.func q r).Over c₁.unifier.Past := happly ▸ hc.tidy.apply (hhint t ht)
        rw [Ty.over_func] at hfunc
        exact tail (.refl hc.tidy) hfunc.1 (by simpa using hfunc.2) (by simp [hp]) h
      · simp only [pure_bind] at h
        rw [gives_bind] at h
        obtain ⟨t, c₂, ht, h⟩ := h
        obtain ⟨hadv, hpast⟩ := advances_fresh (S := S) hc.tidy ht
        exact tail hadv hpast (by simp) (by simp [hp]) h

theorem calledFields_spec {f : Expr} {fields : List String} (hc : c.Ready locals)
    (h : Gives (calledFields locals f) c fields c') :
    c' = c ∧ ∀ θ r, Settles θ r S c → fields = r.fieldsOf (locals.map (Frame.bind θ)) f := by
  unfold calledFields at h
  split at h
  · next loc n =>
    rw [gives_bind] at h
    obtain ⟨s?, c₁, hs, h⟩ := h
    obtain ⟨rfl, rfl⟩ := gives_find?.1 hs
    split at h
    · next s hs =>
      obtain ⟨rfl, rfl⟩ := gives_pure.1 h
      refine ⟨rfl, fun θ r hset => ?_⟩
      rw [Report.fieldsOf, hset.symbol? hc, hs]
      simp [Symbol.constructor?_bind]
    · next hs =>
      obtain ⟨rfl, rfl⟩ := gives_pure.1 h
      refine ⟨rfl, fun θ r hset => ?_⟩
      rw [Report.fieldsOf, hset.symbol? hc, hs]
      rfl
  · next hvar =>
    obtain ⟨rfl, rfl⟩ := gives_pure.1 h
    refine ⟨rfl, fun θ r _ => ?_⟩
    unfold Report.fieldsOf
    split
    · next loc n => exact (hvar loc n rfl).elim
    · rfl

/-- Unifying a type with a variable that is not bound makes them equal, unless the
type is dynamic. -/
theorem unifyWithin_unbound {fuel : Nat} {s : Ty} {w : String} {u u' : Unifier} (hu : u.Coherent)
    (hw : u.subst.lookup w = none)
    (h : Unifying.exec (Unifying.unifyWithin fuel s (.var w)) u = (.ok (), u')) {θ : String → Ty}
    (hθ : Subst.Respects θ u'.subst) : s.bind θ = θ w ∨ s.bind θ = .any := by
  cases fuel with
  | zero =>
    rw [Unifying.unifyWithin, Unifying.exec_fail] at h
    simp at h
  | succ fuel =>
    have hgrows := Unifying.grows_unifyWithin (fuel + 1) s (.var w) u hu
    rw [h] at hgrows
    have hfix : u.apply (.var w) = .var w := Subst.apply_of_unbound fun x hx => by
      obtain rfl : w = x := by simpa [Ty.occurs] using hx
      exact hw
    rw [← (hgrows.coherent.triangular.respects_of_suffix hgrows.suffix hθ).bind_apply
      hu.triangular s]
    show (u.apply s).bind θ = θ w ∨ (u.apply s).bind θ = .any
    have ho := Unifying.exec_unifyWithin fuel s (.var w) u
    rw [h, hfix] at ho
    generalize u.apply s = s' at ho
    generalize hr : ((Except.ok (), u') : Except TypeError Unit × Unifier) = r at ho
    cases ho with
    | limited | cyclic | clash => simp at hr
    | same v ha hb =>
      obtain rfl := Ty.var.inj hb
      rw [ha]
      exact .inl rfl
    | bound v t hv hab =>
      have hu' := (Prod.mk.inj hr).2
      have hbound : θ v = t.bind θ := by
        refine hθ v t ?_
        rw [hu']
        exact Subst.lookup_cons_self _ _ _
      rcases hab with ⟨rfl, rfl⟩ | ⟨rfl, hb⟩
      · exact .inl hbound
      · obtain rfl := Ty.var.inj hb
        exact .inl hbound.symm
    | dynamic hab =>
      rcases hab with rfl | hb
      · exact .inr rfl
      · cases hb
    | pairs _ _ hhead =>
      cases s' with
      | var v =>
        obtain rfl : v = w := by simpa [Ty.sameHead] using hhead
        exact .inl rfl
      | word | any | none | named | func | tuple => simp [Ty.sameHead] at hhead

/-- Calling what has an unknown type with an argument makes it a function type from the
argument's type to a new result, or a function type whose result is dynamic; unless it became
dynamic meanwhile. -/
theorem unify_callee {v w : String} {found : Ty} {u u' : Unifier} (hu : u.Coherent)
    (hsubst : u.subst.Over (· ≠ w)) (hv : v ≠ w) (hfound : found.Over (· ≠ w))
    (h : Unifying.exec (Unifying.unify (.var v) (.func found (.var w))) u = (.ok (), u'))
    {θ : String → Ty} (hθ : Subst.Respects θ u'.subst) :
    θ v = .any ∨ ∃ q s, θ v = .func q s ∧ (found.bind θ).Agrees q ∧ (s = θ w ∨ s = .any) := by
  have unbound : ∀ {x : Unifier}, x.subst.Over (· ≠ w) → x.subst.lookup w = none := by
    intro x hx
    cases hl : x.subst.lookup w with
    | none => rfl
    | some t => exact ((hx _ (Subst.mem_of_lookup hl)).1 rfl).elim
  generalize hfuel : (Ty.var v).size + (Ty.func found (.var w)).size + u.subst.size = fuel
  have hrun : Unifying.exec (Unifying.unifyWithin (fuel + 1) (.var v) (.func found (.var w)))
    u = (.ok (), u') := by
    rw [← hfuel]
    exact h
  have hgrows := Unifying.grows_unifyWithin (fuel + 1) (.var v) (.func found (.var w)) u hu
  rw [hrun] at hgrows
  have hθu := hgrows.coherent.triangular.respects_of_suffix hgrows.suffix hθ
  have hcallee : (u.apply (.func found (.var w))) = .func (u.apply found) (.var w) := by
    show Ty.func (u.apply found) (u.apply (.var w)) = _
    rw [show u.apply (.var w) = .var w from Subst.apply_of_unbound fun x hx => by
      obtain rfl : w = x := by simpa [Ty.occurs] using hx
      exact unbound hsubst]
  have happlied : ∀ t, (u.apply t).bind θ = t.bind θ := hθu.bind_apply hu.triangular
  have hv' : (u.apply (.var v)).Over (· ≠ w) := hsubst.apply (Ty.over_var.2 hv)
  have hfound' : (u.apply found).Over (· ≠ w) := hsubst.apply hfound
  have ho := Unifying.exec_unifyWithin fuel (.var v) (.func found (.var w)) u
  rw [hrun, hcallee] at ho
  show (Ty.var v).bind θ = .any ∨ ∃ q s, (Ty.var v).bind θ = .func q s ∧ (found.bind θ).Agrees q ∧
    (s = θ w ∨ s = .any)
  rw [← happlied (.var v), ← happlied found]
  generalize u.apply (.var v) = a at ho hv'
  generalize u.apply found = b at ho hfound'
  generalize hr : ((Except.ok (), u') : Except TypeError Unit × Unifier) = r at ho
  cases ho with
  | limited | cyclic | clash => simp at hr
  | same _ _ hb => cases hb
  | bound x t hx hab =>
    rcases hab with ⟨rfl, rfl⟩ | ⟨-, hb⟩
    · have hu' := (Prod.mk.inj hr).2
      have hbound : θ x = (Ty.func b (.var w)).bind θ := by
        refine hθ x _ ?_
        rw [hu']
        exact Subst.lookup_cons_self _ _ _
      exact .inr ⟨b.bind θ, θ w, hbound, .refl _, .inl rfl⟩
    · cases hb
  | dynamic hab =>
    rcases hab with rfl | hb
    · exact .inl rfl
    · cases hb
  | pairs _ _ hhead =>
    cases a with
    | func q s =>
      rw [Ty.over_func] at hv'
      -- The parameters are unified first; that leaves the new variable alone.
      simp only [Ty.children, Unifying.forPairs, Unifying.exec_bind] at hr
      have hwithin := Unifying.within_unifyWithin fuel q b u.tick hsubst hv'.1 hfound'
      have hgrows₁ := Unifying.grows_unifyWithin fuel q b u.tick hu.grows_tick.coherent
      rcases hq : Unifying.exec (Unifying.unifyWithin fuel q b) u.tick with ⟨_ | _, u₁⟩
      · simp [hq] at hr
      · rw [hq] at hr hwithin hgrows₁
        dsimp only at hr hwithin hgrows₁
        have hgrows₂ := Unifying.grows_unifyWithin fuel s (.var w) u₁ hgrows₁.coherent
        rcases hs : Unifying.exec (Unifying.unifyWithin fuel s (.var w)) u₁ with ⟨_ | _, u₂⟩
        · simp [hs] at hr
        · rw [hs] at hr hgrows₂
          obtain rfl : u' = u₂ := (Prod.mk.inj hr).2
          have hagree :=
            Unifying.agrees_of_unifyWithin fuel q b u.tick u₁ hu.grows_tick.coherent hq θ
              (hgrows₂.coherent.triangular.respects_of_suffix hgrows₂.suffix hθ)
          exact .inr ⟨q.bind θ, s.bind θ, rfl, hagree.symm,
            unifyWithin_unbound hgrows₁.coherent (unbound hwithin.bindings) hs hθ⟩
    | word | any | none | var | named | tuple => simp [Ty.sameHead] at hhead

end FunRiscv
