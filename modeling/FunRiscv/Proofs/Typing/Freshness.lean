import Mathlib
import FunRiscv.Proofs.Typing.Clean
import FunRiscv.Proofs.Typing.Mirrors

/-!
# Expressions without type parameters

Inferring an expression or binding a pattern in a clean state gives types whose
variables were made before.

* `Checker.Clean.symbol`: what a name stands for.  `safe_resolve`: written types.
* `safe_inferVar`, `safe_fieldType`, `safe_operationType` and others: the parts of an inference.
* `safe_infer`, `safe_bindPattern`: all expressions and patterns.
-/

namespace FunRiscv

open Checking

variable {c : Checker} {locals : List Frame} {i : Nat} {t : Ty}

/-! ### Frames and symbols -/

theorem AreLocal.later {c c' : Checker} (h : AreLocal (·.Over c.unifier.Made) locals)
    (hmoves : c.unifier.Moves c'.unifier) : AreLocal (·.Over c'.unifier.Made) locals :=
  h.mono fun _ => hmoves.over_made

/-- A symbol whose variables, but for its own parameters, were made. -/
def Symbol.Fresh (u : Unifier) : Symbol → Prop
  | .variable _ t => t.Over u.Made
  | s => s.Tidy

theorem Symbol.Fresh.constructor? {u : Unifier} :
    ∀ {s : Symbol} {k : Constructor}, s.Fresh u → s.constructor? = some k → k.Tidy
  | .type _, _, h, hk => Symbol.Tidy.constructor? (s := .type _) h hk
  | .constructor _, _, h, hk => Symbol.Tidy.constructor? (s := .constructor _) h hk
  | .variable .., _, _, hk | .function .., _, _, hk
  | .module .., _, _, hk => by simp [Symbol.constructor?] at hk

theorem Symbol.Tidy.fresh {u : Unifier} : ∀ {s : Symbol}, s.Tidy → s.Fresh u
  | .variable _ _, h => Ty.Ground.over h
  | .function .., h | .type _, h | .constructor _, h | .module .., h => h

theorem Checker.Clean.symbol (hc : c.Clean) (hlocals : AreLocal (·.Over c.unifier.Made) locals)
    {n : String} {s : Symbol} (hs : c.find? locals n = some s) : s.Fresh c.unifier := by
  obtain ⟨f, hf, m, hm⟩ := mem_of_symbolIn? hs
  rcases List.mem_append.1 hf with hf | hf
  · obtain ⟨t, ht, hover⟩ := hlocals f hf _ hm
    dsimp only at ht
    exact ht ▸ hover
  · rw [List.mem_singleton] at hf
    exact (hc.globals _ (hf ▸ hm)).fresh

/-! ### Written types -/

theorem safe_resolveName {loc : Location} {n : String} {args : List Ty} {K : String → Prop}
    (hc : c.Clean) (hargs : ∀ a ∈ args, a.Over K) :
    Safe (Checking.resolveName loc n args) c [] fun _ t => t.Over K := by
  rw [Checking.resolveName]
  refine Safe.find? ?_ fun s s' hs hrel => ?_
  · split
    · next s hs =>
      have htidy : (Symbol.type s).Tidy := hc.symbol areLocal_nil hs
      split
      · exact safe_fail hc _ _
      · next hlen =>
        have hlen' : args.length = s.params.length := by simpa using hlen
        split
        · exact safe_pure hc (Ty.over_named.2 hargs)
        · next target htarget => exact safe_pure hc ((htidy.1 target htarget).replace hlen' hargs)
    · exact safe_fail hc _ _
  · obtain ⟨ρ, hρ, rfl⟩ := hrel
    cases s with
    | type s =>
      have htidy : (Symbol.type s).Tidy := hc.symbol areLocal_nil hs
      simp only [Symbol.respell, TypeSymbol.respell, List.length_map]
      split
      · rfl
      · next hlen =>
        have hlen' : args.length = s.params.length := by simpa using hlen
        cases htarget : s.target? with
        | none => rfl
        | some target =>
          show (pure _ : Checking Ty) = pure _
          rw [(htidy.1 target htarget).replace_respell hlen' hρ]
    | «variable» | function | constructor | module => rfl

mutual

theorem safe_resolve (ps : List String) :
    ∀ (e : TypeExpr) {c : Checker}, c.Clean → Safe (resolve ps e) c [] fun _ t => t.Over (· ∈ ps)
  | .name loc n args, c, hc => by
    rw [resolve]
    split
    · next h =>
      rw [Bool.and_eq_true] at h
      exact safe_pure hc (Ty.over_var.2 (by simpa using h.2))
    · exact (safe_resolveList ps args hc).before fun ts c' hc' _ hts => safe_resolveName hc' hts
  | .func _ p r, c, hc => by
    rw [resolve]
    refine (safe_resolve ps p hc).before fun p' c₁ hc₁ _ hp =>
      (safe_resolve ps r hc₁).before fun r' c₂ hc₂ _ hr => ?_
    exact safe_pure hc₂ (Ty.over_func.2 ⟨hp, hr⟩)
  | .tuple _ es, c, hc => by
    rw [resolve]
    exact (safe_resolveList ps es hc).before fun ts c' hc' _ hts =>
      safe_pure hc' (Ty.over_tuple.2 hts)
  | .missing, c, hc => by
    rw [resolve]
    exact safe_fail hc _ _

theorem safe_resolveList (ps : List String) : ∀ (es : List TypeExpr) {c : Checker}, c.Clean →
    Safe (resolveList ps es) c [] fun _ ts => ∀ t ∈ ts, t.Over (· ∈ ps)
  | [], c, hc => by
    rw [resolveList]
    exact safe_pure hc (by simp)
  | e :: es, c, hc => by
    rw [resolveList]
    refine (safe_resolve ps e hc).before fun t c₁ hc₁ _ ht =>
      (safe_resolveList ps es hc₁).before fun ts c₂ hc₂ _ hts => ?_
    exact safe_pure hc₂ (List.forall_mem_cons.2 ⟨ht, hts⟩)

end

/-- An annotation has no variables. -/
theorem safe_written (e : TypeExpr) (hc : c.Clean) : Safe (resolve [] e) c [] fun _ t => t.Ground :=
  (safe_resolve [] e hc).imp fun _ h => h.mono fun _ hv => by simp at hv

/-! ### Steps that need no nesting -/

/-- Types found by one search each. -/
theorem safe_mapM {α β : Type} {act : α → Checking β} {P : β → Prop} {xs : List α}
    (h : ∀ x ∈ xs, ∀ c : Checker, c.Clean → Safe (act x) c [] fun _ b => P b) (hc : c.Clean) :
    Safe (xs.mapM act) c [] fun _ bs => ∀ b ∈ bs, P b := by
  induction xs generalizing c with
  | nil => exact safe_pure hc (by simp)
  | cons x xs ih =>
    rw [List.forall_mem_cons] at h
    rw [List.mapM_cons]
    refine (h.1 c hc).before fun b c₁ hc₁ _ hb => (ih h.2 hc₁).before fun bs c₂ hc₂ _ hbs => ?_
    exact safe_pure hc₂ (List.forall_mem_cons.2 ⟨hb, hbs⟩)

theorem safe_unifyAt {a b : Ty} {loc : Location} (hc : c.Clean) (ha : a.Over c.unifier.Made)
    (hb : b.Over c.unifier.Made) : Safe (unifyAt a b loc) c [(.unify a b, c)] fun _ _ => True := by
  rw [unifyAt]
  refine Safe.last (.unify a b) (safe_unify hc ha hb) hc (.of_pair rfl rfl ha hb trivial)
    fun r c' hc' _ _ => ?_
  split
  · exact safe_pure hc' trivial
  · exact safe_failWith hc' _

/-- A type is recorded last. -/
theorem safe_recorded (hc : c.Clean) (ht : t.Over c.unifier.Made) : Safe (do
    record i t
    return t) c [(.record i t, c)] fun u t => t.Over u.Made :=
  Safe.last (.record i t) (safe_record hc ht) hc (.of_type areLocal_nil rfl ht trivial)
    fun _ _ hc' hmoves _ =>
    safe_pure hc' (hmoves.over_made ht)

theorem Constructor.Tidy.instantiate_respelled {k : Constructor} (hk : k.Tidy) {ρ : String → String}
    (hρ : Function.Injective ρ) : Checking.instantiate (k.respell ρ) = Checking.instantiate k := by
  unfold Checking.instantiate
  rw [hk.instantiate_respell hρ]

theorem safe_inferVar {loc : Location} {n : String} (hc : c.Clean)
    (hlocals : AreLocal (·.Over c.unifier.Made) locals) :
    Safe (inferVar locals loc n) c ((Call.inferVar locals loc n).calls c) fun u t =>
      t.Over u.Made := by
  rw [inferVar, Call.calls]
  refine Safe.find? ?_ fun s s' hs hrel => ?_
  · cases hs : c.find? locals n with
    | none =>
      dsimp only
      split
      · refine Safe.find? ?_ fun s s' _ hrel => ?_
        · split <;> exact safe_fail hc _ _
        · obtain ⟨ρ, -, rfl⟩ := hrel
          cases s <;> rfl
      · exact safe_fail hc _ _
    | some s =>
      have hfresh := hc.symbol hlocals hs
      cases s with
      | «variable» m t => exact safe_pure hc hfresh
      | function m t d => exact safe_pure hc (Ty.Ground.over hfresh)
      | module m members => exact safe_fail hc _ _
      | constructor k =>
        exact (safe_instantiate hc hfresh).call (x := .instantiate k) hc (.of_nil rfl rfl hfresh)
      | type s =>
        simp only [Option.bind_some, Symbol.constructor?]
        cases hk : s.constructor? with
        | none => exact safe_fail hc _ _
        | some k =>
          have htidy : k.Tidy := hfresh.constructor? hk
          exact (safe_instantiate hc htidy).call (x := .instantiate k) hc (.of_nil rfl rfl htidy)
  · have hfresh := hc.symbol hlocals hs
    obtain ⟨ρ, hρ, rfl⟩ := hrel
    cases s with
    | «variable» | function | module => rfl
    | constructor k => exact Constructor.Tidy.instantiate_respelled hfresh hρ
    | type s =>
      cases hk : s.constructor? with
      | none => simp [Symbol.respell, TypeSymbol.respell, Symbol.constructor?, hk]
      | some k =>
        have htidy : k.Tidy := hfresh.constructor? hk
        simp [Symbol.respell, TypeSymbol.respell, Symbol.constructor?, hk,
          htidy.instantiate_respelled hρ]

theorem safe_incompatible {α : Type} {Q : Unifier → α → Prop} {loc : Location} {op : Operator}
    {l r : Ty} (hc : c.Clean) : Safe (incompatible loc op l r : Checking α) c [] Q :=
  Safe.applied (Safe.applied (safe_fail hc _ _))

theorem safe_sameOperands {loc : Location} {op : Operator} {l r : Ty} {test : Ty → Bool}
    (hc : c.Clean) (hl : l.Over c.unifier.Made) (hr : r.Over c.unifier.Made) :
    Safe (sameOperands loc op l r test) c [(.unify l r, c)] fun u t => t.Over u.Made := by
  rw [sameOperands]
  refine Safe.last (.unify l r) (safe_unify hc hl hr) hc (.of_pair rfl rfl hl hr trivial)
    fun result c' hc' hmoves _ => ?_
  have htested : ∀ t : Ty, t.Over c'.unifier.Made →
      Safe (if t.isVar || test t then pure t else incompatible loc op l r : Checking Ty) c' []
        fun u t => t.Over u.Made := by
    intro t ht
    split
    · exact safe_pure hc' ht
    · exact safe_incompatible hc'
  split
  · exact safe_incompatible hc'
  · refine Safe.applied ?_
    dsimp only
    split
    · exact Safe.applied (htested _ (hc'.bindings.apply (hmoves.over_made hr)))
    · exact htested _ (hc'.bindings.apply (hmoves.over_made hl))

theorem safe_operationType {loc : Location} {op : Operator} {l r : Ty} (hc : c.Clean)
    (hl : l.Over c.unifier.Made) (hr : r.Over c.unifier.Made) :
    Safe (operationType loc op l r) c ((Call.operationType loc op l r).calls c) fun u t =>
      t.Over u.Made := by
  rw [operationType, Call.calls]
  cases op.kind with
  | arithmetic => exact safe_sameOperands hc hl hr
  | bitwise => exact safe_sameOperands hc hl hr
  | comparison =>
    refine Safe.last (.unify l r) (safe_unify hc hl hr) hc (.of_pair rfl rfl hl hr trivial)
      fun result c' hc' hmoves _ => ?_
    split
    · exact safe_incompatible hc'
    · exact safe_pure hc' (Ty.over_word _)
  | shift =>
    refine Safe.applied (Safe.applied ?_)
    split
    · exact safe_pure hc hl
    · exact safe_incompatible hc
  | power =>
    refine Safe.next (.unify .f24 l) (safe_unify hc (Ty.over_word _) hl) hc
      (.of_pair rfl rfl (Ty.over_word _) hl trivial) fun result c₁ hc₁ hmoves₁ _ => ?_
    split
    · exact safe_incompatible hc₁
    · have hr₁ := hmoves₁.over_made hr
      refine Safe.last (.unify .f24 r) (safe_unify hc₁ (Ty.over_word _) hr₁) hc₁
        (.of_pair rfl rfl (Ty.over_word _) hr₁ trivial) fun result c₂ hc₂ hmoves₂ _ => ?_
      split
      · exact safe_incompatible hc₂
      · exact safe_pure hc₂ (Ty.over_word _)

theorem safe_conditionType {loc : Location} (hc : c.Clean) (ht : t.Over c.unifier.Made) :
    Safe (conditionType loc t) c ((Call.conditionType loc t).calls c) fun _ _ => True := by
  rw [conditionType, Call.calls]
  refine Safe.applied ?_
  have happlied : (c.unifier.apply t).Over c.unifier.Made := hc.bindings.apply ht
  generalize c.unifier.apply t = u at happlied
  cases u with
  | any => exact safe_pure hc trivial
  | var v =>
    exact Safe.call (x := .unifyAt .u24 (.var v) loc) (safe_unifyAt hc (Ty.over_word .u24) happlied)
      hc (.of_pair rfl rfl (Ty.over_word _) happlied trivial)
  | word | none | named | func | tuple =>
    dsimp only
    split
    · exact safe_pure hc trivial
    · exact safe_fail hc _ _

theorem safe_namedField {loc : Location} {field n : String} {args : List Ty} (hc : c.Clean)
    (hargs : ∀ a ∈ args, a.Over c.unifier.Made) :
    Safe (do namedField loc field n args ((← get).globals.find? n)) c [] fun u t =>
      t.Over u.Made := by
  have htidy : ∀ {s : TypeSymbol}, c.globals.find? n = some (.type s) → (Symbol.type s).Tidy :=
    fun h =>
    hc.globals _ (Frame.mem_of_find? h)
  refine Safe.global (n := n) (f := namedField loc field n args) ?_ fun s s' hs hrel => ?_
  · unfold namedField
    split
    · next s hs =>
      split
      · exact safe_fail hc _ _
      · next hguard =>
        have hlen : args.length = s.params.length := by
          by_contra hne
          exact hguard (by simp [Ne.symm hne])
        split
        · next f hf =>
          obtain ⟨l₁, l₂, hfields, -⟩ := List.lookup_eq_some_iff.1 hf
          have hover := (htidy hs).2.1 (field, f) (by simp [hfields])
          exact safe_pure hc (hover.replace hlen hargs)
        · exact safe_fail hc _ _
    · exact safe_fail hc _ _
  · obtain ⟨ρ, hρ, rfl⟩ := hrel
    cases s with
    | «variable» | function | constructor | module => rfl
    | type s =>
      have hfields : (s.respell ρ).fields.lookup field = (s.fields.lookup field).map
        (Ty.respell ρ) := lookup_map_snd _ _ _
      have hconstructor : (s.respell ρ).constructor?.isNone = s.constructor?.isNone :=
        Option.isNone_map
      have hparams : (s.respell ρ).params.length = s.params.length := List.length_map _
      show namedField loc field n args (some (.type (s.respell ρ))) = _
      simp only [namedField, hfields, hconstructor, hparams]
      split
      · rfl
      · next hguard =>
        have hlen : args.length = s.params.length := by
          by_contra hne
          exact hguard (by simp [Ne.symm hne])
        cases hf : s.fields.lookup field with
        | none => rfl
        | some f =>
          obtain ⟨l₁, l₂, heq, -⟩ := List.lookup_eq_some_iff.1 hf
          have hover := (htidy hs).2.1 (field, f) (by simp [heq])
          show (pure _ : Checking Ty) = pure _
          rw [show (s.respell ρ).params = s.params.map ρ from rfl, hover.replace_respell hlen hρ]

theorem safe_fieldType {loc : Location} {field : String} (hc : c.Clean)
    (ht : t.Over c.unifier.Made) : Safe (fieldType loc t field) c [] fun u t => t.Over u.Made := by
  rw [fieldType]
  refine Safe.applied ?_
  have happlied : (c.unifier.apply t).Over c.unifier.Made := hc.bindings.apply ht
  generalize c.unifier.apply t = u at happlied
  cases u with
  | any => exact safe_pure hc Ty.over_any
  | tuple elems =>
    dsimp only
    split
    · next e he =>
      have hmem : e ∈ elems := by
        split at he
        · split at he
          · cases he
          · exact List.mem_of_getElem? he
        · cases he
      exact safe_pure hc (Ty.over_tuple.1 happlied e hmem)
    · exact safe_fail hc _ _
  | named n args => exact safe_namedField hc (Ty.over_named.1 happlied)
  | word | none | var | func => exact safe_fail hc _ _

theorem safe_calledFields {f : Expr} (hc : c.Clean) :
    Safe (calledFields locals f) c [] fun _ _ => True := by
  rw [calledFields.eq_def]
  split
  · refine Safe.find? ?_ fun s s' hs hrel => ?_
    · split <;> exact safe_pure hc trivial
    · obtain ⟨ρ, -, rfl⟩ := hrel
      dsimp only
      rw [Symbol.constructor?_respell, Option.map_map]
      rfl
  · exact safe_pure hc trivial

theorem safe_lambdaHint {expected : Option Ty} (hc : c.Clean)
    (hexpected : ∀ t ∈ expected, t.Over c.unifier.Made) :
    Safe (lambdaHint expected) c [] fun u hint => ∀ t ∈ hint, t.Over u.Made := by
  rw [lambdaHint]
  refine Safe.mapM_applied ?_
  split
  · next q r h =>
    obtain ⟨t, ht, happly⟩ := Option.map_eq_some_iff.1 h
    have happlied : (c.unifier.apply t).Over c.unifier.Made := hc.bindings.apply (hexpected t ht)
    exact safe_pure hc (Ty.over_all_some (happly ▸ happlied))
  · exact safe_pure hc Ty.over_all_none

theorem safe_lambdaParams {hint : Option Ty} {ps : List Param} (hc : c.Clean)
    (hhint : ∀ t ∈ hint, t.Over c.unifier.Made) :
    Safe (lambdaParams hint ps) c (paramCalls hint c ps) fun u ts => ∀ t ∈ ts, t.Over u.Made := by
  induction ps generalizing hint c with
  | nil => exact safe_pure hc (by simp)
  | cons p ps ih =>
    -- The type of the first parameter is followed by those of the others.
    have hrest : ∀ {t : Ty} {hint : Option Ty} {c : Checker}, c.Clean → t.Over c.unifier.Made →
        (∀ t ∈ hint, t.Over c.unifier.Made) → Safe (do
          let ts ← lambdaParams hint ps
          return t :: ts) c [(.lambdaParams hint ps, c)] fun u ts => ∀ t ∈ ts, t.Over u.Made := by
      intro t hint c hc ht hhint
      refine Safe.last (.lambdaParams hint ps) (ih hc hhint) hc
        (.of_type? areLocal_nil rfl hhint trivial) fun ts c' hc' hmoves hts => ?_
      exact safe_pure hc' (List.forall_mem_cons.2 ⟨hmoves.over_made ht, hts⟩)
    rw [lambdaParams, paramCalls]
    cases hp : p.type with
    | some a =>
      simp only [pure_bind]
      refine (safe_written a hc).andThen fun t c' hc' hmoves ht => ?_
      exact hrest hc' (Ty.Ground.over ht) fun u hu => hmoves.over_made (hhint u hu)
    | none =>
      refine Safe.mapM_applied ?_
      cases hm : hint.map c.unifier.apply with
      | none =>
        simp only [pure_bind]
        exact Safe.next .fresh (safe_fresh hc) hc (.of_nil rfl rfl trivial)
          fun t c' hc' hmoves ht => hrest hc' ht Ty.over_all_none
      | some u =>
        obtain ⟨t, ht, rfl⟩ := Option.map_eq_some_iff.1 hm
        have happlied : (c.unifier.apply t).Over c.unifier.Made := hc.bindings.apply (hhint t ht)
        generalize c.unifier.apply t = u at happlied
        cases u with
        | func q r =>
          rw [Ty.over_func] at happlied
          simp only [pure_bind]
          exact hrest hc happlied.1 (Ty.over_all_some happlied.2)
        | word | any | none | var | named | tuple =>
          simp only [pure_bind]
          exact Safe.next .fresh (safe_fresh hc) hc (.of_nil rfl rfl trivial)
            fun t c' hc' hmoves ht => hrest hc' ht Ty.over_all_none

theorem safe_assignLocal {n : String} {loc : Location} (hc : c.Clean)
    (hlocals : AreLocal (·.Over c.unifier.Made) locals) (ht : t.Over c.unifier.Made) :
    Safe (assignLocal locals n t loc) c ((Call.assignLocal locals n t loc).calls c) fun u inner =>
      AreLocal (·.Over u.Made) inner := by
  rw [assignLocal, Call.calls]
  cases hs : findIn? locals n with
  | none => exact safe_pure hc (hlocals.bindLocal ht)
  | some s =>
    cases s with
    | «variable» m old =>
      obtain ⟨f, hf, hm⟩ := mem_of_findIn? hs
      obtain ⟨u, hu, hover⟩ := hlocals f hf _ hm
      obtain ⟨rfl, rfl⟩ := Symbol.variable.inj hu
      refine Safe.last (.unifyAt old t loc) (safe_unifyAt hc hover ht) hc
        (.of_pair rfl rfl hover ht trivial) fun _ c' hc' hmoves _ => ?_
      exact safe_pure hc' (hlocals.later hmoves)
    | function | type | constructor | module => exact safe_pure hc (hlocals.bindLocal ht)

/-! ### Expressions -/

/-- Inferring an expression is safe, and so is its type. -/
def Expr.Safe (e : Expr) : Prop :=
  ∀ ⦃c : Checker⦄ ⦃locals : List Frame⦄ ⦃i : Nat⦄ ⦃expected : Option Ty⦄, c.Clean →
    AreLocal (·.Over c.unifier.Made) locals → (∀ t ∈ expected, t.Over c.unifier.Made) →
    FunRiscv.Safe (infer locals i expected e) c (e.calls locals i expected c) fun u t =>
      t.Over u.Made

/-- Binding a pattern is safe, and so are the frames after it. -/
def Pattern.Safe (p : Pattern) : Prop :=
  ∀ ⦃c : Checker⦄ ⦃locals : List Frame⦄ ⦃i : Nat⦄ ⦃t : Ty⦄, c.Clean →
    AreLocal (·.Over c.unifier.Made) locals → t.Over c.unifier.Made →
    FunRiscv.Safe (bindPattern locals i t p) c (p.calls locals i t c) fun u inner =>
      AreLocal (·.Over u.Made) inner

/-- Inferring an expression, and what follows. -/
theorem Expr.Safe.next {e : Expr} (he : e.Safe) (hc : c.Clean)
    (hlocals : AreLocal (·.Over c.unifier.Made) locals) {expected : Option Ty}
    (hexpected : ∀ t ∈ expected, t.Over c.unifier.Made) {β : Type} {f : Ty → Checking β}
    {k : Ty → Checker → List (Call × Checker)} {R : Unifier → β → Prop}
    (hf : ∀ t c', c'.Clean → c.unifier.Moves c'.unifier → t.Over c'.unifier.Made →
      FunRiscv.Safe (f t) c' (k t c') R) :
    FunRiscv.Safe (infer locals i expected e >>= f) c ((Call.infer locals i expected e).next c k)
      R :=
  FunRiscv.Safe.next (.infer locals i expected e) (he hc hlocals hexpected) hc
    (.of_type? hlocals rfl hexpected trivial) hf

/-- Unifying two types, and what follows. -/
theorem safe_unifyAt_next {a b : Ty} {loc : Location} (hc : c.Clean) (ha : a.Over c.unifier.Made)
    (hb : b.Over c.unifier.Made) {β : Type} {f : Unit → Checking β}
    {k : Unit → Checker → List (Call × Checker)} {R : Unifier → β → Prop}
    (hf : ∀ x c', c'.Clean → c.unifier.Moves c'.unifier → Safe (f x) c' (k x c') R) :
    Safe (unifyAt a b loc >>= f) c ((Call.unifyAt a b loc).next c k) R :=
  Safe.next (.unifyAt a b loc) (safe_unifyAt hc ha hb) hc (.of_pair rfl rfl ha hb trivial)
    fun x c' hc' hmoves _ => hf x c' hc' hmoves

theorem safe_inferList {es : List Expr} (hes : ∀ e ∈ es, e.Safe) (hc : c.Clean)
    (hlocals : AreLocal (·.Over c.unifier.Made) locals) :
    Safe (inferList locals i es) c ((Call.inferList locals i es).calls c) fun u ts =>
      ∀ t ∈ ts, t.Over u.Made := by
  induction es generalizing c i with
  | nil =>
    rw [inferList, Call.calls]
    exact safe_pure hc (by simp)
  | cons e es ih =>
    rw [List.forall_mem_cons] at hes
    rw [inferList, Call.calls]
    refine hes.1.next hc hlocals Ty.over_all_none fun t c₁ hc₁ hmoves₁ ht => ?_
    have hlocals₁ := hlocals.later hmoves₁
    refine Safe.last (.inferList locals (i + e.nodeCount) es) (ih hes.2 hc₁ hlocals₁) hc₁
      (.of_locals hlocals₁ rfl trivial) fun ts c₂ hc₂ hmoves₂ hts => ?_
    exact safe_pure hc₂ (List.forall_mem_cons.2 ⟨hmoves₂.over_made ht, hts⟩)

theorem safe_expectAll {es : List Expr} (hes : ∀ e ∈ es, e.Safe) (hc : c.Clean)
    (hlocals : AreLocal (·.Over c.unifier.Made) locals) (ht : t.Over c.unifier.Made) :
    Safe (expectAll locals i t es) c ((Call.expectAll locals i t es).calls c) fun _ _ => True := by
  induction es generalizing c i with
  | nil =>
    rw [expectAll, Call.calls]
    exact safe_pure hc trivial
  | cons e es ih =>
    rw [List.forall_mem_cons] at hes
    rw [expectAll, Call.calls]
    refine hes.1.next hc hlocals (Ty.over_all_some ht) fun found c₁ hc₁ hmoves₁ hfound => ?_
    refine safe_unifyAt_next hc₁ (hmoves₁.over_made ht) hfound fun _ c₂ hc₂ hmoves₂ => ?_
    have hmoves := hmoves₁.trans hmoves₂
    exact (ih hes.2 hc₂ (hlocals.later hmoves) (hmoves.over_made ht)).call
      (x := .expectAll locals (i + e.nodeCount) t es) hc₂
      (.of_type (hlocals.later hmoves) rfl (hmoves.over_made ht) trivial)

theorem safe_applyArguments {loc : Location} {js : List (Nat × Expr)} (hjs : ∀ j ∈ js, j.2.Safe)
    (hc : c.Clean) (hlocals : AreLocal (·.Over c.unifier.Made) locals)
    (ht : t.Over c.unifier.Made) :
    Safe (applyArguments loc t (js.map (argument locals))) c (argumentCalls locals loc t c js)
      fun u t => t.Over u.Made := by
  induction js generalizing c t with
  | nil => exact safe_pure hc ht
  | cons j js ih =>
    rw [List.forall_mem_cons] at hjs
    -- However the first argument is passed, the others follow.
    have hrest : ∀ {c' : Checker} {t : Ty}, c'.Clean → c.unifier.Moves c'.unifier →
        t.Over c'.unifier.Made → Safe (applyArguments loc t (js.map (argument locals))) c'
          [(.applyArguments locals loc t js, c')] fun u t => t.Over u.Made := by
      intro c' t hc' hmoves ht
      exact (ih hjs.2 hc' (hlocals.later hmoves) ht).call (x := .applyArguments locals loc t js) hc'
        (.of_type (hlocals.later hmoves) rfl ht trivial)
    rw [List.map_cons, applyArguments, argumentCalls]
    refine Safe.applied ?_
    have happlied : (c.unifier.apply t).Over c.unifier.Made := hc.bindings.apply ht
    generalize c.unifier.apply t = u at happlied
    cases u with
    | func p r =>
      rw [Ty.over_func] at happlied
      simp only [Argument.expectType, bind_assoc]
      refine hjs.1.next hc hlocals (Ty.over_all_some happlied.1) fun found c₁ hc₁ hmoves₁ hfound =>
        ?_
      refine safe_unifyAt_next hc₁ (hmoves₁.over_made happlied.1) hfound fun _ c₂ hc₂ hmoves₂ => ?_
      exact hrest hc₂ (hmoves₁.trans hmoves₂) ((hmoves₁.trans hmoves₂).over_made happlied.2)
    | any =>
      refine hjs.1.next hc hlocals Ty.over_all_none fun found c₁ hc₁ hmoves₁ hfound => ?_
      exact hrest hc₁ hmoves₁ (hmoves₁.over_made ht)
    | var v =>
      refine hjs.1.next hc hlocals Ty.over_all_none fun found c₁ hc₁ hmoves₁ hfound => ?_
      refine Safe.next .fresh (safe_fresh hc₁) hc₁ (.of_nil rfl rfl trivial)
        fun (result : Ty) c₂ hc₂ hmoves₂ (hresult : result.Over _) => ?_
      have hfunc : (Ty.func found result).Over c₂.unifier.Made :=
        Ty.over_func.2 ⟨hmoves₂.over_made hfound, hresult⟩
      refine safe_unifyAt_next hc₂ ((hmoves₁.trans hmoves₂).over_made happlied) hfunc
        fun _ c₃ hc₃ hmoves₃ => ?_
      exact hrest hc₃ ((hmoves₁.trans hmoves₂).trans hmoves₃) (hmoves₃.over_made hresult)
    | word | none | named | tuple => exact safe_fail hc _ _

/-! ### Patterns -/

theorem safe_bindPatterns {ps : List Pattern} {ts : List Ty} (hps : ∀ p ∈ ps, p.Safe) (hc : c.Clean)
    (hlocals : AreLocal (·.Over c.unifier.Made) locals) (hts : ∀ t ∈ ts, t.Over c.unifier.Made) :
    Safe (bindPatterns locals i ts ps) c ((Call.bindPatterns locals i ts ps).calls c) fun u inner =>
      AreLocal (·.Over u.Made) inner := by
  induction ps generalizing c i ts locals with
  | nil =>
    rw [bindPatterns]
    exact safe_pure hc hlocals
  | cons p ps ih =>
    rw [List.forall_mem_cons] at hps
    cases ts with
    | nil =>
      rw [bindPatterns]
      exact safe_pure hc hlocals
    | cons t ts =>
      rw [List.forall_mem_cons] at hts
      rw [bindPatterns, Call.calls]
      refine Safe.applied ?_
      have happlied : (c.unifier.apply t).Over c.unifier.Made := hc.bindings.apply hts.1
      refine Safe.next (.bindPattern locals i (c.unifier.apply t) p) (hps.1 hc hlocals happlied) hc
        (.of_type hlocals rfl happlied trivial)
        fun (inner : List Frame) c' hc' hmoves (hinner : AreLocal _ inner) => ?_
      have hts' : ∀ t ∈ ts, t.Over c'.unifier.Made := fun t ht => hmoves.over_made (hts.2 t ht)
      exact (ih hps.2 hc' hinner hts').call (x := .bindPatterns inner (i + p.nodeCount) ts ps) hc'
        ⟨hinner, hts', trivial⟩

theorem safe_freshes (ps : List Pattern) (hc : c.Clean) :
    Safe (ps.mapM fun _ => fresh) c ((Call.freshes ps).calls c) fun u ts =>
      ∀ t ∈ ts, t.Over u.Made := by
  induction ps generalizing c with
  | nil => exact safe_pure hc (by simp)
  | cons p ps ih =>
    rw [List.mapM_cons, Call.calls]
    refine Safe.next .fresh (safe_fresh hc) hc (.of_nil rfl rfl trivial)
      fun (t : Ty) c₁ hc₁ hmoves₁ (ht : t.Over _) => ?_
    refine Safe.last (.freshes ps) (ih hc₁) hc₁ (.of_nil rfl rfl trivial)
      fun (ts : List Ty) c₂ hc₂ hmoves₂ (hts : ∀ t ∈ ts, t.Over _) => ?_
    exact safe_pure hc₂ (List.forall_mem_cons.2 ⟨hmoves₂.over_made ht, hts⟩)

theorem Ty.Over.uncurry {K : String → Prop} (h : t.Over K) :
    (∀ u ∈ t.uncurry.1, u.Over K) ∧ t.uncurry.2.Over K := by
  rw [← Ty.curry_uncurry t] at h
  exact Ty.over_curry.1 h

theorem Pattern.Safe.cons {loc : Location} {n : String} {ps : List Pattern}
    (hps : ∀ p ∈ ps, p.Safe) : (Pattern.cons loc n ps).Safe := by
  intro c locals i t hc hlocals ht
  rw [bindPattern, Pattern.calls]
  refine FunRiscv.Safe.find? ?_ fun s s' hs hrel => ?_
  · cases hk : (c.find? locals n).bind Symbol.constructor? with
    | none => exact safe_fail hc _ _
    | some k =>
      obtain ⟨s, hs, hk⟩ := Option.bind_eq_some_iff.1 hk
      have htidy : k.Tidy := (hc.symbol hlocals hs).constructor? hk
      refine FunRiscv.Safe.next (.instantiate k) (safe_instantiate hc htidy) hc
        (.of_nil rfl rfl htidy) fun (u : Ty) c₁ hc₁ hmoves₁ (hu : u.Over _) => ?_
      obtain ⟨hparams, hresult⟩ := hu.uncurry
      dsimp only
      split
      · exact safe_fail hc₁ _ _
      · refine safe_unifyAt_next hc₁ (hmoves₁.over_made ht) hresult fun _ c₂ hc₂ hmoves₂ => ?_
        have hlocals₂ := hlocals.later (hmoves₁.trans hmoves₂)
        have hparams₂ : ∀ t ∈ u.uncurry.1, t.Over c₂.unifier.Made :=
          fun t ht => hmoves₂.over_made (hparams t ht)
        exact (safe_bindPatterns hps hc₂ hlocals₂ hparams₂).call
          (x := .bindPatterns locals i u.uncurry.1 ps) hc₂ ⟨hlocals₂, hparams₂, trivial⟩
  · obtain ⟨ρ, hρ, rfl⟩ := hrel
    simp only [Option.bind_some, Symbol.constructor?_respell]
    cases hk : s.constructor? with
    | none => rfl
    | some k =>
      have htidy : k.Tidy := (hc.symbol hlocals hs).constructor? hk
      simp only [Option.map_some, htidy.instantiate_respelled hρ]

theorem Pattern.Safe.tuple {loc : Location} {ps : List Pattern} (hps : ∀ p ∈ ps, p.Safe) :
    (Pattern.tuple loc ps).Safe := by
  intro c locals i t hc hlocals ht
  rw [bindPattern, Pattern.calls]
  refine FunRiscv.Safe.next (.freshes ps) (safe_freshes ps hc) hc (.of_nil rfl rfl trivial)
    fun (ts : List Ty) c₁ hc₁ hmoves₁ (hts : ∀ t ∈ ts, t.Over _) => ?_
  refine safe_unifyAt_next hc₁ (hmoves₁.over_made ht) (Ty.over_tuple.2 hts) fun _ c₂ hc₂ hmoves₂ =>
    ?_
  have hlocals₂ := hlocals.later (hmoves₁.trans hmoves₂)
  have hts₂ : ∀ t ∈ ts, t.Over c₂.unifier.Made := fun t ht => hmoves₂.over_made (hts t ht)
  exact (safe_bindPatterns hps hc₂ hlocals₂ hts₂).call (x := .bindPatterns locals i ts ps) hc₂
    ⟨hlocals₂, hts₂, trivial⟩

theorem Expr.Safe.lit {loc : Location} {e : Expr} (he : e.Safe) : (Pattern.lit loc e).Safe := by
  intro c locals i t hc hlocals ht
  rw [bindPattern, Pattern.calls]
  refine he.next hc hlocals Ty.over_all_none fun found c₁ hc₁ hmoves₁ hfound => ?_
  have ht₁ := hmoves₁.over_made ht
  refine FunRiscv.Safe.last (.unifyAt t found loc) (safe_unifyAt hc₁ ht₁ hfound) hc₁
    (.of_pair rfl rfl ht₁ hfound trivial) fun _ c₂ hc₂ hmoves₂ _ => ?_
  exact safe_pure hc₂ (hlocals.later (hmoves₁.trans hmoves₂))

/-! ### All expressions -/

/-- The arms of a match whose patterns and bodies are safe. -/
theorem safe_inferCases {cs : List Case} {scrutinee : Ty} {result : Option Ty}
    (hcs : ∀ x ∈ cs, x.pattern.Safe ∧ x.body.Safe) (hc : c.Clean)
    (hlocals : AreLocal (·.Over c.unifier.Made) locals) (hscrutinee : scrutinee.Over c.unifier.Made)
    (hresult : ∀ t ∈ result, t.Over c.unifier.Made) :
    Safe (inferCases locals i scrutinee result cs) c (caseCalls locals i scrutinee result c cs)
      fun u out => ∀ t ∈ out, t.Over u.Made := by
  induction cs generalizing c i result with
  | nil =>
    rw [inferCases]
    exact safe_pure hc hresult
  | cons x cs ih =>
    obtain ⟨loc, p, body⟩ := x
    rw [List.forall_mem_cons] at hcs
    have hp : p.Safe := hcs.1.1
    have hbody : body.Safe := hcs.1.2
    -- Whatever the arms so far give, the others follow.
    have hrest : ∀ {c' : Checker} {t : Ty}, c'.Clean → c.unifier.Moves c'.unifier →
        t.Over c'.unifier.Made →
        Safe (inferCases locals (i + p.nodeCount + body.nodeCount) scrutinee (some t) cs) c'
          [(.inferCases locals (i + p.nodeCount + body.nodeCount) scrutinee (some t) cs, c')]
          fun u out => ∀ t ∈ out, t.Over u.Made := by
      intro c' t hc' hmoves ht
      have hscrutinee' := hmoves.over_made hscrutinee
      have hsafe : Safe (inferCases locals (i + p.nodeCount + body.nodeCount) scrutinee (some t) cs)
        c' _ fun u out =>
          ∀ t ∈ out, t.Over u.Made :=
        ih hcs.2 hc' (hlocals.later hmoves) hscrutinee' (Ty.over_all_some ht)
      exact hsafe.call (x := .inferCases locals (i + p.nodeCount + body.nodeCount) scrutinee
        (some t) cs) hc'
        ⟨hlocals.later hmoves, by simp [Call.types, hscrutinee', ht], trivial⟩
    rw [inferCases, caseCalls]
    refine Safe.next (.bindPattern ([] :: locals) i scrutinee p) (hp hc hlocals.push hscrutinee) hc
      (.of_type hlocals.push rfl hscrutinee trivial)
      fun (inner : List Frame) c₁ hc₁ hmoves₁ (hinner : AreLocal _ inner) => ?_
    refine hbody.next hc₁ hinner (fun t ht => hmoves₁.over_made (hresult t ht))
      fun found c₂ hc₂ hmoves₂ hfound => ?_
    have hmoves := hmoves₁.trans hmoves₂
    cases result with
    | none =>
      simp only [pure_bind]
      exact hrest hc₂ hmoves hfound
    | some t =>
      have ht := hmoves.over_made (hresult t rfl)
      simp only [pure_bind]
      refine safe_unifyAt_next hc₂ ht hfound fun _ c₃ hc₃ hmoves₃ => ?_
      exact hrest hc₃ (hmoves.trans hmoves₃) (hmoves₃.over_made ht)

theorem Expr.Safe.call {loc : Location} {f : Expr} {args : List Expr} {named : List NamedArg}
    (hf : f.Safe) (hargs : ∀ (i : Nat), ∀ j ∈ jobs i args, j.2.Safe)
    (hnamed : ∀ (i : Nat), ∀ j ∈ namedJobs i named, j.value.2.Safe) :
    (Expr.call loc f args named).Safe := by
  intro c locals i expected hc hlocals _
  rw [infer, Expr.calls]
  refine hf.next hc hlocals Ty.over_all_none fun callee c₁ hc₁ hmoves₁ hcallee => ?_
  refine (safe_calledFields hc₁).andThen fun fields c₂ hc₂ hmoves₂ _ => ?_
  rw [arguments_eq, namedArguments_eq, placeArguments_map]
  cases hplaced : placeArguments loc fields (jobs (i + 1 + f.nodeCount) args)
      (namedJobs (i + 1 + f.nodeCount + exprsNodeCount args) named) with
  | error e => exact safe_failWith hc₂ e
  | ok js =>
    have hjs : ∀ j ∈ js, j.2.Safe := by
      intro j hj
      rcases List.mem_append.1 ((placeArguments_perm hplaced).mem_iff.1 hj) with hj | hj
      · exact hargs _ j hj
      · obtain ⟨a, ha, rfl⟩ := List.mem_map.1 hj
        exact hnamed _ a ha
    have hlocals₂ := hlocals.later (hmoves₁.trans hmoves₂)
    have hcallee₂ := hmoves₂.over_made hcallee
    refine FunRiscv.Safe.next (.applyArguments locals loc callee js)
      (safe_applyArguments hjs hc₂ hlocals₂ hcallee₂) hc₂ (.of_type hlocals₂ rfl hcallee₂ trivial)
      fun (t : Ty) c₃ hc₃ hmoves₃ (ht : t.Over _) => ?_
    exact safe_recorded hc₃ ht

theorem Expr.Safe.lambda {loc : Location} {ps : List Param} {body : Expr} (hbody : body.Safe) :
    (Expr.lambda loc ps body).Safe := by
  intro c locals i expected hc hlocals hexpected
  rw [infer, Expr.calls]
  refine (safe_lambdaHint hc hexpected).andThen fun hint c₁ hc₁ hmoves₁ hhint => ?_
  refine FunRiscv.Safe.next (.lambdaParams hint ps) (safe_lambdaParams hc₁ hhint) hc₁
    (.of_type? areLocal_nil rfl hhint trivial)
    fun (ts : List Ty) c₂ hc₂ hmoves₂ (hts : ∀ t ∈ ts, t.Over _) => ?_
  have hinner : AreLocal (·.Over c₂.unifier.Made) (withParams ([] :: locals) ps ts) :=
    (hlocals.later (hmoves₁.trans hmoves₂)).push.withParams hts
  refine hbody.next hc₂ hinner Ty.over_all_none fun result c₃ hc₃ hmoves₃ hresult => ?_
  exact safe_recorded hc₃ (Ty.over_curry.2 ⟨fun t ht => hmoves₃.over_made (hts t ht), hresult⟩)

theorem Expr.Safe.ifElse {loc : Location} {x a b : Expr} (hx : x.Safe) (ha : a.Safe) (hb : b.Safe) :
    (Expr.ifElse loc x a b).Safe := by
  intro c locals i expected hc hlocals _
  rw [infer, Expr.calls]
  refine hx.next hc hlocals Ty.over_all_none fun cond c₁ hc₁ hmoves₁ hcond => ?_
  refine FunRiscv.Safe.next (.conditionType x.loc cond) (safe_conditionType hc₁ hcond) hc₁
    (.of_type areLocal_nil rfl hcond trivial) fun _ c₂ hc₂ hmoves₂ _ => ?_
  have hmoves := hmoves₁.trans hmoves₂
  refine ha.next hc₂ (hlocals.later hmoves) Ty.over_all_none fun t c₃ hc₃ hmoves₃ ht => ?_
  refine hb.next hc₃ (hlocals.later (hmoves.trans hmoves₃)) (Ty.over_all_some ht)
    fun u c₄ hc₄ hmoves₄ hu => ?_
  refine safe_unifyAt_next hc₄ (hmoves₄.over_made ht) hu fun _ c₅ hc₅ hmoves₅ => ?_
  exact safe_recorded hc₅ ((hmoves₄.trans hmoves₅).over_made ht)

theorem Expr.Safe.matchOn {loc : Location} {x : Expr} {cs : List Case} (hx : x.Safe)
    (hcs : ∀ y ∈ cs, y.pattern.Safe ∧ y.body.Safe) : (Expr.matchOn loc x cs).Safe := by
  intro c locals i expected hc hlocals _
  rw [infer, Expr.calls]
  refine hx.next hc hlocals Ty.over_all_none fun scrutinee c₁ hc₁ hmoves₁ hscrutinee => ?_
  have hlocals₁ := hlocals.later hmoves₁
  refine FunRiscv.Safe.next (.inferCases locals (i + 1 + x.nodeCount) scrutinee none cs)
    (safe_inferCases hcs hc₁ hlocals₁ hscrutinee Ty.over_all_none) hc₁
    (.of_type hlocals₁ rfl hscrutinee trivial)
    fun (out : Option Ty) c₂ hc₂ hmoves₂ (hout : ∀ t ∈ out, t.Over _) => ?_
  cases out with
  | none => exact safe_fail hc₂ _ _
  | some t => exact safe_recorded hc₂ (hout t rfl)

mutual

theorem safe_infer : ∀ e : Expr, e.Safe
  | .uint .. | .int .. | .float .. => fun c locals i expected hc _ _ => by
    rw [infer]
    exact safe_recorded hc (Ty.over_word _)
  | .str .. | .bool .. => fun c locals i expected hc _ _ => by
    rw [infer]
    exact safe_recorded hc (Ty.over_named.2 (by simp))
  | .eraser _ => fun c locals i expected hc _ _ => by
    rw [infer, Expr.calls]
    exact Safe.next .fresh (safe_fresh hc) hc (.of_nil rfl rfl trivial)
      fun (t : Ty) c' hc' _ (ht : t.Over _) => safe_recorded hc' ht
  | .var loc n => fun c locals i expected hc hlocals _ => by
    rw [infer, Expr.calls]
    exact Safe.next (.inferVar locals loc n) (safe_inferVar hc hlocals) hc
      (.of_locals hlocals rfl trivial) fun (t : Ty) c' hc' _ (ht : t.Over _) => safe_recorded hc' ht
  | .tuple _ es => fun c locals i expected hc hlocals _ => by
    rw [infer, Expr.calls]
    exact Safe.next (.inferList locals (i + 1) es) (safe_inferList (safe_infers es) hc hlocals) hc
      (.of_locals hlocals rfl trivial) fun (ts : List Ty) c' hc' _ (hts : ∀ t ∈ ts, t.Over _) =>
        safe_recorded hc' (Ty.over_tuple.2 hts)
  | .list _ [] => fun c locals i expected hc _ _ => by
    rw [infer, Expr.calls]
    exact Safe.next .fresh (safe_fresh hc) hc (.of_nil rfl rfl trivial)
      fun (t : Ty) c' hc' _ (ht : t.Over _) =>
      safe_recorded hc' (Ty.over_named.2 (by simpa using ht))
  | .list _ (e :: es) => fun c locals i expected hc hlocals _ => by
    rw [infer, Expr.calls]
    refine (safe_infer e).next hc hlocals Ty.over_all_none fun t c₁ hc₁ hmoves₁ ht => ?_
    have hlocals₁ := hlocals.later hmoves₁
    refine Safe.next (.expectAll locals (i + 1 + e.nodeCount) t es)
      (safe_expectAll (safe_infers es) hc₁ hlocals₁ ht) hc₁ (.of_type hlocals₁ rfl ht trivial)
      fun _ c₂ hc₂ hmoves₂ _ => ?_
    exact safe_recorded hc₂ (Ty.over_named.2 (by simpa using hmoves₂.over_made ht))
  | .binOp loc op l r => fun c locals i expected hc hlocals _ => by
    rw [infer, Expr.calls]
    refine (safe_infer l).next hc hlocals Ty.over_all_none fun a c₁ hc₁ hmoves₁ ha => ?_
    refine (safe_infer r).next hc₁ (hlocals.later hmoves₁) Ty.over_all_none
      fun b c₂ hc₂ hmoves₂ hb => ?_
    have ha₂ := hmoves₂.over_made ha
    exact Safe.next (.operationType loc op a b) (safe_operationType hc₂ ha₂ hb) hc₂
      ⟨areLocal_nil, by simp [Call.types, ha₂, hb], trivial⟩
      fun (t : Ty) c' hc' _ (ht : t.Over _) => safe_recorded hc' ht
  | .call _ f args named => (safe_infer f).call (safe_jobs args) (safe_namedJobs named)
  | .lambda _ _ body => (safe_infer body).lambda
  | .ifElse _ x a b => (safe_infer x).ifElse (safe_infer a) (safe_infer b)
  | .matchOn _ x cs => (safe_infer x).matchOn (safe_cases cs)
  | .access loc x field => fun c locals i expected hc hlocals _ => by
    rw [infer, Expr.calls]
    refine (safe_infer x).next hc hlocals Ty.over_all_none fun target c₁ hc₁ hmoves₁ htarget => ?_
    exact (safe_fieldType hc₁ htarget).andThen fun t c₂ hc₂ _ ht => safe_recorded hc₂ ht
  | .missing => fun c locals i expected hc _ _ => by
    rw [infer]
    exact safe_fail hc _ _

theorem safe_infers : ∀ es : List Expr, ∀ e ∈ es, e.Safe
  | [] => by simp
  | e :: es => List.forall_mem_cons.2 ⟨safe_infer e, safe_infers es⟩

theorem safe_jobs : ∀ (es : List Expr) (i : Nat), ∀ j ∈ jobs i es, j.2.Safe
  | [], _ => by simp [jobs]
  | e :: es, i => List.forall_mem_cons.2 ⟨safe_infer e, safe_jobs es (i + e.nodeCount)⟩

theorem safe_namedJobs : ∀ (ns : List NamedArg) (i : Nat), ∀ j ∈ namedJobs i ns, j.value.2.Safe
  | [], _ => by simp [namedJobs]
  | .mk _ _ e :: ns, i => List.forall_mem_cons.2 ⟨safe_infer e, safe_namedJobs ns (i + e.nodeCount)⟩

theorem safe_cases : ∀ cs : List Case, ∀ x ∈ cs, x.pattern.Safe ∧ x.body.Safe
  | [] => by simp
  | .mk _ p e :: cs => List.forall_mem_cons.2 ⟨⟨safe_bindPattern p, safe_infer e⟩, safe_cases cs⟩

theorem safe_bindPattern : ∀ p : Pattern, p.Safe
  | .wild _ => fun c locals i t hc hlocals _ => by
    rw [bindPattern]
    exact safe_pure hc hlocals
  | .var _ n => fun c locals i t hc hlocals ht => by
    rw [bindPattern]
    exact safe_pure hc (hlocals.bindLocal ht)
  | .lit _ e => (safe_infer e).lit
  | .cons _ _ ps => .cons (safe_patterns ps)
  | .tuple _ ps => .tuple (safe_patterns ps)
  | .missing => fun c locals i t hc _ _ => by
    rw [bindPattern]
    exact safe_fail hc _ _

theorem safe_patterns : ∀ ps : List Pattern, ∀ p ∈ ps, p.Safe
  | [] => by simp
  | p :: ps => List.forall_mem_cons.2 ⟨safe_bindPattern p, safe_patterns ps⟩

end

end FunRiscv
