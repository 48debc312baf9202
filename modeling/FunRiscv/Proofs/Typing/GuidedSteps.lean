import Mathlib
import FunRiscv.Proofs.Typing.Guided
import FunRiscv.Proofs.Typing.Meanings

/-!
# Steps under guidance

What the steps of inference that hold no further expression do in a free run, and that a guided
run keeps up with them.

* `keepsUp_instantiate`: constructors. `inferVar_guided`: names. `symbolType`: the type of a
  name, from its symbol.
* `extends_operationType`, `keepsUp_operationType`: operators.  Here a guided run may be refused.
* `extends_conditionType`, `keepsUp_conditionType`: conditions.
* `fieldOf?`: the type of a field, from what is known of the type of a value.
  `fieldType_guided`: fields.
* `Guide.Hints`: what the guided run may expect of a type that the free run is about to find.
* `ParamsFit`: parameters of a lambda that the guided run can take from what it expects.
  `lambdaParams_guided`: it does.
-/

namespace FunRiscv

open Checking

/-! ### Constructors -/

section Constructors

/-- Where only variables are put for variables, a type has as many parameters as before. -/
theorem Ty.uncurry_bind {t : Ty} {f : String → Ty}
    (hf : ∀ v, t.occurs v = true → (f v).isVar = true) :
    (t.bind f).uncurry = (t.uncurry.1.map (Ty.bind f), t.uncurry.2.bind f) := by
  induction t using Ty.induction with
  | func p r _ ih =>
    have hr := ih fun v hv => hf v (by simp [occurs, hv])
    simp only [Ty.bind, uncurry, hr, List.map_cons]
  | var v =>
    have hv := hf v (by simp [occurs])
    simp only [Ty.bind, uncurry, List.map_nil]
    cases hfv : f v with
    | var w => rfl
    | word | any | none | named | func | tuple => simp [hfv, isVar] at hv
  | word | any | none | named | tuple => rfl

theorem isVar_freshFor (ps : List String) (u : Unifier) :
    ∀ t ∈ (freshFor ps u).1, t.isVar = true := by
  induction ps generalizing u with
  | nil => simp [freshFor]
  | cons p ps ih => exact List.forall_mem_cons.2 ⟨rfl, ih _⟩

theorem Unifier.Plain.freshFor {u : Unifier} (h : u.Plain) (ps : List String) :
    u.Extends (freshFor ps u).2 ∧ ∀ t ∈ (freshFor ps u).1, (freshFor ps u).2.Proper t := by
  induction ps generalizing u with
  | nil => exact ⟨.refl h, by simp [FunRiscv.freshFor]⟩
  | cons p ps ih =>
    obtain ⟨hext, hproper⟩ := ih h.extends_fresh.plain
    exact ⟨h.extends_fresh.trans hext, List.forall_mem_cons.2 ⟨h.proper_fresh.later hext, hproper⟩⟩

/-- As many fresh variables in both runs as there are parameters. -/
theorem Guide.Relates.freshFor {g : Guide} {θ : String → Ty} {u w : Unifier} (h : g.Relates θ u w)
    (ps : List String) :
    ∃ g', g'.Relates θ (freshFor ps u).2 (freshFor ps w).2 ∧
      g.Leads u w g' (freshFor ps u).2 (freshFor ps w).2 ∧
      List.Forall₂ (g'.Matches (freshFor ps u).2 (freshFor ps w).2) (freshFor ps u).1
        (freshFor ps w).1 := by
  induction ps generalizing g u w with
  | nil => exact ⟨g, h, .refl h, .nil⟩
  | cons p ps ih =>
    obtain ⟨g₁, hrel₁, hlead₁, hmatch⟩ := h.fresh
    obtain ⟨g₂, hrel₂, hlead₂, hrest⟩ := ih hrel₁
    exact ⟨g₂, hrel₂, hlead₁.trans hlead₂, .cons (hmatch.later hlead₂) hrest⟩

variable {g : Guide} {ops : Location → Operator → Prop} {θ : String → Ty} {c c' d : Checker}
  {t t' : Ty} {k : Constructor}

/-- The parameters and the result of a signature with arguments that match, if these
are variables. -/
theorem matches_uncurry_replace {u w : Unifier} {ts ts' : List Ty} (hk : k.Tidy)
    (hstatic : k.signature.Static) (h : List.Forall₂ (g.Matches u w) ts ts')
    (hlen : ts.length = k.params.length) (hts : ∀ t ∈ ts, t.isVar = true)
    (hts' : ∀ t ∈ ts', t.isVar = true) :
    List.Forall₂ (g.Matches u w) (k.signature.replace (Ty.parameterMap k.params ts)).uncurry.1
        (k.signature.replace (Ty.parameterMap k.params ts')).uncurry.1 ∧
      g.Matches u w (k.signature.replace (Ty.parameterMap k.params ts)).uncurry.2
        (k.signature.replace (Ty.parameterMap k.params ts')).uncurry.2 := by
  have hmap : ∀ {vs : List Ty}, vs.length = k.params.length → (∀ t ∈ vs, t.isVar = true) →
      ∀ v, k.signature.occurs v = true →
      (((Ty.parameterMap k.params vs).lookup v).getD (.var v)).isVar = true := by
    intro vs hvs hvar v hv
    obtain ⟨t, ht, hlookup⟩ := Ty.lookup_parameterMap hvs (hk v hv)
    rw [hlookup]
    exact hvar t ht
  rw [Ty.replace, Ty.replace, Ty.uncurry_bind (hmap hlen hts),
    Ty.uncurry_bind (hmap (h.length_eq.symm.trans hlen) hts')]
  have hover : k.signature.Over (· ∈ k.params) := hk
  rw [← Ty.curry_uncurry k.signature] at hstatic hover
  obtain ⟨hps, hr⟩ := Ty.static_curry.1 hstatic
  obtain ⟨hps', hr'⟩ := Ty.over_curry.1 hover
  refine ⟨?_, Guide.Matches.replace h hr hr' hlen⟩
  rw [List.forall₂_map_left_iff, List.forall₂_map_right_iff, List.forall₂_same]
  exact fun p hp => Guide.Matches.replace h (hps p hp) (hps' p hp) hlen

theorem extends_instantiate (hc : c.unifier.Plain) (hk : k.Tidy) (hstatic : k.signature.Static)
    (h : Gives (instantiate k) c t c') : c.Extends c' ∧ c'.unifier.Proper t := by
  obtain ⟨rfl, rfl⟩ := gives_instantiate.1 h
  obtain ⟨hext, hproper⟩ := hc.freshFor k.params
  exact ⟨⟨hext, rfl, rfl⟩, Unifier.proper_replace hstatic hk (freshFor_spec k.params hc.tidy).1
    hproper⟩

/-- Both runs use a constructor; its parameters and its result match. -/
theorem keepsUp_instantiate (hk : k.Tidy) (hstatic : k.signature.Static)
    (h : Gives (instantiate k) c t c') (hg : g.Guides θ c d) :
    g.KeepsUp ops θ c d c' (instantiate k) fun g' d' t' => g'.Matches c'.unifier d'.unifier t t' ∧
        List.Forall₂ (g'.Matches c'.unifier d'.unifier) t.uncurry.1 t'.uncurry.1 ∧
        g'.Matches c'.unifier d'.unifier t.uncurry.2 t'.uncurry.2 := by
  obtain ⟨rfl, rfl⟩ := gives_instantiate.1 h
  obtain ⟨g', hrel, hlead, hmatch⟩ := hg.relates.freshFor k.params
  have hlen := (freshFor_spec k.params hg.relates.free.tidy).1
  exact .of_gives (gives_instantiate.2 ⟨rfl, rfl⟩) ⟨hrel, hg.globals, hg.path⟩ hlead
    ⟨.replace hmatch hstatic hk hlen, matches_uncurry_replace hk hstatic hmatch hlen
      (isVar_freshFor _ _) (isVar_freshFor _ _)⟩

/-- The type of a name, from the symbol that it stands for. -/
def symbolType (loc : Location) (n : String) (s : Symbol) : Checking Ty :=
  match s.value?, s.constructor? with
  | some t, _ => pure t
  | none, some k => instantiate k
  | none, none => fail loc (.notAValue n)

theorem run_inferVar {locals : List Frame} {loc : Location} {n : String} {s : Symbol}
    (h : c.find? locals n = some s) :
    (ExceptT.run (inferVar locals loc n)).run c = (ExceptT.run (symbolType loc n s)).run c := by
  have hfind : (ExceptT.run (find? locals n)).run c = (.ok (c.find? locals n), c) :=
    gives_find?.2 ⟨rfl, rfl⟩
  rw [inferVar, ExceptT.run_bind, StateT.run_bind, hfind, h]
  cases s with
  | type s =>
    obtain ⟨_, _, _, _, _, k?⟩ := s
    cases k? <;> rfl
  | _ => rfl

/-- Only a name that stands for something has a type. -/
theorem find?_of_gives_inferVar {locals : List Frame} {loc : Location} {n : String}
    (h : Gives (inferVar locals loc n) c t c') :
    ∃ s, c.find? locals n = some s ∧ Gives (symbolType loc n s) c t c' := by
  cases hs : c.find? locals n with
  | some s => exact ⟨s, rfl, (run_inferVar hs).symm.trans h⟩
  | none =>
    obtain ⟨s?, c₁, hs', h⟩ := gives_bind.1 h
    obtain ⟨rfl, rfl⟩ := gives_find?.1 hs'
    rw [hs] at h
    dsimp only at h
    split at h <;> obtain ⟨o, c₂, -, h⟩ := gives_bind.1 h <;> split at h <;>
      exact (not_gives_fail h).elim

theorem inferVar_guided {locals : List Frame} {loc : Location} {n : String} (hc : c.Proper locals)
    (h : Gives (inferVar locals loc n) c t c') : c.Extends c' ∧ c'.unifier.Proper t ∧
      ∀ ⦃g : Guide⦄ ⦃θ : String → Ty⦄ ⦃d : Checker⦄ ⦃locals' : List Frame⦄, g.Guides θ c d →
        g.Frames c d locals locals' →
        g.KeepsUp ops θ c d c' (inferVar locals' loc n) fun g' d' t' =>
          g'.Matches c'.unifier d'.unifier t t' := by
  obtain ⟨s, hs, h⟩ := find?_of_gives_inferVar h
  have hproper := hc.find? hs
  -- The guided run finds a symbol with a value or constructor in the same case.
  have found : ∀ ⦃g : Guide⦄ ⦃θ : String → Ty⦄ ⦃d : Checker⦄ ⦃locals' : List Frame⦄,
    g.Guides θ c d → g.Frames c d locals locals' →
      ∃ s', d.find? locals' n = some s' ∧ g.Symbols c.unifier d.unifier s s' := by
    intro g θ d locals' hg hf
    have hfound := hf.find? hg n
    rw [hs] at hfound
    generalize d.find? locals' n = s'? at hfound ⊢
    cases hfound with
    | some hsymbols => exact ⟨_, rfl, hsymbols⟩
  rw [symbolType] at h
  cases hvalue : s.value? with
  | some t₀ =>
    rw [hvalue] at h
    obtain ⟨rfl, rfl⟩ := gives_pure.1 h
    refine ⟨.refl hc.plain, hproper.value t hvalue, fun g θ d locals' hg hf => ?_⟩
    obtain ⟨s', hs', hsymbols⟩ := found hg hf
    have hrel := hsymbols.value
    rw [hvalue] at hrel
    refine .congr (run_inferVar hs') ?_
    rw [symbolType]
    generalize s'.value? = t'? at hrel ⊢
    cases hrel with
    | some hmatch => exact .pure hg hmatch
  | none =>
    rw [hvalue] at h
    cases hk : s.constructor? with
    | none =>
      rw [hk] at h
      exact (not_gives_fail h).elim
    | some k =>
      rw [hk] at h
      obtain ⟨htidy, hstatic⟩ := hproper.constructor k hk
      obtain ⟨hext, hproper⟩ := extends_instantiate hc.plain htidy hstatic h
      refine ⟨hext, hproper, fun g θ d locals' hg hf => ?_⟩
      obtain ⟨s', hs', hsymbols⟩ := found hg hf
      have hrel := hsymbols.value
      rw [hvalue] at hrel
      refine .congr (run_inferVar hs') ?_
      rw [symbolType, hsymbols.constructor, hk]
      generalize s'.value? = t'? at hrel ⊢
      cases hrel with
      | none => exact (keepsUp_instantiate htidy hstatic h hg).imp fun _ _ _ h => h.1

end Constructors

/-! ### Operators and conditions -/

section Operators

variable {g : Guide} {ops : Location → Operator → Prop} {θ : String → Ty} {c c' d : Checker}
  {l l' r r' t t' : Ty} {loc : Location} {op : Operator}

theorem refuses_incompatible {α : Type} (hop : ops loc op)
    (h : ∃ t ∈ [d.unifier.apply l, d.unifier.apply r], t.isVar = false ∧ op.kind.admits t = false) :
    Refuses ops (incompatible loc op l r : Checking α) d := by
  refine ⟨loc, op, _, _, hop, ?_, h⟩
  rw [incompatible]
  exact fails_bind.2 (.inr ⟨_, _, gives_applied.2 ⟨rfl, rfl⟩,
    fails_bind.2 (.inr ⟨_, _, gives_applied.2 ⟨rfl, rfl⟩, fails_failWith.2 rfl⟩)⟩)

/-- Operands without the dynamic type are unified. -/
theorem gives_sameOperands {test : Ty → Bool} (hc : c.unifier.Plain) (hl : c.unifier.Proper l)
    (hr : c.unifier.Proper r) (h : Gives (sameOperands loc op l r test) c t c') :
    Unified l r c c' ∧ t = c'.unifier.apply l := by
  obtain ⟨hunified, -, ⟨rfl, -⟩ | ⟨hany, -⟩⟩ := unified_of_sameOperands h
  · exact ⟨hunified, rfl⟩
  · exact absurd hany
      (Ty.Static.ne_any (hl.later (extends_unified hc hl hr hunified).unifier).clear)

theorem keepsUp_sameOperands {test : Ty → Bool} (hop : ops loc op) (htested : test = op.kind.admits)
    (hl : g.Matches c.unifier d.unifier l l') (hr : g.Matches c.unifier d.unifier r r')
    (h : Gives (sameOperands loc op l r test) c t c') (hθ : Subst.Respects θ c'.unifier.subst)
    (hg : g.Guides θ c d) :
    g.KeepsUp ops θ c d c' (sameOperands loc op l' r' test) fun g' d' t' =>
      g'.Matches c'.unifier d'.unifier t t' := by
  obtain ⟨hunified, rfl⟩ := gives_sameOperands hg.relates.free hl.proper hr.proper h
  rw [sameOperands]
  refine keepsUp_unify_bind hunified hθ hg hl hr fun d₁ g₁ hg₁ hlead => ?_
  have hmatch := (hl.later hlead).applied hg₁.relates
  refine .read (gives_applied.2 ⟨rfl, rfl⟩) ?_
  dsimp only
  split
  · next hany => exact absurd hany (Ty.Static.ne_any ((hl.later hlead).proper' hg₁.relates).clear)
  · simp only [pure_bind]
    split
    · exact .pure hg₁ hmatch
    · next htest =>
      simp only [Bool.or_eq_true, not_or, Bool.not_eq_true] at htest
      exact .inl (refuses_incompatible hop ⟨_, List.mem_cons_self, htest.1, htested ▸ htest.2⟩)

theorem extends_sameOperands {test : Ty → Bool} (hc : c.unifier.Plain) (hl : c.unifier.Proper l)
    (hr : c.unifier.Proper r) (h : Gives (sameOperands loc op l r test) c t c') :
    c.Extends c' ∧ c'.unifier.Proper t := by
  obtain ⟨hunified, rfl⟩ := gives_sameOperands hc hl hr h
  have hext := extends_unified hc hl hr hunified
  exact ⟨hext, (hl.later hext.unifier).applied hext.unifier.plain⟩

/-- What an operation gives, when the dynamic type is not at hand. -/
theorem extends_operationType (hc : c.unifier.Plain) (hl : c.unifier.Proper l)
    (hr : c.unifier.Proper r) (h : Gives (operationType loc op l r) c t c') :
    c.Extends c' ∧ c'.unifier.Proper t := by
  rw [operationType] at h
  split at h
  · exact extends_sameOperands hc hl hr h
  · exact extends_sameOperands hc hl hr h
  · obtain ⟨c₁, hu, h⟩ := (gives_unify_bind fun _ _ _ _ => not_gives_incompatible).1 h
    obtain ⟨rfl, rfl⟩ := gives_pure.1 h
    exact ⟨extends_unified hc hl hr hu, Unifier.proper_word _⟩
  · obtain ⟨a, c₁, ha, h⟩ := gives_bind.1 h
    obtain ⟨rfl, rfl⟩ := gives_applied.1 ha
    obtain ⟨b, c₂, hb, h⟩ := gives_bind.1 h
    obtain ⟨rfl, rfl⟩ := gives_applied.1 hb
    split at h
    · obtain ⟨rfl, rfl⟩ := gives_pure.1 h
      exact ⟨.refl hc, hl⟩
    · exact (not_gives_incompatible h).elim
  · obtain ⟨c₁, hu, h⟩ := (gives_unify_bind fun _ _ _ _ => not_gives_incompatible).1 h
    have hext := extends_unified hc (Unifier.proper_word _) hl hu
    obtain ⟨c₂, hu', h⟩ := (gives_unify_bind fun _ _ _ _ => not_gives_incompatible).1 h
    obtain ⟨rfl, rfl⟩ := gives_pure.1 h
    have hext' :=
      extends_unified hext.unifier.plain (Unifier.proper_word _) (hr.later hext.unifier) hu'
    exact ⟨hext.trans hext', Unifier.proper_word _⟩

theorem keepsUp_operationType (hop : ops loc op) (hl : g.Matches c.unifier d.unifier l l')
    (hr : g.Matches c.unifier d.unifier r r') (h : Gives (operationType loc op l r) c t c')
    (hθ : Subst.Respects θ c'.unifier.subst) (hg : g.Guides θ c d) :
    g.KeepsUp ops θ c d c' (operationType loc op l' r') fun g' d' t' =>
      g'.Matches c'.unifier d'.unifier t t' := by
  rw [operationType] at h ⊢
  cases hk : op.kind with
  | arithmetic | bitwise =>
    rw [hk] at h
    exact keepsUp_sameOperands hop (by rw [hk]; rfl) hl hr h hθ hg
  | comparison =>
    rw [hk] at h
    obtain ⟨c₁, hu, h⟩ := (gives_unify_bind fun _ _ _ _ => not_gives_incompatible).1 h
    obtain ⟨rfl, rfl⟩ := gives_pure.1 h
    exact keepsUp_unify_bind hu hθ hg hl hr fun d₁ g₁ hg₁ _ =>
      .pure hg₁ (hg₁.relates.matches_word _)
  | shift =>
    rw [hk] at h
    obtain ⟨a, c₁, ha, h⟩ := gives_bind.1 h
    obtain ⟨rfl, rfl⟩ := gives_applied.1 ha
    obtain ⟨b, c₂, hb, h⟩ := gives_bind.1 h
    obtain ⟨rfl, rfl⟩ := gives_applied.1 hb
    split at h
    · obtain ⟨rfl, rfl⟩ := gives_pure.1 h
      refine .read (gives_applied.2 ⟨rfl, rfl⟩) (.read (gives_applied.2 ⟨rfl, rfl⟩) ?_)
      split
      · exact .pure hg hl
      · next htest =>
        refine .inl (refuses_incompatible hop ?_)
        rw [hk]
        rw [Bool.and_eq_true, Bool.or_eq_true, Bool.or_eq_true, not_and_or, not_or, not_or] at htest
        rcases htest with ⟨hvar, hint⟩ | ⟨hvar, hint⟩
        · exact ⟨_, List.mem_cons_self, by simpa using hvar, by
            simpa [OperatorKind.admits] using hint⟩
        · exact ⟨_, List.mem_cons_of_mem _ List.mem_cons_self, by simpa using hvar, by
            simpa [OperatorKind.admits] using hint⟩
    · exact (not_gives_incompatible h).elim
  | power =>
    rw [hk] at h
    obtain ⟨c₁, hu, h⟩ := (gives_unify_bind fun _ _ _ _ => not_gives_incompatible).1 h
    have hext := extends_unified hg.relates.free (Unifier.proper_word _) hl.proper hu
    obtain ⟨c₂, hu', h⟩ := (gives_unify_bind fun _ _ _ _ => not_gives_incompatible).1 h
    obtain ⟨rfl, rfl⟩ := gives_pure.1 h
    have hext' :=
      extends_unified hext.unifier.plain (Unifier.proper_word _) (hr.proper.later hext.unifier) hu'
    refine keepsUp_unify_bind hu (hext'.unifier.respects hθ) hg (hg.relates.matches_word _) hl
      fun d₁ g₁ hg₁ hl₁ => ?_
    refine keepsUp_unify_bind hu' hθ hg₁ (hg₁.relates.matches_word _) (hr.later hl₁)
      fun d₂ g₂ hg₂ _ => ?_
    exact .pure hg₂ (hg₂.relates.matches_word _)

/-- What a condition must be, once the bindings are followed. -/
def knownCondition (loc : Location) : Ty → Checking Unit
  | .any => return
  | .var v => unifyAt .u24 (.var v) loc
  | t => if t = .u24 || t = .bool then return else fail loc (.mismatch .u24 t)

theorem run_conditionType :
    (ExceptT.run (conditionType loc t)).run c =
      (ExceptT.run (knownCondition loc (c.unifier.apply t))).run c :=
  rfl

/-- A condition without the dynamic type is unknown and becomes a word, or is one already
or a truth value. -/
theorem gives_knownCondition {x : Unit} (ht : t.Static) : Gives (knownCondition loc t) c x c' ↔
    (∃ v, t = .var v ∧ Unified .u24 (.var v) c c') ∨ (t = .u24 ∨ t = .bool) ∧ c' = c := by
  cases t with
  | any => exact absurd rfl ht.ne_any
  | var v => simp [knownCondition, gives_unifyAt, Ty.u24, Ty.bool]
  | word | none | named | func | tuple =>
    unfold knownCondition
    dsimp only
    split
    · next htest =>
      rw [Bool.or_eq_true, decide_eq_true_eq, decide_eq_true_eq] at htest
      simp [gives_pure, htest]
    · next htest =>
      rw [Bool.or_eq_true, decide_eq_true_eq, decide_eq_true_eq] at htest
      simp [not_gives_fail, htest]

theorem extends_conditionType {x : Unit} (hc : c.unifier.Plain) (ht : c.unifier.Proper t)
    (h : Gives (conditionType loc t) c x c') : c.Extends c' := by
  rcases (gives_knownCondition ht.clear).1 (run_conditionType.symm.trans h) with
    ⟨v, hv, hu⟩ | ⟨-, rfl⟩
  · exact extends_unified hc (Unifier.proper_word _) (hv ▸ ht.applied hc) hu
  · exact .refl hc

theorem keepsUp_conditionType {x : Unit} (ht : g.Matches c.unifier d.unifier t t')
    (h : Gives (conditionType loc t) c x c') (hθ : Subst.Respects θ c'.unifier.subst)
    (hg : g.Guides θ c d) :
    g.KeepsUp ops θ c d c' (conditionType loc t') fun _ _ _ => True := by
  have happlied := ht.applied hg.relates
  refine .congr run_conditionType ?_
  have known : ∀ {a : Ty} {c₁ : Checker} {g₁ : Guide}, (a = .u24 ∨ a = .bool) → g₁.Guides θ c₁ d →
      g₁.KeepsUp ops θ c₁ d c₁ (knownCondition loc a) fun _ _ _ => True := by
    rintro a c₁ g₁ (rfl | rfl) hg₁ <;> exact .pure hg₁ trivial
  rcases (gives_knownCondition ht.proper.clear).1 (run_conditionType.symm.trans h) with
    ⟨v, hv, hu⟩ | ⟨hword, rfl⟩
  · rw [hv] at happlied
    have hu24 : g.Matches c.unifier d.unifier .u24 .u24 := hg.relates.matches_word _
    -- The guided run may know already that the condition is a word.
    by_cases hvar : ∃ w, d.unifier.apply t' = .var w
    · obtain ⟨w, hw⟩ := hvar
      rw [hw] at happlied ⊢
      exact keepsUp_unifyAt hu hθ hg hu24 happlied loc
    · have hgoal := happlied.goal hg.relates
      rw [← hu.bind_eq hg.relates.free (Unifier.proper_word _) happlied.proper hg.relates.flexible
        hθ] at hgoal
      have hknown : d.unifier.apply t' = .u24 := by
        generalize d.unifier.apply t' = a at hgoal hvar
        cases a with
        | var w => exact absurd ⟨w, rfl⟩ hvar
        | word w => exact hgoal
        | any | none | named | func | tuple => simp [Ty.bind, Ty.u24] at hgoal
      have himage : Ty.bind g.image (.var v) = .u24 := by
        rw [← happlied.eq, hg.relates.guided.apply_apply, hknown]
      obtain ⟨hg', hlead⟩ := hu.guides hg (Unifier.proper_word _) happlied.proper himage.symm
      exact .after hlead (known (.inl hknown) hg')
  · refine known ?_ hg
    rw [ht.apply_eq hg.relates]
    rcases hword with hword | hword <;> rw [hword]
    · exact .inl rfl
    · exact .inr rfl

end Operators

/-! ### Fields -/

section Fields

variable {g : Guide} {ops : Location → Operator → Prop} {θ : String → Ty} {c c' d : Checker}
  {locals : List Frame} {t t' s : Ty} {loc : Location} {field : String}

/-- The number that selects an element of a tuple. -/
def elementIndex? (field : String) : Option Nat :=
  match Number.readInt field with
  | .ok i => if i < 0 then none else some i.toNat
  | .error _ => none

/-- The type of a field, from what is known of the type of the value. -/
def fieldOf? (G : Frame) (field : String) : Ty → Option Ty
  | .any => some .any
  | .tuple elems => (elementIndex? field).bind (elems[·]?)
  | .named n args =>
    match G.find? n with
    | some (.type s) =>
      if s.constructor?.isNone || s.params.length ≠ args.length then none
      else (s.fields.lookup field).map (·.replace (Ty.parameterMap s.params args))
    | _ => none
  | _ => none

/-- Reading a field changes nothing. -/
theorem computes_fieldType :
    Computes (fieldType loc t field) c (fieldOf? c.globals field (c.unifier.apply t)) := by
  have happlied : Computes (applied t) c (some (c.unifier.apply t)) := fun a c' => by
    rw [gives_applied, Option.some_inj, and_comm, eq_comm (a := a)]
  have hget : Computes get c (some c) := fun a c' => by
    rw [gives_get, Option.some_inj, and_comm, eq_comm (a := a)]
  rw [fieldType]
  refine Computes.bind (g := fieldOf? c.globals field) happlied fun a => ?_
  cases a with
  | any => exact computes_pure _
  | tuple elems =>
    dsimp only [fieldOf?, elementIndex?]
    cases Number.readInt field with
    | error e => exact computes_fail _ _
    | ok i =>
      dsimp only
      by_cases hi : i < 0
      · rw [if_pos hi, if_pos hi]
        exact computes_fail _ _
      · rw [if_neg hi, if_neg hi, Option.bind_some]
        cases elems[i.toNat]? with
        | none => exact computes_fail _ _
        | some e => exact computes_pure _
  | named n args =>
    refine Computes.bind (g := fun x : Checker => fieldOf? x.globals field (.named n args))
      hget fun x => ?_
    dsimp only [fieldOf?]
    rcases x.globals.find? n with _ | s
    · exact computes_fail _ _
    · cases s
      case type s =>
        dsimp only
        split
        · exact computes_fail _ _
        · cases s.fields.lookup field with
          | none => exact computes_fail _ _
          | some f => exact computes_pure _
      all_goals exact computes_fail _ _
  | word | none | var | func => exact computes_fail _ _

/-- The type of a field of a type without the dynamic one. -/
theorem fieldOf?_proper (hc : c.Proper locals) (ht : c.unifier.Proper t)
    (h : fieldOf? c.globals field t = some s) : c.unifier.Proper s := by
  cases t with
  | any => exact absurd rfl ht.clear.static.ne_any
  | tuple elems =>
    obtain ⟨i, -, hi⟩ := Option.bind_eq_some_iff.1 h
    exact Unifier.proper_tuple.1 ht s (List.mem_of_getElem? hi)
  | named n args =>
    rw [Unifier.proper_named] at ht
    rw [fieldOf?] at h
    split at h
    · next S hS =>
      split at h
      · cases h
      · next hcond =>
        simp only [Bool.or_eq_true, decide_eq_true_eq, not_or, not_not] at hcond
        obtain ⟨f, hf, rfl⟩ := Option.map_eq_some_iff.1 h
        have hmem := Subst.mem_of_lookup hf
        have htidy : (Symbol.type S).Tidy := hc.globals _ (Frame.mem_of_find? hS)
        exact Unifier.proper_replace (hc.fields n S hS _ hmem) (htidy.2.1 _ hmem) hcond.2.symm ht
    · cases h
  | word | none | var | func => cases h

/-- The guided run finds the field too, as its type is the same but for variables. -/
theorem fieldOf?_bind (hc : c.Proper locals) (ht : c.unifier.Proper t)
    (h : fieldOf? c.globals field t = some s) (f : String → Ty) :
    fieldOf? c.globals field (t.bind f) = some (s.bind f) := by
  cases t with
  | any => exact absurd rfl ht.clear.static.ne_any
  | tuple elems =>
    obtain ⟨i, hi, helem⟩ := Option.bind_eq_some_iff.1 h
    rw [Ty.bind, Ty.bindList_eq_map, fieldOf?, hi, Option.bind_some, List.getElem?_map, helem]
    rfl
  | named n args =>
    rw [Ty.bind, Ty.bindList_eq_map]
    rw [fieldOf?] at h ⊢
    split at h
    · next S hS =>
      rw [List.length_map]
      split at h
      · cases h
      · next hcond =>
        rw [if_neg hcond]
        simp only [Bool.or_eq_true, decide_eq_true_eq, not_or, not_not] at hcond
        obtain ⟨fieldType, hf, rfl⟩ := Option.map_eq_some_iff.1 h
        have htidy : (Symbol.type S).Tidy := hc.globals _ (Frame.mem_of_find? hS)
        rw [hf, Ty.Over.bind_replace (htidy.2.1 _ (Subst.mem_of_lookup hf)) hcond.2.symm]
        rfl
    · cases h
  | word | none | var | func => cases h

theorem fieldType_guided (hc : c.Proper locals) (ht : c.unifier.Proper t)
    (h : Gives (fieldType loc t field) c s c') :
    c' = c ∧ c.unifier.Proper s ∧ ∀ ⦃g : Guide⦄ ⦃θ : String → Ty⦄ ⦃d : Checker⦄ ⦃t' : Ty⦄,
      g.Guides θ c d → g.Matches c.unifier d.unifier t t' →
      g.KeepsUp ops θ c d c (fieldType loc t' field) fun g' d' s' =>
        g'.Matches c.unifier d'.unifier s s' := by
  obtain ⟨rfl, hs⟩ := (computes_fieldType s c').1 h
  have happlied := ht.applied hc.plain
  have hproper := fieldOf?_proper hc happlied hs
  refine ⟨rfl, hproper, fun g θ d t' hg ht' => ?_⟩
  have hs' := fieldOf?_bind hc happlied hs g.image
  rw [← ht'.apply_eq hg.relates, ← hg.globals] at hs'
  exact .of_gives ((computes_fieldType _ _).2 ⟨rfl, hs'⟩) hg (.refl hg.relates)
    (hg.relates.matches_bind hproper)

end Fields

/-! ### Lambdas -/

/-- What the guided run may expect: all that the free run expects, and nothing that does
not fit the goal. -/
structure Guide.Hints (g : Guide) (u w : Unifier) (expected expected' : Option Ty)
    (fits : Ty → Prop) : Prop where
  known : ∀ s ∈ expected, ∃ s' ∈ expected', g.Matches u w s s'
  proper : ∀ s' ∈ expected', w.Proper s'
  goal : ∀ s' ∈ expected', fits (s'.bind g.goal)

/-- Parameters of which those with an annotation come last, and whose annotations mean types
without the dynamic one. -/
structure ParamsFit (find : String → Option Symbol) (ps : List Param) : Prop where
  last : ps.Pairwise fun p q => p.type.isSome = true → q.type.isSome = true
  static : ∀ p ∈ ps, ∀ a ∈ p.type, ∀ t, a.meaning? find [] = some t → t.Static

/-- The expected type of a lambda, if it is known to be a function type. -/
def functionHint? : Option Ty → Option Ty
  | some (.func q r) => some (.func q r)
  | _ => none

/-- The type of a lambda's parameter, and what is expected of the rest. -/
def Checking.paramType (hint : Option Ty) (p : Param) : Checking (Ty × Option Ty) := do
  match p.type with
  | some t => do pure (← resolve [] t, hint)
  | none =>
    match ← hint.mapM applied with
    | some (.func q r) => pure (q, some r)
    | _ => do pure (← fresh, none)

theorem lambdaParams_cons (hint : Option Ty) (p : Param) (ps : List Param) :
    lambdaParams hint (p :: ps) = (do
    let (t, hint) ← paramType hint p
    let ts ← lambdaParams hint ps
    return t :: ts) := by
  rw [lambdaParams, paramType]
  cases p.type with
  | some a => simp only [bind_assoc, pure_bind]
  | none =>
    simp only [bind_assoc]
    congr 1
    funext x
    split <;> simp only [bind_assoc, pure_bind]

section Lambdas

variable {g g' : Guide} {ops : Location → Operator → Prop} {θ : String → Ty} {u u' w w' : Unifier}
  {c c' d : Checker} {locals : List Frame} {expected expected' hint hint' : Option Ty}
  {fits fits' : Ty → Prop} {t t' : Ty}

theorem Guide.Hints.none : g.Hints u w none none fits := ⟨by simp, by simp, by simp⟩

theorem Guide.Hints.imp (h : g.Hints u w expected expected' fits) (himp : ∀ s, fits s → fits' s) :
    g.Hints u w expected expected' fits' :=
  ⟨h.known, h.proper, fun s' hs' => himp _ (h.goal s' hs')⟩

theorem computes_lambdaHint :
    Computes (lambdaHint expected) c (some (functionHint? (expected.map c.unifier.apply))) := by
  have happlied : Computes (expected.mapM applied) c (some (expected.map c.unifier.apply)) :=
    fun a c' => by
    rw [gives_mapM_applied, Option.some_inj, and_comm, eq_comm (a := a)]
  rw [lambdaHint]
  refine Computes.bind (g := fun s => some (functionHint? s)) happlied fun s => ?_
  cases s with
  | none => exact computes_pure _
  | some s => cases s <;> exact computes_pure _

theorem functionHint?_eq_some {x : Option Ty} {s : Ty} :
    functionHint? x = some s ↔ x = some s ∧ ∃ q r, s = .func q r := by
  unfold functionHint?
  split
  · next q r =>
    constructor
    · rintro ⟨⟩
      exact ⟨rfl, q, r, rfl⟩
    · rintro ⟨h, -⟩
      exact h
  · next hne =>
    constructor
    · intro h
      cases h
    · rintro ⟨rfl, q, r, rfl⟩
      exact (hne q r rfl).elim

/-- Where the free run expects a function, so does the guided one. -/
theorem lambdaHint_guided (hc : c.unifier.Plain) (hexpected : ∀ s ∈ expected, c.unifier.Proper s)
    (h : Gives (lambdaHint expected) c hint c') : c' = c ∧ (∀ s ∈ hint, c.unifier.Proper s) ∧
      ∀ ⦃g : Guide⦄ ⦃θ : String → Ty⦄ ⦃d : Checker⦄ ⦃expected' : Option Ty⦄ ⦃fits : Ty → Prop⦄,
        g.Guides θ c d → g.Hints c.unifier d.unifier expected expected' fits →
          ∃ hint', Gives (lambdaHint expected') d hint' d ∧
            g.Hints c.unifier d.unifier hint hint' fits := by
  obtain ⟨rfl, hhint⟩ := (computes_lambdaHint hint c').1 h
  rw [Option.some_inj] at hhint
  subst hhint
  refine ⟨rfl, fun s hs => ?_, fun g θ d expected' fits hg hh => ?_⟩
  · obtain ⟨hs, -⟩ := functionHint?_eq_some.1 hs
    obtain ⟨s₀, hs₀, rfl⟩ := Option.map_eq_some_iff.1 hs
    exact (hexpected s₀ hs₀).applied hc
  · refine ⟨_, (computes_lambdaHint _ _).2 ⟨rfl, rfl⟩, fun s hs => ?_, fun s' hs' => ?_,
      fun s' hs' => ?_⟩
    · obtain ⟨hs, q, r, hfunc⟩ := functionHint?_eq_some.1 hs
      obtain ⟨s₀, hs₀, rfl⟩ := Option.map_eq_some_iff.1 hs
      obtain ⟨s₀', hs₀', hmatch⟩ := hh.known s₀ hs₀
      have happly := hmatch.apply_eq hg.relates
      rw [hfunc] at happly
      exact ⟨_, functionHint?_eq_some.2 ⟨Option.map_eq_some_iff.2 ⟨s₀', hs₀', rfl⟩, _, _, happly⟩,
        hmatch.applied hg.relates⟩
    · obtain ⟨hs', -⟩ := functionHint?_eq_some.1 hs'
      obtain ⟨s₀', hs₀', rfl⟩ := Option.map_eq_some_iff.1 hs'
      exact (hh.proper s₀' hs₀').applied hg.relates.guided
    · obtain ⟨hs', -⟩ := functionHint?_eq_some.1 hs'
      obtain ⟨s₀', hs₀', rfl⟩ := Option.map_eq_some_iff.1 hs'
      rw [hg.relates.guided.bind_apply hg.relates.goal_respects]
      exact hh.goal s₀' hs₀'

/-- The three ways in which a parameter gets its type. -/
theorem gives_paramType {p : Param} : Gives (paramType hint p) c (t, hint') c' ↔
    (∃ a, p.type = some a ∧ a.meaning? (c.find? []) [] = some t ∧ hint' = hint ∧ c' = c) ∨
      p.type = none ∧
        ((∃ r, hint.map c.unifier.apply = some (.func t r) ∧ hint' = some r ∧ c' = c) ∨
          (∀ q r, hint.map c.unifier.apply ≠ some (.func q r)) ∧ hint' = none ∧
            Gives fresh c t c') := by
  rw [paramType]
  cases p.type with
  | some a =>
    dsimp only
    rw [gives_bind]
    simp only [computes_resolve _ _ _ _, gives_pure, Prod.mk.injEq]
    constructor
    · rintro ⟨t', c₁, ⟨rfl, ht⟩, ⟨rfl, rfl⟩, rfl⟩
      exact .inl ⟨a, rfl, ht, rfl, rfl⟩
    · rintro (⟨a', ha, ht, rfl, rfl⟩ | ⟨hnone, -⟩)
      · cases ha
        exact ⟨t, c', ⟨rfl, ht⟩, ⟨rfl, rfl⟩, rfl⟩
      · cases hnone
  | none =>
    dsimp only
    rw [gives_bind]
    constructor
    · rintro ⟨a, c₁, ha, h⟩
      obtain ⟨rfl, rfl⟩ := gives_mapM_applied.1 ha
      refine .inr ⟨rfl, ?_⟩
      split at h
      · next q r heq =>
        obtain ⟨⟨⟩, rfl⟩ := gives_pure.1 h
        exact .inl ⟨r, heq, rfl, rfl⟩
      · next hne =>
        obtain ⟨t', c₂, ht', h⟩ := gives_bind.1 h
        obtain ⟨⟨⟩, rfl⟩ := gives_pure.1 h
        exact .inr ⟨fun q r heq => hne q r heq, rfl, ht'⟩
    · rintro (⟨a, ⟨⟩, -⟩ | ⟨-, ⟨r, heq, rfl, rfl⟩ | ⟨hne, rfl, ht⟩⟩)
      · refine ⟨_, c', gives_mapM_applied.2 ⟨rfl, rfl⟩, ?_⟩
        rw [heq]
        exact gives_pure.2 ⟨rfl, rfl⟩
      · refine ⟨_, c, gives_mapM_applied.2 ⟨rfl, rfl⟩, ?_⟩
        split
        · next q r heq => exact (hne q r heq).elim
        · exact gives_bind.2 ⟨t, c', ht, gives_pure.2 ⟨rfl, rfl⟩⟩

/-- A parameter without an annotation gets a fresh variable in the free run where the guided run
may know its type. -/
theorem paramType_guided {p : Param} (hc : c.Proper locals)
    (hstatic : ∀ a ∈ p.type, ∀ t, a.meaning? (c.find? []) [] = some t → t.Static)
    (hhint : ∀ s ∈ hint, c.unifier.Proper s) (h : Gives (paramType hint p) c (t, hint') c') :
    c.Extends c' ∧ c'.unifier.Proper t ∧ (∀ s ∈ hint', c'.unifier.Proper s) ∧
      ∀ ⦃g : Guide⦄ ⦃θ : String → Ty⦄ ⦃d : Checker⦄ ⦃known : Option Ty⦄ ⦃fits fits' : Ty → Prop⦄,
        g.Guides θ c d → g.Hints c.unifier d.unifier hint known fits →
          (p.type.isSome = true → ∀ s, fits s → fits' s) →
            (p.type = none → ∀ q r, fits (.func q r) → q = t.bind θ ∧ fits' r) →
            g.KeepsUp ops θ c d c' (paramType known p) fun g' d' x =>
              g'.Matches c'.unifier d'.unifier t x.1 ∧
                g'.Hints c'.unifier d'.unifier hint' x.2 fits' := by
  rcases gives_paramType.1 h with
    ⟨a, ha, hmeaning, rfl, rfl⟩ | ⟨hnone, ⟨r, hr, rfl, rfl⟩ | ⟨hne, rfl, ht⟩⟩
  · -- An annotation means the same in both runs.
    have hstatic := hstatic a ha t hmeaning
    have hground : t.Ground :=
      (resolve_ground hc.globals ((computes_resolve [] a _ _).2 ⟨rfl, hmeaning⟩)).2
    refine ⟨.refl hc.plain, Unifier.proper_of_ground hstatic hground, hhint,
      fun g θ d known fits fits' hg hh hsome _ => ?_⟩
    refine .of_gives (gives_paramType.2 (.inl ⟨a, ha, ?_, rfl, rfl⟩)) hg (.refl hg.relates)
      ⟨hg.relates.matches_ground hstatic hground, hh.imp (hsome (by rw [ha]; rfl))⟩
    rw [hg.find?_eq]
    exact hmeaning
  · -- What the free run expects the guided one expects too.
    obtain ⟨s, hs, happly⟩ := Option.map_eq_some_iff.1 hr
    have hfunc : c'.unifier.Proper (.func t r) := happly ▸ (hhint s hs).applied hc.plain
    rw [Unifier.proper_func] at hfunc
    refine ⟨.refl hc.plain, hfunc.1, by simpa using hfunc.2,
      fun g θ d known fits fits' hg hh _ hfits => ?_⟩
    obtain ⟨s', hs', hmatch⟩ := hh.known s hs
    have happly' := hmatch.apply_eq hg.relates
    rw [happly] at happly'
    have hr' := hg.relates.matches_bind hfunc.2
    refine .of_gives
      (gives_paramType.2
        (.inr ⟨hnone, .inl ⟨_, Option.map_eq_some_iff.2 ⟨s', hs', happly'⟩, rfl, rfl⟩⟩)) hg
      (.refl hg.relates) ⟨hg.relates.matches_bind hfunc.1, ?_, ?_, ?_⟩
    · rintro _ ⟨⟩
      exact ⟨_, rfl, hr'⟩
    · rintro _ ⟨⟩
      exact hr'.proper' hg.relates
    · rintro _ ⟨⟩
      have hgoal := hh.goal s' hs'
      rw [← hg.relates.guided.bind_apply hg.relates.goal_respects, happly'] at hgoal
      exact (hfits hnone _ _ hgoal).2
  · -- The free run makes a variable; the guided one may know a type that it will stand for.
    obtain ⟨hext, hproper⟩ := extends_fresh hc.plain ht
    refine ⟨hext, hproper, by simp, fun g θ d known fits fits' hg hh _ hfits => ?_⟩
    by_cases hknown : ∃ q r, known.map d.unifier.apply = some (.func q r)
    · obtain ⟨q, r, hqr⟩ := hknown
      obtain ⟨s', hs', happly⟩ := Option.map_eq_some_iff.1 hqr
      have hfunc : d.unifier.Proper (.func q r) :=
        happly ▸ (hh.proper s' hs').applied hg.relates.guided
      rw [Unifier.proper_func] at hfunc
      have hgoal := hh.goal s' hs'
      rw [← hg.relates.guided.bind_apply hg.relates.goal_respects, happly] at hgoal
      obtain ⟨hq, hr⟩ := hfits hnone _ _ hgoal
      obtain ⟨g', hg', hlead, hmatch⟩ := guides_fresh_for ht hg hfunc.1 hq
      refine .of_gives (gives_paramType.2 (.inr ⟨hnone, .inl ⟨r, hqr, rfl, rfl⟩⟩)) hg' hlead
        ⟨hmatch, by simp, ?_, ?_⟩
      · rintro _ ⟨⟩
        exact hfunc.2
      · rintro _ ⟨⟩
        rw [hlead.bind_goal hfunc.2.past]
        exact hr
    · obtain ⟨rfl, rfl⟩ := gives_fresh.1 ht
      obtain ⟨g', hrel, hlead, hmatch⟩ := hg.relates.fresh
      have hfresh :=
        gives_paramType.2
          (.inr ⟨hnone, .inr ⟨fun q r h => hknown ⟨q, r, h⟩, rfl, gives_fresh.2 ⟨rfl, rfl⟩⟩⟩)
      exact .of_gives hfresh ⟨hrel, hg.globals, hg.path⟩ hlead ⟨hmatch, .none⟩

theorem ParamsFit.tail {find : String → Option Symbol} {p : Param} {ps : List Param}
    (h : ParamsFit find (p :: ps)) : ParamsFit find ps :=
  ⟨(List.pairwise_cons.1 h.last).2, fun q hq => h.static q (List.mem_cons_of_mem _ hq)⟩

/-- A function type that gives parameters their types, if there is one without an annotation. -/
def SuitsParams (ps : List Param) (ts : List Ty) (s : Ty) : Prop :=
  (∀ p ∈ ps, p.type.isSome = true) ∨ ∃ r, s = Ty.curry ts r

/-- After an annotated parameter there are only annotated ones. -/
theorem ParamsFit.suits {find : String → Option Symbol} {p : Param} {ps : List Param}
    (h : ParamsFit find (p :: ps)) (hp : p.type.isSome = true) (ts : List Ty) (s : Ty) :
    SuitsParams ps ts s :=
  .inl fun q hq => (List.pairwise_cons.1 h.last).1 q hq hp

/-- A parameter without an annotation takes the first parameter of the function type. -/
theorem SuitsParams.of_none {p : Param} {ps : List Param} {t q r : Ty} {ts : List Ty}
    (h : SuitsParams (p :: ps) (t :: ts) (.func q r)) (hp : p.type = none) :
    q = t ∧ SuitsParams ps ts r := by
  rcases h with hall | ⟨r', hr'⟩
  · have hsome := hall p List.mem_cons_self
    simp [hp] at hsome
  · obtain ⟨rfl, rfl⟩ := Ty.func.inj (show Ty.func q r = .func t (Ty.curry ts r') from hr')
    exact ⟨rfl, .inr ⟨r', rfl⟩⟩

/-- The guided run takes the types of parameters from a function type that heads for the same
solution as theirs. -/
theorem lambdaParams_guided {ps : List Param} {ts : List Ty} (hc : c.Proper locals)
    (hps : ParamsFit (c.find? []) ps) (hhint : ∀ s ∈ hint, c.unifier.Proper s)
    (h : Gives (lambdaParams hint ps) c ts c') : c.Extends c' ∧ (∀ t ∈ ts, c'.unifier.Proper t) ∧
      ∀ ⦃g : Guide⦄ ⦃θ : String → Ty⦄ ⦃d : Checker⦄ ⦃known : Option Ty⦄, g.Guides θ c d →
        g.Hints c.unifier d.unifier hint known (SuitsParams ps (ts.map (Ty.bind θ))) →
          g.KeepsUp ops θ c d c' (lambdaParams known ps) fun g' d' ts' =>
            List.Forall₂ (g'.Matches c'.unifier d'.unifier) ts ts' := by
  induction ps generalizing hint c ts with
  | nil =>
    rw [lambdaParams] at h
    obtain ⟨rfl, rfl⟩ := gives_pure.1 h
    refine ⟨.refl hc.plain, by simp, fun g θ d known hg _ => ?_⟩
    rw [lambdaParams]
    exact .pure hg .nil
  | cons p ps ih =>
    rw [lambdaParams_cons] at h
    obtain ⟨⟨t, hint₁⟩, c₁, ht, h⟩ := gives_bind.1 h
    obtain ⟨ts, c₂, hts, h⟩ := gives_bind.1 h
    obtain ⟨rfl, rfl⟩ := gives_pure.1 h
    obtain ⟨hext, hproper, hhint₁, hkeeps⟩ :=
      paramType_guided hc (hps.static p List.mem_cons_self) hhint ht
    obtain ⟨hexts, hpropers, hkeepsAll⟩ :=
      ih (hc.later hext) (by rw [hext.find?_eq]; exact hps.tail) hhint₁ hts
    refine ⟨hext.trans hexts, List.forall_mem_cons.2 ⟨hproper.later hexts.unifier, hpropers⟩,
      fun g θ d known hg hh => ?_⟩
    rw [lambdaParams_cons]
    refine (hkeeps hg hh (fun hp s _ => hps.suits hp (ts.map (Ty.bind θ)) s) fun hp q r hqr =>
      hqr.of_none hp).bind ?_
    rintro ⟨t', known₁⟩ d₁ g₁ hg₁ hl₁ ⟨hmatch, hh₁⟩
    refine (hkeepsAll hg₁ hh₁).bind fun ts' d₂ g₂ hg₂ hl₂ hts' => ?_
    exact .pure hg₂ (.cons (hmatch.later hl₂) hts')

end Lambdas

/-- The field names of the constructor that an expression names. -/
def Checker.calledFields (c : Checker) (locals : List Frame) : Expr → List String
  | .var _ n => (((c.find? locals n).bind Symbol.constructor?).map (·.fields)).getD []
  | _ => []

theorem computes_calledFields {c : Checker} {locals : List Frame} {f : Expr} :
    Computes (calledFields locals f) c (some (c.calledFields locals f)) := by
  cases f with
  | var loc n =>
    rw [Checking.calledFields]
    refine Computes.bind
      (g := fun s? => some (((s?.bind Symbol.constructor?).map (·.fields)).getD []))
      (computes_find? locals n) fun s? => ?_
    cases s? <;> exact computes_pure _
  | _ => exact computes_pure _

/-- Both runs find the same field names. -/
theorem calledFields_guided {c c' : Checker} {locals : List Frame} {f : Expr} {fields : List String}
    (h : Gives (calledFields locals f) c fields c') : c' = c ∧
      ∀ ⦃g : Guide⦄ ⦃θ : String → Ty⦄ ⦃d : Checker⦄ ⦃locals' : List Frame⦄, g.Guides θ c d →
        g.Frames c d locals locals' → Gives (calledFields locals' f) d fields d := by
  obtain ⟨rfl, hfields⟩ := (computes_calledFields fields c').1 h
  refine ⟨rfl, fun g θ d locals' hg hf => (computes_calledFields fields d).2 ⟨rfl, ?_⟩⟩
  rw [← hfields, Option.some_inj]
  unfold Checker.calledFields
  split
  · next _ n =>
    have hfound := hf.find? hg n
    generalize c'.find? locals n = s? at hfound ⊢
    generalize d.find? locals' n = s'? at hfound ⊢
    cases hfound with
    | none => rfl
    | some hsymbols => rw [Option.bind_some, Option.bind_some, hsymbols.constructor]
  · rfl

end FunRiscv
