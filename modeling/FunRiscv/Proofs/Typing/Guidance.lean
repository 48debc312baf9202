import Mathlib
import FunRiscv.Proofs.Typing.GuidedSteps

/-!
# Inference under guidance

* `Led`: what inferring an expression did in a free run, and that a guided run keeps up.
* `Followed`: it always does. `Followed.call`, `Followed.lambda` and others: one lemma for
  each kind of expression.
* `followed_expr`: it holds for every expression whose lambdas have their annotated parameters last,
  by induction over expressions and patterns.
* `expectType_of_infer`: what can be inferred and then unified with a type can be inferred under
  that type, unless an operator refuses its operands.
-/

namespace FunRiscv

open Checking

/-! ### What guided runs do -/

/-- A checker with some table of names, and local frames, in which every type at hand is proper. -/
structure Checker.Stage (c : Checker) (find : String → Option Symbol) (locals : List Frame) :
    Prop where
  proper : c.Proper locals
  find : c.find? [] = find

/-- Checkers and local frames of a free and a guided run. -/
structure Guide.Stage (g : Guide) (θ : String → Ty) (c d : Checker) (locals locals' : List Frame) :
    Prop where
  guides : g.Guides θ c d
  frames : g.Frames c d locals locals'

/-- The expression of number `i` was inferred, and a run that is guided by more than the
expected type keeps up. -/
structure Led (ops : Location → Operator → Prop) (locals : List Frame) (i : Nat)
    (expected : Option Ty) (e : Expr) (c : Checker) (t : Ty) (c' : Checker) : Prop where
  later : c.Extends c'
  proper : c'.unifier.Proper t
  follow : ∀ ⦃g : Guide⦄ ⦃θ : String → Ty⦄ ⦃d : Checker⦄ ⦃locals' : List Frame⦄
    ⦃expected' : Option Ty⦄,
    Subst.Respects θ c'.unifier.subst → g.Stage θ c d locals locals' →
      g.Hints c.unifier d.unifier expected expected' (· = t.bind θ) →
        g.KeepsUp ops θ c d c' (infer locals' i expected' e) fun g' d' t' =>
          g'.Matches c'.unifier d'.unifier t t'

/-- Whenever an expression is inferred, guided runs keep up. -/
def Followed (find : String → Option Symbol) (ops : Location → Operator → Prop) (e : Expr) : Prop :=
  ∀ ⦃locals : List Frame⦄ ⦃i : Nat⦄ ⦃expected : Option Ty⦄ ⦃c c' : Checker⦄ ⦃t : Ty⦄,
    c.Stage find locals → (∀ s ∈ expected, c.unifier.Proper s) →
      Gives (infer locals i expected e) c t c' → Led ops locals i expected e c t c'

/-- A pattern was bound, and a guided run keeps up. -/
structure LedPattern (ops : Location → Operator → Prop) (locals : List Frame) (i : Nat) (t : Ty)
    (p : Pattern) (c : Checker) (inner : List Frame) (c' : Checker) : Prop where
  later : c.Extends c'
  proper : c'.Proper inner
  follow : ∀ ⦃g : Guide⦄ ⦃θ : String → Ty⦄ ⦃d : Checker⦄ ⦃locals' : List Frame⦄ ⦃t' : Ty⦄,
    Subst.Respects θ c'.unifier.subst → g.Stage θ c d locals locals' →
      g.Matches c.unifier d.unifier t t' →
      g.KeepsUp ops θ c d c' (bindPattern locals' i t' p) fun g' d' inner' =>
        g'.Frames c' d' inner inner'

/-- Whenever a pattern is bound, guided runs keep up. -/
def FollowedPattern (find : String → Option Symbol) (ops : Location → Operator → Prop)
    (p : Pattern) : Prop :=
  ∀ ⦃locals inner : List Frame⦄ ⦃i : Nat⦄ ⦃c c' : Checker⦄ ⦃t : Ty⦄, c.Stage find locals →
    c.unifier.Proper t → Gives (bindPattern locals i t p) c inner c' →
    LedPattern ops locals i t p c inner c'

section Expressions

variable {find : String → Option Symbol} {ops : Location → Operator → Prop}
  {locals locals' inner : List Frame} {i : Nat} {expected : Option Ty} {e : Expr}
  {c c' c₁ d d' : Checker} {t t' s s' : Ty} {g g' : Guide} {θ : String → Ty} {loc : Location}

theorem Checker.Stage.plain (hc : c.Stage find locals) : c.unifier.Plain := hc.proper.plain

theorem Checker.Stage.later (hc : c.Stage find locals) (h : c.Extends c') : c'.Stage find locals :=
  ⟨hc.proper.later h, (h.find?_eq []).trans hc.find⟩

theorem Guide.Stage.later (hg : g.Stage θ c d locals locals') (h : c.Extends c')
    (hg' : g'.Guides θ c' d') (hl : g.Leads c.unifier d.unifier g' c'.unifier d'.unifier) :
    g'.Stage θ c' d' locals locals' :=
  ⟨hg', hg.frames.later h hg.guides hg' hl⟩

/-- Without an expected type. -/
theorem Followed.free (h : Followed find ops e) (hc : c.Stage find locals)
    (hrun : Gives (infer locals i none e) c t c') : Led ops locals i none e c t c' :=
  h hc (by simp) hrun

theorem Led.free (h : Led ops locals i none e c t c') (hθ : Subst.Respects θ c'.unifier.subst)
    (hg : g.Stage θ c d locals locals') :
    g.KeepsUp ops θ c d c' (infer locals' i none e) fun g' d' t' =>
      g'.Matches c'.unifier d'.unifier t t' := h.follow hθ hg .none

theorem gives_recorded {r : Ty} : Gives (do
    record i t
    return t) c r c' ↔ r = t ∧ c' = c.record i t := by
  rw [gives_bind]
  constructor
  · rintro ⟨x, c₁, hx, h⟩
    obtain rfl := gives_record.1 hx
    exact gives_pure.1 h
  · rintro ⟨rfl, rfl⟩
    exact ⟨⟨⟩, _, gives_record.2 rfl, gives_pure.2 ⟨rfl, rfl⟩⟩

/-- An expression that is inferred under an expected type and unified with it. -/
theorem Followed.expecting (he : Followed find ops e) (hc : c.Stage find locals)
    (hs : c.unifier.Proper s) {x : Unit} (h : Gives (expectType locals i s e) c x c') :
    c.Extends c' ∧
      ∀ ⦃g : Guide⦄ ⦃θ : String → Ty⦄ ⦃d : Checker⦄ ⦃locals' : List Frame⦄ ⦃s' : Ty⦄,
        Subst.Respects θ c'.unifier.subst → g.Stage θ c d locals locals' →
          g.Matches c.unifier d.unifier s s' →
          g.KeepsUp ops θ c d c' (expectType locals' i s' e) fun _ _ _ => True := by
  rw [expectType] at h
  obtain ⟨found, c₁, hfound, h⟩ := gives_bind.1 h
  have hunified := gives_unifyAt.1 h
  have hled := he hc (by simpa using hs) hfound
  have hs₁ := hs.later hled.later.unifier
  have hext := extends_unified hled.later.unifier.plain hs₁ hled.proper hunified
  refine ⟨hled.later.trans hext, fun g θ d locals' s' hθ hg hs' => ?_⟩
  -- What is found has the same solution as what is expected, since the free run unifies them.
  have hsame :=
    hunified.bind_eq hled.later.unifier.plain hs₁ hled.proper hg.guides.relates.flexible hθ
  have hhints : g.Hints c.unifier d.unifier (some s) (some s') (· = found.bind θ) := by
    refine ⟨?_, ?_, ?_⟩
    · rintro _ ⟨⟩
      exact ⟨s', rfl, hs'⟩
    · rintro _ ⟨⟩
      exact hs'.proper' hg.guides.relates
    · rintro _ ⟨⟩
      exact (hs'.goal hg.guides.relates).trans hsame
  rw [expectType]
  refine (hled.follow (hext.unifier.respects hθ) hg hhints).bind fun found' d₁ g₁ hg₁ hl₁ hfound' =>
    ?_
  exact keepsUp_unifyAt hunified hθ hg₁ (hs'.later hl₁) hfound' _

/-- A literal. -/
theorem Followed.literal (he : e.literalType? = some t) (hstatic : t.Static) :
    Followed find ops e := by
  intro locals i expected c c' r hc _ h
  rw [infer_literal he] at h
  obtain ⟨rfl, rfl⟩ := gives_recorded.1 h
  have hground := literalType?_ground he
  refine ⟨(Checker.Extends.refl hc.plain).recorded _ _, Unifier.proper_of_ground hstatic hground,
    fun g θ d locals' expected' _ hg _ => ?_⟩
  rw [infer_literal he]
  exact keepsUp_recorded i hg.guides (hg.guides.relates.matches_ground hstatic hground)

theorem Followed.eraser : Followed find ops (.eraser loc) := by
  intro locals i expected c c' r hc _ h
  rw [infer] at h
  obtain ⟨t, c₁, ht, h⟩ := gives_bind.1 h
  obtain ⟨rfl, rfl⟩ := gives_recorded.1 h
  obtain ⟨hext, hproper⟩ := extends_fresh hc.plain ht
  refine ⟨hext.recorded _ _, hproper, fun g θ d locals' expected' _ hg _ => ?_⟩
  rw [infer]
  exact (keepsUp_fresh ht hg.guides).bind fun t' d₁ g₁ hg₁ _ ht' => keepsUp_recorded i hg₁ ht'

theorem Followed.var {n : String} : Followed find ops (.var loc n) := by
  intro locals i expected c c' r hc _ h
  rw [infer] at h
  obtain ⟨t, c₁, ht, h⟩ := gives_bind.1 h
  obtain ⟨rfl, rfl⟩ := gives_recorded.1 h
  obtain ⟨hext, hproper, hkeeps⟩ := inferVar_guided hc.proper ht
  refine ⟨hext.recorded _ _, hproper, fun g θ d locals' expected' _ hg _ => ?_⟩
  rw [infer]
  exact (hkeeps hg.guides hg.frames).bind fun t' d₁ g₁ hg₁ _ ht' => keepsUp_recorded i hg₁ ht'

/-! ### Lists of expressions -/

theorem inferList_guided {es : List Expr} (hes : ∀ e ∈ es, Followed find ops e) {ts : List Ty}
    (hc : c.Stage find locals) (h : Gives (inferList locals i es) c ts c') :
    c.Extends c' ∧ (∀ t ∈ ts, c'.unifier.Proper t) ∧ ∀ ⦃g : Guide⦄ ⦃θ : String → Ty⦄ ⦃d : Checker⦄
      ⦃locals' : List Frame⦄, Subst.Respects θ c'.unifier.subst → g.Stage θ c d locals locals' →
        g.KeepsUp ops θ c d c' (inferList locals' i es) fun g' d' ts' =>
          List.Forall₂ (g'.Matches c'.unifier d'.unifier) ts ts' := by
  induction es generalizing i c ts with
  | nil =>
    rw [inferList] at h
    obtain ⟨rfl, rfl⟩ := gives_pure.1 h
    refine ⟨.refl hc.plain, by simp, fun g θ d locals' _ hg => ?_⟩
    rw [inferList]
    exact .pure hg.guides .nil
  | cons e es ih =>
    rw [List.forall_mem_cons] at hes
    rw [inferList] at h
    obtain ⟨t, c₁, ht, h⟩ := gives_bind.1 h
    obtain ⟨ts, c₂, hts, h⟩ := gives_bind.1 h
    obtain ⟨rfl, rfl⟩ := gives_pure.1 h
    have hled := hes.1.free hc ht
    obtain ⟨hext, hpropers, hkeeps⟩ := ih hes.2 (hc.later hled.later) hts
    refine ⟨hled.later.trans hext, List.forall_mem_cons.2 ⟨hled.proper.later hext.unifier,
      hpropers⟩, fun g θ d locals' hθ hg => ?_⟩
    rw [inferList]
    refine (hled.free (hext.unifier.respects hθ) hg).bind fun t' d₁ g₁ hg₁ hl₁ ht' => ?_
    refine (hkeeps hθ (hg.later hled.later hg₁ hl₁)).bind fun ts' d₂ g₂ hg₂ hl₂ hts' => ?_
    exact .pure hg₂ (.cons (ht'.later hl₂) hts')

theorem expectAll_cons (locals : List Frame) (i : Nat) (t : Ty) (e : Expr) (es : List Expr) :
    expectAll locals i t (e :: es) = (do
      expectType locals i t e
      expectAll locals (i + e.nodeCount) t es) := by
  rw [expectAll, expectType, bind_assoc]

theorem expectAll_guided {es : List Expr} (hes : ∀ e ∈ es, Followed find ops e) {x : Unit}
    (hc : c.Stage find locals) (ht : c.unifier.Proper t)
    (h : Gives (expectAll locals i t es) c x c') :
    c.Extends c' ∧ ∀ ⦃g : Guide⦄ ⦃θ : String → Ty⦄ ⦃d : Checker⦄ ⦃locals' : List Frame⦄ ⦃t' : Ty⦄,
      Subst.Respects θ c'.unifier.subst → g.Stage θ c d locals locals' →
          g.Matches c.unifier d.unifier t t' →
          g.KeepsUp ops θ c d c' (expectAll locals' i t' es) fun _ _ _ => True := by
  induction es generalizing i c with
  | nil =>
    rw [expectAll] at h
    obtain ⟨-, rfl⟩ := gives_pure.1 h
    refine ⟨.refl hc.plain, fun g θ d locals' t' _ hg _ => ?_⟩
    rw [expectAll]
    exact .pure hg.guides trivial
  | cons e es ih =>
    rw [List.forall_mem_cons] at hes
    rw [expectAll_cons] at h
    obtain ⟨y, c₁, hy, h⟩ := gives_bind.1 h
    obtain ⟨hext, hkeeps⟩ := hes.1.expecting hc ht hy
    obtain ⟨hext', hkeeps'⟩ := ih hes.2 (hc.later hext) (ht.later hext.unifier) h
    refine ⟨hext.trans hext', fun g θ d locals' t' hθ hg ht' => ?_⟩
    rw [expectAll_cons]
    refine (hkeeps (hext'.unifier.respects hθ) hg ht').bind fun _ d₁ g₁ hg₁ hl₁ _ => ?_
    exact hkeeps' hθ (hg.later hext hg₁ hl₁) (ht'.later hl₁)

theorem Followed.tuple {es : List Expr} (hes : ∀ e ∈ es, Followed find ops e) :
    Followed find ops (.tuple loc es) := by
  intro locals i expected c c' r hc _ h
  rw [infer] at h
  obtain ⟨ts, c₁, hts, h⟩ := gives_bind.1 h
  obtain ⟨rfl, rfl⟩ := gives_recorded.1 h
  obtain ⟨hext, hpropers, hkeeps⟩ := inferList_guided hes hc hts
  refine ⟨hext.recorded _ _, Unifier.proper_tuple.2 hpropers, fun g θ d locals' expected' hθ hg _ =>
    ?_⟩
  rw [infer]
  exact (hkeeps hθ hg).bind fun ts' d₁ g₁ hg₁ _ hts' => keepsUp_recorded i hg₁ (.tuple hts')

theorem Followed.list {es : List Expr} (hes : ∀ e ∈ es, Followed find ops e) :
    Followed find ops (.list loc es) := by
  intro locals i expected c c' r hc _ h
  have hlist : ∀ {u : Unifier} {t : Ty}, u.Proper t → u.Proper (.listOf t) :=
    fun ht => Unifier.proper_named.2 (by simpa using ht)
  have hlists : ∀ {g : Guide} {u w : Unifier} {t t' : Ty}, g.Matches u w t t' →
    g.Matches u w (.listOf t) (.listOf t') := fun ht =>
    .named (.cons ht .nil)
  cases es with
  | nil =>
    rw [infer] at h
    obtain ⟨t, c₁, ht, h⟩ := gives_bind.1 h
    obtain ⟨rfl, rfl⟩ := gives_recorded.1 h
    obtain ⟨hext, hproper⟩ := extends_fresh hc.plain ht
    refine ⟨hext.recorded _ _, hlist hproper, fun g θ d locals' expected' _ hg _ => ?_⟩
    rw [infer]
    exact (keepsUp_fresh ht hg.guides).bind fun t' d₁ g₁ hg₁ _ ht' =>
      keepsUp_recorded i hg₁ (hlists ht')
  | cons e es =>
    rw [List.forall_mem_cons] at hes
    rw [infer] at h
    obtain ⟨first, c₁, hfirst, h⟩ := gives_bind.1 h
    obtain ⟨x, c₂, hx, h⟩ := gives_bind.1 h
    obtain ⟨rfl, rfl⟩ := gives_recorded.1 h
    have hled := hes.1.free hc hfirst
    obtain ⟨hext, hkeeps⟩ := expectAll_guided hes.2 (hc.later hled.later) hled.proper hx
    refine ⟨(hled.later.trans hext).recorded _ _, hlist (hled.proper.later hext.unifier),
      fun g θ d locals' expected' hθ hg _ => ?_⟩
    rw [infer]
    refine (hled.free (hext.unifier.respects hθ) hg).bind fun t' d₁ g₁ hg₁ hl₁ ht' => ?_
    refine (hkeeps hθ (hg.later hled.later hg₁ hl₁) ht').bind fun _ d₂ g₂ hg₂ hl₂ _ => ?_
    exact keepsUp_recorded i hg₂ (hlists (ht'.later hl₂))

/-! ### Operations, branches and fields -/

theorem Followed.binOp {op : Operator} {l r : Expr} (hop : ops loc op) (hl : Followed find ops l)
    (hr : Followed find ops r) : Followed find ops (.binOp loc op l r) := by
  intro locals i expected c c' t hc _ h
  rw [infer] at h
  obtain ⟨a, c₁, ha, h⟩ := gives_bind.1 h
  obtain ⟨b, c₂, hb, h⟩ := gives_bind.1 h
  obtain ⟨s, c₃, hs, h⟩ := gives_bind.1 h
  obtain ⟨rfl, rfl⟩ := gives_recorded.1 h
  have hled := hl.free hc ha
  have hled' := hr.free (hc.later hled.later) hb
  obtain ⟨hext, hproper⟩ :=
    extends_operationType hled'.later.unifier.plain (hled.proper.later hled'.later.unifier)
      hled'.proper hs
  refine ⟨(hled.later.trans (hled'.later.trans hext)).recorded _ _, hproper,
    fun g θ d locals' expected' hθ hg _ => ?_⟩
  have hθ' := hext.unifier.respects hθ
  rw [infer]
  refine (hled.free (hled'.later.unifier.respects hθ') hg).bind fun a' d₁ g₁ hg₁ hl₁ ha' => ?_
  refine (hled'.free hθ' (hg.later hled.later hg₁ hl₁)).bind fun b' d₂ g₂ hg₂ hl₂ hb' => ?_
  refine (keepsUp_operationType hop (ha'.later hl₂) hb' hs hθ hg₂).bind fun s' d₃ g₃ hg₃ _ hs' => ?_
  exact keepsUp_recorded i hg₃ hs'

theorem Followed.ifElse {x a b : Expr} (hx : Followed find ops x) (ha : Followed find ops a)
    (hb : Followed find ops b) : Followed find ops (.ifElse loc x a b) := by
  intro locals i expected c c' t hc _ h
  rw [infer] at h
  obtain ⟨cond, c₁, hcond, h⟩ := gives_bind.1 h
  obtain ⟨y, c₂, hy, h⟩ := gives_bind.1 h
  obtain ⟨s, c₃, hs, h⟩ := gives_bind.1 h
  obtain ⟨r, c₄, hr, h⟩ := gives_bind.1 h
  obtain ⟨z, c₅, hz, h⟩ := gives_bind.1 h
  obtain ⟨rfl, rfl⟩ := gives_recorded.1 h
  have hledx := hx.free hc hcond
  have hcondition := extends_conditionType hledx.later.unifier.plain hledx.proper hy
  have hext₂ := hledx.later.trans hcondition
  have hleda := ha.free (hc.later hext₂) hs
  have hext₃ := hext₂.trans hleda.later
  obtain ⟨hext, hkeeps⟩ := hb.expecting (hc.later hext₃) hleda.proper (gives_bind.2 ⟨r, c₄, hr, hz⟩)
  refine ⟨(hext₃.trans hext).recorded _ _, hleda.proper.later hext.unifier,
    fun g θ d locals' expected' hθ hg _ => ?_⟩
  have hθ₃ := hext.unifier.respects hθ
  have hθ₂ := hleda.later.unifier.respects hθ₃
  rw [infer]
  refine (hledx.free (hcondition.unifier.respects hθ₂) hg).bind fun cond' d₁ g₁ hg₁ hl₁ hcond' => ?_
  have hstage₁ := hg.later hledx.later hg₁ hl₁
  refine (keepsUp_conditionType hcond' hy hθ₂ hg₁).bind fun _ d₂ g₂ hg₂ hl₂ _ => ?_
  have hstage₂ := hstage₁.later hcondition hg₂ hl₂
  refine (hleda.free hθ₃ hstage₂).bind fun s' d₃ g₃ hg₃ hl₃ hs' => ?_
  have hexpect := hkeeps hθ (hstage₂.later hleda.later hg₃ hl₃) hs'
  rw [expectType] at hexpect
  rw [← bind_assoc]
  exact hexpect.bind fun _ d₄ g₄ hg₄ hl₄ _ => keepsUp_recorded i hg₄ (hs'.later hl₄)

theorem Followed.access {x : Expr} {field : String} (hx : Followed find ops x) :
    Followed find ops (.access loc x field) := by
  intro locals i expected c c' r hc _ h
  rw [infer] at h
  obtain ⟨t, c₁, ht, h⟩ := gives_bind.1 h
  obtain ⟨s, c₂, hs, h⟩ := gives_bind.1 h
  obtain ⟨rfl, rfl⟩ := gives_recorded.1 h
  have hled := hx.free hc ht
  obtain ⟨rfl, hproper, hkeeps⟩ := fieldType_guided (hc.later hled.later).proper hled.proper hs
  refine ⟨hled.later.recorded _ _, hproper, fun g θ d locals' expected' hθ hg _ => ?_⟩
  rw [infer]
  refine (hled.free hθ hg).bind fun t' d₁ g₁ hg₁ _ ht' =>
    (hkeeps hg₁ ht').bind fun s' d₂ g₂ hg₂ _ hs' => ?_
  exact keepsUp_recorded i hg₂ hs'

/-! ### Calls -/

/-- What passing one argument does to the type of what is called, and that a guided run keeps up. -/
structure LedArgument (ops : Location → Operator → Prop) (locals : List Frame) (loc : Location)
    (j : Nat × Expr) (t : Ty) (c : Checker) (next : Ty) (c' : Checker) : Prop where
  later : c.Extends c'
  proper : c'.unifier.Proper next
  follow : ∀ ⦃g : Guide⦄ ⦃θ : String → Ty⦄ ⦃d : Checker⦄ ⦃locals' : List Frame⦄
    ⦃rest' : List Argument⦄ ⦃t' : Ty⦄ ⦃c'' : Checker⦄ ⦃R : Guide → Checker → Ty → Prop⦄,
    Subst.Respects θ c'.unifier.subst → g.Stage θ c d locals locals' →
      g.Matches c.unifier d.unifier t t' →
      (∀ (g' : Guide) (d' : Checker) (next' : Ty), g'.Stage θ c' d' locals locals' →
        g'.Matches c'.unifier d'.unifier next next' →
      g'.KeepsUp ops θ c' d' c'' (applyArguments loc next' rest') R) →
      g.KeepsUp ops θ c d c'' (applyArguments loc t' (argument locals' j :: rest')) R

/-- An argument of a function. -/
theorem Followed.passed_func {j : Nat × Expr} {p q : Ty} {x : Unit} (hj : Followed find ops j.2)
    (hc : c.Stage find locals) (ht : c.unifier.Proper t) (hfunc : c.unifier.apply t = .func p q)
    (h : Gives ((argument locals j).expectType p) c x c') :
    LedArgument ops locals loc j t c q c' := by
  have hpq : c.unifier.Proper (.func p q) := hfunc ▸ ht.applied hc.plain
  rw [Unifier.proper_func] at hpq
  obtain ⟨hext, hkeeps⟩ :=
    hj.expecting hc hpq.1 (show Gives (expectType locals j.1 p j.2) c x c' from h)
  refine ⟨hext, hpq.2.later hext.unifier, fun g θ d locals' rest' t' c'' R hθ hg ht' hrest => ?_⟩
  have happly := ht'.apply_eq hg.guides.relates
  rw [hfunc] at happly
  rw [applyArguments]
  refine .read (gives_applied.2 ⟨rfl, rfl⟩) ?_
  rw [happly]
  have hp' := hg.guides.relates.matches_bind hpq.1
  have hq' := hg.guides.relates.matches_bind hpq.2
  refine Guide.KeepsUp.bind (hkeeps hθ hg hp') fun _ d₁ g₁ hg₁ hl₁ _ => ?_
  exact hrest g₁ d₁ _ (hg.later hext hg₁ hl₁) (hq'.later hl₁)

/-- An argument of what has an unknown type in the free run. The guided run may know that it is a
function, and then the argument is inferred under the type of the parameter. -/
theorem Followed.passed_var {j : Nat × Expr} {v : String} {found next : Ty} {c₂ : Checker}
    (hj : Followed find ops j.2) (hc : c.Stage find locals) (ht : c.unifier.Proper t)
    (hvar : c.unifier.apply t = .var v) (hfound : Gives ((argument locals j).infer none) c found c₁)
    (hnext : Gives fresh c₁ next c₂) (hu : Unified (.var v) (.func found next) c₂ c') :
    LedArgument ops locals loc j t c next c' := by
  have hled := hj.free hc (show Gives (infer locals j.1 none j.2) c found c₁ from hfound)
  obtain ⟨hfresh, hnextProper⟩ := extends_fresh hled.later.unifier.plain hnext
  have hext₂ := hled.later.trans hfresh
  have hvarProper : c.unifier.Proper (.var v) := hvar ▸ ht.applied hc.plain
  have hvar₂ := hvarProper.later hext₂.unifier
  have hcallee₂ : c₂.unifier.Proper (.func found next) :=
    Unifier.proper_func.2 ⟨hled.proper.later hfresh.unifier, hnextProper⟩
  have hunified := extends_unified hext₂.unifier.plain hvar₂ hcallee₂ hu
  refine ⟨hext₂.trans hunified, hnextProper.later hunified.unifier,
    fun g θ d locals' rest' t' c'' R hθ hg ht' hrest => ?_⟩
  have hθ₂ := hunified.unifier.respects hθ
  have hθ₁ := hfresh.unifier.respects hθ₂
  have hsolution := hu.bind_eq hext₂.unifier.plain hvar₂ hcallee₂ hg.guides.relates.flexible hθ
  have happlied := ht'.applied hg.guides.relates
  have hproper' := (ht'.proper' hg.guides.relates).applied hg.guides.relates.guided
  have hgoal := happlied.goal hg.guides.relates
  rw [hvar] at happlied hgoal
  rw [hsolution] at hgoal
  rw [applyArguments]
  refine .read (gives_applied.2 ⟨rfl, rfl⟩) ?_
  generalize d.unifier.apply t' = a at happlied hproper' hgoal
  cases a with
  | var w =>
    refine Guide.KeepsUp.bind (hled.free hθ₁ hg) fun found' d₁ g₁ hg₁ hl₁ hfound' => ?_
    refine (keepsUp_fresh hnext hg₁).bind fun next' d₂ g₂ hg₂ hl₂ hnext' => ?_
    have hcallee' := Guide.Matches.func (hfound'.later hl₂) hnext'
    refine (keepsUp_unifyAt hu hθ hg₂ (happlied.later (hl₁.trans hl₂)) hcallee' loc).bind
      fun _ d₃ g₃ hg₃ hl₃ _ => ?_
    exact hrest g₃ d₃ next' (hg.later (hext₂.trans hunified) hg₃ (hl₁.trans (hl₂.trans hl₃)))
      (hnext'.later hl₃)
  | func p q =>
    obtain ⟨hp, hq⟩ := Unifier.proper_func.1 hproper'
    obtain ⟨hpGoal, hqGoal⟩ :=
      Ty.func.inj (show Ty.func (p.bind g.goal) (q.bind g.goal) = .func (found.bind θ)
        (next.bind θ) from hgoal)
    have hhints : g.Hints c.unifier d.unifier none (some p) (· = found.bind θ) :=
      ⟨by simp, by simpa using hp, by simpa using hpGoal⟩
    -- The guided run unifies the parameter with the argument; only then do the variables of the
    -- free run have the same images.
    show g.KeepsUp ops θ c d c'' ((argument locals' j).expectType p >>= fun _ =>
      applyArguments loc q rest') R
    rw [Argument.expectType, bind_assoc]
    refine Guide.KeepsUp.bind (hled.follow hθ₁ hg hhints) fun found' d₁ g₁ hg₁ hl₁ hfound' => ?_
    have hgoal₁ : p.bind g₁.goal = found'.bind g₁.goal := by
      rw [hl₁.bind_goal hp.past, hpGoal, hfound'.goal hg₁.relates]
    refine (keepsUp_unifyAt_guided hg₁ (hp.later hl₁.guided) (hfound'.proper' hg₁.relates)
      hgoal₁ _).bind
      fun _ d₂ g₂ hg₂ hl₂ hsame => ?_
    have hl₁₂ := hl₁.trans hl₂
    have hqGoal₂ : q.bind g₂.goal = next.bind θ := by rw [hl₁₂.bind_goal hq.past, hqGoal]
    obtain ⟨g₃, hg₃, hl₃, hnext'⟩ := guides_fresh_for hnext hg₂ (hq.later hl₁₂.guided) hqGoal₂
    have hcallee' := Guide.Matches.func ((hfound'.later hl₂).later hl₃) hnext'
    have himage : Ty.bind g₃.image (.var v) = Ty.bind g₃.image (.func found next) := by
      rw [← (happlied.later (hl₁₂.trans hl₃)).eq, ← hcallee'.eq]
      show Ty.func (d₂.unifier.apply p) (d₂.unifier.apply q) = .func (d₂.unifier.apply found')
        (d₂.unifier.apply q)
      rw [hsame]
    obtain ⟨hg₄, hl₄⟩ := hu.guides hg₃ hvar₂ hcallee₂ himage
    have hl₃₄ := hl₃.trans hl₄
    refine .after hl₃₄ (hrest g₃ d₂ q (hg.later (hext₂.trans hunified) hg₄ (hl₁₂.trans hl₃₄))
      (hnext'.later hl₄))
  | any => exact absurd rfl hproper'.clear.static.ne_any
  | word | none | named | tuple => simp [Ty.bind] at hgoal

/-- What passing arguments gives, and that a guided run keeps up. -/
structure LedArguments (ops : Location → Operator → Prop) (locals : List Frame) (loc : Location)
    (js : List (Nat × Expr)) (t : Ty) (c : Checker) (r : Ty) (c' : Checker) : Prop where
  later : c.Extends c'
  proper : c'.unifier.Proper r
  follow : ∀ ⦃g : Guide⦄ ⦃θ : String → Ty⦄ ⦃d : Checker⦄ ⦃locals' : List Frame⦄ ⦃t' : Ty⦄,
    Subst.Respects θ c'.unifier.subst → g.Stage θ c d locals locals' →
      g.Matches c.unifier d.unifier t t' →
      g.KeepsUp ops θ c d c' (applyArguments loc t' (js.map (argument locals'))) fun g' d' r' =>
        g'.Matches c'.unifier d'.unifier r r'

theorem LedArgument.cons {j : Nat × Expr} {js : List (Nat × Expr)} {next r : Ty}
    (h : LedArgument ops locals loc j t c next c₁)
    (hrest : LedArguments ops locals loc js next c₁ r c') :
    LedArguments ops locals loc (j :: js) t c r c' where
  later := h.later.trans hrest.later
  proper := hrest.proper
  follow _ _ _ _ _ hθ hg ht' :=
    h.follow (hrest.later.unifier.respects hθ) hg ht' fun _ _ _ hg' hnext' =>
      hrest.follow hθ hg' hnext'

theorem applyArguments_guided {js : List (Nat × Expr)} (hjs : ∀ j ∈ js, Followed find ops j.2)
    {r : Ty} (hc : c.Stage find locals) (ht : c.unifier.Proper t)
    (h : Gives (applyArguments loc t (js.map (argument locals))) c r c') :
    LedArguments ops locals loc js t c r c' := by
  induction js generalizing c t with
  | nil =>
    rw [List.map_nil, applyArguments] at h
    obtain ⟨rfl, rfl⟩ := gives_pure.1 h
    refine ⟨.refl hc.plain, ht, fun g θ d locals' t' _ hg ht' => ?_⟩
    rw [List.map_nil, applyArguments]
    exact .pure hg.guides ht'
  | cons j js ih =>
    rw [List.forall_mem_cons] at hjs
    have rest : ∀ {next : Ty} {c₁ : Checker}, LedArgument ops locals loc j t c next c₁ →
        Gives (applyArguments loc next (js.map (argument locals))) c₁ r c' →
        LedArguments ops locals loc (j :: js) t c r c' :=
      fun hled hrest => hled.cons (ih hjs.2 (hc.later hled.later) hled.proper hrest)
    rw [List.map_cons, applyArguments] at h
    obtain ⟨a, c₁, ha, h⟩ := gives_bind.1 h
    obtain ⟨rfl, rfl⟩ := gives_applied.1 ha
    split at h
    · next p q hfunc =>
      obtain ⟨x, c₂, hx, h⟩ := gives_bind.1 h
      exact rest (hjs.1.passed_func hc ht hfunc hx) h
    · next hany => exact absurd hany (Ty.Static.ne_any ht.clear)
    · next v hvar =>
      obtain ⟨found, c₂, hfound, h⟩ := gives_bind.1 h
      obtain ⟨next, c₃, hnext, h⟩ := gives_bind.1 h
      obtain ⟨x, c₄, hx, h⟩ := gives_bind.1 h
      exact rest (hjs.1.passed_var hc ht hvar hfound hnext (gives_unifyAt.1 hx)) h
    · exact (not_gives_fail h).elim

theorem Followed.call {f : Expr} {args : List Expr} {named : List NamedArg}
    (hf : Followed find ops f) (hargs : ∀ e ∈ args, Followed find ops e)
    (hnamed : ∀ n ∈ named, Followed find ops n.value) :
    Followed find ops (.call loc f args named) := by
  intro locals i expected c c' t hc _ h
  rw [infer, gives_bind] at h
  obtain ⟨callee, c₁, hcallee, h⟩ := h
  dsimp only at h
  rw [gives_bind] at h
  obtain ⟨fields, c₂, hfields, h⟩ := h
  have hled := hf.free hc hcallee
  obtain ⟨rfl, hsameFields⟩ := calledFields_guided hfields
  simp only [arguments_eq, namedArguments_eq, placeArguments_map] at h
  cases hplaced : placeArguments loc fields (jobs (i + 1 + f.nodeCount) args)
      (namedJobs (i + 1 + f.nodeCount + exprsNodeCount args) named) with
  | error e =>
    simp only [hplaced, Except.map] at h
    exact (not_gives_failWith h).elim
  | ok placed =>
    simp only [hplaced, Except.map] at h
    obtain ⟨r, c₃, hr, h⟩ := gives_bind.1 h
    obtain ⟨rfl, rfl⟩ := gives_recorded.1 h
    have hjs : ∀ j ∈ placed, Followed find ops j.2 := by
      have hperm := (placeArguments_perm hplaced).map Prod.snd
      rw [List.map_append, map_snd_jobs, map_snd_namedJobs] at hperm
      intro j hj
      rcases List.mem_append.1 (hperm.mem_iff.1 (List.mem_map_of_mem hj)) with he | he
      · exact hargs _ he
      · obtain ⟨n, hn, heq⟩ := List.mem_map.1 he
        exact heq ▸ hnamed n hn
    have hpassed := applyArguments_guided hjs (hc.later hled.later) hled.proper hr
    have hext := hpassed.later
    refine ⟨(hled.later.trans hext).recorded _ _, hpassed.proper,
      fun g θ d locals' expected' hθ hg _ => ?_⟩
    rw [infer]
    refine (hled.free (hext.unifier.respects hθ) hg).bind fun callee' d₁ g₁ hg₁ hl₁ hcallee' => ?_
    have hstage := hg.later hled.later hg₁ hl₁
    refine .read (hsameFields hg₁ hstage.frames) ?_
    simp only [arguments_eq, namedArguments_eq, placeArguments_map, hplaced, Except.map]
    exact (hpassed.follow hθ hstage hcallee').bind fun r' d₂ g₂ hg₂ _ hr' =>
      keepsUp_recorded i hg₂ hr'

/-! ### Lambdas -/

theorem Followed.lambda {ps : List Param} {b : Expr} (hps : ParamsFit find ps)
    (hb : Followed find ops b) : Followed find ops (.lambda loc ps b) := by
  intro locals i expected c c' t hc hexpected h
  rw [infer, gives_bind] at h
  obtain ⟨hint, c₁, hhint, h⟩ := h
  obtain ⟨rfl, hhintProper, hhintGuided⟩ := lambdaHint_guided hc.plain hexpected hhint
  rw [gives_bind] at h
  obtain ⟨ts, c₂, hts, h⟩ := h
  dsimp only at h
  rw [gives_bind] at h
  obtain ⟨result, c₃, hresult, h⟩ := h
  obtain ⟨rfl, rfl⟩ := gives_recorded.1 h
  obtain ⟨hext, htsProper, hkeeps⟩ :=
    lambdaParams_guided hc.proper (by rw [hc.find]; exact hps) hhintProper hts
  have hinner : c₂.Stage find (withParams ([] :: locals) ps ts) :=
    ⟨(hc.later hext).proper.push.withParams ps htsProper, (hc.later hext).find⟩
  have hled := hb.free hinner hresult
  refine ⟨(hext.trans hled.later).recorded _ _,
    Unifier.proper_curry.2 ⟨fun t ht => (htsProper t ht).later hled.later.unifier, hled.proper⟩,
    fun g θ d locals' expected' hθ hg hh => ?_⟩
  obtain ⟨hint', hhint', hh'⟩ := hhintGuided hg.guides hh
  rw [infer]
  refine .read hhint' ((hkeeps hg.guides (hh'.imp fun s hs => .inr ⟨result.bind θ, ?_⟩)).bind
    fun ts' d₂ g₂ hg₂ hl₂ hts' => ?_)
  · rw [hs, Ty.bind_curry]
  · have hstage : g₂.Stage θ c₂ d₂ (withParams ([] :: locals) ps ts)
      (withParams ([] :: locals') ps ts') :=
      ⟨hg₂, (hg.later hext hg₂ hl₂).frames.push.withParams ps hts'⟩
    refine (hled.free hθ hstage).bind fun result' d₃ g₃ hg₃ hl₃ hresult' => ?_
    exact keepsUp_recorded i hg₃ (.curry (hts'.imp fun _ _ ht => ht.later hl₃) hresult')

/-! ### Arms -/

/-- The body of an arm: its type must be that of the arms before it. -/
def Checking.armType (locals : List Frame) (i : Nat) (result : Option Ty) (b : Expr) :
    Checking Ty :=
  match result with
  | none => infer locals i none b
  | some t => do
    expectType locals i t b
    return t

theorem inferCases_cons (locals : List Frame) (i : Nat) (t : Ty) (result : Option Ty) (p : Pattern)
    (b : Expr) (cs : List Case) : inferCases locals i t result (.mk loc p b :: cs) = (do
      let inner ← bindPattern ([] :: locals) i t p
      let s ← armType inner (i + p.nodeCount) result b
      inferCases locals (i + p.nodeCount + b.nodeCount) t (some s) cs) := by
  rw [inferCases]
  cases result with
  | none => simp only [armType, pure_bind]
  | some s => simp only [armType, expectType, bind_assoc, pure_bind]

theorem armType_guided {b : Expr} (hb : Followed find ops b) {result : Option Ty}
    (hc : c.Stage find locals) (hresult : ∀ s ∈ result, c.unifier.Proper s)
    (h : Gives (armType locals i result b) c t c') :
    c.Extends c' ∧ c'.unifier.Proper t ∧ ∀ ⦃g : Guide⦄ ⦃θ : String → Ty⦄ ⦃d : Checker⦄
      ⦃locals' : List Frame⦄ ⦃result' : Option Ty⦄, Subst.Respects θ c'.unifier.subst →
      g.Stage θ c d locals locals' → Option.Rel (g.Matches c.unifier d.unifier) result result' →
      g.KeepsUp ops θ c d c' (armType locals' i result' b) fun g' d' t' =>
        g'.Matches c'.unifier d'.unifier t t' := by
  cases result with
  | none =>
    have hled := hb.free hc h
    refine ⟨hled.later, hled.proper, fun g θ d locals' result' hθ hg hr => ?_⟩
    cases hr
    exact hled.free hθ hg
  | some s =>
    obtain ⟨x, c₁, hx, h⟩ := gives_bind.1 h
    obtain ⟨rfl, rfl⟩ := gives_pure.1 h
    have hproper := hresult t rfl
    obtain ⟨hext, hkeeps⟩ := hb.expecting hc hproper hx
    refine ⟨hext, hproper.later hext.unifier, fun g θ d locals' result' hθ hg hr => ?_⟩
    cases hr with
    | some ht' => exact (hkeeps hθ hg ht').bind fun _ d₁ g₁ hg₁ hl₁ _ => .pure hg₁ (ht'.later hl₁)

theorem inferCases_guided {cs : List Case}
    (hcs : ∀ k ∈ cs, FollowedPattern find ops k.pattern ∧ Followed find ops k.body)
    {result out : Option Ty} (hc : c.Stage find locals) (ht : c.unifier.Proper t)
    (hresult : ∀ s ∈ result, c.unifier.Proper s)
    (h : Gives (inferCases locals i t result cs) c out c') :
    c.Extends c' ∧ (∀ s ∈ out, c'.unifier.Proper s) ∧ ∀ ⦃g : Guide⦄ ⦃θ : String → Ty⦄ ⦃d : Checker⦄
      ⦃locals' : List Frame⦄ ⦃t' : Ty⦄ ⦃result' : Option Ty⦄, Subst.Respects θ c'.unifier.subst →
            g.Stage θ c d locals locals' → g.Matches c.unifier d.unifier t t' →
            Option.Rel (g.Matches c.unifier d.unifier) result result' →
            g.KeepsUp ops θ c d c' (inferCases locals' i t' result' cs) fun g' d' out' =>
              Option.Rel (g'.Matches c'.unifier d'.unifier) out out' := by
  induction cs generalizing i c result with
  | nil =>
    rw [inferCases] at h
    obtain ⟨rfl, rfl⟩ := gives_pure.1 h
    refine ⟨.refl hc.plain, hresult, fun g θ d locals' t' result' _ hg _ hr => ?_⟩
    rw [inferCases]
    exact .pure hg.guides hr
  | cons k cs ih =>
    obtain ⟨loc, p, b⟩ := k
    rw [List.forall_mem_cons] at hcs
    rw [inferCases_cons] at h
    obtain ⟨inner, c₁, hinner, h⟩ := gives_bind.1 h
    obtain ⟨s, c₂, hs, h⟩ := gives_bind.1 h
    have hled := hcs.1.1 ⟨hc.proper.push, hc.find⟩ ht hinner
    have hstage : c₁.Stage find inner := ⟨hled.proper, (hc.later hled.later).find⟩
    obtain ⟨hext, hproper, harm⟩ :=
      armType_guided hcs.1.2 hstage (fun s hs => (hresult s hs).later hled.later.unifier) hs
    have hext₂ := hled.later.trans hext
    obtain ⟨hrest, hout, hkeeps⟩ :=
      ih hcs.2 (hc.later hext₂) (ht.later hext₂.unifier) (by simpa using hproper) h
    refine ⟨hext₂.trans hrest, hout, fun g θ d locals' t' result' hθ hg ht' hr => ?_⟩
    have hθ₂ := hrest.unifier.respects hθ
    rw [inferCases_cons]
    refine (hled.follow (hext.unifier.respects hθ₂) ⟨hg.guides, hg.frames.push⟩ ht').bind
      fun inner' d₁ g₁ hg₁ hl₁ hinner' => ?_
    have hr₁ : Option.Rel (g₁.Matches c₁.unifier d₁.unifier) result result' :=
      rel_imp hr fun _ _ hs => hs.later hl₁
    refine (harm hθ₂ ⟨hg₁, hinner'⟩ hr₁).bind fun s' d₂ g₂ hg₂ hl₂ hs' => ?_
    have hl₁₂ := hl₁.trans hl₂
    exact hkeeps hθ (hg.later hext₂ hg₂ hl₁₂) (ht'.later hl₁₂) (.some hs')

theorem Followed.matchOn {x : Expr} {cs : List Case} (hx : Followed find ops x)
    (hcs : ∀ k ∈ cs, FollowedPattern find ops k.pattern ∧ Followed find ops k.body) :
    Followed find ops (.matchOn loc x cs) := by
  intro locals i expected c c' r hc _ h
  rw [infer] at h
  obtain ⟨t, c₁, ht, h⟩ := gives_bind.1 h
  obtain ⟨out, c₂, hout, h⟩ := gives_bind.1 h
  have hled := hx.free hc ht
  obtain ⟨hext, hproper, hkeeps⟩ :=
    inferCases_guided hcs (hc.later hled.later) hled.proper (by simp) hout
  cases out with
  | none => exact (not_gives_fail h).elim
  | some s =>
    obtain ⟨rfl, rfl⟩ := gives_recorded.1 h
    refine ⟨(hled.later.trans hext).recorded _ _, hproper _ rfl,
      fun g θ d locals' expected' hθ hg _ => ?_⟩
    rw [infer]
    refine (hled.free (hext.unifier.respects hθ) hg).bind fun t' d₁ g₁ hg₁ hl₁ ht' => ?_
    refine (hkeeps hθ (hg.later hled.later hg₁ hl₁) ht' .none).bind fun out' d₂ g₂ hg₂ _ hout' => ?_
    cases hout' with
    | some hs' => exact keepsUp_recorded i hg₂ hs'

/-! ### Patterns -/

theorem FollowedPattern.wild : FollowedPattern find ops (.wild loc) := by
  intro locals inner i c c' t hc _ h
  rw [bindPattern] at h
  obtain ⟨rfl, rfl⟩ := gives_pure.1 h
  refine ⟨.refl hc.plain, hc.proper, fun g θ d locals' t' _ hg _ => ?_⟩
  rw [bindPattern]
  exact .pure hg.guides hg.frames

theorem FollowedPattern.var {n : String} : FollowedPattern find ops (.var loc n) := by
  intro locals inner i c c' t hc ht h
  rw [bindPattern] at h
  obtain ⟨rfl, rfl⟩ := gives_pure.1 h
  refine ⟨.refl hc.plain, hc.proper.bindLocal n ht, fun g θ d locals' t' _ hg ht' => ?_⟩
  rw [bindPattern]
  exact .pure hg.guides (hg.frames.bindLocal n ht')

theorem FollowedPattern.lit (he : Followed find ops e) : FollowedPattern find ops (.lit loc e) := by
  intro locals inner i c c' t hc ht h
  rw [bindPattern] at h
  obtain ⟨found, c₁, hfound, h⟩ := gives_bind.1 h
  obtain ⟨x, c₂, hx, h⟩ := gives_bind.1 h
  obtain ⟨rfl, rfl⟩ := gives_pure.1 h
  have hunified := gives_unifyAt.1 hx
  have hled := he.free hc hfound
  have hext :=
    extends_unified hled.later.unifier.plain (ht.later hled.later.unifier) hled.proper hunified
  have hext₂ := hled.later.trans hext
  refine ⟨hext₂, hc.proper.later hext₂, fun g θ d locals' t' hθ hg ht' => ?_⟩
  rw [bindPattern]
  refine (hled.free (hext.unifier.respects hθ) hg).bind fun found' d₁ g₁ hg₁ hl₁ hfound' => ?_
  refine (keepsUp_unifyAt hunified hθ hg₁ (ht'.later hl₁) hfound' loc).bind fun _ d₂ g₂ hg₂ hl₂ _ =>
    ?_
  exact .pure hg₂ (hg.later hext₂ hg₂ (hl₁.trans hl₂)).frames

theorem bindPatterns_guided {ps : List Pattern} (hps : ∀ p ∈ ps, FollowedPattern find ops p)
    {ts : List Ty} (hc : c.Stage find locals) (hts : ∀ t ∈ ts, c.unifier.Proper t)
    (h : Gives (bindPatterns locals i ts ps) c inner c') :
    c.Extends c' ∧ c'.Proper inner ∧ ∀ ⦃g : Guide⦄ ⦃θ : String → Ty⦄ ⦃d : Checker⦄
      ⦃locals' : List Frame⦄ ⦃ts' : List Ty⦄, Subst.Respects θ c'.unifier.subst →
      g.Stage θ c d locals locals' → List.Forall₂ (g.Matches c.unifier d.unifier) ts ts' →
      g.KeepsUp ops θ c d c' (bindPatterns locals' i ts' ps) fun g' d' inner' =>
        g'.Frames c' d' inner inner' := by
  induction ps generalizing i c ts locals with
  | nil =>
    rw [bindPatterns] at h
    obtain ⟨rfl, rfl⟩ := gives_pure.1 h
    refine ⟨.refl hc.plain, hc.proper, fun g θ d locals' ts' _ hg _ => ?_⟩
    rw [bindPatterns]
    exact .pure hg.guides hg.frames
  | cons p ps ih =>
    rw [List.forall_mem_cons] at hps
    cases ts with
    | nil =>
      rw [bindPatterns.eq_def] at h
      obtain ⟨rfl, rfl⟩ := gives_pure.1 h
      refine ⟨.refl hc.plain, hc.proper, fun g θ d locals' ts' _ hg hts' => ?_⟩
      cases hts'
      rw [bindPatterns.eq_def]
      exact .pure hg.guides hg.frames
    | cons t ts =>
      rw [List.forall_mem_cons] at hts
      rw [bindPatterns] at h
      obtain ⟨a, c₁, ha, h⟩ := gives_bind.1 h
      obtain ⟨rfl, rfl⟩ := gives_applied.1 ha
      obtain ⟨middle, c₂, hmiddle, h⟩ := gives_bind.1 h
      have hled := hps.1 hc (hts.1.applied hc.plain) hmiddle
      obtain ⟨hext, hproper, hkeeps⟩ := ih hps.2 ⟨hled.proper, (hc.later hled.later).find⟩
        (fun s hs => (hts.2 s hs).later hled.later.unifier) h
      refine ⟨hled.later.trans hext, hproper, fun g θ d locals' ts' hθ hg hts' => ?_⟩
      cases hts' with
      | cons ht' hrest =>
        rw [bindPatterns]
        refine .read (gives_applied.2 ⟨rfl, rfl⟩) ?_
        have happlied := ht'.applied hg.guides.relates
        refine (hled.follow (hext.unifier.respects hθ) hg happlied).bind
          fun middle' d₁ g₁ hg₁ hl₁ hmiddle' => ?_
        exact hkeeps hθ ⟨hg₁, hmiddle'⟩ (hrest.imp fun _ _ hs => hs.later hl₁)

theorem FollowedPattern.tuple {ps : List Pattern} (hps : ∀ p ∈ ps, FollowedPattern find ops p) :
    FollowedPattern find ops (.tuple loc ps) := by
  intro locals inner i c c' t hc ht h
  rw [bindPattern] at h
  obtain ⟨ts, c₁, hts, h⟩ := gives_bind.1 h
  obtain ⟨x, c₂, hx, h⟩ := gives_bind.1 h
  have hunified := gives_unifyAt.1 hx
  obtain ⟨hfresh, hpropers, hmade⟩ := keepsUp_mapM_fresh hc.plain hts
  have hext :=
    extends_unified hfresh.unifier.plain (ht.later hfresh.unifier) (Unifier.proper_tuple.2 hpropers)
      hunified
  have hext₂ := hfresh.trans hext
  obtain ⟨hrest, hproper, hkeeps⟩ :=
    bindPatterns_guided hps (hc.later hext₂) (fun s hs => (hpropers s hs).later hext.unifier) h
  refine ⟨hext₂.trans hrest, hproper, fun g θ d locals' t' hθ hg ht' => ?_⟩
  rw [bindPattern]
  refine (hmade hg.guides).bind fun ts' d₁ g₁ hg₁ hl₁ hts' => ?_
  refine (keepsUp_unifyAt hunified (hrest.unifier.respects hθ) hg₁ (ht'.later hl₁) (.tuple hts')
    loc).bind fun _ d₂ g₂ hg₂ hl₂ _ => ?_
  exact hkeeps hθ (hg.later hext₂ hg₂ (hl₁.trans hl₂)) (hts'.imp fun _ _ hs => hs.later hl₂)

theorem FollowedPattern.cons {n : String} {ps : List Pattern}
    (hps : ∀ p ∈ ps, FollowedPattern find ops p) : FollowedPattern find ops (.cons loc n ps) := by
  intro locals inner i c c' t hc ht h
  rw [bindPattern] at h
  obtain ⟨s?, c₁, hs, h⟩ := gives_bind.1 h
  obtain ⟨rfl, rfl⟩ := gives_find?.1 hs
  split at h
  · exact (not_gives_fail h).elim
  · next k hk =>
    obtain ⟨s, hs, hk⟩ := Option.bind_eq_some_iff.1 hk
    obtain ⟨htidy, hstatic⟩ := (hc.proper.find? hs).constructor k hk
    obtain ⟨sig, c₂, hsig, h⟩ := gives_bind.1 h
    dsimp only at h
    split at h
    · exact (not_gives_fail h).elim
    · next hlen =>
      obtain ⟨x, c₃, hx, h⟩ := gives_bind.1 h
      have hunified := gives_unifyAt.1 hx
      obtain ⟨hfresh, hproperSig⟩ := extends_instantiate hc.plain htidy hstatic hsig
      rw [← Ty.curry_uncurry sig, Unifier.proper_curry] at hproperSig
      have hext :=
        extends_unified hfresh.unifier.plain (ht.later hfresh.unifier) hproperSig.2 hunified
      have hext₂ := hfresh.trans hext
      obtain ⟨hrest, hproper, hkeeps⟩ := bindPatterns_guided hps (hc.later hext₂)
        (fun s hs => (hproperSig.1 s hs).later hext.unifier) h
      refine ⟨hext₂.trans hrest, hproper, fun g θ d locals' t' hθ hg ht' => ?_⟩
      have hfound := hg.frames.find? hg.guides n
      rw [hs] at hfound
      rw [bindPattern]
      refine .read (gives_find?.2 ⟨rfl, rfl⟩) ?_
      generalize d.find? locals' n = s'? at hfound ⊢
      cases hfound with
      | some hsymbols =>
        rw [Option.bind_some, hsymbols.constructor, hk]
        refine (keepsUp_instantiate htidy hstatic hsig hg.guides).bind
          fun sig' d₁ g₁ hg₁ hl₁ hsig' => ?_
        obtain ⟨-, hparams, hresult⟩ := hsig'
        dsimp only
        rw [← hparams.length_eq, if_neg hlen]
        refine (keepsUp_unifyAt hunified (hrest.unifier.respects hθ) hg₁ (ht'.later hl₁) hresult
          loc).bind fun _ d₂ g₂ hg₂ hl₂ _ => ?_
        exact hkeeps hθ (hg.later hext₂ hg₂ (hl₁.trans hl₂))
          (hparams.imp fun _ _ hs => hs.later hl₂)

/-! ### All expressions -/

/-- Expressions of which a guided run can follow the lambdas, with some operators. -/
structure NodesFit (find : String → Option Symbol) (ops : Location → Operator → Prop)
    (es : List Expr) : Prop where
  lambdas : ∀ loc ps b, Expr.lambda loc ps b ∈ es → ParamsFit find ps
  operators : ∀ loc op l r, Expr.binOp loc op l r ∈ es → ops loc op

theorem NodesFit.of_append {es es' : List Expr} (h : NodesFit find ops (es ++ es')) :
    NodesFit find ops es ∧ NodesFit find ops es' :=
  ⟨⟨fun _ _ _ hm => h.lambdas _ _ _ (List.mem_append_left _ hm),
    fun _ _ _ _ hm => h.operators _ _ _ _ (List.mem_append_left _ hm)⟩,
    ⟨fun _ _ _ hm => h.lambdas _ _ _ (List.mem_append_right _ hm),
      fun _ _ _ _ hm => h.operators _ _ _ _ (List.mem_append_right _ hm)⟩⟩

theorem NodesFit.tail {es : List Expr} (h : NodesFit find ops (e :: es)) : NodesFit find ops es :=
  (of_append (show NodesFit find ops ([e] ++ es) from h)).2

mutual

/-- A guided run keeps up with the inference of an expression. -/
theorem followed_expr : ∀ e : Expr, NodesFit find ops e.nodes → Followed find ops e
  | .uint .. | .int .. | .float .. => fun _ => .literal rfl (Ty.static_word _)
  | .str .. | .bool .. => fun _ => .literal rfl (Ty.static_named.2 (by simp))
  | .eraser _ => fun _ => .eraser
  | .var .. => fun _ => .var
  | .tuple _ es => fun h => .tuple (followed_exprs es h.tail)
  | .list _ es => fun h => .list (followed_exprs es h.tail)
  | .binOp _ _ l r => fun h => by
    obtain ⟨hl, hr⟩ := h.tail.of_append
    exact .binOp (h.operators _ _ _ _ List.mem_cons_self) (followed_expr l hl) (followed_expr r hr)
  | .call _ f args named => fun h => by
    obtain ⟨h, hnamed⟩ := h.tail.of_append
    obtain ⟨hf, hargs⟩ := h.of_append
    exact .call (followed_expr f hf) (followed_exprs args hargs) (followed_named named hnamed)
  | .lambda loc ps b =>
    fun h => .lambda (h.lambdas loc ps b List.mem_cons_self) (followed_expr b h.tail)
  | .ifElse _ x a b => fun h => by
    obtain ⟨h, hb⟩ := h.tail.of_append
    obtain ⟨hx, ha⟩ := h.of_append
    exact .ifElse (followed_expr x hx) (followed_expr a ha) (followed_expr b hb)
  | .matchOn _ x cs => fun h => by
    obtain ⟨hx, hcs⟩ := h.tail.of_append
    exact .matchOn (followed_expr x hx) (followed_cases cs hcs)
  | .access _ x _ => fun h => .access (followed_expr x h.tail)
  | .missing => fun _ _ _ _ _ _ _ _ _ h => (not_gives_infer_missing h).elim

theorem followed_exprs :
    ∀ es : List Expr, NodesFit find ops (exprsNodes es) → ∀ e ∈ es, Followed find ops e
  | [], _ => by simp
  | e :: es, h => by
    obtain ⟨he, hes⟩ := h.of_append
    exact List.forall_mem_cons.2 ⟨followed_expr e he, followed_exprs es hes⟩

theorem followed_named :
    ∀ ns : List NamedArg, NodesFit find ops (namedNodes ns) → ∀ n ∈ ns, Followed find ops n.value
  | [], _ => by simp
  | .mk _ _ e :: ns, h => by
    obtain ⟨he, hns⟩ := h.of_append
    exact List.forall_mem_cons.2 ⟨followed_expr e he, followed_named ns hns⟩

theorem followed_cases : ∀ cs : List Case, NodesFit find ops (casesNodes cs) →
    ∀ k ∈ cs, FollowedPattern find ops k.pattern ∧ Followed find ops k.body
  | [], _ => by simp
  | .mk _ p b :: cs, h => by
    obtain ⟨h, hcs⟩ := h.of_append
    obtain ⟨hp, hb⟩ := h.of_append
    exact List.forall_mem_cons.2 ⟨⟨followed_pattern p hp, followed_expr b hb⟩,
      followed_cases cs hcs⟩

theorem followed_pattern : ∀ p : Pattern, NodesFit find ops p.nodes → FollowedPattern find ops p
  | .wild _ => fun _ => .wild
  | .var .. => fun _ => .var
  | .lit _ e => fun h => .lit (followed_expr e h)
  | .cons _ _ ps => fun h => .cons (followed_patterns ps h)
  | .tuple _ ps => fun h => .tuple (followed_patterns ps h)
  | .missing => fun _ _ _ _ _ _ _ _ _ h => (not_gives_bindPattern_missing h).elim

theorem followed_patterns :
    ∀ ps : List Pattern, NodesFit find ops (patternsNodes ps) → ∀ p ∈ ps, FollowedPattern find ops p
  | [], _ => by simp
  | p :: ps, h => by
    obtain ⟨hp, hps⟩ := h.of_append
    exact List.forall_mem_cons.2 ⟨followed_pattern p hp, followed_patterns ps hps⟩

end

/-! ### Inference under an expected type accepts what inference accepts -/

/-- Infers an expression without an expected type, and unifies its type with an
expected one then. -/
def Checking.inferThenUnify (locals : List Frame) (i : Nat) (t : Ty) (e : Expr) : Checking Unit :=
  do
  let found ← infer locals i none e
  unifyAt t found e.loc

/-- The operators in an expression. -/
def Expr.HasOperator (e : Expr) (loc : Location) (op : Operator) : Prop :=
  ∃ l r, Expr.binOp loc op l r ∈ e.nodes

/-- Where inference and then unification with an expected type succeed, so does inference under the
expected type, in a scope without the dynamic type and for lambdas whose annotated parameters come
last; unless an operator refuses an operand whose type is known by then. Inferred first, the operand
was a variable, and what becomes of that is not tested. -/
theorem expectType_of_infer (hc : c.Proper locals) (ht : c.unifier.Proper t)
    (he : ∀ loc ps b, Expr.lambda loc ps b ∈ e.nodes → ParamsFit (c.find? []) ps)
    (h : Gives (inferThenUnify locals i t e) c () c') :
    (∃ d, Gives (expectType locals i t e) c () d) ∨
      Refuses e.HasOperator (expectType locals i t e) c := by
  obtain ⟨found, c₁, hfound, h⟩ := gives_bind.1 h
  have hunified := gives_unifyAt.1 h
  have hfit : NodesFit (c.find? []) e.HasOperator e.nodes := ⟨he, fun _ _ l r hmem => ⟨l, r, hmem⟩⟩
  have hled := (followed_expr e hfit).free ⟨hc, rfl⟩ hfound
  have ht₁ := ht.later hled.later.unifier
  have hext := extends_unified hled.later.unifier.plain ht₁ hled.proper hunified
  -- Both runs head for what the variables stand for in the end.
  let θ : String → Ty := fun v => c'.unifier.apply (.var v)
  have hflex : Ty.Flexible θ := hext.unifier.plain.coherent.flexible_apply
  have hθ : Subst.Respects θ c'.unifier.subst := hext.unifier.plain.triangular.respects_apply
  have hθ₁ := hext.unifier.respects hθ
  have hsame : t.bind θ = found.bind θ :=
    hunified.bind_eq hled.later.unifier.plain ht₁ hled.proper hflex hθ
  have hstage : (Guide.start θ c.unifier).Stage θ c c locals locals :=
    ⟨⟨Guide.relates_start hc.plain hflex (hled.later.unifier.respects hθ₁), rfl, rfl⟩,
      Guide.frames_start hc⟩
  have hhints : (Guide.start θ c.unifier).Hints c.unifier c.unifier none (some t)
    (· = found.bind θ) :=
    ⟨by simp, by simpa using ht, by rintro _ ⟨⟩; exact hsame⟩
  have hkeeps : (Guide.start θ c.unifier).KeepsUp e.HasOperator θ c c c₁ (expectType locals i t e)
    fun _ _ _ => True := by
    rw [expectType]
    refine (hled.follow hθ₁ hstage hhints).bind fun found' d g hg hl hfound' => ?_
    have hgoal : t.bind g.goal = found'.bind g.goal := by
      rw [hl.bind_goal ht.past, hfound'.goal hg.relates]
      exact hsame
    exact (keepsUp_unifyAt_guided hg (ht.later hl.guided) (hfound'.proper' hg.relates) hgoal
      e.loc).imp fun _ _ _ _ => trivial
  rcases hkeeps with hrefuses | ⟨_, d, -, hgives, -⟩
  · exact .inr hrefuses
  · exact .inl ⟨d, hgives⟩

end Expressions

/-- A lambda that passes the identity and its last parameter, which is annotated, to its first. -/
def passingLambda : Expr := .lambda {} [⟨{}, "f", none⟩, ⟨{}, "x", some (.name {} "u24" [])⟩]
  (.call {} (.var {} "f") [.lambda {} [⟨{}, "y", none⟩] (.var {} "y"), .var {} "x"] [])

/-- A type for the lambda, in which the identity is one of floats. -/
def passingType : Ty := .func (.func (.func .f24 .f24) (.func .u24 .f24)) (.func .u24 .f24)

theorem expectType_of_infer_passing :
    ∃ c d, Gives (inferThenUnify [] 0 passingType passingLambda) .unlimited () c ∧
      Gives (expectType [] 0 passingType passingLambda) .unlimited () d := by
  have hinfer :=
    gives_of_toOption (m := inferThenUnify [] 0 passingType passingLambda) (c := .unlimited)
      (a := ()) (by decide +kernel)
  have htype : Checker.unlimited.unifier.Proper passingType := by simp [passingType, Ty.u24, Ty.f24]
  have hmeaning : TypeExpr.meaning? (Checker.unlimited.find? []) [] (.name {} "u24" []) =
    some .u24 := by decide +kernel
  have hfit : ∀ loc ps b, Expr.lambda loc ps b ∈ passingLambda.nodes →
    ParamsFit (Checker.unlimited.find? []) ps := by
    intro loc ps b hmem
    simp only [passingLambda, Expr.nodes, exprsNodes, namedNodes, List.mem_cons, List.mem_append,
      List.not_mem_nil, Expr.lambda.injEq, reduceCtorEq, or_false, false_or] at hmem
    rcases hmem with ⟨-, rfl, -⟩ | ⟨-, rfl, -⟩
    · exact ⟨by simp, by simp [hmeaning, Ty.u24]⟩
    · exact ⟨by simp, by simp⟩
  rcases expectType_of_infer Checker.proper_unlimited htype hfit hinfer with
    ⟨d, hd⟩ | ⟨loc, op, -, -, ⟨l, r, hmem⟩, -⟩
  · exact ⟨_, d, hinfer, hd⟩
  · -- There is no operator in the lambda.
    simp [passingLambda, Expr.nodes, exprsNodes, namedNodes] at hmem

/-- A lambda whose first parameter is annotated, and which gives its second one. -/
def annotatedFirst : Expr :=
  .lambda {} [⟨{}, "x", some (.name {} "u24" [])⟩, ⟨{}, "y", none⟩] (.var {} "y")

/-- The parameter after an annotated one takes the type that is expected of the annotated one. -/
theorem annotatedFirst_not_expected :
    Checker.unlimited.Proper [] ∧ (Ty.func .u24 (.func .f24 .f24)).Static ∧
    (∃ c,
      Gives (inferThenUnify [] 0 (.func .u24 (.func .f24 .f24)) annotatedFirst) .unlimited () c) ∧
    ¬∃ d,
      Gives (expectType [] 0 (.func .u24 (.func .f24 .f24)) annotatedFirst) .unlimited () d := by
  refine ⟨Checker.proper_unlimited, by decide, ⟨_, gives_of_toOption (by decide +kernel)⟩, ?_⟩
  rintro ⟨d, hd⟩
  have hfails : ((ExceptT.run (expectType [] 0 (.func .u24 (.func .f24 .f24)) annotatedFirst)).run
    .unlimited).1.isOk = false := by
    decide +kernel
  rw [hd] at hfails
  cases hfails

/-- A lambda that adds its parameter to itself. -/
def doublingLambda : Expr :=
  .lambda {} [⟨{}, "a", none⟩] (.binOp {} .add (.var {} "a") (.var {} "a"))

/-- Known to be a string from the start, the operand is refused. -/
example : ((ExceptT.run (inferThenUnify [] 0 (.func .string .string) doublingLambda)).run
    .unlimited).1.isOk = true ∧
    ((ExceptT.run (expectType [] 0 (.func .string .string) doublingLambda)).run .unlimited).1.isOk =
      false := by decide +kernel

end FunRiscv
