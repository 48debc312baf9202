import Mathlib
import FunRiscv.Proofs.Scope.Places
import FunRiscv.Proofs.Ty.Guide
import FunRiscv.Proofs.Typing.Limit
import FunRiscv.Proofs.Typing.Meanings
import FunRiscv.Proofs.Typing.Operators
import FunRiscv.Proofs.Typing.Stems

/-!
# A run that keeps up with another

Actions of the checker, taken by a free run and by a guided one that is ahead of it.

* `Checker.Proper`: a checker and local frames in which every type at hand is static.
  `Checker.Extends`: a later checker. `Checker.proper_new`: a new checker is one, where only the
  builtin names are known.
* `Guide.Guides`, `Guide.Symbols`, `Guide.Frames`: checkers, symbols and frames of the two runs
  that belong together.
* `Refuses`: one of some operators refuses an operand whose type is known.
* `Guide.KeepsUp`: an action of the guided run keeps up with the free run, unless an operator
  refuses its operands: these are tested for what is known of them. `Guide.KeepsUp.bind`: one
  action after another.
* `keepsUp_unifyAt`, `keepsUp_unifyAt_guided`, `Checking.Unified.guides`: both runs unify,
  or one of them does.
-/

namespace FunRiscv

open Checking

/-! ### Checkers without the dynamic type -/

/-- The type of the value that a symbol stands for. -/
def Symbol.value? : Symbol → Option Ty
  | .variable _ t | .function _ t _ => some t
  | _ => none

/-- A symbol whose value has a proper type, and with whose constructor the dynamic type
does not come in. -/
structure Symbol.Proper (u : Unifier) (s : Symbol) : Prop where
  value : ∀ t ∈ s.value?, u.Proper t
  constructor : ∀ k ∈ s.constructor?, k.Tidy ∧ k.signature.Static

/-- A checker and local frames in which every type at hand is proper. -/
structure Checker.Proper (c : Checker) (locals : List Frame) : Prop where
  plain : c.unifier.Plain
  globals : c.globals.Tidy
  fields : ∀ n s, c.globals.find? n = some (.type s) → ∀ f ∈ s.fields, f.2.Static
  symbols : ∀ n, ∀ s ∈ findIn? (locals ++ [c.globals]) n, s.Proper c.unifier

/-- A later checker with the same table of names. -/
structure Checker.Extends (c c' : Checker) : Prop where
  unifier : c.unifier.Extends c'.unifier
  globals : c'.globals = c.globals
  path : c'.scopePath = c.scopePath

section Extends

variable {c c' c'' : Checker} {locals : List Frame}

theorem Checker.Extends.refl (h : c.unifier.Plain) : c.Extends c := ⟨.refl h, rfl, rfl⟩

theorem Checker.Extends.trans (h : c.Extends c') (h' : c'.Extends c'') : c.Extends c'' :=
  ⟨h.unifier.trans h'.unifier, h'.globals.trans h.globals, h'.path.trans h.path⟩

theorem Checker.Extends.find?_eq (h : c.Extends c') (locals : List Frame) :
    c'.find? locals = c.find? locals := by
  funext n
  rw [Checker.find?, Checker.find?, h.globals, h.path]

theorem Symbol.Proper.later {s : Symbol} (hs : s.Proper c.unifier) (h : c.Extends c') :
    s.Proper c'.unifier :=
  ⟨fun t ht => (hs.value t ht).later h.unifier, hs.constructor⟩

theorem Checker.Proper.later (hc : c.Proper locals) (h : c.Extends c') : c'.Proper locals := by
  refine ⟨h.unifier.plain, h.globals ▸ hc.globals, h.globals ▸ hc.fields, fun n s hs => ?_⟩
  rw [h.globals] at hs
  exact (hc.symbols n s hs).later h

theorem Checker.Proper.find? (hc : c.Proper locals) {n : String} {s : Symbol}
    (hs : c.find? locals n = some s) : s.Proper c.unifier := by
  unfold Checker.find? symbolIn? at hs
  split at hs
  · next s' hs' => exact Option.some.inj hs ▸ hc.symbols _ _ hs'
  · split at hs
    · cases hs
    · exact hc.symbols _ _ hs

theorem Checker.Proper.push (hc : c.Proper locals) : c.Proper ([] :: locals) :=
  ⟨hc.plain, hc.globals, hc.fields, hc.symbols⟩

/-- What a name stands for after one more variable was bound. -/
theorem findIn?_bindLocal_append (locals : List Frame) (n : String) (t : Ty) (G : Frame)
    (m : String) : findIn? (bindLocal locals n t ++ [G]) m = if m = n then some (.variable n t) else
    findIn? (locals ++ [G]) m := by
  have happend : ∀ fs : List Frame, findIn? (fs ++ [G]) m = (findIn? fs m).or (findIn? [G] m) :=
    fun fs => List.findSome?_append
  rw [happend, happend]
  split
  · next h => rw [h, findIn?_bindLocal_self, Option.some_or]
  · next h => rw [findIn?_bindLocal_of_ne h]

theorem Checker.Proper.bindLocal (hc : c.Proper locals) (n : String) {t : Ty}
    (ht : c.unifier.Proper t) : c.Proper (bindLocal locals n t) := by
  refine ⟨hc.plain, hc.globals, hc.fields, fun m s hs => ?_⟩
  rw [findIn?_bindLocal_append] at hs
  split at hs
  · obtain rfl := Option.some.inj hs
    exact ⟨by simpa [Symbol.value?] using ht, by simp [Symbol.constructor?]⟩
  · exact hc.symbols m s hs

theorem Checker.Proper.withParams (hc : c.Proper locals) (ps : List Param) {ts : List Ty}
    (hts : ∀ t ∈ ts, c.unifier.Proper t) : c.Proper (withParams locals ps ts) := by
  unfold FunRiscv.withParams
  have hes : ∀ e ∈ ps.zip ts, c.unifier.Proper e.2 := fun e he => hts e.2 (List.of_mem_zip he).2
  generalize ps.zip ts = es at hes
  induction es generalizing locals with
  | nil => exact hc
  | cons e es ih =>
    rw [List.forall_mem_cons] at hes
    exact ih (hc.bindLocal _ hes.1) hes.2

end Extends

/-! ### New checkers -/

/-- A symbol with which the dynamic type does not come into the type of an expression. -/
def Symbol.Static : Symbol → Prop
  | .variable _ t | .function _ t _ => t.Static
  | .type s => (∀ f ∈ s.fields, f.2.Static) ∧ ∀ k ∈ s.constructor?, k.signature.Static
  | .constructor k => k.signature.Static
  | .module .. => True

instance : ∀ s : Symbol, Decidable s.Static
  | .variable _ t | .function _ t _ => inferInstanceAs (Decidable t.Static)
  | .type s =>
    inferInstanceAs (Decidable ((∀ f ∈ s.fields, f.2.Static) ∧
      ∀ k ∈ s.constructor?, k.signature.Static))
  | .constructor k => inferInstanceAs (Decidable k.signature.Static)
  | .module .. => inferInstanceAs (Decidable True)

theorem Symbol.Static.proper {u : Unifier} : ∀ {s : Symbol}, s.Static → s.Tidy → s.Proper u
  | .variable .., h, hs | .function .., h, hs =>
    ⟨by simpa [value?] using Unifier.proper_of_ground h hs, by simp [constructor?]⟩
  | .type _, h, hs => ⟨by simp [value?], fun k hk => ⟨hs.2.2 k hk, h.2 k hk⟩⟩
  | .constructor k, h, hs => ⟨by simp [value?], by rintro _ ⟨⟩; exact ⟨hs, h⟩⟩
  | .module .., _, _ => ⟨by simp [value?], by simp [constructor?]⟩

theorem Checker.proper_of_static {c : Checker} (hplain : c.unifier.Plain) (htidy : c.globals.Tidy)
    (hstatic : ∀ e ∈ c.globals, e.2.Static) : c.Proper [] where
  plain := hplain
  globals := htidy
  fields n _ hs := (hstatic _ (Frame.mem_of_find? hs)).1
  symbols n s hs := by
    obtain ⟨f, hf, hmem⟩ := mem_of_findIn? hs
    obtain rfl := List.mem_singleton.1 hf
    exact (hstatic _ hmem).proper (htidy _ hmem)

/-- The builtin names alone bring no dynamic type with them. -/
theorem Checker.proper_new {o : CheckOptions} (hsymbols : o.symbols = []) (hlimit : o.limit = 0)
    (hstem : Ty.rigidName o.stem = false) : (Checker.new o).Proper [] := by
  have hglobals : (Checker.new o).globals = builtinFrame := by
    simp [Checker.new, Frame.insertAll, hsymbols]
  refine Checker.proper_of_static ⟨Unifier.tidy_new _ _, hlimit, fun n => ?_⟩ ?_ ?_
  · rw [← hstem]
    exact Unifier.rigidName_new _ _ n
  · exact hglobals ▸ builtinFrame_tidy
  · rw [hglobals]
    decide

/-- A new checker that does not count steps. -/
def Checker.unlimited : Checker := .new { limit := 0 }

theorem Checker.proper_unlimited : Checker.unlimited.Proper [] :=
  Checker.proper_new rfl rfl (by decide)

theorem gives_of_toOption {α : Type} {m : Checking α} {c : Checker} {a : α}
    (h : ((ExceptT.run m).run c).1.toOption = some a) : Gives m c a ((ExceptT.run m).run c).2 := by
  unfold Gives
  generalize (ExceptT.run m).run c = r at h ⊢
  obtain ⟨_ | _, _⟩ := r <;> cases h
  rfl

/-! ### Two checkers -/

namespace Guide

/-- Checkers of a free and a guided run. -/
structure Guides (g : Guide) (θ : String → Ty) (c d : Checker) : Prop where
  relates : g.Relates θ c.unifier d.unifier
  globals : d.globals = c.globals
  path : d.scopePath = c.scopePath

/-- Symbols with values whose types match, or with the same constructor. -/
structure Symbols (g : Guide) (u w : Unifier) (s s' : Symbol) : Prop where
  value : Option.Rel (g.Matches u w) s.value? s'.value?
  constructor : s'.constructor? = s.constructor?

/-- Local frames in which every name has symbols that match. -/
def Frames (g : Guide) (c d : Checker) (locals locals' : List Frame) : Prop :=
  ∀ n, Option.Rel (g.Symbols c.unifier d.unifier) (findIn? (locals ++ [c.globals]) n)
    (findIn? (locals' ++ [d.globals]) n)

end Guide

/-- One of some operators refuses an operand whose type is known. -/
def Refuses {α : Type} (ops : Location → Operator → Prop) (m : Checking α) (d : Checker) : Prop :=
  ∃ loc op l r, ops loc op ∧ Fails m d (.ofCause { cause := .operation op.symbol l r, loc }) ∧
    ∃ t ∈ [l, r], t.isVar = false ∧ op.kind.admits t = false

/-- A guided action keeps up with a free run from one checker to another: it succeeds, and what it
gives belongs to what the free run gave. Or else one of some operators refuses an operand of which
the free run knew less. -/
def Guide.KeepsUp {β : Type} (g : Guide) (ops : Location → Operator → Prop) (θ : String → Ty)
    (c d c' : Checker) (m : Checking β) (R : Guide → Checker → β → Prop) : Prop :=
  Refuses ops m d ∨ ∃ b d' g', Gives m d b d' ∧ g'.Guides θ c' d' ∧
    g.Leads c.unifier d.unifier g' c'.unifier d'.unifier ∧ R g' d' b

section KeepsUp

variable {α β : Type} {m : Checking α} {f : α → Checking β} {g g' : Guide}
  {ops : Location → Operator → Prop} {θ : String → Ty} {c c' c'' d d' : Checker}
  {R R' : Guide → Checker → α → Prop} {Q : Guide → Checker → β → Prop} {locals locals' : List Frame}

theorem Guide.Guides.find?_eq (h : g.Guides θ c d) (locals : List Frame) :
    d.find? locals = c.find? locals := by
  funext n
  rw [Checker.find?, Checker.find?, h.globals, h.path]

theorem rel_imp {γ δ : Type} {r r' : γ → δ → Prop} {x : Option γ} {y : Option δ}
    (h : Option.Rel r x y) (himp : ∀ a b, r a b → r' a b) : Option.Rel r' x y := by
  cases h with
  | some h => exact .some (himp _ _ h)
  | none => exact .none

theorem Guide.Symbols.later {u u' w w' : Unifier} {s s' : Symbol} (hs : g.Symbols u w s s')
    (hl : g.Leads u w g' u' w') : g'.Symbols u' w' s s' :=
  ⟨rel_imp hs.value fun _ _ ht => ht.later hl, hs.constructor⟩

theorem Guide.Frames.later (hf : g.Frames c d locals locals') (hc : c.Extends c')
    (hg : g.Guides θ c d) (hg' : g'.Guides θ c' d')
    (hl : g.Leads c.unifier d.unifier g' c'.unifier d'.unifier) :
    g'.Frames c' d' locals locals' := by
  intro n
  have hn := hf n
  rw [hg.globals] at hn
  rw [hg'.globals, hc.globals]
  exact rel_imp hn fun _ _ hs => hs.later hl

theorem Guide.Frames.find? (hf : g.Frames c d locals locals') (hg : g.Guides θ c d) (n : String) :
    Option.Rel (g.Symbols c.unifier d.unifier) (c.find? locals n) (d.find? locals' n) := by
  unfold Checker.find? symbolIn?
  rw [hg.path]
  have hn := hf n
  generalize findIn? (locals ++ [c.globals]) n = s at hn ⊢
  generalize findIn? (locals' ++ [d.globals]) n = s' at hn ⊢
  rcases hn with hs | _
  · exact .some hs
  · dsimp only
    split
    · exact .none
    · exact hf _

theorem Guide.Frames.push (hf : g.Frames c d locals locals') :
    g.Frames c d ([] :: locals) ([] :: locals') := hf

theorem Guide.Frames.bindLocal (hf : g.Frames c d locals locals') (n : String) {t t' : Ty}
    (ht : g.Matches c.unifier d.unifier t t') :
    g.Frames c d (bindLocal locals n t) (bindLocal locals' n t') := by
  intro m
  rw [findIn?_bindLocal_append, findIn?_bindLocal_append]
  split
  · exact .some ⟨.some ht, rfl⟩
  · exact hf m

theorem Guide.Frames.withParams (hf : g.Frames c d locals locals') (ps : List Param)
    {ts ts' : List Ty} (hts : List.Forall₂ (g.Matches c.unifier d.unifier) ts ts') :
    g.Frames c d (withParams locals ps ts) (withParams locals' ps ts') := by
  unfold FunRiscv.withParams
  induction hts generalizing locals locals' ps with
  | nil => simpa using hf
  | cons ht _ ih =>
    cases ps with
    | nil => exact hf
    | cons p ps => exact ih (hf.bindLocal p.name ht) ps

theorem Guide.frames_start (hc : c.Proper locals) :
    (start θ c.unifier).Frames c c locals locals := by
  intro n
  have hsymbols := hc.symbols n
  generalize findIn? (locals ++ [c.globals]) n = s? at hsymbols ⊢
  cases s? with
  | none => exact .none
  | some s =>
    have hvalue := (hsymbols s rfl).value
    refine .some ⟨?_, rfl⟩
    generalize s.value? = t? at hvalue ⊢
    cases t? with
    | none => exact .none
    | some t => exact .some (matches_start (hvalue t rfl))

/-! ### Keeping up -/

theorem Refuses.bind (h : Refuses ops m d) (f : α → Checking β) : Refuses ops (m >>= f) d := by
  obtain ⟨loc, op, l, r, hop, hfails, hknown⟩ := h
  exact ⟨loc, op, l, r, hop, fails_bind.2 (.inl hfails), hknown⟩

theorem Refuses.after {a : α} (h : Refuses ops (f a) d') (ha : Gives m d a d') :
    Refuses ops (m >>= f) d := by
  obtain ⟨loc, op, l, r, hop, hfails, hknown⟩ := h
  exact ⟨loc, op, l, r, hop, fails_bind.2 (.inr ⟨a, d', ha, hfails⟩), hknown⟩

namespace Guide

/-- An action that gives something at once. -/
theorem KeepsUp.of_gives {a : α} (h : Gives m d a d') (hg : g'.Guides θ c' d')
    (hl : g.Leads c.unifier d.unifier g' c'.unifier d'.unifier) (hR : R g' d' a) :
    g.KeepsUp ops θ c d c' m R :=
  .inr ⟨a, d', g', h, hg, hl, hR⟩

theorem KeepsUp.pure {a : α} (hg : g.Guides θ c d) (hR : R g d a) :
    g.KeepsUp ops θ c d c (pure a) R :=
  .of_gives (gives_pure.2 ⟨rfl, rfl⟩) hg (.refl hg.relates) hR

/-- One action after another. -/
theorem KeepsUp.bind (hm : g.KeepsUp ops θ c d c' m R)
    (hf : ∀ a d' g', g'.Guides θ c' d' → g.Leads c.unifier d.unifier g' c'.unifier d'.unifier →
      R g' d' a → g'.KeepsUp ops θ c' d' c'' (f a) Q) : g.KeepsUp ops θ c d c'' (m >>= f) Q := by
  rcases hm with hm | ⟨a, d', g', ha, hg', hl, hR⟩
  · exact .inl (hm.bind f)
  · rcases hf a d' g' hg' hl hR with hrest | ⟨b, d'', g'', hb, hg'', hl', hQ⟩
    · exact .inl (hrest.after ha)
    · exact .inr ⟨b, d'', g'', gives_bind.2 ⟨a, d', ha, hb⟩, hg'', hl.trans hl', hQ⟩

/-- After an action that only reads. -/
theorem KeepsUp.read {a : α} (h : Gives m d a d) (hf : g.KeepsUp ops θ c d c' (f a) Q) :
    g.KeepsUp ops θ c d c' (m >>= f) Q := by
  rcases hf with hrest | ⟨b, d', g', hb, hrest⟩
  · exact .inl (hrest.after h)
  · exact .inr ⟨b, d', g', gives_bind.2 ⟨a, d, h, hb⟩, hrest⟩

theorem KeepsUp.imp (hm : g.KeepsUp ops θ c d c' m R) (h : ∀ g' d' a, R g' d' a → R' g' d' a) :
    g.KeepsUp ops θ c d c' m R' :=
  hm.imp_right fun ⟨a, d', g', ha, hg', hl, hR⟩ => ⟨a, d', g', ha, hg', hl, h _ _ _ hR⟩

theorem KeepsUp.congr {m' : Checking α} (h : (ExceptT.run m).run d = (ExceptT.run m').run d)
    (hm : g.KeepsUp ops θ c d c' m' R) : g.KeepsUp ops θ c d c' m R := by
  unfold KeepsUp Refuses Fails Gives at hm ⊢
  rwa [h]

/-- The free run moved first. -/
theorem KeepsUp.after {c₁ : Checker} {g₁ : Guide}
    (hl : g.Leads c.unifier d.unifier g₁ c₁.unifier d.unifier) (h : g₁.KeepsUp ops θ c₁ d c' m R) :
    g.KeepsUp ops θ c d c' m R :=
  h.imp_right fun ⟨a, d', g', ha, hg', hl', hR⟩ => ⟨a, d', g', ha, hg', hl.trans hl', hR⟩

end Guide

end KeepsUp

/-! ### The unifier -/

section Unifier

variable {g : Guide} {ops : Location → Operator → Prop} {θ : String → Ty} {c c' d : Checker}
  {t t' s s' : Ty}

theorem extends_unified (hc : c.unifier.Plain) (ht : c.unifier.Proper t) (hs : c.unifier.Proper s)
    (h : Unified t s c c') : c.Extends c' := by
  obtain ⟨u, hu, rfl⟩ := h
  exact ⟨(hc.unify ht hs hu).1, rfl, rfl⟩

/-- Types that were unified have the same solution. -/
theorem Checking.Unified.bind_eq (h : Unified t s c c') (hc : c.unifier.Plain)
    (ht : c.unifier.Proper t) (hs : c.unifier.Proper s) (hflex : Ty.Flexible θ)
    (hθ : Subst.Respects θ c'.unifier.subst) : t.bind θ = s.bind θ := by
  obtain ⟨u, hu, rfl⟩ := h
  exact ((hc.respects_unify ht hs hu hflex).1 hθ).2

theorem keepsUp_unify (h : Unified t s c c') (hθ : Subst.Respects θ c'.unifier.subst)
    (hg : g.Guides θ c d) (ht : g.Matches c.unifier d.unifier t t')
    (hs : g.Matches c.unifier d.unifier s s') :
    g.KeepsUp ops θ c d c' (unify t' s') fun _ _ r => r = .ok () := by
  obtain ⟨u, hu, rfl⟩ := h
  obtain ⟨w, g', hw, hrel, hlead⟩ := hg.relates.unify ht hs hu hθ
  exact .of_gives (gives_unify.2 ⟨w, hw, rfl⟩) ⟨hrel, hg.globals, hg.path⟩ hlead rfl

theorem keepsUp_unify_bind {β : Type} {k : Except TypeError Unit → Checking β}
    {R : Guide → Checker → β → Prop} {c₁ : Checker} (h : Unified t s c c₁)
    (hθ : Subst.Respects θ c₁.unifier.subst) (hg : g.Guides θ c d)
    (ht : g.Matches c.unifier d.unifier t t') (hs : g.Matches c.unifier d.unifier s s')
    (hk : ∀ d' g', g'.Guides θ c₁ d' → g.Leads c.unifier d.unifier g' c₁.unifier d'.unifier →
      g'.KeepsUp ops θ c₁ d' c' (k (.ok ())) R) :
    g.KeepsUp ops θ c d c' (unify t' s' >>= k) R :=
  (keepsUp_unify h hθ hg ht hs).bind fun _ d' g' hg' hl hr => hr ▸ hk d' g' hg' hl

theorem keepsUp_unifyAt (h : Unified t s c c') (hθ : Subst.Respects θ c'.unifier.subst)
    (hg : g.Guides θ c d) (ht : g.Matches c.unifier d.unifier t t')
    (hs : g.Matches c.unifier d.unifier s s') (loc : Location) :
    g.KeepsUp ops θ c d c' (unifyAt t' s' loc) fun _ _ _ => True := by
  rw [unifyAt]
  exact keepsUp_unify_bind h hθ hg ht hs fun _ _ hg' _ => .pure hg' trivial

/-- Two types of the guided run that head for the same solution are unified while the
free run waits. -/
theorem keepsUp_unifyAt_guided (hg : g.Guides θ c d) (ht : d.unifier.Proper t)
    (hs : d.unifier.Proper s) (hgoal : t.bind g.goal = s.bind g.goal) (loc : Location) :
    g.KeepsUp ops θ c d c (unifyAt t s loc) fun _ d' _ =>
      d'.unifier.apply t = d'.unifier.apply s := by
  obtain ⟨w, g', hw, happly, hrel, hlead⟩ := hg.relates.unify_guided ht hs hgoal
  exact .of_gives (a := ()) (gives_unifyAt.2 ⟨w, hw, rfl⟩) ⟨hrel, hg.globals, hg.path⟩ hlead happly

/-- Types for which the guided run has the same are unified in the free run. -/
theorem Checking.Unified.guides (h : Unified t s c c') (hg : g.Guides θ c d)
    (ht : c.unifier.Proper t) (hs : c.unifier.Proper s) (heq : t.bind g.image = s.bind g.image) :
    g.Guides θ c' d ∧ g.Leads c.unifier d.unifier g c'.unifier d.unifier := by
  obtain ⟨u, hu, rfl⟩ := h
  obtain ⟨hrel, hlead⟩ := hg.relates.unify_free ht hs hu heq
  exact ⟨⟨hrel, hg.globals, hg.path⟩, hlead⟩

theorem extends_fresh (hc : c.unifier.Plain) (h : Gives fresh c t c') :
    c.Extends c' ∧ c'.unifier.Proper t := by
  obtain ⟨rfl, rfl⟩ := gives_fresh.1 h
  exact ⟨⟨hc.extends_fresh, rfl, rfl⟩, hc.proper_fresh⟩

theorem keepsUp_fresh (h : Gives fresh c t c') (hg : g.Guides θ c d) :
    g.KeepsUp ops θ c d c' fresh fun g' d' t' => g'.Matches c'.unifier d'.unifier t t' := by
  obtain ⟨rfl, rfl⟩ := gives_fresh.1 h
  obtain ⟨g', hrel, hlead, hmatch⟩ := hg.relates.fresh
  exact .of_gives (gives_fresh.2 ⟨rfl, rfl⟩) ⟨hrel, hg.globals, hg.path⟩ hlead hmatch

/-- A fresh variable of the free run, for which the guided run has a type. -/
theorem guides_fresh_for (h : Gives fresh c t c') (hg : g.Guides θ c d) (ht' : d.unifier.Proper t')
    (hgoal : t'.bind g.goal = t.bind θ) :
    ∃ g', g'.Guides θ c' d ∧ g.Leads c.unifier d.unifier g' c'.unifier d.unifier ∧
      g'.Matches c'.unifier d.unifier t t' := by
  obtain ⟨rfl, rfl⟩ := gives_fresh.1 h
  obtain ⟨g', hrel, hlead, hmatch⟩ := hg.relates.fresh_for ht' hgoal
  exact ⟨g', ⟨hrel, hg.globals, hg.path⟩, hlead, hmatch⟩

theorem Checker.Extends.recorded (h : c.Extends c') (i : Nat) (t : Ty) :
    c.Extends (c'.record i t) := ⟨h.unifier, h.globals, h.path⟩

/-- Both runs record a type, which is their result. -/
theorem keepsUp_recorded (i : Nat) (hg : g.Guides θ c d) (ht : g.Matches c.unifier d.unifier t t') :
    g.KeepsUp ops θ c d (c.record i t) (do
      record i t'
      return t') fun g' d' t' => g'.Matches (c.record i t).unifier d'.unifier t t' :=
  .of_gives (gives_bind.2 ⟨⟨⟩, _, gives_record.2 rfl, gives_pure.2 ⟨rfl, rfl⟩⟩) ⟨hg.relates,
    hg.globals, hg.path⟩ (.refl hg.relates) ht

theorem keepsUp_mapM_fresh {α : Type} {xs : List α} {ts : List Ty} (hc : c.unifier.Plain)
    (h : Gives (xs.mapM fun _ => fresh) c ts c') :
    c.Extends c' ∧ (∀ t ∈ ts, c'.unifier.Proper t) ∧ ∀ ⦃g : Guide⦄ ⦃θ : String → Ty⦄ ⦃d : Checker⦄,
      g.Guides θ c d → g.KeepsUp ops θ c d c' (xs.mapM fun _ => fresh) fun g' d' ts' =>
        List.Forall₂ (g'.Matches c'.unifier d'.unifier) ts ts' := by
  induction xs generalizing c ts with
  | nil =>
    rw [List.mapM_nil] at h
    obtain ⟨rfl, rfl⟩ := gives_pure.1 h
    exact ⟨.refl hc, by simp, fun g θ d hg => .pure hg .nil⟩
  | cons x xs ih =>
    rw [List.mapM_cons] at h
    obtain ⟨t, c₁, ht, h⟩ := gives_bind.1 h
    obtain ⟨ts, c₂, hts, h⟩ := gives_bind.1 h
    obtain ⟨rfl, rfl⟩ := gives_pure.1 h
    obtain ⟨hext, hproper⟩ := extends_fresh hc ht
    obtain ⟨hexts, hpropers, hkeeps⟩ := ih hext.unifier.plain hts
    refine ⟨hext.trans hexts, List.forall_mem_cons.2 ⟨hproper.later hexts.unifier, hpropers⟩,
      fun g θ d hg => ?_⟩
    rw [List.mapM_cons]
    refine (keepsUp_fresh ht hg).bind fun t' d₁ g₁ hg₁ _ ht' =>
      (hkeeps hg₁).bind fun ts' d₂ g₂ hg₂ hl₂ hts' => ?_
    exact .pure hg₂ (.cons (ht'.later hl₂) hts')

end Unifier

end FunRiscv
