import Mathlib
import FunRiscv.Proofs.Typing.Steps

/-!
# Inferred types follow the rules

* `Inferred`: what inferring an expression has done: types were recorded for the numbers of
  the expression and no others, and they follow the rules under everything that makes the
  bindings true, now or later.
* `Infers`: inferring an expression always does that. `Infers.tuple` and others: one lemma for
  each kind of expression.
* `infers`: it holds for every expression, by induction over expressions and patterns.
-/

namespace FunRiscv

open Checking

/-! ### What inferring does -/

theorem mem_span {k i : Nat} {e : Expr} : k ∈ span (i, e) ↔ i ≤ k ∧ k < i + e.nodeCount := Iff.rfl

/-- Inferring the expression of number `i` gave a type. -/
structure Inferred (locals : List Frame) (i : Nat) (e : Expr) (c : Checker) (t : Ty)
    (c' : Checker) : Prop where
  advances : Advances (span (i, e)) c c'
  past : t.Over c'.unifier.Past
  recorded : c'.types.lookup i = some t
  typed : ∀ θ r, Settles θ r (span (i, e)) c' → e.Typed r (locals.map (Frame.bind θ)) i

/-- Whenever the expression of number `i` is inferred, its type and those of the expressions under
it follow the rules. -/
def Infers (i : Nat) (e : Expr) : Prop :=
  ∀ ⦃locals : List Frame⦄ ⦃expected : Option Ty⦄ ⦃c c' : Checker⦄ ⦃t : Ty⦄, c.Ready locals →
    (∀ u ∈ expected, u.Over c.unifier.Past) → Gives (infer locals i expected e) c t c' →
    Inferred locals i e c t c'

/-- Whenever a pattern is bound whose literals are numbered from `i` on, its frames
follow the rules. -/
def Binds (i : Nat) (p : Pattern) : Prop :=
  ∀ ⦃locals inner : List Frame⦄ ⦃c c' : Checker⦄ ⦃t : Ty⦄, c.Ready locals → t.Over c.unifier.Past →
    Gives (bindPattern locals i t p) c inner c' →
      Advances (Set.Ico i (i + p.nodeCount)) c c' ∧ c'.Ready inner ∧
        ∀ θ r, Settles θ r (Set.Ico i (i + p.nodeCount)) c' →
          p.Typed r (locals.map (Frame.bind θ)) i (t.bind θ) (inner.map (Frame.bind θ))

variable {locals : List Frame} {c c' c₁ : Checker} {i : Nat} {e : Expr} {t : Ty}

theorem Inferred.types_eq (h : Inferred locals i e c t c') {θ : String → Ty} {r : Report}
    {S : Set Nat} (hi : i ∈ S) (hs : Settles θ r S c') : r.types i = some (t.bind θ) := by
  rw [hs.reads i hi, h.recorded]
  rfl

/-- An expression whose type is recorded last. -/
theorem Inferred.of_record (hadv : Advances (span (i, e)) c c₁) (hpast : t.Over c₁.unifier.Past)
    (htyped : ∀ θ r, Settles θ r (span (i, e) \ {i}) c₁ → r.types i = some (t.bind θ) →
      e.Typed r (locals.map (Frame.bind θ)) i) :
    Inferred locals i e c t (c₁.record i t) := by
  have hi : i ∈ span (i, e) := mem_span.2 ⟨Nat.le_refl i, Nat.lt_add_of_pos_right e.nodeCount_pos⟩
  refine ⟨hadv.record hi t, hpast, by simp [Checker.record], fun θ r hs => ?_⟩
  exact htyped θ r (hs.of_record fun k hk => hk) (hs.types_record hi)

/-! ### Lists of expressions -/

theorem exprsTyped_iff {r : Report} {es : List Expr} :
    exprsTyped r locals i es ↔ ∀ j ∈ jobs i es, j.2.Typed r locals j.1 := by
  induction es generalizing i with
  | nil => simp [exprsTyped, jobs]
  | cons e es ih => simp [exprsTyped, jobs, ih]

theorem namedTyped_iff {r : Report} {ns : List NamedArg} :
    namedTyped r locals i ns ↔ ∀ j ∈ namedJobs i ns, j.value.2.Typed r locals j.value.1 := by
  induction ns generalizing i with
  | nil => simp [namedTyped, namedJobs]
  | cons n ns ih =>
    obtain ⟨loc, n, e⟩ := n
    simp [namedTyped, namedJobs, ih]

theorem Ico_tail_subset (i : Nat) (e : Expr) (es : List Expr) :
    Set.Ico (i + e.nodeCount) (i + e.nodeCount + exprsNodeCount es) ⊆
      Set.Ico i (i + exprsNodeCount (e :: es)) := by
  intro k
  simp only [exprsNodeCount, Set.mem_Ico]
  omega

theorem inferList_spec {es : List Expr} {ts : List Ty} (hes : ∀ j ∈ jobs i es, Infers j.1 j.2)
    (hc : c.Ready locals) (h : Gives (inferList locals i es) c ts c') :
    Advances (Set.Ico i (i + exprsNodeCount es)) c c' ∧ (∀ t ∈ ts, t.Over c'.unifier.Past) ∧
      ∀ θ r, Settles θ r (Set.Ico i (i + exprsNodeCount es)) c' →
        exprsTyped r (locals.map (Frame.bind θ)) i es ∧
          r.HaveTypes (exprNumbers i es) (ts.map (Ty.bind θ)) := by
  induction es generalizing i c ts with
  | nil =>
    rw [inferList] at h
    obtain ⟨rfl, rfl⟩ := gives_pure.1 h
    exact ⟨.refl hc.tidy, by simp, fun θ r _ => ⟨trivial, .nil⟩⟩
  | cons e es ih =>
    rw [inferList, gives_bind] at h
    obtain ⟨t, c₁, ht, h⟩ := h
    rw [gives_bind] at h
    obtain ⟨rest, c₂, hrest, h⟩ := h
    obtain ⟨rfl, rfl⟩ := gives_pure.1 h
    have he := hes (i, e) (by simp [jobs]) hc (by simp) ht
    obtain ⟨hadv, hpast, htyped⟩ :=
      ih (fun j hj => hes j (by simp [jobs, hj])) (hc.later he.advances) hrest
    have hsub := Ico_tail_subset i e es
    have hsub' : span (i, e) ⊆ Set.Ico i (i + exprsNodeCount (e :: es)) :=
      span_subset_of_mem_jobs (by simp [jobs])
    refine ⟨(he.advances.mono hsub').trans (hadv.mono hsub), ?_, fun θ r hs => ?_⟩
    · exact List.forall_mem_cons.2 ⟨hadv.reaches.over he.past, hpast⟩
    · have hs₁ : Settles θ r (span (i, e)) c₁ := hs.before hadv fun k hk => by
        refine ⟨hsub' hk, ?_⟩
        simp only [mem_span, Set.mem_Ico] at hk ⊢
        omega
      obtain ⟨htyped, hhave⟩ := htyped θ r (hs.mono hsub)
      exact ⟨⟨he.typed θ r hs₁, htyped⟩,
        .cons (he.types_eq (mem_span.2 ⟨le_rfl, by have := e.nodeCount_pos; omega⟩) hs₁) hhave⟩

/-- An expression that was inferred under an expected type and unified with it. -/
theorem Inferred.expect {found : Ty} {c₂ : Checker} (he : Inferred locals i e c found c₁)
    (ht : t.Over c.unifier.Past) (hu : Unified t found c₁ c₂) :
    Advances (span (i, e)) c c₂ ∧
      ∀ θ r, Settles θ r (span (i, e)) c₂ → e.Typed r (locals.map (Frame.bind θ)) i ∧
      ∃ u, r.types i = some u ∧ u.Agrees (t.bind θ) := by
  obtain ⟨hadv, hagree⟩ :=
    advances_unified (S := ∅) he.advances.tidy (he.advances.reaches.over ht) he.past hu
  refine ⟨he.advances.trans (hadv.mono (Set.empty_subset _)), fun θ r hs => ?_⟩
  have hs₁ : Settles θ r (span (i, e)) c₁ := hs.before hadv fun k hk => ⟨hk, Set.notMem_empty k⟩
  refine ⟨he.typed θ r hs₁, _, he.types_eq (mem_span.2 ⟨le_rfl, ?_⟩) hs₁,
    (hagree θ hs.respects).symm⟩
  have := e.nodeCount_pos
  omega

theorem expectAll_spec {es : List Expr} {x : Unit} (hes : ∀ j ∈ jobs i es, Infers j.1 j.2)
    (hc : c.Ready locals) (ht : t.Over c.unifier.Past)
    (h : Gives (expectAll locals i t es) c x c') :
    Advances (Set.Ico i (i + exprsNodeCount es)) c c' ∧
      ∀ θ r, Settles θ r (Set.Ico i (i + exprsNodeCount es)) c' →
        exprsTyped r (locals.map (Frame.bind θ)) i es ∧
          ∀ k ∈ exprNumbers i es, ∃ u, r.types k = some u ∧ u.Agrees (t.bind θ) := by
  induction es generalizing i c with
  | nil =>
    rw [expectAll] at h
    obtain ⟨-, rfl⟩ := gives_pure.1 h
    exact ⟨.refl hc.tidy, fun θ r _ => ⟨trivial, by simp [exprNumbers]⟩⟩
  | cons e es ih =>
    rw [expectAll, gives_bind] at h
    obtain ⟨found, c₁, hfound, h⟩ := h
    rw [gives_bind] at h
    obtain ⟨y, c₂, hu, h⟩ := h
    have he := hes (i, e) (by simp [jobs]) hc (by simpa using ht) hfound
    obtain ⟨hadv₁, htyped₁⟩ := he.expect ht (gives_unifyAt.1 hu)
    obtain ⟨hadv₂, htyped₂⟩ :=
      ih (fun j hj => hes j (by simp [jobs, hj])) (hc.later hadv₁) (hadv₁.reaches.over ht) h
    have hsub := Ico_tail_subset i e es
    have hsub' : span (i, e) ⊆ Set.Ico i (i + exprsNodeCount (e :: es)) :=
      span_subset_of_mem_jobs (by simp [jobs])
    refine ⟨(hadv₁.mono hsub').trans (hadv₂.mono hsub), fun θ r hs => ?_⟩
    obtain ⟨hhead, hheadType⟩ := htyped₁ θ r (hs.before hadv₂ fun k hk => by
      refine ⟨hsub' hk, ?_⟩
      simp only [mem_span, Set.mem_Ico] at hk ⊢
      omega)
    obtain ⟨hrest, hrestType⟩ := htyped₂ θ r (hs.mono hsub)
    exact ⟨⟨hhead, hrest⟩, List.forall_mem_cons.2 ⟨hheadType, hrestType⟩⟩

/-! ### Calls -/

/-- An argument that infers the expression of a number. -/
def argument (locals : List Frame) (j : Nat × Expr) : Argument :=
  ⟨j.2.loc, fun t => infer locals j.1 t j.2⟩

theorem arguments_eq (locals : List Frame) (i : Nat) (es : List Expr) :
    arguments locals i es = (jobs i es).map (argument locals) := by
  induction es generalizing i with
  | nil => rw [arguments, jobs, List.map_nil]
  | cons e es ih =>
    rw [arguments, jobs, List.map_cons, ih]
    rfl

theorem namedArguments_eq (locals : List Frame) (i : Nat) (ns : List NamedArg) :
    namedArguments locals i ns = (namedJobs i ns).map (Labelled.map (argument locals)) := by
  induction ns generalizing i with
  | nil => rw [namedArguments, namedJobs, List.map_nil]
  | cons n ns ih =>
    obtain ⟨loc, n, e⟩ := n
    rw [namedArguments, namedJobs, List.map_cons, ih]
    rfl

theorem Ty.walks_any (ts : List Ty) : Ty.any.Walks ts .any := by
  induction ts with
  | nil => exact .done _
  | cons t ts ih => exact .any ih

/-- One argument was passed along a type: it is a function type that takes the argument and whose
result goes on, or is dynamic; or it is dynamic itself. -/
def Passes (callee found next : Ty) : Prop :=
  callee = .any ∨ ∃ q s, callee = .func q s ∧ found.Agrees q ∧ (s = next ∨ s = .any)

theorem Passes.walks {callee found next last out : Ty} {ts : List Ty} (h : Passes callee found next)
    (hw : next.Walks ts last) (hlast : last = out ∨ last = .any) :
    ∃ last', callee.Walks (found :: ts) last' ∧ (last' = out ∨ last' = .any) := by
  rcases h with rfl | ⟨q, s, rfl, hfound, rfl | rfl⟩
  · exact ⟨.any, Ty.walks_any _, .inr rfl⟩
  · exact ⟨last, .func hfound hw, hlast⟩
  · exact ⟨.any, .func hfound (Ty.walks_any _), .inr rfl⟩

/-- The numbers of some expressions and those under them. -/
def spans (js : List (Nat × Expr)) : Set Nat := {k | ∃ j ∈ js, k ∈ span j}

theorem span_subset_spans {j : Nat × Expr} {js : List (Nat × Expr)} (h : j ∈ js) :
    span j ⊆ spans js := fun _ hk => ⟨j, h, hk⟩

/-- What passing one argument does, whatever the type of the callee. -/
structure Passed (locals : List Frame) (j : Nat × Expr) (callee : Ty) (c : Checker) (next : Ty)
    (c' : Checker) : Prop where
  advances : Advances (span j) c c'
  past : next.Over c'.unifier.Past
  typed : ∀ θ r, Settles θ r (span j) c' → j.2.Typed r (locals.map (Frame.bind θ)) j.1 ∧
    ∃ found, r.types j.1 = some found ∧ Passes (callee.bind θ) found (next.bind θ)

theorem self_mem_span (j : Nat × Expr) : j.1 ∈ span j :=
  mem_span.2 ⟨le_rfl, Nat.lt_add_of_pos_right j.2.nodeCount_pos⟩

/-- An argument of a function type. -/
theorem Infers.passed_func {j : Nat × Expr} (hj : Infers j.1 j.2) (hc : c.Ready locals)
    (ht : t.Over c.unifier.Past) {p q : Ty} (hfunc : c.unifier.apply t = .func p q) {x : Unit}
    (h : Gives ((argument locals j).expectType p) c x c') : Passed locals j t c q c' := by
  have hpq : (Ty.func p q).Over c.unifier.Past := hfunc ▸ hc.tidy.apply ht
  rw [Ty.over_func] at hpq
  rw [Argument.expectType, gives_bind] at h
  obtain ⟨found, c₁, hfound, h⟩ := h
  obtain ⟨hadv, htyped⟩ := (hj hc (by simpa using hpq.1) hfound).expect hpq.1 (gives_unifyAt.1 h)
  refine ⟨hadv, hadv.reaches.over hpq.2, fun θ r hs => ?_⟩
  obtain ⟨htree, u, hu, hagree⟩ := htyped θ r hs
  refine ⟨htree, u, hu, .inr ⟨p.bind θ, q.bind θ, ?_, hagree, .inl rfl⟩⟩
  rw [← bind_applied hc.tidy (hadv.reaches.respects hadv.tidy hs.respects) t, hfunc]
  rfl

/-- An argument of a dynamic callee. -/
theorem Infers.passed_any {j : Nat × Expr} (hj : Infers j.1 j.2) (hc : c.Ready locals)
    (ht : t.Over c.unifier.Past) (hany : c.unifier.apply t = .any) {found : Ty}
    (h : Gives (infer locals j.1 none j.2) c found c') : Passed locals j t c t c' := by
  have hfound := hj hc (by simp) h
  refine ⟨hfound.advances, hfound.advances.reaches.over ht,
    fun θ r hs => ⟨hfound.typed θ r hs, found.bind θ, ?_, .inl ?_⟩⟩
  · exact hfound.types_eq (self_mem_span j) hs
  · rw [← bind_applied hc.tidy (hfound.advances.reaches.respects hfound.advances.tidy hs.respects)
      t, hany]
    rfl

/-- An argument of a callee of unknown type. -/
theorem Infers.passed_var {j : Nat × Expr} (hj : Infers j.1 j.2) (hc : c.Ready locals)
    (ht : t.Over c.unifier.Past) {v : String} (hvar : c.unifier.apply t = .var v)
    {found result : Ty} {c₂ : Checker} (h : Gives (infer locals j.1 none j.2) c found c₁)
    (hfresh : Gives fresh c₁ result c₂) (hu : Unified (.var v) (.func found result) c₂ c') :
    Passed locals j t c result c' := by
  have hfound := hj hc (by simp) h
  have hadv := hfound.advances
  have hv : c₁.unifier.Past v := hadv.reaches.past (Ty.over_var.1 (hvar ▸ hc.tidy.apply ht))
  obtain ⟨hadv₂, hresult⟩ := advances_fresh (S := ∅) hadv.tidy hfresh
  obtain ⟨hadv₃, -⟩ := advances_unified (S := ∅) hadv₂.tidy (Ty.over_var.2 (hadv₂.reaches.past hv))
    (Ty.over_func.2 ⟨hadv₂.reaches.over hfound.past, hresult⟩) hu
  have hall : Advances ∅ c₁ c' := hadv₂.trans hadv₃
  refine ⟨hadv.trans (hall.mono (Set.empty_subset _)), hadv₃.reaches.over hresult, fun θ r hs => ?_⟩
  have hs₁ : Settles θ r (span j) c₁ := hs.before hall fun k hk => ⟨hk, Set.notMem_empty k⟩
  refine ⟨hfound.typed θ r hs₁, found.bind θ, hfound.types_eq (self_mem_span j) hs₁, ?_⟩
  -- The new result is a variable that nothing at hand mentions.
  obtain ⟨rfl, rfl⟩ := gives_fresh.1 hfresh
  have hnew : ∀ x, c₁.unifier.Past x → x ≠ c₁.unifier.fresh.1 :=
    fun x hx => hx (c₁.unifier.made + 1) (Nat.lt_succ_self _)
  obtain ⟨u, hu, rfl⟩ := hu
  rw [← bind_applied hc.tidy (hadv.reaches.respects hadv.tidy hs₁.respects) t, hvar]
  exact unify_callee hadv₂.tidy.coherent (hadv.tidy.past.mono hnew) (hnew v hv)
    (hfound.past.mono hnew) hu hs.respects

theorem applyArguments_spec {loc : Location} {js : List (Nat × Expr)}
    (hjs : ∀ j ∈ js, Infers j.1 j.2) (hdisjoint : js.Pairwise fun j k => Disjoint (span j) (span k))
    {out : Ty} (hc : c.Ready locals) (ht : t.Over c.unifier.Past)
    (h : Gives (applyArguments loc t (js.map (argument locals))) c out c') :
    Advances (spans js) c c' ∧ out.Over c'.unifier.Past ∧ ∀ θ r, Settles θ r (spans js) c' →
      (∀ j ∈ js, j.2.Typed r (locals.map (Frame.bind θ)) j.1) ∧
        ∃ ts last, r.HaveTypes (js.map Prod.fst) ts ∧ (t.bind θ).Walks ts last ∧
        (last = out.bind θ ∨ last = .any) := by
  induction js generalizing c t with
  | nil =>
    obtain ⟨rfl, rfl⟩ := gives_pure.1 h
    exact ⟨.refl hc.tidy, ht, fun θ r _ => ⟨by simp, [], out.bind θ, .nil, .done _, .inl rfl⟩⟩
  | cons j js ih =>
    have hj := hjs j (by simp)
    rw [List.pairwise_cons] at hdisjoint
    -- However the first argument is passed, the others follow.
    have tail : ∀ {next : Ty} {c₁ : Checker}, Passed locals j t c next c₁ →
        Gives (applyArguments loc next (js.map (argument locals))) c₁ out c' →
        Advances (spans (j :: js)) c c' ∧ out.Over c'.unifier.Past ∧
          ∀ θ r, Settles θ r (spans (j :: js)) c' →
            (∀ k ∈ j :: js, k.2.Typed r (locals.map (Frame.bind θ)) k.1) ∧
            ∃ ts last, r.HaveTypes ((j :: js).map Prod.fst) ts ∧ (t.bind θ).Walks ts last ∧
            (last = out.bind θ ∨ last = .any) := by
      intro next c₁ hpassed h
      obtain ⟨hadv, hout, htyped⟩ :=
        ih (fun j hj => hjs j (by simp [hj])) hdisjoint.2 (hc.later hpassed.advances) hpassed.past h
      have hsub : spans js ⊆ spans (j :: js) :=
        fun k ⟨l, hl, hk⟩ => ⟨l, List.mem_cons_of_mem _ hl, hk⟩
      refine ⟨(hpassed.advances.mono (span_subset_spans List.mem_cons_self)).trans (hadv.mono hsub),
        hout, fun θ r hs => ?_⟩
      obtain ⟨htree, found, hfound, hpasses⟩ := hpassed.typed θ r (hs.before hadv fun k hk => by
        refine ⟨span_subset_spans List.mem_cons_self hk, ?_⟩
        rintro ⟨l, hl, hkl⟩
        exact Set.disjoint_left.1 (hdisjoint.1 l hl) hk hkl)
      obtain ⟨htrees, ts, last, hts, hwalks, hlast⟩ := htyped θ r (hs.mono hsub)
      obtain ⟨last', hwalks', hlast'⟩ := hpasses.walks hwalks hlast
      exact ⟨List.forall_mem_cons.2 ⟨htree, htrees⟩, found :: ts, last', .cons hfound hts,
        hwalks', hlast'⟩
    rw [List.map_cons, applyArguments, gives_bind] at h
    obtain ⟨a, c₁, ha, h⟩ := h
    obtain ⟨rfl, rfl⟩ := gives_applied.1 ha
    split at h
    · next p q hfunc =>
      rw [gives_bind] at h
      obtain ⟨x, c₂, hx, h⟩ := h
      exact tail (hj.passed_func hc ht hfunc hx) h
    · next hany =>
      rw [gives_bind] at h
      obtain ⟨found, c₂, hfound, h⟩ := h
      exact tail (hj.passed_any hc ht hany hfound) h
    · next v hvar =>
      rw [gives_bind] at h
      obtain ⟨found, c₂, hfound, h⟩ := h
      rw [gives_bind] at h
      obtain ⟨result, c₃, hresult, h⟩ := h
      rw [gives_bind] at h
      obtain ⟨x, c₄, hx, h⟩ := h
      exact tail (hj.passed_var hc ht hvar hfound hresult (gives_unifyAt.1 hx)) h
    · exact (not_gives_fail h).elim

/-! ### One lemma for each kind of expression -/

theorem Infers.literal (ht : e.literalType? = some t) : Infers i e := by
  intro locals expected c c' u hc _ h
  rw [infer_literal ht, gives_bind] at h
  obtain ⟨x, c₁, hx, h⟩ := h
  obtain rfl := gives_record.1 hx
  obtain ⟨rfl, rfl⟩ := gives_pure.1 h
  have hground := literalType?_ground ht
  refine .of_record (.refl hc.tidy) hground.over fun θ r _ htype => literalType?_typed ht ?_
  rw [htype, hground.bind_eq]

theorem Infers.eraser (i : Nat) (loc : Location) : Infers i (.eraser loc) := by
  intro locals expected c c' t hc _ h
  rw [infer, gives_bind] at h
  obtain ⟨u, c₁, hu, h⟩ := h
  rw [gives_bind] at h
  obtain ⟨x, c₂, hx, h⟩ := h
  obtain rfl := gives_record.1 hx
  obtain ⟨rfl, rfl⟩ := gives_pure.1 h
  obtain ⟨hadv, hpast⟩ := advances_fresh hc.tidy hu
  exact .of_record hadv hpast fun θ r _ htype => ⟨_, htype⟩

theorem Infers.var (i : Nat) (loc : Location) (n : String) : Infers i (.var loc n) := by
  intro locals expected c c' t hc _ h
  rw [infer, gives_bind] at h
  obtain ⟨u, c₁, hu, h⟩ := h
  rw [gives_bind] at h
  obtain ⟨x, c₂, hx, h⟩ := h
  obtain rfl := gives_record.1 hx
  obtain ⟨rfl, rfl⟩ := gives_pure.1 h
  obtain ⟨hadv, hpast, s, hs, htype⟩ := inferVar_spec (S := ∅) hc hu
  refine .of_record (hadv.mono (Set.empty_subset _)) hpast fun θ r hset hrec => ?_
  have hset₀ : Settles θ r ∅ c := hset.before hadv fun k hk => (Set.notMem_empty k hk).elim
  exact ⟨s.bind θ, _, by rw [hset₀.symbol? hc, hs]; rfl, htype θ, hrec⟩

theorem Infers.tuple {loc : Location} {es : List Expr}
    (hes : ∀ j ∈ jobs (i + 1) es, Infers j.1 j.2) : Infers i (.tuple loc es) := by
  intro locals expected c c' t hc _ h
  rw [infer, gives_bind] at h
  obtain ⟨ts, c₁, hts, h⟩ := h
  dsimp only at h
  rw [gives_bind] at h
  obtain ⟨x, c₂, hx, h⟩ := h
  obtain rfl := gives_record.1 hx
  obtain ⟨rfl, rfl⟩ := gives_pure.1 h
  obtain ⟨hadv, hpast, htyped⟩ := inferList_spec hes hc hts
  have hsub : ∀ k ∈ Set.Ico (i + 1) (i + 1 + exprsNodeCount es),
    k ∈ span (i, .tuple loc es) \ {i} := by
    intro k
    simp only [Set.mem_Ico, Set.mem_sdiff, Set.mem_singleton_iff, mem_span, Expr.nodeCount]
    omega
  refine .of_record (hadv.mono fun k hk => (hsub k hk).1) (Ty.over_tuple.2 hpast)
    fun θ r hset hrec => ?_
  obtain ⟨htrees, hhave⟩ := htyped θ r (hset.mono hsub)
  refine ⟨htrees, _, hhave, ?_⟩
  rw [hrec, Ty.bind, Ty.bindList_eq_map]

theorem Infers.list {loc : Location} {es : List Expr}
    (hes : ∀ j ∈ jobs (i + 1) es, Infers j.1 j.2) : Infers i (.list loc es) := by
  intro locals expected c c' t hc _ h
  cases es with
  | nil =>
    rw [infer, gives_bind] at h
    obtain ⟨u, c₁, hu, h⟩ := h
    dsimp only at h
    rw [gives_bind] at h
    obtain ⟨x, c₂, hx, h⟩ := h
    obtain rfl := gives_record.1 hx
    obtain ⟨rfl, rfl⟩ := gives_pure.1 h
    obtain ⟨hadv, hpast⟩ := advances_fresh hc.tidy hu
    exact .of_record hadv (Ty.over_named.2 (by simpa using hpast)) fun θ r _ hrec =>
      ⟨trivial, u.bind θ, by simp, hrec⟩
  | cons e es =>
    rw [infer, gives_bind] at h
    obtain ⟨first, c₁, hfirst, h⟩ := h
    rw [gives_bind] at h
    obtain ⟨x, c₂, hrest, h⟩ := h
    rw [gives_bind] at h
    obtain ⟨y, c₃, hy, h⟩ := h
    obtain rfl := gives_record.1 hy
    obtain ⟨rfl, rfl⟩ := gives_pure.1 h
    have he := hes (i + 1, e) (by simp [jobs]) hc (by simp) hfirst
    obtain ⟨hadv, htyped⟩ :=
      expectAll_spec (fun j hj => hes j (by simp [jobs, hj])) (hc.later he.advances) he.past hrest
    have hhead : ∀ k ∈ span (i + 1, e), k ∈ span (i, .list loc (e :: es)) \ {i} := by
      intro k
      simp only [Set.mem_sdiff, Set.mem_singleton_iff, mem_span, Expr.nodeCount, exprsNodeCount]
      omega
    have htail : ∀ k ∈ Set.Ico (i + 1 + e.nodeCount) (i + 1 + e.nodeCount + exprsNodeCount es),
        k ∈ span (i, .list loc (e :: es)) \ {i} := by
      intro k
      simp only [Set.mem_Ico, Set.mem_sdiff, Set.mem_singleton_iff, mem_span, Expr.nodeCount,
        exprsNodeCount]
      omega
    refine .of_record ((he.advances.mono fun k hk => (hhead k hk).1).trans
      (hadv.mono fun k hk => (htail k hk).1))
      (Ty.over_named.2 (by simpa using hadv.reaches.over he.past)) fun θ r hset hrec => ?_
    have hset₁ : Settles θ r (span (i + 1, e)) c₁ := hset.before hadv fun k hk => by
      refine ⟨hhead k hk, ?_⟩
      simp only [mem_span, Set.mem_Ico] at hk ⊢
      omega
    obtain ⟨htrees, hagree⟩ := htyped θ r (hset.mono htail)
    exact ⟨⟨he.typed θ r hset₁, htrees⟩, first.bind θ,
      fun _ => ⟨he.types_eq (self_mem_span _) hset₁, hagree⟩, hrec⟩

theorem Infers.binOp {loc : Location} {op : Operator} {a b : Expr} (ha : Infers (i + 1) a)
    (hb : Infers (i + 1 + a.nodeCount) b) : Infers i (.binOp loc op a b) := by
  intro locals expected c c' t hc _ h
  rw [infer, gives_bind] at h
  obtain ⟨l, c₁, hl, h⟩ := h
  rw [gives_bind] at h
  obtain ⟨m, c₂, hm, h⟩ := h
  rw [gives_bind] at h
  obtain ⟨u, c₃, hu, h⟩ := h
  rw [gives_bind] at h
  obtain ⟨x, c₄, hx, h⟩ := h
  obtain rfl := gives_record.1 hx
  obtain ⟨rfl, rfl⟩ := gives_pure.1 h
  have hleft := ha hc (by simp) hl
  have hright := hb (hc.later hleft.advances) (by simp) hm
  obtain ⟨hadv, hpast, htype⟩ :=
    operationType_spec (S := ∅) hright.advances.tidy (hright.advances.reaches.over hleft.past)
      hright.past hu
  have hsubA : ∀ k ∈ span (i + 1, a), k ∈ span (i, .binOp loc op a b) \ {i} := by
    intro k
    simp only [Set.mem_sdiff, Set.mem_singleton_iff, mem_span, Expr.nodeCount]
    omega
  have hsubB : ∀ k ∈ span (i + 1 + a.nodeCount, b), k ∈ span (i, .binOp loc op a b) \ {i} := by
    intro k
    simp only [Set.mem_sdiff, Set.mem_singleton_iff, mem_span, Expr.nodeCount]
    omega
  refine .of_record (((hleft.advances.mono fun k hk => (hsubA k hk).1).trans
    (hright.advances.mono fun k hk => (hsubB k hk).1)).trans (hadv.mono (Set.empty_subset _))) hpast
    fun θ r hset hrec => ?_
  have hsetB : Settles θ r (span (i + 1 + a.nodeCount, b)) c₂ :=
    hset.before hadv fun k hk => ⟨hsubB k hk, Set.notMem_empty k⟩
  have hsetA : Settles θ r (span (i + 1, a)) c₁ :=
    (hset.before (R := span (i, .binOp loc op a b) \ {i}) hadv fun k hk =>
      ⟨hk, Set.notMem_empty k⟩).before hright.advances
      fun k hk => by
        refine ⟨hsubA k hk, ?_⟩
        simp only [mem_span] at hk ⊢
        omega
  exact ⟨hleft.typed θ r hsetA, hright.typed θ r hsetB, _, _, _,
    .cons (hleft.types_eq (self_mem_span _) hsetA) (.cons (hright.types_eq (self_mem_span _) hsetB)
      (.cons hrec .nil)), htype θ hset.respects⟩

theorem Infers.call {loc : Location} {f : Expr} {args : List Expr} {named : List NamedArg}
    (hf : Infers (i + 1) f) (hargs : ∀ j ∈ jobs (i + 1 + f.nodeCount) args, Infers j.1 j.2)
    (hnamed : ∀ j ∈ namedJobs (i + 1 + f.nodeCount + exprsNodeCount args) named, Infers j.value.1
      j.value.2) :
    Infers i (.call loc f args named) := by
  intro locals expected c c' t hc _ h
  rw [infer, gives_bind] at h
  obtain ⟨callee, c₁, hcallee, h⟩ := h
  dsimp only at h
  rw [gives_bind] at h
  obtain ⟨fields, c₂, hfields, h⟩ := h
  have hfun := hf hc (by simp) hcallee
  have hc₁ := hc.later hfun.advances
  obtain ⟨hsame, hfieldsOf⟩ := calledFields_spec (S := ∅) hc₁ hfields
  subst hsame
  rw [arguments_eq, namedArguments_eq, placeArguments_map] at h
  cases hplaced : placeArguments loc fields (jobs (i + 1 + f.nodeCount) args)
      (namedJobs (i + 1 + f.nodeCount + exprsNodeCount args) named) with
  | error e =>
    rw [hplaced] at h
    exact (not_gives_failWith h).elim
  | ok placed =>
    rw [hplaced] at h
    dsimp only [Except.map] at h
    rw [gives_bind] at h
    obtain ⟨u, c₃, hu, h⟩ := h
    rw [gives_bind] at h
    obtain ⟨x, c₄, hx, h⟩ := h
    obtain rfl := gives_record.1 hx
    obtain ⟨rfl, rfl⟩ := gives_pure.1 h
    have hperm := placeArguments_perm hplaced
    have hjob : ∀ j ∈ placed, Infers j.1 j.2 ∧
        span j ⊆ Set.Ico (i + 1 + f.nodeCount)
          (i + 1 + f.nodeCount + exprsNodeCount args + namedNodeCount named) := by
      intro j hj
      rcases List.mem_append.1 (hperm.mem_iff.1 hj) with hj | hj
      · refine ⟨hargs j hj,
          (span_subset_of_mem_jobs hj).trans (Set.Ico_subset_Ico_right (Nat.le_add_right _ _))⟩
      · obtain ⟨l, hl, rfl⟩ := List.mem_map.1 hj
        exact ⟨hnamed l hl,
          (span_subset_of_mem_namedJobs hl).trans (Set.Ico_subset_Ico_left (Nat.le_add_right _ _))⟩
    obtain ⟨hadv, hpast, htyped⟩ :=
      applyArguments_spec (fun j hj => (hjob j hj).1) (pairwise_disjoint_placed hplaced)
        hc₁ hfun.past hu
    have hspans : ∀ k ∈ spans placed, k ∈ span (i, .call loc f args named) \ {i} ∧
      k ∉ span (i + 1, f) := by
      rintro k ⟨j, hj, hk⟩
      have hk := (hjob j hj).2 hk
      simp only [Set.mem_Ico, Set.mem_sdiff, Set.mem_singleton_iff, mem_span,
        Expr.nodeCount] at hk ⊢
      omega
    have hcalleeSpan : ∀ k ∈ span (i + 1, f), k ∈ span (i, .call loc f args named) \ {i} := by
      intro k
      simp only [Set.mem_sdiff, Set.mem_singleton_iff, mem_span, Expr.nodeCount]
      omega
    refine .of_record ((hfun.advances.mono fun k hk => (hcalleeSpan k hk).1).trans
      (hadv.mono fun k hk => (hspans k hk).1.1)) hpast fun θ r hset hrec => ?_
    have hset₁ : Settles θ r (span (i + 1, f)) c₂ := hset.before hadv fun k hk =>
      ⟨hcalleeSpan k hk, fun hk' => (hspans k hk').2 hk⟩
    obtain ⟨htrees, ts, last, hts, hwalks, hlast⟩ :=
      htyped θ r (hset.mono fun k hk => (hspans k hk).1)
    refine ⟨hfun.typed θ r hset₁, exprsTyped_iff.2 fun j hj => htrees j ?_,
      namedTyped_iff.2 fun j hj => htrees j.value ?_, placed.map Prod.fst, ts, callee.bind θ, last,
      _, ?_, hts, hfun.types_eq (self_mem_span _) hset₁, hwalks, hrec, hlast⟩
    · exact hperm.mem_iff.2 (List.mem_append_left _ hj)
    · exact hperm.mem_iff.2 (List.mem_append_right _ (List.mem_map_of_mem hj))
    · rw [← hfieldsOf θ r (hset₁.mono (Set.empty_subset _)), ← map_fst_jobs, ← map_fst_namedJobs,
        placeArguments_map, hplaced]
      rfl

theorem Infers.lambda {loc : Location} {ps : List Param} {body : Expr}
    (hbody : Infers (i + 1) body) : Infers i (.lambda loc ps body) := by
  intro locals expected c c' t hc hx h
  rw [infer, gives_bind] at h
  obtain ⟨hint, c₁, hhint, h⟩ := h
  obtain ⟨hsame, hover⟩ := lambdaHint_spec hc.tidy hx hhint
  subst hsame
  rw [gives_bind] at h
  obtain ⟨ts, c₂, hts, h⟩ := h
  dsimp only at h
  rw [gives_bind] at h
  obtain ⟨result, c₃, hresult, h⟩ := h
  rw [gives_bind] at h
  obtain ⟨x, c₄, hx, h⟩ := h
  obtain rfl := gives_record.1 hx
  obtain ⟨rfl, rfl⟩ := gives_pure.1 h
  obtain ⟨hadv, hpast, hparams⟩ := lambdaParams_spec (S := ∅) hc hover hts
  have hc₂ : c₂.Ready (withParams ([] :: locals) ps ts) :=
    ⟨hadv.tidy, (hc.later hadv).globals, (hc.later hadv).locals.push.withParams hpast⟩
  have hinner := hbody hc₂ (by simp) hresult
  have hsub : ∀ k ∈ span (i + 1, body), k ∈ span (i, .lambda loc ps body) \ {i} := by
    intro k
    simp only [Set.mem_sdiff, Set.mem_singleton_iff, mem_span, Expr.nodeCount]
    omega
  refine .of_record ((hadv.mono (Set.empty_subset _)).trans
    (hinner.advances.mono fun k hk => (hsub k hk).1)) ?_
    fun θ r hset hrec => ?_
  · exact Ty.over_curry.2 ⟨fun t ht => hinner.advances.reaches.over (hpast t ht), hinner.past⟩
  · have hset₃ : Settles θ r (span (i + 1, body)) c₃ := hset.mono hsub
    have hbodyTyped := hinner.typed θ r hset₃
    rw [withParams_bind] at hbodyTyped
    have hall := hadv.mono (Set.empty_subset (span (i + 1, body))) |>.trans hinner.advances
    refine ⟨ts.map (Ty.bind θ), result.bind θ, hparams θ r ?_ ?_, hbodyTyped,
      hinner.types_eq (self_mem_span _) hset₃, ?_⟩
    · exact hset₃.globals.trans hall.globals_eq
    · exact hset₃.path.trans hall.scopePath_eq
    · rw [hrec, Ty.bind_curry]

theorem Infers.ifElse {loc : Location} {x a b : Expr} (hx : Infers (i + 1) x)
    (ha : Infers (i + 1 + x.nodeCount) a) (hb : Infers (i + 1 + x.nodeCount + a.nodeCount) b) :
    Infers i (.ifElse loc x a b) := by
  intro locals expected c c' t hc _ h
  rw [infer, gives_bind] at h
  obtain ⟨cond, c₁, hcond, h⟩ := h
  rw [gives_bind] at h
  obtain ⟨y, c₂, hy, h⟩ := h
  dsimp only at h
  rw [gives_bind] at h
  obtain ⟨u, c₃, hu, h⟩ := h
  rw [gives_bind] at h
  obtain ⟨v, c₄, hv, h⟩ := h
  rw [gives_bind] at h
  obtain ⟨z, c₅, hz, h⟩ := h
  rw [gives_bind] at h
  obtain ⟨w, c₆, hw, h⟩ := h
  obtain rfl := gives_record.1 hw
  obtain ⟨rfl, rfl⟩ := gives_pure.1 h
  have hc₁ := hx hc (by simp) hcond
  obtain ⟨hadv₂, hcondition⟩ := conditionType_spec (S := ∅) hc₁.advances.tidy hc₁.past hy
  have hready₂ := (hc.later hc₁.advances).later hadv₂
  have hthen := ha hready₂ (by simp) hu
  have helse := hb (hready₂.later hthen.advances) (by simpa using hthen.past) hv
  obtain ⟨hadv₅, hagree⟩ := helse.expect hthen.past (gives_unifyAt.1 hz)
  have hsubX : ∀ k ∈ span (i + 1, x), k ∈ span (i, .ifElse loc x a b) \ {i} := by
    intro k
    simp only [Set.mem_sdiff, Set.mem_singleton_iff, mem_span, Expr.nodeCount]
    omega
  have hsubA : ∀ k ∈ span (i + 1 + x.nodeCount, a), k ∈ span (i, .ifElse loc x a b) \ {i} := by
    intro k
    simp only [Set.mem_sdiff, Set.mem_singleton_iff, mem_span, Expr.nodeCount]
    omega
  have hsubB : ∀ k ∈ span (i + 1 + x.nodeCount + a.nodeCount, b),
    k ∈ span (i, .ifElse loc x a b) \ {i} := by
    intro k
    simp only [Set.mem_sdiff, Set.mem_singleton_iff, mem_span, Expr.nodeCount]
    omega
  refine .of_record
    ((((hc₁.advances.mono fun k hk => (hsubX k hk).1).trans (hadv₂.mono (Set.empty_subset _))).trans
      (hthen.advances.mono fun k hk => (hsubA k hk).1)).trans
    (hadv₅.mono fun k hk => (hsubB k hk).1))
    (hadv₅.reaches.over hthen.past) fun θ r hset hrec => ?_
  have hsetA : Settles θ r (span (i + 1, x) ∪ span (i + 1 + x.nodeCount, a)) c₃ :=
    hset.before hadv₅ fun k hk => by
    refine ⟨hk.elim (hsubX k) (hsubA k), ?_⟩
    simp only [Set.mem_union, mem_span] at hk ⊢
    omega
  have hsetX : Settles θ r (span (i + 1, x)) c₂ := hsetA.before hthen.advances fun k hk => by
    refine ⟨.inl hk, ?_⟩
    simp only [mem_span] at hk ⊢
    omega
  have hsetX₁ : Settles θ r (span (i + 1, x)) c₁ :=
    hsetX.before hadv₂ fun k hk => ⟨hk, Set.notMem_empty k⟩
  have hsetA' := hsetA.mono Set.subset_union_right
  obtain ⟨helseTyped, helseAgrees⟩ := hagree θ r (hset.mono hsubB)
  refine ⟨hc₁.typed θ r hsetX₁, hthen.typed θ r hsetA', helseTyped,
    ⟨_, hc₁.types_eq (self_mem_span _) hsetX₁, hcondition θ hsetX.respects⟩, _,
    ⟨hthen.types_eq (self_mem_span _) hsetA', ?_⟩, hrec⟩
  simpa using helseAgrees

theorem Infers.access {loc : Location} {x : Expr} {field : String} (hx : Infers (i + 1) x) :
    Infers i (.access loc x field) := by
  intro locals expected c c' t hc _ h
  rw [infer, gives_bind] at h
  obtain ⟨target, c₁, htarget, h⟩ := h
  rw [gives_bind] at h
  obtain ⟨u, c₂, hu, h⟩ := h
  rw [gives_bind] at h
  obtain ⟨y, c₃, hy, h⟩ := h
  obtain rfl := gives_record.1 hy
  obtain ⟨rfl, rfl⟩ := gives_pure.1 h
  have hinner := hx hc (by simp) htarget
  obtain ⟨hsame, hpast, hfield⟩ :=
    fieldType_spec (S := span (i + 1, x)) (hc.later hinner.advances) hinner.past hu
  subst hsame
  have hsub : ∀ k ∈ span (i + 1, x), k ∈ span (i, .access loc x field) \ {i} := by
    intro k
    simp only [Set.mem_sdiff, Set.mem_singleton_iff, mem_span, Expr.nodeCount]
    omega
  refine .of_record (hinner.advances.mono fun k hk => (hsub k hk).1) hpast fun θ r hset hrec => ?_
  have hset₁ := hset.mono hsub
  exact ⟨hinner.typed θ r hset₁, _, _, hinner.types_eq (self_mem_span _) hset₁,
    hfield θ r hset₁, hrec⟩

/-! ### Patterns -/

theorem Binds.wild (i : Nat) (loc : Location) : Binds i (.wild loc) := by
  intro locals inner c c' t hc _ h
  rw [bindPattern] at h
  obtain ⟨rfl, rfl⟩ := gives_pure.1 h
  exact ⟨.refl hc.tidy, hc, fun θ r _ => rfl⟩

theorem Binds.var (i : Nat) (loc : Location) (n : String) : Binds i (.var loc n) := by
  intro locals inner c c' t hc ht h
  rw [bindPattern] at h
  obtain ⟨rfl, rfl⟩ := gives_pure.1 h
  exact ⟨.refl hc.tidy, ⟨hc.tidy, hc.globals, hc.locals.bindLocal ht⟩,
    fun θ r _ => bindLocal_bind θ locals n t⟩

theorem Binds.lit {loc : Location} (he : Infers i e) : Binds i (.lit loc e) := by
  intro locals inner c c' t hc ht h
  rw [bindPattern, gives_bind] at h
  obtain ⟨found, c₁, hfound, h⟩ := h
  rw [gives_bind] at h
  obtain ⟨x, c₂, hx, h⟩ := h
  obtain ⟨rfl, rfl⟩ := gives_pure.1 h
  obtain ⟨hadv, htyped⟩ := (he hc (by simp) hfound).expect ht (gives_unifyAt.1 hx)
  refine ⟨hadv, hc.later hadv, fun θ r hs => ?_⟩
  obtain ⟨htree, hagree⟩ := htyped θ r hs
  exact ⟨htree, hagree, rfl⟩

/-- Every pattern of a list, the literals of which are numbered from `i` on, is bound
by the rules. -/
def BindsAll (i : Nat) : List Pattern → Prop
  | [] => True
  | p :: ps => Binds i p ∧ BindsAll (i + p.nodeCount) ps

theorem bindPatterns_spec {ps : List Pattern} {ts : List Ty} {inner : List Frame}
    (hps : BindsAll i ps) (hc : c.Ready locals) (hts : ∀ t ∈ ts, t.Over c.unifier.Past)
    (hlen : ts.length = ps.length) (h : Gives (bindPatterns locals i ts ps) c inner c') :
    Advances (Set.Ico i (i + patternsNodeCount ps)) c c' ∧ c'.Ready inner ∧
      ∀ θ r, Settles θ r (Set.Ico i (i + patternsNodeCount ps)) c' →
        patternsTyped r (locals.map (Frame.bind θ)) i (ts.map (Ty.bind θ)) ps
          (inner.map (Frame.bind θ)) := by
  induction ps generalizing i c ts locals with
  | nil =>
    rw [bindPatterns] at h
    obtain ⟨rfl, rfl⟩ := gives_pure.1 h
    exact ⟨.refl hc.tidy, hc, fun θ r _ => rfl⟩
  | cons p ps ih =>
    cases ts with
    | nil => simp at hlen
    | cons t ts =>
      rw [bindPatterns, gives_bind] at h
      obtain ⟨a, c₁, ha, h⟩ := h
      obtain ⟨rfl, rfl⟩ := gives_applied.1 ha
      rw [gives_bind] at h
      obtain ⟨mid, c₂, hmid, h⟩ := h
      have ht := hts t (by simp)
      obtain ⟨hadv₁, hready, htyped₁⟩ := hps.1 hc (hc.tidy.apply ht) hmid
      obtain ⟨hadv₂, hready₂, htyped₂⟩ :=
        ih hps.2 hready (fun t ht => hadv₁.reaches.over (hts t (by simp [ht])))
          (by simpa using hlen) h
      have hsub₁ : Set.Ico i (i + p.nodeCount) ⊆ Set.Ico i (i + patternsNodeCount (p :: ps)) := by
        intro k
        simp only [Set.mem_Ico, patternsNodeCount]
        omega
      have hsub₂ : Set.Ico (i + p.nodeCount) (i + p.nodeCount + patternsNodeCount ps) ⊆
          Set.Ico i (i + patternsNodeCount (p :: ps)) := by
        intro k
        simp only [Set.mem_Ico, patternsNodeCount]
        omega
      refine ⟨(hadv₁.mono hsub₁).trans (hadv₂.mono hsub₂), hready₂, fun θ r hs => ?_⟩
      have hs₁ : Settles θ r (Set.Ico i (i + p.nodeCount)) c₂ := hs.before hadv₂ fun k hk => by
        refine ⟨hsub₁ hk, ?_⟩
        simp only [Set.mem_Ico] at hk ⊢
        omega
      have hhead := htyped₁ θ r hs₁
      rw [bind_applied hc.tidy (hadv₁.reaches.respects hadv₁.tidy hs₁.respects)] at hhead
      exact ⟨_, _, _, rfl, hhead, htyped₂ θ r (hs.mono hsub₂)⟩

theorem Binds.cons {loc : Location} {n : String} {ps : List Pattern} (hps : BindsAll i ps) :
    Binds i (.cons loc n ps) := by
  intro locals inner c c' t hc ht h
  rw [bindPattern, gives_bind] at h
  obtain ⟨s?, c₁, hs, h⟩ := h
  obtain ⟨rfl, rfl⟩ := gives_find?.1 hs
  split at h
  · exact (not_gives_fail h).elim
  · next k hk =>
    obtain ⟨s, hs, hsk⟩ := Option.bind_eq_some_iff.1 hk
    have htidy : k.Tidy := (hc.known hs).constructor? hsk
    rw [gives_bind] at h
    obtain ⟨sig, c₂, hsig, h⟩ := h
    obtain ⟨hadv₁, hpast, hinst⟩ := advances_instantiate (S := ∅) hc.tidy htidy hsig
    dsimp only at h
    have hcurry : Ty.curry sig.uncurry.1 sig.uncurry.2 = sig := Ty.curry_uncurry sig
    generalize sig.uncurry.1 = params at h hcurry
    generalize sig.uncurry.2 = result at h hcurry
    subst hcurry
    rw [Ty.over_curry] at hpast
    split at h
    · exact (not_gives_fail h).elim
    · next hlen =>
      rw [gives_bind] at h
      obtain ⟨x, c₃, hx, h⟩ := h
      obtain ⟨hadv₂, hagree⟩ :=
        advances_unified (S := ∅) hadv₁.tidy (hadv₁.reaches.over ht) hpast.2 (gives_unifyAt.1 hx)
      have hadv := hadv₁.trans hadv₂
      obtain ⟨hadv₃, hready, htyped⟩ := bindPatterns_spec hps (hc.later hadv)
        (fun t ht => hadv₂.reaches.over (hpast.1 t ht)) (by simpa using hlen) h
      refine ⟨(hadv.mono (Set.empty_subset _)).trans hadv₃, hready, fun θ r hset => ?_⟩
      have hset₃ : Settles θ r ∅ c₃ := hset.before hadv₃ fun k hk => (Set.notMem_empty k hk).elim
      have hset₀ : Settles θ r ∅ c₁ := hset₃.before hadv fun k hk => (Set.notMem_empty k hk).elim
      have hbound := htidy.instance_bind hinst θ
      rw [Ty.bind_curry] at hbound
      refine ⟨k, _, result.bind θ, ?_, hbound, by simpa using hlen, (hagree θ hset₃.respects).symm,
        htyped θ r hset⟩
      rw [hset₀.symbol? hc, hs, Option.map_some, Option.bind_some, Symbol.constructor?_bind, hsk]

theorem gives_mapM_fresh {α : Type} {S : Set Nat} (l : List α) {ts : List Ty} (hc : c.unifier.Tidy)
    (h : Gives (l.mapM fun _ => fresh) c ts c') :
    Advances S c c' ∧ ts.length = l.length ∧ ∀ t ∈ ts, t.Over c'.unifier.Past := by
  induction l generalizing c ts with
  | nil =>
    obtain ⟨rfl, rfl⟩ := gives_pure.1 h
    exact ⟨.refl hc, rfl, by simp⟩
  | cons a l ih =>
    rw [List.mapM_cons, gives_bind] at h
    obtain ⟨t, c₁, ht, h⟩ := h
    rw [gives_bind] at h
    obtain ⟨us, c₂, hus, h⟩ := h
    obtain ⟨rfl, rfl⟩ := gives_pure.1 h
    obtain ⟨hadv₁, hpast⟩ := advances_fresh (S := S) hc ht
    obtain ⟨hadv₂, hlen, hpasts⟩ := ih hadv₁.tidy hus
    exact ⟨hadv₁.trans hadv₂, by simp [hlen],
      List.forall_mem_cons.2 ⟨hadv₂.reaches.over hpast, hpasts⟩⟩

theorem Binds.tuple {loc : Location} {ps : List Pattern} (hps : BindsAll i ps) :
    Binds i (.tuple loc ps) := by
  intro locals inner c c' t hc ht h
  rw [bindPattern, gives_bind] at h
  obtain ⟨ts, c₁, hts, h⟩ := h
  rw [gives_bind] at h
  obtain ⟨x, c₂, hx, h⟩ := h
  obtain ⟨hadv₁, hlen, hpast⟩ := gives_mapM_fresh (S := ∅) ps hc.tidy hts
  obtain ⟨hadv₂, hagree⟩ :=
    advances_unified (S := ∅) hadv₁.tidy (hadv₁.reaches.over ht) (Ty.over_tuple.2 hpast)
      (gives_unifyAt.1 hx)
  have hadv := hadv₁.trans hadv₂
  obtain ⟨hadv₃, hready, htyped⟩ :=
    bindPatterns_spec hps (hc.later hadv) (fun t ht => hadv₂.reaches.over (hpast t ht)) hlen h
  refine ⟨(hadv.mono (Set.empty_subset _)).trans hadv₃, hready, fun θ r hset => ?_⟩
  have hagreed := (hagree θ (hadv₃.reaches.respects hadv₃.tidy hset.respects)).symm
  rw [Ty.bind, Ty.bindList_eq_map] at hagreed
  exact ⟨_, by simpa using hlen, hagreed, htyped θ r hset⟩

/-! ### Matches -/

/-- Every arm of a match, the expressions of which are numbered from `i` on, follows the rules. -/
def InfersCases (i : Nat) : List Case → Prop
  | [] => True
  | .mk _ p body :: cs =>
    Binds i p ∧ Infers (i + p.nodeCount) body ∧ InfersCases (i + p.nodeCount + body.nodeCount) cs

/-- One arm of a match: its pattern, then its body. -/
theorem case_spec {p : Pattern} {body : Expr} {scrutinee found : Ty} {expected : Option Ty}
    {inner : List Frame} {c₂ : Checker} (hp : Binds i p) (hbody : Infers (i + p.nodeCount) body)
    (hc : c.Ready locals) (hs : scrutinee.Over c.unifier.Past)
    (hx : ∀ t ∈ expected, t.Over c.unifier.Past)
    (hinner : Gives (bindPattern ([] :: locals) i scrutinee p) c inner c₁)
    (hfound : Gives (infer inner (i + p.nodeCount) expected body) c₁ found c₂) :
    Advances (Set.Ico i (i + p.nodeCount + body.nodeCount)) c c₂ ∧
      Inferred inner (i + p.nodeCount) body c₁ found c₂ ∧
      ∀ θ r, Settles θ r (Set.Ico i (i + p.nodeCount + body.nodeCount)) c₂ →
        ∃ inner', p.Typed r ([] :: locals.map (Frame.bind θ)) i (scrutinee.bind θ) inner' ∧
          body.Typed r inner' (i + p.nodeCount) := by
  obtain ⟨hadv₁, hready, htyped⟩ := hp hc.push hs hinner
  have hinferred := hbody hready (fun t ht => hadv₁.reaches.over (hx t ht)) hfound
  have hsub₁ : Set.Ico i (i + p.nodeCount) ⊆ Set.Ico i (i + p.nodeCount + body.nodeCount) :=
    Set.Ico_subset_Ico_right (Nat.le_add_right _ _)
  have hsub₂ : span (i + p.nodeCount, body) ⊆ Set.Ico i (i + p.nodeCount + body.nodeCount) :=
    Set.Ico_subset_Ico_left (Nat.le_add_right _ _)
  refine ⟨(hadv₁.mono hsub₁).trans (hinferred.advances.mono hsub₂), hinferred,
    fun θ r hset => ⟨_, htyped θ r ?_, ?_⟩⟩
  · refine hset.before hinferred.advances fun k hk => ⟨hsub₁ hk, ?_⟩
    simp only [Set.mem_Ico, mem_span] at hk ⊢
    omega
  · exact hinferred.typed θ r (hset.mono hsub₂)

/-- Arms after the first one agree with the type found so far. -/
theorem inferCases_some {cs : List Case} {scrutinee : Ty} {out : Option Ty} (hcs : InfersCases i cs)
    (hc : c.Ready locals) (hs : scrutinee.Over c.unifier.Past) (ht : t.Over c.unifier.Past)
    (h : Gives (inferCases locals i scrutinee (some t) cs) c out c') :
    out = some t ∧ Advances (Set.Ico i (i + casesNodeCount cs)) c c' ∧
        ∀ θ r, Settles θ r (Set.Ico i (i + casesNodeCount cs)) c' →
          casesTyped r (locals.map (Frame.bind θ)) i (scrutinee.bind θ) cs ∧
        ∀ k ∈ bodyNumbers i cs, ∃ u, r.types k = some u ∧ u.Agrees (t.bind θ) := by
  induction cs generalizing i c with
  | nil =>
    rw [inferCases] at h
    obtain ⟨rfl, rfl⟩ := gives_pure.1 h
    exact ⟨rfl, .refl hc.tidy, fun θ r _ => ⟨trivial, by simp [bodyNumbers]⟩⟩
  | cons case cs ih =>
    obtain ⟨loc, p, body⟩ := case
    obtain ⟨hp, hbody, hcs⟩ := hcs
    rw [inferCases, gives_bind] at h
    obtain ⟨inner, c₁, hinner, h⟩ := h
    dsimp only at h
    rw [gives_bind] at h
    obtain ⟨found, c₂, hfound, h⟩ := h
    rw [gives_bind] at h
    obtain ⟨x, c₃, hx, h⟩ := h
    simp only [pure_bind] at h
    obtain ⟨hadv, hinferred, htyped⟩ := case_spec hp hbody hc hs (by simpa using ht) hinner hfound
    obtain ⟨hadv₃, hagree⟩ :=
      advances_unified (S := ∅) hadv.tidy (hadv.reaches.over ht) hinferred.past (gives_unifyAt.1 hx)
    have hhead := hadv.trans (hadv₃.mono (Set.empty_subset _))
    obtain ⟨hout, hadv₄, hrest⟩ :=
      ih hcs (hc.later hhead) (hhead.reaches.over hs) (hhead.reaches.over ht) h
    have hsub₁ : Set.Ico i (i + p.nodeCount + body.nodeCount) ⊆
      Set.Ico i (i + casesNodeCount (.mk loc p body :: cs)) := by
      intro k
      simp only [Set.mem_Ico, casesNodeCount]
      omega
    have hsub₂ : Set.Ico (i + p.nodeCount + body.nodeCount)
      (i + p.nodeCount + body.nodeCount + casesNodeCount cs) ⊆
        Set.Ico i (i + casesNodeCount (.mk loc p body :: cs)) := by
      intro k
      simp only [Set.mem_Ico, casesNodeCount]
      omega
    refine ⟨hout, (hhead.mono hsub₁).trans (hadv₄.mono hsub₂), fun θ r hset => ?_⟩
    have hset₃ : Settles θ r (Set.Ico i (i + p.nodeCount + body.nodeCount)) c₃ :=
      hset.before hadv₄ fun k hk => by
      refine ⟨hsub₁ hk, ?_⟩
      simp only [Set.mem_Ico] at hk ⊢
      omega
    have hset₂ :=
      hset₃.before (R := Set.Ico i (i + p.nodeCount + body.nodeCount)) hadv₃ fun k hk =>
        ⟨hk, Set.notMem_empty k⟩
    obtain ⟨hrestTyped, hrestAgree⟩ := hrest θ r (hset.mono hsub₂)
    refine ⟨⟨htyped θ r hset₂, hrestTyped⟩,
      List.forall_mem_cons.2 ⟨⟨_, hinferred.types_eq ?_ hset₂, (hagree θ hset₃.respects).symm⟩,
        hrestAgree⟩⟩
    exact Set.mem_Ico.2 ⟨Nat.le_add_right _ _, Nat.lt_add_of_pos_right body.nodeCount_pos⟩

theorem Infers.matchOn {loc : Location} {x : Expr} {cs : List Case} (hx : Infers (i + 1) x)
    (hcs : InfersCases (i + 1 + x.nodeCount) cs) : Infers i (.matchOn loc x cs) := by
  intro locals expected c c' t hc _ h
  rw [infer, gives_bind] at h
  obtain ⟨scrutinee, c₁, hscrutinee, h⟩ := h
  rw [gives_bind] at h
  obtain ⟨out, c₂, hout, h⟩ := h
  have hinner := hx hc (by simp) hscrutinee
  have hc₁ := hc.later hinner.advances
  cases cs with
  | nil =>
    rw [inferCases] at hout
    obtain ⟨rfl, rfl⟩ := gives_pure.1 hout
    exact (not_gives_fail h).elim
  | cons case cs =>
    obtain ⟨cloc, p, body⟩ := case
    obtain ⟨hp, hbody, hcs⟩ := hcs
    rw [inferCases, gives_bind] at hout
    obtain ⟨inner, c₃, hpattern, hout⟩ := hout
    dsimp only at hout
    rw [gives_bind] at hout
    obtain ⟨found, c₄, hfound, hout⟩ := hout
    simp only [pure_bind] at hout
    obtain ⟨hadv, hinferred, htyped⟩ := case_spec hp hbody hc₁ hinner.past (by simp) hpattern hfound
    obtain ⟨rfl, hadv₂, hrest⟩ :=
      inferCases_some hcs (hc₁.later hadv) (hadv.reaches.over hinner.past) hinferred.past hout
    dsimp only at h
    rw [gives_bind] at h
    obtain ⟨y, c₅, hy, h⟩ := h
    obtain rfl := gives_record.1 hy
    obtain ⟨rfl, rfl⟩ := gives_pure.1 h
    have hsubX : ∀ k ∈ span (i + 1, x), k ∈ span (i, .matchOn loc x (.mk cloc p body :: cs))
      \ {i} := by
      intro k
      simp only [Set.mem_sdiff, Set.mem_singleton_iff, mem_span, Expr.nodeCount, casesNodeCount]
      omega
    have hsubP : ∀ k ∈ Set.Ico (i + 1 + x.nodeCount)
      (i + 1 + x.nodeCount + p.nodeCount + body.nodeCount),
        k ∈ span (i, .matchOn loc x (.mk cloc p body :: cs)) \ {i} := by
      intro k
      simp only [Set.mem_Ico, Set.mem_sdiff, Set.mem_singleton_iff, mem_span, Expr.nodeCount,
        casesNodeCount]
      omega
    have hsubC : ∀ k ∈ Set.Ico (i + 1 + x.nodeCount + p.nodeCount + body.nodeCount)
        (i + 1 + x.nodeCount + p.nodeCount + body.nodeCount + casesNodeCount cs),
        k ∈ span (i, .matchOn loc x (.mk cloc p body :: cs)) \ {i} := by
      intro k
      simp only [Set.mem_Ico, Set.mem_sdiff, Set.mem_singleton_iff, mem_span, Expr.nodeCount,
        casesNodeCount]
      omega
    refine .of_record
      (((hinner.advances.mono fun k hk => (hsubX k hk).1).trans
        (hadv.mono fun k hk => (hsubP k hk).1)).trans (hadv₂.mono fun k hk => (hsubC k hk).1))
      (hadv₂.reaches.over hinferred.past) fun θ r hset hrec => ?_
    have hset₄ : Settles θ r
      (span (i + 1, x) ∪ Set.Ico (i + 1 + x.nodeCount)
        (i + 1 + x.nodeCount + p.nodeCount + body.nodeCount)) c₄ :=
      hset.before hadv₂ fun k hk => by
        refine ⟨hk.elim (hsubX k) (hsubP k), ?_⟩
        simp only [Set.mem_union, mem_span, Set.mem_Ico] at hk ⊢
        omega
    have hset₁ : Settles θ r (span (i + 1, x)) c₁ := hset₄.before hadv fun k hk => by
      refine ⟨.inl hk, ?_⟩
      simp only [mem_span, Set.mem_Ico] at hk ⊢
      omega
    have hsetP := hset₄.mono Set.subset_union_right
    obtain ⟨hrestTyped, hrestAgree⟩ := hrest θ r (hset.mono hsubC)
    refine ⟨hinner.typed θ r hset₁, _, _, hinner.types_eq (self_mem_span _) hset₁,
      ⟨htyped θ r hsetP, hrestTyped⟩, ⟨hinferred.types_eq ?_ hsetP, hrestAgree⟩, hrec⟩
    exact Set.mem_Ico.2 ⟨Nat.le_add_right _ _, Nat.lt_add_of_pos_right body.nodeCount_pos⟩

/-! ### All expressions -/

mutual

/-- Inferred types follow the rules, for every expression. -/
theorem infers : ∀ (e : Expr) (i : Nat), Infers i e
  | .uint .., _ | .int .., _ | .float .., _ | .str .., _ | .bool .., _ => .literal rfl
  | .eraser loc, i => .eraser i loc
  | .var loc n, i => .var i loc n
  | .tuple _ es, i => .tuple (infersAll es (i + 1))
  | .list _ es, i => .list (infersAll es (i + 1))
  | .binOp _ _ a b, _ => .binOp (infers a _) (infers b _)
  | .call _ f args named, _ => .call (infers f _) (infersAll args _) (infersNamed named _)
  | .lambda _ _ body, _ => .lambda (infers body _)
  | .ifElse _ x a b, _ => .ifElse (infers x _) (infers a _) (infers b _)
  | .matchOn _ x cs, _ => .matchOn (infers x _) (infersCases cs _)
  | .access _ x _, _ => .access (infers x _)
  | .missing, _ => fun _ _ _ _ _ _ _ h => (not_gives_infer_missing h).elim

theorem infersAll : ∀ (es : List Expr) (i : Nat), ∀ j ∈ jobs i es, Infers j.1 j.2
  | [], _ => by simp [jobs]
  | e :: es, i => List.forall_mem_cons.2 ⟨infers e i, infersAll es _⟩

theorem infersNamed :
    ∀ (ns : List NamedArg) (i : Nat), ∀ j ∈ namedJobs i ns, Infers j.value.1 j.value.2
  | [], _ => by simp [namedJobs]
  | .mk _ _ e :: ns, i => List.forall_mem_cons.2 ⟨infers e i, infersNamed ns _⟩

theorem infersCases : ∀ (cs : List Case) (i : Nat), InfersCases i cs
  | [], _ => trivial
  | .mk _ p body :: cs, i => ⟨binds p i, infers body _, infersCases cs _⟩

/-- Patterns are bound by the rules. -/
theorem binds : ∀ (p : Pattern) (i : Nat), Binds i p
  | .wild loc, i => .wild i loc
  | .var loc n, i => .var i loc n
  | .lit _ e, i => .lit (infers e i)
  | .cons _ _ ps, i => .cons (bindsAll ps i)
  | .tuple _ ps, i => .tuple (bindsAll ps i)
  | .missing, _ => fun _ _ _ _ _ _ _ h => (not_gives_bindPattern_missing h).elim

theorem bindsAll : ∀ (ps : List Pattern) (i : Nat), BindsAll i ps
  | [], _ => trivial
  | p :: ps, i => ⟨binds p i, bindsAll ps _⟩

end

end FunRiscv
