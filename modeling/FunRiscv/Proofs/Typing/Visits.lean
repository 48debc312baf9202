import Mathlib
import FunRiscv.Proofs.Typing.Soundness

/-!
# Every expression is inferred

Checking a program infers each of its expressions once, and what was recorded then stays.

* `Extends`: what a checker keeps while other expressions, statements and functions are checked.
* `Visited`: an expression was inferred on the way to a checker. `Visits`: all
  expressions of a list were.
* `tours`, `toursPattern`: inferring an expression and binding a pattern visits every
  expression under them.
* `Program.visited_of_check`: checking a program visits the expression of every number.
-/

namespace FunRiscv

open Checking

/-! ### Numbers of nodes -/

mutual

theorem Expr.length_nodes : ∀ e : Expr, e.nodes.length = e.nodeCount
  | .tuple _ es | .list _ es => by simp [Expr.nodes, Expr.nodeCount, exprsNodes_length es]
  | .binOp _ _ l r => by simp [Expr.nodes, Expr.nodeCount, l.length_nodes, r.length_nodes]
  | .call _ f as ns => by
    simp [Expr.nodes, Expr.nodeCount, f.length_nodes, exprsNodes_length as, namedNodes_length ns,
      Nat.add_assoc]
  | .lambda _ _ b => by simp [Expr.nodes, Expr.nodeCount, b.length_nodes]
  | .ifElse _ c t f => by
    simp [Expr.nodes, Expr.nodeCount, c.length_nodes, t.length_nodes, f.length_nodes, Nat.add_assoc]
  | .matchOn _ x cs => by simp [Expr.nodes, Expr.nodeCount, x.length_nodes, casesNodes_length cs]
  | .access _ x _ => by simp [Expr.nodes, Expr.nodeCount, x.length_nodes]
  | .var .. | .uint .. | .int .. | .float .. | .str .. | .bool .. | .eraser .. | .missing => rfl

theorem exprsNodes_length : ∀ es : List Expr, (exprsNodes es).length = exprsNodeCount es
  | [] => rfl
  | e :: es => by simp [exprsNodes, exprsNodeCount, e.length_nodes, exprsNodes_length es]

theorem namedNodes_length : ∀ ns : List NamedArg, (namedNodes ns).length = namedNodeCount ns
  | [] => rfl
  | .mk _ _ e :: ns => by simp [namedNodes, namedNodeCount, e.length_nodes, namedNodes_length ns]

theorem casesNodes_length : ∀ cs : List Case, (casesNodes cs).length = casesNodeCount cs
  | [] => rfl
  | .mk _ p e :: cs => by
    simp [casesNodes, casesNodeCount, p.length_nodes, e.length_nodes, casesNodes_length cs,
      Nat.add_assoc]

theorem Pattern.length_nodes : ∀ p : Pattern, p.nodes.length = p.nodeCount
  | .lit _ e => e.length_nodes
  | .cons _ _ ps
  | .tuple _ ps => by simp [Pattern.nodes, Pattern.nodeCount, patternsNodes_length ps]
  | .var .. | .wild .. | .missing => rfl

theorem patternsNodes_length : ∀ ps : List Pattern, (patternsNodes ps).length = patternsNodeCount ps
  | [] => rfl
  | p :: ps => by simp [patternsNodes, patternsNodeCount, p.length_nodes, patternsNodes_length ps]

end

mutual

theorem Stmt.length_nodes : ∀ s : Stmt, s.nodes.length = s.nodeCount
  | .ret _ none | .missing => rfl
  | .ret _ (some e) | .assign _ _ _ e | .use _ _ e | .expr _ e => e.length_nodes
  | .ifThen _ c _ t => by simp [Stmt.nodes, Stmt.nodeCount, c.length_nodes, stmtsNodes_length t]
  | .ifElse _ c _ t _ f => by
    simp [Stmt.nodes, Stmt.nodeCount, c.length_nodes, stmtsNodes_length t, stmtsNodes_length f,
      Nat.add_assoc]

theorem stmtsNodes_length : ∀ ss : List Stmt, (stmtsNodes ss).length = stmtsNodeCount ss
  | [] => rfl
  | s :: ss => by simp [stmtsNodes, stmtsNodeCount, s.length_nodes, stmtsNodes_length ss]

end

/-! ### Visits -/

/-- The unifier moved on, and types of expressions with numbers in a set were recorded. -/
structure Extends (S : Set Nat) (c c' : Checker) : Prop where
  tidy : c'.unifier.Tidy
  reaches : c.unifier.Reaches c'.unifier
  types : ∃ new, c'.types = new ++ c.types ∧ ∀ e ∈ new, e.1 ∈ S

section Extends

variable {S T : Set Nat} {c c' c'' : Checker}

theorem Advances.extends (h : Advances S c c') : Extends S c c' := ⟨h.tidy, h.reaches, h.types⟩

theorem Extends.trans (h : Extends S c c') (h' : Extends T c' c'') : Extends (S ∪ T) c c'' := by
  obtain ⟨new, hnew, hS⟩ := h.types
  obtain ⟨new', hnew', hT⟩ := h'.types
  refine ⟨h'.tidy, h.reaches.trans h'.reaches, new' ++ new, by rw [hnew', hnew, List.append_assoc],
    ?_⟩
  intro e he
  rcases List.mem_append.1 he with he | he
  · exact .inr (hT e he)
  · exact .inl (hS e he)

theorem Extends.lookup_eq (h : Extends S c c') {k : Nat} (hk : k ∉ S) :
    c'.types.lookup k = c.types.lookup k := by
  obtain ⟨new, hnew, hS⟩ := h.types
  have hnone : new.lookup k = none := by
    rw [List.lookup_eq_none_iff]
    intro e he
    have hne : k ≠ e.1 := by
      rintro rfl
      exact hk (hS e he)
    simpa using hne
  rw [hnew, List.lookup_append, hnone, Option.none_or]

end Extends

/-- An expression with its number was inferred on the way to a checker, and nothing was recorded for
its numbers since. -/
def Visited (x : Expr × Nat) (c : Checker) : Prop :=
  ∃ (locals : List Frame) (expected : Option Ty) (c₀ c₁ : Checker) (t : Ty) (later : Set Nat),
    c₀.Ready locals ∧ (∀ u ∈ expected, u.Over c₀.unifier.Past) ∧
    Gives (infer locals x.2 expected x.1) c₀ t c₁ ∧ Extends later c₁ c ∧
    Disjoint (span (x.2, x.1)) later

/-- All expressions of a list, numbered from `i` on, were inferred; the numbers under
them are in a set. -/
def Visits (S : Set Nat) (i : Nat) (nodes : List Expr) (c : Checker) : Prop :=
  ∀ x ∈ nodes.zipIdx i, span (x.2, x.1) ⊆ S ∧ Visited x c

section Visits

variable {S T : Set Nat} {i : Nat} {nodes nodes' : List Expr} {c c' : Checker}

theorem Visited.later {x : Expr × Nat} (h : Visited x c) (he : Extends T c c')
    (hT : Disjoint (span (x.2, x.1)) T) : Visited x c' := by
  obtain ⟨locals, expected, c₀, c₁, t, S, hc, hx, hrun, hS, hdisj⟩ := h
  exact ⟨locals, expected, c₀, c₁, t, S ∪ T, hc, hx, hrun, hS.trans he,
    Set.disjoint_union_right.2 ⟨hdisj, hT⟩⟩

theorem Visits.nil : Visits S i [] c := by simp [Visits]

theorem Visits.mono (h : Visits S i nodes c) (hST : S ⊆ T) : Visits T i nodes c := fun x hx =>
  ⟨(h x hx).1.trans hST, (h x hx).2⟩

theorem Visits.later (h : Visits S i nodes c) (he : Extends T c c') (hT : Disjoint S T) :
    Visits S i nodes c' := fun x hx =>
  ⟨(h x hx).1, (h x hx).2.later he (hT.mono_left (h x hx).1)⟩

/-- Nothing was recorded since. -/
theorem Visits.still (h : Visits S i nodes c) (ha : Advances ∅ c c') : Visits S i nodes c' :=
  h.later ha.extends (Set.disjoint_empty _)

/-- Only greater numbers were recorded since. -/
theorem Visits.beyond {low high low' high' : Nat} (h : Visits (Set.Ico low high) i nodes c)
    (ha : Advances (Set.Ico low' high') c c') (hle : high ≤ low') :
    Visits (Set.Ico low high) i nodes c' :=
  h.later ha.extends (disjoint_Ico hle (Set.Subset.refl _) (Set.Subset.refl _))

theorem Visits.append (h : Visits S i nodes c) (h' : Visits S (i + nodes.length) nodes' c) :
    Visits S i (nodes ++ nodes') c := by
  intro x hx
  rw [List.zipIdx_append, List.mem_append] at hx
  exact hx.elim (h x) (h' x)

/-- The nodes of the expressions of a list are those of each. -/
theorem Visits.exprs {es : List Expr} (h : ∀ j ∈ jobs i es, Visits S j.1 j.2.nodes c) :
    Visits S i (exprsNodes es) c := by
  induction es generalizing i with
  | nil => exact .nil
  | cons e es ih =>
    rw [exprsNodes]
    refine .append (h (i, e) List.mem_cons_self) ?_
    rw [e.length_nodes]
    exact ih fun j hj => h j (List.mem_cons_of_mem _ hj)

theorem Visits.named {ns : List NamedArg}
    (h : ∀ j ∈ namedJobs i ns, Visits S j.value.1 j.value.2.nodes c) :
    Visits S i (namedNodes ns) c := by
  induction ns generalizing i with
  | nil => exact .nil
  | cons n ns ih =>
    obtain ⟨loc, n, e⟩ := n
    rw [namedNodes]
    refine .append (h _ List.mem_cons_self) ?_
    rw [e.length_nodes]
    exact ih fun j hj => h j (List.mem_cons_of_mem _ hj)

end Visits

/-! ### Tours -/

/-- Whenever the expression of number `i` is inferred, every expression under it is. -/
def Tours (i : Nat) (e : Expr) : Prop :=
  ∀ ⦃locals : List Frame⦄ ⦃expected : Option Ty⦄ ⦃c c' : Checker⦄ ⦃t : Ty⦄, c.Ready locals →
    (∀ u ∈ expected, u.Over c.unifier.Past) → Gives (infer locals i expected e) c t c' →
    Visits (span (i, e)) i e.nodes c'

/-- Whenever a pattern is bound, every expression under it is inferred. -/
def ToursPattern (i : Nat) (p : Pattern) : Prop :=
  ∀ ⦃locals inner : List Frame⦄ ⦃c c' : Checker⦄ ⦃t : Ty⦄, c.Ready locals → t.Over c.unifier.Past →
    Gives (bindPattern locals i t p) c inner c' → Visits (Set.Ico i (i + p.nodeCount)) i p.nodes c'

variable {locals : List Frame} {expected : Option Ty} {c c' c₁ c₂ : Checker} {i : Nat}
  {e : Expr} {t : Ty}

/-- An expression whose type is recorded last, after the expressions under it were visited. -/
theorem Visits.node {rest : List Expr} (hc : c.Ready locals)
    (hx : ∀ u ∈ expected, u.Over c.unifier.Past)
    (h : Gives (infer locals i expected e) c t (c₁.record i t))
    (hrest : Visits (span (i, e) \ {i}) (i + 1) rest c₁) :
    Visits (span (i, e)) i (e :: rest) (c₁.record i t) := by
  have htidy : c₁.unifier.Tidy := (infers e i hc hx h).advances.tidy
  have hrecord : Extends {i} c₁ (c₁.record i t) :=
    ((Advances.refl htidy).record (Set.mem_singleton i) t).extends
  intro x hmem
  rw [List.zipIdx_cons, List.mem_cons] at hmem
  rcases hmem with rfl | hmem
  · have hself : Advances ∅ (c₁.record i t) (c₁.record i t) := .refl htidy
    exact ⟨Set.Subset.refl _, locals, expected, c, _, t, ∅, hc, hx, h, hself.extends,
      Set.disjoint_empty _⟩
  · obtain ⟨hsub, hvisited⟩ := hrest x hmem
    exact ⟨hsub.trans Set.sdiff_subset,
      hvisited.later hrecord (Set.disjoint_sdiff_left.mono_left hsub)⟩

/-- The numbers below an expression are apart from its own. -/
theorem Ico_subset_under {k n : Nat} (h : k + n = e.nodeCount) (hk : 0 < k) :
    Set.Ico (i + k) (i + k + n) ⊆ span (i, e) \ {i} := by
  intro m
  simp only [Set.mem_Ico, Set.mem_sdiff, Set.mem_singleton_iff, mem_span]
  omega

theorem Tours.atom (hnodes : e.nodes = [e])
    (hrecord : ∀ ⦃locals expected c c' t⦄, Gives (infer locals i expected e) c t c' →
      ∃ c₁ : Checker, c' = c₁.record i t) : Tours i e := by
  intro locals expected c c' t hc hx h
  obtain ⟨c₁, rfl⟩ := hrecord h
  rw [hnodes]
  exact .node hc hx h .nil

/-- An expression that was inferred and whose type was unified with another. -/
theorem Tours.expect (he : Tours i e) (hc : c.Ready locals)
    (hx : ∀ u ∈ expected, u.Over c.unifier.Past) (ht : t.Over c.unifier.Past) {found : Ty}
    (hfound : Gives (infer locals i expected e) c found c₁) (hu : Unified t found c₁ c₂) :
    Visits (span (i, e)) i e.nodes c₂ := by
  have hinferred := infers e i hc hx hfound
  obtain ⟨hunified, -⟩ :=
    advances_unified (S := ∅) hinferred.advances.tidy (hinferred.advances.reaches.over ht)
      hinferred.past hu
  exact (he hc hx hfound).still hunified

/-! ### Lists of expressions -/

theorem inferList_tours {es : List Expr} {ts : List Ty} (hes : ∀ j ∈ jobs i es, Tours j.1 j.2)
    (hc : c.Ready locals) (h : Gives (inferList locals i es) c ts c') :
    ∀ j ∈ jobs i es, Visits (span j) j.1 j.2.nodes c' := by
  induction es generalizing i c ts with
  | nil => simp [jobs]
  | cons e es ih =>
    rw [inferList, gives_bind] at h
    obtain ⟨t, c₁, ht, h⟩ := h
    rw [gives_bind] at h
    obtain ⟨rest, c₂, hrest, h⟩ := h
    obtain ⟨rfl, rfl⟩ := gives_pure.1 h
    have hready := hc.later (infers e i hc (by simp) ht).advances
    have hadv := (inferList_spec (infersAll es _) hready hrest).1
    rw [jobs, List.forall_mem_cons]
    exact ⟨(hes (i, e) (by simp [jobs]) hc (by simp) ht).beyond hadv (Nat.le_refl _),
      ih (fun j hj => hes j (by simp [jobs, hj])) hready hrest⟩

theorem expectAll_tours {es : List Expr} {x : Unit} (hes : ∀ j ∈ jobs i es, Tours j.1 j.2)
    (hc : c.Ready locals) (ht : t.Over c.unifier.Past)
    (h : Gives (expectAll locals i t es) c x c') :
    ∀ j ∈ jobs i es, Visits (span j) j.1 j.2.nodes c' := by
  induction es generalizing i c with
  | nil => simp [jobs]
  | cons e es ih =>
    rw [expectAll, gives_bind] at h
    obtain ⟨found, c₁, hfound, h⟩ := h
    rw [gives_bind] at h
    obtain ⟨y, c₂, hu, h⟩ := h
    obtain ⟨hadv₁, -⟩ := (infers e i hc (by simpa using ht) hfound).expect ht (gives_unifyAt.1 hu)
    have hadv₂ := (expectAll_spec (infersAll es _) (hc.later hadv₁) (hadv₁.reaches.over ht) h).1
    rw [jobs, List.forall_mem_cons]
    refine ⟨?_, ih (fun j hj => hes j (by simp [jobs, hj])) (hc.later hadv₁)
      (hadv₁.reaches.over ht) h⟩
    have hvisits :=
      (hes (i, e) (by simp [jobs])).expect hc (by simpa using ht) ht hfound (gives_unifyAt.1 hu)
    exact hvisits.beyond hadv₂ (Nat.le_refl _)

/-! ### Arguments -/

theorem applyArguments_tours {loc : Location} {js : List (Nat × Expr)}
    (hjs : ∀ j ∈ js, Tours j.1 j.2) (hdisjoint : js.Pairwise fun j k => Disjoint (span j) (span k))
    {out : Ty} (hc : c.Ready locals) (ht : t.Over c.unifier.Past)
    (h : Gives (applyArguments loc t (js.map (argument locals))) c out c') :
    ∀ j ∈ js, Visits (span j) j.1 j.2.nodes c' := by
  induction js generalizing c t with
  | nil => simp
  | cons j js ih =>
    have hj := hjs j (by simp)
    rw [List.pairwise_cons] at hdisjoint
    -- However the first argument is passed, the others follow and record other numbers.
    have tail : ∀ {next : Ty} {c₁ : Checker}, Passed locals j t c next c₁ →
        Visits (span j) j.1 j.2.nodes c₁ →
        Gives (applyArguments loc next (js.map (argument locals))) c₁ out c' →
        ∀ k ∈ j :: js, Visits (span k) k.1 k.2.nodes c' := by
      intro next c₁ hpassed hvisits h
      have hc₁ := hc.later hpassed.advances
      have hadv :=
        (applyArguments_spec (fun j _ => infers j.2 j.1) hdisjoint.2 hc₁ hpassed.past h).1
      rw [List.forall_mem_cons]
      refine ⟨hvisits.later hadv.extends (Set.disjoint_left.2 ?_),
        ih (fun j hj => hjs j (by simp [hj])) hdisjoint.2 hc₁ hpassed.past h⟩
      rintro k hk ⟨l, hl, hkl⟩
      exact Set.disjoint_left.1 (hdisjoint.1 l hl) hk hkl
    rw [List.map_cons, applyArguments, gives_bind] at h
    obtain ⟨a, c₁, ha, h⟩ := h
    obtain ⟨rfl, rfl⟩ := gives_applied.1 ha
    split at h
    · next p q hfunc =>
      rw [gives_bind] at h
      obtain ⟨x, c₂, hx, h⟩ := h
      have hpassed := (infers j.2 j.1).passed_func hc ht hfunc hx
      have hp : p.Over c₁.unifier.Past := (Ty.over_func.1 (hfunc ▸ hc.tidy.apply ht)).1
      rw [Argument.expectType, gives_bind] at hx
      obtain ⟨found, c₃, hfound, hu⟩ := hx
      exact tail hpassed (hj.expect hc (by simpa using hp) hp hfound (gives_unifyAt.1 hu)) h
    · next hany =>
      rw [gives_bind] at h
      obtain ⟨found, c₂, hfound, h⟩ := h
      exact tail ((infers j.2 j.1).passed_any hc ht hany hfound) (hj hc (by simp) hfound) h
    · next v hvar =>
      rw [gives_bind] at h
      obtain ⟨found, c₂, hfound, h⟩ := h
      rw [gives_bind] at h
      obtain ⟨result, c₃, hresult, h⟩ := h
      rw [gives_bind] at h
      obtain ⟨x, c₄, hx, h⟩ := h
      have hinferred := infers j.2 j.1 hc (by simp) hfound
      have hv : c₂.unifier.Past v :=
        hinferred.advances.reaches.past (Ty.over_var.1 (hvar ▸ hc.tidy.apply ht))
      obtain ⟨hfresh, hover⟩ := advances_fresh (S := ∅) hinferred.advances.tidy hresult
      obtain ⟨hunified, -⟩ :=
        advances_unified (S := ∅) hfresh.tidy (Ty.over_var.2 (hfresh.reaches.past hv))
          (Ty.over_func.2 ⟨hfresh.reaches.over hinferred.past, hover⟩) (gives_unifyAt.1 hx)
      refine tail ((infers j.2 j.1).passed_var hc ht hvar hfound hresult (gives_unifyAt.1 hx)) ?_ h
      exact (hj hc (by simp) hfound).still (hfresh.trans hunified)
    · exact (not_gives_fail h).elim

/-! ### One lemma for each kind of expression -/

theorem Tours.literal (ht : e.literalType? = some t) : Tours i e := by
  refine .atom ?_ ?_
  · cases e <;> first | rfl | simp [Expr.literalType?] at ht
  · intro locals expected c c' u h
    rw [infer_literal ht, gives_bind] at h
    obtain ⟨x, c₁, hx, h⟩ := h
    obtain rfl := gives_record.1 hx
    obtain ⟨rfl, rfl⟩ := gives_pure.1 h
    exact ⟨c, rfl⟩

theorem Tours.eraser (i : Nat) (loc : Location) : Tours i (.eraser loc) := by
  refine .atom rfl ?_
  intro locals expected c c' t h
  rw [infer, gives_bind] at h
  obtain ⟨u, c₁, hu, h⟩ := h
  rw [gives_bind] at h
  obtain ⟨x, c₂, hx, h⟩ := h
  obtain rfl := gives_record.1 hx
  obtain ⟨rfl, rfl⟩ := gives_pure.1 h
  exact ⟨c₁, rfl⟩

theorem Tours.var (i : Nat) (loc : Location) (n : String) : Tours i (.var loc n) := by
  refine .atom rfl ?_
  intro locals expected c c' t h
  rw [infer, gives_bind] at h
  obtain ⟨u, c₁, hu, h⟩ := h
  rw [gives_bind] at h
  obtain ⟨x, c₂, hx, h⟩ := h
  obtain rfl := gives_record.1 hx
  obtain ⟨rfl, rfl⟩ := gives_pure.1 h
  exact ⟨c₁, rfl⟩

theorem Tours.tuple {loc : Location} {es : List Expr} (hes : ∀ j ∈ jobs (i + 1) es, Tours j.1 j.2) :
    Tours i (.tuple loc es) := by
  intro locals expected c c' t hc hx h
  have hrun := h
  rw [infer, gives_bind] at h
  obtain ⟨ts, c₁, hts, h⟩ := h
  dsimp only at h
  rw [gives_bind] at h
  obtain ⟨x, c₂, hx', h⟩ := h
  obtain rfl := gives_record.1 hx'
  obtain ⟨rfl, rfl⟩ := gives_pure.1 h
  refine .node hc hx hrun (.exprs fun j hj => ?_)
  refine (inferList_tours hes hc hts j hj).mono
    ((span_subset_of_mem_jobs hj).trans (Ico_subset_under ?_ Nat.one_pos))
  rw [Expr.nodeCount, Nat.add_comm]

theorem Tours.list {loc : Location} {es : List Expr} (hes : ∀ j ∈ jobs (i + 1) es, Tours j.1 j.2) :
    Tours i (.list loc es) := by
  intro locals expected c c' t hc hx h
  have hrun := h
  cases es with
  | nil =>
    rw [infer, gives_bind] at h
    obtain ⟨u, c₁, hu, h⟩ := h
    dsimp only at h
    rw [gives_bind] at h
    obtain ⟨x, c₂, hx', h⟩ := h
    obtain rfl := gives_record.1 hx'
    obtain ⟨rfl, rfl⟩ := gives_pure.1 h
    exact .node hc hx hrun .nil
  | cons e es =>
    rw [infer, gives_bind] at h
    obtain ⟨first, c₁, hfirst, h⟩ := h
    rw [gives_bind] at h
    obtain ⟨x, c₂, hrest, h⟩ := h
    rw [gives_bind] at h
    obtain ⟨y, c₃, hy, h⟩ := h
    obtain rfl := gives_record.1 hy
    obtain ⟨rfl, rfl⟩ := gives_pure.1 h
    have he := infers e (i + 1) hc (by simp) hfirst
    have hc₁ := hc.later he.advances
    have hadv := (expectAll_spec (infersAll es _) hc₁ he.past hrest).1
    -- The first element was visited before the others, and these record other numbers.
    have hall : ∀ j ∈ jobs (i + 1) (e :: es), Visits (span j) j.1 j.2.nodes c₂ := by
      rw [jobs, List.forall_mem_cons]
      exact ⟨(hes _ (by simp [jobs]) hc (by simp) hfirst).beyond hadv (Nat.le_refl _),
        expectAll_tours (fun j hj => hes j (by simp [jobs, hj])) hc₁ he.past hrest⟩
    refine .node hc hx hrun (.exprs fun j hj => ?_)
    refine (hall j hj).mono ((span_subset_of_mem_jobs hj).trans (Ico_subset_under ?_ Nat.one_pos))
    rw [Expr.nodeCount, Nat.add_comm]

theorem Tours.binOp {loc : Location} {op : Operator} {a b : Expr} (ha : Tours (i + 1) a)
    (hb : Tours (i + 1 + a.nodeCount) b) : Tours i (.binOp loc op a b) := by
  intro locals expected c c' t hc hx h
  have hrun := h
  rw [infer, gives_bind] at h
  obtain ⟨l, c₁, hl, h⟩ := h
  rw [gives_bind] at h
  obtain ⟨m, c₂, hm, h⟩ := h
  rw [gives_bind] at h
  obtain ⟨u, c₃, hu, h⟩ := h
  rw [gives_bind] at h
  obtain ⟨x, c₄, hx', h⟩ := h
  obtain rfl := gives_record.1 hx'
  obtain ⟨rfl, rfl⟩ := gives_pure.1 h
  have hleft := infers a (i + 1) hc (by simp) hl
  have hc₁ := hc.later hleft.advances
  have hright := infers b _ hc₁ (by simp) hm
  obtain ⟨hadv, -, -⟩ :=
    operationType_spec (S := ∅) hright.advances.tidy (hright.advances.reaches.over hleft.past)
      hright.past hu
  have hva := ((ha hc (by simp) hl).beyond hright.advances (Nat.le_refl _)).still hadv
  have hvb := (hb hc₁ (by simp) hm).still hadv
  refine .node hc hx hrun (.append (hva.mono ?_) ?_)
  · intro k
    simp only [Set.mem_Ico, Set.mem_sdiff, Set.mem_singleton_iff, mem_span, Expr.nodeCount]
    omega
  · rw [a.length_nodes]
    refine hvb.mono fun k => ?_
    simp only [Set.mem_sdiff, Set.mem_singleton_iff, mem_span, Expr.nodeCount]
    omega

theorem Tours.call {loc : Location} {f : Expr} {args : List Expr} {named : List NamedArg}
    (hf : Tours (i + 1) f) (hargs : ∀ j ∈ jobs (i + 1 + f.nodeCount) args, Tours j.1 j.2)
    (hnamed : ∀ j ∈ namedJobs (i + 1 + f.nodeCount + exprsNodeCount args) named, Tours j.value.1
      j.value.2) :
    Tours i (.call loc f args named) := by
  intro locals expected c c' t hc hx h
  have hrun := h
  rw [infer, gives_bind] at h
  obtain ⟨callee, c₁, hcallee, h⟩ := h
  dsimp only at h
  rw [gives_bind] at h
  obtain ⟨fields, c₂, hfields, h⟩ := h
  have hfun := infers f (i + 1) hc (by simp) hcallee
  have hc₁ := hc.later hfun.advances
  obtain ⟨hsame, -⟩ := calledFields_spec (S := ∅) hc₁ hfields
  subst hsame
  rw [arguments_eq, namedArguments_eq, placeArguments_map] at h
  cases hplaced : placeArguments loc fields (jobs (i + 1 + f.nodeCount) args)
      (namedJobs (i + 1 + f.nodeCount + exprsNodeCount args) named) with
  | error e =>
    rw [hplaced] at h
    exact (not_gives_failWith h).elim
  | ok placed =>
    rw [hplaced] at h
    dsimp only [Except.map] at h
    rw [gives_bind] at h
    obtain ⟨u, c₃, hu, h⟩ := h
    rw [gives_bind] at h
    obtain ⟨x, c₄, hx', h⟩ := h
    obtain rfl := gives_record.1 hx'
    obtain ⟨rfl, rfl⟩ := gives_pure.1 h
    have hperm := placeArguments_perm hplaced
    have hdisjoint := pairwise_disjoint_placed hplaced
    have htours : ∀ j ∈ placed, Tours j.1 j.2 ∧
        span j ⊆ Set.Ico (i + 1 + f.nodeCount)
          (i + 1 + f.nodeCount + exprsNodeCount args + namedNodeCount named) := by
      intro j hj
      rcases List.mem_append.1 (hperm.mem_iff.1 hj) with hj | hj
      · exact ⟨hargs j hj,
          (span_subset_of_mem_jobs hj).trans (Set.Ico_subset_Ico_right (Nat.le_add_right _ _))⟩
      · obtain ⟨l, hl, rfl⟩ := List.mem_map.1 hj
        exact ⟨hnamed l hl,
          (span_subset_of_mem_namedJobs hl).trans (Set.Ico_subset_Ico_left (Nat.le_add_right _ _))⟩
    have hadv := (applyArguments_spec (fun j _ => infers j.2 j.1) hdisjoint hc₁ hfun.past hu).1
    have hvisits := applyArguments_tours (fun j hj => (htours j hj).1) hdisjoint hc₁ hfun.past hu
    have hvf : Visits (span (i + 1, f)) (i + 1) f.nodes c₃ := by
      refine (hf hc (by simp) hcallee).later hadv.extends (Set.disjoint_left.2 ?_)
      rintro k hk ⟨j, hj, hkj⟩
      have := ((htours j hj).2 hkj).1
      have := (mem_span.1 hk).2
      omega
    have hunder : ∀ j ∈ placed, span j ⊆ span (i, .call loc f args named) \ {i} := by
      intro j hj k hk
      have hk := (htours j hj).2 hk
      simp only [Set.mem_Ico, Set.mem_sdiff, Set.mem_singleton_iff, mem_span,
        Expr.nodeCount] at hk ⊢
      omega
    refine .node hc hx hrun (.append (.append (hvf.mono ?_) (.exprs ?_)) (.named ?_))
    · intro k
      simp only [Set.mem_sdiff, Set.mem_singleton_iff, mem_span, Expr.nodeCount]
      omega
    · intro j hj
      rw [f.length_nodes] at hj
      have hmem := hperm.mem_iff.2 (List.mem_append_left _ hj)
      exact (hvisits j hmem).mono (hunder j hmem)
    · intro j hj
      rw [List.length_append, f.length_nodes, exprsNodes_length, ← Nat.add_assoc] at hj
      have hmem := hperm.mem_iff.2 (List.mem_append_right _ (List.mem_map_of_mem hj))
      exact (hvisits j.value hmem).mono (hunder j.value hmem)

theorem Tours.lambda {loc : Location} {ps : List Param} {body : Expr} (hbody : Tours (i + 1) body) :
    Tours i (.lambda loc ps body) := by
  intro locals expected c c' t hc hx h
  have hrun := h
  rw [infer, gives_bind] at h
  obtain ⟨hint, c₁, hhint, h⟩ := h
  obtain ⟨hsame, hover⟩ := lambdaHint_spec hc.tidy hx hhint
  subst hsame
  rw [gives_bind] at h
  obtain ⟨ts, c₂, hts, h⟩ := h
  dsimp only at h
  rw [gives_bind] at h
  obtain ⟨result, c₃, hresult, h⟩ := h
  rw [gives_bind] at h
  obtain ⟨x, c₄, hx', h⟩ := h
  obtain rfl := gives_record.1 hx'
  obtain ⟨rfl, rfl⟩ := gives_pure.1 h
  obtain ⟨hadv, hpast, -⟩ := lambdaParams_spec (S := ∅) hc hover hts
  have hc₂ : c₂.Ready (withParams ([] :: locals) ps ts) :=
    ⟨hadv.tidy, (hc.later hadv).globals, (hc.later hadv).locals.push.withParams hpast⟩
  refine .node hc hx hrun ((hbody hc₂ (by simp) hresult).mono fun k => ?_)
  simp only [Set.mem_sdiff, Set.mem_singleton_iff, mem_span, Expr.nodeCount]
  omega

theorem Tours.ifElse {loc : Location} {x a b : Expr} (hx : Tours (i + 1) x)
    (ha : Tours (i + 1 + x.nodeCount) a) (hb : Tours (i + 1 + x.nodeCount + a.nodeCount) b) :
    Tours i (.ifElse loc x a b) := by
  intro locals expected c c' t hc hexp h
  have hrun := h
  rw [infer, gives_bind] at h
  obtain ⟨cond, c₁, hcond, h⟩ := h
  rw [gives_bind] at h
  obtain ⟨y, c₂, hy, h⟩ := h
  dsimp only at h
  rw [gives_bind] at h
  obtain ⟨u, c₃, hu, h⟩ := h
  rw [gives_bind] at h
  obtain ⟨v, c₄, hv, h⟩ := h
  rw [gives_bind] at h
  obtain ⟨z, c₅, hz, h⟩ := h
  rw [gives_bind] at h
  obtain ⟨w, c₆, hw, h⟩ := h
  obtain rfl := gives_record.1 hw
  obtain ⟨rfl, rfl⟩ := gives_pure.1 h
  obtain ⟨hadv₂, -⟩ := condition_spec hc hcond hy
  have hcondition := infers x (i + 1) hc (by simp) hcond
  obtain ⟨htested, -⟩ := conditionType_spec (S := ∅) hcondition.advances.tidy hcondition.past hy
  have hc₂ := hc.later hadv₂
  have hthen := infers a _ hc₂ (by simp) hu
  have hc₃ := hc₂.later hthen.advances
  obtain ⟨hadv₅, -⟩ :=
    (infers b _ hc₃ (by simpa using hthen.past) hv).expect hthen.past (gives_unifyAt.1 hz)
  have hvx : Visits (span (i + 1, x)) (i + 1) x.nodes c₅ :=
    (((hx hc (by simp) hcond).still htested).beyond hthen.advances (Nat.le_refl _)).beyond hadv₅
      (Nat.le_add_right _ _)
  have hva := (ha hc₂ (by simp) hu).beyond hadv₅ (Nat.le_refl _)
  have hvb := hb.expect hc₃ (by simpa using hthen.past) hthen.past hv (gives_unifyAt.1 hz)
  refine .node hc hexp hrun (.append (.append (hvx.mono ?_) ?_) ?_)
  · intro k
    simp only [Set.mem_sdiff, Set.mem_singleton_iff, mem_span, Expr.nodeCount]
    omega
  · rw [x.length_nodes]
    refine hva.mono fun k => ?_
    simp only [Set.mem_Ico, Set.mem_sdiff, Set.mem_singleton_iff, mem_span, Expr.nodeCount]
    omega
  · rw [List.length_append, x.length_nodes, a.length_nodes, ← Nat.add_assoc]
    refine hvb.mono fun k => ?_
    simp only [Set.mem_sdiff, Set.mem_singleton_iff, mem_span, Expr.nodeCount]
    omega

theorem Tours.access {loc : Location} {x : Expr} {field : String} (hx : Tours (i + 1) x) :
    Tours i (.access loc x field) := by
  intro locals expected c c' t hc hexp h
  have hrun := h
  rw [infer, gives_bind] at h
  obtain ⟨target, c₁, htarget, h⟩ := h
  rw [gives_bind] at h
  obtain ⟨u, c₂, hu, h⟩ := h
  rw [gives_bind] at h
  obtain ⟨y, c₃, hy, h⟩ := h
  obtain rfl := gives_record.1 hy
  obtain ⟨rfl, rfl⟩ := gives_pure.1 h
  have hinner := infers x (i + 1) hc (by simp) htarget
  obtain ⟨hsame, -, -⟩ :=
    fieldType_spec (S := span (i + 1, x)) (hc.later hinner.advances) hinner.past hu
  subst hsame
  refine .node hc hexp hrun ((hx hc (by simp) htarget).mono fun k => ?_)
  simp only [Set.mem_sdiff, Set.mem_singleton_iff, mem_span, Expr.nodeCount]
  omega

/-! ### Patterns and matches -/

/-- Every pattern of a list, numbered from `i` on, is toured. -/
def ToursPatterns (i : Nat) : List Pattern → Prop
  | [] => True
  | p :: ps => ToursPattern i p ∧ ToursPatterns (i + p.nodeCount) ps

theorem bindPatterns_tours {ps : List Pattern} {ts : List Ty} {inner : List Frame}
    (hps : ToursPatterns i ps) (hc : c.Ready locals) (hts : ∀ t ∈ ts, t.Over c.unifier.Past)
    (hlen : ts.length = ps.length) (h : Gives (bindPatterns locals i ts ps) c inner c') :
    Visits (Set.Ico i (i + patternsNodeCount ps)) i (patternsNodes ps) c' := by
  induction ps generalizing i c ts locals with
  | nil => exact .nil
  | cons p ps ih =>
    cases ts with
    | nil => simp at hlen
    | cons t ts =>
      rw [bindPatterns, gives_bind] at h
      obtain ⟨a, c₁, ha, h⟩ := h
      obtain ⟨rfl, rfl⟩ := gives_applied.1 ha
      rw [gives_bind] at h
      obtain ⟨mid, c₂, hmid, h⟩ := h
      have ht := hc.tidy.apply (hts t (by simp))
      obtain ⟨hadv₁, hready, -⟩ := binds p i hc ht hmid
      have hts₂ : ∀ t ∈ ts, t.Over c₂.unifier.Past :=
        fun t ht => hadv₁.reaches.over (hts t (by simp [ht]))
      obtain ⟨hadv₂, -, -⟩ := bindPatterns_spec (bindsAll ps _) hready hts₂ (by simpa using hlen) h
      have hhead := (hps.1 hc ht hmid).beyond hadv₂ (Nat.le_refl _)
      have htail := ih hps.2 hready hts₂ (by simpa using hlen) h
      rw [patternsNodes]
      refine .append (hhead.mono ?_) ?_
      · exact Set.Ico_subset_Ico_right (by rw [patternsNodeCount]; omega)
      · rw [p.length_nodes]
        exact htail.mono (Set.Ico_subset_Ico (Nat.le_add_right _ _)
          (by rw [patternsNodeCount]; omega))

theorem ToursPattern.lit {loc : Location} (he : Tours i e) : ToursPattern i (.lit loc e) := by
  intro locals inner c c' t hc ht h
  rw [bindPattern, gives_bind] at h
  obtain ⟨found, c₁, hfound, h⟩ := h
  rw [gives_bind] at h
  obtain ⟨x, c₂, hx, h⟩ := h
  obtain ⟨rfl, rfl⟩ := gives_pure.1 h
  exact he.expect hc (by simp) ht hfound (gives_unifyAt.1 hx)

theorem ToursPattern.cons {loc : Location} {n : String} {ps : List Pattern}
    (hps : ToursPatterns i ps) : ToursPattern i (.cons loc n ps) := by
  intro locals inner c c' t hc ht h
  rw [bindPattern, gives_bind] at h
  obtain ⟨s?, c₁, hs, h⟩ := h
  obtain ⟨rfl, rfl⟩ := gives_find?.1 hs
  split at h
  · exact (not_gives_fail h).elim
  · next k hk =>
    obtain ⟨s, hs, hsk⟩ := Option.bind_eq_some_iff.1 hk
    rw [gives_bind] at h
    obtain ⟨sig, c₂, hsig, h⟩ := h
    obtain ⟨hadv₁, hpast, -⟩ :=
      advances_instantiate (S := ∅) hc.tidy ((hc.known hs).constructor? hsk) hsig
    dsimp only at h
    have hcurry : Ty.curry sig.uncurry.1 sig.uncurry.2 = sig := Ty.curry_uncurry sig
    generalize sig.uncurry.1 = params at h hcurry
    generalize sig.uncurry.2 = result at h hcurry
    subst hcurry
    rw [Ty.over_curry] at hpast
    split at h
    · exact (not_gives_fail h).elim
    · next hlen =>
      rw [gives_bind] at h
      obtain ⟨x, c₃, hx, h⟩ := h
      obtain ⟨hadv₂, -⟩ :=
        advances_unified (S := ∅) hadv₁.tidy (hadv₁.reaches.over ht) hpast.2 (gives_unifyAt.1 hx)
      exact bindPatterns_tours hps (hc.later (hadv₁.trans hadv₂))
        (fun t ht => hadv₂.reaches.over (hpast.1 t ht)) (by simpa using hlen) h

theorem ToursPattern.tuple {loc : Location} {ps : List Pattern} (hps : ToursPatterns i ps) :
    ToursPattern i (.tuple loc ps) := by
  intro locals inner c c' t hc ht h
  rw [bindPattern, gives_bind] at h
  obtain ⟨ts, c₁, hts, h⟩ := h
  rw [gives_bind] at h
  obtain ⟨x, c₂, hx, h⟩ := h
  obtain ⟨hadv₁, hlen, hpast⟩ := gives_mapM_fresh (S := ∅) ps hc.tidy hts
  obtain ⟨hadv₂, -⟩ :=
    advances_unified (S := ∅) hadv₁.tidy (hadv₁.reaches.over ht) (Ty.over_tuple.2 hpast)
      (gives_unifyAt.1 hx)
  exact bindPatterns_tours hps (hc.later (hadv₁.trans hadv₂))
    (fun t ht => hadv₂.reaches.over (hpast t ht)) hlen h

/-- Every arm of a match, numbered from `i` on, is toured. -/
def ToursCases (i : Nat) : List Case → Prop
  | [] => True
  | .mk _ p body :: cs =>
    ToursPattern i p ∧ Tours (i + p.nodeCount) body ∧ ToursCases (i + p.nodeCount + body.nodeCount)
      cs

/-- One arm of a match: its pattern, then its body. -/
theorem case_tours {p : Pattern} {body : Expr} {scrutinee found : Ty} {inner : List Frame}
    (hp : ToursPattern i p) (hbody : Tours (i + p.nodeCount) body) (hc : c.Ready locals)
    (hs : scrutinee.Over c.unifier.Past) (hx : ∀ t ∈ expected, t.Over c.unifier.Past)
    (hinner : Gives (bindPattern ([] :: locals) i scrutinee p) c inner c₁)
    (hfound : Gives (infer inner (i + p.nodeCount) expected body) c₁ found c₂) :
    Visits (Set.Ico i (i + p.nodeCount + body.nodeCount)) i (p.nodes ++ body.nodes) c₂ := by
  obtain ⟨hadv₁, hready, -⟩ := binds p i hc.push hs hinner
  have hx₁ : ∀ t ∈ expected, t.Over c₁.unifier.Past := fun t ht => hadv₁.reaches.over (hx t ht)
  have hinferred := infers body _ hready hx₁ hfound
  have hpattern := (hp hc.push hs hinner).beyond hinferred.advances (Nat.le_refl _)
  refine .append (hpattern.mono (Set.Ico_subset_Ico_right (Nat.le_add_right _ _))) ?_
  rw [p.length_nodes]
  exact (hbody hready hx₁ hfound).mono (Set.Ico_subset_Ico_left (Nat.le_add_right _ _))

/-- The arms of a match after the first one. -/
theorem inferCases_tours {cs : List Case} {scrutinee : Ty} {out : Option Ty} (hcs : ToursCases i cs)
    (hc : c.Ready locals) (hs : scrutinee.Over c.unifier.Past) (ht : t.Over c.unifier.Past)
    (h : Gives (inferCases locals i scrutinee (some t) cs) c out c') :
    Visits (Set.Ico i (i + casesNodeCount cs)) i (casesNodes cs) c' := by
  induction cs generalizing i c with
  | nil => exact .nil
  | cons case cs ih =>
    obtain ⟨loc, p, body⟩ := case
    obtain ⟨hp, hbody, hcs⟩ := hcs
    rw [inferCases, gives_bind] at h
    obtain ⟨inner, c₁, hinner, h⟩ := h
    dsimp only at h
    rw [gives_bind] at h
    obtain ⟨found, c₂, hfound, h⟩ := h
    rw [gives_bind] at h
    obtain ⟨x, c₃, hx, h⟩ := h
    simp only [pure_bind] at h
    obtain ⟨hadv, hinferred, -⟩ :=
      case_spec (binds p i) (infers body _) hc hs (by simpa using ht) hinner hfound
    obtain ⟨hadv₃, -⟩ :=
      advances_unified (S := ∅) hadv.tidy (hadv.reaches.over ht) hinferred.past (gives_unifyAt.1 hx)
    have hhead := hadv.trans (hadv₃.mono (Set.empty_subset _))
    have hc₃ := hc.later hhead
    obtain ⟨-, hadv₄, -⟩ :=
      inferCases_some (infersCases cs _) hc₃ (hhead.reaches.over hs) (hhead.reaches.over ht) h
    have hfirst :=
      ((case_tours hp hbody hc hs (by simpa using ht) hinner hfound).still hadv₃).beyond hadv₄
        (Nat.le_refl _)
    have hrest := ih hcs hc₃ (hhead.reaches.over hs) (hhead.reaches.over ht) h
    rw [casesNodes]
    refine .append (hfirst.mono ?_) ?_
    · exact Set.Ico_subset_Ico_right (by rw [casesNodeCount]; omega)
    · rw [List.length_append, p.length_nodes, body.length_nodes, ← Nat.add_assoc]
      exact hrest.mono (Set.Ico_subset_Ico (by omega) (by rw [casesNodeCount]; omega))

theorem Tours.matchOn {loc : Location} {x : Expr} {cs : List Case} (hx : Tours (i + 1) x)
    (hcs : ToursCases (i + 1 + x.nodeCount) cs) : Tours i (.matchOn loc x cs) := by
  intro locals expected c c' t hc hexp h
  have hrun := h
  rw [infer, gives_bind] at h
  obtain ⟨scrutinee, c₁, hscrutinee, h⟩ := h
  rw [gives_bind] at h
  obtain ⟨out, c₂, hout, h⟩ := h
  have hinner := infers x (i + 1) hc (by simp) hscrutinee
  have hc₁ := hc.later hinner.advances
  cases cs with
  | nil =>
    rw [inferCases] at hout
    obtain ⟨rfl, rfl⟩ := gives_pure.1 hout
    exact (not_gives_fail h).elim
  | cons case cs =>
    obtain ⟨cloc, p, body⟩ := case
    obtain ⟨hp, hbody, hcs⟩ := hcs
    rw [inferCases, gives_bind] at hout
    obtain ⟨inner, c₃, hpattern, hout⟩ := hout
    dsimp only at hout
    rw [gives_bind] at hout
    obtain ⟨found, c₄, hfound, hout⟩ := hout
    simp only [pure_bind] at hout
    obtain ⟨hadv, hinferred, -⟩ :=
      case_spec (binds p _) (infers body _) hc₁ hinner.past (by simp) hpattern hfound
    have hc₄ := hc₁.later hadv
    obtain ⟨rfl, hadv₂, -⟩ :=
      inferCases_some (infersCases cs _) hc₄ (hadv.reaches.over hinner.past) hinferred.past hout
    dsimp only at h
    rw [gives_bind] at h
    obtain ⟨y, c₅, hy, h⟩ := h
    obtain rfl := gives_record.1 hy
    obtain ⟨rfl, rfl⟩ := gives_pure.1 h
    have hvx := ((hx hc (by simp) hscrutinee).beyond hadv (Nat.le_refl _)).beyond hadv₂
      (by dsimp only; omega)
    have hfirst :=
      (case_tours hp hbody hc₁ hinner.past (by simp) hpattern hfound).beyond hadv₂ (Nat.le_refl _)
    have hrest := inferCases_tours hcs hc₄ (hadv.reaches.over hinner.past) hinferred.past hout
    refine .node hc hexp hrun (.append (hvx.mono ?_) ?_)
    · intro k
      simp only [Set.mem_Ico, Set.mem_sdiff, Set.mem_singleton_iff, mem_span, Expr.nodeCount,
        casesNodeCount]
      omega
    · rw [x.length_nodes, casesNodes]
      refine .append (hfirst.mono fun k => ?_) ?_
      · simp only [Set.mem_Ico, Set.mem_sdiff, Set.mem_singleton_iff, mem_span, Expr.nodeCount,
          casesNodeCount]
        omega
      · rw [List.length_append, p.length_nodes, body.length_nodes, ← Nat.add_assoc]
        refine hrest.mono fun k => ?_
        simp only [Set.mem_Ico, Set.mem_sdiff, Set.mem_singleton_iff, mem_span, Expr.nodeCount,
          casesNodeCount]
        omega

/-! ### All expressions -/

mutual

/-- Inferring an expression infers every expression under it. -/
theorem tours : ∀ (e : Expr) (i : Nat), Tours i e
  | .uint .., _ | .int .., _ | .float .., _ | .str .., _ | .bool .., _ => .literal rfl
  | .eraser loc, i => .eraser i loc
  | .var loc n, i => .var i loc n
  | .tuple _ es, i => .tuple (toursAll es (i + 1))
  | .list _ es, i => .list (toursAll es (i + 1))
  | .binOp _ _ a b, _ => .binOp (tours a _) (tours b _)
  | .call _ f args named, _ => .call (tours f _) (toursAll args _) (toursNamed named _)
  | .lambda _ _ body, _ => .lambda (tours body _)
  | .ifElse _ x a b, _ => .ifElse (tours x _) (tours a _) (tours b _)
  | .matchOn _ x cs, _ => .matchOn (tours x _) (toursCases cs _)
  | .access _ x _, _ => .access (tours x _)
  | .missing, _ => fun _ _ _ _ _ _ _ h => (not_gives_infer_missing h).elim

theorem toursAll : ∀ (es : List Expr) (i : Nat), ∀ j ∈ jobs i es, Tours j.1 j.2
  | [], _ => by simp [jobs]
  | e :: es, i => List.forall_mem_cons.2 ⟨tours e i, toursAll es _⟩

theorem toursNamed :
    ∀ (ns : List NamedArg) (i : Nat), ∀ j ∈ namedJobs i ns, Tours j.value.1 j.value.2
  | [], _ => by simp [namedJobs]
  | .mk _ _ e :: ns, i => List.forall_mem_cons.2 ⟨tours e i, toursNamed ns _⟩

theorem toursCases : ∀ (cs : List Case) (i : Nat), ToursCases i cs
  | [], _ => trivial
  | .mk _ p body :: cs, i => ⟨toursPattern p i, tours body _, toursCases cs _⟩

/-- Binding a pattern infers every expression under it. -/
theorem toursPattern : ∀ (p : Pattern) (i : Nat), ToursPattern i p
  | .wild _, _ | .var .., _ => fun _ _ _ _ _ _ _ _ => .nil
  | .lit _ e, i => .lit (tours e i)
  | .cons _ _ ps, i => .cons (toursPatterns ps i)
  | .tuple _ ps, i => .tuple (toursPatterns ps i)
  | .missing, _ => fun _ _ _ _ _ _ _ h => (not_gives_bindPattern_missing h).elim

theorem toursPatterns : ∀ (ps : List Pattern) (i : Nat), ToursPatterns i ps
  | [], _ => trivial
  | p :: ps, i => ⟨toursPattern p i, toursPatterns ps _⟩

end

/-! ### Statements -/

/-- Whenever a statement is checked, every expression under it is inferred. -/
def ToursStmt (i : Nat) (s : Stmt) : Prop :=
  ∀ ⦃result : Ty⦄ ⦃locals : List Frame⦄ ⦃c c' : Checker⦄ ⦃out : List Frame × Bool⦄, c.Ready locals →
    result.Over c.unifier.Past → Gives (checkStmt result locals i s) c out c' →
    Visits (Set.Ico i (i + s.nodeCount)) i s.nodes c'

/-- Whenever statements are checked, every expression under them is inferred. -/
def ToursStmts (i : Nat) (ss : List Stmt) : Prop :=
  ∀ ⦃result : Ty⦄ ⦃locals : List Frame⦄ ⦃c c' : Checker⦄ ⦃out : Bool⦄, c.Ready locals →
    result.Over c.unifier.Past → Gives (checkStmts result locals i ss) c out c' →
    Visits (Set.Ico i (i + stmtsNodeCount ss)) i (stmtsNodes ss) c'

theorem expectType_tours {x : Unit} (hc : c.Ready locals) (ht : t.Over c.unifier.Past)
    (h : Gives (expectType locals i t e) c x c') : Visits (span (i, e)) i e.nodes c' := by
  rw [expectType, gives_bind] at h
  obtain ⟨found, c₁, hfound, h⟩ := h
  exact (tours e i).expect hc (by simpa using ht) ht hfound (gives_unifyAt.1 h)

theorem ToursStmt.ret (i : Nat) (loc : Location) (x : Option Expr) : ToursStmt i (.ret loc x) := by
  intro result locals c c' out hc hresult h
  cases x with
  | none => exact .nil
  | some e =>
    rw [checkStmt, gives_bind] at h
    obtain ⟨y, c₁, hy, h⟩ := h
    obtain ⟨rfl, rfl⟩ := gives_pure.1 h
    exact expectType_tours hc hresult hy

theorem ToursStmt.assign (i : Nat) (loc : Location) (n : String) (type : Option TypeExpr)
    (e : Expr) : ToursStmt i (.assign loc n type e) := by
  intro result locals c c' out hc _ h
  -- The value is visited; then the variable takes its type, which records nothing.
  have tail : ∀ {u : Ty} {c₁ : Checker}, Advances (span (i, e)) c c₁ → u.Over c₁.unifier.Past →
      Visits (span (i, e)) i e.nodes c₁ → Gives (do
        let after ← assignLocal locals n u loc
        return (after, false)) c₁ out c' → Visits (Set.Ico i (i + e.nodeCount)) i e.nodes c' := by
    intro u c₁ hadv hu hvisits h
    rw [gives_bind] at h
    obtain ⟨after, c₂, hafter, h⟩ := h
    obtain ⟨rfl, rfl⟩ := gives_pure.1 h
    obtain ⟨hadv₂, -, -⟩ := assignLocal_spec (S := ∅) (hc.later hadv) hu hafter
    exact hvisits.still hadv₂
  cases type with
  | none =>
    rw [checkStmt] at h
    dsimp only at h
    rw [gives_bind] at h
    obtain ⟨t, c₁, ht, h⟩ := h
    have hinferred := infers e i hc (by simp) ht
    exact tail hinferred.advances hinferred.past (tours e i hc (by simp) ht) h
  | some a =>
    rw [checkStmt] at h
    dsimp only at h
    rw [gives_bind] at h
    obtain ⟨t, c₁, ht, h⟩ := h
    obtain ⟨hsame, hground⟩ := resolve_ground hc.globals ht
    subst hsame
    rw [gives_bind] at h
    obtain ⟨x, c₂, hx, h⟩ := h
    simp only [pure_bind] at h
    exact tail (expectType_spec hc hground.over hx).1 hground.over
      (expectType_tours hc hground.over hx) h

theorem ToursStmt.use (i : Nat) (loc : Location) (n : String) (e : Expr) :
    ToursStmt i (.use loc n e) := by
  intro result locals c c' out hc _ h
  rw [checkStmt, gives_bind] at h
  obtain ⟨t, c₁, ht, h⟩ := h
  obtain ⟨rfl, rfl⟩ := gives_pure.1 h
  exact tours e i hc (by simp) ht

theorem ToursStmt.expr (i : Nat) (loc : Location) (e : Expr) : ToursStmt i (.expr loc e) := by
  intro result locals c c' out hc _ h
  rw [checkStmt, gives_bind] at h
  obtain ⟨t, c₁, ht, h⟩ := h
  obtain ⟨rfl, rfl⟩ := gives_pure.1 h
  exact tours e i hc (by simp) ht

/-- A condition, in front of what depends on it. -/
theorem condition_tours {cond : Ty} {loc : Location} {x : Unit} (hc : c.Ready locals)
    (hcond : Gives (infer locals i none e) c cond c₁)
    (hx : Gives (conditionType loc cond) c₁ x c₂) : Visits (span (i, e)) i e.nodes c₂ := by
  have hinferred := infers e i hc (by simp) hcond
  obtain ⟨hadv, -⟩ := conditionType_spec (S := ∅) hinferred.advances.tidy hinferred.past hx
  exact (tours e i hc (by simp) hcond).still hadv

theorem ToursStmt.ifThen {loc tloc : Location} {a : List Stmt}
    (ha : ToursStmts (i + e.nodeCount) a) : ToursStmt i (.ifThen loc e tloc a) := by
  intro result locals c c' out hc hresult h
  rw [checkStmt, gives_bind] at h
  obtain ⟨cond, c₁, hcond, h⟩ := h
  rw [gives_bind] at h
  obtain ⟨x, c₂, hx, h⟩ := h
  rw [gives_bind] at h
  obtain ⟨returned, c₃, hreturned, h⟩ := h
  obtain ⟨rfl, rfl⟩ := gives_pure.1 h
  obtain ⟨hadv, -⟩ := condition_spec hc hcond hx
  have hc₂ := (hc.later hadv).push
  have hresult₂ := hadv.reaches.over hresult
  obtain ⟨hadv₂, -⟩ := checksAll a _ hc₂ hresult₂ hreturned
  have hve := (condition_tours hc hcond hx).beyond hadv₂ (Nat.le_refl _)
  rw [Stmt.nodes, Stmt.nodeCount, ← Nat.add_assoc]
  refine .append (hve.mono (Set.Ico_subset_Ico_right (Nat.le_add_right _ _))) ?_
  rw [e.length_nodes]
  exact (ha hc₂ hresult₂ hreturned).mono (Set.Ico_subset_Ico_left (Nat.le_add_right _ _))

theorem ToursStmt.ifElse {loc tloc eloc : Location} {a b : List Stmt}
    (ha : ToursStmts (i + e.nodeCount) a) (hb : ToursStmts (i + e.nodeCount + stmtsNodeCount a) b) :
    ToursStmt i (.ifElse loc e tloc a eloc b) := by
  intro result locals c c' out hc hresult h
  rw [checkStmt, gives_bind] at h
  obtain ⟨cond, c₁, hcond, h⟩ := h
  rw [gives_bind] at h
  obtain ⟨x, c₂, hx, h⟩ := h
  dsimp only at h
  rw [gives_bind] at h
  obtain ⟨x₁, c₃, hx₁, h⟩ := h
  rw [gives_bind] at h
  obtain ⟨x₂, c₄, hx₂, h⟩ := h
  obtain ⟨rfl, rfl⟩ := gives_pure.1 h
  obtain ⟨hadv, -⟩ := condition_spec hc hcond hx
  have hc₂ := hc.later hadv
  have hresult₂ := hadv.reaches.over hresult
  obtain ⟨hadv₂, -⟩ := checksAll a _ hc₂.push hresult₂ hx₁
  have hc₃ := (hc₂.later hadv₂).push
  have hresult₃ := hadv₂.reaches.over hresult₂
  obtain ⟨hadv₃, -⟩ := checksAll b _ hc₃ hresult₃ hx₂
  have hve := ((condition_tours hc hcond hx).beyond hadv₂ (Nat.le_refl _)).beyond hadv₃
    (Nat.le_add_right _ _)
  have hva := (ha hc₂.push hresult₂ hx₁).beyond hadv₃ (Nat.le_refl _)
  rw [Stmt.nodes, Stmt.nodeCount, ← Nat.add_assoc, ← Nat.add_assoc]
  refine .append (.append (hve.mono ?_) ?_) ?_
  · exact Set.Ico_subset_Ico_right (by dsimp only; omega)
  · rw [e.length_nodes]
    exact hva.mono (Set.Ico_subset_Ico (by omega) (by omega))
  · rw [List.length_append, e.length_nodes, stmtsNodes_length, ← Nat.add_assoc]
    exact (hb hc₃ hresult₃ hx₂).mono (Set.Ico_subset_Ico_left (by omega))

theorem ToursStmts.cons {s : Stmt} {ss : List Stmt} (hs : ToursStmt i s)
    (hss : ToursStmts (i + s.nodeCount) ss) : ToursStmts i (s :: ss) := by
  intro result locals c c' out hc hresult h
  rw [checkStmts, gives_bind] at h
  obtain ⟨x, c₁, hx, h⟩ := h
  dsimp only at h
  rw [gives_bind] at h
  obtain ⟨y, c₂, hy, h⟩ := h
  obtain ⟨rfl, rfl⟩ := gives_pure.1 h
  obtain ⟨hadv₁, hready, -⟩ := checks s i hc hresult hx
  have hresult₁ := hadv₁.reaches.over hresult
  obtain ⟨hadv₂, -⟩ := checksAll ss _ hready hresult₁ hy
  have hfirst := (hs hc hresult hx).beyond hadv₂ (Nat.le_refl _)
  rw [stmtsNodes, stmtsNodeCount, ← Nat.add_assoc]
  refine .append (hfirst.mono (Set.Ico_subset_Ico_right (Nat.le_add_right _ _))) ?_
  rw [s.length_nodes]
  exact (hss hready hresult₁ hy).mono (Set.Ico_subset_Ico_left (Nat.le_add_right _ _))

mutual

/-- Checking a statement infers every expression under it. -/
theorem toursStmt : ∀ (s : Stmt) (i : Nat), ToursStmt i s
  | .ret loc x, i => .ret i loc x
  | .assign loc n type e, i => .assign i loc n type e
  | .use loc n e, i => .use i loc n e
  | .ifThen _ _ _ a, _ => .ifThen (toursStmts a _)
  | .ifElse _ _ _ a _ b, _ => .ifElse (toursStmts a _) (toursStmts b _)
  | .expr loc e, i => .expr i loc e
  | .missing, _ => fun _ _ _ _ _ _ _ h => (not_gives_checkStmt_missing h).elim

theorem toursStmts : ∀ (ss : List Stmt) (i : Nat), ToursStmts i ss
  | [], _ => fun _ _ _ _ _ _ _ _ => .nil
  | s :: ss, i => .cons (toursStmt s i) (toursStmts ss _)

end

/-! ### Functions and programs -/

/-- The end of a function visits the expressions of its body. -/
theorem finish_tours {f : NamedFunction} {x : Unit} {params : List Ty} {result : Ty}
    (hc : c.Ready locals) (hresult : result.Over c.unifier.Past)
    (h : Gives (do
      let returned ← checkStmts result locals i f.func.body.stmts
      if !returned then unifyAt result .none f.func.loc
      let t := (← get).settle (Ty.curry params result)
      modify fun c => { c with funcs := (f.name, t) :: c.funcs }
      insertGlobal f.name (.function f.name t true)) c x c') :
    Visits (Set.Ico i (i + stmtsNodeCount f.func.body.stmts)) i (stmtsNodes f.func.body.stmts)
      c' := by
  rw [gives_bind] at h
  obtain ⟨returned, c₁, hreturned, h⟩ := h
  obtain ⟨hadv, -⟩ := checksAll f.func.body.stmts i hc hresult hreturned
  have hvisits := toursStmts f.func.body.stmts i hc hresult hreturned
  -- Settling the type of the function records nothing.
  have settled : ∀ {c₂ : Checker}, Advances ∅ c₁ c₂ → Gives (do
      let t := (← get).settle (Ty.curry params result)
      modify fun c => { c with funcs := (f.name, t) :: c.funcs }
      insertGlobal f.name (.function f.name t true)) c₂ x c' → Extends ∅ c₁ c' := by
    intro c₂ hadv₂ h
    rw [gives_bind] at h
    obtain ⟨_, _, hget, h⟩ := h
    obtain ⟨rfl, rfl⟩ := gives_get.1 hget
    rw [gives_bind] at h
    obtain ⟨_, c₃, hmodify, h⟩ := h
    obtain rfl := gives_modify.1 hmodify
    obtain rfl := gives_insertGlobal.1 h
    exact ⟨hadv₂.tidy, hadv₂.reaches, hadv₂.types⟩
  refine hvisits.later ?_ (Set.disjoint_empty _)
  split at h
  · rw [gives_bind] at h
    obtain ⟨y, c₂, hy, h⟩ := h
    exact settled (advances_unified hadv.tidy (hadv.reaches.over hresult) Ty.over_none
      (gives_unifyAt.1 hy)).1 h
  · exact settled (.refl hadv.tidy) h

theorem checkFunc_tours {f : NamedFunction} {x : Unit} (hc : c.unifier.Tidy)
    (hglobals : c.globals.Tidy) (h : Gives (checkFunc f.name f.func) c x c') :
    Visits (Set.Ico c.nextNode (c.nextNode + stmtsNodeCount f.func.body.stmts)) c.nextNode
      (stmtsNodes f.func.body.stmts) c' := by
  obtain ⟨ps, result, c₁, hground, -, -, hadv, hpast, -, h⟩ := enter_spec hc hglobals h
  have hready : c₁.Ready (withParams [[]] f.func.params ps) := by
    refine ⟨hadv.tidy, hadv.globals_eq ▸ hglobals,
      AreLocal.withParams ?_ fun t ht => (hground t ht).over⟩
    simp [AreLocal]
  exact finish_tours hready hpast h

/-- Checking functions one after the other visits the expressions of their bodies. -/
theorem checkFuncs_tours {fs gs : List NamedFunction} {x : Unit} (hsub : gs ⊆ fs)
    (hnodup : (gs.map (·.name)).Nodup) (hc : c.unifier.Tidy) (hglobals : c.globals.Tidy)
    (hdecl : c.globals.Declares fs)
    (h : Gives (gs.forM fun f => inContext ("func " ++ f.name) (checkFunc f.name f.func)) c x c') :
    Visits Set.univ c.nextNode (gs.flatMap fun f => stmtsNodes f.func.body.stmts) c' := by
  induction gs generalizing c with
  | nil => exact .nil
  | cons f gs ih =>
    obtain ⟨y, c₁, hy, h⟩ := gives_bind.1 h
    rw [List.map_cons, List.nodup_cons] at hnodup
    have hf : f ∈ fs := hsub (by simp)
    have hsub' : gs ⊆ fs := fun g hg => hsub (by simp [hg])
    obtain ⟨t, hfunc⟩ := checkFunc_spec hc hglobals (gives_inContext.1 hy)
    have hglobals₁ : c₁.globals.Tidy :=
      hfunc.globals ▸ hglobals.insert (s := .function ..) hfunc.ground
    have hdecl₁ : c₁.globals.Declares fs := hfunc.globals ▸ hdecl.insert_again hf hfunc.shapes
    have hrest := checkFuncs_spec hsub' hnodup.2 hfunc.tidy hglobals₁ hdecl₁ h
    have hextends : Extends (Set.Ici c₁.nextNode) c₁ c' := ⟨hrest.tidy, hrest.reaches, hrest.types⟩
    have hhead := (checkFunc_tours hc hglobals (gives_inContext.1 hy)).later hextends (by
      rw [hfunc.nextNode]
      exact Set.disjoint_left.2 fun k hk hk' => absurd hk.2 (Nat.not_lt.2 hk'))
    rw [List.flatMap_cons]
    refine .append (hhead.mono (Set.subset_univ _)) ?_
    rw [stmtsNodes_length, ← hfunc.nextNode]
    exact ih hsub' hnodup.2 hfunc.tidy hglobals₁ hdecl₁ h

/-- Checking a program visits the expression of every number. -/
theorem Program.visited_of_check {p : Program} {o : CheckOptions} (ho : o.symbols = [])
    (h : p.check o = (.ok (), c)) {k : Nat} (hk : p.nodes[k]? = some e) : Visited (e, k) c := by
  have h : Gives (checkProgram p) (Checker.new o) () c := h
  rw [checkProgram, gives_bind] at h
  obtain ⟨_, c₀, hreset, h⟩ := h
  obtain rfl := gives_modify.1 hreset
  rw [gives_bind] at h
  obtain ⟨_, c₁, hc₁, h⟩ := h
  rw [gives_bind] at h
  obtain ⟨_, c₂, hc₂, h⟩ := h
  rw [gives_bind] at h
  obtain ⟨_, c₃, hc₃, h⟩ := h
  have hglobals := reset_new ho
  obtain ⟨htidy₁, hdecl₁, hrest₁⟩ :=
    (keeps_declareTypes "" p.defs).inContext _ (hglobals ▸ builtinFrame_tidy)
      (hglobals ▸ builtinFrame_declares) hc₁
  obtain ⟨htidy₂, hdecl₂, hrest₂⟩ :=
    ((keeps_declareMembers "" p.defs).underPath "").inContext _ htidy₁ hdecl₁ hc₂
  obtain ⟨htidy₃, hdecl₃, hrest₃⟩ :=
    ((keeps_declareFuncs "" p.defs []).underPath "").inContext _ htidy₂ hdecl₂ hc₃
  rw [hrest₂, hrest₁] at hrest₃
  have hunifier : c₃.unifier.Tidy := by
    rw [hrest₃]
    exact Unifier.tidy_new _ _
  have hnode : c₃.nextNode = 0 := by
    rw [hrest₃]
    rfl
  have hvisits := checkFuncs_tours (List.Subset.refl _) hdecl₃.nodup hunifier htidy₃ hdecl₃ h
  rw [hnode] at hvisits
  exact (hvisits (e, k) (List.mem_zipIdx_iff_getElem?.2 hk)).2

end FunRiscv
