import Mathlib
import FunRiscv.Proofs.Pass.Flattening
import FunRiscv.Proofs.Pass.SharedHoisting

/-!
# What hoisting does

* `temporaries`: the names of temporaries of consecutive numbers.
* `Hoisting.Emits`: an action puts assignments to new temporaries before the current statement.
* `Hoisting.expr_hoists`: what it does to expressions: what they mention, how many temporaries they
  take, and what they mean.
* `Hoisting.stmts_hoists`: the same for statements.
-/

namespace FunRiscv

open Machine

/-! ### Temporaries -/

/-- The names of `k` temporaries after the number `n`. -/
def temporaries (n : Int64) (k : Nat) : List String :=
  (List.range k).map fun i => temporaryName (n + Int64.ofNat (i + 1))

@[simp]
theorem temporaries_zero (n : Int64) : temporaries n 0 = [] := rfl

@[simp]
theorem length_temporaries (n : Int64) (k : Nat) : (temporaries n k).length = k := by
  simp [temporaries]

theorem temporaries_add (n : Int64) (j k : Nat) :
    temporaries n (j + k) = temporaries n j ++ temporaries (n + Int64.ofNat j) k := by
  have hshift : ∀ i, n + Int64.ofNat (j + i + 1) = n + Int64.ofNat j + Int64.ofNat (i + 1) := by
    intro i
    rw [Nat.add_assoc, Int64.ofNat_add, Int64.add_assoc]
  simp only [temporaries, List.range_add, List.map_append, List.map_map, Function.comp_def, hshift]

namespace Hoisting

/-! ### Actions -/

/-- An action gives a result and puts assignments to new temporaries before the
current statement. -/
structure Emits {α : Type} (a : Hoisting α) (s : Temporaries) (r : α) (new : List Stmt)
    (s' : Temporaries) : Prop where
  run : (a.run s).value = (r, s')
  pending : s'.pending = new.reverse ++ s.pending
  last : s'.last = s.last + Int64.ofNat new.length
  targets : stmtsTargets new = temporaries s.last new.length
  straight : Straight new

variable {α β : Type} {s s' s'' : Temporaries} {new more : List Stmt}

theorem emits_pure (r : α) (s : Temporaries) : Emits (pure r) s r [] s :=
  ⟨rfl, rfl, (Int64.add_zero _).symm, rfl, fun t ht => by cases ht⟩

theorem Emits.bind {a : Hoisting α} {f : α → Hoisting β} {r : α} {r' : β} (h : Emits a s r new s')
    (h' : Emits (f r) s' r' more s'') : Emits (a >>= f) s r' (new ++ more) s'' where
  run := by rw [value_bind h.run, h'.run]
  pending := by rw [h'.pending, h.pending, List.reverse_append, List.append_assoc]
  last := by rw [h'.last, h.last, List.length_append, Int64.ofNat_add, Int64.add_assoc]
  targets := by
    rw [stmtsTargets_append, h.targets, h'.targets, h.last, List.length_append, temporaries_add]
  straight := h.straight.append h'.straight

theorem Emits.map {a : Hoisting α} {f : α → β} {r : α} (h : Emits a s r new s') :
    Emits (a >>= fun r => pure (f r)) s (f r) new s' := by
  simpa using h.bind (f := fun r => pure (f r)) (emits_pure (f r) s')

theorem emits_name (x : Expr) (s : Temporaries) :
    ∃ s', Emits (name x) s (.var x.loc (temporaryName (s.last + 1)))
      [Stmt.assign x.loc (temporaryName (s.last + 1)) none x] s' := by
  refine ⟨⟨s.last + 1, .assign x.loc (temporaryName (s.last + 1)) none x :: s.pending⟩, rfl,
    rfl, rfl, rfl, ?_⟩
  intro t ht
  exact ⟨_, _, _, List.mem_singleton.1 ht⟩

/-! ### Names and meanings -/

/-- Assignments to temporaries, and what is left, mention those names only that were mentioned
before and the temporaries. -/
structure Sparing (names : List String) (new : List Stmt) (names' : List String) : Prop where
  left : names' ⊆ names ++ stmtsTargets new
  inside : stmtsMentioned new ⊆ names ++ stmtsTargets new

theorem sparing_nil (names : List String) : Sparing names [] names :=
  ⟨List.subset_append_left _ _, List.nil_subset _⟩

theorem Sparing.append {names names' names₁ names₁' : List String} (h : Sparing names new names')
    (h₁ : Sparing names₁ more names₁') :
    Sparing (names ++ names₁) (new ++ more) (names' ++ names₁') := by
  have hfirst : names ++ stmtsTargets new ⊆ names ++ names₁ ++ stmtsTargets (new ++ more) := by
    rw [stmtsTargets_append]
    intro n hn
    simp only [List.mem_append] at hn ⊢
    tauto
  have hsecond : names₁ ++ stmtsTargets more ⊆ names ++ names₁ ++ stmtsTargets (new ++ more) := by
    rw [stmtsTargets_append]
    intro n hn
    simp only [List.mem_append] at hn ⊢
    tauto
  refine ⟨List.append_subset.2 ⟨List.Subset.trans h.left hfirst, List.Subset.trans h₁.left hsecond⟩,
    ?_⟩
  rw [stmtsMentioned_append]
  exact List.append_subset.2 ⟨List.Subset.trans h.inside hfirst,
    List.Subset.trans h₁.inside hsecond⟩

/-- More names may have been mentioned before and be left. -/
theorem Sparing.append_right {names names' : List String} (h : Sparing names new names')
    (others : List String) : Sparing (names ++ others) new (names' ++ others) := by
  simpa using h.append (sparing_nil others)

/-- Temporaries that are distinct and none of some names. -/
structure Apart (names : List String) (new : List Stmt) : Prop where
  nodup : (stmtsTargets new).Nodup
  fresh : ∀ n ∈ names, n ∉ stmtsTargets new

theorem Apart.first {names others : List String} (h : Apart (names ++ others) (new ++ more)) :
    Apart names new := by
  obtain ⟨hnodup, hfresh⟩ := h
  rw [stmtsTargets_append] at hnodup hfresh
  exact ⟨hnodup.of_append_left,
    fun n hn hmem => hfresh n (List.mem_append_left _ hn) (List.mem_append_left _ hmem)⟩

theorem Apart.second {names others : List String} (h : Apart (names ++ others) (new ++ more)) :
    Apart others more := by
  obtain ⟨hnodup, hfresh⟩ := h
  rw [stmtsTargets_append] at hnodup hfresh
  exact ⟨hnodup.of_append_right,
    fun n hn hmem => hfresh n (List.mem_append_right _ hn) (List.mem_append_right _ hmem)⟩

/-- What is left of the first part does not depend on the temporaries of the second. -/
theorem Apart.left {names others names' : List String} (h : Apart (names ++ others) (new ++ more))
    (hspares : Sparing names new names') : ∀ n ∈ names', n ∉ stmtsTargets more := by
  obtain ⟨hnodup, hfresh⟩ := h
  rw [stmtsTargets_append] at hnodup hfresh
  intro n hn hmem
  rcases List.mem_append.1 (hspares.left hn) with hold | hnew
  · exact hfresh n (List.mem_append_left _ hold) (List.mem_append_right _ hmem)
  · exact List.disjoint_of_nodup_append hnodup hnew hmem

/-- The second part does not depend on the temporaries of the first. -/
theorem Apart.right {names others : List String} (h : Apart (names ++ others) (new ++ more)) :
    ∀ n ∈ others, n ∉ stmtsTargets new := by
  intro n hn hmem
  refine h.fresh n (List.mem_append_right _ hn) ?_
  rw [stmtsTargets_append]
  exact List.mem_append_left _ hmem

/-! ### Expressions -/

/-- What becomes of an expression. -/
structure Hoists (x : Expr) (s : Temporaries) (x' : Expr) (new : List Stmt) (s' : Temporaries) :
    Prop where
  emits : Emits (expr x) s x' new s'
  spares : Sparing x.mentioned new x'.mentioned
  complex : x'.isComplex = x.isComplex
  count : new.length + (if x.isComplex then 1 else 0) ≤ x.nodeCount
  keeps : x.isLowerable = true → Apart x.mentioned new →
    ∀ call, Flattens call (evalExpr call · x) new (evalExpr call · x')

/-- What becomes of an operand. -/
structure HoistsOperand (x : Expr) (s : Temporaries) (x' : Expr) (new : List Stmt)
    (s' : Temporaries) : Prop where
  emits : Emits (simple x (expr x)) s x' new s'
  spares : Sparing x.mentioned new x'.mentioned
  count : new.length ≤ x.nodeCount
  keeps : x.isLowerable = true → Apart x.mentioned new →
    ∀ call, Flattens call (evalExpr call · x) new (evalExpr call · x')

/-- What becomes of operands. -/
structure HoistsOperands (xs : List Expr) (s : Temporaries) (xs' : List Expr) (new : List Stmt)
    (s' : Temporaries) : Prop where
  emits : Emits (operands xs) s xs' new s'
  spares : Sparing (exprsMentioned xs) new (exprsMentioned xs')
  count : new.length ≤ exprsNodeCount xs
  keeps : exprsLowerable xs = true → Apart (exprsMentioned xs) new →
    ∀ call, Flattens call (evalArgs call · xs) new (evalArgs call · xs')

theorem reads_expr (call : String → List Val → Option Val) (x : Expr) :
    Reads x.mentioned (evalExpr call · x) :=
  fun _ _ h => evalExpr_congr call x h

theorem reads_args (call : String → List Val → Option Val) (xs : List Expr) :
    Reads (exprsMentioned xs) (evalArgs call · xs) :=
  fun _ _ h => evalArgs_congr call xs h

/-- An expression that stays as it is. -/
theorem hoists_pure {x : Expr} (hx : expr x = pure x) (hcomplex : x.isComplex = false)
    (s : Temporaries) : Hoists x s x [] s where
  emits := hx ▸ emits_pure x s
  spares := sparing_nil _
  complex := rfl
  count := by simp [hcomplex]
  keeps _ _ _ := Flattens.nothing _

theorem Emits.of_pure {r r' : α} (h : Emits (pure r) s r' new s') : r' = r ∧ new = [] := by
  have hrun : (r, s) = (r', s') := h.run
  obtain ⟨rfl, rfl⟩ := Prod.mk.inj hrun
  refine ⟨rfl, List.reverse_eq_nil_iff.1 ?_⟩
  simpa using h.pending

/-- A call of a function by its name, with arguments in order only, keeps its meaning if
the arguments do. -/
theorem keeps_call {loc : Location} {f f' : Expr} {as as' : List Expr} {ns ns' : List NamedArg}
    {rest : List Stmt} {s₀ s₁ s₂ s₃ : Temporaries} (hf : HoistsOperand f s₀ f' new s₁)
    (has : HoistsOperands as s₁ as' more s₂) (hns : Emits (namedOperands ns) s₂ ns' rest s₃)
    (hlow : (Expr.call loc f as ns).isLowerable = true)
    (hapart : Apart (Expr.call loc f as ns).mentioned (new ++ (more ++ rest)))
    (call : String → List Val → Option Val) :
    Flattens call (evalExpr call · (.call loc f as ns)) (new ++ (more ++ rest))
      (evalExpr call · (.call loc f' as' ns')) := by
  obtain ⟨vloc, n, rfl, rfl, hlow⟩ := Expr.isLowerable_call hlow
  rw [namedOperands] at hns
  obtain ⟨rfl, rfl⟩ := hns.of_pure
  have hvar : simple (.var vloc n) (expr (.var vloc n)) = pure (.var vloc n) := by
    rw [simple_of_not_complex rfl, expr]
  obtain ⟨rfl, rfl⟩ := (hvar ▸ hf.emits : Emits (pure _) s₀ f' new s₁).of_pure
  have hargs : Apart (exprsMentioned as) more := by
    have h : Apart (Expr.mentioned (.var vloc n) ++ exprsMentioned as) ([] ++ more) := by
      simpa [Expr.mentioned, namedMentioned] using hapart
    exact h.second
  have hthen :=
    (has.keeps hlow hargs call).andThen has.emits.straight (k := fun vs _ => call n vs)
      (fun _ _ _ _ => rfl) (fun n hn => absurd hn List.not_mem_nil)
  simpa [evalExpr] using hthen

/-- An operation or a call is named, and everything else stays an operand. -/
theorem Hoists.operand {x x' : Expr} (h : Hoists x s x' new s') :
    ∃ x'' new' s'', HoistsOperand x s x'' new' s'' := by
  cases hcomplex : x.isComplex with
  | false =>
    refine ⟨x', new, s', ?_, h.spares, by simpa [hcomplex] using h.count, h.keeps⟩
    rw [simple_of_not_complex hcomplex]
    exact h.emits
  | true =>
    obtain ⟨s'', hname⟩ := emits_name x' s'
    refine ⟨_, _, s'', simple_of_complex hcomplex _ ▸ h.emits.bind hname,
      ?_, by simpa [hcomplex] using h.count, ?_⟩
    · have hold : x.mentioned ++ stmtsTargets new ⊆ x.mentioned ++ stmtsTargets (new ++
          [Stmt.assign x'.loc (temporaryName (s'.last + 1)) none x']) := by
        rw [stmtsTargets_append]
        exact List.append_subset.2 ⟨List.subset_append_left _ _, by simp⟩
      have hname : temporaryName (s'.last + 1) ∈ x.mentioned ++ stmtsTargets (new ++
          [Stmt.assign x'.loc (temporaryName (s'.last + 1)) none x']) := by
        simp [stmtsTargets_append, stmtsTargets, Stmt.targets]
      constructor
      · rw [Expr.mentioned]
        exact List.cons_subset.2 ⟨hname, List.nil_subset _⟩
      · rw [stmtsMentioned_append, stmtsMentioned, stmtsMentioned, Stmt.mentioned, List.append_nil]
        exact List.append_subset.2 ⟨List.Subset.trans h.spares.inside hold,
          List.cons_subset.2 ⟨hname, List.Subset.trans h.spares.left hold⟩⟩
    · intro hlow hapart call
      rw [← List.append_nil x.mentioned] at hapart
      exact (h.keeps hlow hapart.first call).name h.emits.straight _ _ _

mutual

/-- Hoisting the operands of an expression. -/
theorem expr_hoists : ∀ (x : Expr) (s : Temporaries), ∃ x' new s', Hoists x s x' new s'
  | .binOp loc op l r, s => by
    obtain ⟨l₀, new₀, s₀, hl₀⟩ := expr_hoists l s
    obtain ⟨l', new, s₁, hl⟩ := hl₀.operand
    obtain ⟨r₀, more₀, s₂, hr₀⟩ := expr_hoists r s₁
    obtain ⟨r', more, s', hr⟩ := hr₀.operand
    refine ⟨.binOp loc op l' r', new ++ more, s', ?_, hl.spares.append hr.spares, rfl, ?_, ?_⟩
    · simpa [expr_binOp] using hl.emits.bind (hr.emits.map (f := fun r => Expr.binOp loc op l' r))
    · have hlc := hl.count
      have hrc := hr.count
      simp only [List.length_append, Expr.isComplex, if_true, Expr.nodeCount]
      omega
    · intro hlow hapart call
      simp only [Expr.isLowerable, Bool.and_eq_true] at hlow
      rw [Expr.mentioned] at hapart
      simpa only [evalExpr] using (hl.keeps hlow.1.2 hapart.first call).seq
        (hr.keeps hlow.2 hapart.second call) hl.emits.straight hr.emits.straight (reads_expr call r)
        hapart.right (reads_expr call l') (hapart.left hl.spares) op.eval
  | .call loc f as ns, s => by
    obtain ⟨f₀, new₀, s₀, hf₀⟩ := expr_hoists f s
    obtain ⟨f', new, s₁, hf⟩ := hf₀.operand
    obtain ⟨as', more, s₂, has⟩ := operands_hoists as s₁
    obtain ⟨ns', rest, s', hns, hspares, hcount⟩ := named_hoists ns s₂
    refine ⟨.call loc f' as' ns', new ++ (more ++ rest), s', ?_, ?_, rfl, ?_, ?_⟩
    · simpa [expr_call]
        using hf.emits.bind (has.emits.bind (hns.map (f := fun ns => Expr.call loc f' as' ns)))
    · rw [← List.append_assoc]
      exact (hf.spares.append has.spares).append hspares
    · have hfc := hf.count
      have hac := has.count
      simp only [List.length_append, Expr.isComplex, if_true, Expr.nodeCount]
      omega
    · exact fun hlow hapart call => keeps_call hf has hns hlow hapart call
  | .tuple loc es, s => by
    obtain ⟨es', new, s', hes, hspares, hcount⟩ := exprs_hoists es s
    refine ⟨.tuple loc es', new, s', ?_, hspares, rfl, ?_, fun hlow => ?_⟩
    · simpa [expr_tuple] using hes.map (f := fun es => Expr.tuple loc es)
    · simp [Expr.isComplex, Expr.nodeCount]
      omega
    · simp [Expr.isLowerable] at hlow
  | .list loc es, s => by
    obtain ⟨es', new, s', hes, hspares, hcount⟩ := exprs_hoists es s
    refine ⟨.list loc es', new, s', ?_, hspares, rfl, ?_, fun hlow => ?_⟩
    · simpa [expr_list] using hes.map (f := fun es => Expr.list loc es)
    · simp [Expr.isComplex, Expr.nodeCount]
      omega
    · simp [Expr.isLowerable] at hlow
  | .access loc x field, s => by
    obtain ⟨x', new, s', hx⟩ := expr_hoists x s
    refine ⟨.access loc x' field, new, s', ?_, hx.spares, rfl, ?_, fun hlow => ?_⟩
    · simpa [expr_access] using hx.emits.map (f := fun x => Expr.access loc x field)
    · have hcount := hx.count
      simp [Expr.isComplex, Expr.nodeCount]
      omega
    · simp [Expr.isLowerable] at hlow
  | .ifElse loc c t e, s => by
    obtain ⟨c', new, s', hc⟩ := expr_hoists c s
    refine ⟨.ifElse loc c' t e, new, s', ?_, ?_, rfl, ?_, ?_⟩
    · simpa [expr_ifElse] using hc.emits.map (f := fun c => Expr.ifElse loc c t e)
    · exact (hc.spares.append_right _).append_right _
    · have hcount := hc.count
      simp [Expr.isComplex, Expr.nodeCount]
      omega
    · intro hlow hapart call
      simp only [Expr.isLowerable, Bool.and_eq_true] at hlow
      rw [Expr.mentioned, List.append_assoc] at hapart
      have happend : Apart (c.mentioned ++ (t.mentioned ++ e.mentioned)) (new ++ []) := by
        simpa using hapart
      have harms : ∀ v : Val, Reads (t.mentioned ++ e.mentioned) fun σ =>
        if v ≠ 0 then evalExpr call σ t else evalExpr call σ e :=
        fun v σ τ h => by simp only [evalExpr_congr call t h.left, evalExpr_congr call e h.right]
      simpa only [evalExpr] using (hc.keeps hlow.1.1 happend.first call).andThen hc.emits.straight
        harms happend.right
  | .matchOn loc x cs, s => by
    obtain ⟨x', new, s', hx⟩ := expr_hoists x s
    refine ⟨.matchOn loc x' cs, new, s', ?_, hx.spares.append_right _, rfl, ?_, ?_⟩
    · simpa [expr_matchOn] using hx.emits.map (f := fun x => Expr.matchOn loc x cs)
    · have hcount := hx.count
      simp [Expr.isComplex, Expr.nodeCount]
      omega
    · intro hlow hapart call
      simp only [Expr.isLowerable, Bool.and_eq_true] at hlow
      rw [Expr.mentioned] at hapart
      have happend : Apart (x.mentioned ++ casesMentioned cs) (new ++ []) := by simpa using hapart
      have harms : ∀ v : Val, Reads (casesMentioned cs) fun σ => evalCases call σ v cs :=
        fun v σ τ h => evalCases_congr call cs h
      simpa only [evalExpr] using (hx.keeps hlow.1 happend.first call).andThen hx.emits.straight
        harms happend.right
  | .var loc n, s => ⟨_, _, _, hoists_pure (by rw [expr]) rfl s⟩
  | .uint loc v, s => ⟨_, _, _, hoists_pure (by rw [expr]) rfl s⟩
  | .int loc v, s => ⟨_, _, _, hoists_pure (by rw [expr]) rfl s⟩
  | .float loc v, s => ⟨_, _, _, hoists_pure (by rw [expr]) rfl s⟩
  | .str loc v, s => ⟨_, _, _, hoists_pure (by rw [expr]) rfl s⟩
  | .bool loc v, s => ⟨_, _, _, hoists_pure (by rw [expr]) rfl s⟩
  | .eraser loc, s => ⟨_, _, _, hoists_pure (by rw [expr]) rfl s⟩
  | .lambda loc ps b, s => ⟨_, _, _, hoists_pure (by rw [expr]) rfl s⟩
  | .missing, s => ⟨_, _, _, hoists_pure (by rw [expr]) rfl s⟩

theorem exprs_hoists :
    ∀ (xs : List Expr) (s : Temporaries), ∃ xs' new s', Emits (exprs xs) s xs' new s' ∧
      Sparing (exprsMentioned xs) new (exprsMentioned xs') ∧ new.length ≤ exprsNodeCount xs
  | [], s => ⟨[], [], s, by rw [exprs]; exact emits_pure _ s, sparing_nil _, Nat.le_refl _⟩
  | x :: xs, s => by
    obtain ⟨x', new, s₁, hx⟩ := expr_hoists x s
    obtain ⟨xs', more, s', hxs, hspares, hcount⟩ := exprs_hoists xs s₁
    refine ⟨x' :: xs', new ++ more, s', ?_, hx.spares.append hspares, ?_⟩
    · simpa [exprs] using hx.emits.bind (hxs.map (f := fun xs => x' :: xs))
    · have hxc := hx.count
      rw [List.length_append, exprsNodeCount]
      omega

theorem operands_hoists :
    ∀ (xs : List Expr) (s : Temporaries), ∃ xs' new s', HoistsOperands xs s xs' new s'
  | [], s => ⟨[], [], s, by rw [operands]; exact emits_pure _ s, sparing_nil _, Nat.le_refl
    _, fun _ _ _ => Flattens.nothing _⟩
  | x :: xs, s => by
    obtain ⟨x₀, new₀, s₀, hx₀⟩ := expr_hoists x s
    obtain ⟨x', new, s₁, hx⟩ := hx₀.operand
    obtain ⟨xs', more, s', hxs⟩ := operands_hoists xs s₁
    refine ⟨x' :: xs', new ++ more, s', ?_, hx.spares.append hxs.spares, ?_, ?_⟩
    · simpa [operands] using hx.emits.bind (hxs.emits.map (f := fun xs => x' :: xs))
    · have hxc := hx.count
      have hxsc := hxs.count
      rw [List.length_append, exprsNodeCount]
      omega
    · intro hlow hapart call
      simp only [exprsLowerable, Bool.and_eq_true] at hlow
      rw [exprsMentioned] at hapart
      have hseq :=
        (hx.keeps hlow.1 hapart.first call).seq (hxs.keeps hlow.2 hapart.second call)
          hx.emits.straight hxs.emits.straight (reads_args call xs) hapart.right
          (reads_expr call x') (hapart.left hx.spares) fun v vs => some (v :: vs)
      simpa only [evalArgs, Option.map_eq_bind, Function.comp_def] using hseq

theorem named_hoists :
    ∀ (ns : List NamedArg) (s : Temporaries), ∃ ns' new s', Emits (namedOperands ns) s ns' new s' ∧
      Sparing (namedMentioned ns) new (namedMentioned ns') ∧ new.length ≤ namedNodeCount ns
  | [], s => ⟨[], [], s, by rw [namedOperands]; exact emits_pure _ s, sparing_nil _, Nat.le_refl _⟩
  | .mk loc n x :: ns, s => by
    obtain ⟨x₀, new₀, s₀, hx₀⟩ := expr_hoists x s
    obtain ⟨x', new, s₁, hx⟩ := hx₀.operand
    obtain ⟨ns', more, s', hns, hspares, hcount⟩ := named_hoists ns s₁
    refine ⟨.mk loc n x' :: ns', new ++ more, s', ?_, hx.spares.append hspares, ?_⟩
    · simpa [namedOperands_cons]
        using hx.emits.bind (hns.map (f := fun ns => NamedArg.mk loc n x' :: ns))
    · have hxc := hx.count
      rw [List.length_append, namedNodeCount]
      omega

end

/-! ### Statements -/

/-- What becomes of statements. -/
structure HoistsStmts (a : Hoisting (List Stmt)) (ss : List Stmt) (s : Temporaries)
    (ss' : List Stmt) (k : Nat) (s' : Temporaries) : Prop where
  run : (a.run s).value = (ss', s')
  pending : s'.pending = s.pending
  last : s'.last = s.last + Int64.ofNat k
  targets : (stmtsTargets ss').Perm (stmtsTargets ss ++ temporaries s.last k)
  mentioned : stmtsMentioned ss' ⊆ stmtsMentioned ss ++ temporaries s.last k
  count : k ≤ stmtsNodeCount ss
  keeps : stmtsLowerable ss = true →
    ∀ names, stmtsMentioned ss ⊆ names → (temporaries s.last k).Nodup →
      (∀ n ∈ names, n ∉ temporaries s.last k) → ∀ call σ τ, Store.Agree names σ τ →
      Option.Rel (Outcome.Alike names) (evalStmts call σ ss) (evalStmts call τ ss')

/-- A statement goes on with the value of an expression; after hoisting it goes on
with the same value. -/
theorem rel_head {x x' : Expr} (h : Hoists x s x' new s') (hlow : x.isLowerable = true)
    {names : List String} (hnames : x.mentioned ⊆ names) (hnodup : (stmtsTargets new).Nodup)
    (hfresh : ∀ n ∈ names, n ∉ stmtsTargets new) {call : String → List Val → Option Val}
    {t t' : Stmt} {k k' : Val → Store → Option Outcome}
    (ht : ∀ σ, evalStmt call σ t = (evalExpr call σ x).bind (k · σ))
    (ht' : ∀ σ, evalStmt call σ t' = (evalExpr call σ x').bind (k' · σ))
    (hk : ∀ v σ τ, Store.Agree names σ τ → Option.Rel (Outcome.Alike names) (k v σ) (k' v τ))
    {σ τ : Store} (hagree : Store.Agree names σ τ) :
    Option.Rel (Outcome.Alike names) (evalStmts call σ [t]) (evalStmts call τ (new ++ [t'])) := by
  have hflat := h.keeps hlow ⟨hnodup, fun n hn => hfresh n (hnames hn)⟩ call τ
  rw [evalStmts_singleton, ht, evalExpr_congr call x (hagree.mono hnames), evalStmts_append]
  cases hv : evalExpr call τ x with
  | none =>
    cases hnew : evalStmts call τ new with
    | none => exact .none
    | some out =>
      obtain ⟨υ, rfl, -⟩ := h.emits.straight.eval hnew
      show Option.Rel _ none (evalStmts call υ [t'])
      rw [evalStmts_singleton, ht']
      cases hw : evalExpr call υ x' with
      | none => exact .none
      | some w => exact absurd ((hflat w).1 ⟨υ, hnew, hw⟩) (by simp [hv])
  | some v =>
    obtain ⟨υ, hυ, hv'⟩ := (hflat v).2 hv
    obtain ⟨υ', heq, hoff⟩ := h.emits.straight.eval hυ
    cases heq
    have hsame : Store.Agree names σ υ := hagree.trans fun n hn => (hoff n (hfresh n hn)).symm
    have hvalue : evalExpr call υ x' = some v := hv'
    have hrest : evalStmts call υ [t'] = k' v υ := by
      rw [evalStmts_singleton, ht', hvalue, Option.bind_some]
    rw [hυ, Option.bind_some, Option.bind_some]
    show Option.Rel _ (k v σ) (evalStmts call υ [t'])
    rw [hrest]
    exact hk v σ υ hsame

/-- What was emitted where nothing was pending. -/
theorem Emits.pending_reverse {a : Hoisting α} {r : α}
    (h : Emits a { s with pending := [] } r new s') : s'.pending.reverse = new := by
  rw [h.pending, List.append_nil, List.reverse_reverse]

/-- A statement without further statements inside, made with an expression. -/
theorem leaf_hoists {x : Expr} (s : Temporaries) (make : Expr → Stmt) (own bound : List String)
    (out : Val → Store → Outcome)
    (hstmt : ∀ x, stmt (make x) = orShared (do return make (← expr x)) (make x))
    (htargets : ∀ x, (make x).targets = own)
    (hmentioned : ∀ x, (make x).mentioned = bound ++ x.mentioned)
    (hcount : (make x).nodeCount = x.nodeCount) (hlow : (make x).isLowerable = x.isLowerable)
    (heval : ∀ call σ x, evalStmt call σ (make x) = (evalExpr call σ x).bind fun v =>
      some (out v σ)) (hout : ∀ names v σ τ, bound ⊆ names → Store.Agree names σ τ →
        Outcome.Alike names (out v σ) (out v τ)) :
    ∃ ss' k s', HoistsStmts (placed (make x)) [make x] s ss' k s' := by
  obtain ⟨x', new, s', hx⟩ := expr_hoists x { s with pending := [] }
  have hrun : ((stmt (make x)).run { s with pending := [] }).value = (make x', s') := by
    rw [stmt_leaf make (hstmt x), value_bind hx.emits.run]
    rfl
  refine ⟨new ++ [make x'], new.length, { s' with pending := s.pending }, ?_, rfl, hx.emits.last,
    ?_, ?_, ?_, ?_⟩
  · rw [value_placed hrun, hx.emits.pending_reverse]
  · rw [stmtsTargets_append, ← hx.emits.targets]
    simp only [stmtsTargets, htargets, List.append_nil]
    exact List.perm_append_comm
  · rw [stmtsMentioned_append, ← hx.emits.targets]
    simp only [stmtsMentioned, hmentioned, List.append_nil]
    have hleft := hx.spares.left
    have hinside := hx.spares.inside
    intro n hn
    simp only [List.mem_append] at hn ⊢
    rcases hn with hn | hn | hn
    · exact (List.mem_append.1 (hinside hn)).imp .inr id
    · exact .inl (.inl hn)
    · exact (List.mem_append.1 (hleft hn)).imp .inr id
  · have := hx.count
    simp only [stmtsNodeCount, hcount]
    omega
  · intro hlowerable names hnames hnodup hfresh call σ τ hagree
    rw [← hx.emits.targets] at hnodup hfresh
    simp only [stmtsLowerable, Bool.and_true, hlow] at hlowerable
    simp only [stmtsMentioned, hmentioned, List.append_nil] at hnames
    refine rel_head hx hlowerable (List.Subset.trans (List.subset_append_right _ _) hnames) hnodup
      hfresh (heval call · x) (heval call · x')
      (fun v σ τ h =>
        .some (hout names v σ τ (List.Subset.trans (List.subset_append_left _ _) hnames) h)) hagree

/-- Temporaries of a first part and then of a second one. -/
theorem fresh_of_add {names : List String} {n : Int64} {j k : Nat}
    (hnodup : (temporaries n (j + k)).Nodup) (hfresh : ∀ m ∈ names, m ∉ temporaries n (j + k)) :
    ((temporaries n j).Nodup ∧ ∀ m ∈ names, m ∉ temporaries n j) ∧
      (temporaries (n + Int64.ofNat j) k).Nodup ∧
      ∀ m ∈ names, m ∉ temporaries (n + Int64.ofNat j) k := by
  rw [temporaries_add] at hnodup hfresh
  exact ⟨⟨hnodup.of_append_left, fun m hm hmem => hfresh m hm (List.mem_append_left _ hmem)⟩,
    hnodup.of_append_right, fun m hm hmem => hfresh m hm (List.mem_append_right _ hmem)⟩

/-- A conditional without an else arm. -/
theorem ifThen_hoists {c : Expr} {t : List Stmt}
    (ht : ∀ s : Temporaries, ∃ t' k s', HoistsStmts (stmts t) t s t' k s') (loc tl : Location)
    (s : Temporaries) :
    ∃ ss' k s', HoistsStmts (placed (.ifThen loc c tl t)) [.ifThen loc c tl t] s ss' k s' := by
  obtain ⟨c', new, s₁, hc⟩ := expr_hoists c { s with pending := [] }
  obtain ⟨t', k, s', ht⟩ := ht s₁
  have hlast : s₁.last = s.last + Int64.ofNat new.length := hc.emits.last
  have hrun : ((stmt (.ifThen loc c tl t)).run { s with pending := [] }).value =
    (.ifThen loc c' tl t', s') := by
    rw [stmt_ifThen, value_bind hc.emits.run, value_bind ht.run]
    rfl
  refine ⟨new ++ [Stmt.ifThen loc c' tl t'], new.length + k, { s' with pending := s.pending }, ?_,
    rfl, ?_, ?_, ?_, ?_, ?_⟩
  · rw [value_placed hrun, ht.pending, hc.emits.pending_reverse]
  · rw [ht.last, hlast, Int64.ofNat_add, Int64.add_assoc]
  · rw [temporaries_add, ← hlast, ← hc.emits.targets, stmtsTargets_append]
    simp only [stmtsTargets, Stmt.targets, List.append_nil]
    refine (ht.targets.append_left _).trans ?_
    rw [← List.append_assoc, ← List.append_assoc]
    exact List.perm_append_comm.append_right _
  · rw [temporaries_add, ← hlast, ← hc.emits.targets, stmtsMentioned_append]
    simp only [stmtsMentioned, Stmt.mentioned, List.append_nil]
    have hinside := hc.spares.inside
    have hleft := hc.spares.left
    have harm := ht.mentioned
    intro n hn
    simp only [List.mem_append] at hn ⊢
    rcases hn with hn | hn | hn
    · have := List.mem_append.1 (hinside hn)
      tauto
    · have := List.mem_append.1 (hleft hn)
      tauto
    · have := List.mem_append.1 (harm hn)
      tauto
  · have hcc := hc.count
    have htc := ht.count
    simp only [stmtsNodeCount, Stmt.nodeCount]
    omega
  · intro hlow names hnames hnodup hfresh call σ τ hagree
    simp only [stmtsLowerable, Stmt.isLowerable, Bool.and_true, Bool.and_eq_true] at hlow
    simp only [stmtsMentioned, Stmt.mentioned, List.append_nil] at hnames
    obtain ⟨⟨hnodup₁, hfresh₁⟩, hnodup₂, hfresh₂⟩ := fresh_of_add hnodup hfresh
    rw [← hc.emits.targets] at hnodup₁ hfresh₁
    rw [← hlast] at hnodup₂ hfresh₂
    refine rel_head hc hlow.1 (List.Subset.trans (List.subset_append_left _ _) hnames) hnodup₁
      hfresh₁ (fun σ => by rw [evalStmt]) (fun σ => by rw [evalStmt]) (fun v σ τ h => ?_) hagree
    show Option.Rel _ (if v ≠ 0 then _ else _) (if v ≠ 0 then _ else _)
    split
    · exact ht.keeps hlow.2 names (List.Subset.trans (List.subset_append_right _ _) hnames) hnodup₂
        hfresh₂ call σ τ h
    · exact .some (.next h)

/-- A conditional with both arms. -/
theorem ifElse_hoists {c : Expr} {t e : List Stmt}
    (ht : ∀ s : Temporaries, ∃ t' k s', HoistsStmts (stmts t) t s t' k s')
    (he : ∀ s : Temporaries, ∃ e' k s', HoistsStmts (stmts e) e s e' k s') (loc tl el : Location)
    (s : Temporaries) :
    ∃ ss' k s', HoistsStmts (placed (.ifElse loc c tl t el e)) [.ifElse loc c tl t el e]
      s ss' k s' := by
  obtain ⟨c', new, s₁, hc⟩ := expr_hoists c { s with pending := [] }
  obtain ⟨t', j, s₂, ht⟩ := ht s₁
  obtain ⟨e', k, s', he⟩ := he s₂
  have hlast : s₁.last = s.last + Int64.ofNat new.length := hc.emits.last
  have hrun : ((stmt (.ifElse loc c tl t el e)).run { s with pending := [] }).value =
      (.ifElse loc c' tl t' el e', s') := by
    rw [stmt_ifElse, value_bind hc.emits.run, value_bind ht.run, value_bind he.run]
    rfl
  refine ⟨new ++ [Stmt.ifElse loc c' tl t' el e'], new.length + (j + k),
    { s' with pending := s.pending }, ?_, rfl, ?_, ?_, ?_, ?_, ?_⟩
  · rw [value_placed hrun, he.pending, ht.pending, hc.emits.pending_reverse]
  · rw [he.last, ht.last, hlast, Int64.ofNat_add, Int64.ofNat_add, Int64.add_assoc, Int64.add_assoc]
  · rw [temporaries_add, temporaries_add, ← hlast, ← ht.last, ← hc.emits.targets,
      stmtsTargets_append]
    simp only [stmtsTargets, Stmt.targets, List.append_nil]
    have harms := ht.targets.append he.targets
    rw [List.perm_iff_count] at harms ⊢
    intro n
    have := harms n
    simp only [List.count_append] at this ⊢
    omega
  · rw [temporaries_add, temporaries_add, ← hlast, ← ht.last, ← hc.emits.targets,
      stmtsMentioned_append]
    simp only [stmtsMentioned, Stmt.mentioned, List.append_nil]
    have hinside := hc.spares.inside
    have hleft := hc.spares.left
    have hthen := ht.mentioned
    have helse := he.mentioned
    intro n hn
    simp only [List.mem_append] at hn ⊢
    rcases hn with hn | (hn | hn) | hn
    · have := List.mem_append.1 (hinside hn)
      tauto
    · have := List.mem_append.1 (hleft hn)
      tauto
    · have := List.mem_append.1 (hthen hn)
      tauto
    · have := List.mem_append.1 (helse hn)
      tauto
  · have hcc := hc.count
    have htc := ht.count
    have hec := he.count
    simp only [stmtsNodeCount, Stmt.nodeCount]
    omega
  · intro hlow names hnames hnodup hfresh call σ τ hagree
    simp only [stmtsLowerable, Stmt.isLowerable, Bool.and_true, Bool.and_eq_true] at hlow
    simp only [stmtsMentioned, Stmt.mentioned, List.append_nil, List.append_subset] at hnames
    obtain ⟨⟨hnodup₁, hfresh₁⟩, hnodup, hfresh⟩ := fresh_of_add hnodup hfresh
    obtain ⟨⟨hnodup₂, hfresh₂⟩, hnodup₃, hfresh₃⟩ := fresh_of_add hnodup hfresh
    rw [← hc.emits.targets] at hnodup₁ hfresh₁
    rw [← hlast] at hnodup₂ hfresh₂
    rw [← hlast, ← ht.last] at hnodup₃ hfresh₃
    refine rel_head hc hlow.1.1 hnames.1.1 hnodup₁ hfresh₁ (fun σ => by rw [evalStmt])
      (fun σ => by rw [evalStmt]) (fun v σ τ h => ?_) hagree
    show Option.Rel _ (if v ≠ 0 then _ else _) (if v ≠ 0 then _ else _)
    split
    · exact ht.keeps hlow.1.2 names hnames.1.2 hnodup₂ hfresh₂ call σ τ h
    · exact he.keeps hlow.2 names hnames.2 hnodup₃ hfresh₃ call σ τ h

/-- A statement that stays as it is. -/
theorem stmt_unchanged {t : Stmt} (ht : stmt t = pure t) (hstores : ∀ call names σ τ,
      Store.Agree names σ τ → t.isLowerable = true →
        Option.Rel (Outcome.Alike names) (evalStmt call σ t) (evalStmt call τ t))
    (s : Temporaries) : ∃ ss' k s', HoistsStmts (placed t) [t] s ss' k s' := by
  refine ⟨[t], 0, s, value_placed (by rw [ht]), rfl, (Int64.add_zero _).symm, by simp, by simp,
    Nat.zero_le _, ?_⟩
  intro hlow names hnames hnodup hfresh call σ τ hagree
  rw [evalStmts_singleton, evalStmts_singleton]
  exact hstores call names σ τ hagree (by simpa [stmtsLowerable] using hlow)

mutual

/-- Hoisting the operands of a statement. -/
theorem stmt_hoists :
    ∀ (t : Stmt) (s : Temporaries), ∃ ss' k s', HoistsStmts (placed t) [t] s ss' k s'
  | .ret loc none, s => by
    refine stmt_unchanged (by rw [stmt]) (fun call names σ τ _ _ => ?_) s
    simp only [evalStmt]
    exact .some (.done 0)
  | .ret loc (some x), s =>
    leaf_hoists s (fun x => .ret loc (some x)) [] [] (fun v _ => .done v) (fun x => by rw [stmt])
      (fun x => by rw [Stmt.targets]) (fun x => by rw [Stmt.mentioned]; rfl)
      (by rw [Stmt.nodeCount]) (by rw [Stmt.isLowerable])
      (fun call σ x => by rw [evalStmt, Option.map_eq_bind]; rfl) (fun names v σ τ _ _ => .done v)
  | .assign loc n ty x, s =>
    leaf_hoists s (fun x => .assign loc n ty x) [n] [n] (fun v σ => .next (σ.set n v))
      (fun x => by rw [stmt]) (fun x => by rw [Stmt.targets]) (fun x => by rw [Stmt.mentioned]; rfl)
      (by rw [Stmt.nodeCount]) (by rw [Stmt.isLowerable])
      (fun call σ x => by rw [evalStmt, Option.map_eq_bind]; rfl)
      (fun names v σ τ _ h => .next (h.set n v))
  | .use loc n x, s =>
    leaf_hoists s (fun x => .use loc n x) [] [n] (fun v σ => .next (σ.set n v))
      (fun x => by rw [stmt]) (fun x => by rw [Stmt.targets]) (fun x => by rw [Stmt.mentioned]; rfl)
      (by rw [Stmt.nodeCount]) (by rw [Stmt.isLowerable])
      (fun call σ x => by rw [evalStmt, Option.map_eq_bind]; rfl)
      (fun names v σ τ _ h => .next (h.set n v))
  | .expr loc x, s =>
    leaf_hoists s (fun x => .expr loc x) [] [] (fun v σ => .next σ) (fun x => by rw [stmt])
      (fun x => by rw [Stmt.targets]) (fun x => by rw [Stmt.mentioned]; rfl)
      (by rw [Stmt.nodeCount]) (by rw [Stmt.isLowerable])
      (fun call σ x => by rw [evalStmt, Option.map_eq_bind]; rfl) (fun names v σ τ _ h => .next h)
  | .ifThen loc c tl t, s => ifThen_hoists (stmts_hoists t) loc tl s
  | .ifElse loc c tl t el e, s => ifElse_hoists (stmts_hoists t) (stmts_hoists e) loc tl el s
  | .missing, s => by
    refine stmt_unchanged (by rw [stmt]) (fun call names σ τ _ hlow => ?_) s
    simp [Stmt.isLowerable] at hlow

/-- Hoisting the operands of statements. -/
theorem stmts_hoists :
    ∀ (ss : List Stmt) (s : Temporaries), ∃ ss' k s', HoistsStmts (stmts ss) ss s ss' k s'
  | [], s => by
    refine ⟨[], 0, s, by rw [stmts]; rfl, rfl, (Int64.add_zero _).symm, by simp, by simp,
      Nat.le_refl _, ?_⟩
    intro hlow names hnames hnodup hfresh call σ τ hagree
    simp only [evalStmts]
    exact .some (.next hagree)
  | t :: ss, s => by
    obtain ⟨ts, j, s₁, ht⟩ := stmt_hoists t s
    obtain ⟨ss', k, s', hss⟩ := stmts_hoists ss s₁
    refine ⟨ts ++ ss', j + k, s', ?_, hss.pending.trans ht.pending, ?_, ?_, ?_, ?_, ?_⟩
    · rw [stmts_cons, value_bind ht.run, value_bind hss.run]
      rfl
    · rw [hss.last, ht.last, Int64.ofNat_add, Int64.add_assoc]
    · rw [temporaries_add, ← ht.last, stmtsTargets_append]
      have hboth := ht.targets.append hss.targets
      rw [List.perm_iff_count] at hboth ⊢
      intro n
      have := hboth n
      simp only [stmtsTargets, List.append_nil, List.count_append] at this ⊢
      omega
    · rw [temporaries_add, ← ht.last, stmtsMentioned_append]
      have hfirst := ht.mentioned
      have hrest := hss.mentioned
      simp only [stmtsMentioned, List.append_nil] at hfirst ⊢
      intro n hn
      simp only [List.mem_append] at hn ⊢
      rcases hn with hn | hn
      · have := List.mem_append.1 (hfirst hn)
        tauto
      · have := List.mem_append.1 (hrest hn)
        tauto
    · have htc := ht.count
      have hsc := hss.count
      simp only [stmtsNodeCount] at htc ⊢
      omega
    · intro hlow names hnames hnodup hfresh call σ τ hagree
      simp only [stmtsLowerable, Bool.and_eq_true] at hlow
      simp only [stmtsMentioned, List.append_subset] at hnames
      obtain ⟨⟨hnodup₁, hfresh₁⟩, hnodup₂, hfresh₂⟩ := fresh_of_add hnodup hfresh
      rw [← ht.last] at hnodup₂ hfresh₂
      have hfirst :=
        ht.keeps (by simpa [stmtsLowerable] using hlow.1) names
          (by simpa [stmtsMentioned] using hnames.1) hnodup₁ hfresh₁ call σ τ hagree
      rw [evalStmts_singleton] at hfirst
      rw [evalStmts, evalStmts_append]
      refine rel_bind hfirst fun out out' hout => ?_
      cases hout with
      | next h => exact hss.keeps hlow.2 names hnames.2 hnodup₂ hfresh₂ call _ _ h
      | done v => exact .some (.done v)

end

end Hoisting

end FunRiscv
