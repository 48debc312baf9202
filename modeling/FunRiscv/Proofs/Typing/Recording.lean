import Mathlib
import FunRiscv.Proofs.Typing.Coverage

/-!
# Every expression of a checked program has a closed type

Whatever a checker is told beforehand: where inferring an expression succeeds, it records a type for
each number of the expression and for no other, and a checked function gets a type. What is still
unknown in these types at the end is dynamic, so no variable is left in them.

* `Checker.Records`: a checker moved on, and types were recorded for the numbers of a set.
* `Notes`: an action that, where it succeeds, records types for the numbers of a set.
* `notes`, `notesPattern`, `notesStmt`: inferring an expression, binding a pattern and checking a
  statement, by recursion on the tree.
* `check_closed`: the types of a checked program.
-/

namespace FunRiscv

open Checking

/-! ### Closed types -/

theorem Ty.mem_freeVarsAfter (t : Ty) (seen : List String) {v : String} :
    v ∈ t.freeVarsAfter seen ↔ v ∈ seen ∨ t.occurs v = true := by
  have list : ∀ (ts : List Ty),
    (∀ t ∈ ts, ∀ seen, v ∈ t.freeVarsAfter seen ↔ v ∈ seen ∨ t.occurs v = true) →
      ∀ seen, v ∈ freeVarsAfterList seen ts ↔ v ∈ seen ∨ occursList v ts = true := by
    intro ts
    induction ts with
    | nil => simp [freeVarsAfterList, occursList]
    | cons t ts ih =>
      intro h seen
      rw [List.forall_mem_cons] at h
      rw [freeVarsAfterList, ih h.2, h.1, occursList, Bool.or_eq_true, or_assoc]
  induction t using Ty.induction generalizing seen with
  | word | any | none => simp [freeVarsAfter, occurs]
  | var w =>
    rw [freeVarsAfter, occurs, beq_iff_eq]
    split
    · next h =>
      have hw : w ∈ seen := by simpa using h
      exact ⟨.inl, fun h => h.elim id fun hwv => hwv ▸ hw⟩
    · rw [List.mem_append, List.mem_singleton, eq_comm]
  | named n args ih => rw [freeVarsAfter, list args ih, occurs]
  | func p r ihp ihr =>
    have hp : v ∈ p.freeVarsAfter seen ↔ _ := ihp seen
    have hr : v ∈ r.freeVarsAfter (p.freeVarsAfter seen) ↔ _ := ihr _
    rw [freeVarsAfter, hr, hp, occurs, Bool.or_eq_true, or_assoc]
  | tuple elems ih => rw [freeVarsAfter, list elems ih, occurs]

theorem Ty.closed_iff {t : Ty} : t.closed = true ↔ t.Ground := by
  rw [closed, List.isEmpty_iff, List.eq_nil_iff_forall_not_mem]
  refine forall_congr' fun v => ?_
  rw [freeVars, mem_freeVarsAfter t []]
  simp

/-- What is unknown at the end is dynamic. -/
theorem Checker.closed_settle (c : Checker) (t : Ty) : (c.settle t).closed = true :=
  Ty.closed_iff.2 (c.ground_settle t)

/-! ### What is recorded -/

/-- A checker moved on from another, and types were recorded for the numbers of a set. -/
structure Checker.Records (S : Set Nat) (c c' : Checker) : Prop where
  moves : c.unifier.Moves c'.unifier
  rest : c' = { c with unifier := c'.unifier, types := c'.types }
  types : ∃ new, c'.types = new ++ c.types ∧ ∀ k, (∃ t, (k, t) ∈ new) ↔ k ∈ S

theorem Checker.Records.trans {S T : Set Nat} {c c' c'' : Checker} (h : Records S c c')
    (h' : Records T c' c'') : Records (S ∪ T) c c'' := by
  obtain ⟨new, hnew, hS⟩ := h.types
  obtain ⟨new', hnew', hT⟩ := h'.types
  refine ⟨h.moves.trans h'.moves, by rw [h'.rest, h.rest],
    new' ++ new, by rw [hnew', hnew, List.append_assoc], fun k => ?_⟩
  simp only [List.mem_append, exists_or, hS, hT, Set.mem_union, or_comm]

theorem Checker.Records.of_unifier {c : Checker} {u : Unifier} (h : c.unifier.Moves u) :
    Records ∅ c { c with unifier := u } :=
  ⟨h, rfl, [], rfl, by simp⟩

/-- An action that, where it succeeds, records types for the numbers of a set. -/
def Notes {α : Type} (m : Checking α) (S : Set Nat) : Prop :=
  ∀ ⦃c : Checker⦄ ⦃a : α⦄ ⦃c' : Checker⦄, Gives m c a c' → c.Records S c'

section Notes

variable {α β : Type} {m : Checking α} {f : α → Checking β} {S T : Set Nat}

theorem Notes.congr (hm : Notes m S) (h : S = T) : Notes m T := h ▸ hm

theorem Notes.bind (hm : Notes m S) (hf : ∀ a, Notes (f a) T) : Notes (m >>= f) (S ∪ T) := by
  intro c b c'' h
  obtain ⟨a, c', ha, hb⟩ := gives_bind.1 h
  exact (hm ha).trans (hf a hb)

theorem Steady.notes (hm : Steady m) : Notes m ∅ := by
  intro c a c' h
  obtain ⟨u, hu, rfl⟩ := hm h
  exact .of_unifier hu

/-- Only the second part records. -/
theorem Notes.after (hf : ∀ a, Notes (f a) T) (hm : Steady m) : Notes (m >>= f) T :=
  (hm.notes.bind hf).congr (Set.empty_union T)

/-- Only the first part records. -/
theorem Notes.before (hm : Notes m S) (hf : ∀ a, Steady (f a)) : Notes (m >>= f) S :=
  (hm.bind fun a => (hf a).notes).congr (Set.union_empty S)

theorem notes_fail (loc : Location) (cause : TypeCause) : Notes (fail loc cause : Checking α) S :=
  fun _ _ _ h => (not_gives_fail h).elim

theorem notes_failWith (e : TypeError) : Notes (failWith e : Checking α) S :=
  fun _ _ _ h => (not_gives_failWith h).elim

/-- The last thing is to record the type. -/
theorem notes_recorded (i : Nat) (t : Ty) : Notes (do
    record i t
    return t) {i} := by
  refine Notes.before (fun c _ c' h => ?_) fun _ => steady_pure _
  obtain rfl := gives_record.1 h
  exact ⟨.refl _, rfl, [(i, t)], rfl, fun k => by simp⟩

end Notes

/-! ### Expressions -/

section Expressions

variable {locals : List Frame} {i : Nat} {expected : Option Ty} {e : Expr}

/-- Inferring an expression records a type for each of its numbers. -/
def Noted (e : Expr) : Prop := ∀ locals i expected, Notes (infer locals i expected e) (span (i, e))

/-- Binding a pattern records a type for each number of a literal in it. -/
def NotedPattern (p : Pattern) : Prop :=
  ∀ locals i t, Notes (bindPattern locals i t p) (Set.Ico i (i + p.nodeCount))

theorem span_atom (h : e.nodeCount = 1) : ({i} : Set Nat) = span (i, e) := by
  ext k
  simp only [Set.mem_singleton_iff, mem_span, h]
  omega

theorem notes_inferList {es : List Expr} (hes : ∀ e ∈ es, Noted e) :
    Notes (inferList locals i es) (Set.Ico i (i + exprsNodeCount es)) := by
  induction es generalizing i with
  | nil =>
    rw [inferList]
    exact (steady_pure _).notes.congr (by simp [exprsNodeCount])
  | cons e es ih =>
    rw [List.forall_mem_cons] at hes
    rw [inferList]
    refine ((hes.1 _ _ _).bind fun _ => (ih hes.2).before fun _ => steady_pure _).congr ?_
    ext k
    simp only [Set.mem_union, mem_span, Set.mem_Ico, exprsNodeCount]
    omega

theorem notes_expectAll {t : Ty} {es : List Expr} (hes : ∀ e ∈ es, Noted e) :
    Notes (expectAll locals i t es) (Set.Ico i (i + exprsNodeCount es)) := by
  induction es generalizing i with
  | nil =>
    rw [expectAll]
    exact (steady_pure _).notes.congr (by simp [exprsNodeCount])
  | cons e es ih =>
    rw [List.forall_mem_cons] at hes
    rw [expectAll]
    refine ((hes.1 _ _ _).bind fun found =>
      (Notes.after fun _ => ih hes.2) (steady_unifyAt _ _ _)).congr ?_
    ext k
    simp only [Set.mem_union, mem_span, Set.mem_Ico, exprsNodeCount]
    omega

theorem mem_spans_jobs {es : List Expr} {k : Nat} :
    k ∈ spans (jobs i es) ↔ k ∈ Set.Ico i (i + exprsNodeCount es) := by
  induction es generalizing i with
  | nil => simp [spans, jobs, exprsNodeCount]
  | cons e es ih =>
    have hcons : k ∈ spans (jobs i (e :: es)) ↔
      k ∈ span (i, e) ∨ k ∈ spans (jobs (i + e.nodeCount) es) := by
      simp [spans, jobs]
    rw [hcons, ih, mem_span, Set.mem_Ico, Set.mem_Ico, exprsNodeCount]
    omega

theorem mem_spans_namedJobs {ns : List NamedArg} {k : Nat} :
    k ∈ spans ((namedJobs i ns).map (·.value)) ↔ k ∈ Set.Ico i (i + namedNodeCount ns) := by
  induction ns generalizing i with
  | nil => simp [spans, namedJobs, namedNodeCount]
  | cons n ns ih =>
    obtain ⟨loc, n, e⟩ := n
    have hcons : k ∈ spans ((namedJobs i (.mk loc n e :: ns)).map (·.value)) ↔
        k ∈ span (i, e) ∨ k ∈ spans ((namedJobs (i + e.nodeCount) ns).map (·.value)) := by
      simp [spans, namedJobs]
    rw [hcons, ih, mem_span, Set.mem_Ico, Set.mem_Ico, namedNodeCount]
    omega

/-- However arguments are passed, they are inferred. -/
theorem notes_applyArguments {loc : Location} {js : List (Nat × Expr)} (hjs : ∀ j ∈ js, Noted j.2)
    (t : Ty) : Notes (applyArguments loc t (js.map (argument locals))) (spans js) := by
  induction js generalizing t with
  | nil =>
    rw [List.map_nil, applyArguments]
    exact (steady_pure _).notes.congr (by simp [spans])
  | cons j js ih =>
    rw [List.forall_mem_cons] at hjs
    have hj : ∀ expected, Notes ((argument locals j).infer expected) (span j) := hjs.1 locals j.1
    have hspans : spans (j :: js) = span j ∪ spans js := by
      ext k
      simp [spans]
    rw [List.map_cons, applyArguments, hspans]
    refine Notes.after (fun u => ?_) (steady_applied t)
    split
    · rw [Argument.expectType]
      exact ((hj _).before fun found => steady_unifyAt _ _ _).bind fun _ => ih hjs.2 _
    · exact (hj _).bind fun _ => ih hjs.2 _
    · exact (hj _).bind fun found =>
        Notes.after (fun result => Notes.after (fun _ => ih hjs.2 _) (steady_unifyAt _ _ _))
          steady_fresh
    · exact notes_fail _ _

/-- A call infers the callee and every argument, wherever it is placed. -/
theorem Noted.call {loc : Location} {f : Expr} {args : List Expr} {named : List NamedArg}
    (hf : Noted f) (hargs : ∀ e ∈ args, Noted e) (hnamed : ∀ n ∈ named, Noted n.value) :
    Noted (.call loc f args named) := by
  intro locals i expected
  rw [infer]
  -- The arguments are numbered after the callee, and the call itself comes last.
  refine ((hf locals (i + 1) none).bind
    (T := Set.Ico (i + 1 + f.nodeCount)
      (i + 1 + f.nodeCount + exprsNodeCount args + namedNodeCount named) ∪ {i}) fun callee =>
      Notes.after (fun fields => ?_) (steady_calledFields locals f)).congr ?_
  · rw [arguments_eq, namedArguments_eq, placeArguments_map]
    cases hplaced : placeArguments loc fields (jobs (i + 1 + f.nodeCount) args)
        (namedJobs (i + 1 + f.nodeCount + exprsNodeCount args) named) with
    | error e => exact notes_failWith e
    | ok placed =>
      have hperm := placeArguments_perm hplaced
      have hnoted : ∀ j ∈ placed, Noted j.2 := by
        intro j hj
        rcases List.mem_append.1 (hperm.mem_iff.1 hj) with hj | hj
        · refine hargs _ ?_
          rw [← map_snd_jobs (i + 1 + f.nodeCount) args]
          exact List.mem_map_of_mem hj
        · have hvalue := List.mem_map_of_mem (f := Prod.snd) hj
          rw [map_snd_namedJobs] at hvalue
          obtain ⟨n, hn, heq⟩ := List.mem_map.1 hvalue
          exact heq ▸ hnamed n hn
      refine ((notes_applyArguments hnoted callee).congr ?_).bind fun t => notes_recorded i t
      ext k
      have hspans : k ∈ spans placed ↔ k ∈ spans (jobs (i + 1 + f.nodeCount) args) ∨
          k ∈ spans ((namedJobs (i + 1 + f.nodeCount + exprsNodeCount args) named).map
            (·.value)) := by
        simp only [spans, Set.mem_ofPred_eq, hperm.mem_iff, List.mem_append, or_and_right,
          exists_or]
      rw [hspans, mem_spans_jobs, mem_spans_namedJobs, Set.mem_Ico, Set.mem_Ico, Set.mem_Ico]
      omega
  · ext k
    simp only [Set.mem_union, mem_span, Set.mem_Ico, Set.mem_singleton_iff, Expr.nodeCount]
    omega

theorem Noted.tuple {loc : Location} {es : List Expr} (hes : ∀ e ∈ es, Noted e) :
    Noted (.tuple loc es) := by
  intro locals i expected
  rw [infer]
  refine ((notes_inferList hes).bind fun _ => notes_recorded _ _).congr ?_
  ext k
  simp only [Set.mem_union, mem_span, Set.mem_Ico, Set.mem_singleton_iff, Expr.nodeCount]
  omega

theorem Noted.list {loc : Location} {es : List Expr} (hes : ∀ e ∈ es, Noted e) :
    Noted (.list loc es) := by
  intro locals i expected
  cases es with
  | nil =>
    rw [infer]
    exact (Notes.after (fun _ => notes_recorded _ _) steady_fresh).congr (span_atom rfl)
  | cons e es =>
    rw [List.forall_mem_cons] at hes
    rw [infer]
    refine ((hes.1 _ _ _).bind fun _ =>
      (notes_expectAll hes.2).bind fun _ => notes_recorded _ _).congr ?_
    ext k
    simp only [Set.mem_union, mem_span, Set.mem_Ico, Set.mem_singleton_iff, Expr.nodeCount,
      exprsNodeCount]
    omega

theorem Noted.binOp {loc : Location} {op : Operator} {l r : Expr} (hl : Noted l) (hr : Noted r) :
    Noted (.binOp loc op l r) := by
  intro locals i expected
  rw [infer]
  refine ((hl _ _ _).bind fun a =>
    (hr _ _ _).bind fun b =>
      Notes.after (fun _ => notes_recorded _ _) (steady_operationType _ _ _ _)).congr ?_
  ext k
  simp only [Set.mem_union, mem_span, Set.mem_singleton_iff, Expr.nodeCount]
  omega

theorem Noted.lambda {loc : Location} {ps : List Param} {b : Expr} (hb : Noted b) :
    Noted (.lambda loc ps b) := by
  intro locals i expected
  rw [infer]
  refine (Notes.after
    (fun hint => Notes.after (fun ts => (hb _ _ _).bind fun _ => notes_recorded _ _)
      (steady_lambdaParams _ _)) (steady_lambdaHint _)).congr ?_
  ext k
  simp only [Set.mem_union, mem_span, Set.mem_singleton_iff, Expr.nodeCount]
  omega

theorem Noted.ifElse {loc : Location} {x a b : Expr} (hx : Noted x) (ha : Noted a) (hb : Noted b) :
    Noted (.ifElse loc x a b) := by
  intro locals i expected
  rw [infer]
  refine ((hx _ _ _).bind fun cond =>
    Notes.after (fun _ => (ha _ _ _).bind fun t => (hb _ _ _).bind fun u =>
    Notes.after (fun _ => notes_recorded _ _) (steady_unifyAt _ _ _))
      (steady_conditionType _ _)).congr ?_
  ext k
  simp only [Set.mem_union, mem_span, Set.mem_singleton_iff, Expr.nodeCount]
  omega

theorem Noted.access {loc : Location} {x : Expr} {field : String} (hx : Noted x) :
    Noted (.access loc x field) := by
  intro locals i expected
  rw [infer]
  refine ((hx _ _ _).bind fun t =>
    Notes.after (fun _ => notes_recorded _ _) (steady_fieldType _ _ _)).congr ?_
  ext k
  simp only [Set.mem_union, mem_span, Set.mem_singleton_iff, Expr.nodeCount]
  omega

theorem notes_inferCases {cs : List Case} (hcs : ∀ k ∈ cs, NotedPattern k.pattern ∧ Noted k.body)
    {t : Ty} {result : Option Ty} :
    Notes (inferCases locals i t result cs) (Set.Ico i (i + casesNodeCount cs)) := by
  induction cs generalizing i result with
  | nil =>
    rw [inferCases]
    exact (steady_pure _).notes.congr (by simp [casesNodeCount])
  | cons k cs ih =>
    obtain ⟨loc, p, b⟩ := k
    rw [List.forall_mem_cons] at hcs
    have tail : ∀ u : Ty, Notes (inferCases locals (i + p.nodeCount + b.nodeCount) t (some u) cs)
        (Set.Ico (i + p.nodeCount + b.nodeCount)
          (i + p.nodeCount + b.nodeCount + casesNodeCount cs)) := fun u => ih hcs.2
    rw [inferCases]
    refine ((hcs.1.1 _ _ _).bind fun inner => (hcs.1.2 inner (i + p.nodeCount) result).bind
      (T := Set.Ico (i + p.nodeCount + b.nodeCount)
        (i + p.nodeCount + b.nodeCount + casesNodeCount cs)) fun found => ?_).congr ?_
    · cases result with
      | none =>
        simp only [pure_bind]
        exact tail found
      | some u =>
        simp only [pure_bind]
        exact Notes.after (fun _ => tail u) (steady_unifyAt _ _ _)
    · ext k
      simp only [Set.mem_union, Set.mem_Ico, mem_span, Case.pattern, Case.body, casesNodeCount]
      omega

theorem Noted.matchOn {loc : Location} {x : Expr} {cs : List Case} (hx : Noted x)
    (hcs : ∀ k ∈ cs, NotedPattern k.pattern ∧ Noted k.body) : Noted (.matchOn loc x cs) := by
  intro locals i expected
  rw [infer]
  refine ((hx _ _ _).bind fun t => (notes_inferCases hcs).bind (T := {i}) fun result => ?_).congr ?_
  · cases result with
    | none => exact notes_fail _ _
    | some u => exact notes_recorded _ _
  · ext k
    simp only [Set.mem_union, Set.mem_Ico, mem_span, Set.mem_singleton_iff, Expr.nodeCount]
    omega

theorem notes_bindPatterns {ps : List Pattern} (hps : ∀ p ∈ ps, NotedPattern p) {ts : List Ty}
    (hlen : ps.length = ts.length) :
    Notes (bindPatterns locals i ts ps) (Set.Ico i (i + patternsNodeCount ps)) := by
  induction ps generalizing locals i ts with
  | nil =>
    rw [bindPatterns]
    exact (steady_pure _).notes.congr (by simp [patternsNodeCount])
  | cons p ps ih =>
    rw [List.forall_mem_cons] at hps
    cases ts with
    | nil => cases hlen
    | cons t ts =>
      rw [bindPatterns]
      refine (Notes.after (fun u => (hps.1 _ _ _).bind fun inner => ih hps.2 (Nat.succ.inj hlen))
        (steady_applied t)).congr ?_
      ext k
      simp only [Set.mem_union, Set.mem_Ico, patternsNodeCount]
      omega

theorem NotedPattern.lit {loc : Location} (he : Noted e) : NotedPattern (.lit loc e) :=
  fun locals i t => by
  rw [bindPattern]
  exact (he _ _ _).before fun found => (steady_unifyAt _ _ _).bind fun _ => steady_pure _

theorem NotedPattern.cons {loc : Location} {n : String} {ps : List Pattern}
    (hps : ∀ p ∈ ps, NotedPattern p) : NotedPattern (.cons loc n ps) := fun locals i t => by
  rw [bindPattern]
  refine Notes.after (fun s => ?_) (steady_find? _ _)
  split
  · exact notes_fail _ _
  · refine Notes.after (fun u => ?_) (steady_instantiate _)
    dsimp only
    split
    · exact notes_fail _ _
    · next hlen =>
        exact Notes.after (fun _ => notes_bindPatterns hps (by omega)) (steady_unifyAt _ _ _)

theorem NotedPattern.tuple {loc : Location} {ps : List Pattern} (hps : ∀ p ∈ ps, NotedPattern p) :
    NotedPattern (.tuple loc ps) := by
  intro locals i t c a c' h
  rw [bindPattern, gives_bind] at h
  obtain ⟨ts, c₁, hts, h⟩ := h
  have hfresh := (Steady.mapM fun _ _ => steady_fresh).notes hts
  have hbound :=
    (Notes.after fun _ => notes_bindPatterns hps (gives_mapM_fresh_length hts).symm)
      (steady_unifyAt _ _ _) h
  have hall := hfresh.trans hbound
  rwa [Set.empty_union] at hall

mutual

/-- Inferring an expression records a type for each of its numbers. -/
theorem notes : ∀ e : Expr, Noted e
  | .uint .. | .int .. | .float .. | .str .. | .bool .. => fun locals i expected => by
    rw [infer]
    exact (notes_recorded _ _).congr (span_atom rfl)
  | .eraser _ => fun locals i expected => by
    rw [infer]
    exact (Notes.after (fun _ => notes_recorded _ _) steady_fresh).congr (span_atom rfl)
  | .var _ _ => fun locals i expected => by
    rw [infer]
    exact (Notes.after (fun _ => notes_recorded _ _) (steady_inferVar _ _ _)).congr (span_atom rfl)
  | .tuple _ es => .tuple (notesAll es)
  | .list _ es => .list (notesAll es)
  | .binOp _ _ l r => .binOp (notes l) (notes r)
  | .call _ f args named => .call (notes f) (notesAll args) (notesNamed named)
  | .lambda _ _ b => .lambda (notes b)
  | .ifElse _ x a b => .ifElse (notes x) (notes a) (notes b)
  | .matchOn _ x cs => .matchOn (notes x) (notesCases cs)
  | .access _ x _ => .access (notes x)
  | .missing => fun locals i expected => by
    rw [infer]
    exact notes_fail _ _

theorem notesAll : ∀ es : List Expr, ∀ e ∈ es, Noted e
  | [] => by simp
  | e :: es => List.forall_mem_cons.2 ⟨notes e, notesAll es⟩

theorem notesNamed : ∀ ns : List NamedArg, ∀ n ∈ ns, Noted n.value
  | [] => by simp
  | .mk _ _ e :: ns => List.forall_mem_cons.2 ⟨notes e, notesNamed ns⟩

theorem notesCases : ∀ cs : List Case, ∀ k ∈ cs, NotedPattern k.pattern ∧ Noted k.body
  | [] => by simp
  | .mk _ p b :: cs => List.forall_mem_cons.2 ⟨⟨notesPattern p, notes b⟩, notesCases cs⟩

/-- Binding a pattern records a type for each number of a literal in it. -/
theorem notesPattern : ∀ p : Pattern, NotedPattern p
  | .wild _ | .var _ _ => fun locals i t => by
    rw [bindPattern]
    exact (steady_pure _).notes.congr (by simp [Pattern.nodeCount])
  | .lit _ e => .lit (notes e)
  | .cons _ _ ps => .cons (notesPatterns ps)
  | .tuple _ ps => .tuple (notesPatterns ps)
  | .missing => fun locals i t => by
    rw [bindPattern]
    exact notes_fail _ _

theorem notesPatterns : ∀ ps : List Pattern, ∀ p ∈ ps, NotedPattern p
  | [] => by simp
  | p :: ps => List.forall_mem_cons.2 ⟨notesPattern p, notesPatterns ps⟩

end

theorem notes_expectType (locals : List Frame) (i : Nat) (t : Ty) (e : Expr) :
    Notes (expectType locals i t e) (span (i, e)) := by
  rw [expectType]
  exact (notes e _ _ _).before fun found => steady_unifyAt _ _ _

end Expressions

/-! ### Statements -/

mutual

/-- Checking a statement records a type for each of its numbers. -/
theorem notesStmt (result : Ty) : ∀ (locals : List Frame) (i : Nat) (s : Stmt),
    Notes (checkStmt result locals i s) (Set.Ico i (i + s.nodeCount))
  | locals, i, .ret _ none => by
    rw [checkStmt]
    exact ((steady_unifyAt _ _ _).bind fun _ => steady_pure _).notes.congr
      (by simp [Stmt.nodeCount])
  | locals, i, .ret _ (some e) => by
    rw [checkStmt]
    exact (notes_expectType _ _ _ _).before fun _ => steady_pure _
  | locals, i, .assign loc n none e => by
    rw [checkStmt]
    exact (notes e _ _ _).before fun _ => (steady_assignLocal _ _ _ _).bind fun _ => steady_pure _
  | locals, i, .assign loc n (some t) e => by
    rw [checkStmt]
    dsimp only
    refine Notes.after (fun _ => (notes_expectType _ _ _ _).before fun _ => ?_) (steady_resolve _ _)
    simp only [pure_bind]
    exact (steady_assignLocal _ _ _ _).bind fun _ => steady_pure _
  | locals, i, .use _ _ e => by
    rw [checkStmt]
    exact (notes e _ _ _).before fun _ => steady_pure _
  | locals, i, .expr _ e => by
    rw [checkStmt]
    exact (notes e _ _ _).before fun _ => steady_pure _
  | locals, i, .ifThen _ e _ a => by
    rw [checkStmt]
    refine ((notes e _ _ _).bind fun _ =>
      Notes.after (fun _ => (notesStmts result _ _ a).before fun _ => steady_pure _)
        (steady_conditionType _ _)).congr ?_
    ext k
    simp only [Set.mem_union, mem_span, Set.mem_Ico, Stmt.nodeCount]
    omega
  | locals, i, .ifElse _ e _ a _ b => by
    rw [checkStmt]
    refine ((notes e _ _ _).bind fun _ =>
      Notes.after (fun _ => (notesStmts result _ _ a).bind fun _ =>
      (notesStmts result _ _ b).before fun _ => steady_pure _) (steady_conditionType _ _)).congr ?_
    ext k
    simp only [Set.mem_union, mem_span, Set.mem_Ico, Stmt.nodeCount]
    omega
  | locals, i, .missing => by
    rw [checkStmt]
    exact notes_fail _ _

theorem notesStmts (result : Ty) : ∀ (locals : List Frame) (i : Nat) (ss : List Stmt),
    Notes (checkStmts result locals i ss) (Set.Ico i (i + stmtsNodeCount ss))
  | locals, i, [] => by
    rw [checkStmts]
    exact (steady_pure _).notes.congr (by simp [stmtsNodeCount])
  | locals, i, s :: ss => by
    rw [checkStmts]
    refine ((notesStmt result locals i s).bind fun _ =>
      (notesStmts result _ _ ss).before fun _ => steady_pure _).congr ?_
    ext k
    simp only [Set.mem_union, Set.mem_Ico, stmtsNodeCount]
    omega

end

/-! ### Functions and programs -/

/-- Functions were checked: types were recorded for the numbers from the next one on, and each
function got a closed type. -/
structure Checker.Finishes (fs : List NamedFunction) (c c' : Checker) : Prop where
  nextNode : c'.nextNode = c.nextNode + (fs.flatMap fun f => stmtsNodes f.func.body.stmts).length
  types : ∃ new, c'.types = new ++ c.types ∧
    ∀ k, (∃ t, (k, t) ∈ new) ↔ k ∈ Set.Ico c.nextNode c'.nextNode
  funcs : ∃ done, c'.funcs = done ++ c.funcs ∧ (∀ e ∈ done, e.2.closed = true) ∧
    ∀ f ∈ fs, ∃ t, (f.name, t) ∈ done

theorem Checker.Finishes.trans {fs gs : List NamedFunction} {c c' c'' : Checker}
    (h : Finishes fs c c') (h' : Finishes gs c' c'') : Finishes (fs ++ gs) c c'' := by
  obtain ⟨new, hnew, hnumbers⟩ := h.types
  obtain ⟨new', hnew', hnumbers'⟩ := h'.types
  obtain ⟨done, hdone, hclosed, hfs⟩ := h.funcs
  obtain ⟨done', hdone', hclosed', hgs⟩ := h'.funcs
  have hle := h.nextNode.symm ▸ Nat.le_add_right c.nextNode _
  have hle' := h'.nextNode.symm ▸ Nat.le_add_right c'.nextNode _
  refine ⟨?_, ⟨new' ++ new, by rw [hnew', hnew, List.append_assoc], fun k => ?_⟩,
    done' ++ done, by rw [hdone', hdone, List.append_assoc],
    List.forall_mem_append.2 ⟨hclosed', hclosed⟩, ?_⟩
  · rw [h'.nextNode, h.nextNode, List.flatMap_append, List.length_append, Nat.add_assoc]
  · simp only [List.mem_append, exists_or, hnumbers, hnumbers', Set.mem_Ico]
    omega
  · intro f hf
    rcases List.mem_append.1 hf with hf | hf
    · obtain ⟨t, ht⟩ := hfs f hf
      exact ⟨t, List.mem_append_right _ ht⟩
    · obtain ⟨t, ht⟩ := hgs f hf
      exact ⟨t, List.mem_append_left _ ht⟩

/-- From the start of a function to its end, types are recorded for the numbers of its body. -/
theorem ChecksFunc.records {f : NamedFunction} {c c' : Checker} (h : ChecksFunc f c c') :
    ∃ c₁ t, (c.entering f).Records
      (Set.Ico c.nextNode (c.nextNode + stmtsNodeCount f.func.body.stmts)) c₁ ∧
    c' = c₁.finished f t := by
  obtain ⟨params, written, result, returned, c₁, c₂, c₃, -, hresult, hbody, hlast, rfl⟩ := h
  have hstart : (c.entering f).Records ∅ c₁ := by
    cases written with
    | none => exact steady_fresh.notes hresult
    | some t => exact (steady_pure t).notes hresult
  have hend : c₂.Records ∅ c₃ := by
    rcases hlast with ⟨-, rfl⟩ | ⟨-, hunified⟩
    · exact .of_unifier (.refl _)
    · obtain ⟨u, hu, rfl⟩ := moves_unified hunified
      exact .of_unifier hu
  have hall := (hstart.trans (notesStmts result _ _ _ hbody)).trans hend
  rw [Set.empty_union, Set.union_empty] at hall
  exact ⟨c₃, _, hall, rfl⟩

theorem ChecksFunc.finishes {f : NamedFunction} {c c' : Checker} (h : ChecksFunc f c c') :
    c.Finishes [f] c' := by
  obtain ⟨c₁, t, hrecords, rfl⟩ := h.records
  have hnode : c₁.nextNode = c.nextNode + stmtsNodeCount f.func.body.stmts := by
    rw [hrecords.rest, Checker.entering]
  have hfuncs : c₁.funcs = c.funcs := by rw [hrecords.rest, Checker.entering]
  refine ⟨?_, ?_, [(f.name, c₁.settle t)], ?_, ?_, ?_⟩
  · rw [Checker.finished, hnode, List.flatMap_singleton, stmtsNodes_length]
  · rw [Checker.finished, hnode]
    exact hrecords.types
  · rw [Checker.finished, hfuncs]
    rfl
  · simp [Checker.closed_settle]
  · simp

theorem checkAll_finishes {fs : List NamedFunction} {c c' : Checker} {x : Unit}
    (h : Gives (checkAll fs) c x c') : c.Finishes fs c' := by
  induction fs generalizing c with
  | nil =>
    obtain ⟨-, rfl⟩ := gives_pure.1 h
    exact ⟨rfl, ⟨[], rfl, by simp⟩, [], rfl, by simp, by simp⟩
  | cons f fs ih =>
    obtain ⟨y, c₁, hy, h⟩ := gives_bind.1 h
    exact (gives_checkFunc.1 (gives_inContext.1 hy)).finishes.trans (ih h)

/-- A name that stands in the first part of a table is found there. -/
theorem lookup_append_of_mem {α β : Type} [BEq α] [LawfulBEq α] {as : List (α × β)} {k : α} {b : β}
    (h : (k, b) ∈ as) (bs : List (α × β)) : ∃ b', (k, b') ∈ as ∧ (as ++ bs).lookup k = some b' := by
  cases hl : as.lookup k with
  | none =>
    rw [List.lookup_eq_none_iff] at hl
    simpa using hl _ h
  | some b' =>
    obtain ⟨l₁, l₂, rfl, -⟩ := List.lookup_eq_some_iff.1 hl
    exact ⟨b', by simp, by rw [List.lookup_append, hl, Option.some_or]⟩

/-- **Every expression of a checked program has a closed type.** Whatever the checker was told
beforehand: where a program is accepted, each of its functions has a type without variables, and so
has each expression in the bodies of its functions. -/
theorem check_closed {p : Program} {o : CheckOptions} {c : Checker} (h : p.check o = (.ok (), c)) :
    (∀ f ∈ p.functions, ∃ t, c.funcType? f.name = some t ∧ t.closed = true) ∧
      ∀ k e, p.nodes[k]? = some e → ∃ t, c.typeOf? k = some t ∧ t.closed = true := by
  obtain ⟨G, -, h⟩ := Program.check_eq_ok_iff.1 h
  have hfinishes := checkAll_finishes h
  obtain ⟨new, hnew, hnumbers⟩ := hfinishes.types
  obtain ⟨done, hdone, hclosed, hfs⟩ := hfinishes.funcs
  constructor
  · intro f hf
    obtain ⟨t, ht⟩ := hfs f hf
    obtain ⟨t', ht', hlookup⟩ := lookup_append_of_mem ht (Checker.new o).funcs
    exact ⟨t', by rw [Checker.funcType?, hdone]; exact hlookup, hclosed _ ht'⟩
  · intro k e hk
    have hlt : k < p.nodes.length := (List.getElem?_eq_some_iff.1 hk).1
    obtain ⟨t, ht⟩ :=
      (hnumbers k).2 ⟨Nat.zero_le k, by rw [hfinishes.nextNode]; exact Nat.lt_add_left _ hlt⟩
    obtain ⟨t', -, hlookup⟩ := lookup_append_of_mem ht (Checker.new o).types
    exact ⟨c.settle t', by rw [Checker.typeOf?, hnew, hlookup]; rfl, c.closed_settle t'⟩

/-- A function that matches a pair against a literal and a variable. Both arms are functions that
never use their parameter. -/
def pickFunc : FuncDef where
  loc := {}
  name := "pick"
  params := [⟨{}, "x", none⟩]
  ret := none
  body := ⟨{}, [.ret {} (some (.matchOn {} (.tuple {} [.var {} "x", .uint {} 1]) [
    .mk {} (.tuple {} [.lit {} (.uint {} 0), .var {} "y"])
      (.lambda {} [⟨{}, "z", none⟩] (.var {} "y")),
    .mk {} (.wild {}) (.lambda {} [⟨{}, "z", none⟩] (.uint {} 2))]))]⟩
  checked := true

def pickProgram : Program := ⟨[], [.func pickFunc]⟩

/-- The literal in the pattern and the first arm have closed types, although the parameter of the
arm was never determined. -/
theorem check_closed_pick :
    ∃ c, pickProgram.check {} = (.ok (), c) ∧ c.types.lookup 5 = some (.func (.var "t_4") .u24) ∧
    (∃ t, c.funcType? "pick" = some t ∧ t.closed = true) ∧
    (∃ t, c.typeOf? 4 = some t ∧ t.closed = true) ∧
    ∃ t, c.typeOf? 5 = some t ∧ t.closed = true := by
  have haccepted : pickProgram.check {} = (.ok (), (pickProgram.check {}).2) :=
    check_eq_of_isOk (by decide +kernel)
  have hliteral : pickProgram.nodes[4]? = some (.uint {} 0) := by rfl
  have harm : pickProgram.nodes[5]? = some (.lambda {} [⟨{}, "z", none⟩] (.var {} "y")) := by rfl
  obtain ⟨hfuncs, hnodes⟩ := check_closed haccepted
  exact ⟨_, haccepted, by decide +kernel, hfuncs ⟨"pick", pickFunc⟩ List.mem_cons_self,
    hnodes 4 _ hliteral, hnodes 5 _ harm⟩

end FunRiscv
