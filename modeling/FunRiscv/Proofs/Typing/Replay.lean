import Mathlib
import FunRiscv.Proofs.Typing.Mirrors

/-!
# Expressions, statements and functions on top of others

* `Replays`, `ReplaysPattern`: an expression is inferred and a pattern is bound in the same way
  on top of a checker.
* `replays`, `replaysPattern`, `replaysStmt`: all are, by recursion on the tree.
* `NamedFunction.body`: what checking a function does between its start and its end. `mirrors_body`:
  the same on top of a checker.
-/

namespace FunRiscv

open Checking

/-! ### Expressions and patterns -/

/-- An expression is inferred in the same way on top of a checker, under numbers from
the offset on. -/
def Replays (source : Unifier) (base : Checker) (offset : Nat) (e : Expr) : Prop :=
  ∀ ⦃locals : List Frame⦄ ⦃i k : Nat⦄ ⦃expected : Option Ty⦄, source.Owns locals → k = offset + i →
    (∀ t ∈ expected, t.Over source.Own) → Mirrors source base offset (infer locals i expected e)
      (infer (base.lifted source locals) k (expected.map (Ty.bind (base.unifier.lift source))) e)
      (base.Moved source)

/-- A pattern is bound in the same way on top of a checker. -/
def ReplaysPattern (source : Unifier) (base : Checker) (offset : Nat) (p : Pattern) : Prop :=
  ∀ ⦃locals : List Frame⦄ ⦃i k : Nat⦄ ⦃t : Ty⦄, source.Owns locals → k = offset + i →
    t.Over source.Own → Mirrors source base offset (bindPattern locals i t p)
      (bindPattern (base.lifted source locals) k (t.bind (base.unifier.lift source)) p)
      (base.MovedFrames source)

section Expressions

variable {source : Unifier} {base : Checker} {offset i k : Nat} {locals : List Frame}
  {expected : Option Ty} {t : Ty} {e : Expr}

/-- Without an expected type. -/
theorem Replays.free (h : Replays source base offset e) (hlocals : source.Owns locals)
    (hk : k = offset + i) :
    Mirrors source base offset (infer locals i none e) (infer (base.lifted source locals) k none e)
      (base.Moved source) :=
  h hlocals hk Ty.over_all_none

theorem Replays.expecting (h : Replays source base offset e) (hlocals : source.Owns locals)
    (hk : k = offset + i) (ht : t.Over source.Own) :
    Mirrors source base offset (expectType locals i t e)
      (expectType (base.lifted source locals) k (t.bind (base.unifier.lift source)) e) fun _ _ =>
        True := by
  rw [expectType, expectType]
  refine (h hlocals hk (Ty.over_all_some ht)).bind ?_
  rintro found _ ⟨hfound, rfl⟩
  exact mirrors_unifyAt ht hfound _

theorem replays_inferList {es : List Expr} (hes : ∀ e ∈ es, Replays source base offset e)
    (hlocals : source.Owns locals) (hk : k = offset + i) :
    Mirrors source base offset (inferList locals i es) (inferList (base.lifted source locals) k es)
      (base.MovedAll source) := by
  induction es generalizing i k with
  | nil =>
    rw [inferList, inferList]
    exact .pure ⟨by simp, rfl⟩
  | cons e es ih =>
    rw [List.forall_mem_cons] at hes
    rw [inferList, inferList]
    refine (hes.1.free hlocals hk).bind ?_
    rintro t _ ⟨ht, rfl⟩
    refine (ih hes.2 (by omega)).bind ?_
    rintro ts _ ⟨hts, rfl⟩
    exact .pure ⟨List.forall_mem_cons.2 ⟨ht, hts⟩, rfl⟩

theorem replays_expectAll {es : List Expr} (hes : ∀ e ∈ es, Replays source base offset e)
    (hlocals : source.Owns locals) (hk : k = offset + i) (ht : t.Over source.Own) :
    Mirrors source base offset (expectAll locals i t es)
      (expectAll (base.lifted source locals) k (t.bind (base.unifier.lift source)) es) fun _ _ =>
        True := by
  induction es generalizing i k with
  | nil =>
    rw [expectAll, expectAll]
    exact .pure trivial
  | cons e es ih =>
    rw [List.forall_mem_cons] at hes
    rw [expectAll, expectAll]
    refine (hes.1 hlocals hk (Ty.over_all_some ht)).bind ?_
    rintro found _ ⟨hfound, rfl⟩
    exact (mirrors_unifyAt ht hfound _).bind fun _ _ _ => ih hes.2 (by omega)

/-- An expression with its number from an offset on. -/
def shiftJob (offset : Nat) (j : Nat × Expr) : Nat × Expr := (offset + j.1, j.2)

theorem jobs_shift (offset i : Nat) (es : List Expr) :
    jobs (offset + i) es = (jobs i es).map (shiftJob offset) := by
  induction es generalizing i with
  | nil => rfl
  | cons e es ih => rw [jobs, jobs, List.map_cons, Nat.add_assoc, ih, shiftJob]

theorem namedJobs_shift (offset i : Nat) (ns : List NamedArg) :
    namedJobs (offset + i) ns = (namedJobs i ns).map (Labelled.map (shiftJob offset)) := by
  induction ns generalizing i with
  | nil => rfl
  | cons n ns ih =>
    obtain ⟨loc, name, e⟩ := n
    rw [namedJobs, namedJobs, List.map_cons, Nat.add_assoc, ih]
    rfl

theorem replays_applyArguments {js : List (Nat × Expr)}
    (hjs : ∀ j ∈ js, Replays source base offset j.2) (hlocals : source.Owns locals)
    (ht : t.Over source.Own) (loc : Location) :
    Mirrors source base offset (applyArguments loc t (js.map (argument locals)))
      (applyArguments loc (t.bind (base.unifier.lift source))
        ((js.map (shiftJob offset)).map (argument (base.lifted source locals))))
    (base.Moved source) := by
  induction js generalizing t with
  | nil =>
    rw [List.map_nil, List.map_nil, List.map_nil, applyArguments, applyArguments]
    exact .pure ⟨ht, rfl⟩
  | cons j js ih =>
    rw [List.forall_mem_cons] at hjs
    have hj : Mirrors source base offset ((argument locals j).infer none)
        ((argument (base.lifted source locals) (shiftJob offset j)).infer none)
        (base.Moved source) := hjs.1.free hlocals rfl
    rw [List.map_cons, List.map_cons, List.map_cons, applyArguments, applyArguments]
    refine (mirrors_applied ht).bind ?_
    rintro u _ ⟨hu, rfl⟩
    cases u with
    | func p r =>
      rw [Ty.over_func] at hu
      exact (hjs.1.expecting hlocals rfl hu.1).bind fun _ _ _ => ih hjs.2 hu.2
    | any => exact hj.bind fun _ _ _ => ih hjs.2 ht
    | var v =>
      refine hj.bind ?_
      rintro found _ ⟨hfound, rfl⟩
      refine mirrors_fresh.bind ?_
      rintro result _ ⟨hresult, rfl⟩
      exact (mirrors_unifyAt hu (Ty.over_func.2 ⟨hfound, hresult⟩) loc).bind fun _ _ _ =>
        ih hjs.2 hresult
    | word | none | named | tuple => exact mirrors_fail

theorem Replays.call {loc : Location} {f : Expr} {args : List Expr} {named : List NamedArg}
    (hf : Replays source base offset f) (hargs : ∀ e ∈ args, Replays source base offset e)
    (hnamed : ∀ n ∈ named, Replays source base offset n.value) :
    Replays source base offset (.call loc f args named) := by
  intro locals i k expected hlocals hk _
  have hargsAt : k + 1 + f.nodeCount = offset + (i + 1 + f.nodeCount) := by omega
  have hnamedAt : offset + (i + 1 + f.nodeCount) + exprsNodeCount args =
    offset + (i + 1 + f.nodeCount + exprsNodeCount args) := by omega
  rw [infer, infer]
  refine (hf.free hlocals (by omega)).bind ?_
  rintro callee _ ⟨hcallee, rfl⟩
  refine (mirrors_calledFields hlocals f).bind ?_
  rintro fields _ rfl
  simp only [arguments_eq, namedArguments_eq, placeArguments_map, hargsAt, hnamedAt,
    jobs_shift offset, namedJobs_shift offset]
  cases hplaced : placeArguments loc fields (jobs (i + 1 + f.nodeCount) args)
      (namedJobs (i + 1 + f.nodeCount + exprsNodeCount args) named) with
  | error e => exact mirrors_failWith
  | ok placed =>
    have hreplays : ∀ j ∈ placed, Replays source base offset j.2 := by
      have hperm := (placeArguments_perm hplaced).map Prod.snd
      rw [List.map_append, map_snd_jobs, map_snd_namedJobs] at hperm
      intro j hj
      rcases List.mem_append.1 (hperm.mem_iff.1 (List.mem_map_of_mem hj)) with he | he
      · exact hargs _ he
      · obtain ⟨n, hn, heq⟩ := List.mem_map.1 he
        exact heq ▸ hnamed n hn
    refine (replays_applyArguments hreplays hlocals hcallee loc).bind ?_
    rintro t _ ⟨ht, rfl⟩
    exact mirrors_recorded hk ht

theorem Replays.tuple {loc : Location} {es : List Expr}
    (hes : ∀ e ∈ es, Replays source base offset e) :
    Replays source base offset (.tuple loc es) := by
  intro locals i k expected hlocals hk _
  rw [infer, infer]
  refine (replays_inferList hes hlocals (by omega)).bind ?_
  rintro ts _ ⟨hts, rfl⟩
  have htuple : Mirrors source base offset _ _ _ := mirrors_recorded hk (Ty.over_tuple.2 hts)
  simpa only [Ty.bind, Ty.bindList_eq_map] using htuple

theorem Replays.list {loc : Location} {es : List Expr}
    (hes : ∀ e ∈ es, Replays source base offset e) : Replays source base offset (.list loc es) := by
  intro locals i k expected hlocals hk _
  have hlast : ∀ {t : Ty}, t.Over source.Own → Mirrors source base offset (do
      record i (.listOf t)
      return Ty.listOf t) (do
      record k (.listOf (t.bind (base.unifier.lift source)))
      return Ty.listOf (t.bind (base.unifier.lift source))) (base.Moved source) := fun ht =>
    mirrors_recorded hk (Ty.over_named.2 (by simpa using ht))
  cases es with
  | nil =>
    rw [infer, infer]
    refine mirrors_fresh.bind ?_
    rintro t _ ⟨ht, rfl⟩
    exact hlast ht
  | cons e es =>
    rw [List.forall_mem_cons] at hes
    rw [infer, infer]
    refine (hes.1.free hlocals (by omega)).bind ?_
    rintro t _ ⟨ht, rfl⟩
    exact (replays_expectAll hes.2 hlocals (by omega) ht).bind fun _ _ _ => hlast ht

theorem Replays.binOp {loc : Location} {op : Operator} {l r : Expr}
    (hl : Replays source base offset l) (hr : Replays source base offset r) :
    Replays source base offset (.binOp loc op l r) := by
  intro locals i k expected hlocals hk _
  rw [infer, infer]
  refine (hl.free hlocals (by omega)).bind ?_
  rintro a _ ⟨ha, rfl⟩
  refine (hr.free hlocals (by omega)).bind ?_
  rintro b _ ⟨hb, rfl⟩
  refine (mirrors_operationType ha hb loc op).bind ?_
  rintro t _ ⟨ht, rfl⟩
  exact mirrors_recorded hk ht

theorem Replays.lambda {loc : Location} {ps : List Param} {b : Expr}
    (hb : Replays source base offset b) : Replays source base offset (.lambda loc ps b) := by
  intro locals i k expected hlocals hk he
  rw [infer, infer]
  refine (mirrors_lambdaHint he).bind ?_
  rintro hint _ ⟨hhint, rfl⟩
  refine (mirrors_lambdaParams hhint).bind ?_
  rintro ts _ ⟨hts, rfl⟩
  have hinner : source.Owns (withParams ([] :: locals) ps ts) :=
    AreLocal.withParams (AreLocal.push hlocals) hts
  have hbody : Mirrors source base offset (infer (withParams ([] :: locals) ps ts) (i + 1) none b)
      (infer (withParams ([] :: base.lifted source locals) ps
        (ts.map (Ty.bind (base.unifier.lift source)))) (k + 1) none b)
        (base.Moved source) := by
    have hframes : base.lifted source (withParams ([] :: locals) ps ts) = _ :=
      withParams_bind _ _ _ _
    exact hframes ▸ hb.free hinner (by omega)
  refine hbody.bind ?_
  rintro result _ ⟨hresult, rfl⟩
  have hcurry : Mirrors source base offset _ _ _ :=
    mirrors_recorded hk (Ty.over_curry.2 ⟨hts, hresult⟩)
  rwa [Ty.bind_curry] at hcurry

theorem Replays.ifElse {loc : Location} {x a b : Expr} (hx : Replays source base offset x)
    (ha : Replays source base offset a) (hb : Replays source base offset b) :
    Replays source base offset (.ifElse loc x a b) := by
  intro locals i k expected hlocals hk _
  rw [infer, infer]
  refine (hx.free hlocals (by omega)).bind ?_
  rintro cond _ ⟨hcond, rfl⟩
  refine (mirrors_conditionType hcond x.loc).bind fun _ _ _ => (ha.free hlocals (by omega)).bind ?_
  rintro t _ ⟨ht, rfl⟩
  refine (hb hlocals (by omega) (Ty.over_all_some ht)).bind ?_
  rintro u _ ⟨hu, rfl⟩
  exact (mirrors_unifyAt ht hu b.loc).bind fun _ _ _ => mirrors_recorded hk ht

theorem Replays.access {loc : Location} {x : Expr} {field : String}
    (hx : Replays source base offset x) : Replays source base offset (.access loc x field) := by
  intro locals i k expected hlocals hk _
  rw [infer, infer]
  refine (hx.free hlocals (by omega)).bind ?_
  rintro t _ ⟨ht, rfl⟩
  refine (mirrors_fieldType ht loc field).bind ?_
  rintro u _ ⟨hu, rfl⟩
  exact mirrors_recorded hk hu

theorem replays_inferCases {cs : List Case}
    (hcs : ∀ k ∈ cs, ReplaysPattern source base offset k.pattern ∧ Replays source base offset
      k.body) (hlocals : source.Owns locals) (hk : k = offset + i) (ht : t.Over source.Own)
    {result : Option Ty} (hresult : ∀ u ∈ result, u.Over source.Own) :
    Mirrors source base offset (inferCases locals i t result cs)
        (inferCases (base.lifted source locals) k (t.bind (base.unifier.lift source))
          (result.map (Ty.bind (base.unifier.lift source))) cs) (base.MovedHint source) := by
  induction cs generalizing i k result with
  | nil =>
    rw [inferCases, inferCases]
    exact .pure ⟨hresult, rfl⟩
  | cons c cs ih =>
    obtain ⟨loc, p, b⟩ := c
    rw [List.forall_mem_cons] at hcs
    have hrest : ∀ {u : Ty}, u.Over source.Own → Mirrors source base offset
        (inferCases locals (i + p.nodeCount + b.nodeCount) t (some u) cs)
        (inferCases (base.lifted source locals) (k + p.nodeCount + b.nodeCount)
          (t.bind (base.unifier.lift source)) (some (u.bind (base.unifier.lift source))) cs)
        (base.MovedHint source) := fun hu => ih hcs.2 (by omega) (Ty.over_all_some hu)
    rw [inferCases, inferCases]
    refine (hcs.1.1 (AreLocal.push hlocals) hk ht).bind ?_
    rintro inner _ ⟨hinner, rfl⟩
    refine (hcs.1.2 hinner (i := i + p.nodeCount) (by omega) hresult).bind ?_
    rintro found _ ⟨hfound, rfl⟩
    cases result with
    | none =>
      simp only [Option.map_none, pure_bind]
      exact hrest hfound
    | some u =>
      have hu := hresult u rfl
      simp only [Option.map_some, pure_bind]
      exact (mirrors_unifyAt hu hfound b.loc).bind fun _ _ _ => hrest hu

theorem Replays.matchOn {loc : Location} {x : Expr} {cs : List Case}
    (hx : Replays source base offset x)
    (hcs : ∀ k ∈ cs, ReplaysPattern source base offset k.pattern ∧ Replays source base offset
      k.body) : Replays source base offset (.matchOn loc x cs) := by
  intro locals i k expected hlocals hk _
  rw [infer, infer]
  refine (hx.free hlocals (by omega)).bind ?_
  rintro t _ ⟨ht, rfl⟩
  refine (replays_inferCases hcs hlocals (i := i + 1 + x.nodeCount) (by omega) ht
    Ty.over_all_none).bind ?_
  rintro result _ ⟨hresult, rfl⟩
  cases result with
  | none => exact mirrors_fail
  | some u => exact mirrors_recorded hk (hresult u rfl)

theorem replays_bindPatterns {ps : List Pattern}
    (hps : ∀ p ∈ ps, ReplaysPattern source base offset p) (hlocals : source.Owns locals)
    (hk : k = offset + i) {ts : List Ty} (hts : ∀ t ∈ ts, t.Over source.Own) :
    Mirrors source base offset (bindPatterns locals i ts ps)
      (bindPatterns (base.lifted source locals) k (ts.map (Ty.bind (base.unifier.lift source))) ps)
      (base.MovedFrames source) := by
  induction ps generalizing i k ts locals with
  | nil =>
    rw [bindPatterns, bindPatterns]
    exact .pure ⟨hlocals, rfl⟩
  | cons p ps ih =>
    rw [List.forall_mem_cons] at hps
    cases ts with
    | nil =>
      rw [bindPatterns, bindPatterns.eq_def]
      exact .pure ⟨hlocals, rfl⟩
    | cons t ts =>
      rw [List.forall_mem_cons] at hts
      rw [List.map_cons, bindPatterns, bindPatterns]
      refine (mirrors_applied hts.1).bind ?_
      rintro u _ ⟨hu, rfl⟩
      refine (hps.1 hlocals hk hu).bind ?_
      rintro inner _ ⟨hinner, rfl⟩
      exact ih hps.2 hinner (by omega) hts.2

theorem uncurry_bind_lift (base source : Unifier) (t : Ty) :
    (t.bind (base.lift source)).uncurry = (t.uncurry.1.map (Ty.bind (base.lift source)),
      t.uncurry.2.bind (base.lift source)) := by
  induction t using Ty.induction with
  | func p r _ ih => simp only [Ty.bind, Ty.uncurry, ih, List.map_cons]
  | word | any | none | var | named | tuple => rfl

theorem ReplaysPattern.lit {loc : Location} (he : Replays source base offset e) :
    ReplaysPattern source base offset (.lit loc e) := by
  intro locals i k t hlocals hk ht
  rw [bindPattern, bindPattern]
  refine (he.free hlocals hk).bind ?_
  rintro found _ ⟨hfound, rfl⟩
  exact (mirrors_unifyAt ht hfound loc).bind fun _ _ _ => .pure ⟨hlocals, rfl⟩

theorem ReplaysPattern.cons {loc : Location} {n : String} {ps : List Pattern}
    (hps : ∀ p ∈ ps, ReplaysPattern source base offset p) :
    ReplaysPattern source base offset (.cons loc n ps) := by
  intro locals i k t hlocals hk ht
  rw [bindPattern, bindPattern]
  refine (mirrors_find? hlocals n).bind ?_
  rintro s _ ⟨hs, rfl⟩
  have hsame : (s.map (Symbol.bind (base.unifier.lift source))).bind Symbol.constructor? =
    s.bind Symbol.constructor? := by
    cases s with
    | none => rfl
    | some s => exact Symbol.constructor?_bind _ s
  rw [hsame]
  cases hk' : s.bind Symbol.constructor? with
  | none => exact mirrors_fail
  | some c =>
    obtain ⟨s, rfl, hc⟩ := Option.bind_eq_some_iff.1 hk'
    refine (mirrors_instantiate ((hs s rfl).constructor? hc)).bind ?_
    rintro sig _ ⟨hsig, rfl⟩
    rw [← Ty.curry_uncurry sig, Ty.over_curry] at hsig
    dsimp only
    rw [uncurry_bind_lift, List.length_map]
    split
    · exact mirrors_fail
    · exact (mirrors_unifyAt ht hsig.2 loc).bind fun _ _ _ =>
        replays_bindPatterns hps hlocals hk hsig.1

theorem mirrors_mapM_fresh {α : Type} (xs : List α) :
    Mirrors source base offset (xs.mapM fun _ => fresh) (xs.mapM fun _ => fresh)
      (base.MovedAll source) := by
  induction xs with
  | nil => exact .pure ⟨by simp, rfl⟩
  | cons x xs ih =>
    rw [List.mapM_cons]
    refine mirrors_fresh.bind ?_
    rintro t _ ⟨ht, rfl⟩
    refine ih.bind ?_
    rintro ts _ ⟨hts, rfl⟩
    exact .pure ⟨List.forall_mem_cons.2 ⟨ht, hts⟩, rfl⟩

theorem ReplaysPattern.tuple {loc : Location} {ps : List Pattern}
    (hps : ∀ p ∈ ps, ReplaysPattern source base offset p) :
    ReplaysPattern source base offset (.tuple loc ps) := by
  intro locals i k t hlocals hk ht
  rw [bindPattern, bindPattern]
  refine (mirrors_mapM_fresh ps).bind ?_
  rintro ts _ ⟨hts, rfl⟩
  have hunify : Mirrors source base offset (unifyAt t (.tuple ts) loc)
      (unifyAt (t.bind (base.unifier.lift source))
        (.tuple (ts.map (Ty.bind (base.unifier.lift source)))) loc) fun _ _ => True := by
    rw [← Ty.bindList_eq_map]
    exact mirrors_unifyAt ht (Ty.over_tuple.2 hts) loc
  exact hunify.bind fun _ _ _ => replays_bindPatterns hps hlocals hk hts

mutual

/-- Inferring an expression goes the same way on top of a checker. -/
theorem replays : ∀ e : Expr, Replays source base offset e
  | .uint .. | .int .. | .float .. => fun _ _ _ _ _ hk _ => by
    rw [infer, infer]
    exact mirrors_recorded hk (Ty.over_word _)
  | .str .. | .bool .. => fun _ _ _ _ _ hk _ => by
    rw [infer, infer]
    exact mirrors_recorded hk (Ty.over_named.2 (by simp))
  | .eraser _ => fun _ _ _ _ _ hk _ => by
    rw [infer, infer]
    refine mirrors_fresh.bind ?_
    rintro t _ ⟨ht, rfl⟩
    exact mirrors_recorded hk ht
  | .var loc n => fun _ _ _ _ hlocals hk _ => by
    rw [infer, infer]
    refine (mirrors_inferVar hlocals loc n).bind ?_
    rintro t _ ⟨ht, rfl⟩
    exact mirrors_recorded hk ht
  | .tuple _ es => .tuple (replaysAll es)
  | .list _ es => .list (replaysAll es)
  | .binOp _ _ l r => .binOp (replays l) (replays r)
  | .call _ f args named => .call (replays f) (replaysAll args) (replaysNamed named)
  | .lambda _ _ b => .lambda (replays b)
  | .ifElse _ x a b => .ifElse (replays x) (replays a) (replays b)
  | .matchOn _ x cs => .matchOn (replays x) (replaysCases cs)
  | .access _ x _ => .access (replays x)
  | .missing => fun _ _ _ _ _ _ _ => by
    rw [infer, infer]
    exact mirrors_fail

theorem replaysAll : ∀ es : List Expr, ∀ e ∈ es, Replays source base offset e
  | [] => by simp
  | e :: es => List.forall_mem_cons.2 ⟨replays e, replaysAll es⟩

theorem replaysNamed : ∀ ns : List NamedArg, ∀ n ∈ ns, Replays source base offset n.value
  | [] => by simp
  | .mk _ _ e :: ns => List.forall_mem_cons.2 ⟨replays e, replaysNamed ns⟩

theorem replaysCases :
    ∀ cs : List Case, ∀ k ∈ cs, ReplaysPattern source base offset k.pattern ∧
      Replays source base offset k.body
  | [] => by simp
  | .mk _ p b :: cs => List.forall_mem_cons.2 ⟨⟨replaysPattern p, replays b⟩, replaysCases cs⟩

/-- Binding a pattern goes the same way on top of a checker. -/
theorem replaysPattern : ∀ p : Pattern, ReplaysPattern source base offset p
  | .wild _ => fun _ _ _ _ hlocals _ _ => by
    rw [bindPattern, bindPattern]
    exact .pure ⟨hlocals, rfl⟩
  | .var _ n => fun _ _ _ _ hlocals _ ht => by
    rw [bindPattern, bindPattern]
    exact .pure ⟨AreLocal.bindLocal hlocals ht, (bindLocal_bind _ _ _ _).symm⟩
  | .lit _ e => .lit (replays e)
  | .cons _ _ ps => .cons (replaysPatterns ps)
  | .tuple _ ps => .tuple (replaysPatterns ps)
  | .missing => fun _ _ _ _ _ _ _ => by
    rw [bindPattern, bindPattern]
    exact mirrors_fail

theorem replaysPatterns : ∀ ps : List Pattern, ∀ p ∈ ps, ReplaysPattern source base offset p
  | [] => by simp
  | p :: ps => List.forall_mem_cons.2 ⟨replaysPattern p, replaysPatterns ps⟩

end

end Expressions

/-! ### Statements -/

section Statements

variable {source : Unifier} {base : Checker} {offset : Nat} {result : Ty}

/-- What a statement leaves: local frames, and whether it contains a return. -/
def Checker.MovedState (base : Checker) (source : Unifier) (x x' : List Frame × Bool) : Prop :=
  base.MovedFrames source x.1 x'.1 ∧ x'.2 = x.2

/-- An assignment, when the type of the value is known. -/
theorem mirrors_assigned {locals : List Frame} (hlocals : source.Owns locals) (n : String)
    (loc : Location) {t : Ty} (ht : t.Over source.Own) :
    Mirrors source base offset (do return (← assignLocal locals n t loc, false))
      (do return (← assignLocal (base.lifted source locals) n (t.bind (base.unifier.lift source))
        loc, false)) (base.MovedState source) :=
  (mirrors_assignLocal hlocals n ht loc).bind fun _ _ hmoved => .pure ⟨hmoved, rfl⟩

mutual

/-- Checking a statement goes the same way on top of a checker. -/
theorem replaysStmt (hresult : result.Over source.Own) :
    ∀ (s : Stmt) ⦃locals : List Frame⦄ ⦃i k : Nat⦄, source.Owns locals → k = offset + i →
      Mirrors source base offset (checkStmt result locals i s)
      (checkStmt (result.bind (base.unifier.lift source)) (base.lifted source locals) k s)
      (base.MovedState source)
  | .ret loc none => fun locals i k hlocals _ => by
    rw [checkStmt, checkStmt]
    exact (mirrors_unifyAt hresult Ty.over_none loc).bind fun _ _ _ => .pure ⟨⟨hlocals, rfl⟩, rfl⟩
  | .ret _ (some e) => fun locals i k hlocals hk => by
    rw [checkStmt, checkStmt]
    exact ((replays e).expecting hlocals hk hresult).bind fun _ _ _ => .pure ⟨⟨hlocals, rfl⟩, rfl⟩
  | .assign loc n none e => fun locals i k hlocals hk => by
    rw [checkStmt, checkStmt]
    refine ((replays e).free hlocals hk).bind ?_
    rintro t _ ⟨ht, rfl⟩
    exact mirrors_assigned hlocals n loc ht
  | .assign loc n (some a) e => fun locals i k hlocals hk => by
    rw [checkStmt, checkStmt]
    dsimp only
    refine (mirrors_resolve a).bind ?_
    rintro _ t ⟨ht, rfl⟩
    have hown : t.Over source.Own := Ty.Ground.over ht
    have hreplays : Replays source base offset e := replays e
    have hexpecting := hreplays.expecting hlocals hk hown
    have hassigned : Mirrors source base offset _ _ _ := mirrors_assigned hlocals n loc hown
    rw [Ty.Ground.bind_eq ht] at hexpecting hassigned
    refine hexpecting.bind fun _ _ _ => ?_
    simp only [pure_bind]
    exact hassigned
  | .use _ n e => fun locals i k hlocals hk => by
    rw [checkStmt, checkStmt]
    refine ((replays e).free hlocals hk).bind ?_
    rintro t _ ⟨ht, rfl⟩
    exact .pure ⟨⟨AreLocal.bindLocal hlocals ht, (bindLocal_bind _ _ _ _).symm⟩, rfl⟩
  | .expr _ e => fun locals i k hlocals hk => by
    rw [checkStmt, checkStmt]
    exact ((replays e).free hlocals hk).bind fun _ _ _ => .pure ⟨⟨hlocals, rfl⟩, rfl⟩
  | .ifThen _ x _ a => fun locals i k hlocals hk => by
    rw [checkStmt, checkStmt]
    refine ((replays x).free hlocals hk).bind ?_
    rintro cond _ ⟨hcond, rfl⟩
    refine (mirrors_conditionType hcond x.loc).bind fun _ _ _ =>
      (replaysStmts hresult a (AreLocal.push hlocals) (by omega)).bind ?_
    rintro returned _ rfl
    exact .pure ⟨⟨hlocals, rfl⟩, rfl⟩
  | .ifElse _ x _ a _ b => fun locals i k hlocals hk => by
    rw [checkStmt, checkStmt]
    refine ((replays x).free hlocals hk).bind ?_
    rintro cond _ ⟨hcond, rfl⟩
    refine (mirrors_conditionType hcond x.loc).bind fun _ _ _ =>
      (replaysStmts hresult a (AreLocal.push hlocals) (by omega)).bind ?_
    rintro r _ rfl
    refine (replaysStmts hresult b (AreLocal.push hlocals) (by omega)).bind ?_
    rintro r' _ rfl
    exact .pure ⟨⟨hlocals, rfl⟩, rfl⟩
  | .missing => fun locals i k _ _ => by
    rw [checkStmt, checkStmt]
    exact mirrors_fail

theorem replaysStmts (hresult : result.Over source.Own) :
    ∀ (ss : List Stmt) ⦃locals : List Frame⦄ ⦃i k : Nat⦄, source.Owns locals → k = offset + i →
      Mirrors source base offset (checkStmts result locals i ss)
        (checkStmts (result.bind (base.unifier.lift source)) (base.lifted source locals) k ss) Eq
  | [] => fun locals i k _ _ => by
    rw [checkStmts, checkStmts]
    exact .pure rfl
  | s :: ss => fun locals i k hlocals hk => by
    rw [checkStmts, checkStmts]
    refine (replaysStmt hresult s hlocals hk).bind ?_
    rintro ⟨inner, a⟩ ⟨inner', a'⟩ ⟨⟨hinner, hlifted⟩, hflag⟩
    dsimp only at hinner hlifted hflag ⊢
    subst hlifted hflag
    refine (replaysStmts hresult ss hinner (by omega)).bind ?_
    rintro b _ rfl
    exact .pure rfl

end

end Statements

/-! ### Functions -/

/-- What checking a function does between its start and its end, when the types of its parameters
and its written result type are known. Gives the type of the function. -/
def NamedFunction.body (f : NamedFunction) (m : List Ty × Option Ty) (i : Nat) : Checking Ty := do
  let result ← match m.2 with
    | some t => pure t
    | none => fresh
  let returned ← checkStmts result (withParams [[]] f.func.params m.1) i f.func.body.stmts
  if !returned then unifyAt result .none f.func.loc
  return Ty.curry m.1 result

/-- A function is checked from its start to its end. -/
theorem checksFunc_iff {f : NamedFunction} {c c' : Checker} : ChecksFunc f c c' ↔ ∃ m t c₁,
    f.func.meaning? (c.globals.under (pathOf f.name)) = some m ∧
      Gives (f.body m c.nextNode) (c.entering f) t c₁ ∧ c' = c₁.finished f t := by
  have hlast : ∀ {m : List Ty} {result t : Ty} {returned : Bool} {c₂ c₁ : Checker}, Gives (do
      if !returned then unifyAt result .none f.func.loc
      return Ty.curry m result) c₂ t c₁ ↔ t = Ty.curry m result ∧
        (returned = true ∧ c₁ = c₂ ∨ returned = false ∧ Unified result .none c₂ c₁) := by
    intro m result t returned c₂ c₁
    cases returned with
    | true =>
      rw [Bool.not_true, if_neg Bool.false_ne_true, gives_pure]
      simp
    | false =>
      rw [Bool.not_false, if_pos rfl, gives_bind]
      simp only [gives_unifyAt, gives_pure, Bool.false_eq_true, false_and, false_or, true_and,
        exists_const]
      constructor
      · rintro ⟨c', hu, ht, rfl⟩
        exact ⟨ht, hu⟩
      · rintro ⟨ht, hu⟩
        exact ⟨c₁, hu, ht, rfl⟩
  constructor
  · rintro ⟨params, written, result, returned, c₁, c₂, c₃, hmeaning, hresult, hbody, hend, rfl⟩
    refine ⟨(params, written), _, c₃, hmeaning, ?_, rfl⟩
    rw [NamedFunction.body]
    cases written with
    | none => exact gives_bind.2 ⟨result, c₁, hresult,
      gives_bind.2 ⟨returned, c₂, hbody, hlast.2 ⟨rfl, hend⟩⟩⟩
    | some t => exact gives_bind.2 ⟨result, c₁, hresult,
      gives_bind.2 ⟨returned, c₂, hbody, hlast.2 ⟨rfl, hend⟩⟩⟩
  · rintro ⟨⟨params, written⟩, t, c₃, hmeaning, h, rfl⟩
    rw [NamedFunction.body] at h
    cases written with
    | none =>
      obtain ⟨result, c₁, hresult, h⟩ := gives_bind.1 h
      obtain ⟨returned, c₂, hbody, h⟩ := gives_bind.1 h
      obtain ⟨rfl, hend⟩ := hlast.1 h
      exact ⟨params, .none, result, returned, c₁, c₂, c₃, hmeaning, hresult, hbody, hend, rfl⟩
    | some t' =>
      obtain ⟨result, c₁, hresult, h⟩ := gives_bind.1 h
      obtain ⟨returned, c₂, hbody, h⟩ := gives_bind.1 h
      obtain ⟨rfl, hend⟩ := hlast.1 h
      exact ⟨params, some t', result, returned, c₁, c₂, c₃, hmeaning, hresult, hbody, hend, rfl⟩

/-- What annotations mean has no variables. -/
theorem FuncDef.ground_of_meaning? {d : FuncDef} {G : Frame} {path : String}
    {m : List Ty × Option Ty} (hG : G.Tidy) (h : d.meaning? (G.under path) = some m) :
    (∀ t ∈ m.1, t.Ground) ∧ ∀ t ∈ m.2, t.Ground := by
  obtain ⟨hparams, hresult⟩ := FuncDef.meaning?_eq_some.1 h
  have hc : ({ (default : Checker) with globals := G, scopePath := path }).globals.Tidy := hG
  exact ⟨(paramTypes_spec hc ((computes_paramTypes _ _ _).2 ⟨rfl, hparams⟩)).2.1,
    (resultType?_spec hc ((computes_resultType? _ _ _).2 ⟨rfl, hresult⟩)).2.1⟩

/-- The body of a function is checked in the same way on top of a checker. -/
theorem mirrors_body {source : Unifier} {base : Checker} {offset i k : Nat} (f : NamedFunction)
    {m : List Ty × Option Ty} (hparams : ∀ t ∈ m.1, t.Ground) (hwritten : ∀ t ∈ m.2, t.Ground)
    (hk : k = offset + i) :
    Mirrors source base offset (f.body m i) (f.body m k) (base.Moved source) := by
  obtain ⟨params, written⟩ := m
  have hown : ∀ t ∈ params, t.Over source.Own := fun t ht => Ty.Ground.over (hparams t ht)
  have hsame : params.map (Ty.bind (base.unifier.lift source)) = params :=
    (List.map_congr_left fun t ht => Ty.Ground.bind_eq (hparams t ht) _).trans (List.map_id params)
  have hlocals : source.Owns (withParams [[]] f.func.params params) :=
    AreLocal.withParams (by simp [AreLocal]) hown
  have hframes : base.lifted source (withParams [[]] f.func.params params) =
    withParams [[]] f.func.params params := by
    conv_rhs => rw [← hsame]
    exact withParams_bind _ _ _ _
  have hrest : ∀ {result : Ty}, result.Over source.Own → Mirrors source base offset (do
      let returned ← checkStmts result (withParams [[]] f.func.params params) i f.func.body.stmts
      if !returned then unifyAt result .none f.func.loc
      return Ty.curry params result) (do
      let returned
        ← checkStmts (result.bind (base.unifier.lift source)) (withParams [[]] f.func.params params)
          k f.func.body.stmts
      if !returned then unifyAt (result.bind (base.unifier.lift source)) .none f.func.loc
      return Ty.curry params (result.bind (base.unifier.lift source))) (base.Moved source) := by
    intro result hresult
    have hmoved : (base.Moved source) (Ty.curry params result)
      (Ty.curry params (result.bind (base.unifier.lift source))) :=
      ⟨Ty.over_curry.2 ⟨hown, hresult⟩, by rw [Ty.bind_curry, hsame]⟩
    have hstmts : Mirrors source base offset _ _ _ :=
      replaysStmts hresult f.func.body.stmts hlocals hk
    rw [hframes] at hstmts
    refine hstmts.bind ?_
    rintro returned _ rfl
    cases returned with
    | true =>
      rw [Bool.not_true, if_neg Bool.false_ne_true, if_neg Bool.false_ne_true]
      exact .pure hmoved
    | false =>
      rw [Bool.not_false, if_pos rfl, if_pos rfl]
      exact (mirrors_unifyAt hresult Ty.over_none f.func.loc).bind fun _ _ _ => .pure hmoved
  rw [NamedFunction.body, NamedFunction.body]
  cases written with
  | none =>
    refine mirrors_fresh.bind ?_
    rintro t _ ⟨ht, rfl⟩
    exact hrest ht
  | some t =>
    have ht : t.Ground := hwritten t rfl
    have htail := hrest (Ty.Ground.over ht)
    rw [Ty.Ground.bind_eq ht] at htail
    exact htail

end FunRiscv
