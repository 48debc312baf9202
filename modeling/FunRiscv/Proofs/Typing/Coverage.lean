import Mathlib
import FunRiscv.Proofs.Pass.Children
import FunRiscv.Proofs.Typing.Rounds
import FunRiscv.Proofs.Typing.Steady
import FunRiscv.Proofs.Typing.Visits

/-!
# Coverage

Whatever a checker is told beforehand, it accepts a program only after it inferred
every expression in it.

* `Shows`: an action that succeeds only if something holds, and keeps the unifier coherent.
* `Expr.Accepted`: inference gave a type to an expression at some point.
* `shows_infer`, `shows_bindPattern`, `shows_checkStmts`: one lemma for each kind of node, by
  recursion on the tree.
* `Program.accepted_of_check`: every expression of an accepted program was itself accepted.
-/

namespace FunRiscv

open Checking

/-! ### What success shows -/

/-- An action that succeeds with a coherent unifier leaves one, and shows that something holds. -/
def Shows {α : Type} (m : Checking α) (P : Prop) : Prop :=
  ∀ ⦃c : Checker⦄ ⦃a : α⦄ ⦃c' : Checker⦄, c.unifier.Coherent → Gives m c a c' →
    c'.unifier.Coherent ∧ P

section Shows

variable {α β : Type} {m : Checking α} {f : α → Checking β} {P Q : Prop}

theorem Shows.imp (hm : Shows m P) (h : P → Q) : Shows m Q :=
  fun _ _ _ hc hrun => (hm hc hrun).imp_right h

/-- Both parts of an action show something. -/
theorem Shows.bind (hm : Shows m P) (hf : ∀ a, Shows (f a) Q) : Shows (m >>= f) (P ∧ Q) := by
  intro c b c'' hc h
  obtain ⟨a, c', ha, hb⟩ := gives_bind.1 h
  obtain ⟨hc', hp⟩ := hm hc ha
  obtain ⟨hc'', hq⟩ := hf a hc' hb
  exact ⟨hc'', hp, hq⟩

/-- Only the second part shows something. -/
theorem Shows.andThen (hm : Shows m True) (hf : ∀ a, Shows (f a) Q) : Shows (m >>= f) Q :=
  (hm.bind hf).imp And.right

/-- Only the first part shows something. -/
theorem Shows.before (hm : Shows m P) (hf : ∀ a, Shows (f a) True) : Shows (m >>= f) P :=
  (hm.bind hf).imp And.left

/-- An action that leaves the unifier as it is. -/
theorem Shows.of_unifier (h : ∀ c a c', Gives m c a c' → c'.unifier = c.unifier) : Shows m True :=
  fun c a c' hc hrun => ⟨h c a c' hrun ▸ hc, trivial⟩

theorem shows_pure (a : α) : Shows (pure a : Checking α) True :=
  .of_unifier fun _ _ _ h => (gives_pure.1 h).2 ▸ rfl

theorem shows_fail (loc : Location) (cause : TypeCause) : Shows (fail loc cause : Checking α) P :=
  fun _ _ _ _ h => (not_gives_fail h).elim

theorem shows_failWith (e : TypeError) : Shows (failWith e : Checking α) P :=
  fun _ _ _ _ h => (not_gives_failWith h).elim

theorem shows_modify {g : Checker → Checker} (hg : ∀ c, (g c).unifier = c.unifier) :
    Shows (modify g : Checking PUnit) True :=
  .of_unifier fun c _ _ h => by rw [gives_modify.1 h, hg]

theorem Shows.inContext (hm : Shows m P) (label : String) : Shows (inContext label m) P :=
  fun _ _ _ hc h => hm hc (gives_inContext.1 h)

theorem Shows.forM {γ : Type} {g : γ → Checking PUnit} {R : γ → Prop} {xs : List γ}
    (h : ∀ x ∈ xs, Shows (g x) (R x)) : Shows (xs.forM g) (∀ x ∈ xs, R x) := by
  induction xs with
  | nil => exact (shows_pure _).imp fun _ => by simp
  | cons x xs ih =>
    rw [List.forall_mem_cons] at h
    exact (h.1.bind fun _ => ih h.2).imp List.forall_mem_cons.2

/-! ### Steps -/

theorem Steady.shows (hm : Steady m) : Shows m True := by
  intro c a c' hc h
  obtain ⟨u, hu, rfl⟩ := hm h
  exact ⟨(hu.grows hc).coherent, trivial⟩

theorem shows_record (i : Nat) (t : Ty) : Shows (record i t) True := shows_modify fun _ => rfl

end Shows

/-! ### Expressions -/

/-- Inference gave a type to an expression at some point. -/
def Expr.Accepted (e : Expr) : Prop :=
  ∃ (locals : List Frame) (i : Nat) (expected : Option Ty) (c : Checker) (t : Ty) (c' : Checker),
    c.unifier.Coherent ∧ Gives (infer locals i expected e) c t c'

/-- Inferring an expression shows that those under it were. -/
def Covers (e : Expr) : Prop :=
  ∀ locals i expected, Shows (infer locals i expected e) (∀ y ∈ e.nodes, y.Accepted)

/-- Binding a pattern shows that the expressions in it were inferred. -/
def CoversPattern (p : Pattern) : Prop :=
  ∀ locals i t, Shows (bindPattern locals i t p) (∀ y ∈ p.nodes, y.Accepted)

section Expressions

variable {locals : List Frame} {i : Nat} {expected : Option Ty} {e : Expr}

/-- An expression is inferred after those under it. -/
theorem Covers.node {rest : List Expr} (hnodes : e.nodes = e :: rest)
    (h : ∀ locals i expected, Shows (infer locals i expected e) (∀ y ∈ rest, y.Accepted)) :
    Covers e := by
  intro locals i expected c t c' hc hrun
  obtain ⟨hc', hrest⟩ := h locals i expected hc hrun
  rw [hnodes]
  exact ⟨hc', List.forall_mem_cons.2 ⟨⟨locals, i, expected, c, t, c', hc, hrun⟩, hrest⟩⟩

theorem Covers.atom (hnodes : e.nodes = [e])
    (h : ∀ locals i expected, Shows (infer locals i expected e) True) : Covers e :=
  .node hnodes fun locals i expected => (h locals i expected).imp fun _ => by simp

/-- The last thing is to record the type. -/
theorem shows_recorded (i : Nat) (t : Ty) : Shows (do
    record i t
    return t) True := (shows_record i t).andThen fun _ => shows_pure _

theorem shows_inferList {es : List Expr} (hes : ∀ e ∈ es, Covers e) :
    Shows (inferList locals i es) (∀ y ∈ exprsNodes es, y.Accepted) := by
  induction es generalizing i with
  | nil =>
    rw [inferList]
    exact (shows_pure _).imp fun _ => by simp [exprsNodes]
  | cons e es ih =>
    rw [List.forall_mem_cons] at hes
    rw [inferList]
    exact ((hes.1 _ _ _).bind fun _ => (ih hes.2).before fun _ => shows_pure _).imp
      List.forall_mem_append.2

theorem shows_expectAll {t : Ty} {es : List Expr} (hes : ∀ e ∈ es, Covers e) :
    Shows (expectAll locals i t es) (∀ y ∈ exprsNodes es, y.Accepted) := by
  induction es generalizing i with
  | nil =>
    rw [expectAll]
    exact (shows_pure _).imp fun _ => by simp [exprsNodes]
  | cons e es ih =>
    rw [List.forall_mem_cons] at hes
    rw [expectAll]
    refine ((hes.1 _ _ _).bind fun found =>
      (steady_unifyAt _ _ _).shows.andThen fun _ => ih hes.2).imp List.forall_mem_append.2

/-- However arguments are passed, they are inferred. -/
theorem shows_applyArguments {loc : Location} {js : List (Nat × Expr)}
    (hjs : ∀ e ∈ js.map Prod.snd, Covers e) (t : Ty) :
    Shows (applyArguments loc t (js.map (argument locals))) (∀ e ∈ js.map Prod.snd, ∀ y ∈ e.nodes,
      y.Accepted) := by
  induction js generalizing t with
  | nil =>
    rw [List.map_nil, applyArguments]
    exact (shows_pure _).imp fun _ => by simp
  | cons j js ih =>
    rw [List.map_cons, List.forall_mem_cons] at hjs
    have hj : ∀ expected, Shows ((argument locals j).infer expected)
      (∀ y ∈ j.2.nodes, y.Accepted) := hjs.1 locals j.1
    rw [List.map_cons, applyArguments]
    refine Shows.imp (P := (∀ y ∈ j.2.nodes, y.Accepted) ∧ ∀ e ∈ js.map Prod.snd, ∀ y ∈ e.nodes,
      y.Accepted) ?_ fun h => ?_
    swap
    · rw [List.map_cons, List.forall_mem_cons]
      exact h
    refine (steady_applied t).shows.andThen fun u => ?_
    split
    · rw [Argument.expectType]
      exact ((hj _).before fun found => (steady_unifyAt _ _ _).shows).bind fun _ => ih hjs.2 _
    · exact (hj _).bind fun _ => ih hjs.2 _
    · exact (hj _).bind fun found =>
        steady_fresh.shows.andThen fun result =>
          (steady_unifyAt _ _ _).shows.andThen fun _ => ih hjs.2 _
    · exact shows_fail _ _

theorem map_snd_jobs (i : Nat) (es : List Expr) : (jobs i es).map Prod.snd = es := by
  induction es generalizing i with
  | nil => rfl
  | cons e es ih => rw [jobs, List.map_cons, ih]

theorem map_snd_namedJobs (i : Nat) (ns : List NamedArg) :
    ((namedJobs i ns).map (·.value)).map Prod.snd = ns.map NamedArg.value := by
  induction ns generalizing i with
  | nil => rfl
  | cons n ns ih =>
    obtain ⟨loc, name, e⟩ := n
    rw [namedJobs, List.map_cons, List.map_cons, ih]
    rfl

/-- A call infers the callee and every argument, wherever it is placed. -/
theorem Covers.call {loc : Location} {f : Expr} {args : List Expr} {named : List NamedArg}
    (hf : Covers f) (hargs : ∀ e ∈ args, Covers e) (hnamed : ∀ n ∈ named, Covers n.value) :
    Covers (.call loc f args named) := by
  refine .node rfl fun locals i expected => ?_
  rw [infer]
  refine ((hf locals (i + 1) none).bind (Q := (∀ y ∈ exprsNodes args, y.Accepted) ∧
    ∀ y ∈ namedNodes named, y.Accepted) fun callee =>
    (steady_calledFields locals f).shows.andThen fun fields => ?_).imp fun h => ?_
  · rw [arguments_eq, namedArguments_eq, placeArguments_map]
    cases hplaced : placeArguments loc fields (jobs (i + 1 + f.nodeCount) args)
        (namedJobs (i + 1 + f.nodeCount + exprsNodeCount args) named) with
    | error e => exact shows_failWith e
    | ok placed =>
      have hperm : (placed.map Prod.snd).Perm (args ++ named.map NamedArg.value) := by
        have := (placeArguments_perm hplaced).map Prod.snd
        rwa [List.map_append, map_snd_jobs, map_snd_namedJobs] at this
      have hcovers : ∀ e ∈ placed.map Prod.snd, Covers e := by
        intro e he
        rcases List.mem_append.1 (hperm.mem_iff.1 he) with he | he
        · exact hargs e he
        · obtain ⟨n, hn, rfl⟩ := List.mem_map.1 he
          exact hnamed n hn
      refine ((shows_applyArguments hcovers callee).before fun t => shows_recorded i t).imp fun h =>
        ⟨?_, ?_⟩
      · rw [exprsNodes_eq]
        intro y hy
        obtain ⟨e, he, hy⟩ := List.mem_flatMap.1 hy
        exact h e (hperm.mem_iff.2 (List.mem_append_left _ he)) y hy
      · rw [namedNodes_eq]
        intro y hy
        obtain ⟨n, hn, hy⟩ := List.mem_flatMap.1 hy
        exact h n.value (hperm.mem_iff.2 (List.mem_append_right _ (List.mem_map_of_mem hn))) y hy
  · simp only [List.forall_mem_append]
    exact ⟨⟨h.1, h.2.1⟩, h.2.2⟩

theorem Covers.tuple {loc : Location} {es : List Expr} (hes : ∀ e ∈ es, Covers e) :
    Covers (.tuple loc es) :=
  .node rfl fun locals i expected => by
    rw [infer]
    exact (shows_inferList hes).before fun _ => shows_recorded _ _

theorem Covers.list {loc : Location} {es : List Expr} (hes : ∀ e ∈ es, Covers e) :
    Covers (.list loc es) := by
  refine .node rfl fun locals i expected => ?_
  cases es with
  | nil =>
    rw [infer]
    exact (steady_fresh.shows.andThen fun _ => shows_recorded _ _).imp fun _ => by simp [exprsNodes]
  | cons e es =>
    rw [List.forall_mem_cons] at hes
    rw [infer]
    exact ((hes.1 _ _ _).bind fun _ =>
      (shows_expectAll hes.2).before fun _ => shows_recorded _ _).imp List.forall_mem_append.2

theorem Covers.binOp {loc : Location} {op : Operator} {l r : Expr} (hl : Covers l) (hr : Covers r) :
    Covers (.binOp loc op l r) :=
  .node rfl fun locals i expected => by
    rw [infer]
    exact ((hl _ _ _).bind fun a =>
      (hr _ _ _).before fun b => (steady_operationType _ _ _ _).shows.andThen fun _ =>
      shows_recorded _ _).imp List.forall_mem_append.2

theorem Covers.lambda {loc : Location} {ps : List Param} {b : Expr} (hb : Covers b) :
    Covers (.lambda loc ps b) :=
  .node rfl fun locals i expected => by
    rw [infer]
    exact (steady_lambdaHint _).shows.andThen fun hint =>
      (steady_lambdaParams _ _).shows.andThen fun ts => (hb _ _ _).before fun _ =>
      shows_recorded _ _

theorem Covers.ifElse {loc : Location} {x a b : Expr} (hx : Covers x) (ha : Covers a)
    (hb : Covers b) : Covers (.ifElse loc x a b) :=
  .node rfl fun locals i expected => by
    rw [infer]
    refine ((hx _ _ _).bind fun cond =>
      (steady_conditionType _ _).shows.andThen fun _ =>
        (ha _ _ _).bind fun t => (hb _ _ _).before fun u =>
      (steady_unifyAt _ _ _).shows.andThen fun _ => shows_recorded _ _).imp fun h => ?_
    simp only [List.forall_mem_append]
    exact ⟨⟨h.1, h.2.1⟩, h.2.2⟩

theorem Covers.access {loc : Location} {x : Expr} {field : String} (hx : Covers x) :
    Covers (.access loc x field) :=
  .node rfl fun locals i expected => by
    rw [infer]
    exact (hx _ _ _).before fun t =>
      (steady_fieldType _ _ _).shows.andThen fun _ => shows_recorded _ _

theorem shows_inferCases {cs : List Case} (hcs : ∀ k ∈ cs, CoversPattern k.pattern ∧ Covers k.body)
    {t : Ty} {result : Option Ty} :
    Shows (inferCases locals i t result cs) (∀ y ∈ casesNodes cs, y.Accepted) := by
  induction cs generalizing i result with
  | nil =>
    rw [inferCases]
    exact (shows_pure _).imp fun _ => by simp [casesNodes]
  | cons k cs ih =>
    obtain ⟨loc, p, b⟩ := k
    rw [List.forall_mem_cons] at hcs
    have tail : ∀ u : Ty, Shows (inferCases locals (i + p.nodeCount + b.nodeCount) t (some u) cs)
      (∀ y ∈ casesNodes cs, y.Accepted) :=
      fun u => ih hcs.2
    rw [inferCases]
    refine Shows.imp
      ((hcs.1.1 _ _ _).bind fun inner =>
        (hcs.1.2 inner (i + p.nodeCount) result).bind (Q := ∀ y ∈ casesNodes cs, y.Accepted)
          fun found => ?_) fun h => ?_
    · cases result with
      | none =>
        simp only [pure_bind]
        exact tail found
      | some u =>
        simp only [pure_bind]
        exact (steady_unifyAt _ _ _).shows.andThen fun _ => tail u
    · simp only [casesNodes, List.forall_mem_append]
      exact ⟨⟨h.1, h.2.1⟩, h.2.2⟩

theorem Covers.matchOn {loc : Location} {x : Expr} {cs : List Case} (hx : Covers x)
    (hcs : ∀ k ∈ cs, CoversPattern k.pattern ∧ Covers k.body) : Covers (.matchOn loc x cs) :=
  .node rfl fun locals i expected => by
    rw [infer]
    refine ((hx _ _ _).bind fun t => (shows_inferCases hcs).before fun result => ?_).imp
      List.forall_mem_append.2
    cases result with
    | none => exact shows_fail _ _
    | some u => exact shows_recorded _ _

theorem shows_bindPatterns {ps : List Pattern} (hps : ∀ p ∈ ps, CoversPattern p) {ts : List Ty}
    (hlen : ps.length = ts.length) :
    Shows (bindPatterns locals i ts ps) (∀ y ∈ patternsNodes ps, y.Accepted) := by
  induction ps generalizing locals i ts with
  | nil =>
    rw [bindPatterns]
    exact (shows_pure _).imp fun _ => by simp [patternsNodes]
  | cons p ps ih =>
    rw [List.forall_mem_cons] at hps
    cases ts with
    | nil => cases hlen
    | cons t ts =>
      rw [bindPatterns]
      exact ((steady_applied t).shows.andThen fun u =>
        (hps.1 _ _ _).bind fun inner => ih hps.2 (Nat.succ.inj hlen)).imp List.forall_mem_append.2

theorem CoversPattern.lit {loc : Location} (he : Covers e) : CoversPattern (.lit loc e) :=
  fun locals i t => by
  rw [bindPattern]
  exact (he _ _ _).before fun found => (steady_unifyAt _ _ _).shows.andThen fun _ => shows_pure _

theorem CoversPattern.cons {loc : Location} {n : String} {ps : List Pattern}
    (hps : ∀ p ∈ ps, CoversPattern p) : CoversPattern (.cons loc n ps) := fun locals i t => by
  rw [bindPattern]
  refine (steady_find? _ _).shows.andThen fun s => ?_
  split
  · exact shows_fail _ _
  · refine (steady_instantiate _).shows.andThen fun u => ?_
    dsimp only
    split
    · exact shows_fail _ _
    · next hlen =>
        exact (steady_unifyAt _ _ _).shows.andThen fun _ => shows_bindPatterns hps (by omega)

theorem gives_mapM_fresh_length {α : Type} {xs : List α} {c c' : Checker} {ts : List Ty}
    (h : Gives (xs.mapM fun _ => fresh) c ts c') : ts.length = xs.length := by
  induction xs generalizing c c' ts with
  | nil =>
    obtain ⟨rfl, -⟩ := gives_pure.1 h
    rfl
  | cons x xs ih =>
    rw [List.mapM_cons, gives_bind] at h
    obtain ⟨t, c₁, -, h⟩ := h
    rw [gives_bind] at h
    obtain ⟨us, c₂, hus, h⟩ := h
    obtain ⟨rfl, -⟩ := gives_pure.1 h
    rw [List.length_cons, ih hus, List.length_cons]

theorem CoversPattern.tuple {loc : Location} {ps : List Pattern} (hps : ∀ p ∈ ps, CoversPattern p) :
    CoversPattern (.tuple loc ps) := by
  intro locals i t c a c' hc h
  rw [bindPattern, gives_bind] at h
  obtain ⟨ts, c₁, hts, h⟩ := h
  have hc₁ := ((Steady.mapM fun _ _ => steady_fresh).shows hc hts).1
  have hlen := gives_mapM_fresh_length hts
  exact ((steady_unifyAt _ _ _).shows.andThen fun _ => shows_bindPatterns hps hlen.symm) hc₁ h

mutual

/-- Inferring an expression infers every expression under it. -/
theorem covers : ∀ e : Expr, Covers e
  | .uint .. | .int .. | .float .. | .str .. | .bool .. => .atom rfl fun locals i expected => by
    rw [infer]
    exact shows_recorded _ _
  | .eraser _ => .atom rfl fun locals i expected => by
    rw [infer]
    exact steady_fresh.shows.andThen fun _ => shows_recorded _ _
  | .var _ _ => .atom rfl fun locals i expected => by
    rw [infer]
    exact (steady_inferVar _ _ _).shows.andThen fun _ => shows_recorded _ _
  | .tuple _ es => .tuple (coversAll es)
  | .list _ es => .list (coversAll es)
  | .binOp _ _ l r => .binOp (covers l) (covers r)
  | .call _ f args named => .call (covers f) (coversAll args) (coversNamed named)
  | .lambda _ _ b => .lambda (covers b)
  | .ifElse _ x a b => .ifElse (covers x) (covers a) (covers b)
  | .matchOn _ x cs => .matchOn (covers x) (coversCases cs)
  | .access _ x _ => .access (covers x)
  | .missing => .atom rfl fun locals i expected => by
    rw [infer]
    exact shows_fail _ _

theorem coversAll : ∀ es : List Expr, ∀ e ∈ es, Covers e
  | [] => by simp
  | e :: es => List.forall_mem_cons.2 ⟨covers e, coversAll es⟩

theorem coversNamed : ∀ ns : List NamedArg, ∀ n ∈ ns, Covers n.value
  | [] => by simp
  | .mk _ _ e :: ns => List.forall_mem_cons.2 ⟨covers e, coversNamed ns⟩

theorem coversCases : ∀ cs : List Case, ∀ k ∈ cs, CoversPattern k.pattern ∧ Covers k.body
  | [] => by simp
  | .mk _ p b :: cs => List.forall_mem_cons.2 ⟨⟨coversPattern p, covers b⟩, coversCases cs⟩

/-- Binding a pattern infers every expression in it. -/
theorem coversPattern : ∀ p : Pattern, CoversPattern p
  | .wild _ | .var _ _ => fun locals i t => by
    rw [bindPattern]
    exact (shows_pure _).imp fun _ => by simp [Pattern.nodes]
  | .lit _ e => .lit (covers e)
  | .cons _ _ ps => .cons (coversPatterns ps)
  | .tuple _ ps => .tuple (coversPatterns ps)
  | .missing => fun locals i t => by
    rw [bindPattern]
    exact shows_fail _ _

theorem coversPatterns : ∀ ps : List Pattern, ∀ p ∈ ps, CoversPattern p
  | [] => by simp
  | p :: ps => List.forall_mem_cons.2 ⟨coversPattern p, coversPatterns ps⟩

end

theorem shows_expectType (locals : List Frame) (i : Nat) (t : Ty) (e : Expr) :
    Shows (expectType locals i t e) (∀ y ∈ e.nodes, y.Accepted) := by
  rw [expectType]
  exact (covers e _ _ _).before fun found => (steady_unifyAt _ _ _).shows

end Expressions

/-! ### Statements -/

mutual

/-- Checking a statement infers every expression in it. -/
theorem shows_checkStmt (result : Ty) : ∀ (locals : List Frame) (i : Nat) (s : Stmt),
    Shows (checkStmt result locals i s) (∀ y ∈ s.nodes, y.Accepted)
  | locals, i, .ret _ none => by
    rw [checkStmt]
    exact ((steady_unifyAt _ _ _).shows.andThen fun _ => shows_pure _).imp
      fun _ => by simp [Stmt.nodes]
  | locals, i, .ret _ (some e) => by
    rw [checkStmt]
    exact (shows_expectType _ _ _ _).before fun _ => shows_pure _
  | locals, i, .assign loc n none e => by
    rw [checkStmt]
    exact (covers e _ _ _).before fun _ =>
      (steady_assignLocal _ _ _ _).shows.andThen fun _ => shows_pure _
  | locals, i, .assign loc n (some t) e => by
    rw [checkStmt]
    dsimp only
    exact (steady_resolve _ _).shows.andThen fun _ => (shows_expectType _ _ _ _).before fun _ => by
      simp only [pure_bind]
      exact (steady_assignLocal _ _ _ _).shows.andThen fun _ => shows_pure _
  | locals, i, .use _ _ e => by
    rw [checkStmt]
    exact (covers e _ _ _).before fun _ => shows_pure _
  | locals, i, .expr _ e => by
    rw [checkStmt]
    exact (covers e _ _ _).before fun _ => shows_pure _
  | locals, i, .ifThen _ e _ a => by
    rw [checkStmt]
    exact ((covers e _ _ _).bind fun _ =>
      (steady_conditionType _ _).shows.andThen fun _ =>
        (shows_checkStmts result _ _ a).before fun _ =>
      shows_pure _).imp List.forall_mem_append.2
  | locals, i, .ifElse _ e _ a _ b => by
    rw [checkStmt]
    refine ((covers e _ _ _).bind fun _ =>
      (steady_conditionType _ _).shows.andThen fun _ =>
        (shows_checkStmts result _ _ a).bind fun _ =>
      (shows_checkStmts result _ _ b).before fun _ => shows_pure _).imp fun h => ?_
    simp only [Stmt.nodes, List.forall_mem_append]
    exact ⟨⟨h.1, h.2.1⟩, h.2.2⟩
  | locals, i, .missing => by
    rw [checkStmt]
    exact shows_fail _ _

theorem shows_checkStmts (result : Ty) : ∀ (locals : List Frame) (i : Nat) (ss : List Stmt),
    Shows (checkStmts result locals i ss) (∀ y ∈ stmtsNodes ss, y.Accepted)
  | locals, i, [] => by
    rw [checkStmts]
    exact (shows_pure _).imp fun _ => by simp [stmtsNodes]
  | locals, i, s :: ss => by
    rw [checkStmts]
    exact ((shows_checkStmt result locals i s).bind fun _ =>
      (shows_checkStmts result _ _ ss).before fun _ => shows_pure _).imp
      List.forall_mem_append.2

end

/-! ### Programs -/

/-- Checking a function infers the expressions of its body. -/
theorem shows_checkFunc (f : NamedFunction) :
    Shows (checkFunc f.name f.func) (∀ y ∈ stmtsNodes f.func.body.stmts, y.Accepted) := by
  intro c x c' hc h
  obtain ⟨params, written, result, returned, c₁, c₂, c₃, -, hresult, hbody, hlast, rfl⟩ :=
    gives_checkFunc.1 h
  have hc₁ : c₁.unifier.Coherent := by
    cases written with
    | none => exact (steady_fresh.shows (c := c.entering f) hc hresult).1
    | some t => exact ((steady_pure t).shows (c := c.entering f) hc hresult).1
  obtain ⟨hc₂, haccepted⟩ := shows_checkStmts result _ _ _ hc₁ hbody
  refine ⟨?_, haccepted⟩
  rcases hlast with ⟨-, rfl⟩ | ⟨-, hunified⟩
  · exact hc₂
  · obtain ⟨u, hu, rfl⟩ := moves_unified hunified
    exact (hu.grows hc₂).coherent

/-- Every expression of a program that is accepted was itself accepted, whatever the
checker was told. -/
theorem Program.accepted_of_check {p : Program} {o : CheckOptions} {c : Checker}
    (h : p.check o = (.ok (), c)) :
    ∀ f ∈ p.functions, ∀ y ∈ stmtsNodes f.func.body.stmts, y.Accepted := by
  obtain ⟨G, -, h⟩ := Program.check_eq_ok_iff.1 h
  exact (Shows.forM fun f _ => (shows_checkFunc f).inContext _) (Unifier.coherent_new _ _) h |>.2

end FunRiscv
