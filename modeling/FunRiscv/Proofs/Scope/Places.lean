import Mathlib
import FunRiscv.Proofs.Typing.Rules

/-!
# The expressions of a function and the names known there

* `Names`: the local variables that are in scope at a place, and those that were in scope once. The
  word of a variable is kept after its scope was left.
* `Place`: an expression with its number and the names known there; `FuncDef.places` lists
  those of a function.
* `Sees`: frames that have some names, and no others.
* `typed_places`: an expression of a checked function is typed under frames that have the names
  in scope at its place.
-/

namespace FunRiscv

/-! ### Names -/

/-- The names of the local variables at a place: those in scope, and those that were in scope in a
part that was left. -/
structure Names where
  seen : List String
  gone : List String

namespace Names

/-- Every name that has a word. -/
def held (k : Names) : List String := k.seen ++ k.gone

/-- One more variable. -/
def bind (k : Names) (n : String) : Names := { k with seen := n :: k.seen }

/-- More variables, one after the other. -/
def bindAll (k : Names) (ns : List String) : Names := ns.foldl bind k

/-- The names after a part was left, at the end of which there were others. -/
def leave (k inner : Names) : Names := ⟨k.seen, inner.held⟩

end Names

mutual

/-- The names after the variables of a pattern are bound. -/
def Pattern.names (k : Names) : Pattern → Names
  | .var _ n => k.bind n
  | .cons _ _ ps | .tuple _ ps => patternsNames k ps
  | .wild _ | .lit .. | .missing => k

/-- The names after the variables of patterns are bound. -/
def patternsNames (k : Names) : List Pattern → Names
  | [] => k
  | p :: ps => patternsNames (p.names k) ps

end

mutual

/-- The names after a statement. What an arm binds is gone after it. -/
def Stmt.names (k : Names) : Stmt → Names
  | .assign _ n _ _ | .use _ n _ => k.bind n
  | .ifThen _ _ _ a => k.leave (stmtsNames k a)
  | .ifElse _ _ _ a _ b => k.leave (stmtsNames (k.leave (stmtsNames k a)) b)
  | .ret .. | .expr .. | .missing => k

/-- The names after statements. -/
def stmtsNames (k : Names) : List Stmt → Names
  | [] => k
  | s :: ss => stmtsNames (s.names k) ss

end

mutual

/-- What is in scope before a statement is in scope after it. -/
theorem Stmt.seen_subset : ∀ (s : Stmt) (k : Names), k.seen ⊆ (s.names k).seen
  | .assign .., _ | .use .., _ => List.subset_cons_self _ _
  | .ifThen .., _ | .ifElse .., _ | .ret .., _ | .expr .., _ | .missing, _ => List.Subset.refl _

theorem stmts_seen_subset : ∀ (ss : List Stmt) (k : Names), k.seen ⊆ (stmtsNames k ss).seen
  | [], _ => List.Subset.refl _
  | s :: ss, k => List.Subset.trans (s.seen_subset k) (stmts_seen_subset ss _)

end

/-! ### Places -/

/-- An expression of a function, its number and the names known there. -/
structure Place where
  number : Nat
  expr : Expr
  names : Names

/-- Whether an expression is a name. -/
def Expr.isName : Expr → Bool
  | .var .. => true
  | _ => false

mutual

/-- The places of the expression of number `i` and those under it. A name that is called belongs to
the place of its call. -/
def Expr.places (k : Names) (i : Nat) : Expr → List Place
  | e@(.var ..) | e@(.uint ..) | e@(.int ..) | e@(.float ..) | e@(.str ..) | e@(.bool ..)
  | e@(.eraser _) | e@(.missing) => [⟨i, e, k⟩]
  | e@(.tuple _ es) | e@(.list _ es) => ⟨i, e, k⟩ :: exprsPlaces k (i + 1) es
  | e@(.binOp _ _ a b) => ⟨i, e, k⟩ :: (a.places k (i + 1) ++ b.places k (i + 1 + a.nodeCount))
  | e@(.call _ f args named) => ⟨i, e, k⟩ :: ((if f.isName then [] else f.places k (i + 1)) ++
      exprsPlaces k (i + 1 + f.nodeCount) args ++ namedPlaces k
        (i + 1 + f.nodeCount + exprsNodeCount args) named)
  | e@(.lambda _ ps body) => ⟨i, e, k⟩ :: body.places (k.bindAll (ps.map (·.name))) (i + 1)
  | e@(.ifElse _ c a b) => ⟨i, e, k⟩ :: (c.places k (i + 1) ++ a.places k (i + 1 + c.nodeCount) ++
      b.places k (i + 1 + c.nodeCount + a.nodeCount))
  | e@(.matchOn _ x cases) =>
    ⟨i, e, k⟩ :: (x.places k (i + 1) ++ casesPlaces k (i + 1 + x.nodeCount) cases)
  | e@(.access _ x _) => ⟨i, e, k⟩ :: x.places k (i + 1)

/-- The places of expressions numbered from `i` on. -/
def exprsPlaces (k : Names) (i : Nat) : List Expr → List Place
  | [] => []
  | e :: es => e.places k i ++ exprsPlaces k (i + e.nodeCount) es

/-- The places of named arguments numbered from `i` on. -/
def namedPlaces (k : Names) (i : Nat) : List NamedArg → List Place
  | [] => []
  | .mk _ _ e :: ns => e.places k i ++ namedPlaces k (i + e.nodeCount) ns

/-- The places of match arms. The variables of a pattern are known in its arm. -/
def casesPlaces (k : Names) (i : Nat) : List Case → List Place
  | [] => []
  | .mk _ p body :: cs => p.places k i ++ body.places (p.names k) (i + p.nodeCount) ++
      casesPlaces k (i + p.nodeCount + body.nodeCount) cs

/-- The places of the literals of a pattern. -/
def Pattern.places (k : Names) (i : Nat) : Pattern → List Place
  | .lit _ e => e.places k i
  | .cons _ _ ps | .tuple _ ps => patternsPlaces k i ps
  | .wild _ | .var .. | .missing => []

/-- The places of the literals of patterns. -/
def patternsPlaces (k : Names) (i : Nat) : List Pattern → List Place
  | [] => []
  | p :: ps => p.places k i ++ patternsPlaces (p.names k) (i + p.nodeCount) ps

end

mutual

/-- The places of a statement. -/
def Stmt.places (k : Names) (i : Nat) : Stmt → List Place
  | .ret _ none | .missing => []
  | .ret _ (some e) | .assign _ _ _ e | .use _ _ e | .expr _ e => e.places k i
  | .ifThen _ c _ a => c.places k i ++ stmtsPlaces k (i + c.nodeCount) a
  | .ifElse _ c _ a _ b => c.places k i ++ stmtsPlaces k (i + c.nodeCount) a ++
      stmtsPlaces (k.leave (stmtsNames k a)) (i + c.nodeCount + stmtsNodeCount a) b

/-- The places of statements. -/
def stmtsPlaces (k : Names) (i : Nat) : List Stmt → List Place
  | [] => []
  | s :: ss => s.places k i ++ stmtsPlaces (s.names k) (i + s.nodeCount) ss

end

/-- The names that are known at the start of a function. -/
def FuncDef.paramNames (d : FuncDef) : Names := Names.bindAll ⟨[], []⟩ (d.params.map (·.name))

/-- The places of a function whose expressions are numbered from `i` on. -/
def FuncDef.places (d : FuncDef) (i : Nat) : List Place := stmtsPlaces d.paramNames i d.body.stmts

/-! ### Frames -/

/-- Frames have local variables of some names, and nothing else. -/
structure Sees (locals : List Frame) (seen : List String) : Prop where
  bound : ∀ n ∈ seen, ∃ t, findIn? locals n = some (.variable n t)
  free : ∀ n, n ∉ seen → findIn? locals n = none

section Sees

variable {locals : List Frame} {seen : List String}

theorem Sees.push (h : Sees locals seen) : Sees ([] :: locals) seen := ⟨h.bound, h.free⟩

theorem findIn?_bindLocal_self (n : String) (t : Ty) :
    findIn? (Checking.bindLocal locals n t) n = some (.variable n t) := by
  cases locals <;> simp [Checking.bindLocal, findIn?, Frame.find?, Frame.insert]

theorem findIn?_bindLocal_of_ne {m n : String} (hmn : m ≠ n) (t : Ty) :
    findIn? (Checking.bindLocal locals n t) m = findIn? locals m := by
  have hb : (m == n) = false := by simpa using hmn
  cases locals <;> simp [Checking.bindLocal, findIn?, Frame.find?, Frame.insert, List.lookup_cons,
    List.findSome?_cons, hb]

theorem Sees.bindLocal (h : Sees locals seen) (n : String) (t : Ty) :
    Sees (Checking.bindLocal locals n t) (n :: seen) := by
  constructor
  · intro m hm
    by_cases hmn : m = n
    · exact ⟨t, hmn ▸ findIn?_bindLocal_self m t⟩
    · rw [findIn?_bindLocal_of_ne hmn]
      exact h.bound m ((List.mem_cons.1 hm).resolve_left hmn)
  · intro m hm
    rw [List.mem_cons, not_or] at hm
    rw [findIn?_bindLocal_of_ne hm.1]
    exact h.free m hm.2

/-- A name that is in scope may be listed again. -/
theorem Sees.cons_of_mem (h : Sees locals seen) {n : String} (hn : n ∈ seen) :
    Sees locals (n :: seen) := by
  constructor
  · intro m hm
    rcases List.mem_cons.1 hm with rfl | hm
    · exact h.bound m hn
    · exact h.bound m hm
  · intro m hm
    rw [List.mem_cons, not_or] at hm
    exact h.free m hm.2

end Sees

/-- Parameters are in scope one after the other. -/
theorem Sees.withParams {r : Report} {ps : List Param} {ts : List Ty} (hps : r.Params ps ts)
    {locals : List Frame} {k : Names} (h : Sees locals k.seen) :
    Sees (withParams locals ps ts) (k.bindAll (ps.map (·.name))).seen := by
  induction hps generalizing locals k with
  | nil => exact h
  | @cons p t ps ts _ _ ih => exact ih (k := k.bind p.name) (h.bindLocal p.name t)

/-! ### Typed places -/

/-- An expression is typed under frames that have the names in scope. -/
def Place.IsTyped (r : Report) (q : Place) : Prop :=
  ∃ locals, Sees locals q.names.seen ∧ q.expr.Typed r locals q.number

mutual

/-- The variables of a pattern are in scope after it. -/
theorem Pattern.sees (r : Report) :
    ∀ (p : Pattern) {k : Names} {locals inner : List Frame} {i : Nat} {t : Ty}, Sees locals k.seen →
      p.Typed r locals i t inner → Sees inner (p.names k).seen
  | .wild _, _, _, _, _, _, h, hp | .lit .., _, _, _, _, _, h, hp => by
    simp only [Pattern.Typed] at hp
    simp only [Pattern.names, hp]
    exact h
  | .var _ n, _, _, _, _, _, h, hp => by
    rw [Pattern.Typed] at hp
    rw [Pattern.names, hp]
    exact h.bindLocal n _
  | .cons _ _ ps, _, _, _, _, _, h, hp => by
    rw [Pattern.Typed] at hp
    obtain ⟨_, _, _, _, _, _, _, hps⟩ := hp
    exact patterns_sees r ps h hps
  | .tuple _ ps, _, _, _, _, _, h, hp => by
    rw [Pattern.Typed] at hp
    obtain ⟨_, _, _, hps⟩ := hp
    exact patterns_sees r ps h hps
  | .missing, _, _, _, _, _, _, hp => by
    rw [Pattern.Typed] at hp
    exact hp.elim

theorem patterns_sees (r : Report) :
    ∀ (ps : List Pattern) {k : Names} {locals inner : List Frame} {i : Nat} {ts : List Ty},
      Sees locals k.seen → patternsTyped r locals i ts ps inner →
        Sees inner (patternsNames k ps).seen
  | [], _, _, _, _, _, h, hps => by
    rw [patternsTyped] at hps
    rw [patternsNames, hps]
    exact h
  | p :: ps, _, _, _, _, _, h, hps => by
    rw [patternsTyped] at hps
    obtain ⟨_, _, _, _, hp, hps⟩ := hps
    exact patterns_sees r ps (p.sees r h hp) hps

end

mutual

/-- An expression and those under it are typed under frames that have the names in
scope at their places. -/
theorem Expr.typed_places (r : Report) : ∀ (e : Expr) {k : Names} {locals : List Frame} {i : Nat},
    Sees locals k.seen → e.Typed r locals i → ∀ q ∈ e.places k i, q.IsTyped r
  | .var .., _, _, _, h, he | .uint .., _, _, _, h, he | .int .., _, _, _, h, he
  | .float .., _, _, _, h, he
  | .str .., _, _, _, h, he | .bool .., _, _, _, h, he | .eraser _, _, _, _, h, he
  | .missing, _, _, _, h, he => by
    rw [Expr.places, List.forall_mem_singleton]
    exact ⟨_, h, he⟩
  | .tuple _ es, _, _, _, h, he | .list _ es, _, _, _, h, he => by
    rw [Expr.places, List.forall_mem_cons]
    refine ⟨⟨_, h, he⟩, ?_⟩
    rw [Expr.Typed] at he
    exact exprs_typed_places r es h he.1
  | .binOp _ _ a b, _, _, _, h, he => by
    rw [Expr.places, List.forall_mem_cons, List.forall_mem_append]
    refine ⟨⟨_, h, he⟩, ?_⟩
    rw [Expr.Typed] at he
    exact ⟨a.typed_places r h he.1, b.typed_places r h he.2.1⟩
  | .call _ f args named, _, _, _, h, he => by
    rw [Expr.places, List.forall_mem_cons, List.forall_mem_append, List.forall_mem_append]
    refine ⟨⟨_, h, he⟩, ?_⟩
    rw [Expr.Typed] at he
    refine ⟨⟨?_, exprs_typed_places r args h he.2.1⟩, named_typed_places r named h he.2.2.1⟩
    split
    · simp
    · exact f.typed_places r h he.1
  | .lambda _ ps body, _, _, _, h, he => by
    rw [Expr.places, List.forall_mem_cons]
    refine ⟨⟨_, h, he⟩, ?_⟩
    rw [Expr.Typed] at he
    obtain ⟨ts, _, hps, hbody, -⟩ := he
    exact body.typed_places r (h.push.withParams hps) hbody
  | .ifElse _ c a b, _, _, _, h, he => by
    rw [Expr.places, List.forall_mem_cons, List.forall_mem_append, List.forall_mem_append]
    refine ⟨⟨_, h, he⟩, ?_⟩
    rw [Expr.Typed] at he
    exact ⟨⟨c.typed_places r h he.1, a.typed_places r h he.2.1⟩, b.typed_places r h he.2.2.1⟩
  | .matchOn _ x cases, _, _, _, h, he => by
    rw [Expr.places, List.forall_mem_cons, List.forall_mem_append]
    refine ⟨⟨_, h, he⟩, ?_⟩
    rw [Expr.Typed] at he
    obtain ⟨hx, _, _, _, hcases, -⟩ := he
    exact ⟨x.typed_places r h hx, cases_typed_places r cases h hcases⟩
  | .access _ x _, _, _, _, h, he => by
    rw [Expr.places, List.forall_mem_cons]
    refine ⟨⟨_, h, he⟩, ?_⟩
    rw [Expr.Typed] at he
    exact x.typed_places r h he.1

theorem exprs_typed_places (r : Report) :
    ∀ (es : List Expr) {k : Names} {locals : List Frame} {i : Nat}, Sees locals k.seen →
      exprsTyped r locals i es → ∀ q ∈ exprsPlaces k i es, q.IsTyped r
  | [], _, _, _, _, _ => by simp [exprsPlaces]
  | e :: es, _, _, _, h, hes => by
    rw [exprsTyped] at hes
    rw [exprsPlaces, List.forall_mem_append]
    exact ⟨e.typed_places r h hes.1, exprs_typed_places r es h hes.2⟩

theorem named_typed_places (r : Report) :
    ∀ (ns : List NamedArg) {k : Names} {locals : List Frame} {i : Nat}, Sees locals k.seen →
      namedTyped r locals i ns → ∀ q ∈ namedPlaces k i ns, q.IsTyped r
  | [], _, _, _, _, _ => by simp [namedPlaces]
  | .mk _ _ e :: ns, _, _, _, h, hns => by
    rw [namedTyped] at hns
    rw [namedPlaces, List.forall_mem_append]
    exact ⟨e.typed_places r h hns.1, named_typed_places r ns h hns.2⟩

theorem cases_typed_places (r : Report) :
    ∀ (cs : List Case) {k : Names} {locals : List Frame} {i : Nat} {t : Ty}, Sees locals k.seen →
      casesTyped r locals i t cs → ∀ q ∈ casesPlaces k i cs, q.IsTyped r
  | [], _, _, _, _, _, _ => by simp [casesPlaces]
  | .mk _ p body :: cs, _, _, _, _, h, hcs => by
    rw [casesTyped] at hcs
    obtain ⟨⟨inner, hp, hbody⟩, hcs⟩ := hcs
    rw [casesPlaces, List.forall_mem_append, List.forall_mem_append]
    exact ⟨⟨p.typed_places r h.push hp, body.typed_places r (p.sees r h.push hp) hbody⟩,
      cases_typed_places r cs h hcs⟩

theorem Pattern.typed_places (r : Report) :
    ∀ (p : Pattern) {k : Names} {locals inner : List Frame} {i : Nat} {t : Ty}, Sees locals k.seen →
      p.Typed r locals i t inner → ∀ q ∈ p.places k i, q.IsTyped r
  | .lit _ e, _, _, _, _, _, h, hp => by
    rw [Pattern.Typed] at hp
    rw [Pattern.places]
    exact e.typed_places r h hp.1
  | .cons _ _ ps, _, _, _, _, _, h, hp => by
    rw [Pattern.Typed] at hp
    obtain ⟨_, _, _, _, _, _, _, hps⟩ := hp
    rw [Pattern.places]
    exact patterns_typed_places r ps h hps
  | .tuple _ ps, _, _, _, _, _, h, hp => by
    rw [Pattern.Typed] at hp
    obtain ⟨_, _, _, hps⟩ := hp
    rw [Pattern.places]
    exact patterns_typed_places r ps h hps
  | .wild _, _, _, _, _, _, _, _ | .var .., _, _, _, _, _, _, _
  | .missing, _, _, _, _, _, _, _ => by simp [Pattern.places]

theorem patterns_typed_places (r : Report) :
    ∀ (ps : List Pattern) {k : Names} {locals inner : List Frame} {i : Nat} {ts : List Ty},
      Sees locals k.seen → patternsTyped r locals i ts ps inner →
        ∀ q ∈ patternsPlaces k i ps, q.IsTyped r
  | [], _, _, _, _, _, _, _ => by simp [patternsPlaces]
  | p :: ps, _, _, _, _, _, h, hps => by
    rw [patternsTyped] at hps
    obtain ⟨_, _, _, _, hp, hps⟩ := hps
    rw [patternsPlaces, List.forall_mem_append]
    exact ⟨p.typed_places r h hp, patterns_typed_places r ps (p.sees r h hp) hps⟩

end

/-! ### Typed statements -/

theorem Assigned.sees {locals after : List Frame} {seen : List String} {n : String} {t : Ty}
    (h : Sees locals seen) (ha : Assigned locals n t after) : Sees after (n :: seen) := by
  unfold Assigned at ha
  by_cases hn : n ∈ seen
  · obtain ⟨u, hu⟩ := h.bound n hn
    rw [hu] at ha
    rw [ha.2]
    exact h.cons_of_mem hn
  · rw [h.free n hn] at ha
    rw [ha]
    exact h.bindLocal n t

/-- What a statement binds is in scope after it. -/
theorem Stmt.sees {r : Report} {result : Ty} :
    ∀ {s : Stmt} {k : Names} {locals after : List Frame} {i : Nat}, Sees locals k.seen →
      s.Typed r result locals i after → Sees after (s.names k).seen
  | .ret _ none, _, _, _, _, h, hs | .expr .., _, _, _, _, h, hs => by
    rw [Stmt.Typed] at hs
    rw [hs.2]
    exact h
  | .ret _ (some _), _, _, _, _, h, hs => by
    rw [Stmt.Typed] at hs
    rw [hs.2.2]
    exact h
  | .assign .., _, _, _, _, h, hs => by
    rw [Stmt.Typed] at hs
    obtain ⟨_, _, _, _, ha, -⟩ := hs
    exact ha.sees h
  | .use .., _, _, _, _, h, hs => by
    rw [Stmt.Typed] at hs
    obtain ⟨_, _, _, ha⟩ := hs
    rw [ha]
    exact h.bindLocal _ _
  | .ifThen .., _, _, _, _, h, hs => by
    rw [Stmt.Typed] at hs
    rw [hs.2.2.2]
    exact h
  | .ifElse .., _, _, _, _, h, hs => by
    rw [Stmt.Typed] at hs
    rw [hs.2.2.2.2]
    exact h
  | .missing, _, _, _, _, _, hs => by
    rw [Stmt.Typed] at hs
    exact hs.elim

mutual

theorem Stmt.typed_places (r : Report) (result : Ty) :
    ∀ (s : Stmt) {k : Names} {locals after : List Frame} {i : Nat}, Sees locals k.seen →
      s.Typed r result locals i after → ∀ q ∈ s.places k i, q.IsTyped r
  | .ret _ none, _, _, _, _, _, _ | .missing, _, _, _, _, _, _ => by simp [Stmt.places]
  | .ret _ (some e), _, _, _, _, h, hs | .assign _ _ _ e, _, _, _, _, h, hs
  | .use _ _ e, _, _, _, _, h, hs
  | .expr _ e, _, _, _, _, h, hs => by
    rw [Stmt.Typed] at hs
    rw [Stmt.places]
    exact e.typed_places r h hs.1
  | .ifThen _ c _ a, _, _, _, _, h, hs => by
    rw [Stmt.Typed] at hs
    rw [Stmt.places, List.forall_mem_append]
    exact ⟨c.typed_places r h hs.1, stmts_typed_places r result a h.push hs.2.2.1⟩
  | .ifElse _ c _ a _ b, _, _, _, _, h, hs => by
    rw [Stmt.Typed] at hs
    rw [Stmt.places, List.forall_mem_append, List.forall_mem_append]
    exact ⟨⟨c.typed_places r h hs.1, stmts_typed_places r result a h.push hs.2.2.1⟩,
      stmts_typed_places r result b (k := Names.leave _ _) h.push hs.2.2.2.1⟩

theorem stmts_typed_places (r : Report) (result : Ty) :
    ∀ (ss : List Stmt) {k : Names} {locals : List Frame} {i : Nat}, Sees locals k.seen →
      stmtsTyped r result locals i ss → ∀ q ∈ stmtsPlaces k i ss, q.IsTyped r
  | [], _, _, _, _, _ => by simp [stmtsPlaces]
  | s :: ss, _, _, _, h, hss => by
    rw [stmtsTyped] at hss
    obtain ⟨after, hs, hss⟩ := hss
    rw [stmtsPlaces, List.forall_mem_append]
    exact ⟨s.typed_places r result h hs, stmts_typed_places r result ss (Stmt.sees h hs) hss⟩

end

/-- In a function that follows the rules, every expression is typed under frames that have the names
in scope at its place. -/
theorem NamedFunction.typed_places {r : Report} {i : Nat} {f : NamedFunction} {t : Ty}
    (h : f.Typed r i t) : ∀ q ∈ f.func.places i, q.IsTyped r := by
  obtain ⟨ps, result, -, hps, -, hbody⟩ := h
  have hstart : Sees [[]] (Names.seen ⟨[], []⟩) := ⟨by simp, fun _ _ => rfl⟩
  exact stmts_typed_places r result _ (hstart.withParams hps) hbody

end FunRiscv
