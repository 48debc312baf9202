import Mathlib
import FunRiscv.Proofs.Codegen.Layout
import FunRiscv.Proofs.Scope.Places
import FunRiscv.Proofs.Typing.Soundness

/-!
# The code of the expressions of a function

* `Slots.Has`: words for the variables of some names, and no others.
* `lowered_places`: an expression of a function has code within that of the function, made with
  words for the names that are held at its place.
* `Place.Compiled`, `compiled_places`: both the checker and the code generator came to every place
  of every function of a program that is accepted and for which code is generated.
-/

namespace FunRiscv

open Machine Lowering

/-! ### Words -/

/-- There are words for the variables of some names, and for no others. -/
def Slots.Has (slots : Slots) (held : List String) : Prop := ∀ n, slots.lookup n = none ↔ n ∉ held

namespace Slots

variable {slots : Slots} {held : List String}

theorem Has.congr (h : slots.Has held) {held' : List String} (hmem : ∀ n, n ∈ held ↔ n ∈ held') :
    slots.Has held' := by
  intro n
  rw [h n, hmem n]

theorem Has.cons (h : slots.Has held) (n : String) (o : Int32) :
    Slots.Has ((n, o) :: slots) (n :: held) := by
  intro m
  by_cases hmn : m = n
  · subst hmn
    simp
  · have hb : (m == n) = false := by simpa using hmn
    simp only [List.lookup_cons, hb, h m, List.mem_cons, hmn, false_or]

theorem Has.mem_of_lookup (h : slots.Has held) {n : String} {o : Int32}
    (ho : slots.lookup n = some o) : n ∈ held := by
  by_contra hn
  rw [(h n).2 hn] at ho
  cases ho

end Slots

/-! ### Expressions -/

/-- An expression has code within a listing, made with words for the names that are
held at its place. -/
def Place.IsLowered (c : LowerContext) (code : Listing) (q : Place) : Prop :=
  ∃ slots depth s part reg s', slots.Has q.names.held ∧
    Gives (lowerExpr c slots depth q.expr) s (part, reg) s' ∧ part <:+: code

theorem Place.IsLowered.mono {c : LowerContext} {code code' : Listing} {q : Place}
    (h : q.IsLowered c code) (hcode : code <:+: code') : q.IsLowered c code' := by
  obtain ⟨slots, depth, s, part, reg, s', hslots, hgives, hpart⟩ := h
  exact ⟨slots, depth, s, part, reg, s', hslots, hgives, hpart.trans hcode⟩

theorem infix_first (a b c : Listing) : a <:+: a ++ b ++ c :=
  (List.prefix_append a b).isInfix.trans (List.prefix_append _ c).isInfix

theorem infix_choice_then (x : Reg) (s : Supply) (t e : Listing) : t <:+: choice x s t e :=
  (List.infix_append _ t _).trans (infix_first _ e _)

theorem infix_choice_else (x : Reg) (s : Supply) (t e : Listing) : e <:+: choice x s t e :=
  List.infix_append _ e _

section Lowered

variable {c : LowerContext}

mutual

/-- An expression and those under it have code within that of the expression. -/
theorem Expr.lowered_places :
    ∀ (e : Expr) {k : Names} {slots : Slots} {depth i : Nat} {s s' : Supply} {code : Listing}
      {r : Reg}, slots.Has k.held → Gives (lowerExpr c slots depth e) s (code, r) s' →
        ∀ q ∈ e.places k i, q.IsLowered c code
  | .var .., _, _, _, _, _, _, _, _, hk, h | .uint .., _, _, _, _, _, _, _, _, hk, h
  | .int .., _, _, _, _, _, _, _, _, hk, h
  | .float .., _, _, _, _, _, _, _, _, hk, h | .str .., _, _, _, _, _, _, _, _, hk, h
  | .bool .., _, _, _, _, _, _, _, _, hk, h
  | .eraser _, _, _, _, _, _, _, _, _, hk, h | .missing, _, _, _, _, _, _, _, _, hk, h => by
    rw [Expr.places, List.forall_mem_singleton]
    exact ⟨_, _, _, _, _, _, hk, h, List.infix_rfl⟩
  | .binOp _ _ a b, _, _, _, _, _, _, _, _, hk, h => by
    rw [Expr.places, List.forall_mem_cons, List.forall_mem_append]
    refine ⟨⟨_, _, _, _, _, _, hk, h, List.infix_rfl⟩, ?_⟩
    obtain ⟨-, ac, ar, s₁, bc, br, s₂, oc, ha, hb, -, rfl⟩ := gives_binOp h
    exact ⟨fun q hq => (a.lowered_places hk ha q hq).mono (infix_first ac bc oc),
      fun q hq => (b.lowered_places hk hb q hq).mono (List.infix_append ac bc oc)⟩
  | .call _ f args named, _, _, _, _, _, _, _, _, hk, h => by
    rw [Expr.places, List.forall_mem_cons, List.forall_mem_append, List.forall_mem_append]
    refine ⟨⟨_, _, _, _, _, _, hk, h, List.infix_rfl⟩, ?_⟩
    obtain ⟨rfl, -, _, _, l, ac, rs, s₁, rfl, -, -, hargs, -, -, rfl⟩ := gives_call h
    refine ⟨⟨by simp [Expr.isName], fun q hq => ?_⟩, by simp [namedPlaces]⟩
    exact (args_lowered_places args hk hargs q hq).mono (infix_first ac _ _)
  | .ifElse _ x a b, _, _, _, _, _, _, _, _, hk, h => by
    rw [Expr.places, List.forall_mem_cons, List.forall_mem_append, List.forall_mem_append]
    refine ⟨⟨_, _, _, _, _, _, hk, h, List.infix_rfl⟩, ?_⟩
    obtain ⟨xc, xr, s₁, ac, ar, s₂, bc, br, hx, ha, hb, -, rfl⟩ := gives_ifElse h
    have hstart : ∀ {y t e : Listing}, y <:+: choice xr s₁ t e → y <:+: xc ++ choice xr s₁ t e :=
      fun hy =>
      hy.trans (List.suffix_append xc _).isInfix
    exact ⟨⟨fun q hq => (x.lowered_places hk hx q hq).mono (List.prefix_append _ _).isInfix,
      fun q hq => (a.lowered_places hk ha q hq).mono
        (hstart ((List.prefix_append ac _).isInfix.trans (infix_choice_then xr s₁ _ _)))⟩,
      fun q hq => (b.lowered_places hk hb q hq).mono
        (hstart ((List.prefix_append bc _).isInfix.trans (infix_choice_else xr s₁ _ _)))⟩
  | .matchOn _ x cases, _, _, _, _, _, _, _, _, hk, h => by
    rw [Expr.places, List.forall_mem_cons, List.forall_mem_append]
    refine ⟨⟨_, _, _, _, _, _, hk, h, List.infix_rfl⟩, ?_⟩
    obtain ⟨xc, xr, s₁, body, hx, hcases, -, rfl⟩ := gives_matchOn h
    exact ⟨fun q hq => (x.lowered_places hk hx q hq).mono (infix_first xc body _),
      fun q hq => (cases_lowered_places cases hk hcases q hq).mono (List.infix_append xc body _)⟩
  | .tuple .., _, _, _, _, _, _, _, _, _, h | .list .., _, _, _, _, _, _, _, _, _, h
  | .lambda .., _, _, _, _, _, _, _, _, _, h
  | .access .., _, _, _, _, _, _, _, _, _, h => absurd (shape_of_gives h) (by simp [literal?])
termination_by e => sizeOf e
decreasing_by
  all_goals simp only [Expr.binOp.sizeOf_spec, Expr.call.sizeOf_spec, Expr.ifElse.sizeOf_spec,
    Expr.matchOn.sizeOf_spec]
  all_goals omega

theorem args_lowered_places :
    ∀ (es : List Expr) {k : Names} {slots : Slots} {depth i : Nat} {s s' : Supply} {code : Listing}
      {rs : List Reg}, slots.Has k.held → Gives (lowerArgs c slots depth es) s (code, rs) s' →
        ∀ q ∈ exprsPlaces k i es, q.IsLowered c code
  | [], _, _, _, _, _, _, _, _, _, _ => by simp [exprsPlaces]
  | e :: es, _, _, _, _, _, _, _, _, hk, h => by
    obtain ⟨ec, er, s₁, rest, rs', he, hes, rfl, -⟩ := gives_args_cons h
    rw [exprsPlaces, List.forall_mem_append]
    exact ⟨fun q hq => (e.lowered_places hk he q hq).mono (List.prefix_append ec rest).isInfix,
      fun q hq => (args_lowered_places es hk hes q hq).mono (List.suffix_append ec rest).isInfix⟩
termination_by es => sizeOf es
decreasing_by
  all_goals simp only [List.cons.sizeOf_spec]
  all_goals omega

theorem cases_lowered_places :
    ∀ (cs : List Case) {k : Names} {slots : Slots} {depth i : Nat} {s s' : Supply} {code : Listing}
      {x d : Reg} {l : String}, slots.Has k.held →
      Gives (lowerCases c slots depth x d l cs) s code s' →
      ∀ q ∈ casesPlaces k i cs, q.IsLowered c code
  | [], _, _, _, _, _, _, _, _, _, _, _, _ => by simp [casesPlaces]
  | .mk _ p body :: cs, _, _, _, _, _, _, _, _, _, _, hk, h => by
    obtain ⟨test, inner, s₁, bc, br, s₂, others, hp, hbody, hcs, rfl⟩ := gives_cases_cons h
    rw [casesPlaces, List.forall_mem_append, List.forall_mem_append]
    have hin : ∀ tail, test ++ bc <:+: test ++ bc ++ tail ++ others :=
      fun tail => infix_first _ tail others
    refine ⟨⟨fun q hq => ?_, fun q hq => ?_⟩,
      fun q hq => (cases_lowered_places cs hk hcs q hq).mono (List.suffix_append _ _).isInfix⟩
    · obtain ⟨_, v, vc, vr, rfl, hv, -, rfl⟩ | ⟨_, _, rfl, -⟩ | ⟨_, rfl, -⟩ := gives_pattern hp
      · rw [Pattern.places] at hq
        exact (v.lowered_places hk hv q hq).mono ((List.prefix_append vc _).isInfix.trans
          ((List.prefix_append _ bc).isInfix.trans (hin _)))
      · simp [Pattern.places] at hq
      · simp [Pattern.places] at hq
    · refine Place.IsLowered.mono ?_ ((List.suffix_append test bc).isInfix.trans (hin _))
      obtain ⟨_, v, vc, vr, rfl, -, rfl, -⟩ | ⟨_, n, rfl, -, rfl, -⟩ | ⟨_, rfl, -, rfl, -⟩ :=
        gives_pattern hp
      · exact body.lowered_places hk hbody q hq
      · exact body.lowered_places (hk.cons n _) hbody q hq
      · exact body.lowered_places hk hbody q hq
termination_by cs => sizeOf cs
decreasing_by
  all_goals subst_vars
  all_goals simp only [List.cons.sizeOf_spec, Case.mk.sizeOf_spec, Pattern.lit.sizeOf_spec]
  all_goals omega

end

/-! ### Statements -/

variable {k : Names} {slots slots' : Slots} {s s' : Supply} {code : Listing}

theorem Lowering.Noted.isInfix {rest : Listing} (h : Noted c code rest) : rest <:+: code := by
  obtain ⟨note, rfl, -⟩ := h
  exact (List.suffix_append _ _).isInfix

/-- A variable that gets a value has a word. -/
theorem slotOf_has {n : String} {o : Int32} (hk : slots.Has k.held)
    (h : Gives (slotOf slots n) s (o, slots') s') : slots'.Has (k.bind n).held := by
  rcases gives_slotOf h with ⟨ho, rfl, -⟩ | ⟨-, -, rfl, -⟩
  · have hn := hk.mem_of_lookup ho
    refine hk.congr fun m => ?_
    show m ∈ k.held ↔ m ∈ n :: k.held
    simp only [List.mem_cons, iff_or_self]
    rintro rfl
    exact hn
  · exact hk.cons n _

/-- The words of an arm are kept after it. -/
theorem Slots.Has.leave {a : List Stmt} (h : slots.Has (stmtsNames k a).held) :
    slots.Has (k.leave (stmtsNames k a)).held := by
  refine h.congr fun n => ?_
  show _ ↔ n ∈ k.seen ++ (stmtsNames k a).held
  simp only [List.mem_append, iff_or_self]
  exact fun hn => List.mem_append_left _ (stmts_seen_subset a k hn)

mutual

/-- The expressions of a statement have code within that of the statement, and the names
after it have words. -/
theorem Stmt.lowered_places :
    ∀ (st : Stmt) {k : Names} {slots slots' : Slots} {depth i : Nat} {last : Bool} {s s' : Supply}
      {code : Listing}, slots.Has k.held → Gives (lowerStmt c slots depth last st) s (code, slots')
        s' → slots'.Has (st.names k).held ∧ ∀ q ∈ st.places k i, q.IsLowered c code
  | .ret _ x, _, _, _, _, _, _, _, _, _, hk, h => by
    obtain ⟨rest, hnoted, rfl, hrest⟩ := gives_noted_ret h
    refine ⟨hk, ?_⟩
    obtain ⟨rfl, -, -⟩ | ⟨e, xc, xr, rfl, he, rfl⟩ := gives_return hrest
    · simp [Stmt.places]
    · exact fun q hq => (e.lowered_places hk he q hq).mono
        ((List.prefix_append _ _).isInfix.trans ((List.prefix_append _ _).isInfix.trans
          hnoted.isInfix))
  | .assign _ _ _ e, _, _, _, _, _, _, _, _, _, hk, h => by
    obtain ⟨rest, hnoted, hrest⟩ := gives_noted_assign h
    obtain ⟨xc, xr, s₁, o, he, ho, rfl⟩ := gives_store hrest
    exact ⟨slotOf_has hk ho,
      fun q hq => (e.lowered_places hk he q hq).mono ((List.prefix_append _ _).isInfix.trans
        hnoted.isInfix)⟩
  | .use _ _ e, _, _, _, _, _, _, _, _, _, hk, h => by
    obtain ⟨rest, hnoted, hrest⟩ := gives_noted_use h
    obtain ⟨xc, xr, s₁, o, he, ho, rfl⟩ := gives_store hrest
    exact ⟨slotOf_has hk ho,
      fun q hq => (e.lowered_places hk he q hq).mono ((List.prefix_append _ _).isInfix.trans
        hnoted.isInfix)⟩
  | .expr _ e, _, _, _, _, _, _, _, _, _, hk, h => by
    obtain ⟨rfl, xc, xr, hnoted, he⟩ := gives_noted_exprStmt h
    exact ⟨hk, fun q hq => (e.lowered_places hk he q hq).mono hnoted.isInfix⟩
  | .ifThen _ x _ a, _, _, _, _, _, _, _, _, _, hk, h => by
    obtain ⟨xc, xr, s₁, ac, hx, ha, hnoted⟩ := gives_noted_ifThen h
    obtain ⟨hk', hplaces⟩ := stmts_lowered_places a hk ha
    refine ⟨hk'.leave, ?_⟩
    rw [Stmt.places, List.forall_mem_append]
    exact ⟨fun q hq =>
      (x.lowered_places hk hx q hq).mono ((List.prefix_append _ _).isInfix.trans hnoted.isInfix),
      fun q hq => (hplaces q hq).mono
        ((infix_choice_then xr s₁ ac []).trans ((List.suffix_append _ _).isInfix.trans
          hnoted.isInfix))⟩
  | .ifElse _ x _ a _ b, _, _, _, _, _, _, _, _, _, hk, h => by
    obtain ⟨xc, xr, s₁, ac, inner, s₂, bc, hx, ha, hb, hnoted⟩ := gives_noted_ifElse h
    obtain ⟨hka, hplaces₁⟩ := stmts_lowered_places a hk ha
    obtain ⟨hkb, hplaces₂⟩ := stmts_lowered_places b hka.leave hb
    refine ⟨hkb.leave, ?_⟩
    have hin := (List.suffix_append xc (choice xr s₁ ac bc)).isInfix.trans hnoted.isInfix
    rw [Stmt.places, List.forall_mem_append, List.forall_mem_append]
    exact ⟨⟨fun q hq =>
      (x.lowered_places hk hx q hq).mono ((List.prefix_append _ _).isInfix.trans hnoted.isInfix),
      fun q hq => (hplaces₁ q hq).mono ((infix_choice_then xr s₁ ac bc).trans hin)⟩,
      fun q hq => (hplaces₂ q hq).mono ((infix_choice_else xr s₁ ac bc).trans hin)⟩
  | .missing, _, _, _, _, _, _, _, _, _, _, h => absurd h not_gives_missing

theorem stmts_lowered_places : ∀ (ss : List Stmt) {k : Names} {slots slots' : Slots} {depth i : Nat}
    {top : Bool} {s s' : Supply} {code : Listing}, slots.Has k.held →
      Gives (lowerStmts c slots depth top ss) s (code, slots') s' →
      slots'.Has (stmtsNames k ss).held ∧ ∀ q ∈ stmtsPlaces k i ss, q.IsLowered c code
  | [], _, _, _, _, _, _, _, _, _, hk, h => by
    obtain ⟨-, rfl, -⟩ := gives_stmts_nil h
    exact ⟨hk, by simp [stmtsPlaces]⟩
  | st :: ss, _, _, _, _, _, _, _, _, _, hk, h => by
    obtain ⟨sc, inner, s₁, rest, hst, hss, rfl⟩ := gives_stmts_cons h
    obtain ⟨hk₁, hplaces₁⟩ := st.lowered_places hk hst
    obtain ⟨hk₂, hplaces₂⟩ := stmts_lowered_places ss hk₁ hss
    refine ⟨hk₂, ?_⟩
    rw [stmtsPlaces, List.forall_mem_append]
    exact ⟨fun q hq => (hplaces₁ q hq).mono (List.prefix_append _ _).isInfix,
      fun q hq => (hplaces₂ q hq).mono (List.suffix_append _ _).isInfix⟩

end

/-! ### Functions -/

theorem params_has :
    ∀ {ps : List Param} {k : Names} {slots slots' : Slots} {i : Nat} {s s' : Supply}
      {code : Listing}, slots.Has k.held → Gives (lowerParams i slots ps) s (code, slots') s' →
        slots'.Has (k.bindAll (ps.map (·.name))).held
  | [], _, _, _, _, _, _, _, hk, h => by
    obtain ⟨-, rfl, -⟩ := gives_params_nil h
    exact hk
  | p :: ps, k, _, _, _, _, _, _, hk, h => by
    obtain ⟨rest, hrest, -⟩ := gives_params_cons h
    exact params_has (k := k.bind p.name) (hk.cons p.name _) hrest

end Lowered

/-- The expressions of a function have code within that of the function. -/
theorem NamedFunction.lowered_places {opts : CodegenOptions} {functions : List String}
    {f : NamedFunction} {lf : LoweredFunction} {s s' : Supply}
    (h : Gives (lowerFunction opts functions f) s lf s') (i : Nat) :
    ∀ q ∈ f.func.places i, q.IsLowered (contextOf opts functions f (exitLabel s)) lf.code := by
  obtain ⟨-, -, pc, inner, s₁, bc, hparams, hbody, hcode⟩ := gives_function h
  obtain ⟨sc, inner', hstmts, rfl⟩ := gives_body hbody
  have hstart : Slots.Has [] (Names.held ⟨[], []⟩) := fun n => by simp [Names.held]
  obtain ⟨-, hplaces⟩ :=
    stmts_lowered_places (i := i) f.func.body.stmts (params_has hstart hparams) hstmts
  intro q hq
  refine (hplaces q hq).mono ?_
  rw [hcode]
  exact ⟨pc, falling f.func.body.stmts, by simp⟩

/-! ### Programs -/

/-- The checker typed the expression of a place, and the generator made its code, under these local
frames and with these words. -/
structure Place.Compiled (r : Report) (c : LowerContext) (code : Listing) (q : Place)
    (locals : List Frame) (slots : Slots) : Prop where
  sees : Sees locals q.names.seen
  typed : q.expr.Typed r locals q.number
  has : slots.Has q.names.held
  lowered : ∃ depth s part reg s', Gives (lowerExpr c slots depth q.expr) s (part, reg) s' ∧
    part <:+: code

/-- What the checker and the generator made of a function whose expressions are numbered from `i`
on: the names `g` that were known outside of it, the type found for it, and its code on virtual
registers under the label number `start`. -/
structure NamedFunction.Compiled (opts : CodegenOptions) (p : Program) (c : Checker)
    (code : Listing) (i : Nat) (f : NamedFunction) (g : Frame) (t : Ty) (start : Nat)
    (lf : LoweredFunction) : Prop where
  declares : g.Declares p.functions
  alike : g.Alike c.globals
  type : c.funcType? f.name = some t
  block : ∃ s a origin, Compiles opts (p.functions.map (·.name)) start f lf s a ∧
    At code origin (blockOf f lf s a)
  places : ∀ q ∈ f.func.places i, ∃ locals slots, q.Compiled ⟨c.typeOf?, g, pathOf f.name⟩
    (contextOf opts (p.functions.map (·.name)) f (exitLabel { labels := start }))
    lf.code locals slots

theorem mem_of_numberedFunctions {fs : List NamedFunction} {i : Nat} {e : Nat × NamedFunction}
    (h : e ∈ numberedFunctions i fs) : e.2 ∈ fs := by
  induction fs generalizing i with
  | nil => simp [numberedFunctions] at h
  | cons f fs ih =>
    rw [numberedFunctions, List.mem_cons] at h
    rcases h with rfl | h
    · exact List.mem_cons_self
    · exact List.mem_cons_of_mem _ (ih h)

/-- In a program that is accepted and for which code is generated, the checker and the generator
came to every place of every function. -/
theorem compiled_places {p : Program} {o : CheckOptions} {c : Checker} {opts : CodegenOptions}
    {code : Listing} (ho : o.symbols = []) (hcheck : p.check o = (.ok (), c))
    (hgenerate : p.generate opts = .ok code) :
    ∀ e ∈ numberedFunctions 0 p.functions,
      ∃ g t start lf, e.2.Compiled opts p c code e.1 g t start lf := by
  intro e he
  obtain ⟨g, t, hdeclares, halike, ht, htyped⟩ := (check_spec ho hcheck).2 e he
  unfold Program.generate at hgenerate
  split at hgenerate
  · cases hgenerate
  · obtain ⟨start, lf, s, a, origin, hcompiles, hat, -⟩ :=
      generateFunctions_block hgenerate (mem_of_numberedFunctions he)
    refine ⟨g, t, start, lf, hdeclares, halike, ht, ⟨s, a, origin, hcompiles, hat⟩, fun q hq => ?_⟩
    obtain ⟨locals, hsees, hexpr⟩ := NamedFunction.typed_places htyped q hq
    obtain ⟨slots, depth, s₁, part, reg, s₂, hhas, hgives, hpart⟩ :=
      NamedFunction.lowered_places hcompiles.lowered e.1 q hq
    exact ⟨locals, slots, hsees, hexpr, hhas, depth, s₁, part, reg, s₂, hgives, hpart⟩

/-- Whether code is generated, and what holds of it, can be computed. -/
theorem exists_code (p : Program) (opts : CodegenOptions) (P : Listing → Bool)
    (h : (match p.generate opts with
      | .ok code => P code
      | .error _ => false) = true) : ∃ code, p.generate opts = .ok code ∧ P code = true := by
  cases hgenerate : p.generate opts with
  | error e =>
    rw [hgenerate] at h
    cases h
  | ok code =>
    rw [hgenerate] at h
    exact ⟨code, rfl, h⟩

end FunRiscv
