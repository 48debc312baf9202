import Mathlib
import FunRiscv.Proofs.Scope.Resolution

/-!
# Addresses of functions

* `addressesOf`: the labels whose addresses a listing takes.
* `Place.taken?`: the function whose address is taken at a place: the place reads a
  name without a word.
* `Expr.addresses`, `Stmt.addresses`: code takes the addresses that are taken at its places,
  one after the other.
* `Program.addresses`: so does the listing of a program.
* `addresses_typed`: the types of the expressions for which addresses are taken.
* `word_is_address`: where a function has no parameters, its address is taken for an expression of
  the type of its result.
-/

namespace FunRiscv

open Lowering

/-! ### Listings -/

/-- The label whose address an instruction takes. -/
@[simp]
def Instr.address? : Instr → Option String
  | .la _ l => some l
  | _ => none

/-- The labels whose addresses a listing takes, one after the other. -/
def addressesOf (code : Listing) : List String := code.filterMap Instr.address?

section Listings

@[simp] theorem addressesOf_nil : addressesOf [] = [] := rfl

@[simp] theorem addressesOf_append (a b : Listing) :
    addressesOf (a ++ b) = addressesOf a ++ addressesOf b := List.filterMap_append

@[simp] theorem addressesOf_cons (i : Instr) (code : Listing) :
    addressesOf (i :: code) = i.address?.toList ++ addressesOf code := by
  rw [addressesOf, List.filterMap_cons]
  cases i.address? <;> rfl

theorem addressesOf_of_none {code : Listing} (h : ∀ i ∈ code, i.address? = none) :
    addressesOf code = [] :=
  List.filterMap_eq_nil_iff.2 h

@[simp] theorem addressesOf_passArgs (i : Nat) (rs : List Reg) :
    addressesOf (passArgs i rs) = [] := by
  induction rs generalizing i with
  | nil => rfl
  | cons r rs ih => simp [passArgs, ih]

@[simp] theorem addressesOf_operatorCode (op : Operator) (d l r t : Reg) :
    addressesOf (operatorCode op d l r t) = [] := by
  cases op <;> rfl

@[simp] theorem addressesOf_choice (x : Reg) (s : Supply) (t e : Listing) :
    addressesOf (choice x s t e) = addressesOf t ++ addressesOf e := by
  simp [choice, choose]

theorem Lowering.Noted.addresses {c : LowerContext} {code rest : Listing} (h : Noted c code rest) :
    addressesOf code = addressesOf rest := by
  obtain ⟨note, rfl, -, hcomments⟩ := h
  rw [addressesOf_append, addressesOf_of_none fun i hi => ?_, List.nil_append]
  obtain ⟨t, rfl⟩ := hcomments i hi
  rfl

/-- Putting registers into code takes no address and leaves none out. -/
theorem Placement.addresses (p : Placement) (code : Listing) :
    addressesOf (p.realize code) = addressesOf code := by
  have hinstr : ∀ i : Instr, addressesOf (p.realizeInstr i) = i.address?.toList := by
    intro i
    have hloads : addressesOf (p.loadsOf i) = [] := addressesOf_of_none fun j hj => by
      obtain ⟨e, -, rfl⟩ := List.mem_map.1 hj
      rfl
    have hstores : addressesOf (p.storesOf i) = [] := addressesOf_of_none fun j hj => by
      unfold storesOf at hj
      split at hj
      · obtain rfl := List.mem_singleton.1 hj
        rfl
      · cases hj
    have hsame : (i.mapRegs p.target (p.source (p.loadedOf i))).address? = i.address? := by
      cases i <;> rfl
    rw [realizeInstr_eq, addressesOf_append, addressesOf_cons, hloads, hstores, hsame,
      List.nil_append, List.append_nil]
  induction code with
  | nil => rfl
  | cons i code ih =>
    have hsplit : p.realize (i :: code) = p.realizeInstr i ++ p.realize code := rfl
    rw [hsplit, addressesOf_append, hinstr, ih, addressesOf_cons]

theorem addressesOf_block (f : NamedFunction) (lf : LoweredFunction) (s : Supply) (a : Allocation) :
    addressesOf (blockOf f lf s a) = addressesOf a.code := by
  have henter : addressesOf (frameOf s a).enter = [] := addressesOf_of_none fun i hi => by
    rw [StackFrame.enter, List.mem_append, List.mem_map] at hi
    rcases hi with hi | ⟨e, -, rfl⟩
    · simp only [List.mem_cons, List.not_mem_nil, or_false] at hi
      rcases hi with rfl | rfl <;> rfl
    · rfl
  have hleave : addressesOf (frameOf s a).leave = [] := addressesOf_of_none fun i hi => by
    rw [StackFrame.leave, List.mem_append, List.mem_map] at hi
    rcases hi with ⟨e, -, rfl⟩ | hi
    · rfl
    · simp only [List.mem_cons, List.not_mem_nil, or_false] at hi
      rcases hi with rfl | rfl | rfl <;> rfl
  simp [blockOf, henter, hleave]

end Listings

/-! ### Places -/

/-- The function whose address is taken at a place: the place reads a name that has no word and
means the function. -/
def Place.taken? (functions : List String) (path : String) (q : Place) : Option String :=
  match q.expr with
  | .var _ n => if n ∈ q.names.held then none else resolveName functions path n
  | _ => none

/-- The functions whose addresses are taken at places, one after the other. -/
def takenAt (c : LowerContext) (qs : List Place) : List String :=
  qs.filterMap (Place.taken? c.functions c.path)

@[simp] theorem takenAt_nil (c : LowerContext) : takenAt c [] = [] := rfl

@[simp] theorem takenAt_append (c : LowerContext) (qs qs' : List Place) :
    takenAt c (qs ++ qs') = takenAt c qs ++ takenAt c qs' :=
  List.filterMap_append

theorem takenAt_cons {c : LowerContext} {q : Place} (h : q.taken? c.functions c.path = none)
    (qs : List Place) : takenAt c (q :: qs) = takenAt c qs := List.filterMap_cons_none h

section Lowered

variable {c : LowerContext}

theorem taken_var {k : Names} {slots : Slots} (hk : slots.Has k.held) {i : Nat} {loc : Location}
    {n : String} {depth : Nat} {s s' : Supply} {code : Listing} {r : Reg}
    (h : Gives (lowerExpr c slots depth (.var loc n)) s (code, r) s') :
    addressesOf code = (takenAt c [⟨i, .var loc n, k⟩]).map functionLabel := by
  obtain ⟨-, -, ⟨o, ho, rfl⟩ | ⟨hnone, l, hl, rfl⟩⟩ := gives_var h
  · have hheld : n ∈ k.held := hk.mem_of_lookup ho
    rw [takenAt_cons (by simp [Place.taken?, hheld])]
    rfl
  · have hfree : n ∉ k.held := (hk n).1 hnone
    rw [functionLabel?_eq] at hl
    obtain ⟨q, hq, rfl⟩ := Option.map_eq_some_iff.1 hl
    have htaken : Place.taken? c.functions c.path ⟨i, .var loc n, k⟩ = some q := by
      simpa [Place.taken?, hfree] using hq
    rw [takenAt, List.filterMap_cons_some htaken]
    rfl

mutual

/-- The code of an expression takes the addresses that are taken at its places. -/
theorem Expr.addresses : ∀ (e : Expr) {k : Names} {slots : Slots} {depth : Nat} {s s' : Supply}
    {code : Listing} {r : Reg},
    slots.Has k.held → Gives (lowerExpr c slots depth e) s (code, r) s' →
      ∀ i, addressesOf code = (takenAt c (e.places k i)).map functionLabel
  | .var .., _, _, _, _, _, _, _, hk, h, _ => by
    rw [Expr.places]
    exact taken_var hk h
  | .uint .., _, _, _, _, _, _, _, _, h, _ | .int .., _, _, _, _, _, _, _, _, h, _
  | .bool .., _, _, _, _, _, _, _, _, h, _
  | .eraser _, _, _, _, _, _, _, _, _, h, _ => by
    obtain ⟨rfl, -⟩ := gives_literal rfl h
    rfl
  | .binOp _ _ a b, _, _, _, _, _, _, _, hk, h, i => by
    obtain ⟨-, ac, ar, s₁, bc, br, s₂, oc, ha, hb, ho, rfl⟩ := gives_binOp h
    have hoc : addressesOf oc = [] := by
      obtain ⟨-, ⟨-, rfl, -⟩ | ⟨-, rfl, -⟩⟩ :=
        gives_operator ho <;> exact addressesOf_operatorCode ..
    rw [Expr.places, takenAt_cons rfl]
    simp [a.addresses hk ha (i + 1), b.addresses hk hb (i + 1 + a.nodeCount), hoc]
  | .call _ f args named, _, _, _, _, _, _, _, hk, h, i => by
    obtain ⟨rfl, -, vloc, n, l, ac, rs, s₁, rfl, -, -, hargs, -, -, rfl⟩ := gives_call h
    rw [Expr.places, takenAt_cons rfl]
    simp [Expr.isName, namedPlaces,
      args_addresses args hk hargs (i + 1 + (Expr.var vloc n).nodeCount)]
  | .ifElse _ x a b, _, _, _, _, _, _, _, hk, h, i => by
    obtain ⟨xc, xr, s₁, ac, ar, s₂, bc, br, hx, ha, hb, -, rfl⟩ := gives_ifElse h
    rw [Expr.places, takenAt_cons rfl]
    simp [x.addresses hk hx (i + 1), a.addresses hk ha (i + 1 + x.nodeCount),
      b.addresses hk hb (i + 1 + x.nodeCount + a.nodeCount)]
  | .matchOn _ x cases, _, _, _, _, _, _, _, hk, h, i => by
    obtain ⟨xc, xr, s₁, body, hx, hcases, -, rfl⟩ := gives_matchOn h
    rw [Expr.places, takenAt_cons rfl]
    simp [x.addresses hk hx (i + 1), cases_addresses cases hk hcases (i + 1 + x.nodeCount)]
  | .tuple .., _, _, _, _, _, _, _, _, h, _ | .list .., _, _, _, _, _, _, _, _, h, _
  | .lambda .., _, _, _, _, _, _, _, _, h, _
  | .access .., _, _, _, _, _, _, _, _, h, _ | .float .., _, _, _, _, _, _, _, _, h, _
  | .str .., _, _, _, _, _, _, _, _, h, _
  | .missing, _, _, _, _, _, _, _, _, h, _ => absurd (shape_of_gives h) (by simp [literal?])
termination_by e => sizeOf e
decreasing_by
  all_goals simp only [Expr.binOp.sizeOf_spec, Expr.call.sizeOf_spec, Expr.ifElse.sizeOf_spec,
    Expr.matchOn.sizeOf_spec]
  all_goals omega

theorem args_addresses :
    ∀ (es : List Expr) {k : Names} {slots : Slots} {depth : Nat} {s s' : Supply} {code : Listing}
      {rs : List Reg}, slots.Has k.held → Gives (lowerArgs c slots depth es) s (code, rs) s' →
        ∀ i, addressesOf code = (takenAt c (exprsPlaces k i es)).map functionLabel
  | [], _, _, _, _, _, _, _, _, h, _ => by
    obtain ⟨rfl, -⟩ := gives_args_nil h
    rfl
  | e :: es, _, _, _, _, _, _, _, hk, h, i => by
    obtain ⟨ec, er, s₁, rest, rs', he, hes, rfl, -⟩ := gives_args_cons h
    rw [exprsPlaces]
    simp [e.addresses hk he i, args_addresses es hk hes (i + e.nodeCount)]
termination_by es => sizeOf es
decreasing_by
  all_goals simp only [List.cons.sizeOf_spec]
  all_goals omega

theorem cases_addresses :
    ∀ (cs : List Case) {k : Names} {slots : Slots} {depth : Nat} {s s' : Supply} {code : Listing}
      {x d : Reg} {l : String}, slots.Has k.held →
      Gives (lowerCases c slots depth x d l cs) s code s' →
      ∀ i, addressesOf code = (takenAt c (casesPlaces k i cs)).map functionLabel
  | [], _, _, _, _, _, _, _, _, _, _, h, _ => by
    obtain ⟨rfl, -⟩ := gives_cases_nil h
    rfl
  | .mk _ p body :: cs, k, _, _, _, _, _, _, _, _, hk, h, i => by
    obtain ⟨test, inner, s₁, bc, br, s₂, others, hp, hbody, hcs, rfl⟩ := gives_cases_cons h
    have hpattern : addressesOf test = (takenAt c (p.places k i)).map functionLabel ∧
      inner.Has (p.names k).held := by
      obtain ⟨_, v, vc, vr, rfl, hv, rfl, rfl⟩ | ⟨_, n, rfl, -, rfl, rfl⟩ | ⟨_, rfl, -, rfl, rfl⟩ :=
        gives_pattern hp
      · refine ⟨?_, hk⟩
        rw [Pattern.places, addressesOf_append, v.addresses hk hv i]
        exact List.append_nil _
      · exact ⟨rfl, hk.cons n _⟩
      · exact ⟨rfl, hk⟩
    rw [casesPlaces]
    simp [hpattern.1, body.addresses hpattern.2 hbody (i + p.nodeCount),
      cases_addresses cs hk hcs (i + p.nodeCount + body.nodeCount)]
termination_by cs => sizeOf cs
decreasing_by
  all_goals subst_vars
  all_goals simp only [List.cons.sizeOf_spec, Case.mk.sizeOf_spec, Pattern.lit.sizeOf_spec]
  all_goals omega

end

/-! ### Statements -/

mutual

/-- The code of a statement takes the addresses that are taken at its places. -/
theorem Stmt.addresses :
    ∀ (st : Stmt) {k : Names} {slots slots' : Slots} {depth : Nat} {last : Bool} {s s' : Supply}
      {code : Listing}, slots.Has k.held →
      Gives (lowerStmt c slots depth last st) s (code, slots') s' →
      ∀ i, addressesOf code = (takenAt c (st.places k i)).map functionLabel
  | .ret _ x, _, _, _, _, last, _, _, _, hk, h, i => by
    obtain ⟨rest, hnoted, -, hrest⟩ := gives_noted_ret h
    have hleave : addressesOf (leaving c last) = [] := by cases last <;> rfl
    rw [hnoted.addresses]
    obtain ⟨rfl, -, rfl⟩ | ⟨e, xc, xr, rfl, he, rfl⟩ := gives_return hrest
    · simp [Stmt.places, hleave]
    · rw [Stmt.places]
      simp [e.addresses hk he i, hleave]
  | .assign _ _ _ e, _, _, _, _, _, _, _, _, hk, h, i => by
    obtain ⟨rest, hnoted, hrest⟩ := gives_noted_assign h
    obtain ⟨xc, xr, s₁, o, he, ho, rfl⟩ := gives_store hrest
    rw [hnoted.addresses, Stmt.places]
    simp [e.addresses hk he i]
  | .use _ _ e, _, _, _, _, _, _, _, _, hk, h, i => by
    obtain ⟨rest, hnoted, hrest⟩ := gives_noted_use h
    obtain ⟨xc, xr, s₁, o, he, ho, rfl⟩ := gives_store hrest
    rw [hnoted.addresses, Stmt.places]
    simp [e.addresses hk he i]
  | .expr _ e, _, _, _, _, _, _, _, _, hk, h, i => by
    obtain ⟨rfl, xc, xr, hnoted, he⟩ := gives_noted_exprStmt h
    rw [hnoted.addresses, Stmt.places]
    exact e.addresses hk he i
  | .ifThen _ x _ a, _, _, _, _, _, _, _, _, hk, h, i => by
    obtain ⟨xc, xr, s₁, ac, hx, ha, hnoted⟩ := gives_noted_ifThen h
    rw [hnoted.addresses, Stmt.places]
    simp [x.addresses hk hx i, stmts_addresses a hk ha (i + x.nodeCount)]
  | .ifElse _ x _ a _ b, _, _, _, _, _, _, _, _, hk, h, i => by
    obtain ⟨xc, xr, s₁, ac, inner, s₂, bc, hx, ha, hb, hnoted⟩ := gives_noted_ifElse h
    obtain ⟨hka, -⟩ := stmts_lowered_places (i := 0) a hk ha
    rw [hnoted.addresses, Stmt.places]
    simp [x.addresses hk hx i, stmts_addresses a hk ha (i + x.nodeCount),
      stmts_addresses b hka.leave hb (i + x.nodeCount + stmtsNodeCount a)]
  | .missing, _, _, _, _, _, _, _, _, _, h, _ => absurd h not_gives_missing

theorem stmts_addresses : ∀ (ss : List Stmt) {k : Names} {slots slots' : Slots} {depth : Nat}
    {top : Bool} {s s' : Supply} {code : Listing}, slots.Has k.held →
      Gives (lowerStmts c slots depth top ss) s (code, slots') s' →
      ∀ i, addressesOf code = (takenAt c (stmtsPlaces k i ss)).map functionLabel
  | [], _, _, _, _, _, _, _, _, _, h, _ => by
    obtain ⟨rfl, -, -⟩ := gives_stmts_nil h
    rfl
  | st :: ss, _, _, _, _, _, _, _, _, hk, h, i => by
    obtain ⟨sc, inner, s₁, rest, hst, hss, rfl⟩ := gives_stmts_cons h
    obtain ⟨hk₁, -⟩ := st.lowered_places (i := 0) hk hst
    rw [stmtsPlaces]
    simp [st.addresses hk hst i, stmts_addresses ss hk₁ hss (i + st.nodeCount)]

end

theorem params_addresses {ps : List Param} {slots slots' : Slots} {i : Nat} {s s' : Supply}
    {code : Listing} (h : Gives (lowerParams i slots ps) s (code, slots') s') :
    addressesOf code = [] := by
  induction ps generalizing slots i s code with
  | nil =>
    obtain ⟨rfl, -, -⟩ := gives_params_nil h
    rfl
  | cons p ps ih =>
    obtain ⟨rest, hrest, rfl⟩ := gives_params_cons h
    simp [ih hrest]

end Lowered

/-! ### Programs -/

/-- The functions whose addresses a function takes, where its expressions are numbered
from `i` on. -/
def NamedFunction.taken (functions : List String) (i : Nat) (f : NamedFunction) : List String :=
  (f.func.places i).filterMap (Place.taken? functions (pathOf f.name))

/-- The code of a function takes the addresses that are taken at its places. -/
theorem NamedFunction.addresses {opts : CodegenOptions} {functions : List String}
    {f : NamedFunction} {lf : LoweredFunction} {s s' : Supply}
    (h : Gives (lowerFunction opts functions f) s lf s') (i : Nat) :
    addressesOf lf.code = (f.taken functions i).map functionLabel := by
  obtain ⟨-, -, pc, inner, s₁, bc, hparams, hbody, hcode⟩ := gives_function h
  obtain ⟨sc, inner', hstmts, rfl⟩ := gives_body hbody
  have hstart : Slots.Has [] (Names.held ⟨[], []⟩) := fun n => by simp [Names.held]
  have hfalling : addressesOf (falling f.func.body.stmts) = [] := by
    unfold falling
    split <;> rfl
  rw [hcode, addressesOf_append, addressesOf_append, params_addresses hparams, hfalling,
    stmts_addresses f.func.body.stmts (params_has hstart hparams) hstmts i, List.nil_append,
    List.append_nil]
  rfl

theorem generateFunctions_addresses {opts : CodegenOptions} {functions : List String}
    {fs : List NamedFunction} {labels : Nat} {code : Listing}
    (h : generateFunctions opts functions labels fs = .ok code) (i : Nat) :
    addressesOf code = ((numberedFunctions i fs).flatMap fun e => e.2.taken functions e.1).map
      functionLabel := by
  induction fs generalizing labels code i with
  | nil =>
    obtain rfl : [] = code := Except.ok.inj h
    rfl
  | cons f fs ih =>
    obtain ⟨lf, s, a, rest, hcompiles, hrest, rfl⟩ := generateFunctions_cons h
    obtain ⟨hcode, -⟩ := allocate_spec hcompiles.allocated
    rw [addressesOf_append, addressesOf_block, hcode, Placement.addresses,
      NamedFunction.addresses hcompiles.lowered i, ih hrest, numberedFunctions, List.flatMap_cons,
      List.map_append]

/-- **The listing of a program takes an address for every name without a word that is
read, and no other.** -/
theorem Program.addresses {p : Program} {opts : CodegenOptions} {code : Listing}
    (h : p.generate opts = .ok code) : addressesOf code =
      ((numberedFunctions 0 p.functions).flatMap fun e =>
        e.2.taken (p.functions.map (·.name)) e.1).map functionLabel := by
  unfold Program.generate at h
  split at h
  · cases h
  · exact generateFunctions_addresses h 0

/-! ### Types -/

theorem Place.taken?_eq_some {functions : List String} {path name : String} {q : Place}
    (h : q.taken? functions path = some name) :
    ∃ loc n, q.expr = .var loc n ∧ n ∉ q.names.held ∧ resolveName functions path n = some name := by
  unfold Place.taken? at h
  split at h
  · next loc n he =>
    split at h
    · cases h
    · next hfree => exact ⟨loc, n, he, hfree, h⟩
  · cases h

theorem resolveName_eq_some {functions : List String} {path n name : String}
    (h : resolveName functions path n = some name) :
    name ∈ functions ∧ (name = n ∨ n ∉ functions ∧ path ≠ "" ∧ name = path ++ n) := by
  unfold resolveName at h
  split at h
  · next hn =>
    obtain rfl := Option.some.inj h
    exact ⟨by simpa using hn, .inl rfl⟩
  · next hn =>
    split at h
    · next hpath =>
      obtain rfl := Option.some.inj h
      rw [Bool.and_eq_true] at hpath
      exact ⟨by simpa using hpath.2, .inr ⟨by simpa using hn, by simpa using hpath.1, rfl⟩⟩
    · cases h

/-- A name that is a function to the checker has the type of the function. -/
theorem typeOf_function {r : Report} {locals : List Frame} {i : Nat} {loc : Location} {n : String}
    (h : (Expr.var loc n).Typed r locals i) {q : String} {t : Ty} {b : Bool}
    (hn : r.symbol? locals n = some (.function q t b)) : r.types i = some t := by
  rw [Expr.Typed, hn] at h
  obtain ⟨s, u, hs, hu, htype⟩ := h
  obtain rfl := Option.some.inj hs
  obtain rfl : u = t := hu
  exact htype

/-- With parameters, a function has a function type. -/
theorem NamedFunction.Shapes.func {f : NamedFunction} {t : Ty} (h : f.Shapes t)
    (hparams : f.func.params ≠ []) : ∃ a b, t = .func a b := by
  obtain ⟨ps, r, rfl, hlen⟩ := h
  cases ps with
  | nil => exact absurd (List.length_eq_zero_iff.1 hlen.symm) hparams
  | cons p ps => exact ⟨p, Ty.curry ps r, rfl⟩

/-- Addresses are taken for expressions of function types. Take a program that is accepted and for
which code is generated. Its listing takes an address for every place that reads a name without a
word, and no other. The name means a function of the program there; if the checker takes it for the
same function, the expression has the type of that function, which is a function type, unless the
function has no parameters. -/
theorem addresses_typed (p : Program) (o : CheckOptions) (c : Checker) (opts : CodegenOptions)
    (code : Listing) (ho : o.symbols = []) (hcheck : p.check o = (.ok (), c))
    (hgenerate : p.generate opts = .ok code) :
    addressesOf code =
        ((numberedFunctions 0 p.functions).flatMap fun e =>
          e.2.taken (p.functions.map (·.name)) e.1).map functionLabel ∧
      ∀ e ∈ numberedFunctions 0 p.functions, ∀ q ∈ e.2.func.places e.1, ∀ name,
        q.taken? (p.functions.map (·.name)) (pathOf e.2.name) = some name →
          ∃ f ∈ p.functions, f.name = name ∧ ∃ loc n, q.expr = .var loc n ∧
            (n ∈ p.functions.map (·.name) ∨ c.globals.find? n = none ∧
            pathOf e.2.name ++ n ∉ q.names.seen →
              ∃ t, c.typeOf? q.number = some t ∧ f.Shapes t ∧
                (f.func.params ≠ [] → ∃ a b, t = .func a b)) := by
  refine ⟨Program.addresses hgenerate, fun e he q hq name htaken => ?_⟩
  obtain ⟨g, t, start, lf, hf⟩ := compiled_places ho hcheck hgenerate e he
  obtain ⟨locals, slots, hplace⟩ := hf.places q hq
  obtain ⟨loc, n, hexpr, hfree, hresolve⟩ := Place.taken?_eq_some htaken
  obtain ⟨hmem, hname⟩ := resolveName_eq_some hresolve
  obtain ⟨f, hfmem, rfl⟩ := List.mem_map.1 hmem
  refine ⟨f, hfmem, rfl, loc, n, hexpr, fun hagree => ?_⟩
  have hseen : n ∉ q.names.seen := fun hn => hfree (List.mem_append_left _ hn)
  rw [← hf.alike.find?_eq_none n] at hagree
  obtain ⟨u, hu⟩ :=
    (symbol?_eq_function_iff (r := ⟨c.typeOf?, g, pathOf e.2.name⟩) hf.declares hplace.sees hseen
      hfmem hname).2 hagree
  have hshapes := shapes_of_symbol? hf.declares hplace.sees hfmem hu
  exact ⟨u, typeOf_function (hexpr ▸ hplace.typed) hu, hshapes, hshapes.func⟩

/-- A function without parameters. -/
def constantFunction (name : String) : FuncDef where
  loc := {}
  name := name
  params := []
  ret := some (.name {} "u24" [])
  body := ⟨{}, [.ret {} (some (.uint {} 1))]⟩
  checked := true

/-- A function that gives back what a name stands for. -/
def readingFunction (name : String) (ret : Option TypeExpr) : FuncDef where
  loc := {}
  name := "main"
  params := []
  ret := ret
  body := ⟨{}, [.ret {} (some (.var {} name))]⟩
  checked := true

/-- A function and one that gives back what the name of the first one stands for. -/
def readingProgram (f : FuncDef) (ret : Option TypeExpr) : Program :=
  ⟨[], [.func f, .func (readingFunction f.name ret)]⟩

/-- The name of a function with a parameter stands for its address, and has a function type. -/
theorem addresses_typed_reading :
    ∃ c code, (readingProgram (identityFunction "f") none).check {} = (.ok (), c) ∧
      (readingProgram (identityFunction "f") none).generate {} = .ok code ∧
      addressesOf code = ["function.f"] ∧ ∃ a b, c.typeOf? 1 = some (.func a b) := by
  have hcheck :=
    check_eq_of_isOk (p := readingProgram (identityFunction "f") none) (o := {}) (by decide +kernel)
  obtain ⟨code, hgenerate, -⟩ :=
    exists_code (readingProgram (identityFunction "f") none) {} (fun _ => true) (by decide +kernel)
  obtain ⟨haddresses, htyped⟩ := addresses_typed _ _ _ _ _ rfl hcheck hgenerate
  obtain ⟨f, hf, hname, loc, n, hn, h⟩ :=
    htyped (1, ⟨"main", readingFunction "f" none⟩) (List.mem_cons_of_mem _ List.mem_cons_self) ⟨1,
      .var {} "f", ⟨[], []⟩⟩ List.mem_cons_self "f" (by decide +kernel)
  obtain ⟨-, rfl⟩ := Expr.var.inj hn
  obtain ⟨t, ht, -, hfunc⟩ := h (.inl (by decide))
  have hparams : f.func.params ≠ [] := by
    rcases List.mem_cons.1 hf with rfl | hf
    · decide
    · obtain rfl := List.mem_singleton.1 hf
      exact absurd hname (by decide)
  obtain ⟨a, b, rfl⟩ := hfunc hparams
  exact ⟨_, code, hcheck, hgenerate, haddresses.trans (by decide +kernel), a, b, ht⟩

/-- The name of a function without parameters has the type `u24` of the number that a call gives,
but the address is taken. -/
theorem word_is_address :
    ∃ c code,
      (readingProgram (constantFunction "k") (some (.name {} "u24" []))).check {} = (.ok (), c) ∧
      (readingProgram (constantFunction "k") (some (.name {} "u24" []))).generate {} = .ok code ∧
      addressesOf code = ["function.k"] ∧ c.typeOf? 1 = some .u24 := by
  have hcheck :=
    check_eq_of_isOk (p := readingProgram (constantFunction "k") (some (.name {} "u24" [])))
      (o := {}) (by decide +kernel)
  obtain ⟨code, hgenerate, hcode⟩ :=
    exists_code (readingProgram (constantFunction "k") (some (.name {} "u24" []))) {}
      (fun code => decide (addressesOf code = ["function.k"])) (by decide +kernel)
  exact ⟨_, code, hcheck, hgenerate, of_decide_eq_true hcode, by decide +kernel⟩

end FunRiscv
