import Mathlib
import FunRiscv.Proofs.Scope.Resolution

/-!
# How many arguments calls pass

* `Ty.Walks.func_of_lt`, `Ty.Walks.open_of_lt`: passing fewer arguments than a type has
  parameters ends in a function type, and more arguments can only be passed to a result that is a
  function or dynamic.
* `call_arity`: what the numbers of arguments and of parameters can be in a program that is accepted
  and for which code is generated.
* `partial_call_generated`: a call with too few arguments is accepted, and code is generated for it.
-/

namespace FunRiscv

open Lowering

/-! ### Types -/

/-- With fewer arguments than parameters a function is left. -/
theorem Ty.Walks.func_of_lt {ps ts : List Ty} {r last : Ty} (h : (Ty.curry ps r).Walks ts last)
    (hlt : ts.length < ps.length) : ∃ a b, last = .func a b := by
  induction ps generalizing ts with
  | nil => simp at hlt
  | cons p ps ih =>
    cases h with
    | done => exact ⟨p, Ty.curry ps r, rfl⟩
    | func _ h => exact ih h (by simpa using hlt)

/-- More arguments than parameters can be passed only to a result that takes arguments itself. -/
theorem Ty.Walks.open_of_lt {ps ts : List Ty} {r last : Ty} (h : (Ty.curry ps r).Walks ts last)
    (hlt : ps.length < ts.length) : r = .any ∨ ∃ a b, r = .func a b := by
  induction ps generalizing ts with
  | nil =>
    cases h with
    | done => simp at hlt
    | func _ _ => exact .inr ⟨_, _, rfl⟩
    | any _ => exact .inl rfl
  | cons p ps ih =>
    cases h with
    | done => simp at hlt
    | func _ h => exact ih h (by simpa using hlt)

/-! ### Calls -/

theorem length_exprNumbers (i : Nat) (es : List Expr) : (exprNumbers i es).length = es.length := by
  induction es generalizing i with
  | nil => rfl
  | cons e es ih => rw [exprNumbers, List.length_cons, List.length_cons, ih]

/-- The rule of a call of a function without named arguments. -/
theorem walks_of_call {r : Report} {locals : List Frame} {i : Nat} {loc vloc : Location}
    {n : String} {args : List Expr} (h : (Expr.call loc (.var vloc n) args []).Typed r locals i)
    {q : String} {u : Ty} {b : Bool} (hn : r.symbol? locals n = some (.function q u b)) :
    r.types (i + 1) = some u ∧
      ∃ ts last t, ts.length = args.length ∧ u.Walks ts last ∧ r.types i = some t ∧
      (last = t ∨ last = .any) := by
  rw [Expr.Typed] at h
  obtain ⟨hf, -, -, order, ts, callee, last, t, horder, hts, hcallee, hwalks, ht, hlast⟩ := h
  rw [Expr.Typed, hn] at hf
  obtain ⟨s, u', hs, hu', htype⟩ := hf
  obtain rfl := Option.some.inj hs
  obtain rfl : u' = u := hu'
  obtain rfl : u' = callee := Option.some.inj (htype.symm.trans hcallee)
  refine ⟨htype, ts, last, t, ?_, hwalks, ht, hlast⟩
  obtain rfl : exprNumbers _ args = order := Except.ok.inj horder
  rw [← hts.length_eq, length_exprNumbers]

/-- What the numbers of arguments and parameters can be. Take a program that is accepted and for
which code is generated, and a call in one of its functions. The code jumps to a function of the
program. If the checker takes the callee for the same function, then the call passes as many
arguments as the function has parameters, unless it passes fewer and is a function itself, or passes
more and the result of the function is dynamic or a function. -/
theorem call_arity (p : Program) (o : CheckOptions) (c : Checker) (opts : CodegenOptions)
    (code : Listing) (ho : o.symbols = []) (hcheck : p.check o = (.ok (), c))
    (hgenerate : p.generate opts = .ok code) :
    ∀ e ∈ numberedFunctions 0 p.functions,
      ∃ g t start lf, e.2.Compiled opts p c code e.1 g t start lf ∧
        ∀ q ∈ e.2.func.places e.1, ∀ loc f args named, q.expr = .call loc f args named →
        ∃ vloc n, f = .var vloc n ∧
          ∃ callee ∈ p.functions, .jal .ra (functionLabel callee.name) ∈ lf.code ∧
          (contextOf opts (p.functions.map (·.name)) e.2
            (exitLabel { labels := start })).functionLabel? n = some (functionLabel callee.name) ∧
          (n ∈ p.functions.map (·.name) ∨
            c.globals.find? n = none ∧ pathOf e.2.name ++ n ∉ q.names.seen →
            args.length = callee.func.params.length ∨
            (args.length < callee.func.params.length ∧
              ∃ a b, c.typeOf? q.number = some (.func a b)) ∨
            callee.func.params.length < args.length ∧
              ∃ ps r, c.typeOf? (q.number + 1) = some (Ty.curry ps r) ∧
              ps.length = callee.func.params.length ∧ (r = .any ∨ ∃ a b, r = .func a b)) := by
  intro e he
  obtain ⟨g, t, start, lf, hf⟩ := compiled_places ho hcheck hgenerate e he
  refine ⟨g, t, start, lf, hf, fun q hq loc f args named hcall => ?_⟩
  obtain ⟨locals, slots, hplace⟩ := hf.places q hq
  obtain ⟨rfl, vloc, n, l, rfl, hnone, hl, hjump⟩ := hplace.call hcall
  obtain ⟨m, hm, rfl, hname⟩ := functionLabel?_eq_some hl
  obtain ⟨callee, hcallee, rfl⟩ := List.mem_map.1 hm
  refine ⟨vloc, n, rfl, callee, hcallee, hjump, hl, fun hcond => ?_⟩
  have hseen : n ∉ q.names.seen := fun hn => ((hplace.has n).1 hnone) (List.mem_append_left _ hn)
  rw [← hf.alike.find?_eq_none n] at hcond
  obtain ⟨u, hu⟩ :=
    (symbol?_eq_function_iff (r := ⟨c.typeOf?, g, pathOf e.2.name⟩) hf.declares hplace.sees hseen
      hcallee hname).2 hcond
  have htyped := hplace.typed
  rw [hcall] at htyped
  obtain ⟨htype, ts, last, t, hlen, hwalks, ht, hlast⟩ := walks_of_call htyped hu
  obtain ⟨ps, r, rfl, hps⟩ := shapes_of_symbol? hf.declares hplace.sees hcallee hu
  rw [← hlen, ← hps]
  rcases Nat.lt_trichotomy ts.length ps.length with hlt | heq | hgt
  · obtain ⟨a, b, rfl⟩ := hwalks.func_of_lt hlt
    obtain rfl := hlast.resolve_right (by simp)
    exact .inr (.inl ⟨hlt, a, b, ht⟩)
  · exact .inl heq
  · exact .inr (.inr ⟨hgt, ps, r, htype, rfl, hwalks.open_of_lt hgt⟩)

theorem call_arity_neighbour :
    ∃ c code, (neighbourProgram "f").check {} = (.ok (), c) ∧
      (neighbourProgram "f").generate {} = .ok code ∧
      ∃ lf : LoweredFunction, .jal .ra (functionLabel "M/f") ∈ lf.code ∧
      [Expr.uint {} 1].length = (identityFunction "f").params.length := by
  have hcheck : (neighbourProgram "f").check {} = (.ok (), ((neighbourProgram "f").check {}).2) :=
    check_eq_of_isOk (by decide +kernel)
  obtain ⟨code, hgenerate, -⟩ :=
    exists_code (neighbourProgram "f") {} (fun _ => true) (by decide +kernel)
  obtain ⟨g, t, start, lf, hf, hall⟩ :=
    call_arity _ _ _ _ _ rfl hcheck hgenerate (1, ⟨"M/g", callingFunction "f"⟩)
      (List.mem_cons_of_mem _ List.mem_cons_self)
  have hq : (⟨1, .call {} (.var {} "f") [.uint {} 1] [], ⟨[], []⟩⟩ : Place) ∈
    (callingFunction "f").places 1 := List.mem_cons_self
  obtain ⟨vloc, n, hn, callee, hmem, hjump, hlabel, harity⟩ := hall _ hq _ _ _ _ rfl
  obtain ⟨-, rfl⟩ := Expr.var.inj hn
  obtain rfl := neighbour_callee hmem hlabel
  have hfree : (((neighbourProgram "f").check {}).2.globals.find? "f").isNone = true := by
    decide +kernel
  refine ⟨_, code, hcheck, hgenerate, lf, hjump, ?_⟩
  rcases harity (.inr ⟨by simpa using hfree, by simp⟩) with heq | ⟨hlt, -⟩ | ⟨hgt, -⟩
  · exact heq
  · exact absurd hlt (by decide)
  · exact absurd hgt (by decide)

/-- A function of two parameters. -/
def pairFunction : FuncDef where
  loc := {}
  name := "f"
  params := [⟨{}, "a", some (.name {} "u24" [])⟩, ⟨{}, "b", some (.name {} "u24" [])⟩]
  ret := some (.name {} "u24" [])
  body := ⟨{}, [.ret {} (some (.binOp {} .add (.var {} "a") (.var {} "b")))]⟩
  checked := true

/-- A program in which this function is called with one argument. -/
def partialProgram : Program := ⟨[], [.func pairFunction, .func (callingFunction "f")]⟩

/-- The call is accepted, as a function from the second parameter on, and the code jumps to the
function, which keeps the second argument register; but nothing ever writes that register. -/
theorem partial_call_generated :
    ∃ c code, partialProgram.check {} = (.ok (), c) ∧ partialProgram.generate {} = .ok code ∧
    .jal .ra (functionLabel "f") ∈ code ∧ pairFunction.params.length = 2 ∧
    (∃ offset, .store .sw (.arg 1) .sp offset ∈ code) ∧ ∀ i ∈ code, i.dest ≠ .arg 1 := by
  have hcheck : partialProgram.check {} = (.ok (), (partialProgram.check {}).2) :=
    check_eq_of_isOk (by decide +kernel)
  obtain ⟨code, hgenerate, hcode⟩ := exists_code partialProgram {}
    (fun code => decide (.jal .ra (functionLabel "f") ∈ code ∧ .store .sw (.arg 1) .sp 12 ∈ code ∧
      ∀ i ∈ code, i.dest ≠ .arg 1))
    (by decide +kernel)
  obtain ⟨hjump, hstore, hdest⟩ := of_decide_eq_true hcode
  exact ⟨_, code, hcheck, hgenerate, hjump, rfl, ⟨12, hstore⟩, hdest⟩

end FunRiscv
