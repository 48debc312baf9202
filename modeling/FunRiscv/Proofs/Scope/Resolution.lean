import Mathlib
import FunRiscv.Proofs.Scope.Lowered

/-!
# What names mean to the checker and to the generator

* `Place.Mentions`: a place reads or calls a name.
* `Place.Compiled.functionLabel?`: a name without a word is a function to the generator.
* `symbol?_eq_function_iff`: when such a name is the same function to the checker.
* `resolution_alike_iff`: the two agree on every name of a program that is accepted and for which
  code is generated, except where another global name hides a function of the same module.
* `hidden_function_called`: where one does, the generator calls the function that the
  checker does not see.
-/

namespace FunRiscv

open Lowering

/-- A place reads a name or calls it. -/
def Place.Mentions (q : Place) (n : String) : Prop :=
  (∃ loc, q.expr = .var loc n) ∨ ∃ loc vloc args named, q.expr = .call loc (.var vloc n) args named

/-! ### The generator -/

section Generator

variable {r : Report} {c : LowerContext} {code : Listing} {q : Place} {locals : List Frame}
  {slots : Slots}

/-- A call goes to a name that has no word, and jumps to the label of the function
that the name means. -/
theorem Place.Compiled.call (h : q.Compiled r c code locals slots) {loc : Location} {f : Expr}
    {args : List Expr} {named : List NamedArg} (hq : q.expr = .call loc f args named) :
    named = [] ∧ ∃ vloc n l, f = .var vloc n ∧ slots.lookup n = none ∧ c.functionLabel? n = some l ∧
      .jal .ra l ∈ code := by
  obtain ⟨depth, s, part, reg, s', hgives, hpart⟩ := h.lowered
  rw [hq] at hgives
  obtain ⟨hnamed, -, vloc, n, l, ac, rs, s₁, hf, hnone, hl, -, -, -, rfl⟩ := gives_call hgives
  exact ⟨hnamed, vloc, n, l, hf, hnone, hl, hpart.subset (by simp)⟩

/-- A name that has no word is a function to the generator, and its label stands in the code. -/
theorem Place.Compiled.functionLabel? (h : q.Compiled r c code locals slots) {n : String}
    (hq : q.Mentions n) (hn : slots.lookup n = none) :
    ∃ l, c.functionLabel? n = some l ∧ ((∃ d, .la d l ∈ code) ∨ .jal .ra l ∈ code) := by
  obtain ⟨loc, he⟩ | ⟨loc, vloc, args, named, he⟩ := hq
  · obtain ⟨depth, s, part, reg, s', hgives, hpart⟩ := h.lowered
    rw [he] at hgives
    obtain ⟨-, -, ⟨o, ho, -⟩ | ⟨-, l, hl, rfl⟩⟩ := gives_var hgives
    · rw [hn] at ho
      cases ho
    · exact ⟨l, hl, .inl ⟨_, hpart.subset List.mem_cons_self⟩⟩
  · obtain ⟨-, vloc', n', l, hname, -, hl, hjump⟩ := h.call he
    obtain ⟨-, rfl⟩ := Expr.var.inj hname
    exact ⟨l, hl, .inr hjump⟩

end Generator

/-- A label that a name means is that of a function: one of that name, or else one in
the same module. -/
theorem functionLabel?_eq_some {c : LowerContext} {n l : String} (h : c.functionLabel? n = some l) :
    ∃ q ∈ c.functions, l = functionLabel q ∧
      (q = n ∨ n ∉ c.functions ∧ c.path ≠ "" ∧ q = c.path ++ n) := by
  unfold LowerContext.functionLabel? at h
  split at h
  · next hn => exact ⟨n, by simpa using hn, (Option.some.inj h).symm, .inl rfl⟩
  · next hn =>
    split at h
    · next hpath =>
      rw [Bool.and_eq_true] at hpath
      exact ⟨c.path ++ n, by simpa using hpath.2, (Option.some.inj h).symm,
        .inr ⟨by simpa using hn, by simpa using hpath.1, rfl⟩⟩
    · cases h

/-! ### The checker -/

section Checker

variable {fs : List NamedFunction} {g : Frame} {locals : List Frame} {seen : List String}
  {n : String}

/-- Below the local frames a name is looked up among the global ones. -/
theorem findIn?_globals (hsees : Sees locals seen) (hn : n ∉ seen) :
    findIn? (locals ++ [g]) n = g.find? n := by
  have hnone := hsees.free n hn
  unfold findIn? at hnone ⊢
  rw [List.findSome?_append, hnone, Option.none_or, List.findSome?_singleton]

theorem findIn?_local (hsees : Sees locals seen) (hn : n ∈ seen) :
    ∃ t, findIn? (locals ++ [g]) n = some (.variable n t) := by
  obtain ⟨t, ht⟩ := hsees.bound n hn
  refine ⟨t, ?_⟩
  unfold findIn? at ht ⊢
  rw [List.findSome?_append, ht, Option.some_or]

/-- A name that is no local variable and that the generator takes for a function is that function to
the checker, unless it is no function as written and stands for something else. -/
theorem symbol?_eq_function_iff {r : Report} (hdeclares : r.globals.Declares fs)
    (hsees : Sees locals seen) (hn : n ∉ seen) {f : NamedFunction} (hf : f ∈ fs)
    (hname : f.name = n ∨ n ∉ fs.map (·.name) ∧ r.path ≠ "" ∧ f.name = r.path ++ n) :
    (∃ t, r.symbol? locals n = some (.function f.name t true)) ↔
      n ∈ fs.map (·.name) ∨ r.globals.find? n = none ∧ r.path ++ n ∉ seen := by
  obtain ⟨t, ht⟩ := hdeclares.complete f hf
  unfold Report.symbol? symbolIn?
  rw [findIn?_globals hsees hn]
  rcases hname with rfl | ⟨hother, hpath, hname⟩
  · rw [ht]
    exact iff_of_true ⟨t, rfl⟩ (.inl (List.mem_map_of_mem hf))
  cases hfound : r.globals.find? n with
  | some s =>
    -- What the name stands for as written is no function.
    refine iff_of_false ?_ (by simp [hother])
    rintro ⟨u, hu⟩
    rw [Option.some.inj hu] at hfound
    obtain ⟨-, f', hf', hname', -⟩ := hdeclares.sound hfound
    exact hother (List.mem_map.2 ⟨f', hf', hname'⟩)
  | none =>
    have hempty : r.path.isEmpty = false := by simpa using hpath
    simp only [hempty, Bool.false_eq_true, if_false, hother, false_or, true_and]
    by_cases hseen : r.path ++ n ∈ seen
    · obtain ⟨u, hu⟩ := findIn?_local (g := r.globals) hsees hseen
      simp [hu, hseen]
    · rw [findIn?_globals hsees hseen, ← hname, ht]
      simp [hname ▸ hseen]

/-- What is a function to the checker is one of the program, with as many parameters. -/
theorem shapes_of_symbol? {r : Report} (hdeclares : r.globals.Declares fs)
    (hsees : Sees locals seen) {f : NamedFunction} (hf : f ∈ fs) {t : Ty} {b : Bool}
    (h : r.symbol? locals n = some (.function f.name t b)) : f.Shapes t := by
  -- A function is not found among local variables, so it is found among the global names.
  have hglobal : ∃ m, r.globals.find? m = some (.function f.name t b) := by
    obtain ⟨m, hm⟩ : ∃ m, findIn? (locals ++ [r.globals]) m = some (.function f.name t b) := by
      unfold Report.symbol? symbolIn? at h
      split at h
      · next hfound => exact ⟨n, h ▸ hfound⟩
      · split at h
        · cases h
        · exact ⟨_, h⟩
    by_cases hseen : m ∈ seen
    · obtain ⟨u, hu⟩ := findIn?_local (g := r.globals) hsees hseen
      rw [hm] at hu
      cases hu
    · exact ⟨m, (findIn?_globals hsees hseen).symm.trans hm⟩
  obtain ⟨m, hm⟩ := hglobal
  obtain ⟨hname, f', hf', hname', hshapes⟩ := hdeclares.sound hm
  rwa [List.inj_on_of_nodup_map hdeclares.nodup hf' hf (hname'.trans hname.symm)] at hshapes

end Checker

theorem Frame.Alike.find?_eq_none {g g' : Frame} (h : g.Alike g') (n : String) :
    g.find? n = none ↔ g'.find? n = none := by
  rcases h n with heq | ⟨q, t, t', hg, hg'⟩
  · rw [heq]
  · simp [hg, hg']

/-! ### Both -/

/-- The checker and the generator agree on names. Take a program that is accepted and for which code
is generated, and a name that is read or called in one of its functions, where the generator has no
word of that name. Then the generator takes it for a function of the program, and the checker takes
it for the same function if and only if the name as written is a function's, or else stands for
nothing at all and no local variable has the qualified name. -/
theorem resolution_alike_iff (p : Program) (o : CheckOptions) (c : Checker) (opts : CodegenOptions)
    (code : Listing) (ho : o.symbols = []) (hcheck : p.check o = (.ok (), c))
    (hgenerate : p.generate opts = .ok code) :
    ∀ e ∈ numberedFunctions 0 p.functions,
      ∃ g t start lf, e.2.Compiled opts p c code e.1 g t start lf ∧
        ∀ q ∈ e.2.func.places e.1, ∀ locals slots,
        q.Compiled ⟨c.typeOf?, g, pathOf e.2.name⟩ (contextOf opts (p.functions.map (·.name)) e.2
          (exitLabel { labels := start }))
          lf.code locals slots →
        ∀ n, q.Mentions n → slots.lookup n = none → ∃ f ∈ p.functions,
          (contextOf opts (p.functions.map (·.name)) e.2
            (exitLabel { labels := start })).functionLabel? n = some (functionLabel f.name) ∧
          ((∃ u, Report.symbol? ⟨c.typeOf?, g, pathOf e.2.name⟩ locals n =
            some (.function f.name u true)) ↔
            n ∈ p.functions.map (·.name) ∨ c.globals.find? n = none ∧
              pathOf e.2.name ++ n ∉ q.names.seen) := by
  intro e he
  obtain ⟨g, t, start, lf, hf⟩ := compiled_places ho hcheck hgenerate e he
  refine ⟨g, t, start, lf, hf, fun q hq locals slots hplace n hmention hnone => ?_⟩
  obtain ⟨l, hl, -⟩ := hplace.functionLabel? hmention hnone
  obtain ⟨m, hm, hlm, hname⟩ := functionLabel?_eq_some hl
  obtain ⟨f, hmem, rfl⟩ := List.mem_map.1 hm
  refine ⟨f, hmem, hl.trans (congrArg some hlm), ?_⟩
  have hseen : n ∉ q.names.seen := fun hn => ((hplace.has n).1 hnone) (List.mem_append_left _ hn)
  rw [← hf.alike.find?_eq_none n]
  exact symbol?_eq_function_iff (r := ⟨c.typeOf?, g, pathOf e.2.name⟩) hf.declares hplace.sees
    hseen hmem hname

/-- A function that gives back its parameter. -/
def identityFunction (name : String) : FuncDef where
  loc := {}
  name := name
  params := [⟨{}, "x", some (.name {} "u24" [])⟩]
  ret := some (.name {} "u24" [])
  body := ⟨{}, [.ret {} (some (.var {} "x"))]⟩
  checked := true

/-- A function that calls another one. -/
def callingFunction (callee : String) : FuncDef where
  loc := {}
  name := "g"
  params := []
  ret := none
  body := ⟨{}, [.ret {} (some (.call {} (.var {} callee) [.uint {} 1] []))]⟩
  checked := true

/-- A module in which a function calls its neighbour by its short name. -/
def neighbourProgram (n : String) : Program :=
  ⟨[], [.module {} "M" [.func (identityFunction n), .func (callingFunction n)]]⟩

/-- The neighbour that the generator takes the name for. -/
theorem neighbour_callee {f : NamedFunction} (hf : f ∈ (neighbourProgram "f").functions)
    {exit : String}
    (h : (contextOf {} ((neighbourProgram "f").functions.map (·.name)) ⟨"M/g", callingFunction "f"⟩
      exit).functionLabel? "f" = some (functionLabel f.name)) :
    f = ⟨"M/f", identityFunction "f"⟩ := by
  have hresolve : resolveName ["M/f", "M/g"] (pathOf "M/g") "f" = some "M/f" := by decide +kernel
  rw [functionLabel?_eq] at h
  have hlabel : functionLabel "M/f" = functionLabel f.name :=
    Option.some.inj ((congrArg _ hresolve).symm.trans h)
  have hother : functionLabel "M/f" ≠ functionLabel "M/g" := by decide +kernel
  rcases List.mem_cons.1 hf with rfl | hf
  · rfl
  · obtain rfl := List.mem_singleton.1 hf
    exact absurd hlabel hother

theorem resolution_alike_neighbour : ∃ c code, (neighbourProgram "f").check {} = (.ok (), c) ∧
    (neighbourProgram "f").generate {} = .ok code ∧
      ∃ g locals u, g.Alike c.globals ∧ Sees locals [] ∧
      Report.symbol? ⟨c.typeOf?, g, "M/"⟩ locals "f" = some (.function "M/f" u true) := by
  have hcheck : (neighbourProgram "f").check {} = (.ok (), ((neighbourProgram "f").check {}).2) :=
    check_eq_of_isOk (by decide +kernel)
  obtain ⟨code, hgenerate, -⟩ :=
    exists_code (neighbourProgram "f") {} (fun _ => true) (by decide +kernel)
  obtain ⟨g, t, start, lf, hf, hall⟩ :=
    resolution_alike_iff _ _ _ _ _ rfl hcheck hgenerate (1, ⟨"M/g", callingFunction "f"⟩)
      (List.mem_cons_of_mem _ List.mem_cons_self)
  have hq : (⟨1, .call {} (.var {} "f") [.uint {} 1] [], ⟨[], []⟩⟩ : Place) ∈
    (callingFunction "f").places 1 := List.mem_cons_self
  obtain ⟨locals, slots, hplace⟩ := hf.places _ hq
  have hnone : slots.lookup "f" = none := (hplace.has "f").2 (by simp [Names.held])
  obtain ⟨f, hmem, hlabel, hiff⟩ := hall _ hq locals slots hplace "f" (.inr ⟨_, _, _, _, rfl⟩) hnone
  have hfree : (((neighbourProgram "f").check {}).2.globals.find? "f").isNone = true := by
    decide +kernel
  obtain rfl := neighbour_callee hmem hlabel
  obtain ⟨u, hu⟩ := hiff.2 (.inr ⟨by simpa using hfree, by simp⟩)
  exact ⟨_, code, hcheck, hgenerate, g, locals, u, hf.alike, hplace.sees, hu⟩

/-- The module under an object that has the name of the function. -/
def hiddenProgram : Program :=
  ⟨[], .object ⟨{}, "Foo", [], [⟨{}, "a", .name {} "u24" []⟩], []⟩ :: (neighbourProgram "Foo").defs⟩

/-- The name that is called has number 2. To the checker it is the constructor of the object, but
the code calls the function. -/
theorem hidden_function_called :
    ∃ c code, hiddenProgram.check {} = (.ok (), c) ∧ hiddenProgram.generate {} = .ok code ∧
      .jal .ra (functionLabel "M/Foo") ∈ code ∧ c.typeOf? 2 = some (.func .u24 (.named "Foo" [])) ∧
      ∀ u b, Report.symbol? ⟨c.typeOf?, c.globals, "M/"⟩ [[]] "Foo" ≠
        some (.function "M/Foo" u b) := by
  have hcheck : hiddenProgram.check {} = (.ok (), (hiddenProgram.check {}).2) :=
    check_eq_of_isOk (by decide +kernel)
  obtain ⟨code, hgenerate, hcall⟩ := exists_code hiddenProgram {}
    (fun code => decide (.jal .ra (functionLabel "M/Foo") ∈ code)) (by decide +kernel)
  refine ⟨_, code, hcheck, hgenerate, of_decide_eq_true hcall, by decide +kernel, fun u b h => ?_⟩
  have hconstructor :
    ((Report.symbol? ⟨(hiddenProgram.check {}).2.typeOf?, (hiddenProgram.check {}).2.globals, "M/"⟩
      [[]] "Foo").bind Symbol.constructor?).isSome = true := by decide +kernel
  rw [h] at hconstructor
  cases hconstructor

end FunRiscv
