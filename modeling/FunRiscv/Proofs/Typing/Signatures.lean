import Mathlib
import FunRiscv.Proofs.Typing.Declarations
import FunRiscv.Proofs.Typing.Recording

/-!
# Signatures are resolved twice

The annotations of a function are resolved when its signature is declared, under the path where it
stands, and once more when it is checked, under what qualifies its name. In between the table gets
the other functions.

* `Frame.Gains`: a table got functions under new names. `declareAll?_gains`: the round of
  signatures does nothing else.
* `NamedFunction.Means`: what the annotations of a function mean to a checker. `Program.Declares`:
  what they mean when it is declared.
* `annotations_resolved_again`: where both resolutions see the same path, they agree unless a
  function hides one of the types.
* `method_resolved_otherwise`: a method of an object in a module is checked under another path than
  it is declared under.
-/

namespace FunRiscv

open Checking

/-! ### Annotations -/

/-- The annotations of a function. -/
def FuncDef.annotations (d : FuncDef) : List TypeExpr := d.params.filterMap (·.type) ++ d.ret.toList

/-- The names in the annotations of a function. -/
def FuncDef.typeNames (d : FuncDef) : List String := typesNames d.annotations

theorem typesNames_eq_flatMap (es : List TypeExpr) : typesNames es = es.flatMap TypeExpr.names := by
  induction es with
  | nil => rfl
  | cons e es ih => rw [typesNames, ih, List.flatMap_cons]

theorem mem_typeNames {d : FuncDef} {n : String} :
    n ∈ d.typeNames ↔ (∃ p ∈ d.params, ∃ e ∈ p.type, n ∈ e.names) ∨ ∃ e ∈ d.ret, n ∈ e.names := by
  rw [FuncDef.typeNames, typesNames_eq_flatMap, FuncDef.annotations, List.flatMap_append,
    List.mem_append]
  refine or_congr ?_ ?_
  · simp only [List.mem_flatMap, List.mem_filterMap, Option.mem_def]
    exact ⟨fun ⟨e, ⟨p, hp, he⟩, hn⟩ => ⟨p, hp, e, he, hn⟩, fun ⟨p, hp, e, he, hn⟩ =>
      ⟨e, ⟨p, hp, he⟩, hn⟩⟩
  · simp

section Meaning

variable {find find' : String → Option Symbol}

theorem mapM_mono {α β : Type} {f g : α → Option β} {xs : List α} {ys : List β}
    (h : ∀ x ∈ xs, ∀ y, f x = some y → g x = some y) (hys : xs.mapM f = some ys) :
    xs.mapM g = some ys := by
  induction xs generalizing ys with
  | nil => exact hys
  | cons x xs ih =>
    rw [List.forall_mem_cons] at h
    rw [List.mapM_cons] at hys ⊢
    obtain ⟨y, hy, hys⟩ := Option.bind_eq_some_iff.1 hys
    obtain ⟨zs, hzs, hys⟩ := Option.bind_eq_some_iff.1 hys
    rw [h.1 y hy, ih h.2 hzs]
    exact hys

theorem paramMeanings?_mono {ps : List Param} {ts : List Ty}
    (h : ∀ p ∈ ps, ∀ e ∈ p.type, NamesKept find find' e.names)
    (hts : paramMeanings? find ps = some ts) : paramMeanings? find' ps = some ts := by
  refine mapM_mono (fun p hp t ht => ?_) hts
  cases hannotated : p.type with
  | none => rwa [hannotated] at ht
  | some e =>
    rw [hannotated] at ht
    exact e.meaning?_mono (h p hp e hannotated) ht

theorem FuncDef.resultMeaning?_mono {d : FuncDef} {r : Option Ty}
    (h : ∀ e ∈ d.ret, NamesKept find find' e.names) (hr : d.resultMeaning? find = some r) :
    d.resultMeaning? find' = some r := by
  unfold FuncDef.resultMeaning? at hr ⊢
  cases hret : d.ret with
  | none => rwa [hret] at hr
  | some e =>
    rw [hret] at hr
    obtain ⟨t, ht, rfl⟩ := Option.map_eq_some_iff.1 hr
    exact Option.map_eq_some_iff.2 ⟨t, e.meaning?_mono (h e hret) ht, rfl⟩

/-- Annotations keep their meaning under a table that has the same types behind their names. -/
theorem FuncDef.meaning?_mono {d : FuncDef} {m : List Ty × Option Ty}
    (h : NamesKept find find' d.typeNames) (hm : d.meaning? find = some m) :
    d.meaning? find' = some m := by
  rw [FuncDef.meaning?_eq_some] at hm ⊢
  refine ⟨paramMeanings?_mono (fun p hp e he => h.mono fun n hn => ?_) hm.1,
    FuncDef.resultMeaning?_mono (fun e he => h.mono fun n hn => ?_) hm.2⟩
  · exact mem_typeNames.2 (.inl ⟨p, hp, e, he, hn⟩)
  · exact mem_typeNames.2 (.inr ⟨e, he, hn⟩)

mutual

/-- Where a written type without parameters has a meaning, each name in it stands for a type. -/
theorem TypeExpr.types_of_meaning? :
    ∀ (e : TypeExpr) {t : Ty}, e.meaning? find [] = some t →
      ∀ n ∈ e.names, ∃ s, find n = some (.type s)
  | .name _ n args, t, ht, m, hm => by
    rw [TypeExpr.meaning?, if_neg (by simp)] at ht
    obtain ⟨ts, hts, ht⟩ := Option.bind_eq_some_iff.1 ht
    rw [TypeExpr.names] at hm
    rcases List.mem_cons.1 hm with rfl | hm
    · unfold typeNamed? at ht
      split at ht
      · next s hs => exact ⟨s, hs⟩
      · cases ht
    · exact TypeExpr.types_of_meanings? args hts m hm
  | .func _ p r, t, ht, m, hm => by
    rw [TypeExpr.meaning?] at ht
    obtain ⟨tp, hp, ht⟩ := Option.bind_eq_some_iff.1 ht
    obtain ⟨tr, hr, -⟩ := Option.map_eq_some_iff.1 ht
    rw [TypeExpr.names] at hm
    exact (List.mem_append.1 hm).elim (p.types_of_meaning? hp m) (r.types_of_meaning? hr m)
  | .tuple _ elems, t, ht, m, hm => by
    rw [TypeExpr.meaning?] at ht
    obtain ⟨ts, hts, -⟩ := Option.map_eq_some_iff.1 ht
    exact TypeExpr.types_of_meanings? elems hts m hm
  | .missing, t, ht, m, hm => by
    rw [TypeExpr.meaning?] at ht
    cases ht

theorem TypeExpr.types_of_meanings? :
    ∀ (es : List TypeExpr) {ts : List Ty}, TypeExpr.meanings? find [] es = some ts →
      ∀ n ∈ typesNames es, ∃ s, find n = some (.type s)
  | [], _, _, n, hn => by
    rw [typesNames] at hn
    cases hn
  | e :: es, ts, hts, n, hn => by
    rw [TypeExpr.meanings?] at hts
    obtain ⟨t, ht, hts⟩ := Option.bind_eq_some_iff.1 hts
    obtain ⟨us, hus, -⟩ := Option.map_eq_some_iff.1 hts
    rw [typesNames] at hn
    exact (List.mem_append.1 hn).elim (e.types_of_meaning? ht n)
      (TypeExpr.types_of_meanings? es hus n)

end

theorem mapM_some_of_mem {α β : Type} {f : α → Option β} {xs : List α} {ys : List β}
    (h : xs.mapM f = some ys) {x : α} (hx : x ∈ xs) : ∃ y, f x = some y := by
  induction xs generalizing ys with
  | nil => cases hx
  | cons z xs ih =>
    rw [List.mapM_cons] at h
    obtain ⟨y, hy, h⟩ := Option.bind_eq_some_iff.1 h
    obtain ⟨zs, hzs, -⟩ := Option.bind_eq_some_iff.1 h
    rcases List.mem_cons.1 hx with rfl | hx
    · exact ⟨y, hy⟩
    · exact ih hzs hx

/-- Where the annotations of a function have a meaning, each name in them stands for a type. -/
theorem FuncDef.types_of_meaning? {d : FuncDef} {m : List Ty × Option Ty}
    (hm : d.meaning? find = some m) : ∀ n ∈ d.typeNames, ∃ s, find n = some (.type s) := by
  obtain ⟨hparams, hresult⟩ := FuncDef.meaning?_eq_some.1 hm
  intro n hn
  rcases mem_typeNames.1 hn with ⟨p, hp, e, he, hn⟩ | ⟨e, he, hn⟩
  · obtain ⟨t, ht⟩ := mapM_some_of_mem hparams hp
    rw [Option.mem_def.1 he] at ht
    exact e.types_of_meaning? ht n hn
  · rw [FuncDef.resultMeaning?, Option.mem_def.1 he] at hresult
    obtain ⟨t, ht, -⟩ := Option.map_eq_some_iff.1 hresult
    exact e.types_of_meaning? ht n hn

end Meaning

/-! ### What the round of signatures adds -/

/-- A table got functions under new names. -/
def Frame.Gains (names : List String) (G G' : Frame) : Prop :=
  ∀ n, G'.find? n = G.find? n ∨ G.find? n = none ∧ n ∈ names ∧
    ∃ t, G'.find? n = some (.function n t true)

section Gains

variable {names names' : List String} {G G' G'' : Frame}

theorem Frame.Gains.refl (names : List String) (G : Frame) : G.Gains names G := fun _ => .inl rfl

theorem Frame.Gains.mono (h : G.Gains names G') (hsub : names ⊆ names') : G.Gains names' G' :=
  fun n =>
  (h n).imp_right fun ⟨hnone, hn, ht⟩ => ⟨hnone, hsub hn, ht⟩

theorem Frame.Gains.of_some (h : G.Gains names G') {n : String} {s : Symbol}
    (hs : G.find? n = some s) : G'.find? n = some s := by
  rcases h n with heq | ⟨hnone, -, -⟩
  · rw [heq, hs]
  · rw [hnone] at hs
    cases hs

theorem Frame.Gains.trans (h : G.Gains names G') (h' : G'.Gains names G'') : G.Gains names G'' := by
  intro n
  rcases h n with heq | ⟨hnone, hn, t, ht⟩
  · rw [← heq]
    exact h' n
  · exact .inr ⟨hnone, hn, t, h'.of_some ht⟩

theorem Frame.declare?_eq_some {n : String} {s : Symbol} :
    G.declare? n s = some G' ↔ G.find? n = none ∧ G' = G.insert n s := by
  unfold Frame.declare?
  cases hn : G.find? n <;> simp [eq_comm]

theorem Frame.gains_insert {n : String} {t : Ty} (hnew : G.find? n = none) :
    G.Gains [n] (G.insert n (.function n t true)) := by
  intro m
  by_cases hm : m = n
  · subst hm
    exact .inr ⟨hnew, by simp, t, Frame.find?_insert_self _ _⟩
  · exact .inl (Frame.find?_insert_of_ne hm _)

/-- Declaring a function finds what its annotations mean, and enters it. -/
theorem NamedFunction.declare?_eq_some {f : NamedFunction} {path : String} :
    f.declare? path G = some G' ↔ ∃ m, f.func.meaning? (G.under path) = some m ∧
      G.find? f.name = none ∧
      G' = G.insert f.name (.function f.name (signatureType m) true) := by
  simp only [NamedFunction.declare?, Option.bind_eq_some_iff, Frame.declare?_eq_some]

theorem declareAll?_gains {fs : List (String × NamedFunction)} (h : declareAll? fs G = some G') :
    G.Gains (fs.map (·.2.name)) G' := by
  induction fs generalizing G with
  | nil =>
    obtain rfl := Option.some.inj h
    exact .refl _ _
  | cons f fs ih =>
    obtain ⟨G₁, hG₁, h⟩ := Option.bind_eq_some_iff.1 h
    obtain ⟨m, -, hnew, rfl⟩ := NamedFunction.declare?_eq_some.1 hG₁
    exact ((Frame.gains_insert hnew).mono (by simp)).trans ((ih h).mono (by simp))

end Gains

/-! ### Both resolutions -/

/-- What the annotations of a function mean to a checker: the types of its parameters and its
written result type. -/
def NamedFunction.Means (f : NamedFunction) (c : Checker) (m : List Ty × Option Ty) : Prop :=
  Gives (paramTypes f.func.params) c m.1 c ∧ Gives (resultType? f.func) c m.2 c

theorem NamedFunction.means_iff {f : NamedFunction} {c : Checker} {m : List Ty × Option Ty} :
    f.Means c m ↔ f.func.meaning? (c.globals.under c.scopePath) = some m := by
  rw [NamedFunction.Means, computes_paramTypes, computes_resultType?, FuncDef.meaning?_eq_some,
    Checker.find?_nil]
  simp

/-- When a function of a program is declared under a path, its annotations have a meaning. -/
def Program.Declares (p : Program) (o : CheckOptions) (path : String) (f : NamedFunction)
    (m : List Ty × Option Ty) : Prop :=
  ∃ earlier later G, signaturesOf "" p.defs = earlier ++ (path, f) :: later ∧
    (p.types? (Checker.new o).globals).bind (declareAll? earlier) = some G ∧
    f.Means { Checker.new o with globals := G, scopePath := path } m

/-- Checking functions changes the table in the types of functions only. -/
theorem checkAll_alike {fs : List NamedFunction} {c c' : Checker} {x : Unit}
    (hfs : ∀ f ∈ fs, ∃ t, c.globals.find? f.name = some (.function f.name t true))
    (h : Gives (checkAll fs) c x c') : c.globals.Alike c'.globals := by
  induction fs generalizing c with
  | nil =>
    obtain ⟨-, rfl⟩ := gives_pure.1 h
    exact .refl _
  | cons f fs ih =>
    obtain ⟨y, c₁, hy, h⟩ := gives_bind.1 h
    obtain ⟨c₂, t, hrecords, rfl⟩ := (gives_checkFunc.1 (gives_inContext.1 hy)).records
    rw [List.forall_mem_cons] at hfs
    obtain ⟨⟨u, hu⟩, hfs⟩ := hfs
    have hglobals : (c₂.finished f t).globals = c.globals.insert f.name
      (.function f.name (c₂.settle t) true) := by
      rw [Checker.finished, hrecords.rest, Checker.entering]
    have halike : c.globals.Alike (c₂.finished f t).globals := by
      intro n
      rw [hglobals]
      by_cases hn : n = f.name
      · subst hn
        exact .inr ⟨_, u, _, hu, Frame.find?_insert_self _ _⟩
      · exact .inl (Frame.find?_insert_of_ne hn _).symm
    refine halike.trans (ih (fun g hg => ?_) h)
    obtain ⟨v, hv⟩ := hfs g hg
    rcases halike g.name with heq | ⟨q, t₁, t₂, ht₁, ht₂⟩
    · exact ⟨v, heq ▸ hv⟩
    · rw [hv, Option.some.injEq, Symbol.function.injEq] at ht₁
      exact ⟨t₂, ht₁.1 ▸ ht₂⟩

/-- Every function of a program is in its table. -/
theorem Program.find?_of_table? {p : Program} {G₀ G : Frame} (hG : p.table? G₀ = some G)
    {f : NamedFunction} (hf : f ∈ p.functions) :
    ∃ t, G.find? f.name = some (.function f.name t true) := by
  obtain ⟨G₁, -, hG⟩ := Option.bind_eq_some_iff.1 hG
  rw [Program.functions, ← map_snd_signaturesOf] at hf
  obtain ⟨⟨path, g⟩, hg, rfl⟩ := List.mem_map.1 hf
  obtain ⟨earlier, later, hsplit⟩ := List.append_of_mem hg
  rw [hsplit, declareAll?_append] at hG
  obtain ⟨G₂, -, hG⟩ := Option.bind_eq_some_iff.1 hG
  obtain ⟨G₃, hG₃, hG⟩ := Option.bind_eq_some_iff.1 hG
  obtain ⟨m, -, -, rfl⟩ := NamedFunction.declare?_eq_some.1 hG₃
  exact ⟨_, (declareAll?_gains hG).of_some (Frame.find?_insert_self _ _)⟩

/-- **Annotations are resolved again when a function is checked.** Take a program whose declarations
succeed, and one of its functions. Its annotations have a meaning when it is declared, and that is
its signature. Whenever it is checked later, and what qualifies its name is the path that it was
declared under or every name in its annotations is known as written, its annotations have the same
meaning again exactly if no function of the program has one of these names. -/
theorem annotations_resolved_again {p : Program} {o : CheckOptions} {G : Frame}
    (hG : p.table? (Checker.new o).globals = some G) {path : String} {f : NamedFunction}
    (hf : (path, f) ∈ signaturesOf "" p.defs) :
    ∃ m, p.Declares o path f m ∧ G.find? f.name = some (.function f.name (signatureType m) true) ∧
      ∀ before c, before ⊆ p.functions →
        Gives (checkAll before) { Checker.new o with globals := G } () c →
        (path = pathOf f.name ∨ ∀ n ∈ f.func.typeNames, (G.find? n).isSome = true) →
        (f.Means (c.entering f) m ↔ ∀ n ∈ f.func.typeNames, n ∉ p.functions.map (·.name)) := by
  obtain ⟨earlier, later, hsplit⟩ := List.append_of_mem hf
  obtain ⟨G₀, hG₀, hG'⟩ := Option.bind_eq_some_iff.1 hG
  rw [hsplit, declareAll?_append] at hG'
  obtain ⟨G₁, hG₁, hG'⟩ := Option.bind_eq_some_iff.1 hG'
  obtain ⟨G₂, hG₂, hG'⟩ := Option.bind_eq_some_iff.1 hG'
  obtain ⟨m, hm, hnew, rfl⟩ := NamedFunction.declare?_eq_some.1 hG₂
  have hlater := declareAll?_gains hG'
  -- After the function was declared only functions of the program are added.
  have hgains : G₁.Gains (p.functions.map (·.name)) G := by
    rw [Program.functions, ← map_snd_signaturesOf, hsplit, List.map_map]
    refine ((Frame.gains_insert hnew).mono ?_).trans (hlater.mono fun n hn => ?_)
    · simp
    · simp only [List.map_append, List.map_cons, Function.comp_apply, List.mem_append,
        List.mem_cons]
      exact .inr (.inr hn)
  refine ⟨m, ⟨earlier, later, G₁, hsplit, Option.bind_eq_some_iff.2 ⟨G₀, hG₀, hG₁⟩,
    NamedFunction.means_iff.2 hm⟩,
    hlater.of_some (Frame.find?_insert_self _ _), fun before c hbefore hrun hpath => ?_⟩
  have halike : G.Alike c.globals :=
    checkAll_alike (fun g hg => p.find?_of_table? hG (hbefore hg)) hrun
  have htype : ∀ {n : String} {s : TypeSymbol}, G₁.find? n = some (.type s) →
    c.globals.find? n = some (.type s) := by
    intro n s hs
    rcases halike n with heq | ⟨q, t, t', ht, -⟩
    · rw [← heq, hgains.of_some hs]
    · rw [hgains.of_some hs] at ht
      cases ht
  rw [NamedFunction.means_iff]
  constructor
  · intro hmeans n hn hname
    obtain ⟨s, hs⟩ := FuncDef.types_of_meaning? hmeans n hn
    obtain ⟨g, hg, rfl⟩ := List.mem_map.1 hname
    obtain ⟨t, ht⟩ := p.find?_of_table? hG hg
    have hfunction : ∃ q t', c.globals.find? g.name = some (.function q t' true) := by
      rcases halike g.name with heq | ⟨q, t₁, t', -, ht'⟩
      · exact ⟨_, t, heq ▸ ht⟩
      · exact ⟨q, t', ht'⟩
    obtain ⟨q, t', ht'⟩ := hfunction
    rw [Frame.under_eq, Checker.entering, ht'] at hs
    cases hs
  · intro hnames
    refine FuncDef.meaning?_mono (fun n hn s hs => ?_) hm
    show c.globals.under (pathOf f.name) n = some (.type s)
    rw [Frame.under_eq] at hs ⊢
    cases hfound : G₁.find? n with
    | some s' =>
      rw [hfound] at hs
      obtain rfl := Option.some.inj hs
      rw [htype hfound]
    | none =>
      have hnone : G.find? n = none := by
        rcases hgains n with heq | ⟨-, hname, -⟩
        · rw [heq, hfound]
        · exact (hnames n hn hname).elim
      have hnone' : c.globals.find? n = none := by
        rcases halike n with heq | ⟨q, t, t', ht, -⟩
        · rw [← heq, hnone]
        · rw [hnone] at ht
          cases ht
      have hpath : path = pathOf f.name :=
        hpath.resolve_right fun hall => by simpa [hnone] using hall n hn
      rw [hfound] at hs
      rw [hnone', ← hpath]
      dsimp only at hs ⊢
      split at hs
      · cases hs
      · next hempty =>
        rw [if_neg hempty]
        exact htype hs

/-- A function with one parameter `x` of a type with a name, which gives back a number. -/
def numberOf (name type : String) : FuncDef where
  loc := {}
  name := name
  params := [⟨{}, "x", some (.name {} type [])⟩]
  ret := some (.name {} "u24" [])
  body := ⟨{}, [.ret {} (some (.uint {} 1))]⟩
  checked := true

/-- A module `M` with a type `T` and another definition. -/
def moduleWith (d : Definition) : Program :=
  ⟨[], [.module {} "M"
    [.type { loc := {}, name := "T", typeParams := [], variants := [⟨{}, "A", []⟩] }, d]]⟩

/-- A function of the module takes a value of the type. -/
def memberProgram : Program := moduleWith (.func (numberOf "f" "T"))

theorem annotations_resolved_again_member :
    ∃ G m, memberProgram.table? (Checker.new {}).globals = some G ∧
    memberProgram.Declares {} "M/" ⟨"M/f", numberOf "f" "T"⟩ m ∧
    NamedFunction.Means ⟨"M/f", numberOf "f" "T"⟩
      ({ Checker.new {} with globals := G }.entering ⟨"M/f", numberOf "f" "T"⟩) m := by
  obtain ⟨G, hG⟩ :=
    Option.isSome_iff_exists.1
      (show (memberProgram.table? (Checker.new {}).globals).isSome = true by decide +kernel)
  obtain ⟨m, hdeclares, -, hagain⟩ := annotations_resolved_again hG
    (show ("M/", ⟨"M/f", numberOf "f" "T"⟩) ∈ signaturesOf "" memberProgram.defs from
      List.mem_cons_self)
  refine ⟨G, m, hG, hdeclares,
    (hagain [] _ (List.nil_subset _) (gives_pure.2 ⟨rfl, rfl⟩) (.inl (by decide))).2 ?_⟩
  decide

/-- A method of an object in the module takes a value of the type. -/
def methodProgram : Program :=
  moduleWith (.object
    { loc := {}, name := "O", typeParams := [], fields := [⟨{}, "a", .name {} "u24" []⟩],
      funcs := [numberOf "m" "T"] })

/-- The type of the parameter is found when the method is declared, and is unknown
when it is checked. -/
theorem method_resolved_otherwise : ∃ G, methodProgram.table? (Checker.new {}).globals = some G ∧
    methodProgram.Declares {} "M/" ⟨"M/O/m", numberOf "m" "T"⟩ ([.named "M/T" []], some .u24) ∧
    (∀ m, ¬NamedFunction.Means ⟨"M/O/m", numberOf "m" "T"⟩
      ({ Checker.new {} with globals := G }.entering ⟨"M/O/m", numberOf "m" "T"⟩) m) ∧
    (methodProgram.check {}).1.isOk = false := by
  obtain ⟨G₁, hG₁⟩ :=
    Option.isSome_iff_exists.1
      (show (methodProgram.types? (Checker.new {}).globals).isSome = true by decide +kernel)
  obtain ⟨G, hG⟩ :=
    Option.isSome_iff_exists.1
      (show (methodProgram.table? (Checker.new {}).globals).isSome = true by decide +kernel)
  have hdeclared : ((methodProgram.types? (Checker.new {}).globals).bind fun G =>
    (numberOf "m" "T").meaning? (G.under "M/")) =
      some ([.named "M/T" []], some .u24) := by decide +kernel
  have hchecked : ((methodProgram.table? (Checker.new {}).globals).bind fun G =>
      (numberOf "m" "T").meaning? (G.under (pathOf "M/O/m"))) = none := by decide +kernel
  rw [hG₁] at hdeclared
  rw [hG] at hchecked
  refine ⟨G, hG, ⟨[], [], G₁, rfl, by rw [hG₁]; rfl, NamedFunction.means_iff.2 hdeclared⟩,
    fun m hm => ?_, by decide +kernel⟩
  have hsome : (numberOf "m" "T").meaning? (G.under (pathOf "M/O/m")) = some m :=
    NamedFunction.means_iff.1 hm
  cases hchecked.symm.trans hsome

end FunRiscv
