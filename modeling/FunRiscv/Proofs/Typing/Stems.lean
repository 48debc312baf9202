import Mathlib
import FunRiscv.Config.Settings
import FunRiscv.Proofs.Typing.Tables

/-!
# The stem of fresh variables

What fresh variables are called shows nowhere, unless they are rigid under one stem and not under
the other: a checker with another stem accepts the same programs and finds the same types.

* `Checker.Twins`: two checkers that differ in the names of fresh variables only.
* `Checker.Twins.checksFunc`: they check a function alike, since both do what it does alone.
  `Checker.Twins.checkAll`: and all functions.
* `check_stem`: two stems of which both or none make rigid variables.
-/

namespace FunRiscv

open Checking

/-- Whether fresh variables are rigid is seen from the stem. -/
theorem Unifier.rigidName_new (stem : String) (limit n : Nat) :
    Ty.rigidName ((Unifier.new stem limit).freshName n) = Ty.rigidName stem := by
  by_cases h : stem = ""
  · subst h
    have hstem : (Unifier.new "" limit).stem = "t" := rfl
    simp only [Ty.rigidName, freshName, hstem, String.toList_append]
    rfl
  · have hstem : (Unifier.new stem limit).stem = stem := if_neg (by simpa using h)
    have hchars : stem.toList ≠ [] := by simpa using h
    simp only [Ty.rigidName, freshName, hstem, String.toList_append, List.append_assoc,
      List.head?_append_of_ne_nil _ hchars]

theorem Unifier.alike_new {stem stem' : String} (h : Ty.rigidName stem = Ty.rigidName stem')
    (limit limit' : Nat) : (Unifier.new stem limit).Alike (Unifier.new stem' limit') :=
  fun m n => by
  rw [rigidName_new, rigidName_new, h]

/-! ### What was recorded -/

/-- Types are recorded for numbers before the next one, and are over variables made so far. -/
def Checker.Recorded (c : Checker) : Prop :=
  ∀ k t, c.types.lookup k = some t → k < c.nextNode ∧ t.Over c.unifier.Past

section Recorded

variable {c d : Checker} {f : NamedFunction} {stem : String} {G : Frame}

theorem Checker.Recorded.lookup_none (h : c.Recorded) {k : Nat} (hk : c.nextNode ≤ k) :
    c.types.lookup k = none := by
  cases hl : c.types.lookup k with
  | none => rfl
  | some t => exact absurd (h k t hl).1 (Nat.not_lt.2 hk)

/-- After a function a checker hosts its own names. -/
theorem Checker.Hosts.after (hc : c.Hosts stem G) (hG : G.Tidy) (h : ChecksFunc f c d) :
    d.Hosts stem d.globals := by
  obtain ⟨-, hlimit, rfl⟩ := (checksFunc_iff_alone hc hG).1 h
  obtain ⟨u, hchecked⟩ := checkFunc_spec hc.tidy hc.known (gives_checkFunc (x := ()).2 h)
  exact ⟨hchecked.tidy, hc.alike, fun _ => rfl,
    hchecked.globals ▸ hc.known.insert (s := .function ..) hchecked.ground, hlimit⟩

theorem Checker.Recorded.after (hrec : c.Recorded) (hc : c.Hosts stem G) (hG : G.Tidy)
    (h : ChecksFunc f c d) : d.Recorded := by
  intro k t hk
  obtain ⟨haccepted, -, rfl⟩ := (checksFunc_iff_alone hc hG).1 h
  obtain ⟨new, hnew, hnumbers⟩ := (ChecksFunc.finishes h).types
  have hnext : (c.stacked stem f (f.alone stem G)).nextNode =
    c.nextNode + stmtsNodeCount f.func.body.stmts := stacked_nextNode _ _ _
  rcases Nat.lt_or_ge k c.nextNode with hlt | hge
  · -- A type from before.
    have hbefore : c.types.lookup k = some t := by
      rw [hnew] at hk
      exact (lookup_eq_of_types (fun e he => ((hnumbers e.1).1 ⟨e.2, he⟩).1) hlt).symm.trans hk
    exact ⟨by omega, (stacked_before hc hG haccepted hlt hbefore (hrec k t hbefore).2).2.1⟩
  · -- A type of the function.
    have hmem : (k, t) ∈ new := by
      rw [hnew, List.lookup_append, hrec.lookup_none hge, Option.or_none] at hk
      obtain ⟨l₁, l₂, rfl, -⟩ := List.lookup_eq_some_iff.1 hk
      exact List.mem_append_right _ List.mem_cons_self
    have hin := (hnumbers k).1 ⟨t, hmem⟩
    obtain ⟨j, rfl⟩ := Nat.exists_eq_add_of_le hge
    have hj : j < (stmtsNodes f.func.body.stmts).length := by
      have hlt := hin.2
      rw [stmtsNodes_length]
      omega
    have hvisited :=
      (checkFunc_tours hc.tidy hc.known (gives_checkFunc (x := ()).2 h)
        ((stmtsNodes f.func.body.stmts)[j], c.nextNode + j)
        (List.mk_add_mem_zipIdx_iff_getElem?.2 (List.getElem?_eq_getElem hj))).2
    obtain ⟨u, hu, hpast⟩ := hvisited.lookup
    obtain rfl : t = u := Option.some.inj (hk.symm.trans hu)
    exact ⟨hin.2, hpast⟩

theorem Checker.hosts_alone (stem : String) (hG : G.Tidy) : (Checker.alone stem G).Hosts stem G :=
  ⟨Unifier.tidy_new _ _, Unifier.alike_of_stem rfl, fun _ => rfl, hG, .inl rfl⟩

theorem Checker.recorded_alone (stem : String) (G : Frame) : (Checker.alone stem G).Recorded :=
  fun _ _ h => by cases h

/-- The types after a function are those from before and those found for it alone. -/
theorem typeOf?_after (hrec : c.Recorded) (hc : c.Hosts stem G) (hG : G.Tidy)
    (hf : f.AcceptedAlone stem G) (k : Nat) : (c.stacked stem f (f.alone stem G)).typeOf? k =
      if k < c.nextNode then c.typeOf? k else (f.alone stem G).typeOf? (k - c.nextNode) := by
  split
  · next hk =>
    cases hl : c.types.lookup k with
    | some t => exact (stacked_before hc hG hf hk hl (hrec k t hl).2).2.2
    | none =>
      have hnone : (c.stacked stem f (f.alone stem G)).types.lookup k = none := by
        rw [stacked_types]
        refine (lookup_eq_of_types (m := c.nextNode) (fun e he => ?_) hk).trans hl
        obtain ⟨e', -, rfl⟩ := List.mem_map.1 he
        exact Nat.le_add_right _ _
      rw [Checker.typeOf?, Checker.typeOf?, hnone, hl]
      rfl
  · next hk =>
    obtain ⟨j, rfl⟩ := Nat.exists_eq_add_of_le (Nat.not_lt.1 hk)
    rw [Nat.add_sub_cancel_left]
    by_cases hj : j < stmtsNodeCount f.func.body.stmts
    · exact typeOf?_stacked hc hG hf hj
    · have halone : (f.alone stem G).types.lookup j = none := by
        refine ((Checker.recorded_alone stem G).after (Checker.hosts_alone stem hG) hG
          hf).lookup_none ?_
        rw [(ChecksFunc.finishes hf).nextNode, List.flatMap_singleton, stmtsNodes_length]
        show 0 + _ ≤ j
        omega
      have hnone : (c.stacked stem f (f.alone stem G)).types.lookup (c.nextNode + j) = none := by
        rw [stacked_types, List.lookup_append, lookup_shift c.nextNode j, halone,
          hrec.lookup_none (Nat.le_add_right _ _)]
        rfl
      rw [Checker.typeOf?, Checker.typeOf?, hnone, halone]
      rfl

end Recorded

/-! ### Two runs -/

/-- Two checkers that differ in the names of fresh variables only. -/
structure Checker.Twins (c d : Checker) : Prop where
  globals : d.globals = c.globals
  nextNode : d.nextNode = c.nextNode
  funcs : d.funcs = c.funcs
  limit : d.unifier.limit = c.unifier.limit
  steps : d.unifier.steps = c.unifier.steps
  types : ∀ k, d.typeOf? k = c.typeOf? k

/-- A checker that can go on: it knows what it checked. -/
structure Checker.Ongoing (c : Checker) (stem : String) : Prop where
  hosts : c.Hosts stem c.globals
  recorded : c.Recorded

section Twins

variable {c c' d : Checker} {f : NamedFunction} {stem : String}

theorem Checker.Ongoing.after (hc : c.Ongoing stem) (h : ChecksFunc f c c') : c'.Ongoing stem :=
  ⟨hc.hosts.after hc.hosts.known h, hc.recorded.after hc.hosts hc.hosts.known h⟩

/-- Twins check a function alike: both do what the function does alone, under one stem. -/
theorem Checker.Twins.checksFunc (h : Twins c d) (hc : c.Ongoing stem) (hd : d.Ongoing stem)
    (hrun : ChecksFunc f c c') : ∃ d', ChecksFunc f d d' ∧ Twins c' d' := by
  have hhosts : d.Hosts stem c.globals := h.globals ▸ hd.hosts
  obtain ⟨haccepted, hlimit, rfl⟩ := (checksFunc_iff_alone hc.hosts hc.hosts.known).1 hrun
  have hlimit' : (d.unifier.atop (.new stem 0) (f.alone stem c.globals).unifier).WithinLimit := by
    rw [Unifier.WithinLimit, Unifier.atop] at hlimit ⊢
    rwa [h.limit, h.steps]
  refine ⟨_, (checksFunc_iff_alone hhosts hc.hosts.known).2 ⟨haccepted, hlimit', rfl⟩, ?_, ?_, ?_,
    h.limit, ?_, fun k => ?_⟩
  · simp only [Checker.stacked, h.globals]
  · rw [stacked_nextNode, stacked_nextNode, h.nextNode]
  · rw [stacked_funcs, stacked_funcs, h.funcs]
  · rw [stacked_unifier, stacked_unifier, Unifier.atop, Unifier.atop, h.steps]
  · rw [typeOf?_after hc.recorded hc.hosts hc.hosts.known haccepted,
      typeOf?_after hd.recorded hhosts hc.hosts.known haccepted, h.nextNode, h.types]

theorem Checker.Twins.checkAll {fs : List NamedFunction} (h : Twins c d) (hc : c.Ongoing stem)
    (hd : d.Ongoing stem) {x : Unit} (hrun : Gives (FunRiscv.checkAll fs) c x c') :
    ∃ d', Gives (FunRiscv.checkAll fs) d x d' ∧ Twins c' d' := by
  induction fs generalizing c d with
  | nil =>
    obtain ⟨-, rfl⟩ := gives_pure.1 hrun
    exact ⟨d, gives_pure.2 ⟨rfl, rfl⟩, h⟩
  | cons f fs ih =>
    obtain ⟨c₁, hf, hrest⟩ := gives_checkAll_cons.1 hrun
    obtain ⟨d₁, hf', h₁⟩ := h.checksFunc hc hd hf
    obtain ⟨d', hrest', h'⟩ := ih h₁ (hc.after hf) (hd.after hf') hrest
    exact ⟨d', gives_checkAll_cons.2 ⟨d₁, hf', hrest'⟩, h'⟩

end Twins

/-- At the start, a checker with another stem can host what a checker with one stem does. -/
theorem Checker.ongoing_new {o : CheckOptions} {stem : String}
    (h : Ty.rigidName o.stem = Ty.rigidName stem) {G : Frame} (hG : G.Tidy) :
    Ongoing { Checker.new o with globals := G } stem :=
  ⟨⟨Unifier.tidy_new _ _, Unifier.alike_new h _ _, fun _ => rfl, hG, .inr (Nat.zero_le _)⟩,
    fun _ _ hk => by cases hk⟩

/-- The options of a checker with another stem. -/
def CheckOptions.withStem (o : CheckOptions) (stem : String) : CheckOptions := { o with stem }

theorem twins_of_check {p : Program} {o : CheckOptions} {stem : String}
    (h : Ty.rigidName stem = Ty.rigidName o.stem) (hseeds : ∀ e ∈ o.symbols, e.2.Tidy) {c : Checker}
    (hc : p.check o = (.ok (), c)) :
    ∃ d, p.check (o.withStem stem) = (.ok (), d) ∧ c.Twins d := by
  obtain ⟨G, hG, hrun⟩ := Program.check_eq_ok_iff.1 hc
  have htidy : G.Tidy := p.tidy_of_table? (Checker.tidy_new hseeds) hG
  have hstart : Checker.Twins { Checker.new o with globals := G }
    { Checker.new (o.withStem stem) with globals := G } :=
    ⟨rfl, rfl, rfl, rfl, rfl, fun _ => rfl⟩
  obtain ⟨d, hrun', htwins⟩ :=
    hstart.checkAll (Checker.ongoing_new rfl htidy)
      (Checker.ongoing_new (o := o.withStem stem) h htidy) hrun
  exact ⟨d, Program.check_eq_ok_iff.2 ⟨G, hG, hrun'⟩, htwins⟩

/-- **The stem of fresh variables does not show.** Take two stems of which both or none start with
an apostrophe, and symbols known beforehand that mention no type variables but their own
parameters. A program is accepted with both or with none, and the types of its functions and
expressions are the same. -/
theorem check_stem (p : Program) (o : CheckOptions) (stem : String)
    (hrigid : Ty.rigidName stem = Ty.rigidName o.stem) (hseeds : ∀ e ∈ o.symbols, e.2.Tidy) :
    (p.check (o.withStem stem)).1.isOk = (p.check o).1.isOk ∧
      ∀ c d, p.check o = (.ok (), c) → p.check (o.withStem stem) = (.ok (), d) →
        d.funcTypes p = c.funcTypes p ∧ ∀ k, d.typeOf? k = c.typeOf? k := by
  refine ⟨?_, fun c d hc hd => ?_⟩
  · rw [Bool.eq_iff_iff]
    constructor
    · intro hok
      obtain ⟨c, hc, -⟩ :=
        @twins_of_check p (o.withStem stem) o.stem hrigid.symm hseeds _ (check_eq_of_isOk hok)
      rw [show p.check o = (.ok (), c) from hc]
      rfl
    · intro hok
      obtain ⟨d, hd, -⟩ := twins_of_check hrigid hseeds (check_eq_of_isOk hok)
      rw [hd]
      rfl
  · obtain ⟨d', hd', htwins⟩ := twins_of_check hrigid hseeds hc
    obtain rfl : d' = d := congrArg Prod.snd (hd'.symm.trans hd)
    refine ⟨?_, htwins.types⟩
    simp only [Checker.funcTypes, Checker.funcType?, htwins.funcs]

/-- A function that gives a function which adds one to its parameter. -/
def addsOneProgram : Program :=
  ⟨[], [.func {
    loc := {}, name := "main", params := [], ret := none, checked := true
    body := ⟨{}, [.ret {}
      (some (.lambda {} [⟨{}, "a", none⟩] (.binOp {} .add (.var {} "a") (.uint {} 1))))]⟩ }]⟩

/-- The parameter has a fresh type, which is found under every stem. -/
theorem check_stem_addsOne : ∃ d, addsOneProgram.check { stem := "fresh" } = (.ok (), d) ∧
    d.typeOf? 0 = some (.func (.word .u24) (.word .u24)) := by
  have haccepted : (addsOneProgram.check {}).1.isOk = true := by decide +kernel
  have htype : (addsOneProgram.check {}).2.typeOf? 0 = some (.func (.word .u24) (.word .u24)) := by
    decide +kernel
  obtain ⟨hsame, htypes⟩ := check_stem addsOneProgram {} "fresh" (by decide) (by simp)
  have hfresh := check_eq_of_isOk (hsame.trans haccepted)
  exact ⟨_, hfresh, ((htypes _ _ (check_eq_of_isOk haccepted) hfresh).2 0).trans htype⟩

/-- Both stems stand in valid settings, and under the second one, an apostrophe, every fresh
variable is rigid. -/
theorem stem_shows :
    ({ stem := "t" } : Settings).problem? = none ∧ ({ stem := "'" } : Settings).problem? = none ∧
      (addsOneProgram.check { stem := "t" }).1.isOk = true ∧
      (addsOneProgram.check { stem := "'" }).1.isOk = false := by
  refine ⟨?_, ?_, by decide +kernel, by decide +kernel⟩ <;> decide +kernel

end FunRiscv
