import Mathlib
import FunRiscv.Proofs.Typing.Replay

/-!
# Functions are checked on their own

All functions share one unifier and one table of names, but none sees what was done for another:
checking a function after others comes to the same as checking it first, with other names for fresh
variables and later numbers.

* `Checker.alone`: a checker with a table of names and no limit, before anything was checked.
  `NamedFunction.alone`: what a function leaves there.
* `Checker.stacked`: the same on top of another checker. `checksFunc_iff_alone`: checking
  the function does this.
* `checkAll_iff_alone`: functions are accepted one after the other exactly if each is alone, and the
  limit is not reached.
* `Checker.typeOf?_checked`: the types of expressions are those found alone.
-/

namespace FunRiscv

open Checking

/-! ### Types from before -/

namespace Unifier

variable {source base u : Unifier} {v : String} {t : Ty}

theorem lookup_atop_past (hu : base.Movable source u) (hv : base.Past v) :
    (base.atop source u).subst.lookup v = base.subst.lookup v := by
  have hnone : (u.subst.map fun e => (base.relocate source e.1, e.2.bind (base.lift source))).lookup
    v = none := by
    rw [List.lookup_eq_none_iff]
    intro e he
    obtain ⟨d, hd, rfl⟩ := List.mem_map.1 he
    obtain ⟨n, hn, hname⟩ := (hu.own d hd).1
    rw [hname, relocate_freshName base source hn, bne_iff_ne]
    exact hv (base.made + n) (by omega)
  rw [atop, List.lookup_append, hnone, Option.none_or]

theorem applyWithin_atop_past (hbase : base.Tidy) (hu : base.Movable source u) (n : Nat)
    (ht : t.Over base.Past) :
    (base.atop source u).subst.applyWithin n t = base.subst.applyWithin n t := by
  induction n generalizing t with
  | zero => rfl
  | succ n ih =>
    rw [Subst.applyWithin, Subst.applyWithin]
    refine Ty.bind_congr fun v hv => ?_
    rw [lookup_atop_past hu (ht v hv)]
    cases hl : base.subst.lookup v with
    | none => rfl
    | some r => exact ih (hbase.past _ (Subst.mem_of_lookup hl)).2

/-- What was known before is not changed by what is done on top. -/
theorem apply_atop_past (hbase : base.Tidy) (hu : base.Movable source u) (ht : t.Over base.Past) :
    (base.atop source u).apply t = base.apply t := by
  rw [apply, Subst.apply, applyWithin_atop_past hbase hu _ ht,
    hbase.coherent.triangular.applyWithin_of_le]
  · rfl
  · simp [atop]

end Unifier

/-! ### Checkers -/

/-- A checker with a table of names and no limit, before anything was checked. -/
def Checker.alone (stem : String) (G : Frame) : Checker :=
  { Checker.new { stem, limit := 0 } with globals := G }

/-- What checking a function alone leaves. -/
def NamedFunction.alone (f : NamedFunction) (stem : String) (G : Frame) : Checker :=
  ((checkFunc f.name f.func).run (.alone stem G)).2

/-- A function is accepted alone. -/
def NamedFunction.AcceptedAlone (f : NamedFunction) (stem : String) (G : Frame) : Prop :=
  ChecksFunc f (.alone stem G) (f.alone stem G)

/-- What checking a function alone leaves, on top of a checker. -/
noncomputable def Checker.stacked (base : Checker) (stem : String) (f : NamedFunction)
    (c : Checker) : Checker :=
  { (base.entering f).atop (.new stem 0) base.nextNode c with
    funcs := c.funcs ++ base.funcs
    globals := c.funcs.foldr (fun e G => G.insert e.1 (.function e.1 e.2 true)) base.globals }

/-- A checker that knows the names of a table. -/
structure Checker.Hosts (base : Checker) (stem : String) (G : Frame) : Prop where
  tidy : base.unifier.Tidy
  alike : base.unifier.Alike (Unifier.new stem 0)
  globals : ∀ n, base.globals.find? n = G.find? n
  known : base.globals.Tidy
  within : base.unifier.WithinLimit

theorem ChecksFunc.eq_alone {f : NamedFunction} {stem : String} {G : Frame} {c : Checker}
    (h : ChecksFunc f (.alone stem G) c) : c = f.alone stem G := by
  have hgives : Gives (checkFunc f.name f.func) (.alone stem G) () c := gives_checkFunc.2 h
  exact (congrArg Prod.snd hgives).symm

theorem Frame.under_congr {G G' : Frame} (h : ∀ n, G.find? n = G'.find? n) (path : String) :
    G.under path = G'.under path :=
  funext fun n => by rw [Frame.under_eq, Frame.under_eq, h, h]

theorem Frame.insert_congr {G G' : Frame} (h : ∀ n, G.find? n = G'.find? n) (m : String)
    (s : Symbol) (n : String) : (G.insert m s).find? n = (G'.insert m s).find? n := by
  by_cases hn : n = m
  · rw [hn, Frame.find?_insert_self, Frame.find?_insert_self]
  · rw [Frame.find?_insert_of_ne hn, Frame.find?_insert_of_ne hn, h]

section Alone

variable {base c d : Checker} {f : NamedFunction} {stem : String} {G : Frame} {t : Ty}

theorem Checker.settle_atop {offset : Nat} (hc : base.Movable (.new stem 0) c)
    (ht : t.Over (Unifier.new stem 0).Own) :
    (base.atop (.new stem 0) offset c).settle (t.bind (base.unifier.lift (.new stem 0))) =
      c.settle t := by
  rw [Checker.settle, Checker.settle, Checker.atop, Unifier.apply_atop hc.below hc.unifier ht,
    Ty.bind_bind]
  rfl

/-- Checking a body records types and moves the unifier, and does nothing else. -/
theorem notes_body (f : NamedFunction) (m : List Ty × Option Ty) (i : Nat) :
    Notes (f.body m i) (Set.Ico i (i + stmtsNodeCount f.func.body.stmts)) := by
  have hrest : ∀ result : Ty, Notes (do
      let returned ← checkStmts result (withParams [[]] f.func.params m.1) i f.func.body.stmts
      if !returned then unifyAt result .none f.func.loc
      return Ty.curry m.1 result) (Set.Ico i (i + stmtsNodeCount f.func.body.stmts)) := by
    intro result
    refine (notesStmts result _ _ _).before fun returned => ?_
    cases returned with
    | true => exact steady_pure _
    | false => exact (steady_unifyAt _ _ _).bind fun _ => steady_pure _
  rw [NamedFunction.body]
  cases m.2 with
  | none => exact Notes.after hrest steady_fresh
  | some t => exact Notes.after hrest (steady_pure t)

theorem Checker.Hosts.movable (hbase : base.Hosts stem G) (hG : G.Tidy) (f : NamedFunction) :
    (base.entering f).Movable (.new stem 0) ((Checker.alone stem G).entering f) :=
  ⟨hbase.tidy, base.unifier.movable_new hbase.alike, hbase.globals, rfl, hG, fun e he => by
    simp [Checker.entering, Checker.alone, Checker.new] at he⟩

/-- What the end of a function adds, alone and on top of a checker. -/
theorem stacked_finished (hc : (base.entering f).Movable (.new stem 0) c) (hfuncs : c.funcs = [])
    (ht : t.Over (Unifier.new stem 0).Own) :
    ((base.entering f).atop (.new stem 0) base.nextNode c).finished f
      (t.bind (base.unifier.lift (.new stem 0))) = base.stacked stem f (c.finished f t) := by
  have hsettle : ((base.entering f).atop (.new stem 0) base.nextNode c).settle
    (t.bind (base.unifier.lift (.new stem 0))) = c.settle t :=
    Checker.settle_atop hc ht
  rw [Checker.finished, hsettle, Checker.stacked, Checker.finished, hfuncs]
  rfl

/-- **Functions are checked on their own.** A checker accepts a function exactly if the function is
accepted alone, and the steps taken there do not lead beyond the limit. What is left is what the
function leaves alone, on top of what was there. -/
theorem checksFunc_iff_alone (hbase : base.Hosts stem G) (hG : G.Tidy) : ChecksFunc f base d ↔
    f.AcceptedAlone stem G ∧
      (base.unifier.atop (.new stem 0) (f.alone stem G).unifier).WithinLimit ∧
      d = base.stacked stem f (f.alone stem G) := by
  have hmovable := hbase.movable hG f
  have hunder := Frame.under_congr hbase.globals (pathOf f.name)
  have hbody : ∀ {m}, f.func.meaning? (G.under (pathOf f.name)) = some m →
      Mirrors (.new stem 0) (base.entering f) base.nextNode (f.body m 0) (f.body m base.nextNode)
        ((base.entering f).Moved (.new stem 0)) := by
    intro m hm
    obtain ⟨hparams, hwritten⟩ := FuncDef.ground_of_meaning? hG hm
    exact mirrors_body f hparams hwritten rfl
  constructor
  · intro h
    obtain ⟨m, t', d₁, hm, hrun, rfl⟩ := checksFunc_iff.1 h
    rw [hunder] at hm
    obtain ⟨t, c₁, halone, ⟨ht, rfl⟩, hlimit, rfl⟩ := (hbody hm).back hmovable hbase.within hrun
    have hc₁ := ((hbody hm).keeps hmovable halone).1
    have haccepted : ChecksFunc f (.alone stem G) (c₁.finished f t) :=
      checksFunc_iff.2 ⟨m, t, c₁, hm, halone, rfl⟩
    have hfuncs : c₁.funcs = [] := by rw [(notes_body f m 0 halone).rest]; rfl
    have heq := haccepted.eq_alone
    rw [NamedFunction.AcceptedAlone, ← heq]
    exact ⟨haccepted, hlimit, stacked_finished hc₁ hfuncs ht⟩
  · rintro ⟨haccepted, hlimit, rfl⟩
    obtain ⟨m, t, c₁, hm, halone, heq⟩ := checksFunc_iff.1 haccepted
    rw [heq] at hlimit ⊢
    have hc₁ := ((hbody hm).keeps hmovable halone).1
    have hfuncs : c₁.funcs = [] := by rw [(notes_body f m 0 halone).rest]; rfl
    obtain ⟨t', ⟨ht, rfl⟩, hrun⟩ := (hbody hm).forth hmovable halone hlimit
    exact checksFunc_iff.2 ⟨m, _, _, hunder ▸ hm, hrun, (stacked_finished hc₁ hfuncs ht).symm⟩

/-- A function that is accepted alone has one type and owns all variables. -/
theorem NamedFunction.AcceptedAlone.owned (h : f.AcceptedAlone stem G) (hbase : base.Hosts stem G)
    (hG : G.Tidy) : base.unifier.Movable (.new stem 0) (f.alone stem G).unifier ∧
    ∀ e ∈ (f.alone stem G).types, e.2.Over (Unifier.new stem 0).Own := by
  obtain ⟨m, t, c₁, hm, halone, heq⟩ := checksFunc_iff.1 h
  obtain ⟨hparams, hwritten⟩ := FuncDef.ground_of_meaning? hG hm
  have hbody : Mirrors (.new stem 0) (base.entering f) base.nextNode (f.body m 0)
      (f.body m base.nextNode) ((base.entering f).Moved (.new stem 0)) :=
    mirrors_body f hparams hwritten rfl
  have hc₁ := (hbody.keeps (hbase.movable hG f) halone).1
  rw [heq]
  exact ⟨hc₁.unifier, hc₁.types⟩

theorem NamedFunction.AcceptedAlone.funcs (h : f.AcceptedAlone stem G) :
    ∃ t, (f.alone stem G).funcs = [(f.name, t)] := by
  obtain ⟨m, t, c₁, -, halone, heq⟩ := checksFunc_iff.1 h
  refine ⟨c₁.settle t, ?_⟩
  rw [heq, Checker.finished, show c₁.funcs = [] by rw [(notes_body f m 0 halone).rest]; rfl]

/-- Alone, types are recorded for the numbers of the body. -/
theorem NamedFunction.AcceptedAlone.lookup (h : f.AcceptedAlone stem G) {k : Nat}
    (hk : k < stmtsNodeCount f.func.body.stmts) :
    ∃ t, (f.alone stem G).types.lookup k = some t := by
  obtain ⟨new, hnew, hnumbers⟩ := (ChecksFunc.finishes h).types
  have hnext : (f.alone stem G).nextNode = stmtsNodeCount f.func.body.stmts := by
    rw [(ChecksFunc.finishes h).nextNode, List.flatMap_singleton, stmtsNodes_length]
    exact Nat.zero_add _
  obtain ⟨t, ht⟩ := (hnumbers k).2 ⟨Nat.zero_le k, hnext ▸ hk⟩
  obtain ⟨t', -, hlookup⟩ := lookup_append_of_mem ht (Checker.alone stem G).types
  exact ⟨t', hnew ▸ hlookup⟩

end Alone

/-! ### Functions one after the other -/

/-- A function gets the type that the table has for it. -/
def NamedFunction.KeepsSignature (f : NamedFunction) (stem : String) (G : Frame) : Prop :=
  ∃ t, (f.alone stem G).funcs = [(f.name, t)] ∧ G.find? f.name = some (.function f.name t true)

/-- What functions leave alone, one on top of the other. -/
noncomputable def Checker.stackedAll (base : Checker) (stem : String) (G : Frame)
    (fs : List NamedFunction) : Checker :=
  fs.foldl (fun base f => base.stacked stem f (f.alone stem G)) base

section All

variable {base d : Checker} {f : NamedFunction} {fs : List NamedFunction} {stem : String}
  {G : Frame}

theorem stackedAll_steps (base : Checker) (stem : String) (G : Frame) (fs : List NamedFunction) :
    (base.stackedAll stem G fs).unifier.limit = base.unifier.limit ∧
      (base.stackedAll stem G fs).unifier.steps =
        base.unifier.steps + (fs.map fun f => (f.alone stem G).unifier.steps).sum := by
  induction fs generalizing base with
  | nil => exact ⟨rfl, rfl⟩
  | cons f fs ih =>
    obtain ⟨hlimit, hsteps⟩ := ih (base.stacked stem f (f.alone stem G))
    rw [List.map_cons, List.sum_cons, ← Nat.add_assoc]
    exact ⟨hlimit, hsteps⟩

/-- The limit is reached in no order or in all. -/
theorem withinLimit_stackedAll (base : Checker) (stem : String) (G : Frame)
    (fs : List NamedFunction) :
    (base.stackedAll stem G fs).unifier.WithinLimit ↔ base.unifier.limit = 0 ∨
      base.unifier.steps + (fs.map fun f => (f.alone stem G).unifier.steps).sum ≤
        base.unifier.limit := by
  obtain ⟨hlimit, hsteps⟩ := stackedAll_steps base stem G fs
  rw [Unifier.WithinLimit, hlimit, hsteps]

/-- The limit is not reached in between. -/
theorem within_head (h : (base.stackedAll stem G (f :: fs)).unifier.WithinLimit) :
    (base.unifier.atop (.new stem 0) (f.alone stem G).unifier).WithinLimit := by
  rw [withinLimit_stackedAll, List.map_cons, List.sum_cons] at h
  refine h.imp_right fun h => ?_
  show base.unifier.steps + (f.alone stem G).unifier.steps ≤ base.unifier.limit
  omega

theorem Checker.Hosts.next (hbase : base.Hosts stem G) (hG : G.Tidy) (hf : f.AcceptedAlone stem G)
    (hkeeps : f.KeepsSignature stem G)
    (hlimit : (base.unifier.atop (.new stem 0) (f.alone stem G).unifier).WithinLimit) :
    (base.stacked stem f (f.alone stem G)).Hosts stem G := by
  have hrun := (checksFunc_iff_alone hbase hG).2 ⟨hf, hlimit, rfl⟩
  obtain ⟨u, hchecked⟩ := checkFunc_spec hbase.tidy hbase.known (gives_checkFunc (x := ()).2 hrun)
  obtain ⟨t, hfuncs, hsignature⟩ := hkeeps
  refine ⟨hchecked.tidy, hbase.alike, fun n => ?_,
    hchecked.globals ▸ hbase.known.insert (s := .function ..) hchecked.ground, hlimit⟩
  rw [Checker.stacked, hfuncs]
  by_cases hn : n = f.name
  · rw [hn, hsignature]
    exact Frame.find?_insert_self _ _
  · exact (Frame.find?_insert_of_ne hn _).trans (hbase.globals n)

theorem gives_checkAll_cons {x : Unit} :
    Gives (checkAll (f :: fs)) base x d ↔ ∃ c, ChecksFunc f base c ∧ Gives (checkAll fs) c x d := by
  refine gives_bind.trans ⟨?_, ?_⟩
  · rintro ⟨y, c, hy, h⟩
    exact ⟨c, gives_checkFunc.1 (gives_inContext.1 hy), h⟩
  · rintro ⟨c, hc, h⟩
    exact ⟨(), c, gives_inContext.2 (gives_checkFunc.2 hc), h⟩

/-- Functions are accepted one after the other exactly if each is alone, and all steps together do
not lead beyond the limit. -/
theorem checkAll_iff_alone {x : Unit} (hbase : base.Hosts stem G) (hG : G.Tidy)
    (hfs : ∀ f ∈ fs, f.AcceptedAlone stem G → f.KeepsSignature stem G) :
    Gives (checkAll fs) base x d ↔ (∀ f ∈ fs, f.AcceptedAlone stem G) ∧
      (base.stackedAll stem G fs).unifier.WithinLimit ∧ d = base.stackedAll stem G fs := by
  induction fs generalizing base with
  | nil =>
    refine gives_pure.trans ⟨fun h => ⟨by simp, h.2 ▸ hbase.within, h.2⟩, fun h => ⟨rfl, h.2.2⟩⟩
  | cons f fs ih =>
    rw [List.forall_mem_cons] at hfs
    rw [gives_checkAll_cons, List.forall_mem_cons]
    constructor
    · rintro ⟨c, hc, h⟩
      obtain ⟨hf, hlimit, rfl⟩ := (checksFunc_iff_alone hbase hG).1 hc
      obtain ⟨hall, hwithin, rfl⟩ := (ih (hbase.next hG hf (hfs.1 hf) hlimit) hfs.2).1 h
      exact ⟨⟨hf, hall⟩, hwithin, rfl⟩
    · rintro ⟨⟨hf, hall⟩, hwithin, rfl⟩
      have hlimit := within_head hwithin
      exact ⟨_, (checksFunc_iff_alone hbase hG).2 ⟨hf, hlimit, rfl⟩,
        (ih (hbase.next hG hf (hfs.1 hf) hlimit) hfs.2).2 ⟨hall, hwithin, rfl⟩⟩

/-! ### What is found -/

theorem Visited.lookup {e : Expr} {k : Nat} (h : Visited (e, k) d) :
    ∃ t, d.types.lookup k = some t ∧ t.Over d.unifier.Past := by
  obtain ⟨locals, expected, c₀, c₁, t, later, hc, hx, hrun, hextends, hdisjoint⟩ := h
  have hinferred := infers e k hc hx hrun
  have hself : k ∉ later := Set.disjoint_left.1 hdisjoint (self_mem_span (k, e))
  exact ⟨t, (hextends.lookup_eq hself).trans hinferred.recorded,
    hextends.reaches.over hinferred.past⟩

theorem stacked_types (base c : Checker) (f : NamedFunction) : (base.stacked stem f c).types =
    (c.types.map fun e => (base.nextNode + e.1, e.2.bind (base.unifier.lift (.new stem 0)))) ++
      base.types := rfl

theorem stacked_unifier (base c : Checker) (f : NamedFunction) :
    (base.stacked stem f c).unifier = base.unifier.atop (.new stem 0) c.unifier := rfl

theorem stacked_funcs (base c : Checker) (f : NamedFunction) :
    (base.stacked stem f c).funcs = c.funcs ++ base.funcs := rfl

theorem stacked_nextNode (base c : Checker) (f : NamedFunction) :
    (base.stacked stem f c).nextNode = base.nextNode + stmtsNodeCount f.func.body.stmts := rfl

theorem lookup_shift (offset k : Nat) (g : Ty → Ty) (types : List (Nat × Ty)) :
    (types.map fun e => (offset + e.1, g e.2)).lookup (offset + k) = (types.lookup k).map g := by
  induction types with
  | nil => rfl
  | cons e types ih =>
    have hkey : (offset + k == offset + e.1) = (k == e.1) := by
      rw [Bool.eq_iff_iff, beq_iff_eq, beq_iff_eq, Nat.add_left_cancel_iff]
    rw [List.map_cons, List.lookup_cons, List.lookup_cons, ih, hkey]
    cases k == e.1 <;> rfl

/-- A type that was found before stays. -/
theorem stacked_before (hbase : base.Hosts stem G) (hG : G.Tidy) (hf : f.AcceptedAlone stem G)
    {k : Nat} {t : Ty} (hk : k < base.nextNode) (hlookup : base.types.lookup k = some t)
    (ht : t.Over base.unifier.Past) :
    (base.stacked stem f (f.alone stem G)).types.lookup k = some t ∧
      t.Over (base.stacked stem f (f.alone stem G)).unifier.Past ∧
      (base.stacked stem f (f.alone stem G)).typeOf? k = base.typeOf? k := by
  have hsame : (base.stacked stem f (f.alone stem G)).types.lookup k = some t := by
    rw [stacked_types]
    refine (lookup_eq_of_types (m := base.nextNode) (fun e he => ?_) hk).trans hlookup
    obtain ⟨d, -, rfl⟩ := List.mem_map.1 he
    exact Nat.le_add_right _ _
  refine ⟨hsame, fun v hv n hn => ht v hv n (lt_of_le_of_lt (Nat.le_add_right _ _) hn), ?_⟩
  simp only [Checker.typeOf?, hsame, hlookup, Option.map_some, Checker.settle, stacked_unifier,
    Unifier.apply_atop_past hbase.tidy (hf.owned hbase hG).1 ht]

/-- The types found for a body are those found alone. -/
theorem typeOf?_stacked (hbase : base.Hosts stem G) (hG : G.Tidy) (hf : f.AcceptedAlone stem G)
    {k : Nat} (hk : k < stmtsNodeCount f.func.body.stmts) :
    (base.stacked stem f (f.alone stem G)).typeOf? (base.nextNode + k) =
      (f.alone stem G).typeOf? k := by
  obtain ⟨hmovable, hown⟩ := hf.owned hbase hG
  obtain ⟨t, ht⟩ := hf.lookup hk
  have htown : t.Over (Unifier.new stem 0).Own := by
    obtain ⟨l₁, l₂, hl, -⟩ := List.lookup_eq_some_iff.1 ht
    exact hown (k, t) (by rw [hl]; simp)
  have hlookup : (base.stacked stem f (f.alone stem G)).types.lookup (base.nextNode + k) =
    some (t.bind (base.unifier.lift (.new stem 0))) := by
    rw [stacked_types, List.lookup_append, lookup_shift base.nextNode k, ht]
    rfl
  simp only [Checker.typeOf?, hlookup, ht, Option.map_some, Checker.settle, stacked_unifier,
    Unifier.apply_atop hbase.tidy hmovable htown, Ty.bind_bind]
  rfl

/-- What was found before stays, whatever functions are checked. -/
theorem typeOf?_stackedAll_before (hbase : base.Hosts stem G) (hG : G.Tidy)
    (hfs : ∀ f ∈ fs, f.AcceptedAlone stem G ∧ f.KeepsSignature stem G)
    (hlimit : (base.stackedAll stem G fs).unifier.WithinLimit) {k : Nat} {t : Ty}
    (hk : k < base.nextNode) (hlookup : base.types.lookup k = some t)
    (ht : t.Over base.unifier.Past) : (base.stackedAll stem G fs).typeOf? k = base.typeOf? k := by
  induction fs generalizing base with
  | nil => rfl
  | cons f fs ih =>
    rw [List.forall_mem_cons] at hfs
    obtain ⟨hlookup₁, ht₁, hsame⟩ := stacked_before hbase hG hfs.1.1 hk hlookup ht
    have hnext := hbase.next hG hfs.1.1 hfs.1.2 (within_head hlimit)
    refine (ih hnext hfs.2 hlimit ?_ hlookup₁ ht₁).trans hsame
    rw [stacked_nextNode]
    exact Nat.lt_add_right _ hk

/-- The types of all expressions are those found alone. -/
theorem typeOf?_stackedAll (hbase : base.Hosts stem G) (hG : G.Tidy)
    (hfs : ∀ f ∈ fs, f.AcceptedAlone stem G ∧ f.KeepsSignature stem G)
    (hlimit : (base.stackedAll stem G fs).unifier.WithinLimit) {i k : Nat}
    (hf : (i, f) ∈ numberedFunctions base.nextNode fs) (hk : k < stmtsNodeCount f.func.body.stmts) :
    (base.stackedAll stem G fs).typeOf? (i + k) = (f.alone stem G).typeOf? k := by
  induction fs generalizing base with
  | nil => cases hf
  | cons g fs ih =>
    rw [List.forall_mem_cons] at hfs
    have hwithin := within_head hlimit
    have hnext := hbase.next hG hfs.1.1 hfs.1.2 hwithin
    rw [numberedFunctions] at hf
    rcases List.mem_cons.1 hf with heq | hf
    · obtain ⟨rfl, rfl⟩ := Prod.mk.inj heq
      have hlt : k < (stmtsNodes f.func.body.stmts).length := by rwa [stmtsNodes_length]
      have hrun := (checksFunc_iff_alone hbase hG).2 ⟨hfs.1.1, hwithin, rfl⟩
      have hvisits := checkFunc_tours hbase.tidy hbase.known (gives_checkFunc (x := ()).2 hrun)
      have hvisited := (hvisits ((stmtsNodes f.func.body.stmts)[k], base.nextNode + k)
        (List.mk_add_mem_zipIdx_iff_getElem?.2 (List.getElem?_eq_getElem hlt))).2
      obtain ⟨t, hlookup, ht⟩ := hvisited.lookup
      refine (typeOf?_stackedAll_before hnext hG hfs.2 hlimit ?_ hlookup ht).trans
        (typeOf?_stacked hbase hG hfs.1.1 hk)
      rw [stacked_nextNode]
      omega
    · exact ih hnext hfs.2 hlimit hf

theorem funcType?_stackedAll_before (base : Checker) {n : String}
    (hfs : ∀ f ∈ fs, f.AcceptedAlone stem G) (hn : n ∉ fs.map (·.name)) :
    (base.stackedAll stem G fs).funcType? n = base.funcType? n := by
  induction fs generalizing base with
  | nil => rfl
  | cons f fs ih =>
    rw [List.forall_mem_cons] at hfs
    rw [List.map_cons, List.mem_cons, not_or] at hn
    refine (ih _ hfs.2 hn.2).trans ?_
    obtain ⟨t, ht⟩ := hfs.1.funcs
    have hname : (n == f.name) = false := by simpa using hn.1
    rw [Checker.funcType?, stacked_funcs, ht, List.singleton_append, List.lookup_cons, hname]
    rfl

/-- The types of all functions are those found alone. -/
theorem funcType?_stackedAll (base : Checker) (hfs : ∀ f ∈ fs, f.AcceptedAlone stem G)
    (hnodup : (fs.map (·.name)).Nodup) (hf : f ∈ fs) :
    (base.stackedAll stem G fs).funcType? f.name = (f.alone stem G).funcType? f.name := by
  induction fs generalizing base with
  | nil => cases hf
  | cons g fs ih =>
    rw [List.forall_mem_cons] at hfs
    rw [List.map_cons, List.nodup_cons] at hnodup
    rcases List.mem_cons.1 hf with rfl | hf
    · refine (funcType?_stackedAll_before _ hfs.2 hnodup.1).trans ?_
      obtain ⟨t, ht⟩ := hfs.1.funcs
      rw [Checker.funcType?, Checker.funcType?, stacked_funcs, ht, List.singleton_append,
        List.lookup_cons_self, List.lookup_cons_self]
    · exact ih _ hfs.2 hnodup.2 hf

end All

end FunRiscv
