import Mathlib
import FunRiscv.Surface.Reader.Definition
import FunRiscv.Proofs.Surface.Statements

/-!
# Reading definitions back

* `reads_func`: what is written for a function reads as a function, which is the same exactly
  if no part of its body has a shape that does not read back. Everything else in a definition
  reads back as it was.
* `Definition.PlainIn`: no part of a function of the definition has such a shape.
* `reads_member`, `reads_definition`: so definitions read back.
-/

namespace FunRiscv

open Reading

/-- A group of members of an object, which is not empty. -/
def Reading.objectGroup (src : Source) (n : String) : Reading (List Field × List FuncDef) := do
  let g ← inContext ("object " ++ n) (objectMembers src)
  if g.1.isEmpty && g.2.isEmpty then unexpected src "field or fn" else return g

section

variable {src : Source} {good : Prop} {bl tail : List UInt8} {fuel bound : Nat}

/-! ### Names -/

/-- Names divided by commas. -/
theorem reads_names {ns : List String} {label : String} {after : List UInt8}
    (hns : ∀ n ∈ ns, IsName n) (hne : ns ≠ []) (hafter : stops [.comma] after = true)
    (hbl : AllBlank bl) :
    Reads src (commaList src (inContext label (name src)) (rounds src))
      (bl ++ (commaJoin (ns.map Text.bytesOf) ++ after)) after good (ns = ·) := by
  refine Reads.of_length fun hsize => ?_
  have hitem : ∀ n ∈ ns, ReadsItem src (inContext label (name src)) Text.bytesOf
      (fun t => wordRun t = []) (src.size + 1) good (· = ·) n := by
    intro n hn bl tail hbl htail _
    exact (reads_name ((hns n hn).1.nextWord hbl htail) (hns n hn).2).inContext _
  refine (reads_commaList hitem (fun _ => rfl) (wordRun_of_stops hafter) (solid_of_stops hafter)
    (nextPunct_ne_of_stops hafter (by simp)) hne hbl (Nat.lt_succ_of_le hsize)
    (Nat.lt_succ_of_le hsize)).mono id fun ms hms => ?_
  rwa [List.forall₂_eq_eq_eq] at hms

/-- Type parameters read back. -/
theorem reads_typeParams {ps : List String} (hps : ∀ n ∈ ps, IsName n)
    (htail : stops [.less] tail = true) :
    Reads src (typeParams src) (typeParamsPrint ps ++ tail) tail good (ps = ·) := by
  cases ps with
  | nil => exact Reads.punct_else (solid_of_stops htail) (nextPunct_ne_of_stops htail
    (by simp)) (Reads.pure rfl)
  | cons p ps =>
    have htext : typeParamsPrint (p :: ps) ++ tail =
      0x3c :: (commaJoin ((p :: ps).map Text.bytesOf) ++ 0x3e :: tail) := by
      simp [typeParamsPrint]
    have hfirst : Starts (commaJoin ((p :: ps).map Text.bytesOf) ++ 0x3e :: tail) := by
      rw [List.map_cons, commaJoin_cons_append]
      exact (hps p (by simp)).1.starts.append _
    rw [htext]
    refine Reads.punct_then (next_less hfirst) ?_
    refine (reads_names hps (by simp) (stops_cons (by decide) tail) allBlank_nil).bind ?_
    rintro _ rfl
    exact (reads_closeAngle rfl).bind fun _ _ => Reads.pure rfl

/-! ### Fields and variants -/

theorem Field.starts {f : Field} (h : f.Legible) : Starts f.print := h.1.1.starts.append _

theorem Field.nextWord_ne {f : Field} (h : f.Legible) (hbl : AllBlank bl) (w : String)
    (hw : isKeyword w = true) (r : List UInt8) : nextWord (bl ++ (f.print ++ r)) ≠ some w := by
  have htext : f.print ++ r = Text.bytesOf f.name ++ 0x3a :: 0x20 :: (f.type.print ++ r) := by
    simp [Field.print]
  rw [htext, (h.1.1.nextWord hbl rfl).2.1]
  rintro heq
  rw [← Option.some.inj heq, h.1.2] at hw
  exact absurd hw (by simp)

theorem reads_field {f : Field} (h : f.Legible) :
    ReadsItem src (field src) Field.print TypeEnd (src.size + 1) good (fun f g => g.bare = f.bare)
      f := by
  intro bl tail hbl htail hn
  have htext : f.print ++ tail =
    Text.bytesOf f.name ++ 0x3a :: ([0x20] ++ (f.type.print ++ tail)) := by simp [Field.print]
  rw [htext] at hn ⊢
  refine (reads_tokenStart (h.1.1.nextWord hbl rfl).1).bind fun s _ => ?_
  refine ((reads_name (h.1.1.nextWord hbl rfl) h.1.2).inContext _).bind ?_
  rintro _ rfl
  refine (reads_expect ⟨rfl, rfl, rfl⟩).bind fun _ _ => ?_
  refine (((TypeExpr.readsBack src h.2).whole (src.size + 1) good [0x20] tail allBlank_blank htail
    ?_).inContext _).bind
    fun t (ht : t.bare = f.type.bare) => (reads_locationFrom s).bind fun _ _ => Reads.pure ?_
  · simp only [List.length_append, List.length_cons] at hn ⊢
    omega
  · simp only [Field.bare, ht]

/-- Fields on one line, up to a closing brace, which is not read. -/
theorem reads_fields_line {fs : List Field} (hfs : ∀ f ∈ fs, f.Legible) (hne : fs ≠ [])
    (hbl : AllBlank bl)
    (hfuel : (bl ++ (commaJoin (fs.map Field.print) ++ 0x20 :: 0x7d :: tail)).length < fuel) :
    Reads src (fields src fuel) (bl ++ (commaJoin (fs.map Field.print) ++ 0x20 :: 0x7d :: tail))
      (0x20 :: 0x7d :: tail) good fun gs => gs.map Field.bare = fs.map Field.bare := by
  induction fs generalizing bl fuel with
  | nil => exact absurd rfl hne
  | cons f fs ih =>
    obtain ⟨fuel, rfl⟩ : ∃ k, fuel = k + 1 := ⟨fuel - 1, by omega⟩
    have hf := hfs f (by simp)
    rw [List.map_cons, commaJoin_cons_append] at hfuel ⊢
    have hfirst := (Field.starts hf).append (After (fs.map Field.print) (0x20 :: 0x7d :: tail))
    have hend : TypeEnd (After (fs.map Field.print) (0x20 :: 0x7d :: tail)) :=
      after_of_forall (fun r => show TypeEnd (0x2c :: r) from stops_cons (by decide) r)
        (show TypeEnd (0x20 :: 0x7d :: tail) from rfl) _
    refine Reads.of_length fun hsize => ?_
    refine Reads.nextIs_else (hfirst.solid_skipped hbl) (hfirst.nextPunct_ne hbl (by decide)) ?_
    refine Reads.nextKeyword_else (hfirst.solid_skipped hbl)
      (Field.nextWord_ne hf hbl _ (by decide) _) ?_
    refine (reads_field hf bl _ hbl hend (Nat.lt_succ_of_le hsize)).bind
      fun g (hg : g.bare = f.bare) => ?_
    cases fs with
    | nil =>
      refine Reads.punct_other (u := .closeBrace) ⟨rfl, rfl, rfl⟩ (by decide) (Reads.pure ?_)
      simp [hg]
    | cons f' fs =>
      refine Reads.punct_then ⟨rfl, rfl, rfl⟩ ?_
      simp only [List.map_cons, After, List.length_append, List.length_cons] at hfuel
      refine (ih (fun f hf => hfs f (by simp [hf])) (by simp) allBlank_blank ?_).bind fun gs hgs =>
        Reads.pure ?_
      · simp only [List.map_cons, List.length_append, List.length_cons, List.length_nil]
        omega
      · simp [hg, hgs]

/-- What may follow the lines of fields: a closing brace or a function. -/
def FieldsEnd (tail : List UInt8) : Prop :=
  (∃ r, Next .closeBrace tail r) ∨ ∃ r, NextWord "fn" tail r

/-- Fields on lines of their own, up to what ends them. -/
theorem reads_fields_lines {d : Nat} {fs : List Field} (hfs : ∀ f ∈ fs, f.Legible)
    (htail : FieldsEnd tail) (hbl : AllBlank bl)
    (hfuel : (bl ++ (linesPrint d Field.print [0x2c, 0x0a] fs ++ tail)).length < fuel) :
    Reads src (fields src fuel) (bl ++ (linesPrint d Field.print [0x2c, 0x0a] fs ++ tail))
      (if fs = [] then bl ++ tail else 0x0a :: tail) good fun gs =>
        gs.map Field.bare = fs.map Field.bare := by
  induction fs generalizing bl fuel with
  | nil =>
    obtain ⟨fuel, rfl⟩ : ∃ k, fuel = k + 1 := ⟨fuel - 1, by omega⟩
    rw [if_pos rfl]
    obtain ⟨r, hclose⟩ | ⟨r, hfn⟩ := htail
    · exact Reads.nextIs_then (hclose.append hbl) (Reads.pure rfl)
    · have hfn' : NextWord "fn" (bl ++ tail) r := by
        rw [NextWord, nextWord, skipped_append hbl]
        exact hfn
      exact Reads.nextIs_else hfn'.1 (hfn'.nextPunct_ne _)
        (Reads.nextKeyword_then hfn' (Reads.pure rfl))
  | cons f fs ih =>
    obtain ⟨fuel, rfl⟩ : ∃ k, fuel = k + 1 := ⟨fuel - 1, by omega⟩
    have hf := hfs f (by simp)
    have htext : bl ++ (linesPrint d Field.print [0x2c, 0x0a] (f :: fs) ++ tail) =
        (bl ++ tabs d) ++
          (f.print ++ 0x2c :: ([0x0a] ++ (linesPrint d Field.print [0x2c, 0x0a] fs ++ tail))) := by
      simp [linesPrint]
    rw [htext] at hfuel ⊢
    have hblanks := hbl.append (allBlank_tabs d)
    have hfirst :=
      (Field.starts hf).append
        (0x2c :: ([0x0a] ++ (linesPrint d Field.print [0x2c, 0x0a] fs ++ tail)))
    refine Reads.of_length fun hsize => ?_
    refine Reads.nextIs_else (hfirst.solid_skipped hblanks)
      (hfirst.nextPunct_ne hblanks (by decide)) ?_
    refine Reads.nextKeyword_else (hfirst.solid_skipped hblanks)
      (Field.nextWord_ne hf hblanks _ (by decide) _) ?_
    refine (reads_field hf _ _ hblanks (stops_cons (by decide) _) (Nat.lt_succ_of_le hsize)).bind
      fun g (hg : g.bare = f.bare) => Reads.punct_then ⟨rfl, rfl, rfl⟩ ?_
    have hshorter : ([0x0a] ++ (linesPrint d Field.print [0x2c, 0x0a] fs ++ tail)).length <
      fuel := by
      simp only [List.length_append, List.length_cons] at hfuel ⊢
      omega
    have hrest := ih (fun f hf => hfs f (by simp [hf])) allBlank_newline hshorter
    have htail' : (if fs = [] then [0x0a] ++ tail else 0x0a :: tail) = 0x0a :: tail := by
      split <;> rfl
    rw [htail'] at hrest
    rw [if_neg (by simp)]
    refine hrest.bind fun gs hgs => Reads.pure ?_
    rw [List.map_cons, hg, hgs, List.map_cons]

/-- A variant reads back. -/
theorem reads_variant {owner : String} {v : Variant} (h : v.Legible) :
    ReadsItem src (variant src owner) Variant.print (fun t => stops [.openBrace] t = true)
      (src.size + 1) good (fun v w => w.bare = v.bare) v := by
  intro bl tail hbl htail _
  cases hfs : v.fields with
  | nil =>
    have htext : v.print ++ tail = Text.bytesOf v.name ++ tail := by simp [Variant.print, hfs]
    rw [htext]
    have hword := h.1.1.nextWord hbl (wordRun_of_stops htail)
    refine (reads_tokenStart hword.1).bind fun s _ => ((reads_name hword h.1.2).inContext _).bind ?_
    rintro _ rfl
    refine Reads.punct_else (solid_of_stops htail) (nextPunct_ne_of_stops htail (by simp))
      ((Reads.pure rfl).bind ?_)
    rintro _ rfl
    exact (reads_locationFrom s).bind fun _ _ => Reads.pure (by simp [Variant.bare, hfs])
  | cons f fs =>
    have htext : v.print ++ tail =
      Text.bytesOf v.name ++
        0x20 :: 0x7b ::
          ([0x20] ++ (commaJoin ((f :: fs).map Field.print) ++ 0x20 :: 0x7d :: tail)) := by
      simp [Variant.print, hfs]
    rw [htext]
    refine Reads.of_length fun hsize => ?_
    refine (reads_tokenStart (h.1.1.nextWord hbl rfl).1).bind fun s _ =>
      ((reads_name (h.1.1.nextWord hbl rfl) h.1.2).inContext _).bind ?_
    rintro _ rfl
    refine Reads.punct_then ⟨rfl, rfl, rfl⟩ ?_
    refine ((reads_fields_line (hfs ▸ h.2) (by simp) allBlank_blank ?_).inContext _).bind
      fun gs hgs => ?_
    · simp only [List.length_append, List.length_cons, rounds] at hsize ⊢
      omega
    refine (reads_expect ⟨rfl, rfl, rfl⟩).bind fun _ _ => (Reads.pure rfl).bind ?_
    rintro _ rfl
    refine (reads_locationFrom s).bind fun _ _ => Reads.pure ?_
    simp only [Variant.bare, hgs, hfs]

/-! ### Functions -/

/-- A function after its keyword reads back if its body does. -/
theorem reads_funcTail {f : FuncDef} {d start : Nat} (h : f.Legible)
    (hfloats : FloatsReadBack (stmtsFloats f.body.stmts)) (hgood : good → stmtsPlain f.body.stmts) :
    Reads src (funcTail src start)
      ([0x20] ++ (Text.bytesOf f.name ++
        0x28 :: (commaJoin (f.params.map Param.print) ++
        0x29 :: (optionalTypePrint [0x20, 0x2d, 0x3e] f.ret ++
        0x20 :: 0x7b ::
          ([0x0a] ++ (stmtsPrint (d + 1) f.body.stmts ++ (tabs d ++ 0x7d :: tail))))))) tail good
    fun g => g.bare = f.bare ↔ stmtsPlain f.body.stmts := by
  obtain ⟨hname, hparams, hret, hbody, hchecked⟩ := h
  have hfloats' := floatsReadBack_flatMap ((stmtsFloats_eq_flatMap _).subst hfloats)
  refine Reads.of_length fun hsize => ?_
  simp only [List.length_append, List.length_cons] at hsize
  refine ((reads_name (hname.1.nextWord allBlank_blank rfl) hname.2).inContext _).bind ?_
  rintro _ rfl
  refine ((reads_params hparams ?_).inContext _).bind fun ps hps => ?_
  · simp only [List.length_append, List.length_cons]
    omega
  refine reads_optionalType (fun r => ⟨rfl, rfl, rfl⟩) rfl (fun t ht => ?_) fun u hu => ?_
  · have hend : TypeEnd
      (0x20 :: 0x7b :: ([0x0a] ++ (stmtsPrint (d + 1) f.body.stmts ++ (tabs d ++ 0x7d :: tail)))) :=
      rfl
    refine ((TypeExpr.readsBack src (hret t ht)).whole (src.size + 1) good [0x20] _ allBlank_blank
      hend ?_).inContext _
    simp only [ht, optionalTypePrint, List.length_append, List.length_cons,
      List.length_nil] at hsize ⊢
    omega
  refine ((reads_block
    (fun s hs => Stmt.readsBack src ((stmtsLegible_iff _).1 hbody s hs) (hfloats' s hs))
    (fun hg => (stmtsPlain_iff _).1 (hgood hg)) ?_).inContext _).bind fun b hb => ?_
  · simp only [List.length_append, List.length_cons]
    omega
  refine (reads_locationFrom start).bind fun _ _ => Reads.pure ?_
  rw [stmtsPlain_iff, ← hb]
  simp [FuncDef.bare, Block.bare, hps, hu, hchecked]

theorem FuncDef.print_append (d : Nat) (f : FuncDef) (tail : List UInt8) :
    f.print d ++ tail =
      Text.bytesOf "fn" ++
        ([0x20] ++ (Text.bytesOf f.name ++
        0x28 :: (commaJoin (f.params.map Param.print) ++
        0x29 :: (optionalTypePrint [0x20, 0x2d, 0x3e] f.ret ++
        0x20 :: 0x7b ::
          ([0x0a] ++ (stmtsPrint (d + 1) f.body.stmts ++ (tabs d ++ 0x7d :: tail))))))) := by
  simp [FuncDef.print]

theorem isWord_fn : IsWord "fn" := isWord_keyword (by decide)

/-! ### Objects -/

theorem reads_objectGroup {n : String} {bs : List UInt8} {P : List Field × List FuncDef → Prop}
    (h : Reads src (objectMembers src) bs tail good P)
    (hne : ∀ g, P g → (g.1.isEmpty && g.2.isEmpty) = false) :
    Reads src (objectGroup src n) bs tail good P := by
  refine (h.inContext _).bind fun g hg => ?_
  rw [hne g hg]
  exact Reads.pure hg

/-- A function of an object is a group of members of its own. -/
theorem reads_objectFunc {f : FuncDef} {n : String} {d : Nat} (h : f.Legible)
    (hfloats : FloatsReadBack (stmtsFloats f.body.stmts)) (hgood : good → stmtsPlain f.body.stmts) :
    ReadsItem src (objectGroup src n) (FuncDef.print d) FieldsEnd bound good
      (fun f g => ∃ a, g = ([], [a]) ∧ (a.bare = f.bare ↔ stmtsPlain f.body.stmts)) f := by
  intro bl tail hbl _ _
  rw [FuncDef.print_append]
  refine reads_objectGroup ?_ ?_
  · refine (reads_tokenStart (isWord_fn.nextWord hbl rfl).1).bind fun s _ =>
      Reads.keyword_then (isWord_fn.nextWord hbl rfl) ?_
    exact (reads_funcTail h hfloats hgood).bind fun a ha => Reads.pure ⟨a, rfl, ha⟩
  · rintro _ ⟨a, rfl, -⟩
    rfl

theorem funcs_of_groups {fs : List FuncDef} {gs : List (List Field × List FuncDef)}
    (h : List.Forall₂ (fun f g =>
      ∃ a : FuncDef, g = ([], [a]) ∧ (a.bare = f.bare ↔ stmtsPlain f.body.stmts)) fs gs) :
    gs.flatMap (·.1) = [] ∧
      ((gs.flatMap (·.2)).map FuncDef.bare = fs.map FuncDef.bare ↔
        ∀ f ∈ fs, stmtsPlain f.body.stmts) := by
  induction h with
  | nil => simp
  | cons hfg _ ih =>
    obtain ⟨a, rfl, ha⟩ := hfg
    simp [ih, ha]

/-- Items on lines of their own are spread out. -/
theorem spread_lines {α : Type} (d : Nat) (print : α → List UInt8) (stop : List UInt8)
    (xs : List α) :
    Spread (fun x => print x ++ stop) xs (linesPrint d print (stop ++ [0x0a]) xs) := by
  induction xs with
  | nil => exact .nil allBlank_nil
  | cons x xs ih =>
    have htext : linesPrint d print (stop ++ [0x0a]) (x :: xs) =
        tabs d ++ (print x ++ stop ++ ([0x0a] ++ linesPrint d print (stop ++ [0x0a]) xs)) := by
      simp [linesPrint]
    rw [htext]
    exact .cons (allBlank_tabs d) (ih.blank allBlank_newline)

theorem nextWord_fn {d : Nat} {f : FuncDef} (hbl : AllBlank bl) (r : List UInt8) :
    ∃ mid, NextWord "fn" (bl ++ (f.print d ++ r)) mid := by
  rw [FuncDef.print_append]
  exact ⟨_, isWord_fn.nextWord hbl rfl⟩

theorem next_closeBrace (d : Nat) (tail : List UInt8) :
    Next .closeBrace (tabs d ++ 0x7d :: tail) tail :=
  Next.append ⟨rfl, rfl, rfl⟩ (allBlank_tabs d)

/-- The functions of an object. -/
theorem reads_objectFuncs {fs : List FuncDef} {n : String} {d : Nat} (hfs : ∀ f ∈ fs, f.Legible)
    (hfloats : ∀ f ∈ fs, FloatsReadBack (stmtsFloats f.body.stmts))
    (hgood : good → ∀ f ∈ fs, stmtsPlain f.body.stmts) (hbl : AllBlank bl)
    (hfuel : (bl ++ (linesPrint (d + 1) (FuncDef.print (d + 1)) [0x0a] fs ++
      (tabs d ++ 0x7d :: tail))).length < fuel) :
    Reads src (manyUntil src (objectGroup src n) .closeBrace fuel)
      (bl ++ (linesPrint (d + 1) (FuncDef.print (d + 1)) [0x0a] fs ++ (tabs d ++ 0x7d :: tail)))
      tail good (List.Forall₂
        (fun f g => ∃ a, g = ([], [a]) ∧ (a.bare = f.bare ↔ stmtsPlain f.body.stmts)) fs) := by
  have hspread : Spread (FuncDef.print (d + 1)) fs (linesPrint (d + 1) (FuncDef.print (d + 1))
    [0x0a] fs) := by
    simpa using spread_lines (d + 1) (FuncDef.print (d + 1)) [] fs
  refine reads_manyUntil hspread
    (fun f hf => reads_objectFunc (hfs f hf) (hfloats f hf) fun hg => hgood hg f hf)
    (fun f _ => isWord_fn.starts.append _) ?_ ?_ (next_closeBrace d tail) (by decide)
    hbl hfuel hfuel
  · exact fun bl hbl => .inl ⟨tail, (next_closeBrace d tail).append hbl⟩
  · exact fun f _ bl r hbl => .inr (nextWord_fn hbl r)

theorem exists_starts_fields {fs : List Field} (hfs : ∀ f ∈ fs, f.Legible) (hne : fs ≠ [])
    (hbl : AllBlank bl) (d : Nat) (tail : List UInt8) :
    ∃ bl' first, AllBlank bl' ∧ Starts first ∧ nextWord (bl' ++ first) ≠ some "fn" ∧
      bl ++ (linesPrint d Field.print [0x2c, 0x0a] fs ++ tail) = bl' ++ first := by
  obtain ⟨f, fs, rfl⟩ := List.exists_cons_of_ne_nil hne
  have hf := hfs f (by simp)
  have hblanks := hbl.append (allBlank_tabs d)
  refine ⟨bl ++ tabs d,
    f.print ++ 0x2c :: 0x0a :: (linesPrint d Field.print [0x2c, 0x0a] fs ++ tail), hblanks,
    (Field.starts hf).append _, Field.nextWord_ne hf hblanks _ (by decide) _, ?_⟩
  simp [linesPrint]

/-- The fields of an object are one group of members. -/
theorem reads_objectFields {fs : List Field} {n : String} {d : Nat} (hfs : ∀ f ∈ fs, f.Legible)
    (hne : fs ≠ []) (htail : FieldsEnd tail) (hbl : AllBlank bl) :
    Reads src (objectGroup src n) (bl ++ (linesPrint d Field.print [0x2c, 0x0a] fs ++ tail))
      (0x0a :: tail) good fun g => g.1.map Field.bare = fs.map Field.bare ∧ g.2 = [] := by
  obtain ⟨bl', first, hblanks, hstarts, hword, htext⟩ := exists_starts_fields hfs hne hbl d tail
  refine reads_objectGroup (Reads.of_length fun hsize => ?_) fun g hg => ?_
  · have hread : Reads src (fields src (rounds src)) _ _ good _ :=
      reads_fields_lines hfs htail hbl (Nat.lt_succ_of_le hsize)
    rw [if_neg hne, htext] at hread
    rw [htext]
    have hsolid := hstarts.solid_skipped hblanks
    refine (reads_tokenStart hsolid).bind fun s _ => Reads.keyword_else hsolid hword ?_
    exact hread.bind fun gs hgs => Reads.pure ⟨hgs, rfl⟩
  · have hnonempty : g.1 ≠ [] := by
      rintro hnil
      exact hne (by simpa [hnil] using hg.1.symm)
    simp [hnonempty]

theorem wordRun_typeParams (ps : List String) (h : wordRun tail = []) :
    wordRun (typeParamsPrint ps ++ tail) = [] := by
  cases ps with
  | nil => exact h
  | cons p ps => rfl

/-- An object after its keyword reads back if its functions do. -/
theorem reads_objectTail {o : ObjectDef} {d start : Nat} (hname : IsName o.name)
    (hparams : ∀ n ∈ o.typeParams, IsName n) (hfields : ∀ f ∈ o.fields, f.Legible)
    (hfuncs : ∀ f ∈ o.funcs, f.Legible)
    (hfloats : ∀ f ∈ o.funcs, FloatsReadBack (stmtsFloats f.body.stmts))
    (hgood : good → ∀ f ∈ o.funcs, stmtsPlain f.body.stmts) :
    Reads src (objectTail src start)
      ([0x20] ++ (Text.bytesOf o.name ++
        (typeParamsPrint o.typeParams ++
        0x20 :: 0x7b ::
          ([0x0a] ++ (linesPrint (d + 1) Field.print [0x2c, 0x0a] o.fields ++
            (linesPrint (d + 1) (FuncDef.print (d + 1)) [0x0a] o.funcs ++
            (tabs d ++ 0x7d :: tail))))))) tail good fun a =>
    a.bare = o.bare ↔ ∀ f ∈ o.funcs, stmtsPlain f.body.stmts := by
  refine ((reads_name (hname.1.nextWord allBlank_blank (wordRun_typeParams _ rfl))
    hname.2).inContext _).bind ?_
  rintro _ rfl
  refine ((reads_typeParams hparams rfl).inContext _).bind ?_
  rintro _ rfl
  refine (reads_expect ⟨rfl, rfl, rfl⟩).bind fun _ _ => ?_
  have hgroups : Reads src (manyUntil src (objectGroup src o.name) .closeBrace (rounds src))
    ([0x0a] ++ (linesPrint (d + 1) Field.print [0x2c, 0x0a] o.fields ++
        (linesPrint (d + 1) (FuncDef.print (d + 1)) [0x0a] o.funcs ++ (tabs d ++ 0x7d :: tail))))
    tail good fun gs => (gs.flatMap (·.1)).map Field.bare = o.fields.map Field.bare ∧
      ((gs.flatMap (·.2)).map FuncDef.bare = o.funcs.map FuncDef.bare ↔
        ∀ f ∈ o.funcs, stmtsPlain f.body.stmts) := by
    refine Reads.of_length fun hsize => ?_
    by_cases hempty : o.fields = []
    · rw [hempty] at hsize ⊢
      refine (reads_objectFuncs hfuncs hfloats hgood allBlank_newline
        (Nat.lt_succ_of_le hsize)).mono id fun gs hgs => ?_
      obtain ⟨hnone, hbare⟩ := funcs_of_groups hgs
      exact ⟨by rw [hnone], hbare⟩
    · have hend : FieldsEnd (linesPrint (d + 1) (FuncDef.print (d + 1)) [0x0a] o.funcs ++
        (tabs d ++ 0x7d :: tail)) := by
        cases o.funcs with
        | nil => exact .inl ⟨tail, next_closeBrace d tail⟩
        | cons f fs =>
          have htext : linesPrint (d + 1) (FuncDef.print (d + 1)) [0x0a] (f :: fs) ++
            (tabs d ++ 0x7d :: tail) =
              tabs (d + 1) ++
                (f.print (d + 1) ++ 0x0a :: (linesPrint (d + 1) (FuncDef.print (d + 1)) [0x0a] fs ++
                (tabs d ++ 0x7d :: tail))) := by simp [linesPrint]
          rw [htext]
          exact .inr (nextWord_fn (allBlank_tabs _) _)
      have hshorter :
        ([0x0a] ++ (linesPrint (d + 1) (FuncDef.print (d + 1)) [0x0a] o.funcs ++
          (tabs d ++ 0x7d :: tail))).length < src.size := by
        obtain ⟨f, fs, hfs⟩ := List.exists_cons_of_ne_nil hempty
        rw [hfs] at hsize
        simp only [linesPrint, List.flatMap_cons, List.length_append, List.length_cons] at hsize ⊢
        omega
      obtain ⟨bl', first, hblanks, hstarts, -, htext⟩ :=
        exists_starts_fields hfields hempty allBlank_newline (d + 1)
          (linesPrint (d + 1) (FuncDef.print (d + 1)) [0x0a] o.funcs ++ (tabs d ++ 0x7d :: tail))
      refine Reads.punct_else (by rw [htext]; exact hstarts.solid_skipped hblanks)
        (by rw [htext]; exact hstarts.nextPunct_ne hblanks (by decide)) ?_
      refine (reads_objectFields hfields hempty hend allBlank_newline).bind fun g hg => ?_
      refine (reads_objectFuncs hfuncs hfloats hgood allBlank_newline hshorter).bind fun gs hgs =>
        Reads.pure ?_
      obtain ⟨hnone, hbare⟩ := funcs_of_groups hgs
      simp [hg, hnone, hbare]
  refine hgroups.bind fun gs hgs => (reads_locationFrom start).bind fun _ _ => Reads.pure ?_
  simp [ObjectDef.bare, hgs]

/-! ### Types and aliases -/

/-- A type definition after its keyword reads back. -/
theorem reads_typeTail {t : TypeDef} {d start : Nat} (hname : IsName t.name)
    (hparams : ∀ n ∈ t.typeParams, IsName n) (hvariants : ∀ v ∈ t.variants, v.Legible) :
    Reads src (typeTail src start)
      ([0x20] ++ (Text.bytesOf t.name ++
        (typeParamsPrint t.typeParams ++
        0x20 :: 0x7b ::
          ([0x0a] ++ (linesPrint (d + 1) Variant.print [0x2c, 0x0a] t.variants ++
            (tabs d ++ 0x7d :: tail)))))) tail good
      fun a => a.bare = t.bare := by
  refine ((reads_name (hname.1.nextWord allBlank_blank (wordRun_typeParams _ rfl))
    hname.2).inContext _).bind ?_
  rintro _ rfl
  refine ((reads_typeParams hparams rfl).inContext _).bind ?_
  rintro _ rfl
  refine (reads_expect ⟨rfl, rfl, rfl⟩).bind fun _ _ => Reads.of_length fun hsize => ?_
  refine (reads_closedList_of_spread (spread_lines (d + 1) Variant.print [0x2c] t.variants)
    (fun v hv => reads_variant (hvariants v hv)) (fun v hv => (hvariants v hv).1.1.starts.append _)
    (fun r => stops_cons (by decide) r) (next_closeBrace d tail) (by decide) allBlank_newline
    (Nat.lt_succ_of_le hsize) (Nat.lt_succ_of_le hsize)).bind fun vs hvs => ?_
  refine (reads_locationFrom start).bind fun _ _ => Reads.pure ?_
  simp only [TypeDef.bare, map_eq_of_forall₂ hvs]

/-- An alias after its keyword reads back. -/
theorem reads_aliasTail {a : TypeAlias} {start : Nat} (hname : IsName a.name)
    (hparams : ∀ n ∈ a.typeParams, IsName n) (htype : a.type.Legible) :
    Reads src (aliasTail src start)
      ([0x20] ++ (Text.bytesOf a.name ++
        (typeParamsPrint a.typeParams ++
        0x20 :: 0x3d :: ([0x20] ++ (a.type.print ++ 0x3b :: tail))))) tail good fun b =>
    b.bare = a.bare := by
  refine Reads.of_length fun hsize => ?_
  refine ((reads_name (hname.1.nextWord allBlank_blank (wordRun_typeParams _ rfl))
    hname.2).inContext _).bind ?_
  rintro _ rfl
  refine ((reads_typeParams hparams rfl).inContext _).bind ?_
  rintro _ rfl
  refine (reads_expect ⟨rfl, rfl, rfl⟩).bind fun _ _ => ?_
  refine (((TypeExpr.readsBack src htype).whole (src.size + 1) good [0x20] _ allBlank_blank
    (stops_cons (by decide) tail) ?_).inContext
    _).bind fun u (hu : u.bare = a.type.bare) => ?_
  · simp only [List.length_append, List.length_cons] at hsize ⊢
    omega
  refine (reads_punct ⟨rfl, rfl, rfl⟩).bind fun _ _ =>
    (reads_locationFrom start).bind fun _ _ => Reads.pure ?_
  simp only [TypeAlias.bare, hu]

/-! ### Definitions -/

/-- No part of a function of the definition has a shape that does not read back. -/
def Definition.PlainIn (scope : String) (d : Definition) : Prop :=
  ∀ f ∈ d.functions scope, stmtsPlain f.func.body.stmts

/-- The doubles in the functions of a definition read back. -/
def Definition.FloatsReadBackIn (scope : String) (d : Definition) : Prop :=
  ∀ f ∈ d.functions scope, FloatsReadBack (stmtsFloats f.func.body.stmts)

/-- The keyword of a definition. -/
def Definition.keyword : Definition → String
  | .func _ => "fn"
  | .type _ => "type"
  | .object _ => "object"
  | .alias _ => "alias"
  | .module .. => "module"

theorem Definition.isWord_keyword (d : Definition) : IsWord d.keyword := by
  cases d <;> exact FunRiscv.isWord_keyword (by simp [Definition.keyword, keywords])

/-- A definition starts with its keyword and a blank. -/
theorem Definition.exists_print (k : Nat) (d : Definition) :
    ∃ rest, d.print k = Text.bytesOf d.keyword ++ 0x20 :: rest := by
  cases d <;> exact ⟨_, rfl⟩

theorem Definition.nextWord {k : Nat} {d : Definition} (hbl : AllBlank bl) (r : List UInt8) :
    ∃ mid, NextWord d.keyword (bl ++ (d.print k ++ r)) mid := by
  obtain ⟨rest, hprint⟩ := d.exists_print k
  rw [hprint, List.append_assoc]
  exact ⟨_, d.isWord_keyword.nextWord hbl rfl⟩

theorem Definition.starts (k : Nat) (d : Definition) : Starts (d.print k) := by
  obtain ⟨rest, hprint⟩ := d.exists_print k
  rw [hprint]
  exact d.isWord_keyword.starts.append _

/-- A definition that is no module reads back if its functions do. -/
theorem reads_member {scope : String} {d : Definition} {k : Nat} (h : d.Legible false)
    (hfloats : d.FloatsReadBackIn scope) (hgood : good → d.PlainIn scope) :
    ReadsItem src (member src) (Definition.print k) (fun _ => True) bound good
      (fun d a => a.bare = d.bare ↔ d.PlainIn scope) d := by
  intro bl tail hbl _ _
  obtain ⟨mid, hword⟩ := Definition.nextWord (k := k) (d := d) hbl tail
  refine (reads_tokenStart hword.1).bind fun s _ => ?_
  cases d with
  | func f =>
    have hf : f.Legible := by simpa only [Definition.Legible] using h
    have htext : (Definition.func f).print k ++ tail = _ := FuncDef.print_append k f tail
    have hplain : (Definition.func f).PlainIn scope ↔ stmtsPlain f.body.stmts := by
      simp [Definition.PlainIn, Definition.functions]
    rw [htext]
    refine Reads.keyword_then (isWord_fn.nextWord hbl rfl) ?_
    have hfloats' : FloatsReadBack (stmtsFloats f.body.stmts) :=
      hfloats ⟨scope ++ f.name, f⟩ (by simp [Definition.functions])
    refine (reads_funcTail hf hfloats' fun hg => hplain.1 (hgood hg)).bind fun a ha => Reads.pure ?_
    show _ ↔ (Definition.func f).PlainIn scope
    rw [hplain, ← ha]
    simp [Definition.bare]
  | type t =>
    simp only [Definition.Legible] at h
    have htext : (Definition.type t).print k ++ tail =
      Text.bytesOf "type" ++
          ([0x20] ++ (Text.bytesOf t.name ++
          (typeParamsPrint t.typeParams ++
          0x20 :: 0x7b ::
            ([0x0a] ++ (linesPrint (k + 1) Variant.print [0x2c, 0x0a] t.variants ++
              (tabs k ++ 0x7d :: tail)))))) := by simp [Definition.print, TypeDef.print]
    refine Reads.keyword_other hword (by simp [Definition.keyword]) ?_
    rw [htext]
    refine Reads.keyword_then ((isWord_keyword (by decide)).nextWord hbl rfl) ?_
    refine (reads_typeTail h.1 h.2.1 h.2.2).bind fun a ha => Reads.pure ?_
    simp [Definition.bare, ha, Definition.PlainIn, Definition.functions]
  | object o =>
    simp only [Definition.Legible] at h
    have htext : (Definition.object o).print k ++ tail =
      Text.bytesOf "object" ++
          ([0x20] ++ (Text.bytesOf o.name ++
          (typeParamsPrint o.typeParams ++
          0x20 :: 0x7b ::
            ([0x0a] ++ (linesPrint (k + 1) Field.print [0x2c, 0x0a] o.fields ++
              (linesPrint (k + 1) (FuncDef.print (k + 1)) [0x0a] o.funcs ++
              (tabs k ++ 0x7d :: tail))))))) := by
      simp [Definition.print, ObjectDef.print]
    have hplain : (Definition.object o).PlainIn scope ↔ ∀ f ∈ o.funcs, stmtsPlain f.body.stmts := by
      simp [Definition.PlainIn, Definition.functions]
    refine Reads.keyword_other hword (by simp [Definition.keyword])
      (Reads.keyword_other hword (by simp [Definition.keyword]) ?_)
    rw [htext]
    refine Reads.keyword_then ((isWord_keyword (by decide)).nextWord hbl rfl) ?_
    have hfloats' : ∀ f ∈ o.funcs, FloatsReadBack (stmtsFloats f.body.stmts) := by
      simpa [Definition.FloatsReadBackIn, Definition.functions] using hfloats
    refine (reads_objectTail h.1 h.2.1 h.2.2.1 h.2.2.2 hfloats' fun hg => hplain.1 (hgood hg)).bind
      fun a ha => Reads.pure ?_
    show _ ↔ (Definition.object o).PlainIn scope
    rw [hplain, ← ha]
    simp [Definition.bare]
  | «alias» a =>
    simp only [Definition.Legible] at h
    have htext : (Definition.alias a).print k ++ tail =
      Text.bytesOf "alias" ++
        ([0x20] ++ (Text.bytesOf a.name ++
        (typeParamsPrint a.typeParams ++
        0x20 :: 0x3d :: ([0x20] ++ (a.type.print ++ 0x3b :: tail))))) := by
      simp [Definition.print, TypeAlias.print]
    refine Reads.keyword_other hword (by simp [Definition.keyword])
      (Reads.keyword_other hword (by simp [Definition.keyword])
        (Reads.keyword_other hword (by simp [Definition.keyword]) ?_))
    rw [htext]
    refine Reads.keyword_then ((isWord_keyword (by decide)).nextWord hbl rfl) ?_
    refine (reads_aliasTail h.1 h.2.1 h.2.2).bind fun b hb => Reads.pure ?_
    simp [Definition.bare, hb, Definition.PlainIn, Definition.functions]
  | module l n ds => simp [Definition.Legible] at h

/-! ### Modules -/

theorem spread_definitions (k : Nat) (ds : List Definition) :
    Spread (Definition.print k) ds (definitionsPrint k ds) := by
  induction ds with
  | nil => exact .nil allBlank_nil
  | cons d ds ih =>
    rw [definitionsPrint]
    refine .cons (allBlank_tabs k) (Spread.blank allBlank_newline (Spread.blank ?_ ih))
    split
    · exact allBlank_nil
    · exact allBlank_newline

theorem mem_functionsOf {scope : String} {ds : List Definition} {f : NamedFunction} :
    f ∈ functionsOf scope ds ↔ ∃ d ∈ ds, f ∈ d.functions scope := by
  induction ds with
  | nil => simp [functionsOf]
  | cons d ds ih => simp [functionsOf, ih]

/-- A definition reads back if its functions do. -/
theorem reads_definition {scope : String} {d : Definition} {k : Nat} (h : d.Legible true)
    (hfloats : d.FloatsReadBackIn scope) (hgood : good → d.PlainIn scope) :
    ReadsItem src (definition src) (Definition.print k) (fun _ => True) bound good
      (fun d a => a.bare = d.bare ↔ d.PlainIn scope) d := by
  intro bl tail hbl htail hn
  obtain ⟨mid, hword⟩ := Definition.nextWord (k := k) (d := d) hbl tail
  refine (reads_tokenStart hword.1).bind fun s _ => ?_
  cases d with
  | module l n ds =>
    have htext : (Definition.module l n ds).print k ++ tail =
      Text.bytesOf "module" ++
        ([0x20] ++ (Text.bytesOf n ++
        0x20 :: 0x7b ::
          ([0x0a] ++ (definitionsPrint (k + 1) ds ++ (tabs k ++ 0x7d :: tail))))) := by
      simp [Definition.print]
    simp only [Definition.Legible] at h
    obtain ⟨hname, hds⟩ := h
    have hplain : (Definition.module l n ds).PlainIn scope ↔
      ∀ d ∈ ds, d.PlainIn (scope ++ n ++ "/") := by
      simp only [Definition.PlainIn, Definition.functions, mem_functionsOf]
      constructor
      · exact fun h d hd f hf => h f ⟨d, hd, hf⟩
      · rintro h f ⟨d, hd, hf⟩
        exact h d hd f hf
    have hfloats' : ∀ d ∈ ds, d.FloatsReadBackIn (scope ++ n ++ "/") := by
      intro d hd f hf
      refine hfloats f ?_
      rw [Definition.functions, mem_functionsOf]
      exact ⟨d, hd, hf⟩
    rw [htext]
    refine Reads.keyword_then ((isWord_keyword (by decide)).nextWord hbl rfl) ?_
    refine ((reads_name (hname.1.nextWord allBlank_blank rfl) hname.2).inContext _).bind ?_
    rintro _ rfl
    refine (reads_expect ⟨rfl, rfl, rfl⟩).bind fun _ _ => Reads.of_length fun hsize => ?_
    have hitems : ∀ d ∈ ds, ReadsItem src (inContext ("module " ++ n) (member src))
        (Definition.print (k + 1)) (fun _ => True) (src.size + 1) good
        (fun d a => a.bare = d.bare ↔ d.PlainIn (scope ++ n ++ "/")) d :=
      fun d hd bl tail hbl htail hn =>
        (reads_member (hds d hd) (hfloats' d hd) (fun hg => hplain.1 (hgood hg) d hd) bl tail hbl
          htail hn).inContext _
    refine (reads_manyUntil (spread_definitions (k + 1) ds) hitems (fun d _ => d.starts (k + 1))
      (fun _ _ => trivial) (fun _ _ _ _ _ => trivial) (next_closeBrace k tail) (by decide)
      allBlank_newline (Nat.lt_succ_of_le hsize) (Nat.lt_succ_of_le hsize)).bind fun as has => ?_
    refine (reads_locationFrom s).bind fun _ _ => Reads.pure ?_
    show _ ↔ (Definition.module l n ds).PlainIn scope
    rw [hplain, ← map_eq_iff_of_forall₂ has]
    simp [Definition.bare]
  | func f =>
    have hother : (Definition.func f).keyword ≠ "module" := by simp [Definition.keyword]
    exact Reads.keyword_other hword hother
      (reads_member (by simpa only [Definition.Legible] using h) hfloats hgood bl tail hbl htail hn)
  | type t =>
    have hother : (Definition.type t).keyword ≠ "module" := by simp [Definition.keyword]
    exact Reads.keyword_other hword hother
      (reads_member (by simpa only [Definition.Legible] using h) hfloats hgood bl tail hbl htail hn)
  | object o =>
    have hother : (Definition.object o).keyword ≠ "module" := by simp [Definition.keyword]
    exact Reads.keyword_other hword hother
      (reads_member (by simpa only [Definition.Legible] using h) hfloats hgood bl tail hbl htail hn)
  | «alias» a =>
    have hother : (Definition.alias a).keyword ≠ "module" := by simp [Definition.keyword]
    exact Reads.keyword_other hword hother
      (reads_member (by simpa only [Definition.Legible] using h) hfloats hgood bl tail hbl htail hn)

end

end FunRiscv
