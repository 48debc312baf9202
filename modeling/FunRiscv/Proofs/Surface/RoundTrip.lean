import Mathlib
import FunRiscv.Proofs.Surface.Definitions
import FunRiscv.Proofs.Surface.Formatting
import FunRiscv.Proofs.Surface.Legible

/-!
# Formatting and reading are inverse

* `reads_importTail`, `reads_items`: what is written for imports and definitions reads back.
* `Program.parse_format_iff`: the source form of a program that was read reads as the same program,
  up to locations, exactly if no part of it has one of three shapes.
-/

namespace FunRiscv

open Reading

section

variable {src : Source} {good : Prop} {bl tail : List UInt8} {fuel : Nat}

/-! ### Imports -/

theorem isWord_import : IsWord "import" := isWord_keyword (by decide)

/-- The names of an import between braces, if there are any. -/
def importNamesPrint (ns : List String) : List UInt8 :=
  if ns.isEmpty then [] else
    0x20 :: 0x7b :: 0x20 :: (commaJoin (ns.map Text.bytesOf) ++ [0x20, 0x7d])

/-- An import after its keyword reads back. -/
theorem reads_importTail {i : Import} {start : Nat} (hpath : IsName i.path)
    (hnames : ∀ n ∈ i.names, IsName n) :
    Reads src (importTail src start)
      ([0x20] ++ (Text.bytesOf i.path ++ (importNamesPrint i.names ++ 0x3b :: tail))) tail good
      fun a => a.bare = i.bare := by
  cases hns : i.names with
  | nil =>
    refine ((reads_name (hpath.1.nextWord allBlank_blank rfl) hpath.2).inContext _).bind ?_
    rintro _ rfl
    refine Reads.punct_other (u := .semicolon) ⟨rfl, rfl, rfl⟩ (by decide)
      ((Reads.pure rfl).bind ?_)
    rintro _ rfl
    refine (reads_punct ⟨rfl, rfl, rfl⟩).bind fun _ _ =>
      (reads_locationFrom start).bind fun _ _ => Reads.pure ?_
    simp [Import.bare, hns]
  | cons n ns =>
    have htext : importNamesPrint (n :: ns) ++ 0x3b :: tail =
      0x20 :: 0x7b ::
        ([0x20] ++ (commaJoin ((n :: ns).map Text.bytesOf) ++ 0x20 :: 0x7d :: 0x3b :: tail)) := by
      simp [importNamesPrint]
    rw [htext]
    refine ((reads_name (hpath.1.nextWord allBlank_blank rfl) hpath.2).inContext _).bind ?_
    rintro _ rfl
    refine Reads.punct_then ⟨rfl, rfl, rfl⟩ ?_
    refine (reads_names (hns ▸ hnames) (by simp) rfl allBlank_blank).bind ?_
    rintro _ rfl
    refine (reads_expect ⟨rfl, rfl, rfl⟩).bind fun _ _ => (Reads.pure rfl).bind ?_
    rintro _ rfl
    refine (reads_punct ⟨rfl, rfl, rfl⟩).bind fun _ _ =>
      (reads_locationFrom start).bind fun _ _ => Reads.pure ?_
    simp [Import.bare, hns]

/-! ### Items -/

theorem size_eq_of_at_nil {s : Nat} (h : src.At s []) : s = src.size := by
  have hlength := src.length_rest s
  rw [h.1, List.length_nil] at hlength
  have hle := h.2
  omega

theorem ne_size_of_at {s : Nat} {bs : List UInt8} (h : src.At s bs) (hne : bs ≠ []) :
    s ≠ src.size := by
  have hlength := src.length_rest s
  rw [h.1] at hlength
  have hpos := List.length_pos_of_ne_nil hne
  omega

/-- At the end of the text nothing is left to read. -/
theorem reads_items_end (hbl : AllBlank bl) :
    Reads src (items src (fuel + 1)) bl bl good fun p => p = { imports := [], defs := [] } := by
  have hskip : skipped bl = [] := by
    have happ := skipped_append hbl []
    rwa [List.append_nil] at happ
  refine (reads_tokenStart (by rw [hskip]; rfl)).bind fun s hs => ?_
  rw [hskip] at hs
  rw [if_pos (size_eq_of_at_nil hs)]
  exact Reads.pure rfl

/-- Where a word comes next there is an item. -/
theorem reads_items_step {w : String} {mid bs : List UInt8} {P : Program → Prop}
    (hw : NextWord w bs mid)
    (h : ∀ s, Reads src (keyword src "import" >>= fun b => if b = true then (do
        let i ← importTail src s
        let p ← items src fuel
        return { p with imports := i :: p.imports })
      else do
        let d ← definition src
        let p ← items src fuel
        return { p with defs := d :: p.defs }) bs tail good P) :
    Reads src (items src (fuel + 1)) bs tail good P := by
  refine (reads_tokenStart hw.1).bind fun s hs => ?_
  obtain ⟨b, rest, hskip, -⟩ := hw.exists_letter
  rw [hskip] at hs
  rw [if_neg (ne_size_of_at hs (by simp))]
  exact h s

/-- Definitions, up to the end of the text. -/
theorem reads_items_definitions {ds : List Definition} {bs : List UInt8}
    (h : Spread (Definition.print 0) ds bs) (hds : ∀ d ∈ ds, d.Legible true)
    (hfloats : ∀ d ∈ ds, d.FloatsReadBackIn "") (hgood : good → ∀ d ∈ ds, d.PlainIn "")
    (hbl : AllBlank bl) (hfuel : (bl ++ bs).length < fuel) :
    ∃ tail, Reads src (items src fuel) (bl ++ bs) tail good fun p =>
      p.imports = [] ∧ List.Forall₂ (fun d a => a.bare = d.bare ↔ d.PlainIn "") ds p.defs := by
  induction h generalizing bl fuel with
  | nil hbl' =>
    obtain ⟨fuel, rfl⟩ : ∃ n, fuel = n + 1 := ⟨fuel - 1, by omega⟩
    refine ⟨_, (reads_items_end (hbl.append hbl')).mono id ?_⟩
    rintro _ rfl
    exact ⟨rfl, .nil⟩
  | @cons bl' bs d ds hbl' _ ih =>
    obtain ⟨fuel, rfl⟩ : ∃ n, fuel = n + 1 := ⟨fuel - 1, by omega⟩
    have hassoc : bl ++ (bl' ++ (d.print 0 ++ bs)) = (bl ++ bl') ++ (d.print 0 ++ bs) := by simp
    have hblanks := hbl.append hbl'
    rw [hassoc] at hfuel ⊢
    have hpos : 0 < (d.print 0).length := List.length_pos_of_ne_nil (d.starts 0).ne_nil
    have hshorter : ([] ++ bs).length < fuel := by
      simp only [List.length_append, List.length_nil] at hfuel ⊢
      omega
    obtain ⟨tail, htail⟩ :=
      ih (fun e he => hds e (by simp [he])) (fun e he => hfloats e (by simp [he]))
        (fun hg e he => hgood hg e (by simp [he])) allBlank_nil hshorter
    obtain ⟨mid, hword⟩ := Definition.nextWord (k := 0) (d := d) hblanks bs
    have hother : d.keyword ≠ "import" := by cases d <;> simp [Definition.keyword]
    refine ⟨tail, reads_items_step hword fun s => Reads.keyword_other hword hother ?_⟩
    refine (reads_definition (hds d (by simp)) (hfloats d (by simp))
      (fun hg => hgood hg d (by simp)) _ bs hblanks trivial (Nat.lt_succ_self _)).bind fun a ha =>
      htail.bind fun p hp => Reads.pure ⟨hp.1, .cons ha hp.2⟩

/-- Imports, and then definitions up to the end of the text. -/
theorem reads_items {is : List Import} {ds : List Definition} {bs : List UInt8}
    (his : ∀ i ∈ is, IsName i.path ∧ ∀ n ∈ i.names, IsName n)
    (h : Spread (Definition.print 0) ds bs) (hds : ∀ d ∈ ds, d.Legible true)
    (hfloats : ∀ d ∈ ds, d.FloatsReadBackIn "") (hgood : good → ∀ d ∈ ds, d.PlainIn "")
    (hbl : AllBlank bl)
    (hfuel : (bl ++ (linesPrint 0 Import.print [0x0a] is ++ bs)).length < fuel) :
    ∃ tail, Reads src (items src fuel) (bl ++ (linesPrint 0 Import.print [0x0a] is ++ bs))
      tail good fun p =>
      p.imports.map Import.bare = is.map Import.bare ∧
        List.Forall₂ (fun d a => a.bare = d.bare ↔ d.PlainIn "") ds p.defs := by
  induction is generalizing bl fuel with
  | nil =>
    have hdefinitions : ∃ tail, Reads src (items src fuel) (bl ++ bs) tail good fun p =>
        p.imports = [] ∧ List.Forall₂ (fun d a => a.bare = d.bare ↔ d.PlainIn "") ds p.defs :=
      reads_items_definitions h hds hfloats hgood hbl hfuel
    obtain ⟨tail, htail⟩ := hdefinitions
    exact ⟨tail, htail.mono id fun p hp => ⟨by rw [hp.1], hp.2⟩⟩
  | cons i is ih =>
    obtain ⟨fuel, rfl⟩ : ∃ n, fuel = n + 1 := ⟨fuel - 1, by omega⟩
    have htext : bl ++ (linesPrint 0 Import.print [0x0a] (i :: is) ++ bs) =
      bl ++ (Text.bytesOf "import" ++
          ([0x20] ++ (Text.bytesOf i.path ++ (importNamesPrint i.names ++ 0x3b :: ([0x0a] ++
          (linesPrint 0 Import.print [0x0a] is ++ bs)))))) := by
      simp [linesPrint, Import.print, importNamesPrint, tabs]
    rw [htext] at hfuel ⊢
    have hshorter : ([0x0a] ++ (linesPrint 0 Import.print [0x0a] is ++ bs)).length < fuel := by
      simp only [List.length_append, List.length_cons] at hfuel ⊢
      omega
    obtain ⟨tail, htail⟩ := ih (fun j hj => his j (by simp [hj])) allBlank_newline hshorter
    have hword : NextWord "import"
      (bl ++ (Text.bytesOf "import" ++
        ([0x20] ++ (Text.bytesOf i.path ++
        (importNamesPrint i.names ++
        0x3b :: ([0x0a] ++ (linesPrint 0 Import.print [0x0a] is ++ bs))))))) _ :=
      isWord_import.nextWord hbl rfl
    obtain ⟨hpath, hnames⟩ := his i (by simp)
    refine ⟨tail, reads_items_step hword fun s => Reads.keyword_then hword ?_⟩
    refine (reads_importTail hpath hnames).bind fun a ha =>
      htail.bind fun p hp => Reads.pure ⟨?_, hp.2⟩
    rw [List.map_cons, List.map_cons, ha, hp.1]

end

/-! ### Programs -/

theorem Program.plain_iff {p : Program} : p.Plain ↔ ∀ d ∈ p.defs, d.PlainIn "" := by
  simp only [Program.Plain, Program.functions, Definition.PlainIn, mem_functionsOf]
  constructor
  · exact fun h d hd f hf => h f ⟨d, hd, hf⟩
  · rintro h f ⟨d, hd, hf⟩
    exact h d hd f hf

theorem Definition.floatsReadBackIn_of_mem {p : Program} (h : FloatsReadBack p.floats)
    {d : Definition} (hd : d ∈ p.defs) : d.FloatsReadBackIn "" := by
  intro f hf
  have hmem : f ∈ p.functions := mem_functionsOf.2 ⟨d, hd, hf⟩
  exact floatsReadBack_flatMap h f hmem

/-- What is written for a legible program reads as the same program exactly if the program is plain.
If it is not, then the text may not be read at all. -/
theorem Program.parse_print {p : Program} {src : Source} (h : p.Legible)
    (hfloats : FloatsReadBack p.floats) (hsrc : src.bytes.toList = p.print) :
    (∃ q, Program.parse src = .ok q ∧ q.bare = p.bare) ↔ p.Plain := by
  have hstart : src.At 0 ([] ++ p.print) := ⟨by simp [Source.rest, hsrc], Nat.zero_le _⟩
  have hgap : Spread (Definition.print 0) p.defs
    ((if p.imports.isEmpty || p.defs.isEmpty then [] else [0x0a]) ++ definitionsPrint 0
      p.defs) := by
    refine Spread.blank ?_ (spread_definitions 0 p.defs)
    split
    · exact allBlank_nil
    · exact allBlank_newline
  have hsize : ([] ++ p.print).length < rounds src := by
    rw [List.nil_append, ← hsrc, rounds, Source.size, Array.length_toList]
    omega
  have hitems : ∃ tail, Reads src (items src (rounds src)) ([] ++ p.print) tail p.Plain fun q =>
      q.imports.map Import.bare = p.imports.map Import.bare ∧
        List.Forall₂ (fun d a => a.bare = d.bare ↔ d.PlainIn "") p.defs q.defs :=
    reads_items h.1 hgap h.2 (fun d hd => Definition.floatsReadBackIn_of_mem hfloats hd)
      Program.plain_iff.1 allBlank_nil hsize
  obtain ⟨tail, hread⟩ := hitems
  obtain ⟨q, j, hq, -, himports, hdefs⟩ | ⟨⟨e, he⟩, hplain⟩ := hread 0 hstart
  · have hparse : Program.parse src = .ok q := Program.parse_eq_ok_iff.2 ⟨j, hq⟩
    have hbare : q.bare = p.bare ↔ p.Plain := by
      rw [Program.plain_iff, ← map_eq_iff_of_forall₂ hdefs]
      simp [Program.bare, himports]
    simp [hparse, hbare]
  · refine iff_of_false ?_ hplain
    rintro ⟨q, hq, -⟩
    obtain ⟨j, hj⟩ := Program.parse_eq_ok_iff.1 hq
    rw [he] at hj
    exact absurd hj (by simp)

/-- Formatting and reading are inverse: the source form of a program that was read reads as the same
program, up to locations, exactly if no part of it is a number with digits for a field, a
constructor pattern without arguments or capital, or a conditional expression as a statement. -/
theorem Program.parse_format_iff {src : Source} {p : Program} (hparse : Program.parse src = .ok p)
    (hfloats : FloatsReadBack p.floats) (hdepth : ∀ e, p.format = .error e → e.cause ≠ .tooDeep) :
    ∃ text, p.format = .ok text ∧
      ((∃ q, Program.parse { bytes := text.toUTF8.data } = .ok q ∧ q.bare = p.bare) ↔ p.Plain) := by
  have hlegible := Program.legible_of_parse hparse
  obtain ⟨text, htext, hbytes⟩ := (Program.renders_print hlegible).ok hdepth
  exact ⟨text, htext, Program.parse_print hlegible hfloats hbytes⟩

/-- A function that returns a double. -/
def halfSource : Source := { bytes := "fn f() \x7b return 1.5; \x7d".toUTF8.data }

/-- The double `1.5`. -/
def oneAndAHalf : Float := Float.ofBits 0x3ff8000000000000

/-- What `halfSource` reads as. -/
def halfProgram : Program where
  imports := []
  defs := [.func {
    loc := ⟨1, 1, 0, 22⟩, name := "f", params := [], ret := none, checked := false
    body := { loc := ⟨1, 8, 7, 22⟩, stmts := [.ret ⟨1, 10, 9, 20⟩
      (some (.float ⟨1, 17, 16, 19⟩ oneAndAHalf))] } }]

theorem readsBack_oneAndAHalf : Number.ReadsBack oneAndAHalf := by
  have hdecode : Number.decode oneAndAHalf = .finite false ⟨6755399441055744, -52⟩ := by
    decide +kernel
  have hbody : (Number.Magnitude.mk 6755399441055744 (-52)).shortest.stripped.positional =
    "1.5" := by decide +kernel
  have htext : Number.text oneAndAHalf = "1.5" := by
    simp only [Number.text, hdecode, hbody]
    simp
  rw [Number.ReadsBack, htext]
  decide +kernel

theorem Program.parse_format_half : Program.parse halfSource = .ok halfProgram ∧
    ∃ text, halfProgram.format = .ok text ∧
      ∃ q, Program.parse { bytes := text.toUTF8.data } = .ok q ∧ q.bare = halfProgram.bare := by
  have hparse : Program.parse halfSource = .ok halfProgram := by with_unfolding_all rfl
  have hfloats : FloatsReadBack halfProgram.floats := by
    rintro v hv -
    obtain rfl : v = oneAndAHalf := List.mem_singleton.1 hv
    exact readsBack_oneAndAHalf
  have hdepth : ∀ e, halfProgram.format = .error e → e.cause ≠ .tooDeep := by
    have hok : halfProgram.format.isOk = true := rfl
    intro e he
    rw [he] at hok
    exact absurd hok (by simp [Except.isOk, Except.toBool])
  have hplain : halfProgram.Plain := by
    simp [Program.Plain, Program.functions, halfProgram, functionsOf, Definition.functions,
      stmtsPlain, Stmt.Plain, Expr.Plain]
  obtain ⟨text, htext, hback⟩ := Program.parse_format_iff hparse hfloats hdepth
  exact ⟨hparse, text, htext, hback.2 hplain⟩

end FunRiscv
