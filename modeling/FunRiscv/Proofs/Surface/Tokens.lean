import Mathlib
import FunRiscv.Surface.Reader.Expression
import FunRiscv.Proofs.Surface.Outcome
import FunRiscv.Proofs.Text.Quoted

/-!
# Reading tokens

What the token readers do before given bytes. All conditions are on the bytes alone and can be
computed when the first few of them are known.

* `skipped`: the bytes after the blanks in front; `solid`: no comment starts there.
* `nextPunct`, `nextWord`: the token that comes next.
* `Next`, `NextWord`: a given token comes next, and what stands after it.
* `stops`: the bytes carry no word on, and none of the given punctuation comes next.
* `Starts`: the bytes start as an expression, a pattern, a type or a statement does.
-/

namespace FunRiscv

/-! ### Bytes -/

/-- Nothing but blanks. -/
def AllBlank (bs : List UInt8) : Prop := ∀ b ∈ bs, Source.isBlankByte b = true

/-- The bytes after the blanks in front. -/
def skipped (bs : List UInt8) : List UInt8 := bs.dropWhile Source.isBlankByte

/-- Neither a blank nor a comment stands in front. -/
def solid : List UInt8 → Bool
  | [] => true
  | b :: bs => !Source.isBlankByte b && b != 0x23 && !(b == 0x2f && bs.head? == some 0x2f)

/-- The longest punctuation token in front. -/
def punctAt (bs : List UInt8) : Option Punct := Punct.all.find? fun t => t.bytes.isPrefixOf bs

/-- The longest punctuation token after blanks. -/
def nextPunct (bs : List UInt8) : Option Punct := punctAt (skipped bs)

/-- The word after blanks. -/
def nextWord (bs : List UInt8) : Option String :=
  if (skipped bs).head?.any isLetter then some (Text.ofAscii (wordRun (skipped bs))) else none

/-- A punctuation token comes next, and after it the bytes `tail`. -/
def Next (t : Punct) (bs tail : List UInt8) : Prop :=
  solid (skipped bs) = true ∧ nextPunct bs = some t ∧ skipped bs = t.bytes ++ tail

/-- A word comes next, and after it the bytes `tail`. -/
def NextWord (w : String) (bs tail : List UInt8) : Prop :=
  solid (skipped bs) = true ∧ nextWord bs = some w ∧ skipped bs = wordRun (skipped bs) ++ tail

/-- The bytes carry no word on, and no comment and none of the given tokens comes next. -/
def stops (ts : List Punct) (bs : List UInt8) : Bool :=
  (wordRun bs).isEmpty && solid (skipped bs) && !(nextPunct bs).any ts.contains

/-- The bytes that an expression, a pattern, a type or a statement may start with. -/
def isStart (b : UInt8) : Bool :=
  isLetter b || isDigit b || [0x2b, 0x2d, 0x22, 0x2a, 0x28, 0x5b].contains b

/-- The bytes start as an expression, a pattern, a type or a statement does. -/
def Starts (bs : List UInt8) : Prop := bs.head?.any isStart = true

theorem AllBlank.append {bl bs : List UInt8} (h : AllBlank bl) (h' : AllBlank bs) :
    AllBlank (bl ++ bs) := by
  intro b hb
  rcases List.mem_append.1 hb with hb | hb
  · exact h b hb
  · exact h' b hb

theorem allBlank_nil : AllBlank [] := by simp [AllBlank]

theorem allBlank_blank : AllBlank [0x20] := by
  rintro b hb
  rw [List.mem_singleton.1 hb]
  rfl

theorem skipped_append {bl : List UInt8} (h : AllBlank bl) (bs : List UInt8) :
    skipped (bl ++ bs) = skipped bs := by
  induction bl with
  | nil => rfl
  | cons b bl ih =>
    have hb : Source.isBlankByte b = true := h b (by simp)
    rw [skipped, List.cons_append, List.dropWhile_cons, if_pos hb]
    exact ih fun c hc => h c (by simp [hc])

theorem exists_blank_append (bs : List UInt8) : ∃ bl, AllBlank bl ∧ bs = bl ++ skipped bs :=
  ⟨bs.takeWhile Source.isBlankByte, fun _ hb => List.mem_takeWhile_imp hb,
    List.takeWhile_append_dropWhile.symm⟩

theorem solid_eq_true_iff (bs : List UInt8) : solid bs = true ↔ Source.Solid bs := by
  match bs with
  | [] => simp [solid, Source.Solid]
  | [b] => simp [solid, Source.Solid, List.prefix_cons_iff]
  | b :: c :: bs =>
    simp [solid, Source.Solid, List.cons_prefix_cons, and_assoc, @eq_comm _ (0x2f : UInt8)]
    tauto

theorem head?_of_punctAt {bs : List UInt8} {t : Punct} (h : punctAt bs = some t) :
    bs.head? = t.bytes.head? := by
  have hpre := List.find?_some h
  have hne : t.bytes ≠ [] := by cases t <;> decide
  obtain ⟨rest, rfl⟩ := List.isPrefixOf_iff_prefix.1 hpre
  obtain ⟨b, bs, hb⟩ := List.exists_cons_of_ne_nil hne
  rw [hb]
  rfl

/-- No token is longer than two bytes. -/
theorem punctAt_take (bs : List UInt8) : punctAt bs = punctAt (bs.take 2) := by
  have hpre : ∀ t : Punct, t.bytes.isPrefixOf bs = t.bytes.isPrefixOf (bs.take 2) := by
    intro t
    have hlen : t.bytes.length ≤ 2 := by cases t <;> decide
    rw [Bool.eq_iff_iff, List.isPrefixOf_iff_prefix, List.isPrefixOf_iff_prefix,
      List.prefix_take_iff]
    tauto
  simp only [punctAt, hpre]

theorem Next.append {t : Punct} {bl bs tail : List UInt8} (h : Next t bs tail) (hbl : AllBlank bl) :
    Next t (bl ++ bs) tail := by
  rw [Next, nextPunct, skipped_append hbl]
  exact h

theorem stops_mono {ts us : List Punct} {bs : List UInt8} (h : stops ts bs = true)
    (hsub : us ⊆ ts) : stops us bs = true := by
  simp only [stops, Bool.and_eq_true, Bool.not_eq_true'] at h ⊢
  refine ⟨h.1, ?_⟩
  cases hp : nextPunct bs with
  | none => rfl
  | some t =>
    have ht : t ∉ ts := by simpa [hp] using h.2
    simpa using fun hmem => ht (hsub hmem)

theorem wordRun_of_stops {ts : List Punct} {bs : List UInt8} (h : stops ts bs = true) :
    wordRun bs = [] := by
  simp only [stops, Bool.and_eq_true] at h
  simpa using h.1.1

theorem solid_of_stops {ts : List Punct} {bs : List UInt8} (h : stops ts bs = true) :
    solid (skipped bs) = true := by
  simp only [stops, Bool.and_eq_true] at h
  exact h.1.2

theorem nextPunct_ne_of_stops {ts : List Punct} {bs : List UInt8} {t : Punct}
    (h : stops ts bs = true) (ht : t ∈ ts) : nextPunct bs ≠ some t := by
  intro hp
  simp only [stops, Bool.and_eq_true, hp] at h
  simp [ht] at h

/-- A byte that is in no word, no blank and no comment, and which none of the tokens starts with. -/
theorem stops_cons {ts : List Punct} {b : UInt8}
    (h : (!isLetter b && !isDigit b && !Source.isBlankByte b && b != 0x23 && b != 0x2f &&
      ts.all fun t => t.bytes.head? != some b) = true) (bs : List UInt8) :
    stops ts (b :: bs) = true := by
  simp only [Bool.and_eq_true, Bool.not_eq_true', bne_iff_ne, List.all_eq_true] at h
  obtain ⟨⟨⟨⟨⟨hletter, hdigit⟩, hblank⟩, hhash⟩, hslash⟩, hts⟩ := h
  have hskip : skipped (b :: bs) = b :: bs := by
    rw [skipped, List.dropWhile_cons, hblank]
    rfl
  have hsolid : solid (b :: bs) = true := by simp [solid, hblank, hhash, hslash]
  have hrun : wordRun (b :: bs) = [] := by simp [wordRun, hletter, hdigit, hslash]
  simp only [stops, hrun, List.isEmpty_nil, hskip, hsolid, Bool.and_true, Bool.true_and, nextPunct,
    Bool.not_eq_true']
  cases hp : punctAt (b :: bs) with
  | none => rfl
  | some t =>
    have ht : t ∉ ts := fun hmem => hts t hmem (head?_of_punctAt hp).symm
    simpa using ht

/-! ### Starts -/

theorem skipped_of_solid {bs : List UInt8} (h : solid bs = true) : skipped bs = bs := by
  cases bs with
  | nil => rfl
  | cons b bs =>
    have hb : Source.isBlankByte b = false := by
      simp only [solid, Bool.and_eq_true, Bool.not_eq_true'] at h
      exact h.1.1
    rw [skipped, List.dropWhile_cons, hb]
    rfl

namespace Starts

variable {bs : List UInt8}

theorem append (h : Starts bs) (tail : List UInt8) : Starts (bs ++ tail) := by
  cases bs with
  | nil => exact absurd h (by simp [Starts])
  | cons b bs => exact h

theorem ne_nil (h : Starts bs) : bs ≠ [] := by
  rintro rfl
  simp [Starts] at h

theorem solid (h : Starts bs) : FunRiscv.solid bs = true := by
  cases bs with
  | nil => rfl
  | cons b bs =>
    have hb : isStart b = true := by simpa [Starts] using h
    have hall : ∀ b : UInt8, isStart b = true → (!Source.isBlankByte b && b != 0x23 && b != 0x2f) =
      true := by decide +kernel
    have hbytes := hall b hb
    simp only [Bool.and_eq_true, bne_iff_ne] at hbytes
    simp [FunRiscv.solid, hbytes]

theorem skipped (h : Starts bs) {bl : List UInt8} (hbl : AllBlank bl) :
    FunRiscv.skipped (bl ++ bs) = bs := by
  rw [skipped_append hbl, skipped_of_solid h.solid]

theorem solid_skipped (h : Starts bs) {bl : List UInt8} (hbl : AllBlank bl) :
    FunRiscv.solid (FunRiscv.skipped (bl ++ bs)) = true := by
  rw [h.skipped hbl]
  exact h.solid

theorem nextPunct_ne (h : Starts bs) {bl : List UInt8} (hbl : AllBlank bl) {t : Punct}
    (ht : t.bytes.head?.any isStart = false) : nextPunct (bl ++ bs) ≠ some t := by
  intro hp
  rw [nextPunct, h.skipped hbl] at hp
  rw [Starts, head?_of_punctAt hp, ht] at h
  exact absurd h (by simp)

end Starts

/-- An angle bracket before a type is a token of its own. -/
theorem next_less {bs : List UInt8} (h : Starts bs) : Next .less (0x3c :: bs) bs := by
  have hall : ∀ b : UInt8, isStart b = true → punctAt [0x3c, b] = some .less := by decide +kernel
  refine ⟨rfl, ?_, rfl⟩
  cases bs with
  | nil => exact absurd h (by simp [Starts])
  | cons b bs =>
    show punctAt (0x3c :: b :: bs) = _
    rw [punctAt_take]
    exact hall b (by simpa [Starts] using h)

/-! ### Words -/

theorem wordRun_append {w tail : List UInt8} (hw : wordRun w = w) (htail : wordRun tail = []) :
    wordRun (w ++ tail) = w := by
  induction w with
  | nil => exact htail
  | cons b bs ih =>
    rw [wordRun] at hw
    split at hw
    · rename_i hb
      have hbs : wordRun bs = bs := (List.cons.inj hw).2
      have hnext : (isLetter b || isDigit b || (b == 0x2f && (bs ++ tail).head?.any isLetter)) =
        true := by
        cases bs with
        | nil => simp at hb; simp [hb]
        | cons c cs => exact hb
      rw [List.cons_append, wordRun, if_pos hnext, ih hbs]
    · exact absurd hw (by simp)

/-- The bytes of words are letters, digits and slashes. -/
theorem wordRun_bytes {b : UInt8} : ∀ {w : List UInt8}, wordRun w = w → b ∈ w →
    isLetter b = true ∨ isDigit b = true ∨ b = 0x2f := by
  intro w
  induction w with
  | nil => simp
  | cons c cs ih =>
    intro hw hb
    rw [wordRun] at hw
    split at hw
    · rename_i hc
      rcases List.mem_cons.1 hb with rfl | hb
      · simp only [Bool.or_eq_true, Bool.and_eq_true, beq_iff_eq] at hc
        tauto
      · exact ih (List.cons.inj hw).2 hb
    · exact absurd hw (by simp)

theorem IsWordBytes.bytesOf_ofAscii {w : List UInt8} (h : IsWordBytes w) :
    Text.bytesOf (Text.ofAscii w) = w := by
  apply Text.bytesOf_ofAscii
  intro b hb
  have hall : ∀ b : UInt8, isLetter b = true ∨ isDigit b = true ∨ b = 0x2f → b < 128 := by
    decide +kernel
  exact hall b (wordRun_bytes h.2 hb)

theorem IsWord.isWordBytes {w : String} (h : IsWord w) :
    IsWordBytes (Text.bytesOf w) ∧ Text.ofAscii (Text.bytesOf w) = w := by
  obtain ⟨bs, rfl, hbs⟩ := h
  rw [hbs.bytesOf_ofAscii]
  exact ⟨hbs, rfl⟩

theorem IsWord.starts {w : String} (h : IsWord w) : Starts (Text.bytesOf w) := by
  have hhead := h.isWordBytes.1.1
  rw [Starts]
  cases hw : (Text.bytesOf w).head? with
  | none => simp [hw] at hhead
  | some b =>
    have hb : isLetter b = true := by simpa [hw] using hhead
    simp [isStart, hb]

/-- A word is read whole when nothing carries it on. -/
theorem IsWord.nextWord {w : String} (h : IsWord w) {bl tail : List UInt8} (hbl : AllBlank bl)
    (htail : wordRun tail = []) : NextWord w (bl ++ (Text.bytesOf w ++ tail)) tail := by
  have hskip := (h.starts.append tail).skipped hbl
  have hrun := wordRun_append h.isWordBytes.1.2 htail
  have hhead : (Text.bytesOf w ++ tail).head?.any isLetter = true := by
    have hfirst := h.isWordBytes.1.1
    cases hw : Text.bytesOf w with
    | nil => simp [hw] at hfirst
    | cons b bs => rw [hw] at hfirst; exact hfirst
  refine ⟨?_, ?_, ?_⟩
  · rw [hskip]
    exact (h.starts.append tail).solid
  · rw [FunRiscv.nextWord, hskip, if_pos hhead, hrun, h.isWordBytes.2]
  · rw [hskip, hrun]

theorem isWord_keyword {w : String} (h : w ∈ keywords) : IsWord w := by
  have hall : ∀ w ∈ keywords, w = Text.ofAscii (Text.bytesOf w) ∧
      (Text.bytesOf w).head?.any isLetter = true ∧ wordRun (Text.bytesOf w) = Text.bytesOf w := by
    decide
  exact ⟨Text.bytesOf w, hall w h⟩

theorem wordRun_prefix (bs : List UInt8) : wordRun bs <+: bs := by
  induction bs with
  | nil => exact List.prefix_rfl
  | cons b bs ih =>
    rw [wordRun]
    split
    · exact (List.prefix_cons_inj b).2 ih
    · exact List.nil_prefix

theorem exists_nextWord {w : String} {bs : List UInt8} (hsolid : solid (skipped bs) = true)
    (h : nextWord bs = some w) : ∃ tail, NextWord w bs tail := by
  obtain ⟨tail, htail⟩ := wordRun_prefix (skipped bs)
  exact ⟨tail, hsolid, h, htail.symm⟩

theorem NextWord.exists_letter {w : String} {bs tail : List UInt8} (h : NextWord w bs tail) :
    ∃ b rest, skipped bs = b :: rest ∧ isLetter b = true := by
  have hfirst : (skipped bs).head?.any isLetter = true := by
    by_contra hne
    simp [FunRiscv.nextWord, NextWord, hne] at h
  cases hs : skipped bs with
  | nil => simp [hs] at hfirst
  | cons b rest => exact ⟨b, rest, rfl, by simpa [hs] using hfirst⟩

/-- Where a word comes next, no punctuation does. -/
theorem NextWord.nextPunct {w : String} {bs tail : List UInt8} (h : NextWord w bs tail) :
    nextPunct bs = none := by
  obtain ⟨b, rest, hs, hb⟩ := h.exists_letter
  have hfirst : (skipped bs).head?.any isLetter = true := by
    rw [hs]
    exact hb
  cases hp : FunRiscv.nextPunct bs with
  | none => rfl
  | some t =>
    have hno : t.bytes.head?.any isLetter = false := by cases t <;> decide
    rw [head?_of_punctAt hp, hno] at hfirst
    exact absurd hfirst (by simp)

theorem NextWord.skipped {w : String} {bs tail : List UInt8} (h : NextWord w bs tail) :
    NextWord w (FunRiscv.skipped bs) tail := by
  have hskip := skipped_of_solid h.1
  rw [NextWord, FunRiscv.nextWord, hskip]
  exact h

theorem NextWord.nextPunct_ne {w : String} {bs tail : List UInt8} (h : NextWord w bs tail)
    (t : Punct) : FunRiscv.nextPunct bs ≠ some t := by
  rw [h.nextPunct]
  simp

/-- Where punctuation comes next, no word does. -/
theorem Next.nextWord_ne {t : Punct} {bs tail : List UInt8} (h : Next t bs tail) (w : String) :
    nextWord bs ≠ some w := by
  have hhead : (skipped bs).head?.any isLetter = false := by
    rw [head?_of_punctAt h.2.1]
    cases t <;> decide
  simp [nextWord, hhead]

/-! ### Positions -/

namespace Source

variable {src : Source} {i : Nat} {bs tail : List UInt8}

theorem At.trivia (h : src.At i bs) (hs : solid (skipped bs) = true) :
    src.At (src.trivia i) (skipped bs) := by
  obtain ⟨bl, hbl, hbs⟩ := exists_blank_append bs
  rw [src.trivia_of_append (h.1.trans hbs) hbl ((solid_eq_true_iff _).1 hs)]
  rw [hbs] at h
  exact h.drop

theorem At.byte? (h : src.At i bs) : src.byte? i = bs.head? := by rw [src.byte?_eq, h.1]

theorem At.lt (h : src.At i bs) (hne : bs ≠ []) : i < src.size := by
  have hlen := src.length_rest i
  rw [h.1] at hlen
  have := List.length_pos_iff.2 hne
  omega

theorem At.punct? (h : src.At i bs) (hs : solid (skipped bs) = true) :
    src.punct? i = (nextPunct bs).map fun t => (t, src.trivia i + t.bytes.length) := by
  have hstarts : (fun t : Punct => src.startsWith (src.trivia i) t.bytes) = fun t =>
    t.bytes.isPrefixOf (skipped bs) := by
    funext t
    rw [src.startsWith_eq, (h.trivia hs).1]
  rw [Source.punct?, nextPunct, punctAt, ← hstarts]

theorem At.word? (h : src.At i bs) : src.word? i =
    if bs.head?.any isLetter then some (Text.ofAscii (wordRun bs), i + (wordRun bs).length)
      else none := by
  rw [src.word?_eq, h.1]

/-- Where a word starts, it is read whole. -/
theorem At.word?_eq_some {s : Nat} {w : String} (h : src.At s (skipped bs))
    (hw : NextWord w bs tail) : ∃ j, src.word? s = some (w, j) ∧ src.At j tail := by
  obtain ⟨-, hword, hbs⟩ := hw
  have hcond : (skipped bs).head?.any isLetter = true := by
    by_contra hne
    simp [nextWord, hne] at hword
  rw [nextWord, if_pos hcond] at hword
  rw [h.word?, if_pos hcond]
  refine ⟨_, by rw [Option.some.inj hword], ?_⟩
  rw [hbs] at h
  exact h.drop

theorem At.word?_of_nextWord {w : String} (h : src.At i bs) (hw : NextWord w bs tail) :
    ∃ j, src.word? (src.trivia i) = some (w, j) ∧ src.At j tail := (h.trivia hw.1).word?_eq_some hw

theorem At.word?_eq_nextWord (h : src.At i bs) (hs : solid (skipped bs) = true) :
    (src.word? (src.trivia i)).map (·.1) = nextWord bs := by
  rw [(h.trivia hs).word?, nextWord]
  split <;> rfl

end Source

/-! ### Token readers -/

namespace Reading

variable {src : Source} {bs mid tail : List UInt8} {good : Prop} {α : Type}

theorem reads_get : Reads src get bs bs good fun i => src.At i bs :=
  fun i hi => .inl ⟨i, i, rfl, hi, hi⟩

theorem reads_set {j : Nat} (h : src.At j tail) :
    Reads src (set j : Reading PUnit) bs tail good fun _ => True :=
  fun _ _ => .inl ⟨⟨⟩, j, rfl, h, trivial⟩

theorem reads_tokenStart (h : solid (skipped bs) = true) :
    Reads src (tokenStart src) bs bs good fun s => src.At s (skipped bs) :=
  fun i hi => .inl ⟨src.trivia i, i, tokenStart_apply hi.2, hi, hi.trivia h⟩

theorem reads_locationFrom (start : Nat) :
    Reads src (locationFrom src start) bs bs good fun _ => True :=
  fun i hi => .inl ⟨src.locate start i, i, rfl, hi, trivial⟩

theorem reads_unexpected (want : String) {P : α → Prop} (h : ¬ good) :
    Reads src (unexpected src want) bs tail good P := by
  refine reads_get.bind fun i hi => ?_
  rw [unexpectedAt_eq hi.2]
  exact Reads.failWith _ h

theorem reads_punct {t : Punct} (h : Next t bs tail) :
    Reads src (punct src t) bs tail good (· = true) := by
  intro i hi
  obtain ⟨hsolid, hnext, hbs⟩ := h
  refine .inl ⟨true, src.trivia i + t.bytes.length, ?_, ?_, rfl⟩
  · rw [punct_apply hi.2, hi.punct? hsolid, hnext]
    simp [bind_of_ok (set_apply _ _), pure_apply]
  · have htrivia := hi.trivia hsolid
    rw [hbs] at htrivia
    exact htrivia.drop

theorem reads_punct_false {t : Punct} (h : solid (skipped bs) = true) (ht : nextPunct bs ≠ some t) :
    Reads src (punct src t) bs bs good (· = false) := by
  intro i hi
  refine .inl ⟨false, i, ?_, hi, rfl⟩
  rw [punct_apply hi.2, hi.punct? h]
  cases hp : nextPunct bs with
  | none => rfl
  | some u =>
    have hne : u ≠ t := fun heq => ht (by rw [hp, heq])
    simp [hne, pure_apply]

theorem Reads.punct_then {t : Punct} {yes no : Reading α} {P : α → Prop} (h : Next t bs mid)
    (hyes : Reads src yes mid tail good P) :
    Reads src (punct src t >>= fun b => if b = true then yes else no) bs tail good P := by
  refine (reads_punct h).bind ?_
  rintro b rfl
  exact hyes

theorem Reads.punct_else {t : Punct} {yes no : Reading α} {P : α → Prop}
    (h : solid (skipped bs) = true) (ht : nextPunct bs ≠ some t)
    (hno : Reads src no bs tail good P) :
    Reads src (punct src t >>= fun b => if b = true then yes else no) bs tail good P := by
  refine (reads_punct_false h ht).bind ?_
  rintro b rfl
  exact hno

/-- Another token comes next. -/
theorem Reads.punct_other {t u : Punct} {yes no : Reading α} {P : α → Prop} (h : Next u bs mid)
    (hne : u ≠ t) (hno : Reads src no bs tail good P) :
    Reads src (punct src t >>= fun b => if b = true then yes else no) bs tail good P :=
  Reads.punct_else h.1 (by simpa [h.2.1] using hne) hno

theorem reads_expect {t : Punct} (h : Next t bs tail) :
    Reads src (expect src t) bs tail good fun _ => True :=
  Reads.punct_then h (Reads.pure trivial)

/-- Where another token stands than the one that has to, reading fails. -/
theorem reads_expect_other {t : Punct} {P : Unit → Prop} (h : solid (skipped bs) = true)
    (ht : nextPunct bs ≠ some t) (hgood : ¬ good) : Reads src (expect src t) bs tail good P :=
  Reads.punct_else h ht (reads_unexpected _ hgood)

theorem reads_nextIs {t : Punct} (h : solid (skipped bs) = true) :
    Reads src (nextIs src t) bs bs good (· = decide (nextPunct bs = some t)) := by
  refine fun i hi => .inl ⟨_, i, nextIs_apply hi.2 t, hi, ?_⟩
  rw [hi.punct? h]
  cases nextPunct bs with
  | none => rfl
  | some u => simp

theorem Reads.nextIs_then {t : Punct} {yes no : Reading α} {P : α → Prop} (h : Next t bs mid)
    (hyes : Reads src yes bs tail good P) :
    Reads src (nextIs src t >>= fun b => if b = true then yes else no) bs tail good P := by
  refine (reads_nextIs h.1).bind ?_
  rintro b rfl
  simpa [h.2.1] using hyes

theorem Reads.nextIs_else {t : Punct} {yes no : Reading α} {P : α → Prop}
    (h : solid (skipped bs) = true) (ht : nextPunct bs ≠ some t)
    (hno : Reads src no bs tail good P) :
    Reads src (nextIs src t >>= fun b => if b = true then yes else no) bs tail good P := by
  refine (reads_nextIs h).bind ?_
  rintro b rfl
  simpa [ht] using hno

theorem keyword?_eq {i : Nat} {kw : String} (hi : src.At i bs) (hw : NextWord kw bs tail) :
    ∃ j, src.keyword? i kw = some j ∧ src.At j tail := by
  obtain ⟨j, hword, hj⟩ := hi.word?_of_nextWord hw
  exact ⟨j, by simp [Source.keyword?, hword], hj⟩

theorem keyword?_eq_none {i : Nat} {kw : String} (hi : src.At i bs) (h : solid (skipped bs) = true)
    (hkw : nextWord bs ≠ some kw) : src.keyword? i kw = none := by
  have hmap := hi.word?_eq_nextWord h
  rw [Source.keyword?]
  cases hword : src.word? (src.trivia i) with
  | none => rfl
  | some r =>
    have hne : r.1 ≠ kw := by
      intro heq
      rw [hword, Option.map_some, heq] at hmap
      exact hkw hmap.symm
    simp [hne]

theorem reads_keyword {kw : String} (h : NextWord kw bs tail) :
    Reads src (keyword src kw) bs tail good (· = true) := by
  intro i hi
  obtain ⟨j, hkw, hj⟩ := keyword?_eq hi h
  refine .inl ⟨true, j, ?_, hj, rfl⟩
  rw [keyword_apply hi.2, hkw]
  rfl

theorem reads_keyword_false {kw : String} (h : solid (skipped bs) = true)
    (hkw : nextWord bs ≠ some kw) : Reads src (keyword src kw) bs bs good (· = false) := by
  intro i hi
  refine .inl ⟨false, i, ?_, hi, rfl⟩
  rw [keyword_apply hi.2, keyword?_eq_none hi h hkw]
  rfl

theorem Reads.keyword_then {kw : String} {yes no : Reading α} {P : α → Prop}
    (h : NextWord kw bs mid) (hyes : Reads src yes mid tail good P) :
    Reads src (keyword src kw >>= fun b => if b = true then yes else no) bs tail good P := by
  refine (reads_keyword h).bind ?_
  rintro b rfl
  exact hyes

theorem Reads.keyword_else {kw : String} {yes no : Reading α} {P : α → Prop}
    (h : solid (skipped bs) = true) (hkw : nextWord bs ≠ some kw)
    (hno : Reads src no bs tail good P) :
    Reads src (keyword src kw >>= fun b => if b = true then yes else no) bs tail good P := by
  refine (reads_keyword_false h hkw).bind ?_
  rintro b rfl
  exact hno

/-- Another word comes next. -/
theorem Reads.keyword_other {kw w : String} {yes no : Reading α} {P : α → Prop}
    (h : NextWord w bs mid) (hne : w ≠ kw) (hno : Reads src no bs tail good P) :
    Reads src (keyword src kw >>= fun b => if b = true then yes else no) bs tail good P := by
  refine Reads.keyword_else h.1 ?_ hno
  rw [h.2.1]
  simpa using hne

theorem Reads.nextKeyword_then {kw : String} {yes no : Reading α} {P : α → Prop}
    (h : NextWord kw bs mid) (hyes : Reads src yes bs tail good P) :
    Reads src (nextIsKeyword src kw >>= fun b => if b = true then yes else no) bs tail good P := by
  intro i hi
  obtain ⟨j, hkw, -⟩ := keyword?_eq hi h
  have hact : nextIsKeyword src kw i = .ok (true, i) := by
    rw [nextIsKeyword_apply hi.2, hkw]
    rfl
  rw [bind_of_ok hact]
  exact hyes i hi

theorem Reads.nextKeyword_else {kw : String} {yes no : Reading α} {P : α → Prop}
    (h : solid (skipped bs) = true) (hkw : nextWord bs ≠ some kw)
    (hno : Reads src no bs tail good P) :
    Reads src (nextIsKeyword src kw >>= fun b => if b = true then yes else no) bs tail good P := by
  intro i hi
  have hact : nextIsKeyword src kw i = .ok (false, i) := by
    rw [nextIsKeyword_apply hi.2, keyword?_eq_none hi h hkw]
    rfl
  rw [bind_of_ok hact]
  exact hno i hi

theorem Source.At.name?_of_nextWord {i : Nat} {n : String} (hi : src.At i bs)
    (h : NextWord n bs tail) (hn : isKeyword n = false) :
    ∃ j, src.name? i = some (n, j) ∧ src.At j tail := by
  obtain ⟨j, hword, hj⟩ := hi.word?_of_nextWord h
  exact ⟨j, by simp [Source.name?, hword, hn], hj⟩

theorem Source.At.name?_eq_none {i : Nat} (hi : src.At i bs) (h : solid (skipped bs) = true)
    (hkw : ∀ w, nextWord bs = some w → isKeyword w = true) : src.name? i = none := by
  have hmap := hi.word?_eq_nextWord h
  rw [Source.name?]
  cases hword : src.word? (src.trivia i) with
  | none => rfl
  | some r =>
    rw [hword, Option.map_some] at hmap
    simp [hkw r.1 hmap.symm]

theorem reads_name {n : String} (h : NextWord n bs tail) (hn : isKeyword n = false) :
    Reads src (name src) bs tail good (n = ·) := by
  intro i hi
  obtain ⟨j, hname, hj⟩ := Source.At.name?_of_nextWord hi h hn
  refine .inl ⟨n, j, ?_, hj, rfl⟩
  rw [name_apply hi.2, hname]
  rfl

theorem reads_closeAngle (h : skipped bs = 0x3e :: tail) :
    Reads src (closeAngle src) bs tail good fun _ => True := by
  have hsolid : solid (skipped bs) = true := by
    rw [h]
    rfl
  refine (reads_tokenStart hsolid).bind fun s hs => ?_
  rw [h] at hs
  have hbyte : src.byte? s = some 0x3e := by
    rw [hs.byte?]
    rfl
  have hone : ([0x3e] : List UInt8) ++ tail = 0x3e :: tail := rfl
  rw [src.holdsAt_eq, look_pure, pure_bind, hbyte]
  exact reads_set (hone ▸ hs).drop

end Reading

end FunRiscv
