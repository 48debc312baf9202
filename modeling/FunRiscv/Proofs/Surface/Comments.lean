import Mathlib
import FunRiscv.Proofs.Surface.Positions

/-!
# Comments and blanks

* `Source.zone`: whether a position is in the code, in a string or in a comment.
* `Source.blanked`: the text with a blank for every byte of a comment.
* `trivia_blanked`, `punct?_blanked`, `word?_blanked`: in the code, the same tokens stand in both
  texts at the same places.
-/

namespace FunRiscv

/-- What a byte is part of. In a string, the byte after a backslash is of its own kind. -/
inductive Zone where
  | code | text | escape | comment
deriving DecidableEq, Repr

/-- What comes after a byte, given the next one. -/
def Zone.after : Zone → UInt8 → Option UInt8 → Zone
  | code, b, next =>
    if b = 0x22 then text
    else if b = 0x23 ∨ (b = 0x2f ∧ next = some 0x2f) then comment
    else code
  | text, b, _ => if b = 0x22 then code else if b = 0x5c then escape else text
  | escape, _, _ => text
  | comment, b, _ => if b = 0x0a then code else comment

namespace Source

variable (src : Source)

/-- What a position is in. A byte that starts a comment stands in the code, and the position after
it in the comment. -/
def zone : Nat → Zone
  | 0 => .code
  | i + 1 =>
    match src.byte? i with
    | some b => (zone i).after b (src.byte? (i + 1))
    | none => zone i

/-- The text with a blank for every byte of a comment. -/
def blanked : Source where
  bytes := src.bytes.mapIdx fun i b => if src.zone (i + 1) = .comment then 0x20 else b

/-! ### Bytes -/

@[simp]
theorem size_blanked : src.blanked.size = src.size := by simp [size, blanked]

theorem byte?_blanked (i : Nat) :
    src.blanked.byte? i = (src.byte? i).map fun b => if src.zone (i + 1) = .comment then
      0x20 else b := by
  simp [byte?, blanked]

variable {src}

theorem exists_byte? {i : Nat} (h : i < src.size) : ∃ b, src.byte? i = some b :=
  ⟨src.bytes[i], Array.getElem?_eq_getElem h⟩

theorem zone_succ {i : Nat} {b : UInt8} (h : src.byte? i = some b) :
    src.zone (i + 1) = (src.zone i).after b (src.byte? (i + 1)) := by
  simp only [zone, h]

theorem byte?_blanked_of_ne {i : Nat} (h : src.zone (i + 1) ≠ .comment) :
    src.blanked.byte? i = src.byte? i := by
  rw [byte?_blanked]
  simp [h]

theorem byte?_blanked_of_comment {i : Nat} (hi : i < src.size) (h : src.zone (i + 1) = .comment) :
    src.blanked.byte? i = some 0x20 := by
  obtain ⟨b, hb⟩ := exists_byte? hi
  rw [byte?_blanked, hb]
  simp [h]

theorem ne_newline_of_comment {i : Nat} {b : UInt8} (hb : src.byte? i = some b)
    (h : src.zone (i + 1) = .comment) : b ≠ 0x0a := by
  rintro rfl
  rw [zone_succ hb] at h
  cases hz : src.zone i <;> simp [hz, Zone.after] at h

theorem byte?_blanked_newline (i : Nat) :
    (src.blanked.byte? i == some 10) = (src.byte? i == some 10) := by
  rw [byte?_blanked]
  cases hb : src.byte? i with
  | none => rfl
  | some b =>
    by_cases hz : src.zone (i + 1) = .comment
    · have hne := ne_newline_of_comment hb hz
      simp only [Option.map_some, hz, if_true]
      simpa using hne
    · simp [hz]

theorem lineStarts_blanked : src.blanked.lineStarts = src.lineStarts := by
  rw [src.blanked.lineStarts_eq, src.lineStarts_eq, lineStartsOf, lineStartsOf]
  have hsize : src.blanked.bytes.size = src.bytes.size := src.size_blanked
  have hsame : (fun i : Nat => src.blanked.bytes[i]? == some 10) = fun i : Nat =>
    src.bytes[i]? == some 10 :=
    funext fun i => byte?_blanked_newline i
  rw [hsize, hsame]

@[simp]
theorem locate_blanked (pos : Nat) (stop : Int) :
    src.blanked.locate pos stop = src.locate pos stop := by
  simp only [locate, lineStarts_blanked]

theorem slice_blanked {i j : Nat} (h : ∀ k, i ≤ k → k < j → src.zone (k + 1) ≠ .comment) :
    src.blanked.slice i j = src.slice i j := by
  apply List.ext_getElem?
  intro k
  have hsize : src.blanked.bytes.size = src.bytes.size := src.size_blanked
  simp only [slice, Array.getElem?_toList, Array.getElem?_extract, hsize]
  split
  · rename_i hk
    exact byte?_blanked_of_ne (h (i + k) (by omega) (by omega))
  · rfl

/-! ### Positions in the code -/

variable (src)

/-- The end of the text or a position in the code. -/
def Clear (i : Nat) : Prop := i ≤ src.size ∧ (i < src.size → src.zone i = .code)

/-- A position in the code where no comment starts. -/
def Fixed (i : Nat) : Prop := src.Clear i ∧ src.commentAt i = false

variable {src}

theorem clear_zero : src.Clear 0 := ⟨Nat.zero_le _, fun _ => rfl⟩

theorem Clear.le_blanked {i : Nat} (h : src.Clear i) : i ≤ src.blanked.size :=
  src.size_blanked.symm ▸ h.1

theorem Clear.code {i : Nat} {b : UInt8} (h : src.Clear i) (hb : src.byte? i = some b) :
    src.zone i = .code :=
  h.2 (src.lt_size_of_byte? hb)

/-- No comment starts at a byte that is neither `#` nor the first of two slashes. -/
theorem commentAt_eq {i : Nat} {b : UInt8} (hb : src.byte? i = some b) :
    src.commentAt i = decide (b = 0x23 ∨ (b = 0x2f ∧ src.byte? (i + 1) = some 0x2f)) := by
  simp [commentAt, hb, Bool.decide_or, Bool.decide_and, beq_eq_decide]

theorem Clear.zone_succ {i : Nat} {b : UInt8} (h : src.Clear i) (hb : src.byte? i = some b) :
    src.zone (i + 1) = if b = 0x22 then .text else if src.commentAt i = true then .comment else
      .code := by
  rw [Source.zone_succ hb, h.code hb, commentAt_eq hb, Zone.after]
  simp only [decide_eq_true_eq]

theorem Fixed.zone_succ_ne {i : Nat} (h : src.Fixed i) (hi : i < src.size) :
    src.zone (i + 1) ≠ .comment := by
  obtain ⟨b, hb⟩ := exists_byte? hi
  rw [h.1.zone_succ hb, h.2]
  split <;> simp

theorem Fixed.byte? {i : Nat} (h : src.Fixed i) : src.blanked.byte? i = src.byte? i := by
  by_cases hi : i < src.size
  · exact byte?_blanked_of_ne (h.zone_succ_ne hi)
  · have hnone : src.byte? i = none := Array.getElem?_eq_none (Nat.le_of_not_lt hi)
    rw [byte?_blanked, hnone]
    rfl

/-- A byte of the code that opens neither a string nor a comment has code after it. -/
theorem Fixed.succ {i : Nat} {b : UInt8} (h : src.Fixed i) (hb : src.byte? i = some b)
    (hquote : b ≠ 0x22) : src.Clear (i + 1) := by
  refine ⟨src.lt_size_of_byte? hb, fun _ => ?_⟩
  rw [h.1.zone_succ hb, h.2]
  simp [hquote]

theorem Fixed.quote {i : Nat} (h : src.Fixed i) (hb : src.byte? i = some 0x22) :
    src.zone (i + 1) = .text := by
  rw [h.1.zone_succ hb]
  simp

theorem Clear.fixed {i : Nat} {b : UInt8} (h : src.Clear i) (hb : src.byte? i = some b)
    (hhash : b ≠ 0x23) (hslash : b ≠ 0x2f) : src.Fixed i := by
  refine ⟨h, ?_⟩
  rw [commentAt_eq hb]
  simp [hhash, hslash]

/-- Tests that blanks and the first bytes of comments fail. -/
def Inner (p : UInt8 → Bool) : Prop := p 0x20 = false ∧ p 0x23 = false ∧ p 0x2f = false

theorem Clear.any_byte? {i : Nat} {p : UInt8 → Bool} (h : src.Clear i) (hp : Inner p) :
    (src.blanked.byte? i).any p = (src.byte? i).any p := by
  cases hb : src.byte? i with
  | none => simp [byte?_blanked, hb]
  | some b =>
    by_cases hcomment : src.commentAt i = true
    · have hfalse : p b = false := by
        rw [commentAt_eq hb, decide_eq_true_eq] at hcomment
        obtain rfl | ⟨rfl, -⟩ := hcomment
        · exact hp.2.1
        · exact hp.2.2
      have hzone : src.zone (i + 1) = .comment ∨ src.zone (i + 1) ≠ .comment := Classical.em _
      obtain hz | hz := hzone
      · rw [byte?_blanked, hb]
        simp [hz, hp.1, hfalse]
      · rw [byte?_blanked_of_ne hz, hb]
    · have hfixed : src.Fixed i := ⟨h, by simpa using hcomment⟩
      rw [hfixed.byte?, hb]

theorem Clear.byte?_beq {i : Nat} {c : UInt8} (h : src.Clear i) (hc : Inner (· == c)) :
    (src.blanked.byte? i == some c) = (src.byte? i == some c) := by
  have hany : ∀ o : Option UInt8, (o == some c) = o.any (· == c) := by
    intro o
    cases o <;> simp
  rw [hany, hany]
  exact h.any_byte? hc

/-! ### Runs of bytes -/

/-- No byte of the span is in a comment. -/
def Solidly (src : Source) (i j : Nat) : Prop := ∀ k, i ≤ k → k < j → src.zone (k + 1) ≠ .comment

theorem scan_blanked {p : UInt8 → Bool} (hp : Inner p) (hquote : p 0x22 = false) :
    ∀ (fuel : Nat) {i : Nat}, src.Clear i → src.blanked.scan p fuel i = src.scan p fuel i ∧
      src.Clear (src.scan p fuel i) ∧
      src.Solidly i (src.scan p fuel i) := by
  intro fuel
  induction fuel with
  | zero => exact fun h => ⟨rfl, h, fun k hk hlt => by simp only [scan] at hlt; omega⟩
  | succ fuel ih =>
    intro i h
    rw [scan, scan, h.any_byte? hp]
    split
    · rename_i hany
      obtain ⟨b, hb, hpb⟩ := (Option.any_eq_true _ _).1 hany
      have hne : ∀ c, p c = false → b ≠ c := by
        rintro c hc rfl
        simp [hc] at hpb
      have hfixed := h.fixed hb (hne _ hp.2.1) (hne _ hp.2.2)
      obtain ⟨heq, hclear, hsolid⟩ := ih (hfixed.succ hb (hne _ hquote))
      refine ⟨heq, hclear, fun k hk hlt => ?_⟩
      obtain rfl | hgt : k = i ∨ i + 1 ≤ k := by omega
      · exact hfixed.zone_succ_ne (src.lt_size_of_byte? hb)
      · exact hsolid k hgt hlt
    · exact ⟨rfl, h, fun k hk hlt => by omega⟩

theorem Clear.skipWhile {i : Nat} {p : UInt8 → Bool} (h : src.Clear i) (hp : Inner p)
    (hquote : p 0x22 = false) :
    src.blanked.skipWhile p i = src.skipWhile p i ∧ src.Clear (src.skipWhile p i) ∧
      src.Solidly i (src.skipWhile p i) := by
  rw [Source.skipWhile, Source.skipWhile, size_blanked]
  exact scan_blanked hp hquote _ h

/-! ### Blanks and comments -/

theorem any_of_lt_skipWhile {p : UInt8 → Bool} {i k : Nat} (hi : i ≤ k)
    (hk : k < src.skipWhile p i) : (src.byte? k).any p = true := by
  rw [skipWhile_eq] at hk
  have hlt : k - i < ((src.rest i).takeWhile p).length := by omega
  have hget : src.byte? k = (src.rest i)[k - i]? := by rw [← byte?_add, Nat.add_sub_cancel' hi]
  have hprefix := List.prefix_iff_getElem?.1 (List.takeWhile_prefix (l := src.rest i) p) (k - i) hlt
  have htest : p ((src.rest i).takeWhile p)[k - i] = true :=
    List.mem_takeWhile_imp (List.getElem_mem hlt)
  rw [hget, hprefix]
  exact htest

theorem skipWhile_stops {p : UInt8 → Bool} (i : Nat) :
    (src.byte? (src.skipWhile p i)).any p = false := by
  rw [byte?_eq, rest_skipWhile]
  cases hd : (src.rest i).dropWhile p with
  | nil => rfl
  | cons b bs =>
    have hb := List.head?_dropWhile_not p (src.rest i)
    rw [hd] at hb
    simpa using hb

/-- The position is in the code, or a comment ends at it. -/
def Quiet (src : Source) (i : Nat) : Prop :=
  i < src.size → src.zone i = .code ∨ src.zone i = .comment ∧ src.byte? i = some 10

theorem Quiet.blank {i : Nat} {b : UInt8} (h : src.Quiet i) (hb : src.byte? i = some b)
    (hblank : isBlankByte b = true) : src.zone (i + 1) = .code := by
  have hne : b ≠ 0x22 ∧ b ≠ 0x23 ∧ b ≠ 0x2f := by
    refine ⟨?_, ?_, ?_⟩ <;> rintro rfl <;> exact absurd hblank (by decide)
  rw [zone_succ hb]
  obtain hcode | ⟨hcomment, hnewline⟩ := h (src.lt_size_of_byte? hb)
  · simp [hcode, Zone.after, hne]
  · rw [hb] at hnewline
    simp [hcomment, Zone.after, Option.some.inj hnewline]

/-- Over a run of blanks the text stays in the code, and the blanks are the same in both texts. -/
theorem quiet_skipBlanks {i : Nat} (h : src.Quiet i) :
    src.Quiet (src.skipBlanks .all i) ∧
      ∀ k, i ≤ k → k < src.skipBlanks .all i → (src.blanked.byte? k).any isBlankByte = true := by
  have hrun : ∀ k, i ≤ k → k ≤ src.skipBlanks .all i → src.Quiet k := by
    intro k hk
    induction k, hk using Nat.le_induction with
    | base => exact fun _ => h
    | succ k hk ih =>
      intro hle _
      obtain ⟨b, hb, hblank⟩ :=
        (Option.any_eq_true _ _).1 (any_of_lt_skipWhile hk (Nat.lt_of_succ_le hle))
      exact .inl ((ih (by omega)).blank hb hblank)
  refine ⟨hrun _ (src.le_skipWhile _ i) le_rfl, fun k hk hlt => ?_⟩
  obtain ⟨b, hb, hblank⟩ := (Option.any_eq_true _ _).1 (any_of_lt_skipWhile hk hlt)
  have hzone := (hrun k hk (Nat.le_of_lt hlt)).blank hb hblank
  rw [byte?_blanked_of_ne (by simp [hzone]), hb]
  exact hblank

/-- A comment is a run of blanks in the other text, and it ends quietly. -/
theorem quiet_comment {i : Nat} (h : src.Quiet i) (hcomment : src.commentAt i = true) :
    src.Quiet (src.skipWhile (· != 10) i) ∧
      ∀ k, i ≤ k → k < src.skipWhile (· != 10) i →
        (src.blanked.byte? k).any isBlankByte = true := by
  obtain ⟨hlt, hsize⟩ := src.commentAt_lt hcomment
  obtain ⟨b, hfirst⟩ := exists_byte? hsize
  have hstart : b = 0x23 ∨ b = 0x2f ∧ src.byte? (i + 1) = some 0x2f := by
    rwa [commentAt_eq hfirst, decide_eq_true_eq] at hcomment
  have hcode : src.zone i = .code := by
    obtain hcode | ⟨-, hnewline⟩ := h hsize
    · exact hcode
    · rw [hfirst] at hnewline
      rw [Option.some.inj hnewline] at hstart
      simp at hstart
  have hrun : ∀ k, i ≤ k → k < src.skipWhile (· != 10) i → src.zone (k + 1) = .comment := by
    intro k hk
    induction k, hk using Nat.le_induction with
    | base =>
      intro _
      have hne : b ≠ 0x22 := by
        obtain heq | ⟨heq, -⟩ := hstart <;> simp [heq]
      rw [zone_succ hfirst, hcode, Zone.after, if_neg hne, if_pos hstart]
    | succ k hk ih =>
      intro hlt
      obtain ⟨b, hb, hne⟩ :=
        (Option.any_eq_true _ _).1 (any_of_lt_skipWhile (by omega : i ≤ k + 1) hlt)
      have hnewline : b ≠ 0x0a := by simpa using hne
      rw [zone_succ hb, ih (by omega), Zone.after, if_neg hnewline]
  refine ⟨fun hend => .inr ⟨?_, ?_⟩, fun k hk hlt => ?_⟩
  · obtain ⟨k, hk⟩ : ∃ k, src.skipWhile (· != 10) i = k + 1 :=
      ⟨src.skipWhile (· != 10) i - 1, by omega⟩
    rw [hk]
    exact hrun k (by omega) (by omega)
  · have hstops : (src.byte? (src.skipWhile (· != 10) i)).any (· != 10) = false := skipWhile_stops i
    obtain ⟨c, hc⟩ := exists_byte? hend
    rw [hc] at hstops ⊢
    simpa using hstops
  · have hle := src.skipWhile_le (· != 10) (Nat.le_of_lt hsize)
    rw [byte?_blanked_of_comment (by omega) (hrun k hk hlt)]
    rfl

theorem quiet_triviaWithin : ∀ (fuel : Nat) {i : Nat}, src.Quiet i →
    src.Quiet (src.triviaWithin fuel i) ∧
      ∀ k, i ≤ k → k < src.triviaWithin fuel i → (src.blanked.byte? k).any isBlankByte = true := by
  intro fuel
  induction fuel with
  | zero => exact fun h => quiet_skipBlanks h
  | succ fuel ih =>
    intro i h
    obtain ⟨hquiet, hblanks⟩ := quiet_skipBlanks h
    rw [triviaWithin]
    split
    · rename_i hcomment
      obtain ⟨hend, hline⟩ := quiet_comment hquiet hcomment
      obtain ⟨hmore, hrest⟩ := ih hend
      refine ⟨hmore, fun k hk hlt => ?_⟩
      obtain hbefore | hinside | hafter : k < src.skipBlanks .all i ∨
          (src.skipBlanks .all i ≤ k ∧ k < src.skipWhile (· != 10) (src.skipBlanks .all i)) ∨
            src.skipWhile (· != 10) (src.skipBlanks .all i) ≤ k := by omega
      · exact hblanks k hk hbefore
      · exact hline k hinside.1 hinside.2
      · exact hrest k hafter hlt
    · exact ⟨hquiet, hblanks⟩

/-- The next token is in the code. -/
theorem Clear.trivia {i : Nat} (h : src.Clear i) : src.Fixed (src.trivia i) := by
  have hquiet := (quiet_triviaWithin (src.size - i) (i := i) fun hi => .inl (h.2 hi)).1
  have hsolid := (src.solid_iff (src.trivia i)).1 (src.solid_trivia i)
  refine ⟨⟨src.trivia_le h.1, fun hlt => ?_⟩, hsolid.2⟩
  obtain hcode | ⟨-, hnewline⟩ := hquiet hlt
  · exact hcode
  · have hblank := hsolid.1
    rw [Source.trivia] at hblank
    rw [hnewline] at hblank
    exact absurd hblank (by decide)

/-- Tokens start at the same places in both texts. -/
theorem Clear.trivia_blanked {i : Nat} (h : src.Clear i) : src.blanked.trivia i = src.trivia i := by
  have hfixed := h.trivia
  have hle := src.le_trivia h.1
  have hblanks := (quiet_triviaWithin (src.size - i) (i := i) fun hi => .inl (h.2 hi)).2
  have hsolid := (src.solid_iff (src.trivia i)).1 (src.solid_trivia i)
  have hrest : src.blanked.rest i = (src.blanked.rest i).take (src.trivia i - i) ++
    src.blanked.rest (src.trivia i) := by
    have hdrop := src.blanked.rest_add i (src.trivia i - i)
    rw [Nat.add_sub_cancel' hle] at hdrop
    rw [hdrop, List.take_append_drop]
  have hsolid' : Solid (src.blanked.rest (src.trivia i)) := by
    rw [solid_iff, hfixed.byte?]
    refine ⟨hsolid.1, ?_⟩
    cases hb : src.byte? (src.trivia i) with
    | none => simp [commentAt, hfixed.byte?, hb]
    | some b =>
      have hb' : src.blanked.byte? (src.trivia i) = some b := by rw [hfixed.byte?, hb]
      have hold := hfixed.2
      rw [commentAt_eq hb, decide_eq_false_iff_not, not_or, not_and] at hold
      rw [commentAt_eq hb', decide_eq_false_iff_not, not_or, not_and]
      refine ⟨hold.1, fun hslash hnext => hold.2 hslash ?_⟩
      -- A slash in the text with blanks was one before.
      rw [byte?_blanked] at hnext
      obtain ⟨c, hc, heq⟩ := Option.map_eq_some_iff.1 hnext
      split at heq
      · exact absurd heq (by decide)
      · rw [hc, heq]
  have hlength : ((src.blanked.rest i).take (src.trivia i - i)).length = src.trivia i - i := by
    have hsize := src.trivia_le h.1
    rw [List.length_take, length_rest, size_blanked]
    omega
  rw [src.blanked.trivia_of_append hrest ?_ hsolid', hlength]
  · omega
  · intro b hb
    obtain ⟨n, hn, rfl⟩ := List.mem_iff_getElem.1 hb
    rw [hlength] at hn
    have hblank := hblanks (i + n) (by omega) (by rw [Source.trivia] at hn; omega)
    rw [byte?_add] at hblank
    have hget : ((src.blanked.rest i).take (src.trivia i - i))[n]? = (src.blanked.rest i)[n]? :=
      List.getElem?_take_of_lt hn
    rw [← hget, List.getElem?_eq_getElem (by omega)] at hblank
    exact hblank

/-! ### Tokens -/

/-- The bytes that may stand after the first byte of a punctuation token. -/
def isSecond (b : UInt8) : Bool := [0x2a, 0x3c, 0x3d, 0x3e].contains b

theorem Punct.bytes_shape (t : Punct) :
    ∃ b bs, t.bytes = b :: bs ∧ b ≠ 0x22 ∧ bs.length ≤ 1 ∧ bs.all isSecond = true := by
  cases t <;> exact ⟨_, _, rfl, by decide, by decide, by decide⟩

theorem isSecond_ne {b : UInt8} (h : isSecond b = true) :
    b ≠ 0x20 ∧ b ≠ 0x22 ∧ b ≠ 0x23 ∧ b ≠ 0x2f := by
  have hall : ∀ b : UInt8, isSecond b = true → b ≠ 0x20 ∧ b ≠ 0x22 ∧ b ≠ 0x23 ∧ b ≠ 0x2f := by
    decide +kernel
  exact hall b h

/-- A punctuation token stands at a place in both texts or in neither, and there is
code after it. -/
theorem Fixed.startsWith_blanked {i : Nat} (h : src.Fixed i) (t : Punct) :
    src.blanked.startsWith i t.bytes = src.startsWith i t.bytes ∧
      (src.startsWith i t.bytes = true → src.Clear (i + t.bytes.length)) := by
  obtain ⟨b, bs, hbytes, hquote, hlength, hsecond⟩ := Punct.bytes_shape t
  rw [hbytes, startsWith, startsWith, h.byte?]
  cases hfirst : src.byte? i == some b with
  | false => simp
  | true =>
    have hclear := h.succ (beq_iff_eq.1 hfirst) hquote
    rcases bs with _ | ⟨c, _ | ⟨c', bs⟩⟩
    · exact ⟨rfl, fun _ => hclear⟩
    · obtain ⟨hblank, hquote', hhash, hslash⟩ := isSecond_ne (b := c) (by simpa using hsecond)
      have hinner : Inner (· == c) := by simp [Inner, Ne.symm hblank, Ne.symm hhash, Ne.symm hslash]
      simp only [startsWith, Bool.true_and, Bool.and_true, hclear.byte?_beq hinner,
        List.length_cons, List.length_nil]
      refine ⟨trivial, fun hnext => ?_⟩
      have hbyte := beq_iff_eq.1 hnext
      exact (hclear.fixed hbyte hhash hslash).succ hbyte hquote'
    · simp at hlength

theorem Clear.punct?_blanked {i : Nat} (h : src.Clear i) : src.blanked.punct? i = src.punct? i := by
  have hsame : (fun t : Punct => src.blanked.startsWith (src.trivia i) t.bytes) = fun t =>
    src.startsWith (src.trivia i) t.bytes :=
    funext fun t => (h.trivia.startsWith_blanked t).1
  rw [punct?, punct?, h.trivia_blanked, hsame]

theorem Clear.punct? {i j : Nat} {t : Punct} (h : src.Clear i)
    (hpunct : src.punct? i = some (t, j)) : src.Clear j := by
  simp only [Source.punct?, Option.map_eq_some_iff, Prod.mk.injEq] at hpunct
  obtain ⟨u, hu, rfl, rfl⟩ := hpunct
  have hstarts := List.find?_some hu
  exact (h.trivia.startsWith_blanked u).2 hstarts

theorem inner_isLetter : Inner isLetter := by simp [Inner, isLetter]

theorem inner_isDigit : Inner isDigit := by simp [Inner, isDigit]

theorem wordEnd_blanked : ∀ (fuel : Nat) {i : Nat}, src.Clear i →
    src.blanked.wordEnd fuel i = src.wordEnd fuel i ∧ src.Clear (src.wordEnd fuel i) ∧
      src.Solidly i (src.wordEnd fuel i) := by
  intro fuel
  induction fuel with
  | zero => exact fun h => ⟨rfl, h, fun k hk hlt => by simp only [wordEnd] at hlt; omega⟩
  | succ fuel ih =>
    intro i h
    -- Going on by one byte keeps all three, if no comment starts there and no string.
    have hstep : ∀ b, src.Fixed i → src.byte? i = some b → b ≠ 0x22 →
        src.blanked.wordEnd fuel (i + 1) = src.wordEnd fuel (i + 1) ∧
          src.Clear (src.wordEnd fuel (i + 1)) ∧ src.Solidly i (src.wordEnd fuel (i + 1)) := by
      intro b hfixed hb hquote
      obtain ⟨heq, hclear, hsolid⟩ := ih (hfixed.succ hb hquote)
      refine ⟨heq, hclear, fun k hk hlt => ?_⟩
      obtain rfl | hgt : k = i ∨ i + 1 ≤ k := by omega
      · exact hfixed.zone_succ_ne (src.lt_size_of_byte? hb)
      · exact hsolid k hgt hlt
    have hstop : src.Clear i ∧ src.Solidly i i := ⟨h, fun k hk hlt => by omega⟩
    cases hb : src.byte? i with
    | none =>
      have hb' : src.blanked.byte? i = none := by simp [byte?_blanked, hb]
      simp only [wordEnd, hb, hb']
      exact ⟨trivial, hstop⟩
    | some b =>
      by_cases hcomment : src.commentAt i = true
      · -- A comment ends the word, and so does the blank in its place.
        have hstart : b = 0x23 ∨ b = 0x2f ∧ src.byte? (i + 1) = some 0x2f := by
          rwa [commentAt_eq hb, decide_eq_true_eq] at hcomment
        have hquote : b ≠ 0x22 := by
          obtain rfl | ⟨rfl, -⟩ := hstart <;> decide
        have hzone : src.zone (i + 1) = .comment := by
          rw [h.zone_succ hb, if_neg hquote, if_pos hcomment]
        have hb' : src.blanked.byte? i = some 0x20 :=
          byte?_blanked_of_comment (src.lt_size_of_byte? hb) hzone
        have hend' : src.blanked.wordEnd (fuel + 1) i = i := by
          simp [wordEnd, hb', isLetter, isDigit]
        have hend : src.wordEnd (fuel + 1) i = i := by
          obtain rfl | ⟨rfl, hnext⟩ := hstart
          · simp [wordEnd, hb, isLetter, isDigit]
          · simp [wordEnd, hb, hnext, isLetter, isDigit]
        rw [hend, hend']
        exact ⟨rfl, hstop⟩
      · have hfixed : src.Fixed i := ⟨h, by simpa using hcomment⟩
        have hb' : src.blanked.byte? i = some b := by rw [hfixed.byte?, hb]
        simp only [wordEnd, hb, hb']
        split
        · rename_i hword
          refine hstep b hfixed hb ?_
          rintro rfl
          exact absurd hword (by decide)
        · by_cases hslash : b = 0x2f
          · have hquote : b ≠ 0x22 := by
              rw [hslash]
              decide
            rw [(hfixed.succ hb hquote).any_byte? inner_isLetter]
            split
            · exact hstep b hfixed hb hquote
            · exact ⟨rfl, hstop⟩
          · simp only [beq_eq_false_iff_ne.2 hslash, Bool.false_and, Bool.false_eq_true, if_false]
            exact ⟨trivial, hstop⟩

theorem Clear.word?_blanked {i : Nat} (h : src.Clear i) : src.blanked.word? i = src.word? i := by
  obtain ⟨heq, -, hsolid⟩ := wordEnd_blanked (src.size - i) h
  rw [word?, word?, h.any_byte? inner_isLetter, size_blanked, heq]
  simp only [slice_blanked hsolid]

theorem Clear.word? {i j : Nat} {w : String} (h : src.Clear i) (hword : src.word? i = some (w, j)) :
    src.Clear j := by
  obtain ⟨-, hclear, -⟩ := wordEnd_blanked (src.size - i) h
  rw [Source.word?] at hword
  split at hword
  · simp only [Option.some.injEq, Prod.mk.injEq] at hword
    exact hword.2 ▸ hclear
  · exact absurd hword (by simp)

theorem Clear.name?_blanked {i : Nat} (h : src.Clear i) : src.blanked.name? i = src.name? i := by
  rw [name?, name?, h.trivia_blanked, h.trivia.1.word?_blanked]

theorem Clear.name? {i j : Nat} {n : String} (h : src.Clear i) (hname : src.name? i = some (n, j)) :
    src.Clear j :=
  h.trivia.1.word? (Option.filter_eq_some_iff.1 hname).1

theorem Clear.keyword?_blanked {i : Nat} (h : src.Clear i) (kw : String) :
    src.blanked.keyword? i kw = src.keyword? i kw := by
  rw [keyword?, keyword?, h.trivia_blanked, h.trivia.1.word?_blanked]

theorem Clear.keyword? {i j : Nat} {kw : String} (h : src.Clear i)
    (hkw : src.keyword? i kw = some j) : src.Clear j := by
  rw [Source.keyword?] at hkw
  split at hkw
  · rename_i w k hk
    split at hkw
    · exact Option.some.inj hkw ▸ h.trivia.1.word? hk
    · exact absurd hkw (by simp)
  · exact absurd hkw (by simp)

theorem Fixed.found_blanked {i : Nat} (h : src.Fixed i) : src.blanked.found i = src.found i := by
  rw [found, found, h.byte?, h.1.word?_blanked]
  cases hb : src.byte? i with
  | none => rfl
  | some b =>
    cases hw : src.word? i with
    | none => rfl
    | some r =>
      obtain ⟨-, -, hsolid⟩ := wordEnd_blanked (src.size - i) h.1
      have hend : r.2 = src.wordEnd (src.size - i) i := by
        rw [word?] at hw
        split at hw
        · exact (congrArg Prod.snd (Option.some.inj hw)).symm
        · exact absurd hw (by simp)
      simp only [hend, slice_blanked hsolid]

/-! ### Strings -/

/-- Looking for the end of a string finds the same place in both texts. There is code after
the closing quote. -/
theorem closingQuote_blanked :
    ∀ (fuel : Nat) {i : Nat}, (i < src.size → src.zone i = .text) → src.size < i + fuel →
      Reading.closingQuote src.blanked fuel i = Reading.closingQuote src fuel i ∧
      (Reading.closingQuote src fuel i < src.size →
        src.Clear (Reading.closingQuote src fuel i + 1)) ∧
        src.Solidly i (Reading.closingQuote src fuel i) := by
  intro fuel
  induction fuel with
  | zero =>
    refine fun _ hfuel => ⟨rfl, fun hlt => ?_, fun k hk hlt => ?_⟩
    · simp only [Reading.closingQuote] at hlt
      omega
    · simp only [Reading.closingQuote] at hlt
      omega
  | succ fuel ih =>
    intro i h hfuel
    cases hb : src.byte? i with
    | none =>
      have hb' : src.blanked.byte? i = none := by simp [byte?_blanked, hb]
      have hend : ¬ i < src.size := Nat.not_lt.2 (Array.getElem?_eq_none_iff.1 hb)
      simp only [Reading.closingQuote, hb, hb']
      exact ⟨trivial, fun hlt => absurd hlt hend, fun k hk hlt => by omega⟩
    | some b =>
      have htext := h (src.lt_size_of_byte? hb)
      have hzone : src.zone (i + 1) = if b = 0x22 then .code else
        if b = 0x5c then .escape else .text := by
        rw [zone_succ hb, htext, Zone.after]
      have hne : src.zone (i + 1) ≠ .comment := by
        rw [hzone]
        split
        · simp
        · split <;> simp
      have hb' : src.blanked.byte? i = some b := by rw [byte?_blanked_of_ne hne, hb]
      simp only [Reading.closingQuote, hb, hb', beq_iff_eq]
      split
      · rename_i hquote
        refine ⟨rfl, fun hlt => ⟨hlt, fun _ => ?_⟩, fun k hk hlt => by omega⟩
        rw [hzone, if_pos hquote]
      · rename_i hquote
        rw [if_neg hquote] at hzone
        split
        · rename_i hback
          rw [if_pos hback] at hzone
          have hskip : i + 2 < src.size → src.zone (i + 2) = .text := by
            intro hlt
            obtain ⟨c, hc⟩ := exists_byte? (Nat.lt_of_succ_lt hlt)
            rw [zone_succ hc, hzone, Zone.after]
          obtain ⟨heq, hclear, hsolid⟩ := ih hskip (by omega)
          refine ⟨heq, hclear, fun k hk hlt => ?_⟩
          obtain rfl | rfl | hgt : k = i ∨ k = i + 1 ∨ i + 2 ≤ k := by omega
          · exact hne
          · intro hcomment
            cases hnext : src.byte? (i + 1) with
            | none => simp [zone, hnext, hb, htext, Zone.after, hback] at hcomment
            | some c =>
              rw [zone_succ hnext, hzone, Zone.after] at hcomment
              exact absurd hcomment (by simp)
          · exact hsolid k hgt hlt
        · rename_i hback
          rw [if_neg hback] at hzone
          obtain ⟨heq, hclear, hsolid⟩ := ih (fun _ => hzone) (by omega)
          refine ⟨heq, hclear, fun k hk hlt => ?_⟩
          obtain rfl | hgt : k = i ∨ i + 1 ≤ k := by omega
          · exact hne
          · exact hsolid k hgt hlt

end Source

end FunRiscv
