import Mathlib
import FunRiscv.Surface.Reader.Expression
import FunRiscv.Proofs.Surface.Tokens

/-!
# Reading literals back

* `decimal_digits`: the decimal text of a natural number is made of digits that write it.
* `reads_uint`, `reads_int`, `reads_float`, `reads_str`: what literals read as.
* `Number.ReadsBack`: the text of a double reads as that double.
-/

namespace FunRiscv

open Reading

/-! ### Digits -/

/-- Digits, and at least one of them. -/
def DigitRun (ds : List UInt8) : Prop := ds ≠ [] ∧ ∀ b ∈ ds, isDigit b = true

/-- A point and a digit stand in front. -/
def pointDigit (bs : List UInt8) : Bool := bs.head? == some 0x2e && (bs.drop 1).head?.any isDigit

theorem encode_digit {c : Char} (h : c.isDigit = true) :
    String.utf8EncodeChar c = [c.toNat.toUInt8] ∧ isDigit c.toNat.toUInt8 = true ∧
      Char.ofNat (c.toNat.toUInt8).toNat = c ∧ Text.hexValue? c = some (c.toNat - 48) := by
  have hall : ∀ k : Fin 10,
    String.utf8EncodeChar (Char.ofNat (48 + k)) = [(Char.ofNat (48 + k)).toNat.toUInt8] ∧
      isDigit (Char.ofNat (48 + k)).toNat.toUInt8 = true ∧
      Char.ofNat ((Char.ofNat (48 + k)).toNat.toUInt8).toNat = Char.ofNat (48 + k) ∧
      Text.hexValue? (Char.ofNat (48 + k)) = some ((Char.ofNat (48 + k)).toNat - 48) := by decide
  have hrange : 48 ≤ c.toNat ∧ c.toNat ≤ 57 := by
    simp only [Char.isDigit, Bool.and_eq_true, decide_eq_true_eq, ge_iff_le,
      UInt32.le_iff_toNat_le] at h
    exact h
  have hc : c = Char.ofNat (48 + (⟨c.toNat - 48, by omega⟩ : Fin 10)) := by
    rw [show 48 + (c.toNat - 48) = c.toNat by omega, Char.ofNat_toNat]
  rw [hc]
  exact hall _

/-- The bytes of a text of digits, and the number that they write. -/
theorem digits_of_chars {cs : List Char} (h : ∀ c ∈ cs, c.isDigit = true) :
    (∀ b ∈ Text.bytesOf (String.ofList cs), isDigit b = true) ∧
      (Text.bytesOf (String.ofList cs)).filterMap (fun b => Text.hexValue? (Char.ofNat b.toNat)) =
        cs.map (fun c => c.toNat - 48) ∧
      (Text.bytesOf (String.ofList cs)).length = cs.length := by
  rw [Text.bytesOf_ofList]
  induction cs with
  | nil => simp
  | cons c cs ih =>
    obtain ⟨hcode, hdigit, hchar, hvalue⟩ := encode_digit (h c (by simp))
    obtain ⟨ihdigit, ihvalue, ihlen⟩ := ih fun d hd => h d (by simp [hd])
    rw [List.flatMap_cons, hcode]
    refine ⟨?_, ?_, by simp [ihlen]⟩
    · intro b hb
      rcases List.mem_append.1 hb with hb | hb
      · rw [List.mem_singleton.1 hb]
        exact hdigit
      · exact ihdigit b hb
    · rw [List.singleton_append, List.filterMap_cons_some (by rw [hchar, hvalue]), ihvalue,
        List.map_cons]

theorem fromDigits_toDigits (n : Nat) :
    Text.fromDigits 10 ((Nat.toDigits 10 n).map fun c => c.toNat - 48) = n := by
  have hfold : ∀ (cs : List Char) (k : Nat),
      (cs.map fun c => c.toNat - 48).foldl (fun n d => n * 10 + d) k =
        Nat.ofDigitChars 10 cs k := by
    intro cs
    induction cs with
    | nil => intro k; rfl
    | cons c cs ih =>
      intro k
      rw [List.map_cons, List.foldl_cons, ih, Nat.ofDigitChars_cons, Nat.mul_comm]
      rfl
  rw [Text.fromDigits, hfold, Nat.ofDigitChars_ten_toDigits]

/-- The decimal text of a number is made of digits that write it. -/
theorem decimal_digits (n : Nat) :
    DigitRun (Text.bytesOf (toString n)) ∧
      digitsValue? 10 (Text.bytesOf (toString n)) = some n := by
  have hchars : ∀ c ∈ Nat.toDigits 10 n, c.isDigit = true :=
    fun c hc => Nat.isDigit_of_mem_toDigits (by omega) (by omega) hc
  obtain ⟨hdigits, hvalue, hlen⟩ := digits_of_chars hchars
  rw [Nat.toString_eq_ofList_toDigits]
  have hne : Text.bytesOf (String.ofList (Nat.toDigits 10 n)) ≠ [] := by
    rw [← List.length_pos_iff, hlen, List.length_pos_iff]
    exact Nat.toDigits_ne_nil
  refine ⟨⟨hne, hdigits⟩, ?_⟩
  rw [digitsValue?, if_neg (by simpa using hne), hvalue, fromDigits_toDigits]

theorem DigitRun.starts {ds : List UInt8} (h : DigitRun ds) : Starts ds := by
  obtain ⟨b, bs, rfl⟩ := List.exists_cons_of_ne_nil h.1
  have hb : isDigit b = true := h.2 b (by simp)
  simp [Starts, isStart, hb]

theorem DigitRun.takeWhile {ds tail : List UInt8} (h : DigitRun ds)
    (htail : tail.head?.any isDigit = false) : (ds ++ tail).takeWhile isDigit = ds := by
  have hnone : tail.takeWhile isDigit = [] := by
    cases tail with
    | nil => rfl
    | cons b bs => simpa using htail
  rw [List.takeWhile_append_of_pos h.2, hnone, List.append_nil]

theorem not_digit_of_wordRun {tail : List UInt8} (h : wordRun tail = []) :
    tail.head?.any isLetter = false ∧ tail.head?.any isDigit = false := by
  cases tail with
  | nil => exact ⟨rfl, rfl⟩
  | cons b bs =>
    rw [wordRun] at h
    split at h
    · exact absurd h (by simp)
    · rename_i hb
      simp only [Bool.or_eq_true, not_or, Bool.not_eq_true] at hb
      exact ⟨hb.1.1, hb.1.2⟩

namespace Reading

variable {src : Source}

theorem skipWhile_digits {i : Nat} {ds tail : List UInt8} (h : src.At i (ds ++ tail))
    (hds : DigitRun ds) (htail : tail.head?.any isDigit = false) :
    src.skipWhile isDigit i = i + ds.length := by
  rw [src.skipWhile_eq, h.1, hds.takeWhile htail]

theorem slice_of_at {i : Nat} {bs tail : List UInt8} (h : src.At i (bs ++ tail)) :
    src.slice i (i + bs.length) = bs := by
  rw [src.slice_eq, h.1, Nat.add_sub_cancel_left, List.take_left]

/-- Digits that no letter follows are no hexadecimal number. -/
theorem startsWith_hex {i : Nat} {ds tail : List UInt8} (h : src.At i (ds ++ tail))
    (hds : DigitRun ds) (htail : tail.head?.any isLetter = false) :
    src.startsWith i [0x30, 0x78] = false := by
  rw [src.startsWith_eq, h.1]
  match ds, hds, tail, htail with
  | [], hds, _, _ => exact absurd rfl hds.1
  | [d], _, [], _ => simp [List.isPrefixOf]
  | [d], _, b :: bs, hb =>
    have hx : b ≠ 0x78 := by
      rintro rfl
      exact absurd (show isLetter 0x78 = false from hb) (by decide)
    simp [List.isPrefixOf, Ne.symm hx]
  | d :: e :: ds, hds, _, _ =>
    have hx : e ≠ 0x78 := by
      rintro rfl
      exact absurd (hds.2 0x78 (by simp)) (by decide)
    simp [List.isPrefixOf, Ne.symm hx]

/-- What a number is depends on what stands after its first digits. -/
theorem number_eq {start i : Nat} {ds tail : List UInt8} (hstart : start ≤ i)
    (h : src.At i (ds ++ tail)) (hds : DigitRun ds) (htail : wordRun tail = []) :
    number src start i =
      if pointDigit tail then
        floatLiteral src start i (i + ds.length) (src.skipWhile isDigit (i + ds.length + 1))
          (start != i && src.byte? start == some 0x2d)
      else if start != i then
        intLiteral src start (i + ds.length) (digitsValue? 10 ds)
          (start != i && src.byte? start == some 0x2d)
      else uintLiteral src start (i + ds.length) (digitsValue? 10 ds) := by
  obtain ⟨hletter, hdigit⟩ := not_digit_of_wordRun htail
  have hpoint : (src.byte? (i + ds.length) == some 0x2e && (src.byte? (i + ds.length + 1)).any
    isDigit) = pointDigit tail := by
    have hafter := h.drop
    rw [hafter.byte?, src.byte?_add, hafter.1, pointDigit]
    cases tail with
    | nil => rfl
    | cons b bs => cases bs <;> rfl
  have hlt : i < src.size := h.lt (by simp [hds.1])
  rw [number_inside hstart hlt]
  simp only [startsWith_hex h hds hletter, Bool.false_eq_true, if_false,
    skipWhile_digits h hds hdigit, slice_of_at h, beq_self_eq_true, Bool.true_and, hpoint]

/-! ### Literals -/

/-- The double that digits before and after a point write. -/
def pointValue (whole places : List UInt8) : Float :=
  Number.ofDecimal ((digitsValue? 10 (whole ++ places)).getD 0) places.length

section

variable {sub : SubReader} {bl ds tail : List UInt8} {good : Prop}

theorem reads_uint {n : Nat} (hbl : AllBlank bl) (hds : DigitRun ds)
    (hvalue : digitsValue? 10 ds = some n) (hn : n < 0x1000000) (htail : wordRun tail = [])
    (hpoint : pointDigit tail = false) :
    Reads src (primary src sub) (bl ++ (ds ++ tail)) tail good fun e =>
      ∃ l, e = .uint l n.toUInt32 := by
  have hstart := hds.starts.append tail
  refine (reads_tokenStart (hstart.solid_skipped hbl)).bind fun s hs => ?_
  rw [hstart.skipped hbl] at hs
  obtain ⟨d, ds', rfl⟩ := List.exists_cons_of_ne_nil hds.1
  have hbyte : src.byte? s = some d := hs.byte?
  have hdigit : isDigit d = true := hds.2 d (by simp)
  rw [primaryAt_inside hs.2]
  simp only [hbyte, hdigit, if_true, number_eq le_rfl hs hds htail, hpoint, Bool.false_eq_true,
    if_false, bne_self_eq_false, hvalue, uintLiteral, if_neg (show ¬ 0x1000000 ≤ n by omega)]
  exact (reads_set hs.drop).bind fun _ _ => Reads.pure ⟨_, rfl⟩

/-- A sign in front of digits. -/
theorem primary_signed {b : UInt8} (hb : b = 0x2b ∨ b = 0x2d) (hbl : AllBlank bl)
    (hds : DigitRun ds) {P : Expr → Prop} {rest : List UInt8}
    (h : ∀ s, src.At s (b :: (ds ++ rest)) → Reads src (number src s (s + 1))
      (bl ++ (b :: (ds ++ rest))) tail good P) :
    Reads src (primary src sub) (bl ++ (b :: (ds ++ rest))) tail good P := by
  have hstart : Starts (b :: (ds ++ rest)) := by
    rcases hb with rfl | rfl <;> rfl
  refine (reads_tokenStart (hstart.solid_skipped hbl)).bind fun s hs => ?_
  rw [hstart.skipped hbl] at hs
  obtain ⟨d, ds', rfl⟩ := List.exists_cons_of_ne_nil hds.1
  have hbyte : src.byte? s = some b := hs.byte?
  have hnext : src.byte? (s + 1) = some d := by
    rw [src.byte?_add, hs.1]
    rfl
  have hdigit : isDigit d = true := hds.2 d (by simp)
  have hsign : isDigit b = false ∧ (b == 0x2d || b == 0x2b) = true := by
    rcases hb with rfl | rfl <;> decide
  rw [primaryAt_inside hs.2]
  simp only [hbyte, hsign, hnext, Option.any_some, hdigit, Bool.and_self, Bool.false_eq_true,
    if_false, if_true]
  exact h s hs

theorem reads_int {b : UInt8} {n : Nat} (hb : b = 0x2b ∨ b = 0x2d) (hbl : AllBlank bl)
    (hds : DigitRun ds) (hvalue : digitsValue? 10 ds = some n) {v : Int}
    (hv : v = if b = 0x2d then -(n : Int) else n) (hrange : -0x800000 ≤ v ∧ v < 0x800000)
    (htail : wordRun tail = []) (hpoint : pointDigit tail = false) :
    Reads src (primary src sub) (bl ++ (b :: (ds ++ tail))) tail good fun e =>
      ∃ l, e = .int l (Int32.ofInt v) := by
  refine primary_signed hb hbl hds fun s hs => ?_
  have hdigits : src.At (s + 1) (ds ++ tail) := (show src.At s ([b] ++ (ds ++ tail)) from hs).drop
  have hsigned : (s != s + 1) = true := by simp
  have hbyte : src.byte? s = some b := hs.byte?
  have hneg : (some b == some (0x2d : UInt8)) = decide (b = 0x2d) := by
    rcases hb with rfl | rfl <;> rfl
  have hfits : (decide (v < -0x800000) || decide (0x800000 ≤ v)) = false := by
    simp only [Bool.or_eq_false_iff, decide_eq_false_iff_not]
    omega
  have hif : (if decide (b = 0x2d) = true then -(n : Int) else n) = v := by
    rw [hv]
    simp
  simp only [number_eq (Nat.le_succ s) hdigits hds htail, hpoint, Bool.false_eq_true, if_false,
    hsigned, if_true, hbyte, hneg, Bool.true_and, hvalue, intLiteral, hif, hfits]
  exact (reads_set hdigits.drop).bind fun _ _ => Reads.pure ⟨_, rfl⟩

theorem reads_floatLiteral {start i : Nat} {whole places rest : List UInt8} {negative : Bool}
    (hi : src.At i (whole ++ 0x2e :: (places ++ tail))) (hplaces : DigitRun places)
    (htail : wordRun tail = []) (hfinite : good → (pointValue whole places).isInf = false) :
    Reads src (floatLiteral src start i (i + whole.length)
      (src.skipWhile isDigit (i + whole.length + 1)) negative) rest
      tail good fun e =>
        ∃ l, e = .float l (if negative then -pointValue whole places else
          pointValue whole places) := by
  have hpoint : src.At (i + whole.length + 1) (places ++ tail) :=
    (show src.At _ ([0x2e] ++ (places ++ tail)) from hi.drop).drop
  have hstop := skipWhile_digits hpoint hplaces (not_digit_of_wordRun htail).2
  have hplaces_end := hpoint.drop.2
  rw [hstop, floatLiteral_inside (by omega) (by omega) hplaces_end, slice_of_at hi,
    slice_of_at hpoint]
  change Reads src (if (pointValue whole places).isInf = true then _ else _) _ _ _ _
  split
  · rename_i hinf
    exact Reads.failWith _ fun hgood => by simp [hfinite hgood] at hinf
  · exact (reads_set hpoint.drop).bind fun _ _ => Reads.pure ⟨_, rfl⟩

theorem pointDigit_cons {places : List UInt8} (h : DigitRun places) (rest : List UInt8) :
    pointDigit (0x2e :: (places ++ rest)) = true := by
  obtain ⟨b, bs, rfl⟩ := List.exists_cons_of_ne_nil h.1
  have hb : isDigit b = true := h.2 b (by simp)
  simp [pointDigit, hb]

/-- A number with a point reads as the double that it writes, or not at all if that is
beyond the largest one. -/
theorem reads_float {whole places : List UInt8} (hbl : AllBlank bl) (hwhole : DigitRun whole)
    (hplaces : DigitRun places) (htail : wordRun tail = [])
    (hfinite : good → (pointValue whole places).isInf = false) :
    Reads src (primary src sub) (bl ++ (whole ++ 0x2e :: (places ++ tail))) tail good
      fun e => ∃ l, e = .float l (pointValue whole places) := by
  have hstart := hwhole.starts.append (0x2e :: (places ++ tail))
  refine (reads_tokenStart (hstart.solid_skipped hbl)).bind fun s hs => ?_
  rw [hstart.skipped hbl] at hs
  obtain ⟨d, ds', rfl⟩ := List.exists_cons_of_ne_nil hwhole.1
  have hbyte : src.byte? s = some d := hs.byte?
  have hdigit : isDigit d = true := hwhole.2 d (by simp)
  have hpoint : wordRun (0x2e :: (places ++ tail)) = [] := rfl
  rw [primaryAt_inside hs.2]
  simp only [hbyte, hdigit, if_true, number_eq le_rfl hs hwhole hpoint, pointDigit_cons hplaces,
    bne_self_eq_false, Bool.false_and]
  exact reads_floatLiteral hs hplaces htail hfinite

/-- So does one with a sign. -/
theorem reads_signed_float {b : UInt8} {whole places : List UInt8} (hb : b = 0x2b ∨ b = 0x2d)
    (hbl : AllBlank bl) (hwhole : DigitRun whole) (hplaces : DigitRun places)
    (htail : wordRun tail = [])
    (hfinite : good → (pointValue whole places).isInf = false) :
    Reads src (primary src sub) (bl ++ (b :: (whole ++ 0x2e :: (places ++ tail))))
      tail good fun e =>
      ∃ l, e = .float l (if b = 0x2d then -pointValue whole places else
        pointValue whole places) := by
  refine primary_signed hb hbl hwhole fun s hs => ?_
  have hdigits : src.At (s + 1) (whole ++ 0x2e :: (places ++ tail)) :=
    (show src.At s ([b] ++ _) from hs).drop
  have hsigned : (s != s + 1) = true := by simp
  have hbyte : src.byte? s = some b := hs.byte?
  have hneg : (some b == some (0x2d : UInt8)) = decide (b = 0x2d) := by
    rcases hb with rfl | rfl <;> rfl
  have hpoint : wordRun (0x2e :: (places ++ tail)) = [] := rfl
  simp only [number_eq (Nat.le_succ s) hdigits hwhole hpoint, pointDigit_cons hplaces, if_true,
    hsigned, hbyte, hneg, Bool.true_and]
  refine (reads_floatLiteral hdigits hplaces htail hfinite).mono id ?_
  rintro e ⟨l, rfl⟩
  exact ⟨l, by simp⟩

theorem closingQuote_eq {inside : List UInt8} (h : Text.Escaped inside) : ∀ {i fuel : Nat},
    src.At i (inside ++ 0x22 :: tail) → inside.length < fuel →
      closingQuote src fuel i = i + inside.length := by
  induction h with
  | nil =>
    intro i fuel hi hfuel
    obtain ⟨fuel, rfl⟩ : ∃ n, fuel = n + 1 := ⟨fuel - 1, by omega⟩
    rw [closingQuote, hi.byte?]
    rfl
  | @byte b bs hquote hslash _ ih =>
    intro i fuel hi hfuel
    obtain ⟨fuel, rfl⟩ : ∃ n, fuel = n + 1 := ⟨fuel - 1, by omega⟩
    have hnext : src.At (i + 1) (bs ++ 0x22 :: tail) := (show src.At i ([b] ++ _) from hi).drop
    have hrun := ih hnext (by simpa using hfuel)
    rw [closingQuote, hi.byte?]
    simp only [List.cons_append, List.head?_cons, beq_iff_eq, hquote, hslash, if_false, hrun,
      List.length_cons]
    omega
  | @pair b bs _ ih =>
    intro i fuel hi hfuel
    obtain ⟨fuel, rfl⟩ : ∃ n, fuel = n + 1 := ⟨fuel - 1, by omega⟩
    have hnext : src.At (i + 2) (bs ++ 0x22 :: tail) :=
      (show src.At i ([0x5c, b] ++ _) from hi).drop
    have hrun : closingQuote src fuel (i + 2) = i + 2 + bs.length := by
      refine ih hnext ?_
      simp only [List.length_cons] at hfuel
      omega
    rw [closingQuote, hi.byte?]
    show closingQuote src fuel (i + 2) = _
    rw [hrun, List.length_cons, List.length_cons]
    omega

/-- A quoted byte string is a literal for it. -/
theorem reads_str {bs : List UInt8} (hbl : AllBlank bl) :
    Reads src (primary src sub) (bl ++ (Text.bytesOf (Text.quote bs) ++ tail)) tail good fun e =>
      ∃ l, e = .str l bs := by
  rw [Text.bytesOf_quote]
  have hstart : Starts (0x22 :: (Text.inside bs ++ [0x22]) ++ tail) := rfl
  refine (reads_tokenStart (hstart.solid_skipped hbl)).bind fun s hs => ?_
  rw [hstart.skipped hbl] at hs
  have hbyte : src.byte? s = some 0x22 := hs.byte?
  have hinside : src.At (s + 1) (Text.inside bs ++ 0x22 :: tail) := by
    have hone := (show src.At s ([0x22] ++ ((Text.inside bs ++ [0x22]) ++ tail)) from hs).drop
    rwa [List.append_assoc] at hone
  have hlen := congrArg List.length hinside.1
  simp only [Source.length_rest, List.length_append, List.length_cons] at hlen
  have hquote := closingQuote_eq (Text.escaped_inside bs) hinside (show _ < src.size + 1 by omega)
  have hclose : src.At (s + 1 + (Text.inside bs).length + 1) tail :=
    (show src.At _ ([0x22] ++ tail) from hinside.drop).drop
  rw [primaryAt_inside hs.2, hbyte]
  show Reads src (string src s) _ _ _ _
  rw [string_inside (by omega)]
  simp only [hquote, slice_of_at hinside, Text.unquote?_inside,
    if_neg (show ¬ src.size < s + 1 + (Text.inside bs).length by omega),
    if_neg (show ¬ s + 1 + (Text.inside bs).length = src.size by omega)]
  exact (reads_set hclose).bind fun _ _ => Reads.pure ⟨_, rfl⟩

end

end Reading

/-! ### Doubles -/

/-- The double that a text with a point reads as, if it is the text of one: perhaps a minus, digits,
a point and digits. -/
def Number.read? (bs : List UInt8) : Option Float :=
  let negative := bs.head? == some 0x2d
  let digits := if negative then bs.drop 1 else bs
  let whole := digits.takeWhile isDigit
  let rest := digits.dropWhile isDigit
  let value := pointValue whole (rest.drop 1)
  if !whole.isEmpty && rest.head? == some 0x2e && !(rest.drop 1).isEmpty &&
    (rest.drop 1).all isDigit && !value.isInf then
    some (if negative then -value else value)
  else none

/-- The text of a double reads as that double. -/
def Number.ReadsBack (v : Float) : Prop := Number.read? (Text.bytesOf (Number.text v)) = some v

theorem Number.eq_of_read? {bs : List UInt8} {v : Float} (h : Number.read? bs = some v) :
    ∃ (negative : Bool) (whole places : List UInt8),
      bs = (if negative then [0x2d] else []) ++ (whole ++ 0x2e :: places) ∧ DigitRun whole ∧
      DigitRun places ∧ (pointValue whole places).isInf = false ∧
      v = if negative then -pointValue whole places else pointValue whole places := by
  obtain ⟨negative, hnegative⟩ : ∃ b, (bs.head? == some 0x2d) = b := ⟨_, rfl⟩
  obtain ⟨digits, hdigits⟩ : ∃ ds, (if negative then bs.drop 1 else bs) = ds := ⟨_, rfl⟩
  simp only [Number.read?, hnegative, hdigits] at h
  split at h
  · rename_i hcond
    simp only [Bool.and_eq_true, Bool.not_eq_true', beq_iff_eq, List.isEmpty_eq_false_iff,
      List.all_eq_true] at hcond
    obtain ⟨⟨⟨⟨hwhole, hpoint⟩, hplaces⟩, hall⟩, hinf⟩ := hcond
    refine ⟨negative, digits.takeWhile isDigit, (digits.dropWhile isDigit).drop 1, ?_,
      ⟨hwhole, fun b hb => List.mem_takeWhile_imp hb⟩, ⟨hplaces, hall⟩, hinf,
      (Option.some.inj h).symm⟩
    have hrest : 0x2e :: (digits.dropWhile isDigit).drop 1 = digits.dropWhile isDigit := by
      cases hd : digits.dropWhile isDigit with
      | nil => simp [hd] at hpoint
      | cons b rest =>
        rw [hd] at hpoint
        simp only [List.head?_cons, Option.some.injEq] at hpoint
        rw [hpoint]
        rfl
    rw [hrest, List.takeWhile_append_dropWhile, ← hdigits]
    cases negative with
    | false => rfl
    | true =>
      cases bs with
      | nil => simp at hnegative
      | cons b rest =>
        simp only [List.head?_cons, beq_iff_eq, Option.some.injEq] at hnegative
        rw [hnegative]
        rfl
  · exact absurd h (by simp)

namespace Number.ReadsBack

variable {v : Float} {src : Source} {sub : SubReader} {bl tail : List UInt8} {good : Prop}

/-- The text of a double that reads back is a literal for it. -/
theorem reads (h : ReadsBack v) (hbl : AllBlank bl) (htail : wordRun tail = []) :
    Reads src (primary src sub) (bl ++ (Text.bytesOf (Number.text v) ++ tail)) tail good fun e =>
      ∃ l, e = .float l v := by
  obtain ⟨negative, whole, places, htext, hwhole, hplaces, hinf, hv⟩ := Number.eq_of_read? h
  rw [htext]
  cases negative with
  | false =>
    simp only [Bool.false_eq_true, if_false, List.nil_append, List.append_assoc,
      List.cons_append] at hv ⊢
    rw [hv]
    exact reads_float hbl hwhole hplaces htail fun _ => hinf
  | true =>
    simp only [if_true, List.append_assoc, List.cons_append, List.nil_append] at hv ⊢
    refine (reads_signed_float (.inr rfl) hbl hwhole hplaces htail fun _ => hinf).mono id ?_
    rintro e ⟨l, rfl⟩
    exact ⟨l, by simp [hv]⟩

theorem starts (h : ReadsBack v) : Starts (Text.bytesOf (Number.text v)) := by
  obtain ⟨negative, whole, places, htext, hwhole, -⟩ := Number.eq_of_read? h
  rw [htext]
  cases negative with
  | false => exact hwhole.starts.append _
  | true => rfl

end Number.ReadsBack

end FunRiscv
