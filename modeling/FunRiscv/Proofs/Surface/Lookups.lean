import Mathlib
import FunRiscv.Proofs.Surface.Scanning

/-!
# Looks from inside the text

* `Source.le_trivia`, `Source.word?_bounds`, `Source.punct?_bounds`: where the scanners end.
* `Source.skip_eq`, `Source.wordAt?_eq`, `Source.punctAfter?_eq`: from a position in the text no
  look of the reader leaves it, and what comes of the looks is what the scanners find.
* `Source.skip_outside`: beyond the end, the first look for a comment leaves the text.
* `Reading.number_inside`, `Reading.string_inside`, `Reading.primaryAt_inside`: the same of the
  rules that look at bytes of their own.
-/

namespace FunRiscv

namespace Source

variable (src : Source)

/-! ### Where the scanners end -/

theorem le_skipWhile (p : UInt8 → Bool) (i : Nat) : i ≤ src.skipWhile p i := by
  rw [skipWhile_eq]
  omega

theorem skipWhile_le {i : Nat} (p : UInt8 → Bool) (h : i ≤ src.size) :
    src.skipWhile p i ≤ src.size := by
  have hle : ((src.rest i).takeWhile p).length ≤ (src.rest i).length :=
    (List.takeWhile_prefix p).length_le
  rw [length_rest] at hle
  rw [skipWhile_eq]
  omega

theorem lt_skipWhile {i : Nat} {p : UInt8 → Bool} (h : (src.byte? i).any p = true) :
    i < src.skipWhile p i := by
  rw [byte?_eq] at h
  rw [skipWhile_eq]
  cases hrest : src.rest i with
  | nil => simp [hrest] at h
  | cons b bs =>
    have hb : p b = true := by simpa [hrest] using h
    rw [List.takeWhile_cons_of_pos hb, List.length_cons]
    omega

theorem triviaWithin_bounds (fuel : Nat) {i : Nat} (h : i ≤ src.size) :
    i ≤ src.triviaWithin fuel i ∧ src.triviaWithin fuel i ≤ src.size := by
  induction fuel generalizing i with
  | zero => exact ⟨src.le_skipWhile _ i, src.skipWhile_le _ h⟩
  | succ fuel ih =>
    have hlow : i ≤ src.skipBlanks .all i := src.le_skipWhile _ i
    have hhigh : src.skipBlanks .all i ≤ src.size := src.skipWhile_le _ h
    rw [triviaWithin]
    split
    · have hline := ih (src.skipWhile_le (· != 10) hhigh)
      have hle := src.le_skipWhile (· != 10) (src.skipBlanks .all i)
      exact ⟨by omega, hline.2⟩
    · exact ⟨hlow, hhigh⟩

theorem le_trivia {i : Nat} (h : i ≤ src.size) : i ≤ src.trivia i := (src.triviaWithin_bounds _ h).1

theorem trivia_le {i : Nat} (h : i ≤ src.size) : src.trivia i ≤ src.size :=
  (src.triviaWithin_bounds _ h).2

theorem lt_size_of_byte? {i : Nat} {b : UInt8} (h : src.byte? i = some b) : i < src.size :=
  (Array.getElem?_eq_some_iff.1 h).1

theorem lt_size_of_any {i : Nat} {p : UInt8 → Bool} (h : (src.byte? i).any p = true) :
    i < src.size := by
  obtain ⟨b, hb, -⟩ := (Option.any_eq_true _ _).1 h
  exact src.lt_size_of_byte? hb

theorem startsWith_le {bs : List UInt8} {i : Nat} (h : src.startsWith i bs = true)
    (hi : i ≤ src.size) : i + bs.length ≤ src.size := by
  rw [startsWith_eq] at h
  have hle := (List.isPrefixOf_iff_prefix.1 h).length_le
  rw [length_rest] at hle
  omega

theorem punct?_bounds {i j : Nat} {t : Punct} (h : src.punct? i = some (t, j)) (hi : i ≤ src.size) :
    i < j ∧ j ≤ src.size := by
  simp only [punct?, Option.map_eq_some_iff, Prod.mk.injEq] at h
  obtain ⟨u, hu, rfl, rfl⟩ := h
  have hfound := List.find?_some hu
  have hstarts := src.startsWith_le hfound (src.trivia_le hi)
  have hlow := src.le_trivia hi
  have hpos : 0 < u.bytes.length := by cases u <;> decide
  omega

theorem wordEnd_bounds (fuel : Nat) {i : Nat} (h : i ≤ src.size) :
    i ≤ src.wordEnd fuel i ∧ src.wordEnd fuel i ≤ src.size := by
  induction fuel generalizing i with
  | zero => exact ⟨le_rfl, h⟩
  | succ fuel ih =>
    rw [wordEnd]
    split
    · exact ⟨le_rfl, h⟩
    · rename_i b hb
      have hnext := ih (i := i + 1) (src.lt_size_of_byte? hb)
      split
      · exact ⟨by omega, hnext.2⟩
      · split
        · exact ⟨by omega, hnext.2⟩
        · exact ⟨le_rfl, h⟩

theorem word?_bounds {i j : Nat} {w : String} (h : src.word? i = some (w, j)) :
    i < j ∧ j ≤ src.size := by
  rw [word?] at h
  split at h
  · rename_i hletter
    obtain ⟨b, hb, hb'⟩ := (Option.any_eq_true _ _).1 hletter
    have hlt := src.lt_size_of_byte? hb
    obtain ⟨fuel, hfuel⟩ : ∃ n, src.size - i = n + 1 := ⟨src.size - i - 1, by omega⟩
    have hstep : src.wordEnd (src.size - i) i = src.wordEnd fuel (i + 1) := by
      simp [hfuel, wordEnd, hb, hb']
    have hbounds := src.wordEnd_bounds fuel (i := i + 1) hlt
    rw [hstep] at h
    simp only [Option.some.injEq, Prod.mk.injEq] at h
    omega
  · exact absurd h (by simp)

theorem name?_bounds {i j : Nat} {n : String} (h : src.name? i = some (n, j)) (hi : i ≤ src.size) :
    i < j ∧ j ≤ src.size := by
  have hword := src.word?_bounds (Option.filter_eq_some_iff.1 h).1
  have hlow := src.le_trivia hi
  omega

theorem keyword?_bounds {i j : Nat} {kw : String} (h : src.keyword? i kw = some j)
    (hi : i ≤ src.size) : i < j ∧ j ≤ src.size := by
  rw [keyword?] at h
  split at h
  · rename_i w k hk
    have hword := src.word?_bounds hk
    have hlow := src.le_trivia hi
    split at h
    · simp only [Option.some.injEq] at h
      omega
    · exact absurd h (by simp)
  · exact absurd h (by simp)

theorem closingQuote_bounds (fuel : Nat) {i : Nat} (h : i ≤ src.size + 1) :
    i ≤ Reading.closingQuote src fuel i ∧ Reading.closingQuote src fuel i ≤ src.size + 1 := by
  induction fuel generalizing i with
  | zero => exact ⟨le_rfl, h⟩
  | succ fuel ih =>
    rw [Reading.closingQuote]
    split
    · exact ⟨le_rfl, h⟩
    · rename_i b hb
      have hlt := src.lt_size_of_byte? hb
      have hone := ih (i := i + 1) (by omega)
      have htwo := ih (i := i + 2) (by omega)
      split
      · exact ⟨le_rfl, h⟩
      · split
        · exact ⟨by omega, htwo.2⟩
        · exact ⟨by omega, hone.2⟩

/-! ### Single bytes and spans -/

theorem pure_andM (a : Bool) (x : Look Bool) :
    (pure a <&&> x) = if a = true then x else pure false := by cases a <;> rfl

theorem any_beq (b : UInt8) (o : Option UInt8) : o.any (· == b) = (o == some b) := by
  cases o <;> rfl

variable {src}

theorem index_of_byte? {i : Nat} {b : UInt8} (h : src.byte? i = some b) : src.index i = pure b := by
  obtain ⟨hi, hb⟩ := Array.getElem?_eq_some_iff.1 h
  rw [index, dif_pos hi, hb]
  rfl

theorem byte?_of_lt {i : Nat} (h : i < src.size) : ∃ b, src.byte? i = some b :=
  ⟨src.bytes[i], Array.getElem?_eq_some_iff.2 ⟨h, rfl⟩⟩

/-- A test of a byte of the text. -/
theorem map_index {i : Nat} (h : i < src.size) (p : UInt8 → Bool) :
    p <$> src.index i = pure ((src.byte? i).any p) := by
  obtain ⟨b, hb⟩ := byte?_of_lt h
  rw [index_of_byte? hb, hb, map_pure, Option.any_some]

theorem byte?_of_ge {i : Nat} (h : src.size ≤ i) : src.byte? i = none := Array.getElem?_eq_none h

theorem cut_eq {i j : Nat} (h : i ≤ j) (hj : j ≤ src.size) : src.cut i j = pure (src.slice i j) :=
  if_pos ⟨h, hj⟩

theorem hasPrefix_eq {i : Nat} (h : i ≤ src.size) (bs : List UInt8) :
    src.hasPrefix i bs = pure (src.startsWith i bs) := if_pos h

variable (src)

theorem holdsAt_eq (p : UInt8 → Bool) (i : Nat) : src.holdsAt p i = pure ((src.byte? i).any p) := by
  rw [holdsAt]
  split
  · rename_i h
    exact map_index h p
  · rename_i h
    rw [byte?_of_ge (Nat.le_of_not_lt h), Option.any_none]

/-! ### Passing over bytes -/

theorem passWithin_eq (p : UInt8 → Bool) (fuel i : Nat) :
    src.passWithin p fuel i = pure (src.scan p fuel i) := by
  induction fuel generalizing i with
  | zero => rfl
  | succ fuel ih =>
    rw [passWithin, scan, holdsAt_eq, pure_bind, ih]
    exact (apply_ite pure ..).symm

theorem pass_eq (p : UInt8 → Bool) (i : Nat) : src.pass p i = pure (src.skipWhile p i) :=
  src.passWithin_eq p _ i

theorem passBlanks_eq (blanks : Blanks) (i : Nat) :
    src.passBlanks blanks i = pure (src.skipBlanks blanks i) := src.pass_eq _ i

theorem opensComment_eq {i : Nat} (h : i ≤ src.size) :
    src.opensComment i = pure (src.commentAt i) := by
  rw [opensComment, holdsAt_eq, hasPrefix_eq h, commentAt, any_beq]
  simp only [startsWith, Bool.and_true]
  cases src.byte? i == some 0x23 <;> rfl

theorem skipWithin_eq {fuel i : Nat} (hi : i ≤ src.size) (hfuel : src.size - i ≤ fuel) :
    src.skipWithin (fuel + 1) i = pure (src.triviaWithin fuel i) := by
  induction fuel generalizing i with
  | zero =>
    have hlow : i ≤ src.skipBlanks .all i := src.le_skipWhile _ i
    have hhigh : src.skipBlanks .all i ≤ src.size := src.skipWhile_le _ hi
    have hend : src.skipBlanks .all i = src.size := by omega
    have hcomment : src.commentAt src.size = false := by simp [commentAt, byte?_of_ge]
    rw [skipWithin, passBlanks_eq, pure_bind, triviaWithin, hend, src.opensComment_eq le_rfl,
      pure_bind, hcomment, if_neg Bool.false_ne_true]
  | succ fuel ih =>
    have hlow : i ≤ src.skipBlanks .all i := src.le_skipWhile _ i
    have hhigh : src.skipBlanks .all i ≤ src.size := src.skipWhile_le _ hi
    rw [skipWithin, passBlanks_eq, pure_bind, src.opensComment_eq hhigh, pure_bind, triviaWithin]
    cases hcomment : src.commentAt (src.skipBlanks .all i) with
    | false => rfl
    | true =>
      have hlt := src.commentAt_lt hcomment
      simp only [if_true, pass_eq, pure_bind]
      exact ih (src.skipWhile_le _ hhigh) (by omega)

theorem skip_eq {i : Nat} (h : i ≤ src.size) : src.skip i = pure (src.trivia i) :=
  src.skipWithin_eq h le_rfl

/-- There are no blanks beyond the end, and to look for a comment there leaves the text. -/
theorem skip_outside {i : Nat} (h : src.size < i) : src.skip i = .error ⟨i, src.size⟩ := by
  have hnone : src.byte? i = none := byte?_of_ge (Nat.le_of_lt h)
  have hstay : src.skipBlanks .all i = i := by
    have hzero : src.size - i = 0 := by omega
    rw [skipBlanks, skipWhile, hzero, scan]
  have hopens : src.opensComment i = .error ⟨i, src.size⟩ := by
    rw [opensComment, holdsAt_eq, hnone, hasPrefix, if_neg (by omega)]
    rfl
  rw [skip, skipWithin, passBlanks_eq, pure_bind, hstay, hopens]
  rfl

variable {src} in
theorem le_of_skip {i j : Nat} (h : src.skip i = .ok j) : i ≤ src.size := by
  by_contra hlt
  rw [src.skip_outside (Nat.lt_of_not_le hlt)] at h
  cases h

/-! ### Words -/

theorem wordWithin_eq (fuel i : Nat) : src.wordWithin fuel i = pure (src.wordEnd fuel i) := by
  induction fuel generalizing i with
  | zero => rfl
  | succ fuel ih =>
    rw [wordWithin, wordEnd]
    split
    · rename_i h
      obtain ⟨b, hb⟩ := byte?_of_lt h
      rw [index_of_byte? hb, pure_bind, hb, holdsAt_eq, ih]
      dsimp only
      cases isLetter b || isDigit b with
      | true => rfl
      | false => cases b == 0x2f <;> cases (src.byte? (i + 1)).any isLetter <;> rfl
    · rename_i h
      rw [byte?_of_ge (Nat.le_of_not_lt h)]

theorem wordAt?_eq {i : Nat} (h : i ≤ src.size) : src.wordAt? i = pure (src.word? i) := by
  rw [wordAt?, word?]
  split
  · rename_i hend
    rw [byte?_of_ge (Nat.le_of_eq hend.symm)]
    rfl
  · rename_i hne
    obtain ⟨b, hb⟩ := byte?_of_lt (Nat.lt_of_le_of_ne h hne)
    have hbounds := src.wordEnd_bounds (src.size - i) h
    rw [index_of_byte? hb, pure_bind, hb, Option.any_some, wordWithin_eq, pure_bind,
      cut_eq hbounds.1 hbounds.2, pure_bind]
    cases isLetter b <;> rfl

theorem nameAfter?_eq {i : Nat} (h : i ≤ src.size) : src.nameAfter? i = pure (src.name? i) := by
  rw [nameAfter?, src.skip_eq h, pure_bind, src.wordAt?_eq (src.trivia_le h), pure_bind, name?]

/-- A name is looked for only after a position in the text. -/
theorem nameAfter?_ok {i : Nat} {r : Option (String × Nat)} (h : src.nameAfter? i = .ok r) :
    r = src.name? i := by
  have hle : i ≤ src.size := by
    by_contra hlt
    rw [nameAfter?, src.skip_outside (Nat.lt_of_not_le hlt)] at h
    cases h
  rw [src.nameAfter?_eq hle] at h
  exact (Except.ok.inj h).symm

theorem keywordAfter?_eq {i : Nat} (h : i ≤ src.size) (kw : String) :
    src.keywordAfter? i kw = pure (src.keyword? i kw) := by
  rw [keywordAfter?, src.skip_eq h, pure_bind, src.wordAt?_eq (src.trivia_le h),
    pure_bind, keyword?]
  cases src.word? (src.trivia i) <;> rfl

theorem foundAt_eq {i : Nat} (h : i ≤ src.size) : src.foundAt i = pure (src.found i) := by
  rw [foundAt, found]
  split
  · rename_i hlt
    obtain ⟨b, hb⟩ := byte?_of_lt hlt
    rw [src.wordAt?_eq h, pure_bind, hb]
    cases hw : src.word? i with
    | some r =>
      have hbounds := src.word?_bounds hw
      exact cut_eq (by omega) hbounds.2
    | none =>
      have hone : src.slice i (i + 1) = [b] := by
        rw [byte?_eq] at hb
        rw [slice_eq, Nat.add_sub_cancel_left, List.take_one, hb, Option.toList_some]
      exact (cut_eq (Nat.le_succ i) hlt).trans (congrArg pure hone)
  · rename_i hge
    rw [byte?_of_ge (Nat.le_of_not_lt hge)]

/-! ### Punctuation -/

theorem punctAfter?_eq {i : Nat} (h : i ≤ src.size) : src.punctAfter? i = pure (src.punct? i) := by
  have hprefix : (fun t : Punct => src.hasPrefix (src.trivia i) t.bytes) =
      fun t => pure (src.startsWith (src.trivia i) t.bytes) := by
    funext t
    exact hasPrefix_eq (src.trivia_le h) _
  rw [punctAfter?, src.skip_eq h, pure_bind, hprefix, List.findM?_pure, pure_bind, punct?]

end Source

namespace Reading

variable {α : Type} {src : Source}

theorem look_pure (a : α) : look (pure a) = pure a := rfl

/-! ### Errors and literals -/

theorem unexpectedAt_eq {i : Nat} (h : i ≤ src.size) (want : String) :
    (unexpectedAt src i want : Reading α) =
      failWith (ReadCause.unexpected (src.locate (src.trivia i) (src.trivia i)) want
        (src.found (src.trivia i))) := by
  rw [unexpectedAt, src.skip_eq h, look_pure, pure_bind, src.foundAt_eq (src.trivia_le h),
    look_pure, pure_bind]

theorem pointAt_eq (src : Source) (i : Nat) :
    pointAt src i = pure (src.byte? i == some 0x2e && (src.byte? (i + 1)).any isDigit) := by
  rw [pointAt]
  split
  · rename_i h
    rw [Source.map_index (Nat.lt_of_succ_lt h), Source.map_index h, Source.pure_andM,
      Source.any_beq]
    cases src.byte? i == some 0x2e <;> rfl
  · rename_i h
    rw [Source.byte?_of_ge (i := i + 1) (Nat.le_of_not_lt h), Option.any_none, Bool.and_false]

theorem quoteWithin_eq (src : Source) (fuel i : Nat) :
    quoteWithin src fuel i = pure (closingQuote src fuel i) := by
  induction fuel generalizing i with
  | zero => rfl
  | succ fuel ih =>
    rw [quoteWithin, Source.holdsAt_eq, pure_bind, closingQuote, ih, ih]
    cases hb : src.byte? i with
    | none => rfl
    | some b =>
      rw [Option.any_some, Source.index_of_byte? hb, pure_bind]
      dsimp only
      cases hquote : b == 0x22 with
      | true => simp [bne, hquote]
      | false =>
        simp only [bne, hquote, Bool.not_false, if_true, Bool.false_eq_true, if_false]
        exact (apply_ite pure ..).symm

theorem floatLiteral_inside {start digits point stop : Nat} {negative : Bool}
    (hpoint : digits ≤ point) (hlt : point < stop) (hstop : stop ≤ src.size) :
    floatLiteral src start digits point stop negative =
      (let loc := src.locate start stop
       let whole := src.slice digits point
       let places := src.slice (point + 1) stop
       let value := Number.ofDecimal ((digitsValue? 10 (whole ++ places)).getD 0) places.length
       if value.isInf then
         failWith (ReadCause.floatRange loc (Text.ofAscii (src.slice digits stop)))
       else do
         set stop
         return .float loc (if negative then -value else value)) := by
  have hwhole : (src.slice digits stop).take (point - digits) = src.slice digits point := by
    rw [Source.slice_eq, Source.slice_eq, List.take_take, Nat.min_eq_left (by omega)]
  have hplaces : (src.slice digits stop).drop (point - digits + 1) =
    src.slice (point + 1) stop := by
    have hstart : digits + (point - digits + 1) = point + 1 := by omega
    have hlength : stop - digits - (point - digits + 1) = stop - (point + 1) := by omega
    rw [Source.slice_eq, Source.slice_eq, List.drop_take, ← Source.rest_add, hstart, hlength]
  rw [floatLiteral, Source.cut_eq (by omega) hstop, look_pure, pure_bind, hwhole, hplaces]

theorem intLiteral_inside {start stop : Nat} {magnitude : Option Nat} {negative : Bool}
    (h : start ≤ stop) (hstop : stop ≤ src.size) :
    intLiteral src start stop magnitude negative =
      (let loc := src.locate start stop
       let fail : Reading Expr :=
         failWith (ReadCause.intRange loc (Text.ofAscii (src.slice start stop)))
       match magnitude with
       | none => fail
       | some n =>
         let v : Int := if negative then -n else n
         if v < -0x800000 || 0x800000 ≤ v then fail
         else do
           set stop
           return .int loc (Int32.ofInt v)) := by
  have hfail : (look (src.cut start stop) >>= fun text =>
      failWith (ReadCause.intRange (src.locate start stop) (Text.ofAscii text)) : Reading Expr) =
      failWith (ReadCause.intRange (src.locate start stop)
        (Text.ofAscii (src.slice start stop))) := by
    rw [Source.cut_eq h hstop, look_pure, pure_bind]
  cases magnitude with
  | none => exact hfail
  | some n => exact ite_congr rfl (fun _ => hfail) fun _ => rfl

theorem uintLiteral_inside {start stop : Nat} {magnitude : Option Nat} (h : start ≤ stop)
    (hstop : stop ≤ src.size) :
    uintLiteral src start stop magnitude =
      (let loc := src.locate start stop
       let fail : Reading Expr :=
         failWith (ReadCause.uintRange loc (Text.ofAscii (src.slice start stop)))
       match magnitude with
       | none => fail
       | some n =>
         if 0x1000000 ≤ n then fail
         else do
           set stop
           return .uint loc n.toUInt32) := by
  have hfail : (look (src.cut start stop) >>= fun text =>
      failWith (ReadCause.uintRange (src.locate start stop) (Text.ofAscii text)) : Reading Expr) =
      failWith (ReadCause.uintRange (src.locate start stop)
        (Text.ofAscii (src.slice start stop))) := by
    rw [Source.cut_eq h hstop, look_pure, pure_bind]
  cases magnitude with
  | none => exact hfail
  | some n => exact ite_congr rfl (fun _ => hfail) fun _ => rfl

/-- A number whose first digit is in the text is read without a look that leaves it. -/
theorem number_inside {start digits : Nat} (hstart : start ≤ digits) (hdigits : digits < src.size) :
    number src start digits =
      (let signed := start != digits
       let negative := signed && src.byte? start == some 0x2d
       let (first, stop, magnitude) :=
         if src.startsWith digits [0x30, 0x78] then
           let stop := src.skipWhile isHexDigit (digits + 2)
           (digits + 2, stop, digitsValue? 16 (src.slice (digits + 2) stop))
         else
           let stop := src.skipWhile isDigit digits
           (digits, stop, digitsValue? 10 (src.slice digits stop))
       if first == digits && src.byte? stop == some 0x2e && (src.byte? (stop + 1)).any isDigit then
         floatLiteral src start digits stop (src.skipWhile isDigit (stop + 1)) negative
       else if signed then intLiteral src start stop magnitude negative
       else uintLiteral src start stop magnitude) := by
  have hsign : look ((· == 0x2d) <$> src.index start) = pure (src.byte? start == some 0x2d) := by
    rw [Source.map_index (by omega), look_pure, Source.any_beq]
  rw [number, Source.hasPrefix_eq (by omega), look_pure, pure_bind]
  cases hhex : src.startsWith digits [0x30, 0x78] with
  | true =>
    have hle : digits + 2 ≤ src.size := src.startsWith_le hhex (by omega)
    have hfirst : (digits + 2 == digits) = false := by simp
    have hcut := Source.cut_eq (src.le_skipWhile isHexDigit _) (src.skipWhile_le isHexDigit hle)
    cases hsigned : start != digits <;>
      simp [hsign, hfirst, hcut, Source.pass_eq, look_pure]
  | false =>
    have hcut :=
      Source.cut_eq (src.le_skipWhile isDigit _) (src.skipWhile_le isDigit (Nat.le_of_lt hdigits))
    cases hsigned : start != digits <;>
      simp [hsign, hcut, Source.pass_eq, pointAt_eq, look_pure]

/-- The only look of a string that leaves the text is for what stands after an escape at its end. -/
theorem string_inside {start : Nat} (h : start < src.size) :
    string src start =
      (let i := closingQuote src (src.size + 1) (start + 1)
       if src.size < i then failWith (ReadCause.outside ⟨i, src.size⟩)
       else if i = src.size then unexpectedAt src i "closing quote"
       else
         let loc := src.locate start (i + 1 : Nat)
         match Text.unquote? (src.slice (start + 1) i) with
         | some bytes => do
           set (i + 1)
           return .str loc bytes
         | none => failWith (ReadCause.badString loc)) := by
  have hlow := (src.closingQuote_bounds (src.size + 1) (i := start + 1) (by omega)).1
  rw [string, quoteWithin_eq, look_pure, pure_bind]
  dsimp only
  generalize closingQuote src (src.size + 1) (start + 1) = i at *
  split
  · rename_i hge
    split
    · rename_i hlt
      rw [unexpectedAt, src.skip_outside hlt]
      rfl
    · rename_i hnot
      rw [if_pos (by omega)]
  · rename_i hlt
    have hinside : (src.slice start (i + 1)).tail.dropLast = src.slice (start + 1) i := by
      have hrest : (src.rest (start + 1)).length = src.size - (start + 1) := src.length_rest _
      have hmin : min (min (i + 1 - start - 1) (src.size - (start + 1)) - 1) (i + 1 - start - 1) =
          i - (start + 1) := by omega
      rw [Source.slice_eq, Source.slice_eq, ← List.drop_one, List.drop_take, ← Source.rest_add,
        List.dropLast_eq_take, List.length_take, hrest, List.take_take, hmin]
    rw [if_neg (by omega), if_neg (by omega), Source.cut_eq (by omega) (by omega), look_pure,
      ← hinside]
    exact pure_bind _ _

/-! ### Expressions -/

theorem commaBefore_eq {i : Nat} (h : i ≤ src.size) : commaBefore src i =
    pure (((src.slice 0 i).reverse.dropWhile Blanks.all.contains).head? == some 0x2c) := by
  induction i with
  | zero => simp [commaBefore, Source.slice_eq]
  | succ i ih =>
    obtain ⟨b, hb⟩ := Source.byte?_of_lt h
    have hsnoc : (src.slice 0 (i + 1)).reverse = b :: (src.slice 0 i).reverse := by
      have hget : (src.rest 0)[i]? = some b := by rw [← Source.byte?_add, Nat.zero_add, hb]
      rw [Source.slice_eq, Source.slice_eq, Nat.sub_zero, Nat.sub_zero, List.take_add_one, hget,
        Option.toList_some, List.reverse_append, List.reverse_singleton, List.singleton_append]
    rw [commaBefore, Source.passBlanks_eq, pure_bind, hsnoc, List.dropWhile_cons]
    cases hblank : Blanks.all.contains b with
    | true =>
      have hlt : i < src.skipBlanks .all i := src.lt_skipWhile (by rw [hb]; exact hblank)
      rw [if_pos (by omega), if_pos rfl, ih (by omega)]
    | false =>
      have hstay : src.skipBlanks .all i = i := by
        rw [Source.byte?_eq] at hb
        obtain ⟨bs, hrest⟩ := List.head?_eq_some_iff.1 hb
        rw [Source.skipBlanks_eq, hrest, List.takeWhile_cons_of_neg (by simp [hblank]),
          List.length_nil, Nat.add_zero]
      rw [hstay, if_neg (by simp), Source.index_of_byte? hb, pure_bind]
      rfl

theorem closesAfterComma_eq {stop : Nat} (h : stop ≤ src.size) :
    closesAfterComma src stop = pure (trailingComma src stop) := commaBefore_eq (by omega)

variable {sub : SubReader}

/-- A primary expression is told by its first byte. -/
theorem primaryAt_inside {start : Nat} (h : start ≤ src.size) : primaryAt src sub start =
    match src.byte? start with
    | none => unexpectedAt src start "expression"
    | some b =>
      if isDigit b then number src start start
      else if (b == 0x2d || b == 0x2b) && (src.byte? (start + 1)).any isDigit then
        number src start (start + 1)
      else if b == 0x22 then string src start
      else match src.word? start with
        | some (w, stop) => wordExpr src sub start w stop
        | none => punctExpr src sub start := by
  rw [primaryAt]
  split
  · rename_i hend
    rw [Source.byte?_of_ge (Nat.le_of_eq hend.symm)]
  · rename_i hne
    obtain ⟨b, hb⟩ := Source.byte?_of_lt (Nat.lt_of_le_of_ne h hne)
    have hsign : (pure (b == 0x2d || b == 0x2b) <&&> src.holdsAt isDigit (start + 1)) =
        pure ((b == 0x2d || b == 0x2b) && (src.byte? (start + 1)).any isDigit) := by
      rw [Source.pure_andM, Source.holdsAt_eq]
      cases b == 0x2d || b == 0x2b <;> rfl
    rw [Source.index_of_byte? hb, look_pure, pure_bind, hsign, look_pure, pure_bind, hb,
      src.wordAt?_eq h, look_pure]
    exact ite_congr rfl (fun _ => rfl) fun _ => ite_congr rfl (fun _ => rfl) fun _ =>
      ite_congr rfl (fun _ => rfl) fun _ => pure_bind _ _

end Reading

end FunRiscv
