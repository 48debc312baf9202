import Mathlib
import FunRiscv.Text.Quoted

/-!
# Quoted text reads back

* `continued_three`, `of_continued_three`: what reading the bytes after the first one
  of a character gives.
* `scalar?_encode`, `take_of_scalar?`: a character and its bytes determine each other.
* `pieces_encode`, `flatMap_bytes_pieces`: so do a byte string and its pieces.
* `unescapeAfter_quotePiece`: what is written for a piece stands for its bytes.
* `unquote?_inside`: what stands between the quotes of a byte string stands for it.
* `Escaped`: bytes in which no quote stands alone; so are those between the quotes.
-/

namespace FunRiscv.Text

/-! ### Characters and bytes -/

theorem bytesOf_append (s t : String) : bytesOf (s ++ t) = bytesOf s ++ bytesOf t := by
  simp [bytesOf]

theorem bytesOf_ofList (cs : List Char) :
    bytesOf (String.ofList cs) = cs.flatMap String.utf8EncodeChar := by
  simp [bytesOf, List.utf8Encode]

theorem bytesOf_ofAscii {bs : List UInt8} (h : ∀ b ∈ bs, b < 128) : bytesOf (ofAscii bs) = bs := by
  have hone : ∀ b : UInt8, b < 128 → String.utf8EncodeChar (Char.ofNat b.toNat) = [b] := by
    decide +kernel
  rw [ofAscii, bytesOf_ofList]
  induction bs with
  | nil => rfl
  | cons b bs ih =>
    rw [List.map_cons, List.flatMap_cons, hone b (h b (by simp)), ih fun c hc => h c (by simp [hc])]
    rfl

theorem encode_eq (c : Char) : encode c = String.utf8EncodeChar c := by
  simp [encode, bytesOf, List.utf8Encode]

theorem charFrom?_toNat {least : Nat} {c : Char} (h : least ≤ c.toNat) :
    charFrom? least c.toNat = some c := by
  have hvalid : c.toNat.isValidChar := c.valid
  rw [charFrom?, dif_pos hvalid, if_pos h]
  rfl

theorem toNat_of_charFrom? {least code : Nat} {c : Char} (h : charFrom? least code = some c) :
    c.toNat = code ∧ least ≤ code := by
  rw [charFrom?] at h
  split at h
  · split at h
    · rename_i hvalid hle
      simp only [Option.some.injEq] at h
      subst h
      exact ⟨rfl, hle⟩
    · exact absurd h (by simp)
  · exact absurd h (by simp)

theorem toNat_ofNat_of_lt {k : Nat} (h : k < 256) : (UInt8.ofNat k).toNat = k := by
  rw [UInt8.toNat_ofNat', Nat.mod_eq_of_lt h]

/-- The classes of first bytes, by number. -/
theorem scalar?_cons (b : UInt8) (rest : List UInt8) : scalar? (b :: rest) =
    if b.toNat < 128 then (charFrom? 0 b.toNat).map (·, 1)
    else if 192 ≤ b.toNat && b.toNat < 224 then do
      let x ← rest[0]? >>= continuation?
      let c ← charFrom? 0x80 ((b.toNat - 0xc0) * 64 + x)
      return (c, 2)
    else if 224 ≤ b.toNat && b.toNat < 240 then do
      let x ← rest[0]? >>= continuation?
      let y ← rest[1]? >>= continuation?
      let c ← charFrom? 0x800 ((b.toNat - 0xe0) * 4096 + x * 64 + y)
      return (c, 3)
    else if 240 ≤ b.toNat && b.toNat < 248 then do
      let x ← rest[0]? >>= continuation?
      let y ← rest[1]? >>= continuation?
      let z ← rest[2]? >>= continuation?
      let c ← charFrom? 0x10000 ((b.toNat - 0xf0) * 262144 + x * 4096 + y * 64 + z)
      return (c, 4)
    else none := rfl

theorem continuation?_eq (b : UInt8) :
    continuation? b = if 128 ≤ b.toNat && b.toNat < 192 then some (b.toNat - 0x80) else none := rfl

theorem continuation?_ofNat {k : Nat} (h : k < 64) :
    continuation? (UInt8.ofNat (k + 128)) = some k := by
  rw [continuation?_eq, toNat_ofNat_of_lt (show k + 128 < 256 by omega),
    if_pos (by simp only [Bool.and_eq_true, decide_eq_true_eq]; omega), Nat.add_sub_cancel]

theorem toNat_of_continuation? {b : UInt8} {k : Nat} (h : continuation? b = some k) :
    b.toNat = k + 128 ∧ k < 64 := by
  rw [continuation?_eq] at h
  split at h
  · rename_i hb
    simp only [Bool.and_eq_true, decide_eq_true_eq] at hb
    simp only [Option.some.injEq] at h
    omega
  · exact absurd h (by simp)

theorem toNat_lt (c : Char) : c.toNat < 0x110000 := by
  have hvalid := c.valid
  simp only [UInt32.isValidChar, Nat.isValidChar] at hvalid
  show c.val.toNat < _
  omega

/-! ### Continuations -/

section Continued

variable {b₁ b₂ b₃ : UInt8} {x y z : Nat} {α : Type} {rest : List UInt8} {a : α}

theorem continued_one (hx : continuation? b₁ = some x) (f : Nat → Option α) :
    (do let x ← (b₁ :: rest)[0]? >>= continuation?; f x) = f x := by
  simp [hx]

theorem continued_two (hx : continuation? b₁ = some x) (hy : continuation? b₂ = some y)
    (f : Nat → Nat → Option α) : (do
      let x ← (b₁ :: b₂ :: rest)[0]? >>= continuation?
      let y ← (b₁ :: b₂ :: rest)[1]? >>= continuation?
      f x y) = f x y := by
  simp [hx, hy]

theorem continued_three (hx : continuation? b₁ = some x) (hy : continuation? b₂ = some y)
    (hz : continuation? b₃ = some z) (f : Nat → Nat → Nat → Option α) :
    (do
      let x ← (b₁ :: b₂ :: b₃ :: rest)[0]? >>= continuation?
      let y ← (b₁ :: b₂ :: b₃ :: rest)[1]? >>= continuation?
      let z ← (b₁ :: b₂ :: b₃ :: rest)[2]? >>= continuation?
      f x y z) = f x y z := by
  simp [hx, hy, hz]

theorem of_continued_one {f : Nat → Option α}
    (h : (do let x ← rest[0]? >>= continuation?; f x) = some a) :
    ∃ b₁ more x, rest = b₁ :: more ∧ continuation? b₁ = some x ∧ f x = some a := by
  simp only [Option.bind_eq_bind, Option.bind_eq_some_iff] at h
  obtain ⟨x, ⟨b₁, hb₁, hx⟩, ha⟩ := h
  match rest, hb₁ with
  | _ :: more, hb₁ => exact ⟨b₁, more, x, by simpa using hb₁, hx, ha⟩

theorem of_continued_two {f : Nat → Nat → Option α}
    (h : (do
      let x ← rest[0]? >>= continuation?
      let y ← rest[1]? >>= continuation?
      f x y) = some a) :
    ∃ b₁ b₂ more x y, rest = b₁ :: b₂ :: more ∧ continuation? b₁ = some x ∧
      continuation? b₂ = some y ∧ f x y = some a := by
  obtain ⟨b₁, more, x, rfl, hx, h⟩ := of_continued_one h
  have hsecond : (do let y ← more[0]? >>= continuation?; f x y) = some a := by simpa using h
  obtain ⟨b₂, more, y, rfl, hy, ha⟩ := of_continued_one hsecond
  exact ⟨b₁, b₂, more, x, y, rfl, hx, hy, ha⟩

theorem of_continued_three {f : Nat → Nat → Nat → Option α}
    (h : (do
      let x ← rest[0]? >>= continuation?
      let y ← rest[1]? >>= continuation?
      let z ← rest[2]? >>= continuation?
      f x y z) = some a) :
    ∃ b₁ b₂ b₃ more x y z, rest = b₁ :: b₂ :: b₃ :: more ∧ continuation? b₁ = some x ∧
      continuation? b₂ = some y ∧ continuation? b₃ = some z ∧ f x y z = some a := by
  obtain ⟨b₁, b₂, more, x, y, rfl, hx, hy, h⟩ := of_continued_two h
  have hthird : (do let z ← more[0]? >>= continuation?; f x y z) = some a := by simpa using h
  obtain ⟨b₃, more, z, rfl, hz, ha⟩ := of_continued_one hthird
  exact ⟨b₁, b₂, b₃, more, x, y, z, rfl, hx, hy, hz, ha⟩

end Continued

/-! ### Encodings -/

/-- The bytes of a character, by its number. -/
theorem encodeChar_eq {c : Char} {v : Nat} (hv : c.toNat = v) : String.utf8EncodeChar c =
    if v ≤ 0x7f then [UInt8.ofNat v]
    else if v ≤ 0x7ff then [UInt8.ofNat (v / 64 % 32 + 192), UInt8.ofNat (v % 64 + 128)]
    else if v ≤ 0xffff then
      [UInt8.ofNat (v / 4096 % 16 + 224), UInt8.ofNat (v / 64 % 64 + 128),
        UInt8.ofNat (v % 64 + 128)]
    else
      [UInt8.ofNat (v / 262144 % 8 + 240), UInt8.ofNat (v / 4096 % 64 + 128),
        UInt8.ofNat (v / 64 % 64 + 128), UInt8.ofNat (v % 64 + 128)] := by
  subst hv
  rfl

/-- The bytes of a character read as that character. -/
theorem scalar?_encode (c : Char) (rest : List UInt8) :
    scalar? (String.utf8EncodeChar c ++ rest) = some (c, (String.utf8EncodeChar c).length) := by
  have hc := toNat_lt c
  obtain ⟨v, hv⟩ : ∃ v, c.toNat = v := ⟨_, rfl⟩
  have hchar : ∀ least code, code = v → least ≤ v → charFrom? least code = some c := by
    rintro least _ rfl h
    exact hv ▸ charFrom?_toNat (hv ▸ h)
  have hlast : continuation? (UInt8.ofNat (v % 64 + 128)) = some (v % 64) :=
    continuation?_ofNat (by omega)
  have hlow : continuation? (UInt8.ofNat (v / 64 % 64 + 128)) = some (v / 64 % 64) :=
    continuation?_ofNat (by omega)
  have hhigh : continuation? (UInt8.ofNat (v / 4096 % 64 + 128)) = some (v / 4096 % 64) :=
    continuation?_ofNat (by omega)
  have hfirst : ∀ k, k < 256 →
    ∀ low high, (low ≤ (UInt8.ofNat k).toNat && (UInt8.ofNat k).toNat < high) = true ↔
      low ≤ k ∧ k < high := by
    intro k hk low high
    rw [toNat_ofNat_of_lt hk, Bool.and_eq_true, decide_eq_true_eq, decide_eq_true_eq]
  rw [encodeChar_eq hv]
  split
  · rw [List.cons_append, scalar?_cons, toNat_ofNat_of_lt (by omega), if_pos (by omega),
      hchar 0 v rfl (by omega)]
    rfl
  · split
    · have hb := toNat_ofNat_of_lt (show v / 64 % 32 + 192 < 256 by omega)
      rw [List.cons_append, List.cons_append, scalar?_cons, if_neg (by omega),
        if_pos ((hfirst _ (by omega) _ _).2 (by omega)), continued_one hlast,
        hchar _ _ (by omega) (by omega)]
      rfl
    · split
      · have hb := toNat_ofNat_of_lt (show v / 4096 % 16 + 224 < 256 by omega)
        rw [List.cons_append, List.cons_append, List.cons_append, scalar?_cons, if_neg (by omega),
          if_neg (by rw [hfirst _ (by omega)]; omega),
          if_pos ((hfirst _ (by omega) _ _).2 (by omega)), continued_two hlow hlast,
          hchar _ _ (by omega) (by omega)]
        rfl
      · have hb := toNat_ofNat_of_lt (show v / 262144 % 8 + 240 < 256 by omega)
        rw [List.cons_append, List.cons_append, List.cons_append, List.cons_append, scalar?_cons,
          if_neg (by omega), if_neg (by rw [hfirst _ (by omega)]; omega),
          if_neg (by rw [hfirst _ (by omega)]; omega),
          if_pos ((hfirst _ (by omega) _ _).2 (by omega)), continued_three hhigh hlow hlast,
          hchar _ _ (by omega) (by omega)]
        rfl

theorem of_char_map {o : Option Char} {c : Char} {k n : Nat}
    (h : (do let c ← o; return (c, k)) = some (c, n)) : o = some c ∧ n = k := by
  cases o with
  | none => cases h
  | some d =>
    cases h
    exact ⟨rfl, rfl⟩

/-- A character stands for the bytes that it was read from. -/
theorem take_of_scalar? {bs : List UInt8} {c : Char} {n : Nat} (h : scalar? bs = some (c, n)) :
    0 < n ∧ String.utf8EncodeChar c = bs.take n := by
  have hbyte : ∀ (b : UInt8) (k : Nat), k = b.toNat → UInt8.ofNat k = b := by
    rintro b k rfl
    exact UInt8.ofNat_toNat
  cases bs with
  | nil => simp [scalar?] at h
  | cons b rest =>
    have hb := b.toNat_lt
    rw [scalar?_cons] at h
    split at h
    · simp only [Option.map_eq_some_iff, Prod.mk.injEq] at h
      obtain ⟨c', hc', rfl, rfl⟩ := h
      rw [encodeChar_eq (toNat_of_charFrom? hc').1, if_pos (by omega), hbyte b _ rfl]
      simp
    · split at h
      · rename_i h1 h2
        simp only [Bool.and_eq_true, decide_eq_true_eq] at h2
        obtain ⟨b₁, more, x, rfl, hx, h⟩ := of_continued_one h
        obtain ⟨hc, rfl⟩ := of_char_map h
        have hxn := toNat_of_continuation? hx
        obtain ⟨hv, hleast⟩ := toNat_of_charFrom? hc
        rw [encodeChar_eq hv, if_neg (by omega), if_pos (by omega), hbyte b _ (by omega),
          hbyte b₁ _ (by omega)]
        exact ⟨by decide, rfl⟩
      · split at h
        · rename_i h1 h2 h3
          simp only [Bool.and_eq_true, decide_eq_true_eq] at h3
          obtain ⟨b₁, b₂, more, x, y, rfl, hx, hy, h⟩ := of_continued_two h
          obtain ⟨hc, rfl⟩ := of_char_map h
          have hxn := toNat_of_continuation? hx
          have hyn := toNat_of_continuation? hy
          obtain ⟨hv, hleast⟩ := toNat_of_charFrom? hc
          rw [encodeChar_eq hv, if_neg (by omega), if_neg (by omega), if_pos (by omega),
            hbyte b _ (by omega), hbyte b₁ _ (by omega), hbyte b₂ _ (by omega)]
          exact ⟨by decide, rfl⟩
        · split at h
          · rename_i h1 h2 h3 h4
            simp only [Bool.and_eq_true, decide_eq_true_eq] at h4
            obtain ⟨b₁, b₂, b₃, more, x, y, z, rfl, hx, hy, hz, h⟩ := of_continued_three h
            obtain ⟨hc, rfl⟩ := of_char_map h
            have hxn := toNat_of_continuation? hx
            have hyn := toNat_of_continuation? hy
            have hzn := toNat_of_continuation? hz
            obtain ⟨hv, hleast⟩ := toNat_of_charFrom? hc
            rw [encodeChar_eq hv, if_neg (by omega), if_neg (by omega), if_neg (by omega),
              hbyte b _ (by omega), hbyte b₁ _ (by omega), hbyte b₂ _ (by omega),
              hbyte b₃ _ (by omega)]
            exact ⟨by decide, rfl⟩
          · exact absurd h (by simp)

/-! ### Pieces -/

/-- The bytes of a piece. -/
def Piece.bytes : Piece → List UInt8
  | .scalar c => String.utf8EncodeChar c
  | .stray b => [b]

theorem piecesAfter_append (l rest : List UInt8) :
    piecesAfter l.length (l ++ rest) = piecesAfter 0 rest := by
  induction l with
  | nil => rfl
  | cons b l ih => exact ih

theorem pieces_encode (cs : List Char) :
    pieces (cs.flatMap String.utf8EncodeChar) = cs.map Piece.scalar := by
  induction cs with
  | nil => rfl
  | cons c cs ih =>
    obtain ⟨b, bs, hb⟩ :=
      List.exists_cons_of_ne_nil (String.utf8EncodeChar_ne_nil : String.utf8EncodeChar c ≠ [])
    have hscalar := scalar?_encode c (cs.flatMap String.utf8EncodeChar)
    rw [List.flatMap_cons, pieces]
    rw [hb] at hscalar ⊢
    rw [List.cons_append] at hscalar ⊢
    simp only [piecesAfter, hscalar, List.length_cons, Nat.add_sub_cancel, piecesAfter_append]
    exact congrArg (Piece.scalar c :: ·) ih

theorem flatMap_bytes_piecesAfter (bs : List UInt8) :
    ∀ skip, (piecesAfter skip bs).flatMap Piece.bytes = bs.drop skip := by
  induction bs with
  | nil => intro skip; cases skip <;> simp [piecesAfter]
  | cons b rest ih =>
    intro skip
    cases skip with
    | succ skip => rw [piecesAfter, ih, List.drop_succ_cons]
    | zero =>
      rw [piecesAfter]
      cases hs : scalar? (b :: rest) with
      | none => simp [Piece.bytes, ih]
      | some r =>
        obtain ⟨c, n⟩ := r
        obtain ⟨hpos, htake⟩ := take_of_scalar? hs
        obtain ⟨n, rfl⟩ : ∃ m, n = m + 1 := ⟨n - 1, by omega⟩
        simp [Piece.bytes, ih, htake]

/-- A byte string is made of its pieces. -/
theorem flatMap_bytes_pieces (bs : List UInt8) : (pieces bs).flatMap Piece.bytes = bs :=
  flatMap_bytes_piecesAfter bs 0

/-! ### Escapes -/

theorem hexValue?_hexDigit {d : Nat} (h : d < 16) : hexValue? (hexDigit d) = some d := by
  have hall : ∀ d : Fin 16, hexValue? (hexDigit d) = some d.val := by decide
  exact hall ⟨d, h⟩

theorem length_hex (width n : Nat) : (hex width n).length = width := by
  induction width generalizing n with
  | zero => rfl
  | succ width ih => simp [hex, ih]

theorem fromDigits_append (base d : Nat) (ds : List Nat) :
    fromDigits base (ds ++ [d]) = fromDigits base ds * base + d := by
  simp [fromDigits]

theorem mapM_hexValue?_hex (width n : Nat) :
    ∃ ds, ((hex width n).map Piece.scalar).mapM Piece.hexValue? = some ds ∧
      fromDigits 16 ds = n % 16 ^ width := by
  induction width generalizing n with
  | zero => exact ⟨[], rfl, by simp [fromDigits, Nat.mod_one]⟩
  | succ width ih =>
    obtain ⟨ds, hds, hvalue⟩ := ih (n / 16)
    refine ⟨ds ++ [n % 16], ?_, ?_⟩
    · have hlast : Piece.hexValue? (.scalar (hexDigit (n % 16))) = some (n % 16) :=
        hexValue?_hexDigit (by omega)
      rw [hex, List.map_append, List.mapM_append, hds]
      simp [hlast]
    · rw [fromDigits_append, hvalue, pow_succ', Nat.mod_mul]
      omega

/-- What an escape in hexadecimal stands for. -/
theorem escape?_hex {letter : Char} {width : Nat} {code : Nat → Option (List UInt8)}
    (h : (letter, width, code) ∈ [('x', 2, encodeByte?), ('u', 4, encodeCode?),
      ('U', 8, encodeCode?)]) (n : Nat)
    (rest : List Piece) :
    escape? letter ((hex width n).map .scalar ++ rest) = (code (n % 16 ^ width)).map
      (·, width) := by
  obtain ⟨ds, hds, hvalue⟩ := mapM_hexValue?_hex width n
  have hlen : ((hex width n).map Piece.scalar).length = width := by simp [length_hex]
  have htake : ((hex width n).map Piece.scalar ++ rest).take width =
    (hex width n).map Piece.scalar := by
    rw [List.take_append_of_le_length (by omega), List.take_of_length_le (by omega)]
  have hle : width ≤ ((hex width n).map Piece.scalar ++ rest).length := by simp [length_hex]
  simp only [List.mem_cons, Prod.mk.injEq, List.not_mem_nil, or_false] at h
  have hbind : ∀ o : Option (List UInt8),
    (o >>= fun bs => pure (bs, width)) = o.map (·, width) := by
    intro o
    cases o <;> rfl
  have hcontrol : controlOf? letter = none := by
    obtain ⟨rfl, -⟩ | ⟨rfl, -⟩ | ⟨rfl, -⟩ := h <;> rfl
  simp only [escape?, hcontrol]
  obtain ⟨rfl, rfl, rfl⟩ | ⟨rfl, rfl, rfl⟩ | ⟨rfl, rfl, rfl⟩ := h
  · rw [if_pos rfl, if_pos hle, htake, hds]
    exact hvalue ▸ hbind _
  · rw [if_neg (by decide), if_pos rfl, if_pos hle, htake, hds]
    exact hvalue ▸ hbind _
  · rw [if_neg (by decide), if_neg (by decide), if_pos rfl, if_pos hle, htake, hds]
    exact hvalue ▸ hbind _

theorem unescapeAfter_length (l rest : List Piece) :
    unescapeAfter l.length (l ++ rest) = unescapeAfter 0 rest := by
  induction l with
  | nil => rfl
  | cons p l ih => exact ih

/-- A backslash and what it escapes stand for some bytes. -/
theorem unescapeAfter_escape {l : Char} {after rest : List Piece} {bytes : List UInt8}
    (h : escape? l (after ++ rest) = some (bytes, after.length)) :
    unescapeAfter 0 (.scalar '\\' :: .scalar l :: (after ++ rest)) =
      (unescapeAfter 0 rest).map (bytes ++ ·) := by
  simp only [unescapeAfter, h, unescapeAfter_length]
  rfl

theorem unescapeAfter_hex {letter : Char} {width n : Nat} {code : Nat → Option (List UInt8)}
    {bytes : List UInt8} (h : (letter, width, code) ∈ [('x', 2, encodeByte?), ('u', 4, encodeCode?),
      ('U', 8, encodeCode?)])
    (hn : n < 16 ^ width) (hcode : code n = some bytes) (rest : List Piece) :
    unescapeAfter 0 (('\\' :: letter :: hex width n).map .scalar ++ rest) =
      (unescapeAfter 0 rest).map (bytes ++ ·) := by
  have hescape := escape?_hex h n rest
  rw [Nat.mod_eq_of_lt hn, hcode, Option.map_some] at hescape
  refine unescapeAfter_escape ?_
  rw [hescape, List.length_map, length_hex]

theorem controlOf?_of_controlLetter? {c l : Char} (h : controlLetter? c.toNat = some l) :
    ∃ b, controlOf? l = some b ∧ String.utf8EncodeChar c = [b] := by
  have hall : ∀ k : Fin 14, ∀ l, controlLetter? k = some l → ∃ b, controlOf? l = some b ∧
      String.utf8EncodeChar (Char.ofNat k) = [b] := by
    intro k l h
    fin_cases k <;> simp only [controlLetter?, reduceCtorEq, Option.some.injEq] at h <;> subst h <;>
      exact ⟨_, rfl, rfl⟩
  have hk : c.toNat < 14 := by
    by_contra hge
    unfold controlLetter? at h
    split at h <;> first | omega | exact absurd h (by simp)
  have hchar := hall ⟨c.toNat, hk⟩ l h
  rwa [Char.ofNat_toNat] at hchar

theorem le_of_isPrintable {c : Char} (h : isPrintable c = true) : 0x20 ≤ c.toNat := by
  have hfrom : printableRanges.toList.all (fun r => decide (0x20 ≤ r.1)) = true := by decide +kernel
  rw [isPrintable, ← Array.any_toList, List.any_eq_true] at h
  obtain ⟨r, hr, hin⟩ := h
  have hlow := List.all_eq_true.1 hfrom r hr
  simp only [Bool.and_eq_true, decide_eq_true_eq] at hlow hin
  exact Nat.le_trans hlow hin.1

theorem unescapeAfter_quoteChar (c : Char) (rest : List Piece) :
    unescapeAfter 0 ((quoteChar c).map .scalar ++ rest) =
      (unescapeAfter 0 rest).map (String.utf8EncodeChar c ++ ·) := by
  have hcode : encodeCode? c.toNat = some (String.utf8EncodeChar c) := by
    rw [encodeCode?, charFrom?_toNat (by omega), Option.map_some, encode_eq]
  have hc : c.toNat < 0x110000 := toNat_lt c
  rw [quoteChar]
  split
  · rename_i hquote
    have hescape : escape? c ([] ++ rest) = some (String.utf8EncodeChar c,
      ([] : List Piece).length) := by
      have hchar : c = '"' ∨ c = '\\' := by
        simp only [Bool.or_eq_true, decide_eq_true_eq] at hquote
        rcases hquote with h | h
        · exact .inl (Char.toNat_inj.1 h)
        · exact .inr (Char.toNat_inj.1 h)
      rcases hchar with rfl | rfl <;> simp [escape?, controlOf?, encode_eq]
    exact unescapeAfter_escape hescape
  · rename_i hquote
    simp only [Bool.or_eq_true, decide_eq_true_eq, not_or] at hquote
    split
    · rename_i hprint
      have hnewline : c.toNat ≠ 0x0a := by
        have := le_of_isPrintable hprint
        omega
      simp [unescapeAfter, hquote, hnewline, encode_eq]
    · split
      · rename_i l hletter
        obtain ⟨b, hb, hbytes⟩ := controlOf?_of_controlLetter? hletter
        have hescape : escape? l ([] ++ rest) = some (String.utf8EncodeChar c,
          ([] : List Piece).length) := by
          simp [escape?, hb, hbytes]
        exact unescapeAfter_escape hescape
      · split
        · rename_i hlow
          simp only [Bool.or_eq_true, decide_eq_true_eq] at hlow
          refine unescapeAfter_hex (show ('x', 2, encodeByte?) ∈ _ by simp) (by omega) ?_ rest
          rw [encodeByte?, if_pos (by omega), encodeChar_eq rfl, if_pos (by omega)]
        · split
          · exact unescapeAfter_hex (by simp) (by omega) hcode rest
          · exact unescapeAfter_hex (by simp) (by omega) hcode rest

/-- What is written for a piece stands for its bytes. -/
theorem unescapeAfter_quotePiece (p : Piece) (rest : List Piece) :
    unescapeAfter 0 ((quotePiece p).map .scalar ++ rest) =
      (unescapeAfter 0 rest).map (p.bytes ++ ·) := by
  cases p with
  | scalar c => exact unescapeAfter_quoteChar c rest
  | stray b =>
    have hb := b.toNat_lt
    refine unescapeAfter_hex (show ('x', 2, encodeByte?) ∈ _ by simp) (by omega) ?_ rest
    rw [encodeByte?, if_pos (by omega)]
    exact congrArg (some [·]) UInt8.ofNat_toNat

/-- The bytes between the quotes of a byte string. -/
def inside (bs : List UInt8) : List UInt8 :=
  ((pieces bs).flatMap quotePiece).flatMap String.utf8EncodeChar

theorem bytesOf_quote (bs : List UInt8) : bytesOf (quote bs) = 0x22 :: (inside bs ++ [0x22]) := by
  rw [quote, bytesOf_append, bytesOf_append, bytesOf_ofList, bytesOf_ofList, inside]
  rfl

/-- What stands between the quotes of a byte string stands for it. -/
theorem unquote?_inside (bs : List UInt8) : unquote? (inside bs) = some bs := by
  have hpieces : ∀ ps : List Piece, unescapeAfter 0 ((ps.flatMap quotePiece).map .scalar) =
    some (ps.flatMap Piece.bytes) := by
    intro ps
    induction ps with
    | nil => rfl
    | cons p ps ih =>
      rw [List.flatMap_cons, List.map_append, unescapeAfter_quotePiece, ih]
      rfl
  rw [unquote?, inside, pieces_encode, hpieces, flatMap_bytes_pieces]

/-! ### Where the quotes end -/

/-- Bytes in which a quote stands only after a backslash, and no backslash stands at the end. -/
inductive Escaped : List UInt8 → Prop
  | nil : Escaped []
  | byte {b : UInt8} {bs : List UInt8} (hquote : b ≠ 0x22) (hslash : b ≠ 0x5c) (h : Escaped bs) :
    Escaped (b :: bs)
  | pair {b : UInt8} {bs : List UInt8} (h : Escaped bs) : Escaped (0x5c :: b :: bs)

theorem Escaped.append {bs cs : List UInt8} (h : Escaped bs) (h' : Escaped cs) :
    Escaped (bs ++ cs) := by
  induction h with
  | nil => exact h'
  | byte hquote hslash _ ih => exact .byte hquote hslash ih
  | pair _ ih => exact .pair ih

theorem escaped_of_forall {bs : List UInt8} (h : ∀ b ∈ bs, b ≠ 0x22 ∧ b ≠ 0x5c) : Escaped bs := by
  induction bs with
  | nil => exact .nil
  | cons b bs ih =>
    exact .byte (h b (by simp)).1 (h b (by simp)).2 (ih fun c hc => h c (by simp [hc]))

/-- A character other than the quote and the backslash has neither of them among its bytes. -/
theorem escaped_encode {c : Char} (hquote : c.toNat ≠ 0x22) (hslash : c.toNat ≠ 0x5c) :
    Escaped (String.utf8EncodeChar c) := by
  have hc := toNat_lt c
  have hbyte : ∀ k, k < 256 → k ≠ 0x22 → k ≠ 0x5c → UInt8.ofNat k ≠ 0x22 ∧
    UInt8.ofNat k ≠ 0x5c := by
    intro k hk h1 h2
    refine ⟨fun h => h1 ?_, fun h => h2 ?_⟩
    · simpa [toNat_ofNat_of_lt hk] using congrArg UInt8.toNat h
    · simpa [toNat_ofNat_of_lt hk] using congrArg UInt8.toNat h
  have hhigh : ∀ k, 128 ≤ k → k < 256 → UInt8.ofNat k ≠ 0x22 ∧ UInt8.ofNat k ≠ 0x5c :=
    fun k h1 h2 => hbyte k h2 (by omega) (by omega)
  apply escaped_of_forall
  rw [encodeChar_eq rfl]
  split
  · simp only [List.forall_mem_cons]
    exact ⟨hbyte _ (by omega) hquote hslash, List.forall_mem_nil _⟩
  · split
    · simp only [List.forall_mem_cons]
      exact ⟨hhigh _ (by omega) (by omega), hhigh _ (by omega) (by omega), List.forall_mem_nil _⟩
    · split
      · simp only [List.forall_mem_cons]
        exact ⟨hhigh _ (by omega) (by omega), hhigh _ (by omega) (by omega),
          hhigh _ (by omega) (by omega), List.forall_mem_nil _⟩
      · simp only [List.forall_mem_cons]
        exact ⟨hhigh _ (by omega) (by omega), hhigh _ (by omega) (by omega),
          hhigh _ (by omega) (by omega), hhigh _ (by omega) (by omega), List.forall_mem_nil _⟩

theorem escaped_hex (width n : Nat) : Escaped ((hex width n).flatMap String.utf8EncodeChar) := by
  have hall : ∀ d : Fin 16, (hexDigit d).toNat ≠ 0x22 ∧ (hexDigit d).toNat ≠ 0x5c := by decide
  induction width generalizing n with
  | zero => exact .nil
  | succ width ih =>
    have hlast := hall ⟨n % 16, by omega⟩
    rw [hex, List.flatMap_append, List.flatMap_cons, List.flatMap_nil, List.append_nil]
    exact (ih _).append (escaped_encode hlast.1 hlast.2)

theorem escaped_quotePiece (p : Piece) :
    Escaped ((quotePiece p).flatMap String.utf8EncodeChar) := by
  cases p with
  | stray b => exact .pair (escaped_hex 2 _)
  | scalar c =>
    show Escaped ((quoteChar c).flatMap String.utf8EncodeChar)
    rw [quoteChar]
    split
    · rename_i hquote
      simp only [Bool.or_eq_true, decide_eq_true_eq] at hquote
      rcases hquote with h | h
      · rw [show c = '"' from Char.toNat_inj.1 h]
        exact .pair .nil
      · rw [show c = '\\' from Char.toNat_inj.1 h]
        exact .pair .nil
    · rename_i hquote
      simp only [Bool.or_eq_true, decide_eq_true_eq, not_or] at hquote
      split
      · simpa using escaped_encode hquote.1 hquote.2
      · split
        · rename_i l hletter
          have hone : ∃ b, String.utf8EncodeChar l = [b] := by
            unfold controlLetter? at hletter
            split at hletter <;>
              first | (cases hletter; exact ⟨_, rfl⟩) | exact absurd hletter (by simp)
          obtain ⟨b, hb⟩ := hone
          rw [List.flatMap_cons, List.flatMap_cons, hb]
          exact .pair .nil
        · split
          · exact .pair (escaped_hex _ _)
          · split
            · exact .pair (escaped_hex _ _)
            · exact .pair (escaped_hex _ _)

/-- No quote stands alone between the quotes of a byte string. -/
theorem escaped_inside (bs : List UInt8) : Escaped (inside bs) := by
  have hpieces : ∀ ps : List Piece,
    Escaped ((ps.flatMap quotePiece).flatMap String.utf8EncodeChar) := by
    intro ps
    induction ps with
    | nil => exact .nil
    | cons p ps ih =>
      rw [List.flatMap_cons, List.flatMap_append]
      exact (escaped_quotePiece p).append ih
  exact hpieces _

end FunRiscv.Text
