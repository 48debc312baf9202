import Mathlib
import FunRiscv.Proofs.Surface.Literals
import FunRiscv.Proofs.Surface.Written

/-!
# Reading literals and patterns back

* `Apart`: bytes that carry no token on.
* `FloatsReadBack`: the doubles in a list read back.
* `Expr.reads_literal`: what is written for a literal reads as that literal.
* `Pattern.readsBack`: what is written for a pattern reads as that pattern, exactly if no part of it
  has a shape that does not read back.
-/

namespace FunRiscv

open Reading

/-! ### What stands after a token -/

/-- The bytes carry neither a word nor a star on. -/
def Apart (tail : List UInt8) : Prop := wordRun tail = [] ∧ tail.head? ≠ some 0x2a

theorem nextPunct_of_solid {tail : List UInt8} (h : solid tail = true) :
    nextPunct tail = punctAt tail := by
  rw [nextPunct, skipped_of_solid h]

theorem apart_of_stops {ts : List Punct} {tail : List UInt8} (h : stops ts tail = true)
    (hstar : .star ∈ ts) (hstars : .starStar ∈ ts) : Apart tail := by
  refine ⟨wordRun_of_stops h, fun hhead => ?_⟩
  have hall : ∀ b : UInt8, punctAt [0x2a, b] = some .star ∨ punctAt [0x2a, b] = some .starStar := by
    decide +kernel
  have hstar' := nextPunct_ne_of_stops h hstar
  have hstars' := nextPunct_ne_of_stops h hstars
  match tail, hhead with
  | [_], rfl => exact hstar' rfl
  | _ :: b :: rest, rfl =>
    rw [nextPunct_of_solid rfl, punctAt_take] at hstar' hstars'
    exact (hall b).elim hstar' hstars'

theorem pointDigit_of_stops {ts : List Punct} {tail : List UInt8} (h : stops ts tail = true)
    (hdot : .dot ∈ ts) : pointDigit tail = false := by
  have hnext := nextPunct_ne_of_stops h hdot
  match tail with
  | [] => rfl
  | b :: rest =>
    by_cases hb : b = 0x2e
    · subst hb
      exact absurd rfl hnext
    · simp [pointDigit, hb]

/-! ### Literals -/

/-- The doubles read back, those that are numbers. -/
def FloatsReadBack (vs : List Float) : Prop := ∀ v ∈ vs, v.isFinite = true → Number.ReadsBack v

theorem floatsReadBack_append {vs ws : List Float} :
    FloatsReadBack (vs ++ ws) ↔ FloatsReadBack vs ∧ FloatsReadBack ws := List.forall_mem_append

theorem floatsReadBack_flatMap {α : Type} {f : α → List Float} {xs : List α}
    (h : FloatsReadBack (xs.flatMap f)) : ∀ x ∈ xs, FloatsReadBack (f x) :=
  fun x hx v hv => h v (List.mem_flatMap.2 ⟨x, hx, hv⟩)

/-- Unsigned and signed literals, which a point and digits carry on. -/
def Expr.isNumber : Expr → Bool
  | .uint .. | .int .. => true
  | _ => false

section

variable {src : Source} {sub : SubReader} {bs bl mid tail : List UInt8} {good : Prop}

/-- An expression that starts with a word. -/
theorem reads_primary_word {w : String} {P : Expr → Prop} (h : NextWord w bs mid)
    (hrest : ∀ s stop, src.At stop mid → Reads src (wordExpr src sub s w stop) bs tail good P) :
    Reads src (primary src sub) bs tail good P := by
  have hall : ∀ b : UInt8, isLetter b = true → isDigit b = false ∧
    (b == 0x2d || b == 0x2b) = false ∧ (b == 0x22) = false := by
    decide +kernel
  obtain ⟨b, rest, hs, hb⟩ := h.exists_letter
  obtain ⟨hdigit, hsign, hquote⟩ := hall b hb
  refine (reads_tokenStart h.1).bind fun s hat => ?_
  obtain ⟨stop, hword, hstop⟩ := hat.word?_eq_some h
  have hbyte : src.byte? s = some b := by
    rw [hat.byte?, hs]
    rfl
  rw [primaryAt_inside hat.2]
  simp only [hbyte, hdigit, hsign, hquote, Bool.false_eq_true, if_false, Bool.false_and, hword]
  exact hrest s stop hstop

/-- An expression that starts with punctuation. -/
theorem reads_primary_punct {b : UInt8} {rest : List UInt8} {P : Expr → Prop}
    (hb : b ∈ [0x2a, 0x28, 0x5b]) (hbl : AllBlank bl)
    (h : ∀ s, Reads src (punctExpr src sub s) (bl ++ b :: rest) tail good P) :
    Reads src (primary src sub) (bl ++ b :: rest) tail good P := by
  have hall : ∀ b : UInt8, b ∈ [0x2a, 0x28, 0x5b] → isStart b = true ∧ isDigit b = false ∧
      (b == 0x2d || b == 0x2b) = false ∧ (b == 0x22) = false ∧ isLetter b = false := by
    decide +kernel
  obtain ⟨hstart, hdigit, hsign, hquote, hletter⟩ := hall b hb
  have hstarts : Starts (b :: rest) := by simpa [Starts] using hstart
  refine (reads_tokenStart (hstarts.solid_skipped hbl)).bind fun s hat => ?_
  rw [hstarts.skipped hbl] at hat
  have hbyte : src.byte? s = some b := hat.byte?
  have hword : src.word? s = none := by
    rw [hat.word?]
    simp [hletter]
  rw [primaryAt_inside hat.2]
  simp only [hbyte, hdigit, hsign, hquote, Bool.false_eq_true, if_false, Bool.false_and, hword]
  exact h s

theorem isWord_bool (v : Bool) : IsWord (if v then "true" else "false") := by
  cases v
  · exact isWord_keyword (by decide)
  · exact isWord_keyword (by decide)

theorem reads_bool {v : Bool} (hbl : AllBlank bl) (htail : wordRun tail = []) :
    Reads src (primary src sub) (bl ++ (Text.bytesOf (if v then "true" else "false") ++ tail))
      tail good fun a => ∃ l, a = .bool l v := by
  refine reads_primary_word ((isWord_bool v).nextWord hbl htail) fun s stop hstop =>
    (reads_set hstop).bind fun _ _ => ?_
  cases v
  · exact Reads.pure ⟨_, rfl⟩
  · exact Reads.pure ⟨_, rfl⟩

theorem next_star (h : tail.head? ≠ some 0x2a) : Next .star (0x2a :: tail) tail := by
  have hall : ∀ b : UInt8, b ≠ 0x2a → punctAt [0x2a, b] = some .star := by decide +kernel
  refine ⟨rfl, ?_, rfl⟩
  match tail with
  | [] => rfl
  | b :: rest =>
    show punctAt (0x2a :: b :: rest) = _
    rw [punctAt_take]
    exact hall b (by simpa using h)

theorem reads_eraser (hbl : AllBlank bl) (htail : tail.head? ≠ some 0x2a) :
    Reads src (primary src sub) (bl ++ ([0x2a] ++ tail)) tail good fun a => ∃ l, a = .eraser l := by
  refine reads_primary_punct (by simp) hbl fun s => ?_
  refine Reads.punct_then ((next_star htail).append hbl) ?_
  exact (reads_locationFrom s).bind fun l _ => Reads.pure ⟨l, rfl⟩

/-- The decimal text of a signed number is a sign before digits. -/
theorem signed_digits (v : Int) : ∃ b ds n, (b = 0x2b ∨ b = 0x2d) ∧
    Text.bytesOf ((if 0 ≤ v then "+" else "") ++ toString v) = b :: ds ∧ DigitRun ds ∧
    digitsValue? 10 ds = some n ∧ v = if b = 0x2d then -(n : Int) else n := by
  cases v with
  | ofNat n =>
    obtain ⟨hrun, hvalue⟩ := decimal_digits n
    refine ⟨0x2b, Text.bytesOf (toString n), n, .inl rfl, ?_, hrun, hvalue, by simp⟩
    rw [if_pos (by simp), Text.bytesOf_append]
    rfl
  | negSucc n =>
    obtain ⟨hrun, hvalue⟩ := decimal_digits (n + 1)
    refine ⟨0x2d, Text.bytesOf (toString (n + 1)), n + 1, .inr rfl, ?_, hrun, hvalue, ?_⟩
    · rw [if_neg (by omega)]
      have htext : toString (Int.negSucc n) = "-" ++ toString (n + 1) := rfl
      rw [htext, Text.bytesOf_append, Text.bytesOf_append]
      rfl
    · rw [if_pos rfl]
      omega

/-- A literal is written as a word only if it is a truth value, and starts with no bracket. -/
theorem Expr.literal_start {e : Expr} (hliteral : e.isLiteral = true) (h : e.Legible)
    (hfloats : FloatsReadBack e.floats) :
    (∃ b rest, e.print = b :: rest ∧ isStart b = true ∧ isLetter b = false ∧ b ≠ 0x28) ∨
      ∃ l v, e = .bool l v := by
  have hdigits : ∀ {ds : List UInt8}, DigitRun ds → ∃ b rest, ds = b :: rest ∧ isStart b = true ∧
    isLetter b = false ∧ b ≠ 0x28 := by
    intro ds hds
    obtain ⟨b, rest, rfl⟩ := List.exists_cons_of_ne_nil hds.1
    have hall : ∀ b : UInt8, isDigit b = true → isStart b = true ∧ isLetter b = false ∧
      b ≠ 0x28 := by decide +kernel
    exact ⟨b, rest, rfl, hall b (hds.2 b (by simp))⟩
  cases e with
  | uint l v => exact .inl (hdigits (decimal_digits v.toNat).1)
  | int l v =>
    obtain ⟨b, ds, n, hb, htext, -⟩ := signed_digits v.toInt
    refine .inl ⟨b, ds, htext, ?_⟩
    rcases hb with rfl | rfl <;> decide
  | float l v =>
    obtain ⟨negative, whole, places, htext, hwhole, -⟩ :=
      Number.eq_of_read? (hfloats v (by simp [Expr.floats]) h)
    have hprint : (Expr.float l v).print = Text.bytesOf (Number.text v) := rfl
    rw [hprint, htext]
    cases negative with
    | true => exact .inl ⟨0x2d, _, rfl, by decide⟩
    | false =>
      obtain ⟨b, rest, rfl, hb⟩ := hdigits hwhole
      exact .inl ⟨b, _, rfl, hb⟩
  | str l v => exact .inl ⟨0x22, _, Text.bytesOf_quote v, by decide⟩
  | bool l v => exact .inr ⟨l, v, rfl⟩
  | eraser l => exact .inl ⟨0x2a, [], rfl, by decide⟩
  | _ => exact absurd hliteral (by simp [Expr.isLiteral])

theorem Expr.starts_literal {e : Expr} (hliteral : e.isLiteral = true) (h : e.Legible)
    (hfloats : FloatsReadBack e.floats) : Starts e.print := by
  obtain ⟨b, rest, htext, hb, -⟩ | ⟨l, v, rfl⟩ := Expr.literal_start hliteral h hfloats
  · rw [htext]
    simpa [Starts] using hb
  · exact (isWord_bool v).starts

theorem Expr.nextWord_literal {e : Expr} (hliteral : e.isLiteral = true) (h : e.Legible)
    (hfloats : FloatsReadBack e.floats) (hbl : AllBlank bl) (htail : wordRun tail = []) (w : String)
    (hw : nextWord (bl ++ (e.print ++ tail)) = some w) : isKeyword w = true := by
  have hstarts := (Expr.starts_literal hliteral h hfloats).append tail
  obtain ⟨b, rest, htext, -, hb, -⟩ | ⟨l, v, rfl⟩ := Expr.literal_start hliteral h hfloats
  · rw [nextWord, hstarts.skipped hbl, htext] at hw
    exact absurd hw (by simp [hb])
  · have hword := ((isWord_bool v).nextWord hbl htail).2.1
    obtain rfl : (if v then "true" else "false") = w := Option.some.inj (hword.symm.trans hw)
    cases v <;> decide

theorem Expr.nextPunct_literal_ne {e : Expr} (hliteral : e.isLiteral = true) (h : e.Legible)
    (hfloats : FloatsReadBack e.floats) (hbl : AllBlank bl) (htail : wordRun tail = []) :
    nextPunct (bl ++ (e.print ++ tail)) ≠ some .openParen := by
  have hstarts := (Expr.starts_literal hliteral h hfloats).append tail
  obtain ⟨b, rest, htext, -, -, hb⟩ | ⟨l, v, rfl⟩ := Expr.literal_start hliteral h hfloats
  · intro hp
    rw [nextPunct, hstarts.skipped hbl, htext] at hp
    exact hb (Option.some.inj (head?_of_punctAt hp))
  · exact ((isWord_bool v).nextWord hbl htail).nextPunct_ne _

/-- What is written for a literal reads as that literal. -/
theorem Expr.reads_literal {e : Expr} (hliteral : e.isLiteral = true) (h : e.Legible)
    (hfloats : FloatsReadBack e.floats) (hbl : AllBlank bl) (htail : Apart tail)
    (hpoint : e.isNumber = true → pointDigit tail = false) :
    Reads src (primary src sub) (bl ++ (e.print ++ tail)) tail good fun a =>
      a.bare = e.bare ∧ a.isLiteral = true := by
  cases e with
  | uint l v =>
    obtain ⟨hrun, hvalue⟩ := decimal_digits v.toNat
    refine (reads_uint hbl hrun hvalue h htail.1 (hpoint rfl)).mono id ?_
    rintro a ⟨l', rfl⟩
    exact ⟨by simp [Expr.bare], rfl⟩
  | int l v =>
    obtain ⟨b, ds, n, hb, htext, hrun, hvalue, hv⟩ := signed_digits v.toInt
    have hprint : (Expr.int l v).print = b :: ds := htext
    rw [hprint]
    refine (reads_int hb hbl hrun hvalue hv h htail.1 (hpoint rfl)).mono id ?_
    rintro a ⟨l', rfl⟩
    exact ⟨by simp [Expr.bare], rfl⟩
  | float l v =>
    refine ((hfloats v (by simp [Expr.floats]) h).reads hbl htail.1).mono id ?_
    rintro a ⟨l', rfl⟩
    exact ⟨by simp [Expr.bare], rfl⟩
  | str l v =>
    refine (reads_str hbl).mono id ?_
    rintro a ⟨l', rfl⟩
    exact ⟨by simp [Expr.bare], rfl⟩
  | bool l v =>
    refine (reads_bool hbl htail.1).mono id ?_
    rintro a ⟨l', rfl⟩
    exact ⟨by simp [Expr.bare], rfl⟩
  | eraser l =>
    refine (reads_eraser hbl htail.2).mono id ?_
    rintro a ⟨l', rfl⟩
    exact ⟨by simp [Expr.bare], rfl⟩
  | _ => exact absurd hliteral (by simp [Expr.isLiteral])

end

/-! ### Patterns -/

/-- What may follow a pattern. -/
def PatternEnd (tail : List UInt8) : Prop := stops [.openParen, .star, .starStar, .dot] tail = true

/-- What is written for a pattern reads as a pattern, which is the same exactly if no part has a
shape that does not read back. -/
structure Pattern.ReadsBack (src : Source) (p : Pattern) : Prop where
  starts : Starts p.print
  whole : ∀ n good, (good → p.Plain) →
    ReadsItem src (nested src n .pattern) Pattern.print PatternEnd n good
      (fun p a => a.bare = p.bare ↔ p.Plain) p

section

variable {src : Source} {bs bl mid tail : List UInt8} {good : Prop}

/-- A pattern that starts with a name. -/
theorem reads_pattern_name {m : Nat} {n : String} {P : Pattern → Prop} (h : NextWord n bs mid)
    (hn : isKeyword n = false)
    (hrest : ∀ s, src.At s (skipped bs) → Reads src (namePattern src (nested src m) s n) mid tail
      good P) : Reads src (nested src (m + 1) .pattern) bs tail good P := by
  show Reads src (pattern src (nested src m)) _ _ _ _
  refine reads_get.bind fun here _ => (reads_tokenStart h.1).bind fun s hs => ?_
  obtain ⟨j, hname, hj⟩ := Source.At.name?_of_nextWord hs h.skipped hn
  rw [src.nameAfter?_eq hs.2, look_pure, pure_bind, hname]
  exact (reads_set hj).bind fun _ _ => hrest s hs

/-- A pattern that starts with no name. -/
theorem reads_pattern_other {m : Nat} {P : Pattern → Prop} (h : solid (skipped bs) = true)
    (hkw : ∀ w, nextWord bs = some w → isKeyword w = true)
    (hrest : ∀ here s, Reads src (do
      if ← punct src .openParen then
        let elems ← closedList src (nested src m .pattern) .closeParen (rounds src)
        return .tuple (← locationFrom src s) elems
      else
        let x ← inContext "pattern" (primary src (nested src m))
        if x.isLiteral then return .lit x.loc x else unexpectedAt src here "pattern") bs
    tail good P) :
    Reads src (nested src (m + 1) .pattern) bs tail good P := by
  show Reads src (pattern src (nested src m)) _ _ _ _
  refine reads_get.bind fun here _ => (reads_tokenStart h).bind fun s hs => ?_
  have hskip := skipped_of_solid h
  have hname : src.name? s = none := by
    refine Source.At.name?_eq_none hs (by rw [hskip]; exact h) fun w hw => hkw w ?_
    rwa [nextWord, hskip] at hw
  rw [src.nameAfter?_eq hs.2, look_pure, pure_bind, hname]
  exact hrest here s

theorem not_capital_of_at {n : String} {s : Nat} (hn : IsName n) (hbl : AllBlank bl)
    (hs : src.At s (skipped (bl ++ (Text.bytesOf n ++ tail)))) :
    (src.byte? s).any isCapital = startsWithCapital n := by
  rw [(hn.1.starts.append tail).skipped hbl] at hs
  rw [hs.byte?, startsWithCapital]
  cases hb : Text.bytesOf n with
  | nil => exact absurd hb hn.1.starts.ne_nil
  | cons b rest => rfl

/-- A name alone: a constructor if it has a capital, else a variable. -/
theorem reads_pattern_alone {m : Nat} {n : String} {P : Pattern → Prop} (hn : IsName n)
    (hwild : n ≠ "_") (hbl : AllBlank bl) (htail : PatternEnd tail)
    (h : ∀ l, P (if startsWithCapital n then .cons l n [] else .var l n)) :
    Reads src (nested src (m + 1) .pattern) (bl ++ (Text.bytesOf n ++ tail)) tail good P := by
  refine reads_pattern_name (hn.1.nextWord hbl (wordRun_of_stops htail)) hn.2 fun s hs => ?_
  have hcapital := not_capital_of_at hn hbl hs
  refine (reads_locationFrom s).bind fun l _ => ?_
  simp only [beq_iff_eq, hwild, if_false]
  refine Reads.punct_else (solid_of_stops htail) (nextPunct_ne_of_stops htail (by simp)) ?_
  have hstarts := hn.1.starts.append tail
  have hlt : s < src.size := hs.lt (by rw [hstarts.skipped hbl]; exact hstarts.ne_nil)
  rw [Source.map_index hlt, look_pure, pure_bind, hcapital]
  have hl := h l
  split
  · rename_i hc
    rw [if_pos hc] at hl
    exact Reads.pure hl
  · rename_i hc
    rw [if_neg hc] at hl
    exact Reads.pure hl

theorem isWord_underscore : IsName "_" :=
  ⟨⟨Text.bytesOf "_", by decide, by decide, by decide⟩, by decide⟩

theorem Pattern.readsBack_var (l : Location) {n : String} (h : (Pattern.var l n).Legible) :
    (Pattern.var l n).ReadsBack src := by
  obtain ⟨hn, hwild, hcapital⟩ := h
  refine ⟨hn.1.starts, fun m good _ bl tail hbl htail hm => ?_⟩
  obtain ⟨m, rfl⟩ : ∃ k, m = k + 1 := ⟨m - 1, by omega⟩
  refine reads_pattern_alone hn hwild hbl htail fun l' => ?_
  simp [hcapital, Pattern.bare, Pattern.Plain]

theorem Pattern.readsBack_wild (l : Location) : (Pattern.wild l).ReadsBack src := by
  refine ⟨isWord_underscore.1.starts, fun m good _ bl tail hbl htail hm => ?_⟩
  obtain ⟨m, rfl⟩ : ∃ k, m = k + 1 := ⟨m - 1, by omega⟩
  refine reads_pattern_name (isWord_underscore.1.nextWord hbl (wordRun_of_stops htail))
    isWord_underscore.2 fun s _ => ?_
  exact (reads_locationFrom s).bind fun l' _ => Reads.pure (by simp [Pattern.bare, Pattern.Plain])

theorem Pattern.readsBack_constant (l : Location) {n : String} (h : (Pattern.cons l n []).Legible) :
    (Pattern.cons l n []).ReadsBack src := by
  obtain ⟨hn, hwild, -⟩ := h
  refine ⟨hn.1.starts, fun m good _ bl tail hbl htail hm => ?_⟩
  obtain ⟨m, rfl⟩ : ∃ k, m = k + 1 := ⟨m - 1, by omega⟩
  refine reads_pattern_alone hn hwild hbl htail fun l' => ?_
  cases hc : startsWithCapital n <;> simp [hc, Pattern.bare, Pattern.Plain, Pattern.isSmallCons,
    patternsPlain]

/-- Patterns between parentheses, after the opening one. -/
theorem reads_patterns {ps : List Pattern} {m : Nat} (hps : ∀ p ∈ ps, p.ReadsBack src)
    (hgood : good → ∀ p ∈ ps, p.Plain)
    (hm : (commaJoin (ps.map Pattern.print) ++ 0x29 :: tail).length < m) :
    Reads src (closedList src (nested src m .pattern) .closeParen (rounds src))
      (commaJoin (ps.map Pattern.print) ++ 0x29 :: tail) tail good fun as =>
        as.map Pattern.bare = ps.map Pattern.bare ↔ ∀ p ∈ ps, p.Plain := by
  refine Reads.of_length fun hsize => ?_
  refine (reads_closedList (fun p hp => (hps p hp).whole m good fun hg => hgood hg p hp)
    (fun p hp => (hps p hp).starts) (fun r => stops_cons (by decide) r)
    (stops_cons (by decide) tail) ⟨rfl, rfl, rfl⟩ (by decide) (by decide) allBlank_nil hm
    (show _ < _ from Nat.lt_succ_of_le hsize)).mono id fun as has => ?_
  exact map_eq_iff_of_forall₂ has

theorem Pattern.readsBack_cons (l : Location) {n : String} {p : Pattern} {ps : List Pattern}
    (hn : IsName n) (hwild : n ≠ "_") (hps : ∀ q ∈ p :: ps, q.ReadsBack src) :
    (Pattern.cons l n (p :: ps)).ReadsBack src := by
  refine ⟨hn.1.starts.append _, fun m good hgood bl tail hbl htail hm => ?_⟩
  obtain ⟨m, rfl⟩ : ∃ k, m = k + 1 := ⟨m - 1, by omega⟩
  have hplain : (Pattern.cons l n (p :: ps)).Plain ↔ ∀ q ∈ p :: ps, q.Plain := by
    rw [← patternsPlain_iff]
    simp [Pattern.Plain, Pattern.isSmallCons]
  have htext : (Pattern.cons l n (p :: ps)).print ++ tail =
      Text.bytesOf n ++ 0x28 :: (commaJoin ((p :: ps).map Pattern.print) ++ 0x29 :: tail) := by
    simp [Pattern.print]
  rw [htext] at hm ⊢
  refine reads_pattern_name (hn.1.nextWord hbl rfl) hn.2 fun s _ =>
    (reads_locationFrom s).bind fun _ _ => ?_
  simp only [beq_iff_eq, hwild, if_false]
  refine Reads.punct_then ⟨rfl, rfl, rfl⟩ ?_
  refine (reads_patterns hps (fun hg => hplain.1 (hgood hg)) ?_).bind fun as has => ?_
  · simp only [List.length_append, List.length_cons] at hm ⊢
    omega
  refine (reads_locationFrom s).bind fun l' _ => Reads.pure ?_
  rw [hplain, ← has]
  simp [Pattern.bare]

theorem Pattern.readsBack_tuple (l : Location) {ps : List Pattern}
    (hps : ∀ q ∈ ps, q.ReadsBack src) : (Pattern.tuple l ps).ReadsBack src := by
  refine ⟨rfl, fun m good hgood bl tail hbl htail hm => ?_⟩
  obtain ⟨m, rfl⟩ : ∃ k, m = k + 1 := ⟨m - 1, by omega⟩
  have hplain : (Pattern.tuple l ps).Plain ↔ ∀ q ∈ ps, q.Plain := patternsPlain_iff ps
  have htext : (Pattern.tuple l ps).print ++ tail =
    0x28 :: (commaJoin (ps.map Pattern.print) ++ 0x29 :: tail) := by
    simp [Pattern.print]
  rw [htext] at hm ⊢
  have hstarts : Starts (0x28 :: (commaJoin (ps.map Pattern.print) ++ 0x29 :: tail)) := rfl
  refine reads_pattern_other (hstarts.solid_skipped hbl) ?_ fun here s => ?_
  · intro w hw
    rw [nextWord, hstarts.skipped hbl] at hw
    exact absurd hw (by simp [isLetter])
  refine Reads.punct_then (Next.append ⟨rfl, rfl, rfl⟩ hbl) ?_
  refine (reads_patterns hps (fun hg => hplain.1 (hgood hg)) ?_).bind fun as has => ?_
  · simp only [List.length_append, List.length_cons] at hm ⊢
    omega
  refine (reads_locationFrom s).bind fun l' _ => Reads.pure ?_
  show (Pattern.tuple l' as).bare = (Pattern.tuple l ps).bare ↔ _
  rw [hplain, ← has]
  simp [Pattern.bare]

theorem Pattern.readsBack_lit (l : Location) {e : Expr} (hliteral : e.isLiteral = true)
    (h : e.Legible) (hfloats : FloatsReadBack e.floats) : (Pattern.lit l e).ReadsBack src := by
  have hstarts := Expr.starts_literal hliteral h hfloats
  refine ⟨hstarts, fun m good _ bl tail hbl htail hm => ?_⟩
  obtain ⟨m, rfl⟩ : ∃ k, m = k + 1 := ⟨m - 1, by omega⟩
  have hsolid := (hstarts.append tail).solid_skipped hbl
  have hparen : nextPunct (bl ++ (e.print ++ tail)) ≠ some .openParen :=
    Expr.nextPunct_literal_ne hliteral h hfloats hbl (wordRun_of_stops htail)
  refine reads_pattern_other hsolid (Expr.nextWord_literal hliteral h hfloats hbl
    (wordRun_of_stops htail)) fun here s => ?_
  refine Reads.punct_else hsolid hparen ?_
  have hread : Reads src (primary src (nested src m)) (bl ++ (e.print ++ tail)) tail good _ :=
    Expr.reads_literal hliteral h hfloats hbl (apart_of_stops htail (by simp) (by simp)) fun _ =>
      pointDigit_of_stops htail (by simp)
  refine (hread.inContext _).bind fun a ha => ?_
  rw [if_pos ha.2]
  refine Reads.pure ?_
  show (Pattern.lit a.loc a).bare = (Pattern.lit l e).bare ↔ e.Plain
  have hplain : e.Plain := by
    cases e <;> trivial
  simp [Pattern.bare, ha.1, hplain]

/-- What is written for a legible pattern reads back as far as it can. -/
theorem Pattern.readsBack (src : Source) {p : Pattern} (h : p.Legible)
    (hfloats : FloatsReadBack p.floats) : p.ReadsBack src := by
  induction p using Pattern.inductionOn with
  | hvar l n => exact readsBack_var l h
  | hwild l => exact readsBack_wild l
  | hlit l e => exact readsBack_lit l h.1 h.2 hfloats
  | hcons l n ps ih =>
    cases ps with
    | nil => exact readsBack_constant l h
    | cons p ps =>
      have hfloats' := floatsReadBack_flatMap ((patternsFloats_eq_flatMap _).subst hfloats)
      exact readsBack_cons l h.1 h.2.1 fun q hq =>
        ih q hq ((patternsLegible_iff _).1 h.2.2 q hq) (hfloats' q hq)
  | htuple l ps ih =>
    have hfloats' := floatsReadBack_flatMap ((patternsFloats_eq_flatMap _).subst hfloats)
    exact readsBack_tuple l fun q hq => ih q hq ((patternsLegible_iff _).1 h q hq) (hfloats' q hq)
  | hmissing => exact absurd h id

end

end FunRiscv
