import Mathlib
import FunRiscv.Surface.Reader.Definition
import FunRiscv.Proofs.Surface.Legible
import FunRiscv.Proofs.Surface.Lockstep

/-!
# Comments are blanks

* `tracks_nested`: the rules of the grammar go in step on a text with comments and on the
  one with blanks in their place. The rule for parentheses looks back at raw bytes, so what
  it reads may differ.
* `Program.parse_blanked`: if a text with comments reads as a program, then so does the one with
  blanks, and it is the same program if a comma is seen before a closing parenthesis in both
  texts or in neither.
-/

namespace FunRiscv

namespace Reading

/-! ### Nested parts -/

/-- Two readers of nested parts go in step. Types are read the same, and all else alike. -/
structure SubTracks (src : Source) (sub sub' : SubReader) : Prop where
  type : ∀ i, TracksSame src (sub .type) (sub' .type) i
  expr : ∀ i, TracksAlike src (sub .expr) (sub' .expr) i
  power : ∀ i, TracksAlike src (sub .power) (sub' .power) i
  ifExpr : ∀ i, TracksAlike src (sub .ifExpr) (sub' .ifExpr) i
  pattern : ∀ i, TracksAlike src (sub .pattern) (sub' .pattern) i
  block : ∀ i, TracksAlike src (sub .block) (sub' .block) i
  ifStmt : ∀ i, TracksAlike src (sub .ifStmt) (sub' .ifStmt) i

section

variable {src : Source} {sub sub' : SubReader} {i : Nat}

@[simp]
theorem rounds_blanked : rounds src.blanked = rounds src := by simp [rounds]

/-! ### Types and parameters -/

theorem tracks_typeAtom (h : SubTracks src sub sub') :
    TracksSame src (typeAtom src sub) (typeAtom src.blanked sub') i := by
  refine tracks_tokenStart.bind ?_
  rintro start _ _ ⟨rfl, rfl, -⟩
  refine Tracks.punct_ite (fun j _ => ?_) fun _ => ?_
  · refine Tracks.punct_ite (fun k _ => ?_) fun _ => ?_
    · rw [pure_bind, pure_bind]
      exact Tracks.located fun _ => rfl
    rw [rounds_blanked]
    refine (tracks_commaList h.type).bind fun ts ts' k hts =>
      (tracks_expect _).bind fun _ _ l _ => ?_
    rw [List.forall₂_eq_eq_eq] at hts
    subst hts
    rw [pure_bind, pure_bind]
    -- One type in parentheses is that type.
    rcases ts with _ | ⟨t, _ | ⟨t', ts⟩⟩
    · exact Tracks.located fun _ => rfl
    · exact Tracks.pure rfl
    · exact Tracks.located fun _ => rfl
  · refine (Tracks.inContext _ tracks_name).bind ?_
    rintro n _ j rfl
    have hwhole : ∀ (ts : List TypeExpr) k,
      TracksSame src (do return TypeExpr.name (← locationFrom src start) n ts)
        (do return TypeExpr.name (← locationFrom src.blanked start) n ts) k :=
      fun ts k => Tracks.located fun _ => rfl
    refine Tracks.punct_ite (fun k _ => ?_) fun _ => hwhole [] j
    rw [rounds_blanked]
    refine (tracks_commaList h.type).bind fun ts ts' l hts =>
      tracks_closeAngle.bind fun _ _ m _ => ?_
    rw [List.forall₂_eq_eq_eq] at hts
    subst hts
    exact hwhole ts m

theorem tracks_typeExpr (h : SubTracks src sub sub') :
    TracksSame src (typeExpr src sub) (typeExpr src.blanked sub') i := by
  refine tracks_tokenStart.bind ?_
  rintro start _ _ ⟨rfl, rfl, -⟩
  refine (tracks_typeAtom h).bind ?_
  rintro t _ j rfl
  refine Tracks.punct_ite (fun k _ => ?_) fun _ => Tracks.pure rfl
  refine (Tracks.inContext _ (h.type k)).bind ?_
  rintro r _ l rfl
  exact Tracks.located fun _ => rfl

theorem tracks_param (h : SubTracks src sub sub') :
    TracksSame src (param src sub) (param src.blanked sub') i := by
  refine tracks_tokenStart.bind ?_
  rintro start _ _ ⟨rfl, rfl, -⟩
  refine (Tracks.inContext _ tracks_name).bind ?_
  rintro n _ j rfl
  have hwhole : ∀ (t : Option TypeExpr) k, TracksSame src
      (do return { loc := ← locationFrom src start, name := n, type := t : Param })
      (do return { loc := ← locationFrom src.blanked start, name := n, type := t : Param }) k :=
    fun t k => Tracks.located fun _ => rfl
  refine Tracks.punct_ite (fun k _ => ?_) fun _ => hwhole none j
  refine (Tracks.map (Q := fun t t' _ => t = t')
    ((Tracks.inContext _ (h.type k)).mono fun t t' l ht => ?_)).bind ?_
  · rw [ht]
  · rintro t _ l rfl
    exact hwhole t l

theorem tracks_params (h : SubTracks src sub sub') :
    TracksSame src (params src sub) (params src.blanked sub') i := by
  refine (tracks_expect _).bind fun _ _ j _ =>
    Tracks.punct_ite (fun k _ => Tracks.pure rfl) fun _ => ?_
  rw [rounds_blanked]
  refine (tracks_commaList fun k => tracks_param h).bind fun ps ps' k hps =>
    (tracks_expect _).bind fun _ _ l _ => Tracks.pure ?_
  rwa [List.forall₂_eq_eq_eq] at hps

/-! ### Literals -/

theorem tracks_floatLiteral {start digits point stop : Nat} {negative : Bool}
    (hwhole : src.Solidly digits point) (hplaces : src.Solidly (point + 1) stop)
    (hdigits : src.Solidly digits stop) (hstop : src.Clear stop) (hpoint : digits ≤ point)
    (hlt : point < stop) :
    TracksSame src (floatLiteral src start digits point stop negative)
      (floatLiteral src.blanked start digits point stop negative) i := by
  rw [floatLiteral_inside hpoint hlt hstop.1, floatLiteral_inside hpoint hlt hstop.le_blanked]
  simp only [src.locate_blanked, Source.slice_blanked hwhole, Source.slice_blanked hplaces,
    Source.slice_blanked hdigits]
  refine Tracks.ite (fun _ => Tracks.failWith _) fun _ => ?_
  exact (Tracks.set (P := fun _ _ _ => True) hstop trivial).bind fun _ _ _ _ => Tracks.pure rfl

theorem tracks_intLiteral {start stop : Nat} {magnitude : Option Nat} {negative : Bool}
    (hle : start ≤ stop) (hspan : src.Solidly start stop) (hstop : src.Clear stop) :
    TracksSame src (intLiteral src start stop magnitude negative)
      (intLiteral src.blanked start stop magnitude negative) i := by
  rw [intLiteral_inside hle hstop.1, intLiteral_inside hle hstop.le_blanked]
  simp only [src.locate_blanked, Source.slice_blanked hspan]
  cases magnitude with
  | none => exact Tracks.failWith _
  | some n =>
    refine Tracks.ite (fun _ => Tracks.failWith _) fun _ => ?_
    exact (Tracks.set (P := fun _ _ _ => True) hstop trivial).bind fun _ _ _ _ => Tracks.pure rfl

theorem tracks_uintLiteral {start stop : Nat} {magnitude : Option Nat} (hle : start ≤ stop)
    (hspan : src.Solidly start stop) (hstop : src.Clear stop) :
    TracksSame src (uintLiteral src start stop magnitude)
      (uintLiteral src.blanked start stop magnitude) i := by
  rw [uintLiteral_inside hle hstop.1, uintLiteral_inside hle hstop.le_blanked]
  simp only [src.locate_blanked, Source.slice_blanked hspan]
  cases magnitude with
  | none => exact Tracks.failWith _
  | some n =>
    refine Tracks.ite (fun _ => Tracks.failWith _) fun _ => ?_
    exact (Tracks.set (P := fun _ _ _ => True) hstop trivial).bind fun _ _ _ _ => Tracks.pure rfl

theorem solidly_append {j k : Nat} (h : src.Solidly i j) (h' : src.Solidly j k) :
    src.Solidly i k := by
  intro n hn hlt
  by_cases hbefore : n < j
  · exact h n hn hbefore
  · exact h' n (by omega) hlt

theorem solidly_single (h : src.Fixed i) (hi : i < src.size) : src.Solidly i (i + 1) := by
  intro n hn hlt
  obtain rfl : n = i := by omega
  exact h.zone_succ_ne hi

/-- A point with a digit after it stands in both texts or in neither. -/
theorem pointDigit_blanked {stop : Nat} (h : src.Clear stop) :
    (src.blanked.byte? stop == some 0x2e && (src.blanked.byte? (stop + 1)).any isDigit) =
      (src.byte? stop == some 0x2e && (src.byte? (stop + 1)).any isDigit) := by
  rw [h.byte?_beq (by simp [Source.Inner])]
  cases hpoint : src.byte? stop == some 0x2e with
  | false => rfl
  | true =>
    have hbyte := beq_iff_eq.1 hpoint
    have hnext : src.Clear (stop + 1) :=
      (h.fixed hbyte (by decide) (by decide)).succ hbyte (by decide)
    rw [hnext.any_byte? Source.inner_isDigit]

theorem startsWith_hex_blanked {digits : Nat} (h : src.Fixed digits) :
    src.blanked.startsWith digits [0x30, 0x78] = src.startsWith digits [0x30, 0x78] := by
  simp only [Source.startsWith, h.byte?, Bool.and_true]
  cases hzero : src.byte? digits == some 0x30 with
  | false => rfl
  | true =>
    have hnext : src.Clear (digits + 1) := h.succ (beq_iff_eq.1 hzero) (by decide)
    rw [hnext.byte?_beq (by simp [Source.Inner])]

theorem tracks_number {start digits : Nat} (hstart : src.Fixed start) (hle : start ≤ digits)
    (hsign : src.Solidly start digits) (hfixed : src.Fixed digits)
    (hdigit : (src.byte? digits).any isDigit = true) :
    TracksSame src (number src start digits) (number src.blanked start digits) i := by
  obtain ⟨b, hb, hbdigit⟩ := (Option.any_eq_true _ _).1 hdigit
  have hlt := src.lt_size_of_byte? hb
  have htail : ∀ (first stop : Nat) (magnitude : Option Nat), digits ≤ stop → src.Clear stop →
      src.Solidly digits stop →
      TracksSame src
        (if (first == digits && src.byte? stop == some 0x2e && (src.byte? (stop + 1)).any isDigit) =
          true then
          floatLiteral src start digits stop (src.skipWhile isDigit (stop + 1))
            (start != digits && src.byte? start == some 0x2d)
        else if (start != digits) = true then
          intLiteral src start stop magnitude (start != digits && src.byte? start == some 0x2d)
        else uintLiteral src start stop magnitude)
        (if (first == digits && src.blanked.byte? stop == some 0x2e &&
          (src.blanked.byte? (stop + 1)).any isDigit) = true then
          floatLiteral src.blanked start digits stop (src.blanked.skipWhile isDigit (stop + 1))
            (start != digits && src.blanked.byte? start == some 0x2d)
        else if (start != digits) = true then
          intLiteral src.blanked start stop magnitude
            (start != digits && src.blanked.byte? start == some 0x2d)
        else uintLiteral src.blanked start stop magnitude) i := by
    intro first stop magnitude hdigits hclear hsolid
    have hspan := solidly_append hsign hsolid
    rw [Bool.and_assoc, Bool.and_assoc, pointDigit_blanked hclear, hstart.byte?]
    refine Tracks.ite (fun hpoint => ?_) fun _ => ?_
    · have hbyte := beq_iff_eq.1 (Bool.and_eq_true_iff.1 (Bool.and_eq_true_iff.1 hpoint).2).1
      have hpointFixed := hclear.fixed hbyte (by decide) (by decide)
      obtain ⟨heq, hend, hplaces⟩ :=
        (hpointFixed.succ hbyte (by decide)).skipWhile Source.inner_isDigit rfl
      rw [heq]
      have hdot := solidly_single hpointFixed (src.lt_size_of_byte? hbyte)
      exact tracks_floatLiteral hsolid hplaces (solidly_append hsolid (solidly_append hdot hplaces))
        hend hdigits (src.le_skipWhile _ _)
    · exact Tracks.ite (fun _ => tracks_intLiteral (hle.trans hdigits) hspan hclear) fun _ =>
        tracks_uintLiteral (hle.trans hdigits) hspan hclear
  rw [number_inside hle hlt, number_inside hle (src.size_blanked.symm ▸ hlt)]
  cases hhex : src.startsWith digits [0x30, 0x78] with
  | true =>
    have hbytes : src.byte? digits = some 0x30 ∧ src.byte? (digits + 1) = some 0x78 := by
      simpa [Source.startsWith] using hhex
    have hnext : src.Clear (digits + 1) := hfixed.succ hbytes.1 (by decide)
    have hxFixed := hnext.fixed hbytes.2 (by decide) (by decide)
    have hinner : Source.Inner isHexDigit := by simp [Source.Inner, isHexDigit, isDigit]
    obtain ⟨heq, hend, hsolid⟩ := (hxFixed.succ hbytes.2 (by decide)).skipWhile hinner rfl
    have hfirst :=
      solidly_append (solidly_single hfixed (src.lt_size_of_byte? hb))
        (solidly_single hxFixed (src.lt_size_of_byte? hbytes.2))
    have hdigits := src.le_skipWhile isHexDigit (digits + 2)
    simp only [startsWith_hex_blanked hfixed, hhex, if_true, heq, Source.slice_blanked hsolid]
    exact htail _ _ _ (by omega) hend (solidly_append hfirst hsolid)
  | false =>
    obtain ⟨heq, hend, hsolid⟩ := hfixed.1.skipWhile Source.inner_isDigit rfl
    simp only [startsWith_hex_blanked hfixed, hhex, Bool.false_eq_true, if_false, heq,
      Source.slice_blanked hsolid]
    exact htail _ _ _ (src.le_skipWhile _ _) hend hsolid

theorem tracks_string {start : Nat} (hstart : src.Fixed start)
    (hquote : src.byte? start = some 0x22) :
    TracksSame src (string src start) (string src.blanked start) i := by
  have hbody : start + 1 < src.size → src.zone (start + 1) = .text := fun _ => hstart.quote hquote
  obtain ⟨heq, hend, hsolid⟩ := Source.closingQuote_blanked (src.size + 1) hbody (by omega)
  have hlt := src.lt_size_of_byte? hquote
  rw [string_inside hlt, string_inside (src.size_blanked.symm ▸ hlt)]
  simp only [src.size_blanked, src.locate_blanked, heq, Source.slice_blanked hsolid]
  refine Tracks.ite (fun _ => Tracks.failWith _) fun hbeyond =>
    Tracks.ite (fun hlast => ?_) fun hinside => ?_
  · exact tracks_unexpectedAt _ ⟨by omega, fun hlt => by omega⟩
  · split
    · exact (Tracks.set (P := fun _ _ _ => True) (hend (by omega)) trivial).bind fun _ _ _ _ =>
        Tracks.pure rfl
    · exact Tracks.failWith _

/-! ### Expressions -/

/-- What closes a parenthesis in the code: the look back at raw bytes agrees in both texts, if
commas are clear. -/
theorem trailingComma_blanked {j : Nat} (h : EndsWith src .closeParen j)
    (hclear : src.CommasClear) : trailingComma src.blanked j = trailingComma src j := by
  obtain ⟨k, hk, hstarts, rfl⟩ := h
  have hbyte : src.byte? k = some 0x29 := by
    have hbytes : Punct.closeParen.bytes = [0x29] := by decide
    simpa [hbytes, Source.startsWith] using hstarts
  have hlt := src.lt_size_of_byte? hbyte
  exact hclear k hlt hbyte (hk.1.2 hlt)

theorem tracks_parenthesised {start : Nat} (h : SubTracks src sub sub') :
    TracksAlike src (parenthesised src sub start) (parenthesised src.blanked sub' start) i := by
  rw [parenthesised, parenthesised, rounds_blanked]
  refine (tracks_closedList h.expr).bind ?_
  rintro es es' j ⟨hes, hclose⟩
  have htuple : Tracks src (do return Expr.tuple (← locationFrom src start) es)
      (do return Expr.tuple (← locationFrom src.blanked start) es') j fun x x' _ =>
        Alike src x x' :=
    Tracks.located fun l hclear => by rw [alike_of_forall₂ hes hclear]
  cases hes with
  | nil => exact htuple
  | @cons x x' xs xs' hx hxs =>
    cases hxs with
    | cons _ _ => exact htuple
    | nil =>
      refine tracks_get.bind ?_
      rintro _ _ _ ⟨rfl, rfl, rfl⟩
      rw [closesAfterComma_eq hclose.le, closesAfterComma_eq (src.size_blanked.symm ▸ hclose.le),
        look_pure, pure_bind, look_pure, pure_bind]
      by_cases hsame : trailingComma src.blanked j = trailingComma src j
      · rw [hsame]
        exact Tracks.ite (fun _ => htuple) fun _ => Tracks.pure hx
      · -- The two texts are read differently, but both are read.
        have hnever : ∀ e e' : Expr, Alike src e e' :=
          fun _ _ hclear => absurd (trailingComma_blanked hclose hclear) hsame
        have hone : trailingComma src j = true ∧ trailingComma src.blanked j = false ∨
            trailingComma src j = false ∧ trailingComma src.blanked j = true := by
          cases ha : trailingComma src j <;> cases hb : trailingComma src.blanked j <;> simp_all
        obtain ⟨hyes, hno⟩ | ⟨hno, hyes⟩ := hone
        · rw [if_pos hyes, if_neg (by simp [hno])]
          exact fun hj => .inl ⟨_, x', j, rfl, rfl, hj, hnever _ _⟩
        · rw [if_pos hyes, if_neg (by simp [hno])]
          exact fun hj => .inl ⟨x, _, j, rfl, rfl, hj, hnever _ _⟩

theorem tracks_braced (h : SubTracks src sub sub') :
    TracksAlike src (braced src sub) (braced src.blanked sub') i :=
  (tracks_expect _).bind fun _ _ j _ =>
    (h.expr j).bind fun _ _ _ hx => (tracks_expect _).bind fun _ _ _ _ => Tracks.pure hx

theorem tracks_lambda {start : Nat} (h : SubTracks src sub sub') :
    Tracks src (lambda src sub start) (lambda src.blanked sub' start) i fun x x' _ =>
      Alike src x x' ∧ x.isLiteral = x'.isLiteral := by
  refine (Tracks.inContext _ (tracks_params h)).bind ?_
  rintro ps _ j rfl
  refine (tracks_expect _).bind fun _ _ k _ =>
    (Tracks.inContext _ (h.expr k)).bind fun b b' l hb => ?_
  refine (tracks_expect _).bind fun _ _ m _ => Tracks.located fun _ => ⟨fun hclear => ?_, rfl⟩
  rw [hb hclear]

theorem tracks_ifExprTail {start : Nat} (h : SubTracks src sub sub') :
    Tracks src (ifExprTail src sub start) (ifExprTail src.blanked sub' start) i fun x x' _ =>
      Alike src x x' ∧ x.isLiteral = x'.isLiteral := by
  refine (Tracks.inContext _ (h.expr i)).bind fun c c' j hc =>
    (Tracks.inContext _ (tracks_braced h)).bind fun t t' k ht => ?_
  refine Tracks.keyword_ite (fun l => ?_) (tracks_unexpected _)
  have helse : TracksAlike src (do if ← nextIsKeyword src "if" then sub .ifExpr else braced src sub)
      (do if ← nextIsKeyword src.blanked "if" then sub' .ifExpr else braced src.blanked sub') l :=
    Tracks.nextIsKeyword_ite (h.ifExpr l) (tracks_braced h)
  refine (Tracks.inContext _ helse).bind fun e e' m he =>
    Tracks.located fun _ => ⟨fun hclear => ?_, rfl⟩
  rw [hc hclear, ht hclear, he hclear]

theorem tracks_ifExpr (h : SubTracks src sub sub') :
    TracksAlike src (ifExpr src sub) (ifExpr src.blanked sub') i := by
  refine tracks_tokenStart.bind ?_
  rintro start _ _ ⟨rfl, rfl, -⟩
  exact Tracks.keyword_ite (fun j => (tracks_ifExprTail h).mono fun _ _ _ hx => hx.1)
    (tracks_unexpected _)

theorem tracks_matchCase (h : SubTracks src sub sub') :
    TracksAlike src (matchCase src sub) (matchCase src.blanked sub') i := by
  refine tracks_tokenStart.bind ?_
  rintro start _ _ ⟨rfl, rfl, -⟩
  refine (Tracks.inContext _ (h.pattern i)).bind fun p p' j hp =>
    (tracks_expect _).bind fun _ _ k _ => ?_
  refine (Tracks.inContext _ (h.expr k)).bind fun e e' l he => Tracks.located fun _ hclear => ?_
  rw [hp hclear, he hclear]

theorem tracks_matchTail {start : Nat} (h : SubTracks src sub sub') :
    Tracks src (matchTail src sub start) (matchTail src.blanked sub' start) i fun x x' _ =>
      Alike src x x' ∧ x.isLiteral = x'.isLiteral := by
  refine (Tracks.inContext _ (h.expr i)).bind fun x x' j hx =>
    (tracks_expect _).bind fun _ _ k _ => ?_
  rw [rounds_blanked]
  refine (tracks_closedList fun l => tracks_matchCase h).bind fun cs cs' l hcs =>
    Tracks.located fun _ => ⟨fun hclear => ?_, rfl⟩
  rw [hx hclear, alike_of_forall₂ hcs.1 hclear]

theorem tracks_wordExpr {start stop : Nat} {w : String} (h : SubTracks src sub sub')
    (hstart : src.Clear start) (hstop : src.Clear stop) :
    Tracks src (wordExpr src sub start w stop) (wordExpr src.blanked sub' start w stop)
      i fun x x' _ =>
      Alike src x x' ∧ x.isLiteral = x'.isLiteral := by
  simp only [wordExpr, src.locate_blanked]
  refine (Tracks.set (P := fun _ _ _ => True) hstop trivial).bind fun _ _ j _ => ?_
  refine Tracks.ite (fun _ => Tracks.pure ⟨Alike.refl _, rfl⟩) fun _ =>
    Tracks.ite (fun _ => Tracks.pure ⟨Alike.refl _, rfl⟩) fun _ => ?_
  refine Tracks.ite (fun _ => tracks_lambda h) fun _ =>
    Tracks.ite (fun _ => tracks_ifExprTail h) fun _ => ?_
  refine Tracks.ite (fun _ => tracks_matchTail h) fun _ => ?_
  exact Tracks.ite (fun _ => tracks_unexpectedAt _ hstart) fun _ => Tracks.pure ⟨Alike.refl _, rfl⟩

/-- Whether an expression that starts with punctuation is a literal is the same, but
for parentheses. -/
theorem tracks_punctExpr {start : Nat} (h : SubTracks src sub sub') :
    Tracks src (punctExpr src sub start) (punctExpr src.blanked sub' start) i fun x x' _ =>
      Alike src x x' ∧ ((∀ k, src.punct? i ≠ some (.openParen, k)) →
        x.isLiteral = x'.isLiteral) := by
  refine Tracks.punct_ite (fun j hj => Tracks.located fun _ => ⟨Alike.refl _, fun _ => rfl⟩)
    fun _ => ?_
  refine (tracks_punct .openParen).bind ?_
  rintro b _ j ⟨rfl, hb⟩
  cases b with
  | true => exact (tracks_parenthesised h).mono fun x x' k hx =>
    ⟨hx, fun hne => absurd hb.2 (hne j)⟩
  | false =>
    obtain ⟨rfl, -⟩ := hb
    refine Tracks.punct_ite (fun j _ => ?_) fun _ => tracks_unexpected _
    rw [rounds_blanked]
    refine (tracks_closedList h.expr).bind fun es es' k hes =>
      Tracks.located fun _ => ⟨fun hclear => ?_, fun _ => rfl⟩
    rw [alike_of_forall₂ hes.1 hclear]

theorem tracks_primary (h : SubTracks src sub sub') :
    Tracks src (primary src sub) (primary src.blanked sub') i fun x x' _ =>
      Alike src x x' ∧ ((∀ k, src.punct? i ≠ some (.openParen, k)) →
        x.isLiteral = x'.isLiteral) := by
  have hsame : ∀ {act act' : Reading Expr}, TracksSame src act act' i →
    Tracks src act act' i fun x x' _ =>
      Alike src x x' ∧ ((∀ k, src.punct? i ≠ some (.openParen, k)) →
        x.isLiteral = x'.isLiteral) := by
    intro act act' hact
    refine hact.mono ?_
    rintro x _ j rfl
    exact ⟨Alike.refl x, fun _ => rfl⟩
  refine tracks_tokenStart.bind ?_
  rintro start _ _ ⟨rfl, rfl, hstart, -⟩
  rw [primaryAt_inside hstart.1.1, primaryAt_inside hstart.1.le_blanked, hstart.byte?,
    hstart.1.word?_blanked]
  cases hb : src.byte? start with
  | none => exact tracks_unexpectedAt _ hstart.1
  | some b =>
    have hsigned : ((b == 0x2d || b == 0x2b) && (src.blanked.byte? (start + 1)).any isDigit) =
        ((b == 0x2d || b == 0x2b) && (src.byte? (start + 1)).any isDigit) := by
      cases hsign : b == 0x2d || b == 0x2b with
      | false => rfl
      | true =>
        have hquote : b ≠ 0x22 := by
          rintro rfl
          exact absurd hsign (by decide)
        rw [(hstart.succ hb hquote).any_byte? Source.inner_isDigit]
    dsimp only
    rw [hsigned]
    refine Tracks.ite (fun hdigit => ?_) fun _ =>
      Tracks.ite (fun hsign => ?_) fun _ => Tracks.ite (fun hquote => ?_) fun _ => ?_
    · exact hsame (tracks_number hstart le_rfl (fun k hk hlt => by omega) hstart
        (by simpa [hb] using hdigit))
    · have hdigit := (Bool.and_eq_true_iff.1 hsign).2
      have hquote : b ≠ 0x22 := by
        rintro rfl
        exact absurd (Bool.and_eq_true_iff.1 hsign).1 (by decide)
      obtain ⟨c, hc, hcdigit⟩ := (Option.any_eq_true _ _).1 hdigit
      have hne : ∀ d, isDigit d = false → c ≠ d := by
        rintro d hd rfl
        simp [hd] at hcdigit
      have hnext := (hstart.succ hb hquote).fixed hc (hne _ rfl) (hne _ rfl)
      exact hsame (tracks_number hstart (Nat.le_succ _)
        (solidly_single hstart (src.lt_size_of_byte? hb)) hnext hdigit)
    · exact hsame (tracks_string hstart (by rw [hb, beq_iff_eq.1 hquote]))
    · cases hw : src.word? start with
      | none => exact tracks_punctExpr h
      | some r => exact (tracks_wordExpr h hstart.1 (hstart.1.word? hw)).mono fun x x' j hx =>
        ⟨hx.1, fun _ => hx.2⟩

theorem tracks_namedArg? (h : SubTracks src sub sub') :
    Tracks src (namedArg? src sub) (namedArg? src.blanked sub') i fun a a' _ =>
      Option.Rel (Alike src) a a' := by
  refine tracks_tokenStart.bind ?_
  rintro start _ _ ⟨rfl, rfl, hstart, -⟩
  simp only [src.nameAfter?_eq hstart.1.1, src.blanked.nameAfter?_eq hstart.1.le_blanked,
    hstart.1.name?_blanked, look_pure, pure_bind]
  cases hn : src.name? start with
  | none => exact Tracks.pure .none
  | some r =>
    obtain ⟨n, stop⟩ := r
    have hstop := hstart.1.name? hn
    simp only [src.punctAfter?_eq hstop.1, src.blanked.punctAfter?_eq hstop.le_blanked,
      hstop.punct?_blanked, look_pure, pure_bind]
    cases hp : src.punct? stop with
    | none => exact Tracks.pure .none
    | some r =>
      obtain ⟨t, j⟩ := r
      cases t with
      | colon =>
        refine (Tracks.set (P := fun _ _ _ => True) (hstop.punct? hp) trivial).bind fun _ _ k _ =>
          ?_
        refine (Tracks.inContext _ (h.expr k)).bind fun x x' l hx =>
          Tracks.located fun _ => .some fun hclear => ?_
        rw [hx hclear]
      | _ => exact Tracks.pure .none

theorem tracks_arguments {fuel : Nat} {named : Bool} (h : SubTracks src sub sub') :
    TracksAlike src (arguments src sub fuel named) (arguments src.blanked sub' fuel named) i := by
  induction fuel generalizing i named with
  | zero => exact Tracks.failWith _
  | succ fuel ih =>
    refine (tracks_namedArg? h).bind fun a a' j ha => ?_
    cases ha with
    | some ha =>
      refine Tracks.punct_ite (fun k _ => ?_) fun _ => ?_
      · refine ih.bind fun r r' l hr => Tracks.pure fun hclear => ?_
        rw [hr hclear, ha hclear]
      · refine (tracks_expect _).bind fun _ _ l _ => Tracks.pure fun hclear => ?_
        rw [ha hclear]
    | none =>
      refine Tracks.ite (fun _ => tracks_unexpected _) fun _ => ?_
      refine (Tracks.inContext _ (h.expr j)).bind fun x x' k hx =>
        Tracks.punct_ite (fun l _ => ?_) fun _ => ?_
      · refine ih.bind fun r r' m hr => Tracks.pure fun hclear => ?_
        rw [hr hclear, hx hclear]
      · refine (tracks_expect _).bind fun _ _ l _ => Tracks.pure fun hclear => ?_
        rw [hx hclear]

theorem tracks_fieldName : TracksSame src (fieldName src) (fieldName src.blanked) i := by
  refine tracks_tokenStart.bind ?_
  rintro start _ _ ⟨rfl, rfl, hstart, -⟩
  simp only [src.wordAt?_eq hstart.1.1, src.blanked.wordAt?_eq hstart.1.le_blanked,
    hstart.1.word?_blanked, look_pure, pure_bind]
  cases hw : src.word? start with
  | some r => exact (Tracks.set (P := fun _ _ _ => True) (hstart.1.word? hw)
    trivial).bind fun _ _ _ _ => Tracks.pure rfl
  | none =>
    obtain ⟨heq, hend, hsolid⟩ := hstart.1.skipWhile Source.inner_isDigit rfl
    have hle := src.le_skipWhile isDigit start
    simp only [Source.pass_eq, look_pure, pure_bind, heq, Source.cut_eq hle hend.1,
      Source.cut_eq hle hend.le_blanked, Source.slice_blanked hsolid]
    refine Tracks.ite (fun _ => tracks_unexpectedAt _ hstart.1) fun _ => ?_
    exact (Tracks.set (P := fun _ _ _ => True) hend trivial).bind fun _ _ _ _ => Tracks.pure rfl

theorem tracks_postfixes {start fuel : Nat} {x x' : Expr} (h : SubTracks src sub sub')
    (hx : Alike src x x') :
    TracksAlike src (postfixes src sub start fuel x) (postfixes src.blanked sub' start fuel x')
      i := by
  induction fuel generalizing i x x' with
  | zero => exact Tracks.failWith _
  | succ fuel ih =>
    refine Tracks.punct_ite (fun j _ => ?_) fun _ => ?_
    · have hwhole : ∀ (r r' : List Expr × List NamedArg) k, Alike src r r' → TracksAlike src (do
          let call := Expr.call (← locationFrom src start) x r.1 r.2
          postfixes src sub start fuel call) (do
          let call := Expr.call (← locationFrom src.blanked start) x' r'.1 r'.2
          postfixes src.blanked sub' start fuel call) k := by
        intro r r' k hr
        refine (tracks_locationFrom start).bind ?_
        rintro l _ _ ⟨rfl, rfl⟩
        exact ih fun hclear => by rw [hx hclear, hr hclear]
      refine Tracks.punct_ite (fun k _ => hwhole ([], []) ([], []) k (Alike.refl _)) fun _ => ?_
      rw [rounds_blanked]
      exact (tracks_arguments h).bind hwhole
    · refine Tracks.punct_ite (fun j _ => ?_) fun _ => Tracks.pure hx
      refine tracks_fieldName.bind ?_
      rintro f _ k rfl
      refine (tracks_locationFrom start).bind ?_
      rintro l _ _ ⟨rfl, rfl⟩
      exact ih fun hclear => by rw [hx hclear]

theorem tracks_postfixed (h : SubTracks src sub sub') :
    TracksAlike src (postfixed src sub) (postfixed src.blanked sub') i := by
  refine tracks_tokenStart.bind ?_
  rintro start _ _ ⟨rfl, rfl, -⟩
  rw [rounds_blanked]
  exact (tracks_primary h).bind fun x x' j hx => tracks_postfixes h hx.1

theorem tracks_powerExpr (h : SubTracks src sub sub') :
    TracksAlike src (powerExpr src sub) (powerExpr src.blanked sub') i := by
  refine tracks_tokenStart.bind ?_
  rintro start _ _ ⟨rfl, rfl, -⟩
  refine (tracks_postfixed h).bind fun x x' j hx =>
    Tracks.punct_ite (fun k _ => ?_) fun _ => Tracks.pure hx
  refine (Tracks.inContext _ (h.power k)).bind fun y y' l hy => Tracks.located fun _ hclear => ?_
  rw [hx hclear, hy hclear]

theorem clear_of_operatorOf? {ops : List Operator} {op : Operator} {j : Nat} (hi : src.Clear i)
    (h : operatorOf? src ops i = some (op, j)) : src.Clear j := by
  simp only [operatorOf?, levelOperator?, Option.bind_eq_bind, Option.bind_eq_some_iff] at h
  obtain ⟨⟨t, k⟩, hpunct, op', -, hop⟩ := h
  split at hop
  · obtain ⟨-, rfl⟩ := Prod.mk.inj (Option.some.inj hop)
    exact hi.punct? hpunct
  · exact absurd hop (by simp)

theorem tracks_operands {operand operand' : Reading Expr} {ops : List Operator} {start fuel : Nat}
    {x x' : Expr} (h : ∀ j, TracksAlike src operand operand' j) (hx : Alike src x x') :
    TracksAlike src (operands src operand ops start fuel x) (operands src.blanked operand' ops start
      fuel x') i := by
  induction fuel generalizing i x x' with
  | zero => exact Tracks.failWith _
  | succ fuel ih =>
    refine Tracks.of_clear fun hi => tracks_get.bind ?_
    rintro _ _ _ ⟨rfl, rfl, rfl⟩
    simp only [src.punctAfter?_eq hi.1, src.blanked.punctAfter?_eq hi.le_blanked, hi.punct?_blanked,
      look_pure, pure_bind]
    cases hop : (src.punct? i).bind (levelOperator? ops) with
    | none => exact Tracks.pure hx
    | some r =>
      refine (Tracks.set (P := fun _ _ _ => True) (clear_of_operatorOf? hi hop) trivial).bind
        fun _ _ j _ => ?_
      refine (Tracks.inContext _ (h j)).bind fun y y' k hy => (tracks_locationFrom start).bind ?_
      rintro l _ _ ⟨rfl, rfl⟩
      exact ih fun hclear => by rw [hx hclear, hy hclear]

theorem tracks_binary (levels : List (List Operator)) (h : SubTracks src sub sub') :
    TracksAlike src (binary src sub levels) (binary src.blanked sub' levels) i := by
  induction levels generalizing i with
  | nil => exact tracks_powerExpr h
  | cons ops levels ih =>
    rw [binary, binary, rounds_blanked]
    refine tracks_tokenStart.bind ?_
    rintro start _ _ ⟨rfl, rfl, -⟩
    exact ih.bind fun x x' j hx => tracks_operands (fun k => ih) hx

/-! ### Patterns -/

theorem tracks_namePattern {start : Nat} {n : String} (h : SubTracks src sub sub')
    (hstart : src.Fixed start) (hlt : start < src.size) :
    TracksAlike src (namePattern src sub start n) (namePattern src.blanked sub' start n) i := by
  refine (tracks_locationFrom start).bind ?_
  rintro loc _ _ ⟨rfl, rfl⟩
  rw [Source.map_index hlt, Source.map_index (src.size_blanked.symm ▸ hlt), hstart.byte?,
    rounds_blanked]
  refine Tracks.ite (fun _ => Tracks.pure (Alike.refl _)) fun _ =>
    Tracks.punct_ite (fun j _ => ?_) fun _ => ?_
  · refine (tracks_closedList h.pattern).bind fun ps ps' k hps => Tracks.located fun _ hclear => ?_
    rw [alike_of_forall₂ hps.1 hclear]
  · exact Tracks.ite (fun _ => Tracks.pure (Alike.refl _)) fun _ => Tracks.pure (Alike.refl _)

theorem tracks_pattern (h : SubTracks src sub sub') :
    TracksAlike src (pattern src sub) (pattern src.blanked sub') i := by
  refine Tracks.of_clear fun hi => tracks_get.bind ?_
  rintro _ _ _ ⟨rfl, rfl, rfl⟩
  refine tracks_tokenStart.bind ?_
  rintro start _ _ ⟨rfl, rfl, hstart, -⟩
  simp only [src.nameAfter?_eq hstart.1.1, src.blanked.nameAfter?_eq hstart.1.le_blanked,
    hstart.1.name?_blanked, look_pure, pure_bind, rounds_blanked]
  cases hn : src.name? start with
  | some r =>
    have hbounds := src.name?_bounds hn hstart.1.1
    refine (Tracks.set (P := fun _ _ _ => True) (hstart.1.name? hn) trivial).bind fun _ _ j _ => ?_
    exact tracks_namePattern h hstart (Nat.lt_of_lt_of_le hbounds.1 hbounds.2)
  | none =>
    refine Tracks.punct_ite (fun j _ => ?_) fun hparen => ?_
    · refine (tracks_closedList h.pattern).bind fun ps ps' k hps =>
        Tracks.located fun _ hclear => ?_
      rw [alike_of_forall₂ hps.1 hclear]
    · refine (Tracks.inContext _ (tracks_primary h)).bind fun x x' j hx => ?_
      rw [hx.2 hparen]
      refine Tracks.ite (fun _ => Tracks.pure fun hclear => ?_) fun _ => tracks_unexpectedAt _ hi
      rw [hx.1 hclear]

/-! ### Statements -/

theorem tracks_assignHead (h : SubTracks src sub sub') :
    TracksSame src (assignHead src sub) (assignHead src.blanked sub') i := by
  refine tracks_name.bind ?_
  rintro n _ j rfl
  have hwhole : ∀ (t : Option TypeExpr) k, TracksSame src (do
      if ← punct src .equals then return some (n, t) else return none : Reading
        (Option (String × Option TypeExpr))) (do
      if ← punct src.blanked .equals then return some (n, t) else return none :
        Reading (Option (String × Option TypeExpr))) k :=
    fun t k => Tracks.punct_ite (fun l _ => Tracks.pure rfl) fun _ => Tracks.pure rfl
  refine Tracks.punct_ite (fun k _ => ?_) fun _ => hwhole none j
  refine (Tracks.map (Q := fun t t' _ => t = t') ((h.type k).mono fun t t' l ht => ?_)).bind ?_
  · rw [ht]
  · rintro t _ l rfl
    exact hwhole t l

theorem tracks_assignHead? (h : SubTracks src sub sub') :
    TracksSame src (assignHead? src sub) (assignHead? src.blanked sub') i := by
  intro hi
  obtain ⟨a, a', j, ha, ha', hj, rfl⟩ | ⟨⟨trail, cause⟩, he, he'⟩ := tracks_assignHead h hi
  · cases a with
    | none => exact .inl ⟨none, none,
      i, by simp only [assignHead?, ha], by simp only [assignHead?, ha'], hi, rfl⟩
    | some r => exact .inl ⟨some r, some r,
      j, by simp only [assignHead?, ha], by simp only [assignHead?, ha'], hj, rfl⟩
  · cases cause with
    | outside access =>
      exact .inr ⟨⟨trail, .outside access⟩, by simp only [assignHead?, he], by
        simp only [assignHead?, he']⟩
    | _ => exact .inl ⟨none, none,
      i, by simp only [assignHead?, he], by simp only [assignHead?, he'], hi, rfl⟩

theorem tracks_ifTail {start : Nat} (h : SubTracks src sub sub') :
    TracksAlike src (ifTail src sub start) (ifTail src.blanked sub' start) i := by
  refine (Tracks.inContext _ (h.expr i)).bind fun c c' j hc =>
    (Tracks.inContext _ (h.block j)).bind fun t t' k ht => ?_
  refine Tracks.keyword_ite (fun l => ?_)
    (Tracks.located fun _ hclear => by rw [hc hclear, ht hclear])
  have hwhole : ∀ (b b' : Block) m, Alike src b b' → TracksAlike src (do
      return Stmt.ifElse (← locationFrom src start) c t.loc t.stmts b.loc b.stmts) (do
      return Stmt.ifElse (← locationFrom src.blanked start) c' t'.loc t'.stmts b'.loc b'.stmts) m :=
    fun b b' m hb => Tracks.located fun _ hclear => by rw [hc hclear, ht hclear, hb hclear]
  refine Tracks.nextIsKeyword_ite ?_ ((Tracks.inContext _ (h.block l)).bind hwhole)
  exact (h.ifStmt l).bind fun s s' m hs =>
    hwhole ⟨s.loc, [s]⟩ ⟨s'.loc, [s']⟩ m fun hclear => by rw [hs hclear]

theorem tracks_ifStmt (h : SubTracks src sub sub') :
    TracksAlike src (ifStmt src sub) (ifStmt src.blanked sub') i := by
  refine tracks_tokenStart.bind ?_
  rintro start _ _ ⟨rfl, rfl, -⟩
  exact Tracks.keyword_ite (fun j => tracks_ifTail h) (tracks_unexpected _)

theorem tracks_returnTail {start : Nat} (h : SubTracks src sub sub') :
    TracksAlike src (returnTail src sub start) (returnTail src.blanked sub' start) i := by
  refine Tracks.punct_ite (fun j _ => Tracks.located fun _ => Alike.refl _) fun _ => ?_
  refine (Tracks.inContext _ (h.expr i)).bind fun x x' j hx =>
    (tracks_expect _).bind fun _ _ k _ => ?_
  exact Tracks.located fun _ hclear => by rw [hx hclear]

theorem tracks_useTail {start : Nat} (h : SubTracks src sub sub') :
    TracksAlike src (useTail src sub start) (useTail src.blanked sub' start) i := by
  refine (Tracks.inContext _ tracks_name).bind ?_
  rintro n _ j rfl
  refine (tracks_expect _).bind fun _ _ k _ =>
    (Tracks.inContext _ (h.expr k)).bind fun x x' l hx => ?_
  exact (tracks_expect _).bind fun _ _ m _ => Tracks.located fun _ hclear => by rw [hx hclear]

theorem tracks_stmt (h : SubTracks src sub sub') :
    TracksAlike src (stmt src sub) (stmt src.blanked sub') i := by
  refine tracks_tokenStart.bind ?_
  rintro start _ _ ⟨rfl, rfl, -⟩
  refine Tracks.keyword_ite (fun j => tracks_returnTail h)
    (Tracks.keyword_ite (fun j => tracks_useTail h) ?_)
  refine Tracks.keyword_ite (fun j => tracks_ifTail h) ((tracks_assignHead? h).bind ?_)
  rintro a _ j rfl
  cases a with
  | some r =>
    refine (Tracks.inContext _ (h.expr j)).bind fun x x' k hx =>
      (tracks_expect _).bind fun _ _ l _ => ?_
    exact Tracks.located fun _ hclear => by rw [hx hclear]
  | none =>
    refine (Tracks.inContext _ (h.expr j)).bind fun x x' k hx =>
      (tracks_expect _).bind fun _ _ l _ => ?_
    exact Tracks.located fun _ hclear => by rw [hx hclear]

theorem tracks_block (h : SubTracks src sub sub') :
    TracksAlike src (block src sub) (block src.blanked sub') i := by
  rw [block, block, rounds_blanked]
  refine tracks_tokenStart.bind ?_
  rintro start _ _ ⟨rfl, rfl, -⟩
  refine (tracks_expect _).bind fun _ _ j _ =>
    (tracks_manyUntil fun k => tracks_stmt h).bind fun ss ss' k hss => ?_
  exact Tracks.located fun _ hclear => by rw [alike_of_forall₂ hss hclear]

/-! ### Nesting -/

theorem tracks_rule (h : SubTracks src sub sub') :
    SubTracks src (rule src sub) (rule src.blanked sub') where
  type _ := tracks_typeExpr h
  expr _ := tracks_binary precedence h
  power _ := tracks_powerExpr h
  ifExpr _ := tracks_ifExpr h
  pattern _ := tracks_pattern h
  block _ := tracks_block h
  ifStmt _ := tracks_ifStmt h

theorem tracks_nested (fuel : Nat) : SubTracks src (nested src fuel) (nested src.blanked fuel) := by
  induction fuel with
  | zero =>
    exact ⟨fun _ => Tracks.failWith _, fun _ => Tracks.failWith _, fun _ => Tracks.failWith _,
      fun _ => Tracks.failWith _, fun _ => Tracks.failWith _, fun _ => Tracks.failWith _,
      fun _ => Tracks.failWith _⟩
  | succ fuel ih => exact tracks_rule ih

theorem tracks_tree : SubTracks src (tree src) (tree src.blanked) := by
  rw [tree, tree, src.size_blanked]
  exact tracks_nested _

/-! ### Definitions -/

theorem tracks_typeParams : TracksSame src (typeParams src) (typeParams src.blanked) i := by
  rw [typeParams, typeParams, rounds_blanked]
  refine Tracks.punct_ite (fun j _ => ?_) fun _ => Tracks.pure rfl
  refine (tracks_commaList fun k => Tracks.inContext _ tracks_name).bind fun ps ps' k hps => ?_
  refine tracks_closeAngle.bind fun _ _ l _ => Tracks.pure ?_
  rwa [List.forall₂_eq_eq_eq] at hps

theorem tracks_funcTail {start : Nat} :
    TracksAlike src (funcTail src start) (funcTail src.blanked start) i := by
  refine (Tracks.inContext _ tracks_name).bind ?_
  rintro n _ j rfl
  refine (Tracks.inContext _ (tracks_params tracks_tree)).bind ?_
  rintro ps _ k rfl
  have hwhole : ∀ (r : Option TypeExpr) l, TracksAlike src (do
      let body ← inContext ("func " ++ n) (tree src .block)
      return {
        loc := ← locationFrom src start, name := n, params := ps, ret := r, body,
        checked := false : FuncDef }) (do
      let body ← inContext ("func " ++ n) (tree src.blanked .block)
      return {
        loc := ← locationFrom src.blanked start, name := n, params := ps, ret := r, body,
        checked := false : FuncDef }) l := by
    intro r l
    refine (Tracks.inContext _ (tracks_tree.block l)).bind fun b b' m hb =>
      Tracks.located fun _ hclear => ?_
    rw [hb hclear]
  refine Tracks.punct_ite (fun l _ => ?_) fun _ => hwhole none k
  refine (Tracks.map (Q := fun t t' _ => t = t') ((Tracks.inContext _ (tracks_tree.type l)).mono
    fun t t' m ht => ?_)).bind ?_
  · rw [ht]
  · rintro r _ m rfl
    exact hwhole r m

theorem tracks_field : TracksSame src (field src) (field src.blanked) i := by
  refine tracks_tokenStart.bind ?_
  rintro start _ _ ⟨rfl, rfl, -⟩
  refine (Tracks.inContext _ tracks_name).bind ?_
  rintro n _ j rfl
  refine (tracks_expect _).bind fun _ _ k _ => (Tracks.inContext _ (tracks_tree.type k)).bind ?_
  rintro t _ l rfl
  exact Tracks.located fun _ => rfl

theorem tracks_fields {fuel : Nat} :
    TracksSame src (fields src fuel) (fields src.blanked fuel) i := by
  induction fuel generalizing i with
  | zero => exact Tracks.failWith _
  | succ fuel ih =>
    refine Tracks.nextIs_ite (Tracks.pure rfl) (Tracks.nextIsKeyword_ite (Tracks.pure rfl)
      (tracks_field.bind ?_))
    rintro f _ j rfl
    refine Tracks.punct_ite (fun k _ => ih.bind ?_) fun _ => Tracks.pure rfl
    rintro fs _ l rfl
    exact Tracks.pure rfl

theorem tracks_variant {owner : String} :
    TracksSame src (variant src owner) (variant src.blanked owner) i := by
  rw [variant, variant, rounds_blanked]
  refine tracks_tokenStart.bind ?_
  rintro start _ _ ⟨rfl, rfl, -⟩
  refine (Tracks.inContext _ tracks_name).bind ?_
  rintro n _ j rfl
  have hwhole : ∀ (fs : List Field) k, TracksSame src
      (do return { loc := ← locationFrom src start, name := n, fields := fs : Variant })
      (do return { loc := ← locationFrom src.blanked start, name := n, fields := fs : Variant })
      k :=
    fun fs k => Tracks.located fun _ => rfl
  refine Tracks.punct_ite (fun k _ => (Tracks.inContext _ tracks_fields).bind ?_) fun _ =>
    hwhole [] j
  rintro fs _ l rfl
  exact (tracks_expect _).bind fun _ _ m _ => hwhole fs m

theorem tracks_typeTail {start : Nat} :
    TracksSame src (typeTail src start) (typeTail src.blanked start) i := by
  rw [typeTail, typeTail, rounds_blanked]
  refine (Tracks.inContext _ tracks_name).bind ?_
  rintro n _ j rfl
  refine (Tracks.inContext _ tracks_typeParams).bind ?_
  rintro ps _ k rfl
  refine (tracks_expect _).bind fun _ _ l _ =>
    (tracks_closedList fun m => tracks_variant).bind fun vs vs' m hvs => ?_
  have hsame : vs = vs' := by
    have hall := hvs.1
    rwa [List.forall₂_eq_eq_eq] at hall
  subst hsame
  exact Tracks.located fun _ => rfl

/-- Members are functions, which are alike, or fields, which are the same. -/
theorem tracks_objectMembers :
    Tracks src (objectMembers src) (objectMembers src.blanked) i fun g g' _ =>
    g.1 = g'.1 ∧ List.Forall₂ (Alike src) g.2 g'.2 := by
  rw [objectMembers, objectMembers, rounds_blanked]
  refine tracks_tokenStart.bind ?_
  rintro start _ _ ⟨rfl, rfl, -⟩
  refine Tracks.keyword_ite (fun j => ?_) (tracks_fields.bind ?_)
  · exact tracks_funcTail.bind fun f f' k hf => Tracks.pure ⟨rfl, .cons hf .nil⟩
  · rintro fs _ j rfl
    exact Tracks.pure ⟨rfl, .nil⟩

theorem tracks_objectTail {start : Nat} :
    TracksAlike src (objectTail src start) (objectTail src.blanked start) i := by
  rw [objectTail, objectTail, rounds_blanked]
  refine (Tracks.inContext _ tracks_name).bind ?_
  rintro n _ j rfl
  refine (Tracks.inContext _ tracks_typeParams).bind ?_
  rintro ps _ k rfl
  have hgroup : ∀ m, TracksAlike src (do
      let g ← inContext ("object " ++ n) (objectMembers src)
      if g.1.isEmpty && g.2.isEmpty then unexpected src "field or fn" else return g) (do
      let g ← inContext ("object " ++ n) (objectMembers src.blanked)
      if g.1.isEmpty && g.2.isEmpty then unexpected src.blanked "field or fn" else return g) m := by
    intro m
    refine (Tracks.inContext _ tracks_objectMembers).bind fun g g' e hg => ?_
    have hempty : g'.2.isEmpty = g.2.isEmpty := by
      have hlength := hg.2.length_eq
      rw [Bool.eq_iff_iff, List.isEmpty_iff_length_eq_zero, List.isEmpty_iff_length_eq_zero,
        hlength]
    rw [← hg.1, hempty]
    refine Tracks.ite (fun _ => tracks_unexpected _) fun _ => Tracks.pure fun hclear => ?_
    exact Prod.ext hg.1.symm (alike_of_forall₂ hg.2 hclear)
  refine (tracks_expect _).bind fun _ _ l _ => (tracks_manyUntil hgroup).bind fun gs gs' m hgs => ?_
  exact Tracks.located fun _ hclear => by rw [alike_of_forall₂ hgs hclear]

/-- A semicolon that may be missing. -/
theorem tracks_semicolon {α : Type} {act act' : Reading α} {P : α → α → Nat → Prop}
    (h : ∀ j, Tracks src act act' j P) :
    Tracks src (do let _ ← punct src .semicolon; act)
      (do let _ ← punct src.blanked .semicolon; act') i P :=
  (tracks_punct _).bind fun _ _ j _ => h j

theorem tracks_aliasTail {start : Nat} :
    TracksSame src (aliasTail src start) (aliasTail src.blanked start) i := by
  refine (Tracks.inContext _ tracks_name).bind ?_
  rintro n _ j rfl
  refine (Tracks.inContext _ tracks_typeParams).bind ?_
  rintro ps _ k rfl
  refine (tracks_expect _).bind fun _ _ l _ => (Tracks.inContext _ (tracks_tree.type l)).bind ?_
  rintro t _ m rfl
  exact tracks_semicolon fun _ => Tracks.located fun _ => rfl

theorem tracks_member : TracksAlike src (member src) (member src.blanked) i := by
  refine tracks_tokenStart.bind ?_
  rintro start _ _ ⟨rfl, rfl, -⟩
  refine Tracks.keyword_ite (fun j => ?_)
    (Tracks.keyword_ite (fun j => ?_)
      (Tracks.keyword_ite (fun j => ?_) (Tracks.keyword_ite (fun j => ?_) (tracks_unexpected _))))
  · exact tracks_funcTail.bind fun d d' k hd => Tracks.pure fun hclear => by rw [hd hclear]
  · exact tracks_typeTail.bind fun d d' k hd => Tracks.pure fun _ => by rw [hd]
  · exact tracks_objectTail.bind fun d d' k hd => Tracks.pure fun hclear => by rw [hd hclear]
  · exact tracks_aliasTail.bind fun d d' k hd => Tracks.pure fun _ => by rw [hd]

theorem tracks_definition : TracksAlike src (definition src) (definition src.blanked) i := by
  refine tracks_tokenStart.bind ?_
  rintro start _ _ ⟨rfl, rfl, -⟩
  refine Tracks.keyword_ite (fun j => ?_) tracks_member
  rw [moduleTail, moduleTail, rounds_blanked]
  refine (Tracks.inContext _ tracks_name).bind ?_
  rintro n _ k rfl
  refine (tracks_expect _).bind fun _ _ l _ =>
    (tracks_manyUntil fun m => Tracks.inContext _ tracks_member).bind fun ds ds' m hds => ?_
  exact Tracks.located fun _ hclear => by rw [alike_of_forall₂ hds hclear]

theorem tracks_importTail {start : Nat} :
    TracksSame src (importTail src start) (importTail src.blanked start) i := by
  rw [importTail, importTail, rounds_blanked]
  refine (Tracks.inContext _ tracks_name).bind ?_
  rintro n _ j rfl
  have hwhole : ∀ (ns : List String) k, TracksSame src (do
      let _ ← punct src .semicolon
      return { loc := ← locationFrom src start, path := n, names := ns : Import }) (do
      let _ ← punct src.blanked .semicolon
      return { loc := ← locationFrom src.blanked start, path := n, names := ns : Import }) k :=
    fun ns k => tracks_semicolon fun _ => Tracks.located fun _ => rfl
  refine Tracks.punct_ite (fun k _ => ?_) fun _ => hwhole [] j
  refine (tracks_commaList fun l => Tracks.inContext _ tracks_name).bind fun ns ns' l hns =>
    (tracks_expect _).bind fun _ _ m _ => ?_
  rw [List.forall₂_eq_eq_eq] at hns
  subst hns
  exact hwhole ns m

theorem tracks_items {fuel : Nat} :
    TracksAlike src (items src fuel) (items src.blanked fuel) i := by
  induction fuel generalizing i with
  | zero => exact Tracks.failWith _
  | succ fuel ih =>
    rw [items, items, src.size_blanked]
    refine tracks_tokenStart.bind ?_
    rintro start _ _ ⟨rfl, rfl, -⟩
    refine Tracks.ite (fun _ => Tracks.pure (Alike.refl _)) fun _ =>
      Tracks.keyword_ite (fun j => ?_) ?_
    · refine tracks_importTail.bind ?_
      rintro d _ k rfl
      exact ih.bind fun p p' l hp => Tracks.pure fun hclear => by rw [hp hclear]
    · refine tracks_definition.bind fun d d' k hd =>
        ih.bind fun p p' l hp => Tracks.pure fun hclear => ?_
      rw [hd hclear, hp hclear]

end

end Reading

/-! ### Programs -/

/-- Comments are blanks: if a text reads as a program, then so does the text with a blank for every
byte of a comment. It is the same program, locations included, if before every closing parenthesis a
comma is seen in both texts or in neither. -/
theorem Program.parse_blanked {src : Source} {p : Program} (h : Program.parse src = .ok p) :
    ∃ q, Program.parse src.blanked = .ok q ∧ (src.CommasClear → q = p) := by
  obtain ⟨j, hj⟩ := Program.parse_eq_ok_iff.1 h
  have hitems : Reading.TracksAlike src (Reading.items src (Reading.rounds src))
    (Reading.items src.blanked (Reading.rounds src)) 0 :=
    Reading.tracks_items
  obtain ⟨a, a', k, ha, ha', -, halike⟩ | ⟨e, he, -⟩ := hitems Source.clear_zero
  · rw [hj] at ha
    obtain ⟨rfl, rfl⟩ := Prod.mk.inj (Except.ok.inj ha)
    refine ⟨a', Program.parse_eq_ok_iff.2 ⟨j, ?_⟩, halike⟩
    rw [Reading.rounds_blanked]
    exact ha'
  · rw [hj] at he
    exact absurd he (by simp)

/-- A comment before a closing parenthesis, and no comma. -/
def commentedSum : Source := { bytes := "fn f() \x7b return (1 # one\n); \x7d".toUTF8.data }

theorem Program.parse_blanked_commentedSum : ∃ p, Program.parse commentedSum = .ok p ∧
    ∃ q, Program.parse commentedSum.blanked = .ok q ∧ q = p := by
  have hok : (Program.parse commentedSum).isOk = true := by decide +kernel
  have hclear : commentedSum.CommasClear := by decide +kernel
  cases hparse : Program.parse commentedSum with
  | error e =>
    rw [hparse] at hok
    exact absurd hok (by simp [Except.isOk, Except.toBool])
  | ok p =>
    obtain ⟨q, hq, hsame⟩ := Program.parse_blanked hparse
    exact ⟨p, rfl, q, hq, hsame hclear⟩

/-- A comma, and then a comment before the closing parenthesis. -/
def commentedTuple : Source := { bytes := "fn f() \x7b return (1, # one\n); \x7d".toUTF8.data }

/-- The expressions that the functions of a program return. -/
def Program.returned (p : Program) : List Expr :=
  p.functions.flatMap fun f => f.func.body.stmts.filterMap fun
    | .ret _ x => x
    | _ => none

set_option maxRecDepth 4096 in
/-- The comma is not seen behind the comment, so the tuple is read as its only element. -/
theorem Program.parse_commentedTuple :
    (Program.parse commentedTuple).toOption.map Program.returned = some [.uint ⟨1, 18, 17, 18⟩ 1] ∧
    (Program.parse commentedTuple.blanked).toOption.map Program.returned =
      some [.tuple ⟨1, 17, 16, 27⟩ [.uint ⟨1, 18, 17, 18⟩ 1]] := by
  constructor
  · with_unfolding_all rfl
  · with_unfolding_all rfl

end FunRiscv
