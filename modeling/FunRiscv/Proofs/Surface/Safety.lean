import Mathlib
import FunRiscv.Surface.Reader.Definition
import FunRiscv.Proofs.Surface.Legible
import FunRiscv.Proofs.Surface.Positions

/-!
# Reading is safe

* `lands_nested`: every rule reads at least one byte, and nested parts are read at later positions.
  So the bound on nesting is never reached.
* `Source.locate_line`: the table of lines has an entry for every location.
* `Program.parse_lands`: every text reads as a program or gives an error that was looked up
  inside the text. The one look beyond its end is in a string that the end of the text breaks
  off after a backslash.
-/

namespace FunRiscv

namespace Reading

variable {src : Source} {sub : SubReader} {i : Nat}

/-! ### Literals -/

theorem lands_floatLiteral {start digits point stop : Nat} {negative : Bool}
    (hstart : start ≤ digits) (hdigits : digits ≤ point) (hpoint : point < stop)
    (hstop : stop ≤ src.size) (hi : i < stop) :
    Advances src (floatLiteral src start digits point stop negative) i := by
  rw [floatLiteral_inside hdigits hpoint hstop]
  refine Lands.ite (fun _ => Lands.failWith ?_) fun _ => ?_
  · exact ⟨start, digits, stop, _, hstart, by omega, rfl, Source.cut_eq (by omega) hstop, rfl⟩
  refine (Lands.set (P := fun _ k => stop = k) hstop rfl).bind ?_
  rintro _ _ rfl
  exact Lands.pure hi

theorem lands_intLiteral {start stop : Nat} {magnitude : Option Nat} {negative : Bool}
    (hstart : start < stop) (hstop : stop ≤ src.size) (hi : i < stop) :
    Advances src (intLiteral src start stop magnitude negative) i := by
  rw [intLiteral_inside (Nat.le_of_lt hstart) hstop]
  have hfail : Advances src
    (failWith (ReadCause.intRange (src.locate start stop) (Text.ofAscii (src.slice start stop))) :
      Reading Expr) i :=
    Lands.failWith ⟨start, stop, _, hstart, rfl, Source.cut_eq (Nat.le_of_lt hstart) hstop, rfl⟩
  cases magnitude with
  | none => exact hfail
  | some n =>
    refine Lands.ite (fun _ => hfail) fun _ =>
      (Lands.set (P := fun _ k => stop = k) hstop rfl).bind ?_
    rintro _ _ rfl
    exact Lands.pure hi

theorem lands_uintLiteral {start stop : Nat} {magnitude : Option Nat} (hstart : start < stop)
    (hstop : stop ≤ src.size) (hi : i < stop) :
    Advances src (uintLiteral src start stop magnitude) i := by
  rw [uintLiteral_inside (Nat.le_of_lt hstart) hstop]
  have hfail : Advances src
    (failWith (ReadCause.uintRange (src.locate start stop) (Text.ofAscii (src.slice start stop))) :
      Reading Expr) i :=
    Lands.failWith ⟨start, stop, _, hstart, rfl, Source.cut_eq (Nat.le_of_lt hstart) hstop, rfl⟩
  cases magnitude with
  | none => exact hfail
  | some n =>
    refine Lands.ite (fun _ => hfail) fun _ =>
      (Lands.set (P := fun _ k => stop = k) hstop rfl).bind ?_
    rintro _ _ rfl
    exact Lands.pure hi

/-- Where the digits of a number end, in either base, and what is made of them. -/
theorem number_cases {start digits : Nat} (hstart : start ≤ digits)
    (hdigit : (src.byte? digits).any isDigit = true) :
    ∃ (first stop : Nat) (magnitude : Option Nat), digits < stop ∧ stop ≤ src.size ∧
      number src start digits =
        if (first == digits && src.byte? stop == some 0x2e && (src.byte? (stop + 1)).any isDigit) =
        true then
        floatLiteral src start digits stop (src.skipWhile isDigit (stop + 1))
          (start != digits && src.byte? start == some 0x2d)
      else if (start != digits) = true then
        intLiteral src start stop magnitude (start != digits && src.byte? start == some 0x2d)
      else uintLiteral src start stop magnitude := by
  have hsize : digits ≤ src.size := Nat.le_of_lt (src.lt_size_of_any hdigit)
  rw [number_inside hstart (src.lt_size_of_any hdigit)]
  cases hhex : src.startsWith digits [0x30, 0x78] with
  | true =>
    have hlow := src.le_skipWhile isHexDigit (digits + 2)
    have hhigh : src.skipWhile isHexDigit (digits + 2) ≤ src.size :=
      src.skipWhile_le isHexDigit (src.startsWith_le hhex hsize)
    exact ⟨_, _, _, by omega, hhigh, by simp only [if_true]; rfl⟩
  | false =>
    exact ⟨_, _, _, src.lt_skipWhile hdigit, src.skipWhile_le isDigit hsize, by
      simp only [Bool.false_eq_true, if_false]; rfl⟩

/-- Where the digits after a point end. -/
theorem places_bounds {point : Nat} (h : (src.byte? (point + 1)).any isDigit = true) :
    point < src.skipWhile isDigit (point + 1) ∧ src.skipWhile isDigit (point + 1) ≤ src.size := by
  have hlow := src.le_skipWhile isDigit (point + 1)
  exact ⟨by omega, src.skipWhile_le isDigit (Nat.le_of_lt (src.lt_size_of_any h))⟩

/-- Whatever the digits of a number are, at least one byte of it is read and the end of the
text is respected. -/
theorem lands_number {start digits : Nat} (hi : i ≤ start) (hstart : start ≤ digits)
    (hdigit : (src.byte? digits).any isDigit = true) :
    Advances src (number src start digits) i := by
  obtain ⟨first, stop, magnitude, hlt, hle, heq⟩ := number_cases hstart hdigit
  rw [heq]
  refine Lands.ite (fun hpoint => ?_) fun _ => ?_
  · have hbounds := places_bounds (Bool.and_eq_true_iff.1 hpoint).2
    exact lands_floatLiteral hstart (by omega) (by omega) hbounds.2 (by omega)
  · exact Lands.ite (fun _ => lands_intLiteral (by omega) hle (by omega)) fun _ =>
      lands_uintLiteral (by omega) hle (by omega)

theorem lands_string {start : Nat} (hi : i ≤ start) (hquote : src.byte? start = some 0x22) :
    Advances src (string src start) i := by
  have hstart := src.lt_size_of_byte? hquote
  have hbounds := src.closingQuote_bounds (src.size + 1) (i := start + 1) (by omega)
  rw [string_inside hstart]
  refine Lands.ite (fun hbeyond => Lands.failWith ⟨?_, start, hquote, hbeyond⟩) fun _ => ?_
  · rw [show closingQuote src (src.size + 1) (start + 1) = src.size + 1 by omega]
  refine Lands.ite (fun hend => lands_unexpectedAt _ (by omega)) fun _ => ?_
  split
  · exact (Lands.set (P := fun _ k => i < k) (by omega) (by omega)).bind fun _ k hk => Lands.pure hk
  · exact Lands.failWith ⟨start, _, by omega, by omega, rfl⟩

/-! ### Nested parts -/

/-- The reader of nested parts reads at least one byte of any part from the given position on. -/
def SubAdvances (src : Source) (sub : SubReader) (low : Nat) : Prop :=
  ∀ k j, low ≤ j → Advances src (sub k) j

theorem SubAdvances.mono {low high : Nat} (h : SubAdvances src sub low) (hle : low ≤ high) :
    SubAdvances src sub high :=
  fun k j hj => h k j (by omega)

theorem fuel_lt (i : Nat) : src.size - i < rounds src := by
  rw [rounds]
  omega

/-- A location is all that is left to find. -/
theorem Lands.located {α : Type} {start : Nat} {f : Location → α} {P : α → Nat → Prop}
    (h : ∀ l, P (f l) i) : Lands src (locationFrom src start >>= fun l => Pure.pure (f l)) i P := by
  refine (lands_locationFrom start).bind ?_
  rintro l _ rfl
  exact Lands.pure (h l)

/-! ### Types and parameters -/

theorem lands_typeAtom (h : SubAdvances src sub (i + 1)) : Advances src (typeAtom src sub) i := by
  refine lands_tokenStart.bind ?_
  rintro start _ ⟨rfl, -⟩
  refine Lands.punct_ite (fun j hj => ?_) ?_
  · refine Lands.punct_ite (fun k hk => ?_) ?_
    · rw [pure_bind]
      exact Lands.located fun _ => by omega
    refine (lands_commaList (fun k hk => h .type k (by omega)) (fuel_lt j)).bind fun ts k hk =>
      (lands_expect _).bind fun _ e he => ?_
    rw [pure_bind]
    -- One type in parentheses is that type.
    rcases ts with _ | ⟨t, _ | ⟨t', ts⟩⟩
    · exact Lands.located fun _ => by omega
    · exact Lands.pure (by omega)
    · exact Lands.located fun _ => by omega
  · refine (Lands.inContext _ lands_name).bind fun n j hj => ?_
    have hwhole : ∀ (ts : List TypeExpr) k, j ≤ k →
      Lands src (do return TypeExpr.name (← locationFrom src start) n ts) k fun _ e => i < e :=
      fun ts k hk => Lands.located fun _ => by omega
    refine Lands.punct_ite (fun k hk => ?_) (hwhole [] j le_rfl)
    refine (lands_commaList (fun l hl => h .type l (by omega)) (fuel_lt k)).bind fun ts l hl => ?_
    exact lands_closeAngle.bind fun _ e he => hwhole ts e (by omega)

theorem lands_typeExpr (h : SubAdvances src sub (i + 1)) : Advances src (typeExpr src sub) i := by
  refine lands_tokenStart.bind ?_
  rintro start _ ⟨rfl, -⟩
  refine (lands_typeAtom h).bind fun t j hj => Lands.punct_ite (fun k hk => ?_) (Lands.pure hj)
  exact (Lands.inContext _ (h .type k (by omega))).bind fun r l hl =>
    Lands.located fun _ => by omega

theorem lands_param (h : SubAdvances src sub (i + 1)) : Advances src (param src sub) i := by
  refine lands_tokenStart.bind ?_
  rintro start _ ⟨rfl, -⟩
  refine (Lands.inContext _ lands_name).bind fun n j hj => ?_
  have hwhole : ∀ (t : Option TypeExpr) k, j ≤ k →
      Lands src (do return { loc := ← locationFrom src start, name := n, type := t : Param }) k
        fun _ e => i < e :=
    fun t k hk => Lands.located fun _ => by omega
  refine Lands.punct_ite (fun k hk => ?_) (hwhole none j le_rfl)
  exact (Lands.map (Q := fun _ l => k < l) (Lands.inContext _ (h .type k (by omega)))).bind
    fun t l hl => hwhole t l (by omega)

theorem lands_params (h : SubAdvances src sub (i + 1)) : Advances src (params src sub) i := by
  refine (lands_expect _).bind fun _ j hj => Lands.punct_ite (fun k hk => Lands.pure (by omega)) ?_
  refine (lands_commaList (fun k hk => lands_param (h.mono (by omega))) (fuel_lt j)).bind
    fun ps k hk => ?_
  exact (lands_expect _).bind fun _ l hl => Lands.pure (by omega)

/-! ### Expressions -/

theorem lands_parenthesised {start : Nat} (h : SubAdvances src sub i) :
    Advances src (parenthesised src sub start) i := by
  refine (lands_closedList (fun j hj => h .expr j hj) (fuel_lt i)).bind fun es j hj => ?_
  have htuple : Lands src (do return Expr.tuple (← locationFrom src start) es) j fun _ k => i < k :=
    Lands.located fun _ => hj
  split
  · refine Lands.of_le fun hsize => lands_get.bind ?_
    rintro _ _ ⟨rfl, rfl⟩
    rw [closesAfterComma_eq hsize, look_pure, pure_bind]
    exact Lands.ite (fun _ => htuple) fun _ => Lands.pure hj
  · exact htuple

theorem lands_braced (h : SubAdvances src sub i) : Advances src (braced src sub) i :=
  (lands_expect _).bind fun _ j hj =>
    (h .expr j (by omega)).bind fun _ k hk => (lands_expect _).bind fun _ l hl =>
    Lands.pure (by omega)

theorem lands_lambda {start : Nat} (h : SubAdvances src sub i) :
    Advances src (lambda src sub start) i := by
  refine (Lands.inContext _ (lands_params (h.mono (by omega)))).bind fun ps j hj =>
    (lands_expect _).bind fun _ k hk => ?_
  refine (Lands.inContext _ (h .expr k (by omega))).bind fun b l hl =>
    (lands_expect _).bind fun _ e he => ?_
  exact Lands.located fun _ => by omega

theorem lands_ifExprTail {start : Nat} (h : SubAdvances src sub i) :
    Advances src (ifExprTail src sub start) i := by
  refine (Lands.inContext _ (h .expr i le_rfl)).bind fun c j hj => ?_
  refine (Lands.inContext _ (lands_braced (h.mono (by omega)))).bind fun t k hk => ?_
  refine Lands.keyword_ite (fun l hl => ?_) (lands_unexpected _)
  have helse : Advances src (do if ← nextIsKeyword src "if" then sub .ifExpr else braced src sub)
    l :=
    Lands.nextIsKeyword_ite (h .ifExpr l (by omega)) (lands_braced (h.mono (by omega)))
  exact (Lands.inContext _ helse).bind fun e m hm => Lands.located fun _ => by omega

theorem lands_ifExpr (h : SubAdvances src sub (i + 1)) : Advances src (ifExpr src sub) i := by
  refine lands_tokenStart.bind ?_
  rintro start _ ⟨rfl, -⟩
  exact Lands.keyword_ite
    (fun j hj => (lands_ifExprTail (h.mono (by omega))).mono fun _ k hk => by omega)
    (lands_unexpected _)

theorem lands_matchCase (h : SubAdvances src sub i) : Advances src (matchCase src sub) i := by
  refine lands_tokenStart.bind ?_
  rintro start _ ⟨rfl, -⟩
  refine (Lands.inContext _ (h .pattern i le_rfl)).bind fun p j hj =>
    (lands_expect _).bind fun _ k hk => ?_
  exact (Lands.inContext _ (h .expr k (by omega))).bind fun e l hl =>
    Lands.located fun _ => by omega

theorem lands_matchTail {start : Nat} (h : SubAdvances src sub i) :
    Advances src (matchTail src sub start) i := by
  refine (Lands.inContext _ (h .expr i le_rfl)).bind fun x j hj =>
    (lands_expect _).bind fun _ k hk => ?_
  refine (lands_closedList (fun l hl => lands_matchCase (h.mono (by omega))) (fuel_lt k)).bind
    fun cs l hl => ?_
  exact Lands.located fun _ => by omega

theorem lands_wordExpr {start stop : Nat} {w : String} (h : SubAdvances src sub (i + 1))
    (hi : i ≤ start) (hstart : start < stop) (hstop : stop ≤ src.size) :
    Advances src (wordExpr src sub start w stop) i := by
  refine (Lands.set (P := fun _ k => stop = k) hstop rfl).bind ?_
  rintro _ _ rfl
  have hsub : SubAdvances src sub stop := h.mono (by omega)
  have hmore : ∀ {act : Reading Expr}, Advances src act stop →
    Lands src act stop fun _ e => i < e :=
    fun hact => hact.mono fun _ e he => by omega
  refine Lands.ite (fun _ => Lands.pure (by omega)) fun _ =>
    Lands.ite (fun _ => Lands.pure (by omega)) fun _ => ?_
  refine Lands.ite (fun _ => hmore (lands_lambda hsub)) fun _ =>
    Lands.ite (fun _ => hmore (lands_ifExprTail hsub)) fun _ => ?_
  refine Lands.ite (fun _ => hmore (lands_matchTail hsub)) fun _ => ?_
  exact Lands.ite (fun _ => lands_unexpectedAt _ (by omega)) fun _ => Lands.pure (by omega)

theorem lands_punctExpr {start : Nat} (h : SubAdvances src sub (i + 1)) :
    Advances src (punctExpr src sub start) i := by
  refine Lands.punct_ite (fun j hj => Lands.located fun _ => hj)
    (Lands.punct_ite (fun j hj => ?_) ?_)
  · exact (lands_parenthesised (h.mono hj)).mono fun _ k hk => by omega
  · refine Lands.punct_ite (fun j hj => ?_) (lands_unexpected _)
    refine (lands_closedList (fun k hk => h .expr k (by omega)) (fuel_lt j)).bind fun es k hk => ?_
    exact Lands.located fun _ => by omega

theorem lands_primary (h : SubAdvances src sub (i + 1)) : Advances src (primary src sub) i := by
  refine lands_tokenStart.bind ?_
  rintro start _ ⟨rfl, hle, hsize⟩
  rw [primaryAt_inside hsize]
  cases hb : src.byte? start with
  | none => exact lands_unexpectedAt _ hsize
  | some b =>
    refine Lands.ite (fun hdigit => lands_number hle le_rfl (by simpa [hb] using hdigit)) fun _ =>
      ?_
    refine Lands.ite
      (fun hsign => lands_number hle (Nat.le_succ _) (Bool.and_eq_true_iff.1 hsign).2) fun _ => ?_
    refine Lands.ite (fun hquote => lands_string hle (by rw [hb, beq_iff_eq.1 hquote])) fun _ => ?_
    cases hw : src.word? start with
    | none => exact lands_punctExpr h
    | some r =>
      have hbounds := src.word?_bounds hw
      exact lands_wordExpr h hle hbounds.1 hbounds.2

theorem lands_namedArg? (h : SubAdvances src sub i) :
    Lands src (namedArg? src sub) i fun a j => if a.isSome then i < j else i = j := by
  refine lands_tokenStart.bind ?_
  rintro start _ ⟨rfl, hle, hsize⟩
  rw [src.nameAfter?_eq hsize, look_pure, pure_bind]
  cases hn : src.name? start with
  | none => exact Lands.pure rfl
  | some r =>
    obtain ⟨n, stop⟩ := r
    have hname := src.name?_bounds hn hsize
    dsimp only
    rw [src.punctAfter?_eq hname.2, look_pure, pure_bind]
    split
    · rename_i j hj
      have hpunct := src.punct?_bounds hj hname.2
      refine (Lands.set (P := fun _ k => j = k) hpunct.2 rfl).bind ?_
      rintro _ _ rfl
      refine (Lands.inContext _ (h .expr _ (by omega))).bind fun x l hl => Lands.located fun _ => ?_
      show _ < _
      omega
    · exact Lands.pure rfl

theorem lands_arguments {fuel : Nat} {named : Bool} (h : SubAdvances src sub i)
    (hfuel : src.size - i < fuel) : Advances src (arguments src sub fuel named) i := by
  induction fuel generalizing i named with
  | zero => omega
  | succ fuel ih =>
    have hmore : ∀ (named : Bool) j, i < j → j ≤ src.size →
      Advances src (arguments src sub fuel named) j :=
      fun named j hj hsize => ih (h.mono (by omega)) (by omega)
    refine (lands_namedArg? h).bind fun a j hj => ?_
    cases a with
    | some a =>
      have hlt : i < j := hj
      refine Lands.punct_ite (fun k hk => Lands.of_le fun hsize => ?_) ?_
      · exact (hmore true k (by omega) hsize).bind fun r l hl => Lands.pure (by omega)
      · exact (lands_expect _).bind fun _ l hl => Lands.pure (by omega)
    | none =>
      obtain rfl : i = j := hj
      refine Lands.ite (fun _ => lands_unexpected _) fun _ => ?_
      refine (Lands.inContext _ (h .expr i le_rfl)).bind fun x k hk =>
        Lands.punct_ite (fun l hl => Lands.of_le fun hsize => ?_) ?_
      · exact (hmore false l (by omega) hsize).bind fun r m hm => Lands.pure (by omega)
      · exact (lands_expect _).bind fun _ l hl => Lands.pure (by omega)

theorem lands_fieldName : Advances src (fieldName src) i := by
  refine lands_tokenStart.bind ?_
  rintro start _ ⟨rfl, hle, hsize⟩
  rw [src.wordAt?_eq hsize, look_pure, pure_bind]
  cases hw : src.word? start with
  | some r =>
    have hbounds := src.word?_bounds hw
    exact (Lands.set (P := fun _ k => i < k) hbounds.2 (by omega)).bind fun _ k hk => Lands.pure hk
  | none =>
    have hlow := src.le_skipWhile isDigit start
    have hhigh := src.skipWhile_le isDigit hsize
    dsimp only
    rw [src.pass_eq, look_pure, pure_bind, Source.cut_eq hlow hhigh, look_pure, pure_bind]
    refine Lands.ite (fun _ => lands_unexpectedAt _ hsize) fun hne => ?_
    exact (Lands.set (P := fun _ k => i < k) hhigh (by omega)).bind fun _ k hk => Lands.pure hk

theorem lands_postfixes {start fuel : Nat} {x : Expr} (h : SubAdvances src sub i)
    (hfuel : src.size - i < fuel) :
    Lands src (postfixes src sub start fuel x) i fun _ j => i ≤ j := by
  induction fuel generalizing i x with
  | zero => omega
  | succ fuel ih =>
    have hmore : ∀ (x : Expr) j, i < j →
      Lands src (postfixes src sub start fuel x) j fun _ k => i ≤ k :=
      fun x j hj =>
        Lands.of_le fun hsize => (ih (h.mono (by omega)) (by omega)).mono fun _ k hk => by omega
    refine Lands.punct_ite (fun j hj => ?_) ?_
    · have hwhole : ∀ (r : List Expr × List NamedArg) k, j ≤ k → Lands src (do
          let call := Expr.call (← locationFrom src start) x r.1 r.2
          postfixes src sub start fuel call) k fun _ e => i ≤ e := by
        intro r k hk
        refine (lands_locationFrom start).bind ?_
        rintro l _ rfl
        exact hmore _ _ (by omega)
      refine Lands.punct_ite (fun k hk => hwhole ([], []) k (by omega)) ?_
      exact (lands_arguments (h.mono (by omega)) (fuel_lt j)).bind fun r k hk =>
        hwhole r k (by omega)
    · refine Lands.punct_ite (fun j hj => ?_) (Lands.pure le_rfl)
      refine lands_fieldName.bind fun f k hk => (lands_locationFrom start).bind ?_
      rintro l _ rfl
      exact hmore _ _ (by omega)

theorem lands_postfixed (h : SubAdvances src sub (i + 1)) : Advances src (postfixed src sub) i := by
  refine lands_tokenStart.bind ?_
  rintro start _ ⟨rfl, -⟩
  refine (lands_primary h).bind fun x j hj => ?_
  exact (lands_postfixes (h.mono hj) (fuel_lt j)).mono fun _ k hk => by omega

theorem lands_powerExpr (h : SubAdvances src sub (i + 1)) : Advances src (powerExpr src sub) i := by
  refine lands_tokenStart.bind ?_
  rintro start _ ⟨rfl, -⟩
  refine (lands_postfixed h).bind fun x j hj => Lands.punct_ite (fun k hk => ?_) (Lands.pure hj)
  exact (Lands.inContext _ (h .power k (by omega))).bind fun y l hl =>
    Lands.located fun _ => by omega

theorem operatorOf?_bounds {ops : List Operator} {op : Operator} {j : Nat}
    (h : operatorOf? src ops i = some (op, j)) (hi : i ≤ src.size) : i < j ∧ j ≤ src.size := by
  rw [operatorOf?] at h
  simp only [levelOperator?, Option.bind_eq_bind, Option.bind_eq_some_iff] at h
  obtain ⟨⟨t, k⟩, hpunct, op', -, hop⟩ := h
  split at hop
  · obtain ⟨-, rfl⟩ := Prod.mk.inj (Option.some.inj hop)
    exact src.punct?_bounds hpunct hi
  · exact absurd hop (by simp)

theorem lands_operands {operand : Reading Expr} {ops : List Operator} {start fuel : Nat} {x : Expr}
    (h : ∀ j, i < j → Advances src operand j) (hfuel : src.size - i < fuel) :
    Lands src (operands src operand ops start fuel x) i fun _ j => i ≤ j := by
  induction fuel generalizing i x with
  | zero => omega
  | succ fuel ih =>
    refine Lands.of_le fun hi => lands_get.bind ?_
    rintro _ _ ⟨rfl, rfl⟩
    rw [src.punctAfter?_eq hi, look_pure, pure_bind, ← operatorOf?]
    split
    · exact Lands.pure le_rfl
    · rename_i op j hop
      have hbounds := operatorOf?_bounds hop hi
      refine (Lands.set (P := fun _ k => j = k) hbounds.2 rfl).bind ?_
      rintro _ _ rfl
      refine (Lands.inContext _ (h _ hbounds.1)).bind fun y k hk =>
        (lands_locationFrom start).bind ?_
      rintro l _ rfl
      exact Lands.of_le fun hsize =>
        (ih (fun m hm => h m (by omega)) (by omega)).mono fun _ m hm => by omega

theorem lands_binary (levels : List (List Operator)) (h : SubAdvances src sub (i + 1)) :
    Advances src (binary src sub levels) i := by
  induction levels generalizing i with
  | nil => exact lands_powerExpr h
  | cons ops levels ih =>
    refine lands_tokenStart.bind ?_
    rintro start _ ⟨rfl, -⟩
    refine (ih h).bind fun x j hj => ?_
    exact (lands_operands (fun k hk => ih (h.mono (by omega))) (fuel_lt j)).mono
      fun _ k hk => by omega

/-! ### Patterns -/

theorem lands_namePattern {start : Nat} {n : String} (h : SubAdvances src sub i)
    (hstart : start < src.size) : Lands src (namePattern src sub start n) i fun _ j => i ≤ j := by
  refine (lands_locationFrom start).bind ?_
  rintro loc _ rfl
  refine Lands.ite (fun _ => Lands.pure le_rfl) fun _ => Lands.punct_ite (fun j hj => ?_) ?_
  · refine (lands_closedList (fun k hk => h .pattern k (by omega)) (fuel_lt j)).bind fun ps k hk =>
      ?_
    exact Lands.located fun _ => by omega
  · rw [Source.map_index hstart, look_pure, pure_bind]
    exact Lands.ite (fun _ => Lands.pure le_rfl) fun _ => Lands.pure le_rfl

theorem lands_pattern (h : SubAdvances src sub (i + 1)) : Advances src (pattern src sub) i := by
  refine Lands.of_le fun hi => lands_get.bind ?_
  rintro here _ ⟨rfl, rfl⟩
  refine lands_tokenStart.bind ?_
  rintro start _ ⟨rfl, hle, hsize⟩
  rw [src.nameAfter?_eq hsize, look_pure, pure_bind]
  cases hn : src.name? start with
  | some r =>
    have hbounds := src.name?_bounds hn hsize
    refine (Lands.set (P := fun _ k => r.2 = k) hbounds.2 rfl).bind ?_
    rintro _ _ rfl
    exact (lands_namePattern (h.mono (by omega)) (by omega)).mono fun _ k hk => by omega
  | none =>
    refine Lands.punct_ite (fun j hj => ?_) ?_
    · refine (lands_closedList (fun k hk => h .pattern k (by omega)) (fuel_lt j)).bind
        fun ps k hk => ?_
      exact Lands.located fun _ => by omega
    · refine (Lands.inContext _ (lands_primary h)).bind fun x j hj => ?_
      exact Lands.ite (fun _ => Lands.pure hj) fun _ => lands_unexpectedAt _ hi

/-! ### Statements -/

theorem lands_assignHead? (h : SubAdvances src sub i) :
    Lands src (assignHead? src sub) i fun _ j => i ≤ j := by
  have hhead : Lands src (assignHead src sub) i fun _ j => i ≤ j := by
    refine lands_name.bind fun n j hj => ?_
    have hwhole : ∀ (t : Option TypeExpr) k, j ≤ k → Lands src (do
        if ← punct src .equals then return some (n, t) else return none :
          Reading (Option (String × Option TypeExpr))) k fun _ e => i ≤ e :=
      fun t k hk => Lands.punct_ite (fun l hl => Lands.pure (by omega)) (Lands.pure (by omega))
    refine Lands.punct_ite (fun k hk => ?_) (hwhole none j le_rfl)
    exact (Lands.map (Q := fun _ l => k < l) (h .type k (by omega))).bind fun t l hl =>
      hwhole t l (by omega)
  intro hi
  have hbounds := hhead hi
  generalize hout : assignHead? src sub i = out
  rw [assignHead?] at hout
  split at hout
  · rename_i a j hj
    rw [hj] at hbounds
    rw [← hout]
    exact hbounds
  · rename_i trail access houtside
    rw [houtside] at hbounds
    rw [← hout]
    exact hbounds
  · rw [← hout]
    exact ⟨hi, le_rfl⟩

theorem lands_ifTail {start : Nat} (h : SubAdvances src sub i) :
    Advances src (ifTail src sub start) i := by
  refine (Lands.inContext _ (h .expr i le_rfl)).bind fun c j hj => ?_
  refine (Lands.inContext _ (h .block j (by omega))).bind fun t k hk => ?_
  refine Lands.keyword_ite (fun l hl => ?_) (Lands.located fun _ => by omega)
  have hwhole : ∀ (b : Block) m, l ≤ m → Lands src (do
      return Stmt.ifElse (← locationFrom src start) c t.loc t.stmts b.loc b.stmts) m fun _ e =>
        i < e :=
    fun b m hm => Lands.located fun _ => by omega
  refine Lands.nextIsKeyword_ite ?_ ?_
  · exact (h .ifStmt l (by omega)).bind fun s m hm => hwhole ⟨s.loc, [s]⟩ m (by omega)
  · exact (Lands.inContext _ (h .block l (by omega))).bind fun b m hm => hwhole b m (by omega)

theorem lands_ifStmt (h : SubAdvances src sub (i + 1)) : Advances src (ifStmt src sub) i := by
  refine lands_tokenStart.bind ?_
  rintro start _ ⟨rfl, -⟩
  exact Lands.keyword_ite (fun j hj => (lands_ifTail (h.mono hj)).mono fun _ k hk => by omega)
    (lands_unexpected _)

theorem lands_returnTail {start : Nat} (h : SubAdvances src sub i) :
    Advances src (returnTail src sub start) i := by
  refine Lands.punct_ite (fun j hj => Lands.located fun _ => hj) ?_
  refine (Lands.inContext _ (h .expr i le_rfl)).bind fun x j hj =>
    (lands_expect _).bind fun _ k hk => ?_
  exact Lands.located fun _ => by omega

theorem lands_useTail {start : Nat} (h : SubAdvances src sub i) :
    Advances src (useTail src sub start) i := by
  refine (Lands.inContext _ lands_name).bind fun n j hj => (lands_expect _).bind fun _ k hk => ?_
  refine (Lands.inContext _ (h .expr k (by omega))).bind fun x l hl =>
    (lands_expect _).bind fun _ m hm => ?_
  exact Lands.located fun _ => by omega

theorem lands_stmt (h : SubAdvances src sub i) : Advances src (stmt src sub) i := by
  refine lands_tokenStart.bind ?_
  rintro start _ ⟨rfl, -⟩
  have hmore : ∀ {j : Nat} {act : Reading Stmt}, i < j → Advances src act j →
    Lands src act j fun _ k => i < k :=
    fun hj hact => hact.mono fun _ k hk => by omega
  refine Lands.keyword_ite (fun j hj => hmore hj (lands_returnTail (h.mono (by omega)))) ?_
  refine Lands.keyword_ite (fun j hj => hmore hj (lands_useTail (h.mono (by omega)))) ?_
  refine Lands.keyword_ite (fun j hj => hmore hj (lands_ifTail (h.mono (by omega)))) ?_
  refine (lands_assignHead? h).bind fun a j hj => ?_
  cases a with
  | some a =>
    refine (Lands.inContext _ (h .expr j hj)).bind fun x k hk =>
      (lands_expect _).bind fun _ l hl => ?_
    exact Lands.located fun _ => by omega
  | none =>
    refine (Lands.inContext _ (h .expr j hj)).bind fun x k hk =>
      (lands_expect _).bind fun _ l hl => ?_
    exact Lands.located fun _ => by omega

theorem lands_block (h : SubAdvances src sub (i + 1)) : Advances src (block src sub) i := by
  refine lands_tokenStart.bind ?_
  rintro start _ ⟨rfl, -⟩
  refine (lands_expect _).bind fun _ j hj => ?_
  refine (lands_manyUntil (fun k hk => lands_stmt (h.mono (by omega))) (fuel_lt j)).bind
    fun ss k hk => ?_
  exact Lands.located fun _ => by omega

/-! ### Nesting -/

theorem lands_rule (h : SubAdvances src sub (i + 1)) (k : Nonterminal) :
    Advances src (rule src sub k) i := by
  cases k with
  | type => exact lands_typeExpr h
  | expr => exact lands_binary precedence h
  | power => exact lands_powerExpr h
  | ifExpr => exact lands_ifExpr h
  | pattern => exact lands_pattern h
  | block => exact lands_block h
  | ifStmt => exact lands_ifStmt h

/-- What is left of the text bounds how deep parts can nest. -/
theorem lands_nested {fuel : Nat} (hfuel : src.size - i < fuel) (k : Nonterminal) :
    Advances src (nested src fuel k) i := by
  induction fuel generalizing i k with
  | zero => omega
  | succ fuel ih =>
    refine lands_rule (fun l j hj => Lands.of_le fun hsize => ?_) k
    exact ih (by omega) l

theorem lands_tree (low : Nat) : SubAdvances src (tree src) low :=
  fun k _ _ => lands_nested (by omega) k

/-! ### Definitions -/

theorem lands_typeParams : Lands src (typeParams src) i fun _ j => i ≤ j := by
  refine Lands.punct_ite (fun j hj => ?_) (Lands.pure le_rfl)
  refine (lands_commaList (fun k _ => Lands.inContext _ lands_name) (fuel_lt j)).bind fun ps k hk =>
    ?_
  exact lands_closeAngle.bind fun _ l hl => Lands.pure (by omega)

theorem lands_funcTail {start : Nat} : Advances src (funcTail src start) i := by
  refine (Lands.inContext _ lands_name).bind fun n j hj => ?_
  refine (Lands.inContext _ (lands_params (lands_tree _))).bind fun ps k hk => ?_
  have hwhole : ∀ (r : Option TypeExpr) l, k ≤ l → Lands src (do
      let body ← inContext ("func " ++ n) (tree src .block)
      return {
        loc := ← locationFrom src start, name := n, params := ps, ret := r, body,
        checked := false : FuncDef }) l
        fun _ e => i < e := by
    intro r l hl
    exact (Lands.inContext _ (lands_tree l .block l le_rfl)).bind fun b m hm =>
      Lands.located fun _ => by omega
  refine Lands.punct_ite (fun l hl => ?_) (hwhole none k le_rfl)
  exact (Lands.map (Q := fun _ m => l < m) (Lands.inContext _ (lands_tree l .type l le_rfl))).bind
    fun r m hm =>
    hwhole r m (by omega)

theorem lands_field : Advances src (field src) i := by
  refine lands_tokenStart.bind ?_
  rintro start _ ⟨rfl, -⟩
  refine (Lands.inContext _ lands_name).bind fun n j hj => (lands_expect _).bind fun _ k hk => ?_
  exact (Lands.inContext _ (lands_tree k .type k le_rfl)).bind fun t l hl =>
    Lands.located fun _ => by omega

/-- Fields may be missing; then nothing is read. -/
theorem lands_fields {fuel : Nat} (hfuel : src.size - i < fuel) :
    Lands src (fields src fuel) i fun fs j => i ≤ j ∧ (fs ≠ [] → i < j) := by
  induction fuel generalizing i with
  | zero => omega
  | succ fuel ih =>
    refine Lands.nextIs_ite (Lands.pure (by simp))
      (Lands.nextIsKeyword_ite (Lands.pure (by simp)) ?_)
    refine lands_field.bind fun f j hj => Lands.punct_ite (fun k hk => Lands.of_le fun hsize => ?_)
      (Lands.pure ?_)
    · exact (ih (by omega)).bind fun fs l hl => Lands.pure ⟨by omega, fun _ => by omega⟩
    · exact ⟨by omega, fun _ => hj⟩

theorem lands_variant {owner : String} : Advances src (variant src owner) i := by
  refine lands_tokenStart.bind ?_
  rintro start _ ⟨rfl, -⟩
  refine (Lands.inContext _ lands_name).bind fun n j hj => ?_
  have hwhole : ∀ (fs : List Field) k, j ≤ k → Lands src (do
      return { loc := ← locationFrom src start, name := n, fields := fs : Variant }) k fun _ e =>
        i < e :=
    fun fs k hk => Lands.located fun _ => by omega
  refine Lands.punct_ite (fun k hk => ?_) (hwhole [] j le_rfl)
  refine (Lands.inContext _ (lands_fields (fuel_lt k))).bind fun fs l hl => ?_
  exact (lands_expect _).bind fun _ m hm => hwhole fs m (by omega)

theorem lands_typeTail {start : Nat} : Advances src (typeTail src start) i := by
  refine (Lands.inContext _ lands_name).bind fun n j hj =>
    (Lands.inContext _ lands_typeParams).bind fun ps k hk => ?_
  refine (lands_expect _).bind fun _ l hl =>
    (lands_closedList (fun _ _ => lands_variant) (fuel_lt l)).bind fun vs m hm => ?_
  exact Lands.located fun _ => by omega

theorem lands_objectMembers :
    Lands src (objectMembers src) i fun g j => i ≤ j ∧ (g.1 ≠ [] ∨ g.2 ≠ [] → i < j) := by
  refine lands_tokenStart.bind ?_
  rintro start _ ⟨rfl, -⟩
  refine Lands.keyword_ite (fun j hj => ?_) ?_
  · exact lands_funcTail.bind fun f k hk => Lands.pure ⟨by omega, fun _ => by omega⟩
  · refine (lands_fields (fuel_lt i)).bind fun fs j hj => Lands.pure ⟨hj.1, fun hne => hj.2 ?_⟩
    simpa using hne

/-- A group that reads nothing is empty, and then it is an error. -/
theorem lands_group {n : String} : Advances src (do
    let g ← inContext ("object " ++ n) (objectMembers src)
    if g.1.isEmpty && g.2.isEmpty then unexpected src "field or fn" else return g) i := by
  refine (Lands.inContext _ lands_objectMembers).bind fun g j hj => ?_
  refine Lands.ite (fun _ => lands_unexpected _) fun hne => Lands.pure (hj.2 ?_)
  by_contra hempty
  simp only [not_or, not_not] at hempty
  simp [hempty] at hne

theorem lands_objectTail {start : Nat} : Advances src (objectTail src start) i := by
  refine (Lands.inContext _ lands_name).bind fun n j hj =>
    (Lands.inContext _ lands_typeParams).bind fun ps k hk => ?_
  refine (lands_expect _).bind fun _ l hl =>
    (lands_manyUntil (fun _ _ => lands_group) (fuel_lt l)).bind fun gs m hm => ?_
  exact Lands.located fun _ => by omega

theorem lands_aliasTail {start : Nat} : Advances src (aliasTail src start) i := by
  refine (Lands.inContext _ lands_name).bind fun n j hj =>
    (Lands.inContext _ lands_typeParams).bind fun ps k hk => ?_
  refine (lands_expect _).bind fun _ l hl =>
    (Lands.inContext _ (lands_tree l .type l le_rfl)).bind fun t m hm => ?_
  have hsemicolon : Lands src (punct src .semicolon) m fun _ e => m ≤ e := by
    refine (lands_punct _).mono fun b e he => ?_
    split at he <;> omega
  exact hsemicolon.bind fun _ e he => Lands.located fun _ => by omega

theorem lands_member : Advances src (member src) i := by
  refine lands_tokenStart.bind ?_
  rintro start _ ⟨rfl, -⟩
  refine Lands.keyword_ite (fun j hj => lands_funcTail.bind fun _ k hk => Lands.pure (by omega)) ?_
  refine Lands.keyword_ite (fun j hj => lands_typeTail.bind fun _ k hk => Lands.pure (by omega)) ?_
  refine Lands.keyword_ite (fun j hj => lands_objectTail.bind fun _ k hk => Lands.pure (by omega))
    ?_
  exact Lands.keyword_ite (fun j hj => lands_aliasTail.bind fun _ k hk => Lands.pure (by omega))
    (lands_unexpected _)

theorem lands_definition : Advances src (definition src) i := by
  refine lands_tokenStart.bind ?_
  rintro start _ ⟨rfl, -⟩
  refine Lands.keyword_ite (fun j hj => ?_) lands_member
  refine (Lands.inContext _ lands_name).bind fun n k hk => (lands_expect _).bind fun _ l hl => ?_
  refine (lands_manyUntil (fun _ _ => Lands.inContext _ lands_member) (fuel_lt l)).bind
    fun ds m hm => ?_
  exact Lands.located fun _ => by omega

theorem lands_importTail {start : Nat} : Advances src (importTail src start) i := by
  refine (Lands.inContext _ lands_name).bind fun n j hj => ?_
  have hwhole : ∀ (ns : List String) k, j ≤ k → Lands src (do
      let _ ← punct src .semicolon
      return { loc := ← locationFrom src start, path := n, names := ns : Import }) k fun _ e =>
    i < e := by
    intro ns k hk
    have hsemicolon : Lands src (punct src .semicolon) k fun _ e => k ≤ e := by
      refine (lands_punct _).mono fun b e he => ?_
      split at he <;> omega
    exact hsemicolon.bind fun _ e he => Lands.located fun _ => by omega
  refine Lands.punct_ite (fun k hk => ?_) (hwhole [] j le_rfl)
  refine (lands_commaList (fun _ _ => Lands.inContext _ lands_name) (fuel_lt k)).bind fun ns l hl =>
    ?_
  exact (lands_expect _).bind fun _ m hm => hwhole ns m (by omega)

theorem lands_items {fuel : Nat} (hfuel : src.size - i < fuel) :
    Lands src (items src fuel) i fun _ j => i ≤ j := by
  induction fuel generalizing i with
  | zero => omega
  | succ fuel ih =>
    have hmore : ∀ j, i < j → Lands src (items src fuel) j fun _ k => i ≤ k :=
      fun j hj => Lands.of_le fun hsize => (ih (by omega)).mono fun _ k hk => by omega
    refine lands_tokenStart.bind ?_
    rintro start _ ⟨rfl, -⟩
    refine Lands.ite (fun _ => Lands.pure le_rfl) fun _ => Lands.keyword_ite (fun j hj => ?_) ?_
    · exact lands_importTail.bind fun _ k hk =>
        (hmore k (by omega)).bind fun _ l hl => Lands.pure hl
    · exact lands_definition.bind fun _ k hk => (hmore k hk).bind fun _ l hl => Lands.pure hl

end Reading

/-! ### Programs -/

/-- The first line starts at or before any position, so the table of lines has an entry for the line
of each location. -/
theorem Source.locate_line (src : Source) (pos : Nat) (stop : Int) :
    0 < (src.locate pos stop).line ∧ (src.locate pos stop).line ≤ src.lineStarts.size := by
  have hfirst : 0 ∈ src.lineStarts := by
    rw [src.lineStarts_eq, lineStartsOf]
    exact Array.mem_append_left _ (Array.mem_singleton.2 rfl)
  have hpos : 0 < src.lineStarts.countP (· ≤ pos) :=
    Array.countP_pos_iff.2 ⟨0, hfirst, decide_eq_true (Nat.zero_le pos)⟩
  have hle : src.lineStarts.countP (· ≤ pos) ≤ src.lineStarts.size := Array.countP_le_size
  exact ⟨Int.natCast_pos.2 hpos, Int.ofNat_le.2 hle⟩

/-- Every text reads as a program, or gives an error whose locations and words were all looked
up inside the text. Every byte and every span that the reader looks at is in the text, with one
exception: where the text ends after a backslash inside a string, what follows the byte after the
backslash is looked for, and there is no such byte. -/
theorem Program.parse_lands (src : Source) :
    (∃ p, Program.parse src = .ok p) ∨ ∃ e, Program.parse src = .error e ∧ e.cause.Sound src ∧
      ∀ access, e.cause = .outside access → access = ⟨src.size + 1, src.size⟩ ∧
        src.index (src.size - 1) = .ok 0x5c := by
  have hlands : Reading.Lands src (Reading.items src (Reading.rounds src)) 0 fun _ j => 0 ≤ j :=
    Reading.lands_items (Reading.fuel_lt 0)
  have houtcome := hlands (Nat.zero_le _)
  have hrun : Program.parse src = Prod.fst <$> Reading.items src (Reading.rounds src) 0 := rfl
  cases hitems : Reading.items src (Reading.rounds src) 0 with
  | ok r => exact .inl ⟨r.1, by rw [hrun, hitems]; rfl⟩
  | error e =>
    rw [hitems] at houtcome
    have hend : e.cause.Sound src := houtcome
    refine .inr ⟨e, by rw [hrun, hitems]; rfl, hend, fun access houtside => ?_⟩
    rw [houtside] at hend
    exact ⟨hend.1, Source.index_of_byte? (Source.EscapesEnd.backslash hend.2)⟩

/-- A string that the end of the text breaks off after a backslash. -/
def brokenEscape : Source := { bytes := "fn main() \x7b return \"\\".toUTF8.data }

theorem Program.parse_brokenEscape : Program.parse brokenEscape =
    .error ⟨["func main", "return"], .outside ⟨brokenEscape.size + 1, brokenEscape.size⟩⟩ := by
  with_unfolding_all rfl

end FunRiscv
