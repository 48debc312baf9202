import Mathlib
import FunRiscv.Surface.Reader.Definition
import FunRiscv.Proofs.Number.Finite
import FunRiscv.Proofs.Surface.Shape
import FunRiscv.Proofs.Surface.Tokens

/-!
# Whatever is read is legible

* `Nonterminal.Legible`: what holds of the tree of each nonterminal.
* `Reading.ensures_tree`: the reader of nested parts gives legible trees only.
* `Program.legible_of_parse`: so does the reader of programs.
-/

namespace FunRiscv

/-- What holds of every tree that a nonterminal reads. -/
def Nonterminal.Legible : (k : Nonterminal) → k.Tree → Prop
  | .type => TypeExpr.Legible
  | .expr | .power | .ifExpr => Expr.Legible
  | .pattern => Pattern.Legible
  | .block => fun b => stmtsLegible b.stmts
  | .ifStmt => Stmt.Legible

namespace Reading

variable {src : Source} {sub : SubReader} {α : Type}

/-! ### Tokens and repetition -/

theorem ensures_unexpectedAt (i : Nat) (want : String) (P : α → Prop) :
    Ensures (unexpectedAt src i want) P :=
  Ensures.seq fun _ => Ensures.seq fun _ => Ensures.failWith _

theorem ensures_unexpected (want : String) (P : α → Prop) : Ensures (unexpected src want) P :=
  Ensures.seq fun i => ensures_unexpectedAt i want P

theorem ensures_name : Ensures (name src) IsName := by
  refine Ensures.seq fun i => (Ensures.look fun r hr => src.nameAfter?_ok hr).bind ?_
  rintro _ rfl
  cases hn : src.name? i with
  | none => exact ensures_unexpected _ _
  | some r => exact Ensures.seq fun _ => Ensures.pure (src.isName_of_name? hn)

theorem ensures_tokenStart : Ensures (tokenStart src) fun i => src.trivia i = i ∧ i ≤ src.size := by
  refine Ensures.seq fun i => Ensures.look fun s hs => ?_
  have hi := Source.le_of_skip hs
  rw [src.skip_eq hi] at hs
  obtain rfl := Except.ok.inj hs
  exact ⟨src.trivia_trivia i, src.trivia_le hi⟩

section Lists

variable {item : Reading α} {P : α → Prop}

theorem ensures_commaList (h : Ensures item P) :
    ∀ fuel, Ensures (commaList src item fuel) fun xs => ∀ x ∈ xs, P x := by
  intro fuel
  induction fuel with
  | zero => exact Ensures.failWith _
  | succ fuel ih =>
    refine h.bind fun x hx =>
      Ensures.seq fun more => Ensures.ite (fun _ => ?_) fun _ => Ensures.pure (by simpa using hx)
    exact ih.bind fun xs hxs => Ensures.pure (by simpa using ⟨hx, hxs⟩)

theorem ensures_closedList (close : Punct) (h : Ensures item P) :
    ∀ fuel, Ensures (closedList src item close fuel) fun xs => ∀ x ∈ xs, P x := by
  intro fuel
  induction fuel with
  | zero => exact Ensures.failWith _
  | succ fuel ih =>
    refine Ensures.seq fun closed => Ensures.ite (fun _ => Ensures.pure (by simp)) fun _ => ?_
    refine h.bind fun x hx => Ensures.seq fun more => Ensures.ite (fun _ => ?_) fun _ => ?_
    · exact ih.bind fun xs hxs => Ensures.pure (by simpa using ⟨hx, hxs⟩)
    · exact Ensures.seq fun _ => Ensures.pure (by simpa using hx)

theorem ensures_manyUntil (close : Punct) (h : Ensures item P) :
    ∀ fuel, Ensures (manyUntil src item close fuel) fun xs => ∀ x ∈ xs, P x := by
  intro fuel
  induction fuel with
  | zero => exact Ensures.failWith _
  | succ fuel ih =>
    refine Ensures.seq fun closed => Ensures.ite (fun _ => Ensures.pure (by simp)) fun _ => ?_
    exact h.bind fun x hx => ih.bind fun xs hxs => Ensures.pure (by simpa using ⟨hx, hxs⟩)

end Lists

/-! ### Types and parameters -/

theorem ensures_typeAtom (h : Ensures (sub .type) TypeExpr.Legible) :
    Ensures (typeAtom src sub) TypeExpr.Legible := by
  refine Ensures.seq fun start => Ensures.seq fun opened => Ensures.ite (fun _ => ?_) fun _ => ?_
  · have htuple : ∀ ts : List TypeExpr, ts.length ≠ 1 → (∀ t ∈ ts, t.Legible) →
        Ensures (do return .tuple (← locationFrom src start) ts) TypeExpr.Legible := by
      intro ts hne hts
      exact Ensures.seq fun l => Ensures.pure ⟨hne, (typesLegible_iff ts).2 hts⟩
    refine Ensures.seq fun closed => Ensures.ite (fun _ => ?_) fun _ => ?_
    · exact htuple [] (by simp) (by simp)
    · refine (ensures_commaList h _).bind fun ts hts => Ensures.seq fun _ => ?_
      -- One type in parentheses is that type.
      rcases ts with _ | ⟨t, _ | ⟨t', ts⟩⟩
      · exact htuple [] (by simp) (by simp)
      · exact Ensures.pure (hts t (by simp))
      · exact htuple _ (by simp) hts
  · refine (Ensures.inContext "type" ensures_name).bind fun n hn => ?_
    have hwhole : ∀ ts : List TypeExpr, (∀ t ∈ ts, t.Legible) →
        Ensures (do return .name (← locationFrom src start) n ts) TypeExpr.Legible := by
      intro ts hts
      exact Ensures.seq fun l => Ensures.pure ⟨hn, (typesLegible_iff ts).2 hts⟩
    refine Ensures.seq fun opened => Ensures.ite (fun _ => ?_) fun _ => ?_
    · exact (ensures_commaList h _).bind fun ts hts => Ensures.seq fun _ => hwhole ts hts
    · exact hwhole [] (by simp)

theorem ensures_typeExpr (h : Ensures (sub .type) TypeExpr.Legible) :
    Ensures (typeExpr src sub) TypeExpr.Legible := by
  refine Ensures.seq fun start => (ensures_typeAtom h).bind fun t ht => ?_
  refine Ensures.seq fun arrow => Ensures.ite (fun _ => ?_) fun _ => Ensures.pure ht
  exact (Ensures.inContext _ h).bind fun r hr => Ensures.seq fun l => Ensures.pure ⟨ht, hr⟩

/-- An annotation that may be missing. -/
theorem ensures_annotated (h : Ensures (sub .type) TypeExpr.Legible) (label : String) :
    Ensures (some <$> inContext label (sub .type)) fun t =>
      ∀ t', t = some t' → TypeExpr.Legible t' := by
  refine Ensures.map ((Ensures.inContext label h).mono ?_)
  intro t ht t' heq
  simp only [Option.some.injEq] at heq
  exact heq ▸ ht

theorem ensures_param (h : Ensures (sub .type) TypeExpr.Legible) :
    Ensures (param src sub) Param.Legible := by
  refine Ensures.seq fun start => (Ensures.inContext _ ensures_name).bind fun n hn => ?_
  have hwhole : ∀ t : Option TypeExpr, (∀ t', t = some t' → t'.Legible) →
      Ensures (do return { loc := ← locationFrom src start, name := n, type := t })
        Param.Legible := by
    intro t ht
    exact Ensures.seq fun l => Ensures.pure ⟨hn, ht⟩
  refine Ensures.seq fun colon => Ensures.ite (fun _ => ?_) fun _ => ?_
  · exact (ensures_annotated h _).bind hwhole
  · exact hwhole none (by simp)

theorem ensures_params (h : Ensures (sub .type) TypeExpr.Legible) :
    Ensures (params src sub) fun ps => ∀ p ∈ ps, p.Legible := by
  refine Ensures.seq fun _ =>
    Ensures.seq fun closed => Ensures.ite (fun _ => Ensures.pure (by simp)) fun _ => ?_
  exact (ensures_commaList (ensures_param h) _).bind fun ps hps =>
    Ensures.seq fun _ => Ensures.pure hps

/-! ### Literals -/

theorem ensures_floatLiteral (start digits point stop : Nat) (negative : Bool) :
    Ensures (floatLiteral src start digits point stop negative) fun e => e.isLiteral = true ∧
      e.Legible := by
  refine Ensures.seq fun text => Ensures.ite (fun _ => Ensures.failWith _) fun hinf => ?_
  refine Ensures.seq fun _ => Ensures.pure ⟨rfl, ?_⟩
  have hfinite := Number.isFinite_ofDecimal (Bool.eq_false_iff.2 hinf)
  show (if negative then _ else _ : Float).isFinite = true
  cases negative with
  | false => exact hfinite
  | true => exact Number.isFinite_neg hfinite

theorem ensures_intLiteral (start stop : Nat) (magnitude : Option Nat) (negative : Bool) :
    Ensures (intLiteral src start stop magnitude negative) fun e => e.isLiteral = true ∧
      e.Legible := by
  cases magnitude with
  | none => exact Ensures.seq fun _ => Ensures.failWith _
  | some n =>
    refine Ensures.ite (fun _ => Ensures.seq fun _ => Ensures.failWith _) fun hrange => ?_
    refine Ensures.seq fun _ => Ensures.pure ⟨rfl, ?_⟩
    have hbounds : ¬ ((if negative then -(n : Int) else n) < -0x800000 ∨
      0x800000 ≤ (if negative then -(n : Int) else n)) := by
      simpa using hrange
    generalize (if negative then -(n : Int) else n) = v at hbounds
    show -0x800000 ≤ (Int32.ofInt v).toInt ∧ (Int32.ofInt v).toInt < 0x800000
    rw [Int32.toInt_ofInt_of_le (by norm_num; omega) (by norm_num; omega)]
    omega

theorem ensures_uintLiteral (start stop : Nat) (magnitude : Option Nat) :
    Ensures (uintLiteral src start stop magnitude) fun e => e.isLiteral = true ∧ e.Legible := by
  cases magnitude with
  | none => exact Ensures.seq fun _ => Ensures.failWith _
  | some n =>
    refine Ensures.ite (fun _ => Ensures.seq fun _ => Ensures.failWith _) fun hrange => ?_
    refine Ensures.seq fun _ => Ensures.pure ⟨rfl, ?_⟩
    show n.toUInt32.toNat < 0x1000000
    have hn : n.toUInt32.toNat = n % 2 ^ 32 := UInt32.toNat_ofNat'
    omega

theorem ensures_number {start digits : Nat} (hstart : start ≤ digits)
    (hdigits : digits < src.size) :
    Ensures (number src start digits) fun e => e.isLiteral = true ∧ e.Legible := by
  rw [number_inside hstart hdigits]
  generalize (if src.startsWith digits [0x30, 0x78] then _ else _) = scanned
  obtain ⟨first, stop, magnitude⟩ := scanned
  refine Ensures.ite (fun _ => ensures_floatLiteral _ _ _ _ _) fun _ =>
    Ensures.ite (fun _ => ?_) fun _ => ?_
  · exact ensures_intLiteral _ _ _ _
  · exact ensures_uintLiteral _ _ _

theorem ensures_string {start : Nat} (hstart : start < src.size) :
    Ensures (string src start) fun e => e.isLiteral = true ∧ e.Legible := by
  rw [string_inside hstart]
  refine Ensures.ite (fun _ => Ensures.failWith _) fun _ =>
    Ensures.ite (fun _ => ensures_unexpectedAt _ _ _) fun _ => ?_
  split
  · exact Ensures.seq fun _ => Ensures.pure ⟨rfl, trivial⟩
  · exact Ensures.failWith _

/-! ### Expressions -/

theorem ensures_parenthesised (h : Ensures (sub .expr) Expr.Legible) (start : Nat) :
    Ensures (parenthesised src sub start) Expr.Legible := by
  refine (ensures_closedList .closeParen h _).bind fun es hes => ?_
  have htuple : Ensures (do return .tuple (← locationFrom src start) es) Expr.Legible :=
    Ensures.seq fun l => Ensures.pure ((exprsLegible_iff es).2 hes)
  split
  · refine Ensures.seq fun i => Ensures.seq fun comma => Ensures.ite (fun _ => htuple) fun _ => ?_
    exact Ensures.pure (hes _ (by simp))
  · exact htuple

theorem ensures_braced (h : Ensures (sub .expr) Expr.Legible) :
    Ensures (braced src sub) Expr.Legible :=
  Ensures.seq fun _ => h.bind fun _ hx => Ensures.seq fun _ => Ensures.pure hx

theorem ensures_lambda (ht : Ensures (sub .type) TypeExpr.Legible)
    (h : Ensures (sub .expr) Expr.Legible) (start : Nat) :
    Ensures (lambda src sub start) Expr.Legible := by
  refine (Ensures.inContext _ (ensures_params ht)).bind fun ps hps => Ensures.seq fun _ => ?_
  refine (Ensures.inContext _ h).bind fun b hb =>
    Ensures.seq fun _ => Ensures.seq fun l => Ensures.pure ?_
  exact ⟨hps, hb⟩

theorem ensures_ifExprTail (h : Ensures (sub .expr) Expr.Legible)
    (hif : Ensures (sub .ifExpr) Expr.Legible) (start : Nat) :
    Ensures (ifExprTail src sub start) Expr.Legible := by
  refine (Ensures.inContext _ h).bind fun c hc =>
    (Ensures.inContext _ (ensures_braced h)).bind fun t ht => ?_
  refine Ensures.seq fun more => Ensures.ite (fun _ => ?_) fun _ => ensures_unexpected _ _
  have helse : Ensures (do if ← nextIsKeyword src "if" then sub .ifExpr else braced src sub)
    Expr.Legible :=
    Ensures.seq fun nested => Ensures.ite (fun _ => hif) fun _ => ensures_braced h
  exact (Ensures.inContext _ helse).bind fun e he => Ensures.seq fun l => Ensures.pure ⟨hc, ht, he⟩

theorem ensures_ifExpr (h : Ensures (sub .expr) Expr.Legible)
    (hif : Ensures (sub .ifExpr) Expr.Legible) : Ensures (ifExpr src sub) Expr.Legible :=
  Ensures.seq fun start =>
    Ensures.seq fun _ => Ensures.ite (fun _ => ensures_ifExprTail h hif start) fun _ =>
    ensures_unexpected _ _

theorem ensures_matchCase (hp : Ensures (sub .pattern) Pattern.Legible)
    (h : Ensures (sub .expr) Expr.Legible) : Ensures (matchCase src sub) Case.Legible := by
  refine Ensures.seq fun start => (Ensures.inContext _ hp).bind fun p hp => Ensures.seq fun _ => ?_
  exact (Ensures.inContext _ h).bind fun e he => Ensures.seq fun l => Ensures.pure ⟨hp, he⟩

theorem ensures_matchTail (hp : Ensures (sub .pattern) Pattern.Legible)
    (h : Ensures (sub .expr) Expr.Legible) (start : Nat) :
    Ensures (matchTail src sub start) Expr.Legible := by
  refine (Ensures.inContext _ h).bind fun x hx => Ensures.seq fun _ => ?_
  refine (ensures_closedList .closeBrace (ensures_matchCase hp h) _).bind fun cs hcs => ?_
  exact Ensures.seq fun l => Ensures.pure ⟨hx, (casesLegible_iff cs).2 hcs⟩

/-- The reader of nested parts gives legible trees. -/
def SubLegible (sub : SubReader) : Prop := ∀ k, Ensures (sub k) k.Legible

theorem ensures_wordExpr (h : SubLegible sub) {start stop i : Nat} {w : String}
    (hw : src.word? i = some (w, stop)) : Ensures (wordExpr src sub start w stop) Expr.Legible := by
  refine Ensures.seq fun _ => Ensures.ite (fun _ => Ensures.pure trivial) fun _ => ?_
  refine Ensures.ite (fun _ => Ensures.pure trivial) fun _ => ?_
  refine Ensures.ite (fun _ => ensures_lambda (h .type) (h .expr) start) fun _ => ?_
  refine Ensures.ite (fun _ => ensures_ifExprTail (h .expr) (h .ifExpr) start) fun _ => ?_
  refine Ensures.ite (fun _ => ensures_matchTail (h .pattern) (h .expr) start) fun _ => ?_
  refine Ensures.ite (fun _ => ensures_unexpectedAt _ _ _) fun hkw => Ensures.pure ?_
  exact ⟨src.isWord_of_word? hw, by simpa using hkw⟩

theorem ensures_punctExpr (h : Ensures (sub .expr) Expr.Legible) (start : Nat) :
    Ensures (punctExpr src sub start) Expr.Legible := by
  refine Ensures.seq fun _ => Ensures.ite (fun _ => Ensures.seq fun l => Ensures.pure trivial)
    fun _ => ?_
  refine Ensures.seq fun _ => Ensures.ite (fun _ => ensures_parenthesised h start) fun _ => ?_
  refine Ensures.seq fun _ => Ensures.ite (fun _ => ?_) fun _ => ensures_unexpected _ _
  refine (ensures_closedList .closeBracket h _).bind fun es hes =>
    Ensures.seq fun l => Ensures.pure ?_
  exact (exprsLegible_iff es).2 hes

theorem ensures_primary (h : SubLegible sub) : Ensures (primary src sub) Expr.Legible := by
  refine ensures_tokenStart.bind fun start hstart => ?_
  rw [primaryAt_inside hstart.2]
  cases hb : src.byte? start with
  | none => exact ensures_unexpectedAt _ _ _
  | some b =>
    have hlt := src.lt_size_of_byte? hb
    refine Ensures.ite (fun _ => (ensures_number le_rfl hlt).mono fun _ he => he.2) fun _ => ?_
    refine Ensures.ite (fun hsign => ?_) fun _ => ?_
    · have hdigit := src.lt_size_of_any (Bool.and_eq_true_iff.1 hsign).2
      exact (ensures_number (Nat.le_succ start) hdigit).mono fun _ he => he.2
    refine Ensures.ite (fun _ => (ensures_string hlt).mono fun _ he => he.2) fun _ => ?_
    cases hw : src.word? start with
    | none => exact ensures_punctExpr (h .expr) start
    | some r => exact ensures_wordExpr h hw

theorem ensures_namedArg? (h : Ensures (sub .expr) Expr.Legible) :
    Ensures (namedArg? src sub) fun a => ∀ a', a = some a' → a'.Legible := by
  refine ensures_tokenStart.bind fun start hstart => ?_
  rw [src.nameAfter?_eq hstart.2, look_pure, pure_bind]
  cases hn : src.name? start with
  | none => exact Ensures.pure (by simp)
  | some r =>
    obtain ⟨n, stop⟩ := r
    have hname := src.isName_of_name? hn
    refine Ensures.seq fun token => ?_
    split
    · refine Ensures.seq fun _ =>
        (Ensures.inContext _ h).bind fun x hx => Ensures.seq fun l => Ensures.pure ?_
      intro a' ha
      simp only [Option.some.injEq] at ha
      exact ha ▸ ⟨hname, hx⟩
    · exact Ensures.pure (by simp)

theorem ensures_arguments (h : Ensures (sub .expr) Expr.Legible) : ∀ (fuel : Nat) (named : Bool),
    Ensures (arguments src sub fuel named) fun r => (∀ e ∈ r.1, e.Legible) ∧
      ∀ a ∈ r.2, a.Legible := by
  intro fuel
  induction fuel with
  | zero => exact fun _ => Ensures.failWith _
  | succ fuel ih =>
    intro named
    refine (ensures_namedArg? h).bind fun a ha => ?_
    cases a with
    | some a =>
      have ha' := ha a rfl
      refine Ensures.seq fun more => Ensures.ite (fun _ => ?_) fun _ => ?_
      · refine (ih true).bind fun r hr => Ensures.pure ⟨hr.1, ?_⟩
        simpa using ⟨ha', hr.2⟩
      · exact Ensures.seq fun _ => Ensures.pure (by simpa using ha')
    | none =>
      refine Ensures.ite (fun _ => ensures_unexpected _ _) fun _ => ?_
      refine (Ensures.inContext _ h).bind fun x hx =>
        Ensures.seq fun more => Ensures.ite (fun _ => ?_) fun _ => ?_
      · refine (ih false).bind fun r hr => Ensures.pure ⟨?_, hr.2⟩
        simpa using ⟨hx, hr.1⟩
      · exact Ensures.seq fun _ => Ensures.pure (by simpa using hx)

theorem ensures_fieldName : Ensures (fieldName src) fun f => IsWord f ∨ IsDigits f := by
  refine ensures_tokenStart.bind fun i hi => ?_
  rw [src.wordAt?_eq hi.2, look_pure, pure_bind]
  cases hw : src.word? i with
  | some r => exact Ensures.seq fun _ => Ensures.pure (.inl (src.isWord_of_word? hw))
  | none =>
    have hcut := Source.cut_eq (src.le_skipWhile isDigit i) (src.skipWhile_le isDigit hi.2)
    dsimp only
    rw [src.pass_eq, look_pure, pure_bind, hcut, look_pure, pure_bind]
    refine Ensures.ite (fun _ => ensures_unexpectedAt _ _ _) fun hne => ?_
    refine Ensures.seq fun _ => Ensures.pure (.inr ?_)
    have hslice : src.slice i (src.skipWhile isDigit i) = (src.rest i).takeWhile isDigit := by
      rw [src.slice_eq, src.skipWhile_eq, Nat.add_sub_cancel_left]
      exact (List.prefix_iff_eq_take.1 (List.takeWhile_prefix isDigit)).symm
    refine ⟨_, rfl, ?_, ?_⟩
    · rw [hslice]
      intro hnil
      rw [src.skipWhile_eq, hnil] at hne
      exact hne rfl
    · rw [hslice]
      exact fun b hb => List.mem_takeWhile_imp hb

theorem ensures_postfixes (h : Ensures (sub .expr) Expr.Legible) (start : Nat) :
    ∀ (fuel : Nat) (x : Expr), x.Legible →
      Ensures (postfixes src sub start fuel x) Expr.Legible := by
  intro fuel
  induction fuel with
  | zero => exact fun _ _ => Ensures.failWith _
  | succ fuel ih =>
    intro x hx
    refine Ensures.seq fun opened => Ensures.ite (fun _ => ?_) fun _ => ?_
    · have hwhole : ∀ r : List Expr × List NamedArg,
        ((∀ e ∈ r.1, e.Legible) ∧ ∀ a ∈ r.2, a.Legible) → Ensures (do
            let call := .call (← locationFrom src start) x r.1 r.2
            postfixes src sub start fuel call) Expr.Legible := by
        intro r hr
        exact Ensures.seq fun l =>
          ih _ ⟨hx, (exprsLegible_iff _).2 hr.1, (namedLegible_iff _).2 hr.2⟩
      refine Ensures.seq fun closed => Ensures.ite (fun _ => ?_) fun _ => ?_
      · exact hwhole ([], []) (by simp)
      · exact (ensures_arguments h _ _).bind hwhole
    · refine Ensures.seq fun dot => Ensures.ite (fun _ => ?_) fun _ => Ensures.pure hx
      exact ensures_fieldName.bind fun f hf => Ensures.seq fun l => ih _ ⟨hx, hf⟩

theorem ensures_postfixed (h : SubLegible sub) : Ensures (postfixed src sub) Expr.Legible :=
  Ensures.seq fun start =>
    (ensures_primary h).bind fun x hx => ensures_postfixes (h .expr) start _ x hx

theorem ensures_powerExpr (h : SubLegible sub) : Ensures (powerExpr src sub) Expr.Legible := by
  refine Ensures.seq fun start => (ensures_postfixed h).bind fun x hx => Ensures.seq fun power => ?_
  refine Ensures.ite (fun _ => ?_) fun _ => Ensures.pure hx
  exact (Ensures.inContext _ (h .power)).bind fun y hy => Ensures.seq fun l => Ensures.pure ⟨hx, hy⟩

theorem ensures_operands {operand : Reading Expr} (h : Ensures operand Expr.Legible)
    (ops : List Operator) (start : Nat) :
    ∀ (fuel : Nat) (x : Expr), x.Legible →
      Ensures (operands src operand ops start fuel x) Expr.Legible := by
  intro fuel
  induction fuel with
  | zero => exact fun _ _ => Ensures.failWith _
  | succ fuel ih =>
    intro x hx
    refine Ensures.seq fun i => Ensures.seq fun token => ?_
    cases hop : token.bind (levelOperator? ops) with
    | none => exact Ensures.pure hx
    | some r =>
      exact Ensures.seq fun _ =>
        (Ensures.inContext _ h).bind fun y hy => Ensures.seq fun l => ih _ ⟨hx, hy⟩

theorem ensures_binary (h : SubLegible sub) (levels : List (List Operator)) :
    Ensures (binary src sub levels) Expr.Legible := by
  induction levels with
  | nil => exact ensures_powerExpr h
  | cons ops levels ih =>
    exact Ensures.seq fun start => ih.bind fun x hx => ensures_operands ih ops start _ x hx

/-! ### Patterns -/

/-- A name starts with the byte at its place. -/
theorem startsWithCapital_eq {i j : Nat} {n : String} (h : src.word? i = some (n, j)) :
    startsWithCapital n = (src.byte? i).any isCapital := by
  rw [src.word?_eq] at h
  split at h
  · rename_i hletter
    obtain ⟨b, bs, hrest⟩ : ∃ b bs, src.rest i = b :: bs := by
      cases hrest : src.rest i with
      | nil => simp [hrest] at hletter
      | cons b bs => exact ⟨b, bs, rfl⟩
    have hb : isLetter b = true := by simpa [hrest] using hletter
    have hrun : wordRun (src.rest i) = b :: wordRun bs := by simp [hrest, wordRun, hb]
    have hword : IsWordBytes (wordRun (src.rest i)) := ⟨by simpa [hrun] using hb, wordRun_wordRun _⟩
    simp only [Option.some.injEq, Prod.mk.injEq] at h
    rw [startsWithCapital, ← h.1, hword.bytesOf_ofAscii, hrun, src.byte?_eq, hrest]
    rfl
  · exact absurd h (by simp)

theorem ensures_namePattern (h : Ensures (sub .pattern) Pattern.Legible) {start j : Nat}
    {n : String} (hn : src.name? start = some (n, j)) (hstart : src.trivia start = start)
    (hle : start ≤ src.size) : Ensures (namePattern src sub start n) Pattern.Legible := by
  have hname := src.isName_of_name? hn
  have hword : src.word? start = some (n, j) := by
    rw [Source.name?, hstart, Option.filter_eq_some_iff] at hn
    exact hn.1
  refine Ensures.seq fun l => Ensures.ite (fun _ => Ensures.pure trivial) fun hwild => ?_
  have hne : n ≠ "_" := by simpa using hwild
  refine Ensures.seq fun _ => Ensures.ite (fun _ => ?_) fun _ => ?_
  · refine (ensures_closedList .closeParen h _).bind fun ps hps =>
      Ensures.seq fun l => Ensures.pure ?_
    exact ⟨hname, hne, (patternsLegible_iff ps).2 hps⟩
  · have hbounds := src.name?_bounds hn hle
    have hlt : start < src.size := by omega
    rw [Source.map_index hlt, look_pure, pure_bind]
    refine Ensures.ite (fun _ => Ensures.pure ⟨hname, hne, trivial⟩) fun hcapital =>
      Ensures.pure ⟨hname, hne, ?_⟩
    rw [startsWithCapital_eq hword]
    exact Bool.eq_false_iff.2 hcapital

theorem ensures_pattern (h : SubLegible sub) : Ensures (pattern src sub) Pattern.Legible := by
  refine Ensures.seq fun here => ensures_tokenStart.bind fun start hstart => ?_
  rw [src.nameAfter?_eq hstart.2, look_pure, pure_bind]
  cases hn : src.name? start with
  | some r => exact Ensures.seq fun _ => ensures_namePattern (h .pattern) hn hstart.1 hstart.2
  | none =>
    refine Ensures.seq fun _ => Ensures.ite (fun _ => ?_) fun _ => ?_
    · refine (ensures_closedList .closeParen (h .pattern) _).bind fun ps hps =>
        Ensures.seq fun l => Ensures.pure ?_
      exact (patternsLegible_iff ps).2 hps
    · refine (Ensures.inContext _ (ensures_primary h)).bind fun x hx => ?_
      exact Ensures.ite (fun hlit => Ensures.pure ⟨hlit, hx⟩) fun _ => ensures_unexpectedAt _ _ _

/-! ### Statements -/

theorem ensures_assignHead? (h : Ensures (sub .type) TypeExpr.Legible) :
    Ensures (assignHead? src sub) fun a =>
      ∀ n t, a = some (n, t) → IsName n ∧ ∀ t', t = some t' → t'.Legible := by
  have hhead : Ensures (assignHead src sub) fun a =>
      ∀ n t, a = some (n, t) → IsName n ∧ ∀ t', t = some t' → t'.Legible := by
    refine ensures_name.bind fun n hn => ?_
    have hwhole : ∀ t : Option TypeExpr, (∀ t', t = some t' → t'.Legible) →
        Ensures (do if ← punct src .equals then return some (n, t) else return none)
          fun a : Option (String × Option TypeExpr) =>
            ∀ n t, a = some (n, t) → IsName n ∧ ∀ t', t = some t' → t'.Legible := by
      intro t ht
      refine Ensures.seq fun _ =>
        Ensures.ite (fun _ => Ensures.pure ?_) fun _ => Ensures.pure (by simp)
      rintro _ _ heq
      simp only [Option.some.injEq, Prod.mk.injEq] at heq
      exact ⟨heq.1 ▸ hn, heq.2 ▸ ht⟩
    refine Ensures.seq fun _ => Ensures.ite (fun _ => ?_) fun _ => hwhole none (by simp)
    refine (Ensures.map (h.mono ?_)).bind hwhole
    intro t ht t' heq
    exact Option.some.inj heq ▸ ht
  intro i a j ha
  rw [assignHead?] at ha
  split at ha
  · rename_i hok
    simp only [Except.ok.injEq, Prod.mk.injEq] at ha
    exact hhead _ _ _ (ha.1 ▸ hok)
  · cases ha
  · simp only [Except.ok.injEq, Prod.mk.injEq] at ha
    rw [← ha.1]
    simp

theorem ensures_ifTail (h : SubLegible sub) (start : Nat) :
    Ensures (ifTail src sub start) Stmt.Legible := by
  refine (Ensures.inContext _ (h .expr)).bind fun c hc =>
    (Ensures.inContext _ (h .block)).bind fun t ht => ?_
  refine Ensures.seq fun more =>
    Ensures.ite (fun _ => ?_) fun _ => Ensures.seq fun l => Ensures.pure ⟨hc, ht⟩
  have hwhole : ∀ b : Block, stmtsLegible b.stmts → Ensures (do
      return .ifElse (← locationFrom src start) c t.loc t.stmts b.loc b.stmts) Stmt.Legible :=
    fun b hb => Ensures.seq fun l => Ensures.pure ⟨hc, ht, hb⟩
  refine Ensures.seq fun nested =>
    Ensures.ite (fun _ => ?_) fun _ => (Ensures.inContext _ (h .block)).bind hwhole
  exact (h .ifStmt).bind fun s hs => hwhole ⟨s.loc, [s]⟩ ⟨hs, trivial⟩

theorem ensures_ifStmt (h : SubLegible sub) : Ensures (ifStmt src sub) Stmt.Legible :=
  Ensures.seq fun start =>
    Ensures.seq fun _ =>
      Ensures.ite (fun _ => ensures_ifTail h start) fun _ => ensures_unexpected _ _

theorem ensures_returnTail (h : Ensures (sub .expr) Expr.Legible) (start : Nat) :
    Ensures (returnTail src sub start) Stmt.Legible := by
  refine Ensures.seq fun _ =>
    Ensures.ite (fun _ => Ensures.seq fun l => Ensures.pure fun e he => by simp at he) fun _ => ?_
  refine (Ensures.inContext _ h).bind fun x hx =>
    Ensures.seq fun _ => Ensures.seq fun l => Ensures.pure ?_
  exact fun e he => Option.some.inj he ▸ hx

theorem ensures_useTail (h : Ensures (sub .expr) Expr.Legible) (start : Nat) :
    Ensures (useTail src sub start) Stmt.Legible := by
  refine (Ensures.inContext _ ensures_name).bind fun n hn => Ensures.seq fun _ => ?_
  exact (Ensures.inContext _ h).bind fun x hx =>
    Ensures.seq fun _ => Ensures.seq fun l => Ensures.pure ⟨hn, hx⟩

theorem ensures_stmt (h : SubLegible sub) : Ensures (stmt src sub) Stmt.Legible := by
  refine Ensures.seq fun start =>
    Ensures.seq fun _ => Ensures.ite (fun _ => ensures_returnTail (h .expr) start) fun _ => ?_
  refine Ensures.seq fun _ => Ensures.ite (fun _ => ensures_useTail (h .expr) start) fun _ => ?_
  refine Ensures.seq fun _ => Ensures.ite (fun _ => ensures_ifTail h start) fun _ => ?_
  refine (ensures_assignHead? (h .type)).bind fun a ha => ?_
  cases a with
  | some r =>
    obtain ⟨hn, ht⟩ := ha r.1 r.2 rfl
    refine (Ensures.inContext _ (h .expr)).bind fun x hx =>
      Ensures.seq fun _ => Ensures.seq fun l => Ensures.pure ?_
    exact ⟨hn, ht, hx⟩
  | none => exact (Ensures.inContext _ (h .expr)).bind fun x hx =>
    Ensures.seq fun _ => Ensures.seq fun l => Ensures.pure hx

theorem ensures_block (h : SubLegible sub) :
    Ensures (block src sub) fun b => stmtsLegible b.stmts := by
  refine Ensures.seq fun start =>
    Ensures.seq fun _ => (ensures_manyUntil .closeBrace (ensures_stmt h) _).bind fun ss hss => ?_
  exact Ensures.seq fun l => Ensures.pure ((stmtsLegible_iff ss).2 hss)

/-! ### Nesting -/

theorem ensures_rule (h : SubLegible sub) : ∀ k, Ensures (rule src sub k) k.Legible
  | .type => ensures_typeExpr (h .type)
  | .expr => ensures_binary h precedence
  | .power => ensures_powerExpr h
  | .ifExpr => ensures_ifExpr (h .expr) (h .ifExpr)
  | .pattern => ensures_pattern h
  | .block => ensures_block h
  | .ifStmt => ensures_ifStmt h

theorem ensures_nested (fuel : Nat) : SubLegible (nested src fuel) := by
  induction fuel with
  | zero => exact fun k => Ensures.failWith _
  | succ fuel ih => exact fun k => ensures_rule ih k

theorem ensures_tree : SubLegible (tree src) := ensures_nested _

/-! ### Definitions -/

theorem ensures_typeParams : Ensures (typeParams src) fun ps => ∀ n ∈ ps, IsName n := by
  refine Ensures.seq fun _ => Ensures.ite (fun _ => ?_) fun _ => Ensures.pure (by simp)
  exact (ensures_commaList (Ensures.inContext _ ensures_name) _).bind fun ps hps =>
    Ensures.seq fun _ => Ensures.pure hps

theorem ensures_funcTail (start : Nat) : Ensures (funcTail src start) FuncDef.Legible := by
  refine (Ensures.inContext _ ensures_name).bind fun n hn => ?_
  refine (Ensures.inContext _ (ensures_params (ensures_tree .type))).bind fun ps hps => ?_
  have hwhole : ∀ t : Option TypeExpr, (∀ t', t = some t' → t'.Legible) → Ensures (do
      let body ← inContext ("func " ++ n) (tree src .block)
      return {
        loc := ← locationFrom src start, name := n, params := ps, ret := t, body,
        checked := false }) FuncDef.Legible := by
    intro t ht
    refine (Ensures.inContext _ (ensures_tree .block)).bind fun b hb =>
      Ensures.seq fun l => Ensures.pure ?_
    exact ⟨hn, hps, ht, hb, rfl⟩
  refine Ensures.seq fun _ => Ensures.ite (fun _ => ?_) fun _ => hwhole none (by simp)
  exact (ensures_annotated (ensures_tree .type) _).bind hwhole

theorem ensures_field : Ensures (field src) Field.Legible := by
  refine Ensures.seq fun start =>
    (Ensures.inContext _ ensures_name).bind fun n hn => Ensures.seq fun _ => ?_
  exact (Ensures.inContext _ (ensures_tree .type)).bind fun t ht =>
    Ensures.seq fun l => Ensures.pure ⟨hn, ht⟩

theorem ensures_fields (fuel : Nat) : Ensures (fields src fuel) fun fs => ∀ f ∈ fs, f.Legible := by
  induction fuel with
  | zero => exact Ensures.failWith _
  | succ fuel ih =>
    refine Ensures.seq fun _ => Ensures.ite (fun _ => Ensures.pure (by simp)) fun _ => ?_
    refine Ensures.seq fun _ => Ensures.ite (fun _ => Ensures.pure (by simp)) fun _ => ?_
    refine ensures_field.bind fun f hf =>
      Ensures.seq fun _ => Ensures.ite (fun _ => ?_) fun _ => Ensures.pure (by simpa using hf)
    exact ih.bind fun fs hfs => Ensures.pure (by simpa using ⟨hf, hfs⟩)

theorem ensures_variant (owner : String) : Ensures (variant src owner) Variant.Legible := by
  refine Ensures.seq fun start => (Ensures.inContext _ ensures_name).bind fun n hn => ?_
  have hwhole : ∀ fs : List Field, (∀ f ∈ fs, f.Legible) →
      Ensures (do return { loc := ← locationFrom src start, name := n, fields := fs })
        Variant.Legible :=
    fun fs hfs => Ensures.seq fun l => Ensures.pure ⟨hn, hfs⟩
  refine Ensures.seq fun _ => Ensures.ite (fun _ => ?_) fun _ => hwhole [] (by simp)
  exact (Ensures.inContext _ (ensures_fields _)).bind fun fs hfs =>
    Ensures.seq fun _ => hwhole fs hfs

theorem ensures_typeTail (start : Nat) :
    Ensures (typeTail src start) fun d => IsName d.name ∧ (∀ n ∈ d.typeParams, IsName n) ∧
      ∀ v ∈ d.variants, v.Legible := by
  refine (Ensures.inContext _ ensures_name).bind fun n hn =>
    (Ensures.inContext _ ensures_typeParams).bind fun ps hps => ?_
  refine Ensures.seq fun _ => (ensures_closedList .closeBrace (ensures_variant n) _).bind
    fun vs hvs => ?_
  exact Ensures.seq fun l => Ensures.pure ⟨hn, hps, hvs⟩

theorem ensures_objectMembers :
    Ensures (objectMembers src) fun g => (∀ f ∈ g.1, f.Legible) ∧ ∀ f ∈ g.2, f.Legible := by
  refine Ensures.seq fun start => Ensures.seq fun _ => Ensures.ite (fun _ => ?_) fun _ => ?_
  · exact (ensures_funcTail start).bind fun f hf => Ensures.pure (by simpa using hf)
  · exact (ensures_fields _).bind fun fs hfs => Ensures.pure (by simpa using hfs)

theorem ensures_objectTail (start : Nat) :
    Ensures (objectTail src start) fun d => IsName d.name ∧ (∀ n ∈ d.typeParams, IsName n) ∧
      (∀ f ∈ d.fields, f.Legible) ∧ ∀ f ∈ d.funcs, f.Legible := by
  refine (Ensures.inContext _ ensures_name).bind fun n hn =>
    (Ensures.inContext _ ensures_typeParams).bind fun ps hps => ?_
  have hgroup : Ensures (do
      let g ← inContext ("object " ++ n) (objectMembers src)
      if g.1.isEmpty && g.2.isEmpty then unexpected src "field or fn" else return g)
        fun g : List Field × List FuncDef => (∀ f ∈ g.1, f.Legible) ∧ ∀ f ∈ g.2, f.Legible := by
    refine (Ensures.inContext _ ensures_objectMembers).bind fun g hg => ?_
    exact Ensures.ite (fun _ => ensures_unexpected _ _) fun _ => Ensures.pure hg
  refine Ensures.seq fun _ => (ensures_manyUntil .closeBrace hgroup _).bind fun gs hgs =>
    Ensures.seq fun l => Ensures.pure ?_
  refine ⟨hn, hps, fun f hf => ?_, fun f hf => ?_⟩
  · obtain ⟨g, hg, hf⟩ := List.mem_flatMap.1 hf
    exact (hgs g hg).1 f hf
  · obtain ⟨g, hg, hf⟩ := List.mem_flatMap.1 hf
    exact (hgs g hg).2 f hf

theorem ensures_aliasTail (start : Nat) :
    Ensures (aliasTail src start) fun d => IsName d.name ∧ (∀ n ∈ d.typeParams, IsName n) ∧
      d.type.Legible := by
  refine (Ensures.inContext _ ensures_name).bind fun n hn =>
    (Ensures.inContext _ ensures_typeParams).bind fun ps hps => ?_
  refine Ensures.seq fun _ => (Ensures.inContext _ (ensures_tree .type)).bind fun t ht => ?_
  exact Ensures.seq fun _ => Ensures.seq fun l => Ensures.pure ⟨hn, hps, ht⟩

/-- A definition that is no module may stand anywhere. -/
theorem ensures_member (top : Bool) : Ensures (member src) (Definition.Legible top) := by
  refine Ensures.seq fun start => Ensures.seq fun _ => Ensures.ite (fun _ => ?_) fun _ => ?_
  · exact (ensures_funcTail start).bind fun d hd =>
      Ensures.pure (by simpa only [Definition.Legible] using hd)
  refine Ensures.seq fun _ => Ensures.ite (fun _ => ?_) fun _ => ?_
  · exact (ensures_typeTail start).bind fun d hd =>
      Ensures.pure (by simpa only [Definition.Legible] using hd)
  refine Ensures.seq fun _ => Ensures.ite (fun _ => ?_) fun _ => ?_
  · exact (ensures_objectTail start).bind fun d hd =>
      Ensures.pure (by simpa only [Definition.Legible] using hd)
  refine Ensures.seq fun _ => Ensures.ite (fun _ => ?_) fun _ => ensures_unexpected _ _
  exact (ensures_aliasTail start).bind fun d hd =>
    Ensures.pure (by simpa only [Definition.Legible] using hd)

theorem ensures_definition : Ensures (definition src) (Definition.Legible true) := by
  refine Ensures.seq fun start =>
    Ensures.seq fun _ => Ensures.ite (fun _ => ?_) fun _ => ensures_member true
  refine (Ensures.inContext _ ensures_name).bind fun n hn => Ensures.seq fun _ => ?_
  refine (ensures_manyUntil .closeBrace (Ensures.inContext _ (ensures_member false)) _).bind
    fun ds hds => ?_
  refine Ensures.seq fun l => Ensures.pure ?_
  simp only [Definition.Legible]
  exact ⟨hn, hds⟩

theorem ensures_importTail (start : Nat) :
    Ensures (importTail src start) fun i => IsName i.path ∧ ∀ n ∈ i.names, IsName n := by
  refine (Ensures.inContext _ ensures_name).bind fun n hn => ?_
  have hwhole : ∀ ns : List String, (∀ n ∈ ns, IsName n) → Ensures (do
      let _ ← punct src .semicolon
      return { loc := ← locationFrom src start, path := n, names := ns }) fun i : Import =>
        IsName i.path ∧ ∀ n ∈ i.names, IsName n :=
    fun ns hns => Ensures.seq fun _ => Ensures.seq fun l => Ensures.pure ⟨hn, hns⟩
  refine Ensures.seq fun _ => Ensures.ite (fun _ => ?_) fun _ => hwhole [] (by simp)
  exact (ensures_commaList (Ensures.inContext _ ensures_name) _).bind fun ns hns =>
    Ensures.seq fun _ => hwhole ns hns

theorem ensures_items (fuel : Nat) : Ensures (items src fuel) Program.Legible := by
  induction fuel with
  | zero => exact Ensures.failWith _
  | succ fuel ih =>
    refine Ensures.seq fun start => Ensures.ite (fun _ => Ensures.pure ⟨by simp, by simp⟩) fun _ =>
      ?_
    refine Ensures.seq fun _ => Ensures.ite (fun _ => ?_) fun _ => ?_
    · refine (ensures_importTail start).bind fun i hi => ih.bind fun p hp => Ensures.pure ⟨?_, hp.2⟩
      exact List.forall_mem_cons.2 ⟨hi, hp.1⟩
    · refine ensures_definition.bind fun d hd => ih.bind fun p hp => Ensures.pure ⟨hp.1, ?_⟩
      exact List.forall_mem_cons.2 ⟨hd, hp.2⟩

end Reading

theorem Program.parse_eq_ok_iff {src : Source} {p : Program} :
    Program.parse src = .ok p ↔ ∃ j, Reading.items src (Reading.rounds src) 0 = .ok (p, j) := by
  have hrun : Program.parse src = Prod.fst <$> Reading.items src (Reading.rounds src) 0 := rfl
  rw [hrun]
  cases Reading.items src (Reading.rounds src) 0 with
  | error e => simp [Functor.map, Except.map]
  | ok r => simp [Functor.map, Except.map, Prod.ext_iff]

/-- Whatever a text reads as is legible. -/
theorem Program.legible_of_parse {src : Source} {p : Program} (h : Program.parse src = .ok p) :
    p.Legible := by
  obtain ⟨j, hj⟩ := Program.parse_eq_ok_iff.1 h
  exact Reading.ensures_items _ 0 p j hj

end FunRiscv
