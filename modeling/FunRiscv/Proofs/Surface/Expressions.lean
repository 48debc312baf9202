import Mathlib
import FunRiscv.Proofs.Surface.Patterns
import FunRiscv.Proofs.Surface.Types

/-!
# Reading expressions back

* `Chains`: what is written for an expression reads as a primary expression with some calls and
  field accesses, after which more of them may follow.
* `reads_binary_of_chain`, `reads_binary_of_binOp`: so it reads at every level of precedence, and so
  does an operation between two of them at its own.
* `Expr.ReadsBack`: what is written for an expression reads as an expression, which is the same
  exactly if no part of it has a shape that does not read back.
* `Expr.readsBack`: so it is for every legible expression.
-/

namespace FunRiscv

open Reading

/-! ### Operators -/

/-- The token of an operator. -/
def Operator.token : Operator → Punct
  | .add => .plus
  | .sub => .minus
  | .mul => .star
  | .div => .slash
  | .mod => .percent
  | .pow => .starStar
  | .eq => .equalEqual
  | .ne => .notEqual
  | .lt => .less
  | .le => .lessEq
  | .gt => .greater
  | .ge => .greaterEq
  | .and => .ampersand
  | .or => .bar
  | .xor => .caret
  | .shl => .shiftLeft
  | .shr => .shiftRight

theorem Operator.ofSymbol?_token (op : Operator) :
    Operator.ofSymbol? op.token.spelling = some op := by
  cases op <;> decide

theorem Operator.eq_token_of_ofSymbol? {t : Punct} {op : Operator}
    (h : Operator.ofSymbol? t.spelling = some op) : t = op.token := by
  have hall : ∀ t : Punct, (Operator.ofSymbol? t.spelling).all fun op => t = op.token := by
    intro t
    cases t <;> decide
  simpa [h] using hall t

theorem Operator.token_injective : Function.Injective Operator.token := by
  intro a b h
  have hab := congrArg (fun t => Operator.ofSymbol? (Punct.spelling t)) h
  simpa [Operator.ofSymbol?_token] using hab

/-- An operator between blanks is its token. -/
theorem Operator.next (op : Operator) (rest : List UInt8) :
    Next op.token (0x20 :: (Text.bytesOf op.symbol ++ 0x20 :: rest)) (0x20 :: rest) := by
  cases op <;> exact ⟨rfl, rfl, rfl⟩

theorem Operator.stops_of_token_notMem {op : Operator} {ts : List Punct} (h : op.token ∉ ts)
    (rest : List UInt8) : stops ts (0x20 :: (Text.bytesOf op.symbol ++ 0x20 :: rest)) = true := by
  obtain ⟨hsolid, hnext, -⟩ := op.next rest
  simp only [stops, hsolid, hnext, Bool.and_true, Bool.and_eq_true]
  exact ⟨rfl, by simpa using h⟩

/-! ### Chains -/

/-- From the text an expression `e` is read, as far as it reads back, whatever calls and field
accesses come after it. -/
def Chains (src : Source) (e : Expr) (text : List UInt8) : Prop :=
  ∀ n start fuel bl tail stop good (P : Expr → Prop), AllBlank bl → Apart tail →
    (e.isNumber = true → pointDigit tail = false) → (bl ++ (text ++ tail)).length ≤ n →
    (bl ++ (text ++ tail)).length < fuel → (good → e.Plain) →
    (∀ a fuel, (a.bare = e.bare ↔ e.Plain) → tail.length < fuel →
      Reads src (postfixes src (nested src n) start fuel a) tail stop good P) →
    Reads src (primary src (nested src n) >>= postfixes src (nested src n) start fuel)
      (bl ++ (text ++ tail)) stop good P

section

variable {src : Source} {e : Expr} {text bs bl mid tail : List UInt8} {good : Prop}

theorem Chains.of_primary
    (h : ∀ n good bl tail, AllBlank bl → Apart tail →
      (e.isNumber = true → pointDigit tail = false) → (bl ++ (text ++ tail)).length ≤ n →
      (good → e.Plain) →
      Reads src (primary src (nested src n)) (bl ++ (text ++ tail)) tail good fun a =>
        a.bare = e.bare ↔ e.Plain) :
    Chains src e text := by
  intro n start fuel bl tail stop good P hbl htail hpoint hn hfuel hgood hrest
  refine (h n good bl tail hbl htail hpoint hn hgood).bind fun a ha => hrest a fuel ha ?_
  simp only [List.length_append] at hfuel
  omega

/-- Before a token that starts no call and no access, a chain ends. -/
theorem reads_postfixes_end {n start fuel : Nat} {a : Expr} {P : Expr → Prop}
    (htail : stops [.openParen, .dot] tail = true) (hfuel : tail.length < fuel) (ha : P a) :
    Reads src (postfixes src (nested src n) start fuel a) tail tail good P := by
  obtain ⟨fuel, rfl⟩ : ∃ k, fuel = k + 1 := ⟨fuel - 1, by omega⟩
  have hsolid := solid_of_stops htail
  refine Reads.punct_else hsolid (nextPunct_ne_of_stops htail (by simp)) ?_
  exact Reads.punct_else hsolid (nextPunct_ne_of_stops htail (by simp)) (Reads.pure ha)

theorem operatorOf?_eq_none {ops : List Operator} {i : Nat} (hi : src.At i tail)
    (htail : stops (ops.map Operator.token) tail = true) : operatorOf? src ops i = none := by
  rw [operatorOf?, hi.punct? (solid_of_stops htail)]
  cases hp : nextPunct tail with
  | none => rfl
  | some t =>
    cases hop : Operator.ofSymbol? t.spelling with
    | none => simp [levelOperator?, hop]
    | some op =>
      have hmem : op ∉ ops := by
        intro hmem
        refine nextPunct_ne_of_stops htail (List.mem_map_of_mem hmem) ?_
        rw [hp, Operator.eq_token_of_ofSymbol? hop]
      simp [levelOperator?, hop, hmem]

theorem operatorOf?_eq_some {ops : List Operator} {op : Operator} {i : Nat} (hi : src.At i bs)
    (h : Next op.token bs tail) (hop : op ∈ ops) :
    ∃ j, operatorOf? src ops i = some (op, j) ∧ src.At j tail := by
  have htrivia := hi.trivia h.1
  rw [h.2.2] at htrivia
  refine ⟨src.trivia i + op.token.bytes.length, ?_, htrivia.drop⟩
  rw [operatorOf?, hi.punct? h.1, h.2.1]
  simp [levelOperator?, Operator.ofSymbol?_token, hop]

/-- Before a token that is no operator of its level, a list of operands ends. -/
theorem reads_operands_end {operand : Reading Expr} {ops : List Operator} {start fuel : Nat}
    {a : Expr} {P : Expr → Prop} (htail : stops (ops.map Operator.token) tail = true)
    (hfuel : 0 < fuel) (ha : P a) :
    Reads src (operands src operand ops start fuel a) tail tail good P := by
  obtain ⟨fuel, rfl⟩ : ∃ k, fuel = k + 1 := ⟨fuel - 1, by omega⟩
  refine reads_get.bind fun i hi => ?_
  rw [src.punctAfter?_eq hi.2, look_pure, pure_bind, ← operatorOf?, operatorOf?_eq_none hi htail]
  exact Reads.pure ha

/-- An operator and an operand, and then more of them. -/
theorem reads_operands_next {operand : Reading Expr} {ops : List Operator} {op : Operator}
    {start fuel : Nat} {a : Expr} {stop : List UInt8} {P Q : Expr → Prop} (h : Next op.token bs mid)
    (hop : op ∈ ops)
    (hoperand : Reads src operand mid tail good Q)
    (hrest : ∀ l b, Q b → Reads src (operands src operand ops start fuel (.binOp l op a b)) tail
      stop good P) :
    Reads src (operands src operand ops start (fuel + 1) a) bs stop good P := by
  refine reads_get.bind fun i hi => ?_
  obtain ⟨j, hsome, hj⟩ := operatorOf?_eq_some hi h hop
  rw [src.punctAfter?_eq hi.2, look_pure, pure_bind, ← operatorOf?, hsome]
  exact (reads_set hj).bind fun _ _ =>
    (hoperand.inContext _).bind fun b hb => (reads_locationFrom start).bind fun l _ =>
    hrest l b hb

/-- An operator and the last operand. -/
theorem reads_operands_step {operand : Reading Expr} {ops : List Operator} {op : Operator}
    {start fuel : Nat} {a : Expr} {P Q : Expr → Prop} (h : Next op.token bs mid) (hop : op ∈ ops)
    (hfuel : 1 < fuel)
    (hoperand : Reads src operand mid tail good Q)
    (htail : stops (ops.map Operator.token) tail = true) (hP : ∀ l b, Q b → P (.binOp l op a b)) :
    Reads src (operands src operand ops start fuel a) bs tail good P := by
  obtain ⟨fuel, rfl⟩ : ∃ k, fuel = k + 1 := ⟨fuel - 1, by omega⟩
  exact reads_operands_next h hop hoperand fun l b hb =>
    reads_operands_end htail (by omega) (hP l b hb)

/-- The tokens that would carry an operation of the given levels on. -/
def levelTokens (levels : List (List Operator)) : List Punct :=
  [.openParen, .dot, .starStar] ++ levels.flatten.map Operator.token

theorem levelTokens_cons_subset (ops : List Operator) (tighter : List (List Operator)) :
    levelTokens tighter ⊆ levelTokens (ops :: tighter) ∧
      ops.map Operator.token ⊆ levelTokens (ops :: tighter) := by
  constructor
  · intro t ht
    simp only [levelTokens, List.flatten_cons, List.map_append, List.mem_append] at ht ⊢
    tauto
  · intro t ht
    simp only [levelTokens, List.flatten_cons, List.map_append, List.mem_append]
    tauto

/-- A chain reads with its calls and accesses. -/
theorem reads_postfixed_of_chain (hchain : Chains src e text) (hstarts : Starts text) {n : Nat}
    (hbl : AllBlank bl) (hapart : Apart tail) (htail : stops [.openParen, .dot] tail = true)
    (hn : (bl ++ (text ++ tail)).length ≤ n) (hgood : good → e.Plain) :
    Reads src (postfixed src (nested src n)) (bl ++ (text ++ tail)) tail good fun a =>
      a.bare = e.bare ↔ e.Plain := by
  refine Reads.of_length fun hsize => ?_
  refine (reads_tokenStart ((hstarts.append tail).solid_skipped hbl)).bind fun start _ => ?_
  refine hchain n start _ bl tail tail good _ hbl hapart
    (fun _ => pointDigit_of_stops htail (by simp)) hn (Nat.lt_succ_of_le hsize) hgood
    fun a fuel ha hfuel => ?_
  exact reads_postfixes_end htail hfuel ha

/-- A chain reads at every level. -/
theorem reads_binary_of_chain (hchain : Chains src e text) (hstarts : Starts text)
    {levels : List (List Operator)} {n : Nat} (hbl : AllBlank bl) (hapart : Apart tail)
    (htail : stops (levelTokens levels) tail = true) (hn : (bl ++ (text ++ tail)).length ≤ n)
    (hgood : good → e.Plain) :
    Reads src (binary src (nested src n) levels) (bl ++ (text ++ tail)) tail good fun a =>
      a.bare = e.bare ↔ e.Plain := by
  have hsolid := (hstarts.append tail).solid_skipped hbl
  induction levels with
  | nil =>
    refine (reads_tokenStart hsolid).bind fun _ _ => ?_
    refine (reads_postfixed_of_chain hchain hstarts hbl hapart
      (stops_mono htail (by simp [levelTokens])) hn hgood).bind
      fun a ha => ?_
    exact Reads.punct_else (solid_of_stops htail)
      (nextPunct_ne_of_stops htail (by simp [levelTokens])) (Reads.pure ha)
  | cons ops tighter ih =>
    obtain ⟨htighter, hops⟩ := levelTokens_cons_subset ops tighter
    refine (reads_tokenStart hsolid).bind fun start _ => ?_
    refine (ih (stops_mono htail htighter)).bind fun a ha => ?_
    exact reads_operands_end (stops_mono htail hops) (Nat.succ_pos _) ha

end

/-! ### Operations -/

section

variable {src : Source} {x y : Expr} {xtext ytext bl tail : List UInt8} {good : Prop}

/-- Before an operator, what is looser than it ends. -/
theorem Operator.stops_levelTokens {op : Operator} {levels : List (List Operator)}
    (hpow : op ≠ .pow) (h : op ∉ levels.flatten) (rest : List UInt8) :
    stops (levelTokens levels) (0x20 :: (Text.bytesOf op.symbol ++ 0x20 :: rest)) = true := by
  refine Operator.stops_of_token_notMem (fun hmem => ?_) rest
  simp only [levelTokens, List.mem_append, List.mem_map] at hmem
  obtain hmem | ⟨op', hop', heq⟩ := hmem
  · revert hmem hpow
    cases op <;> decide
  · exact h (Operator.token_injective heq ▸ hop')

/-- An operation between two chains reads at every level from the one of its operator on. -/
theorem reads_binary_of_binOp (hx : Chains src x xtext) (hy : Chains src y ytext)
    (hxstarts : Starts xtext) (hystarts : Starts ytext) {op : Operator}
    {levels : List (List Operator)} {n : Nat} (hop : op = .pow ∨ op ∈ levels.flatten)
    (hpow : .pow ∉ levels.flatten) (hnodup : levels.flatten.Nodup) (hbl : AllBlank bl)
    (hapart : Apart tail) (htail : stops (levelTokens levels) tail = true)
    (hn : (bl ++ (xtext ++ 0x20 :: (Text.bytesOf op.symbol ++ 0x20 :: (ytext ++ tail)))).length ≤ n)
    (hgood : good → x.Plain ∧ y.Plain) {P : Expr → Prop}
    (hP : ∀ l a b, (a.bare = x.bare ↔ x.Plain) → (b.bare = y.bare ↔ y.Plain) →
      P (.binOp l op a b)) :
    Reads src (binary src (nested src n) levels)
      (bl ++ (xtext ++ 0x20 :: (Text.bytesOf op.symbol ++ 0x20 :: (ytext ++ tail))))
      tail good P := by
  have hsolid :=
    (hxstarts.append (0x20 :: (Text.bytesOf op.symbol ++ 0x20 :: (ytext ++ tail)))).solid_skipped
      hbl
  have hlen : ([0x20] ++ (ytext ++ tail)).length + xtext.length ≤ n := by
    simp only [List.length_append, List.length_cons, List.length_nil] at hn ⊢
    omega
  have hpos := List.length_pos_of_ne_nil hxstarts.ne_nil
  induction levels with
  | nil =>
    obtain rfl : op = .pow := hop.resolve_right (by simp)
    refine (reads_tokenStart hsolid).bind fun start _ => ?_
    refine (reads_postfixed_of_chain hx hxstarts hbl ⟨rfl, by simp⟩
      (Operator.stops_of_token_notMem (by decide) _) hn fun hg => (hgood hg).1).bind fun a ha =>
      Reads.punct_then (Operator.next .pow _) ?_
    obtain ⟨n, rfl⟩ : ∃ m, n = m + 1 := ⟨n - 1, by omega⟩
    have hright : Reads src (nested src (n + 1) .power) ([0x20] ++ (ytext ++ tail)) tail good _ :=
      reads_binary_of_chain hy hystarts allBlank_blank hapart htail (by omega) fun hg =>
        (hgood hg).2
    exact (hright.inContext _).bind fun b hb =>
      (reads_locationFrom start).bind fun l _ => Reads.pure (hP l a b ha hb)
  | cons ops tighter ih =>
    obtain ⟨htighter, hops⟩ := levelTokens_cons_subset ops tighter
    rw [List.flatten_cons] at hop hpow hnodup
    refine (reads_tokenStart hsolid).bind fun start _ => ?_
    by_cases hmem : op ∈ ops
    · have hnot : op ∉ tighter.flatten := (List.disjoint_of_nodup_append hnodup) hmem
      have hne : op ≠ .pow := fun heq => hpow (List.mem_append_left _ (heq ▸ hmem))
      refine (reads_binary_of_chain hx hxstarts hbl ⟨rfl, by simp⟩
        (Operator.stops_levelTokens hne hnot _) hn fun hg => (hgood hg).1).bind fun a ha => ?_
      refine Reads.of_length fun hsize => ?_
      refine reads_operands_step (op.next _) hmem ?_
        (reads_binary_of_chain hy hystarts allBlank_blank hapart (stops_mono htail htighter)
          (by omega) fun hg => (hgood hg).2) (stops_mono htail hops) fun l b hb => hP l a b ha hb
      simp only [List.length_cons] at hsize
      simp only [rounds]
      omega
    · have hop' : op = .pow ∨ op ∈ tighter.flatten :=
        hop.imp id fun h => (List.mem_append.1 h).resolve_left hmem
      refine (ih hop' (fun h => hpow (List.mem_append_right _ h)) hnodup.of_append_right
        (stops_mono htail htighter)).bind
        fun a ha => ?_
      exact reads_operands_end (stops_mono htail hops) (Nat.succ_pos _) ha

end

/-! ### How expressions start and end -/

/-- The bytes end with something other than a comma or a blank. -/
def Ends (bs : List UInt8) : Prop :=
  ∃ before b, bs = before ++ [b] ∧ b ≠ 0x2c ∧ Source.isBlankByte b = false

theorem Ends.append {bs : List UInt8} (h : Ends bs) (front : List UInt8) : Ends (front ++ bs) := by
  obtain ⟨before, b, rfl, hb⟩ := h
  exact ⟨front ++ before, b, by simp, hb⟩

theorem ends_of_bytes {bs : List UInt8} (hne : bs ≠ [])
    (h : ∀ b ∈ bs, isLetter b = true ∨ isDigit b = true ∨ b = 0x2f) : Ends bs := by
  have hall : ∀ b : UInt8, isLetter b = true ∨ isDigit b = true ∨ b = 0x2f →
    b ≠ 0x2c ∧ Source.isBlankByte b = false := by
    decide +kernel
  obtain ⟨before, b, rfl⟩ := (List.eq_nil_or_concat' bs).resolve_left hne
  exact ⟨before, b, rfl, hall b (h b (by simp))⟩

theorem IsWord.ends {w : String} (h : IsWord w) : Ends (Text.bytesOf w) :=
  ends_of_bytes h.starts.ne_nil fun _ hb => wordRun_bytes h.isWordBytes.1.2 hb

theorem DigitRun.ends {ds : List UInt8} (h : DigitRun ds) : Ends ds :=
  ends_of_bytes h.1 fun b hb => .inr (.inl (h.2 b hb))

theorem IsDigits.digitRun {f : String} (h : IsDigits f) :
    DigitRun (Text.bytesOf f) ∧ Text.ofAscii (Text.bytesOf f) = f := by
  obtain ⟨ds, rfl, hne, hds⟩ := h
  have hall : ∀ b : UInt8, isDigit b = true → b < 128 := by decide +kernel
  rw [Text.bytesOf_ofAscii fun b hb => hall b (hds b hb)]
  exact ⟨⟨hne, hds⟩, rfl⟩

theorem DigitRun.not_letter {ds : List UInt8} (h : DigitRun ds) (tail : List UInt8) :
    (ds ++ tail).head?.any isLetter = false := by
  have hall : ∀ b : UInt8, isDigit b = true → isLetter b = false := by decide +kernel
  obtain ⟨b, bs, rfl⟩ := List.exists_cons_of_ne_nil h.1
  simpa using hall b (h.2 b (by simp))

theorem ends_cons (bs : List UInt8) {b : UInt8} (h : (b != 0x2c && !Source.isBlankByte b) = true) :
    Ends (bs ++ [b]) := by
  simp only [Bool.and_eq_true, bne_iff_ne, Bool.not_eq_true'] at h
  exact ⟨bs, b, rfl, h⟩

/-- Whether a comma stands before a bracket is a matter of the byte before it, if that
is no blank. -/
theorem trailingComma_eq {src : Source} {j : Nat} {before tail : List UInt8} {b c : UInt8}
    (hj : src.At j tail) (hsuffix : before ++ b :: c :: tail <:+ src.bytes.toList)
    (hb : Source.isBlankByte b = false) : trailingComma src j = (b == 0x2c) := by
  obtain ⟨front, hfront⟩ := hsuffix
  have hlen := congrArg List.length hfront
  have hrest := congrArg List.length hj.1
  rw [Source.length_rest] at hrest
  have hle := hj.2
  simp only [List.length_append, List.length_cons, Array.length_toList] at hlen
  have hpos : j - 1 - 0 = (front ++ before ++ [b]).length := by
    simp only [List.length_append, List.length_cons, List.length_nil, Source.size] at hrest hle ⊢
    omega
  have hslice : src.slice 0 (j - 1) = front ++ before ++ [b] := by
    have hsplit : front ++ (before ++ b :: c :: tail) = front ++ before ++ [b] ++ c :: tail := by
      simp
    rw [src.slice_eq, hpos, Source.rest, List.drop_zero, ← hfront, hsplit, List.take_left]
  have hblank : Blanks.all.contains b = false := hb
  rw [trailingComma, hslice]
  simp [hblank]

/-- Whether an expression is a conditional. -/
def Expr.isIfElse : Expr → Bool
  | .ifElse .. => true
  | _ => false

/-- If the bytes start with a word, it is a name that is neither annotated nor assigned to, or one
of the keywords that an expression starts with, `if` only where `conditional` says so. -/
def Opens (conditional : Bool) (bs : List UInt8) : Prop :=
  ∀ w mid, NextWord w bs mid → (isKeyword w = false ∧ stops [.colon, .equals] mid = true) ∨
    w ∈ ["true", "false", "lambda", "match"] ∨ (w = "if" ∧ conditional = true)

theorem NextWord.unique {v w : String} {bs mid tail : List UInt8} (hv : NextWord v bs mid)
    (hw : NextWord w bs tail) : v = w ∧ mid = tail :=
  ⟨Option.some.inj (hv.2.1.symm.trans hw.2.1), List.append_cancel_left (hv.2.2.symm.trans hw.2.2)⟩

theorem Opens.of_word {w : String} {bs mid : List UInt8} {c : Bool} (h : NextWord w bs mid)
    (hw : (isKeyword w = false ∧ stops [.colon, .equals] mid = true) ∨
      w ∈ ["true", "false", "lambda", "match"] ∨ (w = "if" ∧ c = true)) : Opens c bs := by
  intro v tail hv
  obtain ⟨rfl, rfl⟩ := hv.unique h
  exact hw

theorem Opens.of_other {b : UInt8} {bs bl : List UInt8} {c : Bool} (hb : isStart b = true)
    (hletter : isLetter b = false) (hbl : AllBlank bl) : Opens c (bl ++ b :: bs) := by
  intro w mid hw
  have hstarts : Starts (b :: bs) := by simpa [Starts] using hb
  obtain ⟨b', rest, hs, hb'⟩ := hw.exists_letter
  rw [hstarts.skipped hbl] at hs
  rw [(List.cons.inj hs).1, hb'] at hletter
  exact absurd hletter (by simp)

theorem Opens.mono {bs : List UInt8} {c : Bool} (h : Opens false bs) : Opens c bs := by
  intro w mid hw
  obtain hname | hkeyword | ⟨-, hc⟩ := h w mid hw
  · exact .inl hname
  · exact .inr (.inl hkeyword)
  · exact absurd hc (by simp)

/-- Where an expression starts, no name stands before a colon or an equals sign. -/
theorem Opens.cases {bs : List UInt8} {c : Bool} (h : Opens c bs)
    (hsolid : solid (skipped bs) = true) : (∀ w, nextWord bs = some w → isKeyword w = true) ∨
      ∃ w mid, NextWord w bs mid ∧ isKeyword w = false ∧ stops [.colon, .equals] mid = true := by
  cases hnext : nextWord bs with
  | none => exact .inl (by simp)
  | some w =>
    obtain ⟨mid, hw⟩ := exists_nextWord hsolid hnext
    have hkeywords : ∀ w ∈ ["true", "false", "lambda", "match"], isKeyword w = true := by decide
    obtain ⟨hname, hmid⟩ | hkeyword | ⟨rfl, -⟩ := h w mid hw
    · exact .inr ⟨w, mid, hw, hname, hmid⟩
    · exact .inl fun w' hw' => Option.some.inj hw' ▸ hkeywords w hkeyword
    · exact .inl fun w' hw' => Option.some.inj hw' ▸ by decide

theorem Case.starts {c : Case} (hp : Starts c.pattern.print) : Starts c.print := by
  cases c
  exact hp.append _

theorem NamedArg.starts {a : NamedArg} (h : IsName a.name) : Starts a.print := by
  cases a
  exact h.1.starts.append _

/-! ### Reading back -/

theorem isWord_if : IsWord "if" := isWord_keyword (by decide)

theorem isWord_else : IsWord "else" := isWord_keyword (by decide)

/-- What may follow an expression. -/
def ExprEnd (tail : List UInt8) : Prop :=
  stops (levelTokens precedence ++ [.colon, .equals]) tail = true

/-- What is written for an expression reads as an expression, which is the same exactly if no
part of it has a shape that does not read back: on its own, as an operand, and after `else` if it
is a conditional. -/
structure Expr.ReadsBack (src : Source) (e : Expr) : Prop where
  starts : Starts e.print
  ends : Ends e.print
  opens : ∀ bl tail, AllBlank bl → stops [.colon, .equals] tail = true →
    Opens e.isIfElse (bl ++ (e.print ++ tail))
  whole : ∀ n good, (good → e.Plain) →
    ReadsItem src (nested src n .expr) Expr.print ExprEnd n good
      (fun e a => a.bare = e.bare ↔ e.Plain) e
  operand : Chains src e (e.enclose e.print)
  elseIf : e.isIfElse = true → ∀ n good, (good → e.Plain) →
    ReadsItem src (nested src n .ifExpr) Expr.print (fun _ => True) n good
      (fun e a => a.bare = e.bare ↔ e.Plain) e

section

variable {src : Source} {e : Expr} {text bl tail : List UInt8} {good : Prop}

theorem ExprEnd.apart (h : ExprEnd tail) : Apart tail := apart_of_stops h (by decide) (by decide)

theorem exprEnd_cons {b : UInt8} (hb : b ∈ [0x2c, 0x29, 0x5d, 0x7b, 0x7d, 0x3b])
    (rest : List UInt8) : ExprEnd (b :: rest) := by
  have hall : ∀ b : UInt8, b ∈ [0x2c, 0x29, 0x5d, 0x7b, 0x7d, 0x3b] →
    (!isLetter b && !isDigit b && !Source.isBlankByte b && b != 0x23 && b != 0x2f &&
      (levelTokens precedence ++ [Punct.colon, Punct.equals]).all fun t =>
        t.bytes.head? != some b) =
      true := by decide +kernel
  exact stops_cons (hall b hb) rest

theorem stops_blank {ts : List Punct} (h : stops ts tail = true) :
    stops ts (0x20 :: tail) = true := by
  simp only [stops, Bool.and_eq_true] at h ⊢
  exact ⟨⟨rfl, h.1.2⟩, h.2⟩

theorem exprEnd_blank_cons {b : UInt8} (hb : b ∈ [0x2c, 0x29, 0x5d, 0x7b, 0x7d, 0x3b])
    (rest : List UInt8) : ExprEnd (0x20 :: b :: rest) := stops_blank (exprEnd_cons hb rest)

/-- Expressions divided by commas, up to a closing bracket. -/
theorem reads_exprs {es : List Expr} {close : Punct} {b : UInt8} {n : Nat} (hb : b ∈ [0x29, 0x5d])
    (hclose : Next close (b :: tail) tail) (hne : close ≠ .comma)
    (hfirst : close.bytes.head?.any isStart = false) (hstarts : ∀ e ∈ es, Starts e.print)
    (hes : ∀ e ∈ es, ReadsItem src (nested src n .expr) Expr.print ExprEnd n good
      (fun e a => a.bare = e.bare ↔ e.Plain) e)
    (hn : (commaJoin (es.map Expr.print) ++ b :: tail).length < n) :
    Reads src (closedList src (nested src n .expr) close (rounds src))
      (commaJoin (es.map Expr.print) ++ b :: tail) tail good
      (List.Forall₂ (fun e a => a.bare = e.bare ↔ e.Plain) es) := by
  refine Reads.of_length fun hsize => ?_
  have hend : ExprEnd (b :: tail) := exprEnd_cons (by simp only [List.mem_cons] at hb ⊢; tauto) tail
  exact reads_closedList hes hstarts (fun r => exprEnd_cons (by simp) r) hend hclose hne hfirst
    allBlank_nil hn (Nat.lt_succ_of_le hsize)

/-- What stands between parentheses is the expression itself, unless a comma follows it. -/
theorem reads_parenthesised {n start : Nat} (hstarts : Starts text) (hends : Ends text)
    (hwhole : ReadsItem src (nested src n .expr) (fun _ => text) ExprEnd n good (fun e a =>
      a.bare = e.bare ↔ e.Plain) e)
    (hn : (text ++ 0x29 :: tail).length < n) :
    Reads src (parenthesised src (nested src n) start) (text ++ 0x29 :: tail) tail good fun a =>
      a.bare = e.bare ↔ e.Plain := by
  refine Reads.of_suffix fun hsuffix => ?_
  have hsize : (text ++ 0x29 :: tail).length ≤ src.size := by
    simpa [Source.size] using hsuffix.length_le
  have hlist : Reads src (closedList src (nested src n .expr) .closeParen (rounds src))
      (text ++ 0x29 :: tail) tail good (List.Forall₂ (fun e a => a.bare = e.bare ↔ e.Plain) [e]) :=
    reads_closedList (List.forall_mem_singleton.2 hwhole) (List.forall_mem_singleton.2 hstarts)
      (fun r => exprEnd_cons (by simp) r) (exprEnd_cons (by simp) tail) ⟨rfl, rfl, rfl⟩ (by decide)
      (by decide) allBlank_nil hn (Nat.lt_succ_of_le hsize)
  refine hlist.bind fun as has => ?_
  cases has with
  | cons ha hnil =>
    cases hnil
    refine reads_get.bind fun j hj => ?_
    obtain ⟨before, b, htext, hcomma, hblank⟩ := hends
    have hno : trailingComma src j = false := by
      rw [htext, List.append_assoc] at hsuffix
      rw [trailingComma_eq hj hsuffix hblank]
      simpa using hcomma
    rw [closesAfterComma_eq hj.2, look_pure, pure_bind, hno]
    exact Reads.pure ha

theorem reads_primary_paren {n : Nat} {rest : List UInt8} {P : Expr → Prop} (hbl : AllBlank bl)
    (h : ∀ start, Reads src (parenthesised src (nested src n) start) rest tail good P) :
    Reads src (primary src (nested src n)) (bl ++ 0x28 :: rest) tail good P := by
  have hopen : Next .openParen (bl ++ 0x28 :: rest) rest := Next.append ⟨rfl, rfl, rfl⟩ hbl
  refine reads_primary_punct (by simp) hbl fun s => ?_
  exact Reads.punct_other hopen (by decide) (Reads.punct_then hopen (h s))

/-- An expression between parentheses may stand wherever a chain may. -/
theorem chains_enclosed (hstarts : Starts text) (hends : Ends text)
    (hwhole : ∀ n good, (good → e.Plain) →
      ReadsItem src (nested src n .expr) (fun _ => text) ExprEnd n good
        (fun e a => a.bare = e.bare ↔ e.Plain) e) :
    Chains src e (0x28 :: (text ++ [0x29])) := by
  refine Chains.of_primary fun n good bl tail hbl _ _ hn hgood => ?_
  have htext : 0x28 :: (text ++ [0x29]) ++ tail = 0x28 :: (text ++ 0x29 :: tail) := by simp
  rw [htext] at hn ⊢
  refine reads_primary_paren hbl fun start =>
    reads_parenthesised hstarts hends (hwhole n good hgood) ?_
  simp only [List.length_append, List.length_cons] at hn ⊢
  omega

theorem whole_of_chain (hchain : Chains src e e.print) (hstarts : Starts e.print) (n : Nat)
    (good : Prop) (hgood : good → e.Plain) :
    ReadsItem src (nested src n .expr) Expr.print ExprEnd n good
      (fun e a => a.bare = e.bare ↔ e.Plain) e := by
  intro bl tail hbl htail hn
  obtain ⟨n, rfl⟩ : ∃ m, n = m + 1 := ⟨n - 1, by omega⟩
  exact reads_binary_of_chain hchain hstarts hbl htail.apart
    (stops_mono htail (List.subset_append_left _ _)) (by omega) hgood

end

namespace Expr

variable {src : Source}

/-- An expression that is no operation, conditional or match reads back if it reads as a chain. -/
theorem ReadsBack.of_chain {e : Expr} (henclose : e.enclose e.print = e.print)
    (hif : e.isIfElse = false) (hstarts : Starts e.print) (hends : Ends e.print)
    (hopens : ∀ bl tail, AllBlank bl → stops [.colon, .equals] tail = true →
      Opens false (bl ++ (e.print ++ tail)))
    (hchain : Chains src e e.print) : e.ReadsBack src where
  starts := hstarts
  ends := hends
  opens bl tail hbl htail := (hopens bl tail hbl htail).mono
  whole := whole_of_chain hchain hstarts
  operand := henclose.symm ▸ hchain
  elseIf h := absurd h (by simp [hif])

theorem readsBack_var (l : Location) {n : String} (hn : IsName n) :
    (Expr.var l n).ReadsBack src := by
  refine .of_chain rfl rfl hn.1.starts hn.1.ends ?_ ?_
  · intro bl tail hbl htail
    exact .of_word (hn.1.nextWord hbl (wordRun_of_stops htail)) (.inl ⟨hn.2, htail⟩)
  · refine .of_primary fun m good bl tail hbl htail _ _ _ => ?_
    refine reads_primary_word (hn.1.nextWord hbl htail.1) fun s stop hstop =>
      (reads_set hstop).bind fun _ _ => ?_
    have hkeyword : ∀ w, isKeyword w = true → (n == w) = false := by
      intro w hw
      rw [beq_eq_false_iff_ne]
      rintro rfl
      exact absurd (hn.2.symm.trans hw) (by simp)
    simp only [hkeyword "true" (by decide), hkeyword "false" (by decide),
      hkeyword "lambda" (by decide), hkeyword "if" (by decide), hkeyword "match" (by decide), hn.2,
      Bool.false_eq_true, if_false]
    exact Reads.pure (by simp [Expr.bare, Expr.Plain])

theorem readsBack_literal {e : Expr} (hliteral : e.isLiteral = true) (h : e.Legible)
    (hfloats : FloatsReadBack e.floats) : e.ReadsBack src := by
  have hplain : e.Plain := by cases e <;> trivial
  have henclose : e.enclose e.print = e.print := by
    cases e <;> first | rfl | exact absurd hliteral (by simp [Expr.isLiteral])
  have hif : e.isIfElse = false := by
    cases e <;> first | rfl | exact absurd hliteral (by simp [Expr.isLiteral])
  refine .of_chain henclose hif (Expr.starts_literal hliteral h hfloats) ?_ ?_ ?_
  · cases e with
    | uint l v => exact (decimal_digits v.toNat).1.ends
    | int l v =>
      obtain ⟨b, ds, n, hb, htext, hrun, -⟩ := signed_digits v.toInt
      have hprint : (Expr.int l v).print = [b] ++ ds := htext
      rw [hprint]
      exact hrun.ends.append [b]
    | float l v =>
      obtain ⟨negative, whole, places, htext, -, hplaces, -⟩ :=
        Number.eq_of_read? (hfloats v (by simp [Expr.floats]) h)
      have hprint : (Expr.float l v).print = Text.bytesOf (Number.text v) := rfl
      rw [hprint, htext]
      exact ((hplaces.ends.append [0x2e]).append whole).append _
    | str l v =>
      have hprint : (Expr.str l v).print = 0x22 :: Text.inside v ++ [0x22] := Text.bytesOf_quote v
      rw [hprint]
      exact ends_cons _ (by decide)
    | bool l v => exact (isWord_bool v).ends
    | eraser l => exact ends_cons [] (by decide)
    | _ => exact absurd hliteral (by simp [Expr.isLiteral])
  · intro bl tail hbl htail
    obtain ⟨b, rest, htext, hb, hletter, -⟩ | ⟨l, v, rfl⟩ := Expr.literal_start hliteral h hfloats
    · rw [htext]
      exact .of_other hb hletter hbl
    · refine .of_word ((isWord_bool v).nextWord hbl (wordRun_of_stops htail)) (.inr (.inl ?_))
      cases v <;> simp
  · refine .of_primary fun n good bl tail hbl htail hpoint _ _ => ?_
    exact (Expr.reads_literal hliteral h hfloats hbl htail hpoint).mono id fun a ha =>
      iff_of_true ha.1 hplain

theorem readsBack_list (l : Location) {es : List Expr} (hes : ∀ e ∈ es, e.ReadsBack src) :
    (Expr.list l es).ReadsBack src := by
  have hplain : (Expr.list l es).Plain ↔ ∀ e ∈ es, e.Plain := exprsPlain_iff es
  refine .of_chain rfl rfl rfl (ends_cons (0x5b :: commaJoin (exprsPrint es)) (by decide)) ?_ ?_
  · exact fun bl tail hbl _ => .of_other rfl rfl hbl
  · refine .of_primary fun n good bl tail hbl _ _ hn hgood => ?_
    have htext : (Expr.list l es).print ++ tail =
      0x5b :: (commaJoin (es.map Expr.print) ++ 0x5d :: tail) := by
      simp [Expr.print]
    rw [htext] at hn ⊢
    have hopen : Next .openBracket (bl ++ 0x5b :: (commaJoin (es.map Expr.print) ++ 0x5d :: tail))
        (commaJoin (es.map Expr.print) ++ 0x5d :: tail) := Next.append ⟨rfl, rfl, rfl⟩ hbl
    refine reads_primary_punct (by simp) hbl fun s => ?_
    refine Reads.punct_other hopen (by decide)
      (Reads.punct_other hopen (by decide) (Reads.punct_then hopen ?_))
    refine (reads_exprs (by simp) ⟨rfl, rfl, rfl⟩ (by decide) (by decide)
      (fun e he => (hes e he).starts)
      (fun e he => (hes e he).whole n good fun hg => hplain.1 (hgood hg) e he) ?_).bind
      fun as has => ?_
    · simp only [List.length_append, List.length_cons] at hn ⊢
      omega
    refine (reads_locationFrom s).bind fun _ _ => Reads.pure ?_
    rw [hplain, ← map_eq_iff_of_forall₂ has]
    simp [Expr.bare]

/-- A comma after the only element makes a tuple. -/
theorem reads_single_tuple {e : Expr} {n start : Nat} {good : Prop} {tail : List UInt8}
    (hstarts : Starts e.print)
    (hwhole : ReadsItem src (nested src n .expr) Expr.print ExprEnd n good (fun e a =>
      a.bare = e.bare ↔ e.Plain) e) (hn : (e.print ++ 0x2c :: 0x29 :: tail).length < n) :
    Reads src (parenthesised src (nested src n) start) (e.print ++ 0x2c :: 0x29 :: tail) tail good
      fun a => ∃ l a', a = .tuple l [a'] ∧ (a'.bare = e.bare ↔ e.Plain) := by
  have hspread : Spread (fun x : Expr => x.print ++ [0x2c]) [e] ([] ++ (e.print ++ [0x2c] ++ [])) :=
    .cons allBlank_nil (.nil allBlank_nil)
  refine Reads.of_suffix fun hsuffix => ?_
  have hsize : (e.print ++ 0x2c :: 0x29 :: tail).length ≤ src.size := by
    simpa [Source.size] using hsuffix.length_le
  have htext : [] ++ ([] ++ (e.print ++ [0x2c] ++ []) ++ 0x29 :: tail) =
    e.print ++ 0x2c :: 0x29 :: tail := by simp
  have hlist : Reads src (closedList src (nested src n .expr) .closeParen (rounds src))
      (e.print ++ 0x2c :: 0x29 :: tail) tail good
      (List.Forall₂ (fun e a => a.bare = e.bare ↔ e.Plain) [e]) := by
    rw [← htext] at hn hsize ⊢
    exact reads_closedList_of_spread hspread (List.forall_mem_singleton.2 hwhole)
      (List.forall_mem_singleton.2 hstarts) (fun r => exprEnd_cons (by simp) r) ⟨rfl, rfl, rfl⟩
      (by decide) allBlank_nil hn (Nat.lt_succ_of_le hsize)
  refine hlist.bind fun as has => ?_
  cases has with
  | cons ha hnil =>
    cases hnil
    refine reads_get.bind fun j hj => ?_
    have hcomma : trailingComma src j = true := trailingComma_eq hj hsuffix (by decide)
    rw [closesAfterComma_eq hj.2, look_pure, pure_bind, hcomma]
    exact (reads_locationFrom start).bind fun l _ => Reads.pure ⟨l, _, rfl, ha⟩

theorem readsBack_tuple (l : Location) {es : List Expr} (hes : ∀ e ∈ es, e.ReadsBack src) :
    (Expr.tuple l es).ReadsBack src := by
  have hplain : (Expr.tuple l es).Plain ↔ ∀ e ∈ es, e.Plain := exprsPlain_iff es
  have hends : Ends (Expr.tuple l es).print := by
    rw [Expr.print]
    split
    · exact ((ends_cons [0x2c] (by decide)).append (commaJoin (exprsPrint es))).append [0x28]
    · exact ((ends_cons [] (by decide)).append (commaJoin (exprsPrint es))).append [0x28]
  refine .of_chain rfl rfl rfl hends ?_ ?_
  · exact fun bl tail hbl _ => .of_other rfl rfl hbl
  refine .of_primary fun n good bl tail hbl _ _ hn hgood => ?_
  have hitem : ∀ e ∈ es, ReadsItem src (nested src n .expr) Expr.print ExprEnd n good
    (fun e a => a.bare = e.bare ↔ e.Plain) e :=
    fun e he => (hes e he).whole n good fun hg => hplain.1 (hgood hg) e he
  by_cases hlen : es.length = 1
  · obtain ⟨e, rfl⟩ := List.length_eq_one_iff.1 hlen
    have htext : (Expr.tuple l [e]).print ++ tail = 0x28 :: (e.print ++ 0x2c :: 0x29 :: tail) := by
      simp [Expr.print, commaJoin]
    rw [htext] at hn ⊢
    refine reads_primary_paren hbl fun start => ?_
    refine (reads_single_tuple (hes e (by simp)).starts (hitem e (by simp)) ?_).mono id ?_
    · simp only [List.length_append, List.length_cons] at hn ⊢
      omega
    · rintro _ ⟨l', a, rfl, ha⟩
      rw [hplain]
      simpa [Expr.bare] using ha
  · have htext : (Expr.tuple l es).print ++ tail =
      0x28 :: (commaJoin (es.map Expr.print) ++ 0x29 :: tail) := by
      simp [Expr.print, hlen]
    rw [htext] at hn ⊢
    refine reads_primary_paren hbl fun start => ?_
    refine (reads_exprs (by simp) ⟨rfl, rfl, rfl⟩ (by decide) (by decide)
      (fun e he => (hes e he).starts) hitem ?_).bind
      fun as has => ?_
    · simp only [List.length_append, List.length_cons] at hn ⊢
      omega
    have hbare : ∀ l', (Expr.tuple l' as).bare = (Expr.tuple l es).bare ↔
      (Expr.tuple l es).Plain := by
      intro l'
      rw [hplain, ← map_eq_iff_of_forall₂ has]
      simp [Expr.bare]
    rw [has.length_eq] at hlen
    rcases as with _ | ⟨a, _ | ⟨a', as⟩⟩
    · exact (reads_locationFrom start).bind fun l' _ => Reads.pure (hbare l')
    · exact absurd rfl hlen
    · exact (reads_locationFrom start).bind fun l' _ => Reads.pure (hbare l')

theorem readsBack_lambda (l : Location) {ps : List Param} {b : Expr} (hps : ∀ p ∈ ps, p.Legible)
    (hb : b.ReadsBack src) : (Expr.lambda l ps b).ReadsBack src := by
  have hword : IsWord "lambda" := isWord_keyword (by decide)
  have hends : Ends (Expr.lambda l ps b).print :=
    ((((ends_cons [0x20] (by decide)).append b.print).append [0x29, 0x20, 0x7b, 0x20]).append
      (0x28 :: commaJoin (ps.map Param.print))).append (Text.bytesOf "lambda")
  refine .of_chain rfl rfl (hword.starts.append _) (by simpa [Expr.print] using hends) ?_ ?_
  · intro bl tail hbl _
    have htext : (Expr.lambda l ps b).print ++ tail =
      Text.bytesOf "lambda" ++
        0x28 :: (commaJoin (ps.map Param.print) ++ 0x29 :: 0x20 :: 0x7b :: 0x20 ::
          (b.print ++ 0x20 :: 0x7d :: tail)) := by simp [Expr.print]
    rw [htext]
    exact .of_word (hword.nextWord hbl rfl) (.inr (.inl (by simp)))
  · refine .of_primary fun n good bl tail hbl _ _ hn hgood => ?_
    have htext : (Expr.lambda l ps b).print ++ tail =
      Text.bytesOf "lambda" ++
        0x28 :: (commaJoin (ps.map Param.print) ++ 0x29 :: 0x20 :: 0x7b ::
          ([0x20] ++ (b.print ++ 0x20 :: 0x7d :: tail))) := by simp [Expr.print]
    rw [htext] at hn ⊢
    simp only [List.length_append, List.length_cons] at hn
    refine reads_primary_word (hword.nextWord hbl rfl) fun s stop hstop =>
      (reads_set hstop).bind fun _ _ => ?_
    show Reads src (Reading.lambda src (nested src n) s) _ _ _ _
    refine ((reads_params hps ?_).inContext _).bind fun qs hqs =>
      (reads_expect ⟨rfl, rfl, rfl⟩).bind fun _ _ => ?_
    · simp only [List.length_append, List.length_cons]
      omega
    refine ((hb.whole n good hgood [0x20] _ allBlank_blank (exprEnd_blank_cons (by simp) _)
      ?_).inContext _).bind
      fun a (ha : a.bare = b.bare ↔ b.Plain) => (reads_expect ⟨rfl, rfl, rfl⟩).bind fun _ _ => ?_
    · simp only [List.length_append, List.length_cons]
      omega
    refine (reads_locationFrom s).bind fun _ _ => Reads.pure ?_
    show _ ↔ b.Plain
    rw [← ha]
    simp [Expr.bare, hqs]

/-! ### Operands and what is written between parentheses as one -/

/-- An operand stands as it is or between parentheses. -/
theorem enclose_cases (e : Expr) :
    (e.isIfElse = false ∧ e.enclose e.print = e.print) ∨
      e.enclose e.print = 0x28 :: (e.print ++ [0x29]) := by
  cases e with
  | binOp | ifElse | matchOn => exact .inr rfl
  | _ => exact .inl ⟨rfl, rfl⟩

theorem ReadsBack.starts_operand {e : Expr} (h : e.ReadsBack src) : Starts (e.enclose e.print) := by
  rcases e.enclose_cases with ⟨-, heq⟩ | heq <;> rw [heq]
  · exact h.starts
  · rfl

theorem ReadsBack.ends_operand {e : Expr} (h : e.ReadsBack src) : Ends (e.enclose e.print) := by
  rcases e.enclose_cases with ⟨-, heq⟩ | heq <;> rw [heq]
  · exact h.ends
  · exact ends_cons (0x28 :: e.print) (by decide)

theorem ReadsBack.opens_operand {e : Expr} (h : e.ReadsBack src) {bl tail : List UInt8}
    (hbl : AllBlank bl) (htail : stops [.colon, .equals] tail = true) :
    Opens false (bl ++ (e.enclose e.print ++ tail)) := by
  rcases e.enclose_cases with ⟨hif, heq⟩ | heq <;> rw [heq]
  · exact hif ▸ h.opens bl tail hbl htail
  · exact .of_other rfl rfl hbl

/-- An expression that stands between parentheses as an operand reads back if it does on its own. -/
theorem ReadsBack.of_enclosed {e : Expr}
    (henclose : e.enclose e.print = 0x28 :: (e.print ++ [0x29])) (hstarts : Starts e.print)
    (hends : Ends e.print)
    (hopens : ∀ bl tail, AllBlank bl → stops [.colon, .equals] tail = true →
      Opens e.isIfElse (bl ++ (e.print ++ tail)))
    (hwhole : ∀ n good, (good → e.Plain) →
      ReadsItem src (nested src n .expr) Expr.print ExprEnd n good
        (fun e a => a.bare = e.bare ↔ e.Plain) e)
    (helseIf : e.isIfElse = true → ∀ n good, (good → e.Plain) →
      ReadsItem src (nested src n .ifExpr) Expr.print (fun _ => True) n good
        (fun e a => a.bare = e.bare ↔ e.Plain) e) :
    e.ReadsBack src where
  starts := hstarts
  ends := hends
  opens := hopens
  whole := hwhole
  operand := henclose ▸ chains_enclosed hstarts hends hwhole
  elseIf := helseIf

theorem readsBack_binOp (l : Location) (op : Operator) {x y : Expr} (hx : x.ReadsBack src)
    (hy : y.ReadsBack src) : (Expr.binOp l op x y).ReadsBack src := by
  have htext : ∀ tail, (Expr.binOp l op x y).print ++ tail =
      x.enclose x.print ++
        0x20 :: (Text.bytesOf op.symbol ++ 0x20 :: (y.enclose y.print ++ tail)) := by
    simp [Expr.print]
  have hends :=
    (hy.ends_operand.append (0x20 :: (Text.bytesOf op.symbol ++ [0x20]))).append (x.enclose x.print)
  refine .of_enclosed rfl (hx.starts_operand.append _) (by simpa [Expr.print] using hends) ?_ ?_
    (by simp [Expr.isIfElse])
  · intro bl tail hbl _
    rw [htext]
    refine (hx.opens_operand hbl (Operator.stops_of_token_notMem ?_ _)).mono
    cases op <;> decide
  · intro n good hgood bl tail hbl htail hn
    obtain ⟨n, rfl⟩ : ∃ m, n = m + 1 := ⟨n - 1, by omega⟩
    rw [htext] at hn ⊢
    refine reads_binary_of_binOp hx.operand hy.operand hx.starts_operand hy.starts_operand ?_
      (by decide) (by decide) hbl htail.apart (stops_mono htail (List.subset_append_left _ _))
      (by omega) hgood fun l' a b ha hb => ?_
    · cases op <;> decide
    · show _ ↔ x.Plain ∧ y.Plain
      rw [← ha, ← hb]
      simp [Expr.bare]

/-! ### Matches -/

/-- An arm of a match reads back if its pattern and its expression do. -/
theorem reads_case {c : Case} {n : Nat} {good : Prop} (hp : c.pattern.ReadsBack src)
    (hb : c.body.ReadsBack src) (hgood : good → c.Plain) :
    ReadsItem src (matchCase src (nested src n)) Case.print ExprEnd n good
      (fun c a => a.bare = c.bare ↔ c.Plain) c := by
  intro bl tail hbl htail hn
  obtain ⟨l, p, b⟩ := c
  have htext : (Case.mk l p b).print ++ tail =
    p.print ++ 0x20 :: 0x3d :: 0x3e :: ([0x20] ++ (b.print ++ tail)) := by
    simp [Case.print]
  rw [htext] at hn ⊢
  have hlen : ([0x20] ++ (b.print ++ tail)).length < n := by
    simp only [List.length_append, List.length_cons] at hn ⊢
    omega
  refine (reads_tokenStart ((hp.starts.append _).solid_skipped hbl)).bind fun s _ => ?_
  have hend : PatternEnd (0x20 :: 0x3d :: 0x3e :: ([0x20] ++ (b.print ++ tail))) := rfl
  refine ((hp.whole n good (fun hg => (hgood hg).1) bl _ hbl hend hn).inContext _).bind
    fun p' (hp' : p'.bare = p.bare ↔ p.Plain) => ?_
  refine (reads_expect ⟨rfl, rfl, rfl⟩).bind fun _ _ => ?_
  refine ((hb.whole n good (fun hg => (hgood hg).2) [0x20] tail allBlank_blank htail hlen).inContext
    _).bind
    fun b' (hb' : b'.bare = b.bare ↔ b.Plain) => ?_
  refine (reads_locationFrom s).bind fun _ _ => Reads.pure ?_
  show _ ↔ p.Plain ∧ b.Plain
  rw [← hb', ← hp']
  simp [Case.bare]

theorem readsBack_matchOn (l : Location) {x : Expr} {cs : List Case} (hx : x.ReadsBack src)
    (hcs : ∀ c ∈ cs, c.pattern.ReadsBack src ∧ c.body.ReadsBack src) :
    (Expr.matchOn l x cs).ReadsBack src := by
  have hplain : (Expr.matchOn l x cs).Plain ↔ x.Plain ∧ ∀ c ∈ cs, c.Plain := by
    rw [← casesPlain_iff]
    rfl
  have hword : IsWord "match" := isWord_keyword (by decide)
  have htext : ∀ tail, (Expr.matchOn l x cs).print ++ tail =
    Text.bytesOf "match" ++
      0x20 :: (x.print ++
      0x20 :: 0x7b :: ([0x20] ++ (commaJoin (cs.map Case.print) ++ 0x20 :: 0x7d :: tail))) := by
    simp [Expr.print]
  have hends : Ends (Expr.matchOn l x cs).print := by
    have hlast :=
      ends_cons (Text.bytesOf "match" ++
        0x20 :: (x.print ++ 0x20 :: 0x7b :: 0x20 :: (commaJoin (casesPrint cs) ++ [0x20])))
      (show ((0x7d : UInt8) != 0x2c && !Source.isBlankByte 0x7d) = true by decide)
    simpa [Expr.print] using hlast
  have hchain : Chains src (Expr.matchOn l x cs) (Expr.matchOn l x cs).print := by
    refine .of_primary fun n good bl tail hbl _ _ hn hgood => ?_
    rw [htext] at hn ⊢
    refine Reads.of_length fun hsize => ?_
    have hpos := List.length_pos_of_ne_nil hword.starts.ne_nil
    simp only [List.length_append, List.length_cons, List.length_nil] at hn hsize
    refine reads_primary_word (hword.nextWord hbl rfl) fun s stop hstop =>
      (reads_set hstop).bind fun _ _ => ?_
    show Reads src (matchTail src (nested src n) s) _ _ _ _
    refine ((hx.whole n good (fun hg => (hplain.1 (hgood hg)).1) [0x20] _ allBlank_blank
      (exprEnd_blank_cons (by simp) _) ?_).inContext
      _).bind fun x' (hx' : x'.bare = x.bare ↔ x.Plain) =>
      (reads_expect ⟨rfl, rfl, rfl⟩).bind fun _ _ => ?_
    · simp only [List.length_append, List.length_cons, List.length_nil]
      omega
    refine (reads_closedList
      (fun c hc => reads_case (hcs c hc).1 (hcs c hc).2 fun hg => (hplain.1 (hgood hg)).2 c hc)
      (fun c hc => Case.starts (hcs c hc).1.starts) (fun r => exprEnd_cons (by simp) r)
      (exprEnd_blank_cons (by simp) tail) ⟨rfl, rfl, rfl⟩ (by decide) (by decide) allBlank_blank ?_
      ?_).bind fun cs' hcs' => ?_
    · simp only [List.length_append, List.length_cons, List.length_nil]
      omega
    · simp only [List.length_append, List.length_cons, List.length_nil, rounds]
      omega
    refine (reads_locationFrom s).bind fun _ _ => Reads.pure ?_
    rw [hplain, ← hx', ← map_eq_iff_of_forall₂ hcs']
    simp [Expr.bare]
  have hstarts : Starts (Expr.matchOn l x cs).print := hword.starts.append _
  refine .of_enclosed rfl hstarts hends ?_ (whole_of_chain hchain hstarts) (by simp [Expr.isIfElse])
  intro bl tail hbl _
  rw [htext]
  exact .of_word (hword.nextWord hbl rfl) (.inr (.inl (by simp)))

/-! ### Conditionals -/

/-- An expression between braces. -/
theorem reads_braced {e : Expr} {n : Nat} {good : Prop} {tail : List UInt8} (he : e.ReadsBack src)
    (hgood : good → e.Plain)
    (hn : (0x20 :: 0x7b :: ([0x20] ++ (e.print ++ 0x20 :: 0x7d :: tail))).length ≤ n) :
    Reads src (braced src (nested src n))
      (0x20 :: 0x7b :: ([0x20] ++ (e.print ++ 0x20 :: 0x7d :: tail))) tail good fun a =>
        a.bare = e.bare ↔ e.Plain := by
  refine (reads_expect ⟨rfl, rfl, rfl⟩).bind fun _ _ => ?_
  refine (he.whole n good hgood [0x20] _ allBlank_blank (exprEnd_blank_cons (by simp) _) ?_).bind
    fun a ha => ?_
  · simp only [List.length_cons] at hn
    omega
  exact (reads_expect ⟨rfl, rfl, rfl⟩).bind fun _ _ => Reads.pure ha

theorem brace_eq {e : Expr} (h : e.isIfElse = false) (s : List UInt8) :
    e.brace s = 0x7b :: 0x20 :: (s ++ [0x20, 0x7d]) := by
  cases e <;> first | rfl | exact absurd h (by simp [isIfElse])

theorem brace_eq_self {e : Expr} (h : e.isIfElse = true) (s : List UInt8) : e.brace s = s := by
  cases e <;> first | rfl | exact absurd h (by simp [isIfElse])

theorem exists_print_of_isIfElse {e : Expr} (h : e.isIfElse = true) :
    ∃ rest, e.print = Text.bytesOf "if" ++ 0x20 :: rest := by
  cases e <;> first | exact ⟨_, rfl⟩ | exact absurd h (by simp [isIfElse])

/-- The arm after `else`: a conditional as it stands, anything else between braces. -/
theorem reads_elseArm {e : Expr} {n : Nat} {good : Prop} {tail : List UInt8} (he : e.ReadsBack src)
    (hgood : good → e.Plain) (hn : (0x20 :: (e.brace e.print ++ tail)).length < n) :
    Reads src (do if ← nextIsKeyword src "if" then nested src n .ifExpr else
      braced src (nested src n))
      (0x20 :: (e.brace e.print ++ tail)) tail good fun a => a.bare = e.bare ↔ e.Plain := by
  cases hif : e.isIfElse with
  | true =>
    rw [brace_eq_self hif] at hn ⊢
    obtain ⟨rest, hprint⟩ := exists_print_of_isIfElse hif
    have hword : NextWord "if" (0x20 :: (e.print ++ tail)) (0x20 :: (rest ++ tail)) := by
      rw [hprint, List.append_assoc]
      exact isWord_if.nextWord allBlank_blank rfl
    exact Reads.nextKeyword_then hword (he.elseIf hif n good hgood [0x20] tail allBlank_blank
      trivial hn)
  | false =>
    have htext : 0x20 :: (e.brace e.print ++ tail) =
      0x20 :: 0x7b :: ([0x20] ++ (e.print ++ 0x20 :: 0x7d :: tail)) := by
      simp [brace_eq hif]
    rw [htext] at hn ⊢
    exact Reads.nextKeyword_else rfl (Next.nextWord_ne (t := .openBrace) ⟨rfl, rfl, rfl⟩ _)
      (reads_braced he hgood hn.le)

/-- A conditional after its keyword. -/
theorem reads_ifExprTail {l : Location} {c t e : Expr} {n start : Nat} {good : Prop}
    {tail : List UInt8} (hc : c.ReadsBack src) (ht : t.ReadsBack src) (he : e.ReadsBack src)
    (hgood : good → (Expr.ifElse l c t e).Plain)
    (hn : ([0x20] ++
      (c.print ++ 0x20 :: 0x7b ::
        ([0x20] ++ (t.print ++
          0x20 :: 0x7d ::
            ([0x20] ++ (Text.bytesOf "else" ++ 0x20 :: (e.brace e.print ++ tail))))))).length < n) :
    Reads src (ifExprTail src (nested src n) start)
      ([0x20] ++ (c.print ++
        0x20 :: 0x7b ::
          ([0x20] ++ (t.print ++
            0x20 :: 0x7d ::
              ([0x20] ++ (Text.bytesOf "else" ++ 0x20 :: (e.brace e.print ++ tail))))))) tail good
      fun a => a.bare = (Expr.ifElse l c t e).bare ↔ (Expr.ifElse l c t e).Plain := by
  refine ((hc.whole n good (fun hg => (hgood hg).1) [0x20] _ allBlank_blank
    (exprEnd_blank_cons (by simp) _) hn).inContext _).bind
    fun c' (hc' : c'.bare = c.bare ↔ c.Plain) => ?_
  simp only [List.length_append, List.length_cons, List.length_nil] at hn
  refine ((reads_braced ht (fun hg => (hgood hg).2.1) ?_).inContext _).bind fun t' ht' => ?_
  · simp only [List.length_append, List.length_cons, List.length_nil]
    omega
  refine Reads.keyword_then (isWord_else.nextWord allBlank_blank rfl) ?_
  refine ((reads_elseArm he (fun hg => (hgood hg).2.2) ?_).inContext _).bind fun e' he' => ?_
  · simp only [List.length_append, List.length_cons]
    omega
  refine (reads_locationFrom start).bind fun _ _ => Reads.pure ?_
  show _ ↔ c.Plain ∧ t.Plain ∧ e.Plain
  rw [← hc', ← ht', ← he']
  simp [Expr.bare]

theorem readsBack_ifElse (l : Location) {c t e : Expr} (hc : c.ReadsBack src) (ht : t.ReadsBack src)
    (he : e.ReadsBack src) : (Expr.ifElse l c t e).ReadsBack src := by
  have htext : ∀ tail, (Expr.ifElse l c t e).print ++ tail =
    Text.bytesOf "if" ++
      ([0x20] ++ (c.print ++
      0x20 :: 0x7b ::
        ([0x20] ++ (t.print ++
          0x20 :: 0x7d ::
            ([0x20] ++ (Text.bytesOf "else" ++ 0x20 :: (e.brace e.print ++ tail))))))) := by
    simp [Expr.print]
  have hpos := List.length_pos_of_ne_nil isWord_if.starts.ne_nil
  have hstarts : Starts (Expr.ifElse l c t e).print := isWord_if.starts.append _
  have hlast : Ends (e.brace e.print) := by
    cases hif : e.isIfElse with
    | true =>
      rw [brace_eq_self hif]
      exact he.ends
    | false =>
      rw [brace_eq hif]
      exact ((ends_cons [0x20] (by decide)).append e.print).append [0x7b, 0x20]
  have hends : Ends (Expr.ifElse l c t e).print := by
    have hfront :=
      hlast.append
        (Text.bytesOf "if" ++
          0x20 :: (c.print ++ 0x20 :: 0x7b :: 0x20 ::
            (t.print ++ 0x20 :: 0x7d :: 0x20 :: (Text.bytesOf "else" ++ [0x20]))))
    simpa [Expr.print] using hfront
  have hchain : Chains src (Expr.ifElse l c t e) (Expr.ifElse l c t e).print := by
    refine .of_primary fun n good bl tail hbl _ _ hn hgood => ?_
    rw [htext] at hn ⊢
    refine reads_primary_word (isWord_if.nextWord hbl rfl) fun s stop hstop =>
      (reads_set hstop).bind fun _ _ => ?_
    refine reads_ifExprTail hc ht he hgood ?_
    rw [List.length_append, List.length_append] at hn
    omega
  refine .of_enclosed rfl hstarts hends ?_ (whole_of_chain hchain hstarts)
    fun _ n good hgood bl tail hbl _ hn => ?_
  · intro bl tail hbl _
    rw [htext]
    exact .of_word (isWord_if.nextWord hbl rfl) (.inr (.inr ⟨rfl, rfl⟩))
  · obtain ⟨n, rfl⟩ : ∃ m, n = m + 1 := ⟨n - 1, by omega⟩
    rw [htext] at hn ⊢
    refine (reads_tokenStart (isWord_if.nextWord hbl rfl).1).bind fun s _ =>
      Reads.keyword_then (isWord_if.nextWord hbl rfl) ?_
    refine reads_ifExprTail hc ht he hgood ?_
    rw [List.length_append, List.length_append] at hn
    omega

/-! ### Calls -/

/-- An argument that starts as an expression is not a named one. -/
theorem reads_namedArg?_none {n : Nat} {good : Prop} {bs : List UInt8} {c : Bool}
    (hsolid : solid (skipped bs) = true) (hopens : Opens c bs) :
    Reads src (namedArg? src (nested src n)) bs bs good (· = none) := by
  refine (reads_tokenStart hsolid).bind fun s hs => ?_
  obtain hkeyword | ⟨w, mid, hw, hname, hmid⟩ := hopens.cases hsolid
  · have hnone : src.name? s = none := by
      have hskip := skipped_of_solid hsolid
      refine Source.At.name?_eq_none hs (by rw [hskip]; exact hsolid) fun w hw => hkeyword w ?_
      rwa [nextWord, hskip] at hw
    rw [src.nameAfter?_eq hs.2, look_pure, pure_bind, hnone]
    exact Reads.pure rfl
  · obtain ⟨j, hsome, hj⟩ := Source.At.name?_of_nextWord hs hw.skipped hname
    have hcolon := nextPunct_ne_of_stops hmid (show Punct.colon ∈ _ by simp)
    rw [src.nameAfter?_eq hs.2, look_pure, pure_bind, hsome]
    dsimp only
    rw [src.punctAfter?_eq hj.2, look_pure, pure_bind, hj.punct? (solid_of_stops hmid)]
    cases hp : nextPunct mid with
    | none => exact Reads.pure rfl
    | some t =>
      have ht : t ≠ .colon := fun heq => hcolon (by rw [hp, heq])
      cases t <;> first | exact Reads.pure rfl | exact absurd rfl ht

/-- A named argument reads back if its value does. -/
theorem reads_namedArg? {a : NamedArg} {n : Nat} {good : Prop} {bl tail : List UInt8}
    (hname : IsName a.name) (hvalue : a.value.ReadsBack src) (hgood : good → a.Plain)
    (hbl : AllBlank bl) (htail : ExprEnd tail) (hn : (bl ++ (a.print ++ tail)).length < n) :
    Reads src (namedArg? src (nested src n)) (bl ++ (a.print ++ tail)) tail good
      fun r => ∃ b, r = some b ∧ (b.bare = a.bare ↔ a.Plain) := by
  obtain ⟨l, w, v⟩ := a
  have hv : v.ReadsBack src := hvalue
  have htext : (NamedArg.mk l w v).print ++ tail =
    Text.bytesOf w ++ 0x3a :: ([0x20] ++ (v.print ++ tail)) := by
    simp [NamedArg.print]
  rw [htext] at hn ⊢
  have hword : NextWord w (bl ++ (Text.bytesOf w ++ 0x3a :: ([0x20] ++ (v.print ++ tail))))
    (0x3a :: ([0x20] ++ (v.print ++ tail))) :=
    hname.1.nextWord hbl rfl
  refine (reads_tokenStart hword.1).bind fun s hs => ?_
  obtain ⟨j, hsome, hj⟩ := Source.At.name?_of_nextWord hs hword.skipped hname.2
  have hafter : src.At (src.trivia j + 1) ([0x20] ++ (v.print ++ tail)) :=
    (show src.At _ ([0x3a] ++ ([0x20] ++ (v.print ++ tail))) from hj.trivia rfl).drop
  have hsolid : solid (skipped (0x3a :: ([0x20] ++ (v.print ++ tail)))) = true := rfl
  rw [src.nameAfter?_eq hs.2, look_pure, pure_bind, hsome]
  dsimp only
  rw [src.punctAfter?_eq hj.2, look_pure, pure_bind, hj.punct? hsolid]
  refine (reads_set hafter).bind fun _ _ => ?_
  refine ((hv.whole n good hgood [0x20] tail allBlank_blank htail ?_).inContext _).bind
    fun v' (hv' : v'.bare = v.bare ↔ v.Plain) =>
      (reads_locationFrom s).bind fun l' _ => Reads.pure ⟨_, rfl, ?_⟩
  · simp only [List.length_append, List.length_cons, List.length_nil] at hn ⊢
    omega
  · show _ ↔ v.Plain
    rw [← hv']
    simp [NamedArg.bare]

/-- Named arguments up to the closing parenthesis. -/
theorem reads_named {ns : List NamedArg} {n fuel : Nat} {good : Prop} {named : Bool}
    {bl tail : List UInt8} (hns : ∀ a ∈ ns, IsName a.name ∧ a.value.ReadsBack src)
    (hgood : good → ∀ a ∈ ns, a.Plain) (hne : ns ≠ []) (hbl : AllBlank bl)
    (hn : (bl ++ (commaJoin (ns.map NamedArg.print) ++ 0x29 :: tail)).length < n)
    (hfuel : (bl ++ (commaJoin (ns.map NamedArg.print) ++ 0x29 :: tail)).length < fuel) :
    Reads src (arguments src (nested src n) fuel named)
      (bl ++ (commaJoin (ns.map NamedArg.print) ++ 0x29 :: tail)) tail good fun r =>
        r.1 = [] ∧ List.Forall₂ (fun a b => b.bare = a.bare ↔ a.Plain) ns r.2 := by
  induction ns generalizing bl fuel named with
  | nil => exact absurd rfl hne
  | cons a ns ih =>
    obtain ⟨fuel, rfl⟩ : ∃ k, fuel = k + 1 := ⟨fuel - 1, by omega⟩
    rw [List.map_cons, commaJoin_cons_append] at hn hfuel ⊢
    obtain ⟨hname, hvalue⟩ := hns a (by simp)
    have hend : ExprEnd (After (ns.map NamedArg.print) (0x29 :: tail)) :=
      after_of_forall (fun r => exprEnd_cons (by simp) r) (exprEnd_cons (by simp) tail) _
    refine (reads_namedArg? hname hvalue (fun hg => hgood hg a (by simp)) hbl hend hn).bind ?_
    rintro _ ⟨b, rfl, hb⟩
    cases ns with
    | nil =>
      refine Reads.punct_other (u := .closeParen) ⟨rfl, rfl, rfl⟩ (by decide) ?_
      exact (reads_expect ⟨rfl, rfl, rfl⟩).bind fun _ _ => Reads.pure ⟨rfl, .cons hb .nil⟩
    | cons c ns =>
      refine Reads.punct_then ⟨rfl, rfl, rfl⟩ ?_
      simp only [List.map_cons, After, List.length_append, List.length_cons] at hn hfuel
      refine (ih (fun a ha => hns a (by simp [ha])) (fun hg a ha => hgood hg a (by simp [ha]))
        (by simp) allBlank_blank ?_ ?_).bind
        fun r hr => ?_
      · simp only [List.map_cons, List.length_append, List.length_cons, List.length_nil]
        omega
      · simp only [List.map_cons, List.length_append, List.length_cons, List.length_nil]
        omega
      · exact Reads.pure ⟨hr.1, .cons hb hr.2⟩

/-- Arguments up to the closing parenthesis: expressions, then named ones. -/
theorem reads_arguments {as : List Expr} {ns : List NamedArg} {n fuel : Nat} {good : Prop}
    {bl tail : List UInt8} (has : ∀ a ∈ as, a.ReadsBack src)
    (hns : ∀ a ∈ ns, IsName a.name ∧ a.value.ReadsBack src) (hgood : good → ∀ a ∈ as, a.Plain)
    (hgood' : good → ∀ a ∈ ns, a.Plain) (hne : as ≠ [] ∨ ns ≠ []) (hbl : AllBlank bl)
    (hn : (bl ++ (commaJoin (as.map Expr.print ++ ns.map NamedArg.print) ++ 0x29 :: tail)).length <
      n)
    (hfuel : (bl ++ (commaJoin (as.map Expr.print ++ ns.map NamedArg.print) ++
      0x29 :: tail)).length < fuel) :
    Reads src (arguments src (nested src n) fuel false)
      (bl ++ (commaJoin (as.map Expr.print ++ ns.map NamedArg.print) ++ 0x29 :: tail))
      tail good fun r =>
        List.Forall₂ (fun e a => a.bare = e.bare ↔ e.Plain) as r.1 ∧
          List.Forall₂ (fun a b => b.bare = a.bare ↔ a.Plain) ns r.2 := by
  induction as generalizing bl fuel with
  | nil =>
    refine (reads_named hns hgood' (hne.resolve_left (by simp)) hbl hn hfuel).mono id fun r hr => ?_
    rw [hr.1]
    exact ⟨.nil, hr.2⟩
  | cons e as ih =>
    obtain ⟨fuel, rfl⟩ : ∃ k, fuel = k + 1 := ⟨fuel - 1, by omega⟩
    rw [List.map_cons, List.cons_append, commaJoin_cons_append] at hn hfuel ⊢
    have he := has e (by simp)
    have hend : ExprEnd (After (as.map Expr.print ++ ns.map NamedArg.print) (0x29 :: tail)) :=
      after_of_forall (fun r => exprEnd_cons (by simp) r) (exprEnd_cons (by simp) tail) _
    refine (reads_namedArg?_none ((he.starts.append _).solid_skipped hbl)
      (he.opens bl _ hbl (stops_mono hend (by simp)))).bind ?_
    rintro _ rfl
    refine ((he.whole n good (fun hg => hgood hg e (by simp)) bl _ hbl hend hn).inContext _).bind
      fun a ha => ?_
    cases hrest : as.map Expr.print ++ ns.map NamedArg.print with
    | nil =>
      obtain ⟨rfl, rfl⟩ : as = [] ∧ ns = [] := by simpa using hrest
      refine Reads.punct_other (u := .closeParen) ⟨rfl, rfl, rfl⟩ (by decide) ?_
      exact (reads_expect ⟨rfl, rfl, rfl⟩).bind fun _ _ => Reads.pure ⟨.cons ha .nil, .nil⟩
    | cons x xs =>
      have hne' : as ≠ [] ∨ ns ≠ [] := by
        by_contra hnone
        simp only [ne_eq, not_or, not_not] at hnone
        simp [hnone] at hrest
      refine Reads.punct_then ⟨rfl, rfl, rfl⟩ ?_
      rw [hrest] at ih hn hfuel
      simp only [After, List.length_append, List.length_cons] at hn hfuel
      refine (ih (fun a ha => has a (by simp [ha])) (fun hg a ha => hgood hg a (by simp [ha])) hne'
        allBlank_blank ?_ ?_).bind
        fun r hr => ?_
      · simp only [List.length_append, List.length_cons, List.length_nil]
        omega
      · simp only [List.length_append, List.length_cons, List.length_nil]
        omega
      · exact Reads.pure ⟨.cons ha hr.1, hr.2⟩

theorem readsBack_call (l : Location) {f : Expr} {as : List Expr} {ns : List NamedArg}
    (hf : f.ReadsBack src) (has : ∀ a ∈ as, a.ReadsBack src)
    (hns : ∀ a ∈ ns, IsName a.name ∧ a.value.ReadsBack src) :
    (Expr.call l f as ns).ReadsBack src := by
  have hplain : (Expr.call l f as ns).Plain ↔ f.Plain ∧ (∀ a ∈ as, a.Plain) ∧
    ∀ a ∈ ns, a.Plain := by
    rw [← exprsPlain_iff, ← namedPlain_iff]
    rfl
  have htext : ∀ tail, (Expr.call l f as ns).print ++ tail =
      f.enclose f.print ++ 0x28 :: (commaJoin (as.map Expr.print ++ ns.map NamedArg.print) ++
        0x29 :: tail) := by simp [Expr.print]
  have hends :=
    ends_cons (f.enclose f.print ++ 0x28 :: commaJoin (as.map Expr.print ++ ns.map NamedArg.print))
      (show ((0x29 : UInt8) != 0x2c && !Source.isBlankByte 0x29) = true by decide)
  refine .of_chain rfl rfl (hf.starts_operand.append _) (by simpa [Expr.print] using hends) ?_ ?_
  · intro bl tail hbl _
    rw [htext]
    exact hf.opens_operand hbl (stops_cons (by decide) _)
  · intro n start fuel bl tail stop good P hbl htail _ hn hfuel hgood hrest
    rw [htext] at hn hfuel ⊢
    refine hf.operand n start fuel bl _ stop good P hbl ⟨rfl, by simp⟩ (fun _ => rfl) hn hfuel
      (fun hg => (hplain.1 (hgood hg)).1) fun f' k hf' hk => ?_
    obtain ⟨k, rfl⟩ : ∃ m, k = m + 1 := ⟨k - 1, by omega⟩
    have hcall : ∀ l' as' ns', List.Forall₂ (fun e a => a.bare = e.bare ↔ e.Plain) as as' →
        List.Forall₂ (fun a b => b.bare = a.bare ↔ a.Plain) ns ns' →
        Reads src (postfixes src (nested src n) start k (.call l' f' as' ns')) tail
          stop good P := by
      intro l' as' ns' has' hns'
      refine hrest _ k ?_ ?_
      · rw [hplain, ← hf', ← map_eq_iff_of_forall₂ has', ← map_eq_iff_of_forall₂ hns']
        simp [Expr.bare]
      · simp only [List.length_append, List.length_cons] at hk
        omega
    refine Reads.punct_then ⟨rfl, rfl, rfl⟩ ?_
    by_cases hempty : as = [] ∧ ns = []
    · obtain ⟨rfl, rfl⟩ := hempty
      refine Reads.punct_then ⟨rfl, rfl, rfl⟩ ((Reads.pure rfl).bind ?_)
      rintro _ rfl
      exact (reads_locationFrom start).bind fun l' _ => hcall l' [] [] .nil .nil
    · have hfirst : Starts (commaJoin (as.map Expr.print ++ ns.map NamedArg.print) ++
        0x29 :: tail) := by
        cases as with
        | cons a as =>
          rw [List.map_cons, List.cons_append, commaJoin_cons_append]
          exact (has a (by simp)).starts.append _
        | nil =>
          cases ns with
          | cons a ns =>
            rw [List.map_nil, List.nil_append, List.map_cons, commaJoin_cons_append]
            exact (NamedArg.starts (hns a (by simp)).1).append _
          | nil => exact absurd ⟨rfl, rfl⟩ hempty
      refine Reads.punct_else (hfirst.solid_skipped allBlank_nil)
        (hfirst.nextPunct_ne allBlank_nil (by decide)) ?_
      refine Reads.of_length fun hsize => ?_
      refine (reads_arguments has hns (fun hg => (hplain.1 (hgood hg)).2.1)
        (fun hg => (hplain.1 (hgood hg)).2.2) ?_ allBlank_nil ?_ (Nat.lt_succ_of_le hsize)).bind
        fun r hr => ?_
      · tauto
      · simp only [List.length_append, List.length_cons, List.length_nil] at hn ⊢
        omega
      · exact (reads_locationFrom start).bind fun l' _ => hcall l' r.1 r.2 hr.1 hr.2

/-! ### Field accesses -/

/-- The text of a field is a word or digits. -/
theorem reads_fieldName {f : String} {good : Prop} {tail : List UInt8} (hf : IsWord f ∨ IsDigits f)
    (htail : wordRun tail = []) :
    Reads src (fieldName src) (Text.bytesOf f ++ tail) tail good (f = ·) := by
  rcases hf with hword | hdigits
  · have hnext := hword.nextWord allBlank_nil htail
    refine (reads_tokenStart hnext.1).bind fun s hs => ?_
    obtain ⟨j, hsome, hj⟩ := hs.word?_eq_some hnext
    rw [src.wordAt?_eq hs.2, look_pure, pure_bind, hsome]
    exact (reads_set hj).bind fun _ _ => Reads.pure rfl
  · obtain ⟨hrun, htext⟩ := hdigits.digitRun
    have hstarts := hrun.starts.append tail
    refine (reads_tokenStart (hstarts.solid_skipped allBlank_nil)).bind fun s hs => ?_
    rw [hstarts.skipped allBlank_nil] at hs
    have hpos := List.length_pos_of_ne_nil hrun.1
    have hstop := skipWhile_digits hs hrun (not_digit_of_wordRun htail).2
    have hnone : src.word? s = none := by
      rw [hs.word?, hrun.not_letter tail, if_neg Bool.false_ne_true]
    rw [src.wordAt?_eq hs.2, look_pure, pure_bind, hnone]
    dsimp only
    rw [src.pass_eq, look_pure, pure_bind, hstop, if_neg (by omega),
      Source.cut_eq (by omega) hs.drop.2, look_pure, pure_bind, slice_of_at hs, htext]
    exact (reads_set hs.drop).bind fun _ _ => Reads.pure rfl

/-- Digits after a number and a point make it a float. -/
theorem reads_number_access {x : Expr} {f : String} {sub : SubReader} {good : Prop}
    {bl tail : List UInt8} (hx : x.isNumber = true) (hf : DigitRun (Text.bytesOf f))
    (hgood : ¬ good) (hbl : AllBlank bl) (htail : wordRun tail = []) :
    Reads src (primary src sub) (bl ++ (x.print ++ 0x2e :: (Text.bytesOf f ++ tail))) tail good
      fun a => ∃ l v, a = .float l v := by
  cases x with
  | uint l v =>
    refine (reads_float hbl (decimal_digits v.toNat).1 hf htail fun hg => absurd hg hgood).mono id
      ?_
    rintro a ⟨l', rfl⟩
    exact ⟨l', _, rfl⟩
  | int l v =>
    obtain ⟨b, ds, n, hb, htext, hrun, -⟩ := signed_digits v.toInt
    have hprint : (Expr.int l v).print = b :: ds := htext
    rw [hprint, List.cons_append]
    refine (reads_signed_float hb hbl hrun hf htail fun hg => absurd hg hgood).mono id ?_
    rintro a ⟨l', rfl⟩
    exact ⟨l', _, rfl⟩
  | _ => exact absurd hx (by simp [isNumber])

theorem isNumberAccess_eq (l : Location) (x : Expr) (f : String) :
    (Expr.access l x f).isNumberAccess = (x.isNumber && (Text.bytesOf f).all isDigit) := by
  cases x <;> simp [isNumberAccess, isNumber]

theorem readsBack_access (l : Location) {x : Expr} {f : String} (hx : x.ReadsBack src)
    (hf : IsWord f ∨ IsDigits f) : (Expr.access l x f).ReadsBack src := by
  have htext : ∀ tail, (Expr.access l x f).print ++ tail =
    x.enclose x.print ++ 0x2e :: (Text.bytesOf f ++ tail) := by
    simp [Expr.print]
  have hends : Ends (Text.bytesOf f) := hf.elim IsWord.ends fun h => h.digitRun.1.ends
  have hplain : (Expr.access l x f).Plain ↔ (x.isNumber && (Text.bytesOf f).all isDigit) = false ∧
    x.Plain := by
    rw [← isNumberAccess_eq l]
    rfl
  refine .of_chain rfl rfl (hx.starts_operand.append _) ((hends.append [0x2e]).append _) ?_ ?_
  · intro bl tail hbl _
    rw [htext]
    exact hx.opens_operand hbl (stops_cons (by decide) _)
  intro n start fuel bl tail stop good P hbl htail _ hn hfuel hgood hrest
  rw [htext] at hn hfuel ⊢
  cases hnumber : x.isNumber && (Text.bytesOf f).all isDigit with
  | true =>
    have hnot : ¬ (Expr.access l x f).Plain := by simp [hplain, hnumber]
    simp only [Bool.and_eq_true, List.all_eq_true] at hnumber
    have hrun : DigitRun (Text.bytesOf f) := ⟨by rintro hnil; simp [Ends, hnil] at hends, hnumber.2⟩
    have henclose : x.enclose x.print = x.print := by
      cases x <;> first | rfl | exact absurd hnumber.1 (by simp [isNumber])
    rw [henclose] at hfuel ⊢
    refine (reads_number_access hnumber.1 hrun (fun hg => hnot (hgood hg)) hbl htail.1).bind ?_
    rintro _ ⟨l', v, rfl⟩
    refine hrest _ fuel (iff_of_false (by simp [Expr.bare]) hnot) ?_
    simp only [List.length_append, List.length_cons] at hfuel
    omega
  | false =>
    have hpoint : x.isNumber = true → pointDigit (0x2e :: (Text.bytesOf f ++ tail)) = false := by
      intro hx
      rw [hx, Bool.true_and] at hnumber
      have hword : IsWord f := hf.resolve_right fun h => by
        rw [List.all_eq_true.2 h.digitRun.1.2] at hnumber
        exact absurd hnumber (by simp)
      have hall : ∀ b : UInt8, isLetter b = true → isDigit b = false := by decide +kernel
      have hfirst := hword.isWordBytes.1.1
      cases hb : Text.bytesOf f with
      | nil => simp [hb] at hfirst
      | cons b bs =>
        rw [hb] at hfirst
        simpa [pointDigit] using hall b hfirst
    refine hx.operand n start fuel bl _ stop good P hbl ⟨rfl, by simp⟩ hpoint hn hfuel
      (fun hg => (hplain.1 (hgood hg)).2) fun x' k hx' hk => ?_
    obtain ⟨k, rfl⟩ : ∃ m, k = m + 1 := ⟨k - 1, by omega⟩
    have hdot : Next .dot (0x2e :: (Text.bytesOf f ++ tail)) (Text.bytesOf f ++ tail) :=
      ⟨rfl, rfl, rfl⟩
    refine Reads.punct_other hdot (by decide) (Reads.punct_then hdot ?_)
    refine (reads_fieldName hf htail.1).bind ?_
    rintro _ rfl
    refine (reads_locationFrom start).bind fun l' _ => hrest _ k ?_ ?_
    · rw [hplain, hnumber, ← hx']
      simp [Expr.bare]
    · simp only [List.length_append, List.length_cons] at hk
      omega

/-- What is written for a legible expression reads back as far as it can. -/
theorem readsBack (src : Source) {e : Expr} (h : e.Legible) (hfloats : FloatsReadBack e.floats) :
    e.ReadsBack src := by
  induction e using Expr.inductionOn with
  | hvar l n => exact readsBack_var l h
  | huint | hint | hfloat | hstr | hbool | heraser => exact readsBack_literal rfl h hfloats
  | htuple l es ih =>
    have hfloats' := floatsReadBack_flatMap ((exprsFloats_eq_flatMap _).subst hfloats)
    exact readsBack_tuple l fun e he => ih e he ((exprsLegible_iff _).1 h e he) (hfloats' e he)
  | hlist l es ih =>
    have hfloats' := floatsReadBack_flatMap ((exprsFloats_eq_flatMap _).subst hfloats)
    exact readsBack_list l fun e he => ih e he ((exprsLegible_iff _).1 h e he) (hfloats' e he)
  | hbinOp l op x y ihx ihy =>
    obtain ⟨hx, hy⟩ := floatsReadBack_append.1 hfloats
    exact readsBack_binOp l op (ihx h.1 hx) (ihy h.2 hy)
  | hcall l f as ns ihf ihas ihns =>
    obtain ⟨hff, hfloats⟩ := floatsReadBack_append.1 hfloats
    obtain ⟨hfas, hfns⟩ := floatsReadBack_append.1 hfloats
    have hfas' := floatsReadBack_flatMap ((exprsFloats_eq_flatMap _).subst hfas)
    have hfns' := floatsReadBack_flatMap ((namedFloats_eq_flatMap _).subst hfns)
    refine readsBack_call l (ihf h.1 hff)
      (fun a ha => ihas a ha ((exprsLegible_iff _).1 h.2.1 a ha) (hfas' a ha)) fun a ha => ?_
    have hlegible := (namedLegible_iff _).1 h.2.2 a ha
    have hfloat := hfns' a ha
    obtain ⟨la, n, v⟩ := a
    exact ⟨hlegible.1, ihns _ ha hlegible.2 hfloat⟩
  | hlambda l ps b ih => exact readsBack_lambda l h.1 (ih h.2 hfloats)
  | hifElse l c t e ihc iht ihe =>
    obtain ⟨hfc, hfloats⟩ := floatsReadBack_append.1 hfloats
    obtain ⟨hft, hfe⟩ := floatsReadBack_append.1 hfloats
    exact readsBack_ifElse l (ihc h.1 hfc) (iht h.2.1 hft) (ihe h.2.2 hfe)
  | hmatchOn l x cs ihx ihcs =>
    obtain ⟨hfx, hfcs⟩ := floatsReadBack_append.1 hfloats
    have hfcs' := floatsReadBack_flatMap ((casesFloats_eq_flatMap _).subst hfcs)
    refine readsBack_matchOn l (ihx h.1 hfx) fun c hc => ?_
    have hlegible := (casesLegible_iff _).1 h.2 c hc
    have hfloat := hfcs' c hc
    obtain ⟨lc, p, b⟩ := c
    obtain ⟨hfp, hfb⟩ := floatsReadBack_append.1 hfloat
    exact ⟨Pattern.readsBack src hlegible.1 hfp, ihcs _ hc hlegible.2 hfb⟩
  | haccess l x f ih => exact readsBack_access l (ih h.1 hfloats) h.2
  | hmissing => exact absurd h id

end Expr

end FunRiscv
