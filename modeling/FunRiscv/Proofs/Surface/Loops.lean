import Mathlib
import FunRiscv.Proofs.Surface.Safety

/-!
# The loops of the reader end

A loop is given by what one round does: it goes on in a new state, or ends with a result.

* `Source.Scans`, `Reading.Ends`: a loop ends, with no bound on its rounds, and each round that goes
  on gets further in the text.
* `Source.passRound`, `Source.skipRound`, `Source.wordRound`, `Source.quoteRound`,
  `Source.commaRound`: the rounds over bytes. The last one goes backwards.
* `commaRound`, `closedRound`, `manyRound`, `argumentRound`, `postfixRound`, `operandRound`,
  `fieldRound`, `itemRound`: the rounds of the grammar, which collect what they read in their state.

For each of them, the recursion with a bound does what the loop does.
-/

namespace FunRiscv

/-! ### Loops over bytes -/

namespace Source

/-- Without a bound on the rounds, the loop over positions that starts at `i` ends with
`b`. No look of it leaves the text, and each round that goes on does so at a position that
comes after its own. -/
inductive Scans {β : Type} (after : Nat → Nat → Prop) (round : Nat → Look (Nat ⊕ β)) :
    Nat → β → Prop
  | stop {i : Nat} {b : β} (h : round i = .ok (.inr b)) : Scans after round i b
  | more {i k : Nat} {b : β} (h : round i = .ok (.inl k)) (hk : after i k)
    (hb : Scans after round k b) : Scans after round i b

/-- A recursion that does what the rounds say ends as the loop does, if its bound is at least what
is left before a limit. -/
theorem scans_of_rounds {round : Nat → Look (Nat ⊕ Nat)} (run : Nat → Nat → Look Nat) {limit : Nat}
    (hzero : ∀ j, round limit = .ok (.inr j) → run 0 limit = .ok j)
    (hsucc : ∀ fuel i, run (fuel + 1) i = round i >>= Sum.elim (run fuel) pure)
    (hround : ∀ i ≤ limit, ∃ r, round i = .ok r ∧ ∀ k, r = .inl k → i < k ∧ k ≤ limit)
    {fuel i : Nat} (hi : i ≤ limit) (hfuel : limit - i ≤ fuel) :
    ∃ j, run fuel i = .ok j ∧ Scans (· < ·) round i j := by
  induction fuel generalizing i with
  | zero =>
    obtain rfl : i = limit := by omega
    obtain ⟨k | j, hstep, hk⟩ := hround i le_rfl
    · have := hk k rfl
      omega
    · exact ⟨j, hzero j hstep, .stop hstep⟩
  | succ fuel ih =>
    obtain ⟨k | j, hstep, hk⟩ := hround i hi
    · have hlt := hk k rfl
      obtain ⟨j, hrun, hscans⟩ := ih hlt.2 (by omega)
      exact ⟨j, by rw [hsucc, hstep]; exact hrun, .more hstep hlt.1 hscans⟩
    · exact ⟨j, by rw [hsucc, hstep]; rfl, .stop hstep⟩

variable (src : Source)

/-- Passes over one byte that meets the test. -/
def passRound (p : UInt8 → Bool) (i : Nat) : Look (Nat ⊕ Nat) := do
  if ← src.holdsAt p i then return .inl (i + 1) else return .inr i

/-- Passes over blanks and one comment after them. -/
def skipRound (i : Nat) : Look (Nat ⊕ Nat) := do
  let j ← src.passBlanks .all i
  if ← src.opensComment j then return .inl (← src.pass (· != 10) j) else return .inr j

/-- Passes over one byte of a word. -/
def wordRound (i : Nat) : Look (Nat ⊕ Nat) := do
  if i < src.size then
    let b ← src.index i
    if isLetter b || isDigit b then return .inl (i + 1)
    else if ← pure (b == 0x2f) <&&> src.holdsAt isLetter (i + 1) then return .inl (i + 1)
    else return .inr i
  else return .inr i

/-- Passes over one byte inside a string, or over two if the first is a backslash. -/
def quoteRound (i : Nat) : Look (Nat ⊕ Nat) := do
  if ← src.holdsAt (· != 0x22) i then
    if (← src.index i) == 0x5c then return .inl (i + 2) else return .inl (i + 1)
  else return .inr i

/-- Goes back over one blank before a position, or says whether a comma stands there. -/
def commaRound (i : Nat) : Look (Nat ⊕ Bool) :=
  match i with
  | 0 => pure (.inr false)
  | i + 1 => do
    if (← src.passBlanks .all i) ≠ i then return .inl i else return .inr ((← src.index i) == 0x2c)

variable {i : Nat}

theorem scans_pass (p : UInt8 → Bool) (hi : i ≤ src.size) :
    ∃ j, src.pass p i = .ok j ∧ Scans (· < ·) (src.passRound p) i j := by
  refine scans_of_rounds (src.passWithin p) (fun j hj => ?_) (fun fuel j => ?_)
    (fun j _ => ?_) hi le_rfl
  · rw [passRound, holdsAt_eq, byte?_of_ge le_rfl] at hj
    cases hj
    rfl
  · rw [passWithin, passRound, holdsAt_eq]
    cases (src.byte? j).any p <;> rfl
  · rw [passRound, holdsAt_eq]
    cases hp : (src.byte? j).any p with
    | true => exact ⟨_, rfl,
      fun k hk => Sum.inl.inj hk ▸ ⟨Nat.lt_succ_self j, src.lt_size_of_any hp⟩⟩
    | false => exact ⟨_, rfl, fun k hk => by cases hk⟩

theorem scans_skip (hi : i ≤ src.size) :
    ∃ j, src.skip i = .ok j ∧ Scans (· < ·) src.skipRound i j := by
  have hround : ∀ j, j ≤ src.size → src.skipRound j = pure
      (if src.commentAt (src.skipBlanks .all j) then
        .inl (src.skipWhile (· != 10) (src.skipBlanks .all j))
        else .inr (src.skipBlanks .all j)) := by
    intro j hj
    have hblanks : src.skipBlanks .all j ≤ src.size := src.skipWhile_le _ hj
    rw [skipRound, passBlanks_eq, pure_bind, src.opensComment_eq hblanks, pure_bind,
      pass_eq, pure_bind]
    exact (apply_ite pure ..).symm
  have hsucc : ∀ fuel j,
    src.skipWithin (fuel + 1) j = src.skipRound j >>= Sum.elim (src.skipWithin fuel) pure := by
    intro fuel j
    rw [skipWithin, skipRound, bind_assoc]
    refine bind_congr fun k => ?_
    rw [bind_assoc]
    refine bind_congr fun comment => ?_
    cases comment with
    | true => rw [if_pos rfl, if_pos rfl, bind_assoc]; rfl
    | false => rfl
  refine scans_of_rounds (fun fuel => src.skipWithin (fuel + 1)) (fun j hj => ?_)
    (fun fuel => hsucc (fuel + 1)) (fun j hj => ?_) hi le_rfl
  · rw [hsucc, hj]
    rfl
  · refine ⟨_, hround j hj, fun k hk => ?_⟩
    split at hk
    · rename_i hcomment
      have hlow : j ≤ src.skipBlanks .all j := src.le_skipWhile _ j
      have hlt := src.commentAt_lt hcomment
      rw [← Sum.inl.inj hk]
      exact ⟨by omega, src.skipWhile_le _ (src.skipWhile_le _ hj)⟩
    · cases hk

theorem scans_word (hi : i ≤ src.size) :
    ∃ j, src.wordWithin (src.size - i) i = .ok j ∧ Scans (· < ·) src.wordRound i j := by
  refine scans_of_rounds src.wordWithin (fun j hj => ?_) (fun fuel j => ?_) (fun j hj => ?_)
    hi le_rfl
  · rw [wordRound, if_neg (Nat.lt_irrefl _)] at hj
    cases hj
    rfl
  · rw [wordWithin, wordRound]
    split
    · rw [bind_assoc]
      refine bind_congr fun b => ?_
      cases isLetter b || isDigit b with
      | true => rfl
      | false =>
        rw [if_neg Bool.false_ne_true, if_neg Bool.false_ne_true, bind_assoc]
        refine bind_congr fun more => ?_
        cases more <;> rfl
    · rfl
  · rw [wordRound]
    split
    · rename_i hlt
      obtain ⟨b, hb⟩ := byte?_of_lt hlt
      have hnext : ∀ k, (.inl (j + 1) : Nat ⊕ Nat) = .inl k → j < k ∧ k ≤ src.size :=
        fun k hk => Sum.inl.inj hk ▸ ⟨Nat.lt_succ_self j, hlt⟩
      rw [index_of_byte? hb, pure_bind, holdsAt_eq, pure_andM]
      cases isLetter b || isDigit b with
      | true => exact ⟨_, rfl, hnext⟩
      | false =>
        cases b == 0x2f with
        | false => exact ⟨_, rfl, fun k hk => by cases hk⟩
        | true =>
          cases (src.byte? (j + 1)).any isLetter with
          | true => exact ⟨_, rfl, hnext⟩
          | false => exact ⟨_, rfl, fun k hk => by cases hk⟩
    · exact ⟨_, rfl, fun k hk => by cases hk⟩

theorem scans_quote (hi : i ≤ src.size) :
    ∃ j, Reading.quoteWithin src (src.size + 1) i = .ok j ∧ Scans (· < ·) src.quoteRound i j := by
  have hbound : src.size + 1 - i ≤ src.size + 1 := Nat.sub_le ..
  -- After an escape the loop may stand one byte beyond the end of the text.
  refine scans_of_rounds (Reading.quoteWithin src) (fun j hj => ?_) (fun fuel j => ?_)
    (fun j hj => ?_) (Nat.le_succ_of_le hi) hbound
  · rw [quoteRound, holdsAt_eq, byte?_of_ge (Nat.le_succ _)] at hj
    cases hj
    rfl
  · rw [Reading.quoteWithin, quoteRound, bind_assoc]
    refine bind_congr fun inside => ?_
    cases inside with
    | false => rfl
    | true =>
      rw [if_pos rfl, if_pos rfl, bind_assoc]
      refine bind_congr fun b => ?_
      cases b == 0x5c <;> rfl
  · rw [quoteRound, holdsAt_eq, pure_bind]
    split
    · rename_i hinside
      have hlt := src.lt_size_of_any hinside
      obtain ⟨b, hb⟩ := byte?_of_lt hlt
      rw [index_of_byte? hb, pure_bind]
      split
      · exact ⟨_, rfl, fun k hk => Sum.inl.inj hk ▸ ⟨by omega, by omega⟩⟩
      · exact ⟨_, rfl, fun k hk => Sum.inl.inj hk ▸ ⟨by omega, by omega⟩⟩
    · exact ⟨_, rfl, fun k hk => by cases hk⟩

/-- The loop back from a closing bracket, each round of which that goes on does so further
ahead in the text. -/
theorem scans_comma (hi : i ≤ src.size) :
    ∃ b, Reading.commaBefore src i = .ok b ∧ Scans (· > ·) src.commaRound i b := by
  induction i with
  | zero => exact ⟨false, rfl, .stop rfl⟩
  | succ i ih =>
    by_cases hblank : src.skipBlanks .all i = i
    · obtain ⟨b, hb⟩ := byte?_of_lt hi
      refine ⟨b == 0x2c, ?_, .stop ?_⟩
      · rw [Reading.commaBefore, passBlanks_eq, pure_bind, if_neg (not_not_intro hblank),
          index_of_byte? hb]
        rfl
      · rw [commaRound, passBlanks_eq, pure_bind, if_neg (not_not_intro hblank), index_of_byte? hb]
        rfl
    · obtain ⟨b, hrun, hscans⟩ := ih (Nat.le_of_succ_le hi)
      refine ⟨b, ?_, .more ?_ (Nat.lt_succ_self i) hscans⟩
      · rw [Reading.commaBefore, passBlanks_eq, pure_bind, if_pos hblank, hrun]
      · rw [commaRound, passBlanks_eq, pure_bind, if_pos hblank]
        rfl

end Source

namespace Reading

/-! ### Loops -/

section

variable {β σ : Type} {src : Source} {i : Nat}

/-- Without a bound on the rounds, the loop that starts in state `s` at position `i` ends with
`out`, and each round that goes on has read at least one byte of the text. -/
inductive Ends (src : Source) (round : σ → Reading (σ ⊕ β)) :
    σ → Nat → Except ReadError (β × Nat) → Prop
  | stop {s : σ} {b : β} {i j : Nat} (h : round s i = .ok (.inr b, j)) :
    Ends src round s i (.ok (b, j))
  | fail {s : σ} {e : ReadError} {i : Nat} (h : round s i = .error e) :
    Ends src round s i (.error e)
  | more {s t : σ} {i j : Nat} {out : Except ReadError (β × Nat)} (h : round s i = .ok (.inl t, j))
      (hlt : i < j) (hle : j ≤ src.size) (ht : Ends src round t j out) : Ends src round s i out

variable {round : σ → Reading (σ ⊕ β)}

/-- A loop ends in one way. -/
theorem Ends.unique {s : σ} {out out' : Except ReadError (β × Nat)} (h : Ends src round s i out)
    (h' : Ends src round s i out') : out = out' := by
  induction h with
  | stop h => cases h' <;> simp_all
  | fail h => cases h' <;> simp_all
  | more h _ _ _ ih =>
    cases h' with
    | stop h' => simp_all
    | fail h' => simp_all
    | more h' _ _ ht =>
      rw [h] at h'
      cases h'
      exact ih ht

/-- A round that goes on has read at least one byte. -/
abbrev RoundAdvances (src : Source) (round : Reading (σ ⊕ β)) (i : Nat) : Prop :=
  Lands src round i fun r j => r.isLeft → i < j

/-- A recursion that does what the rounds say ends as the loop does, if its bound exceeds what is
left of the text. -/
theorem ends_of_rounds (run : Nat → σ → Reading β)
    (hrun : ∀ fuel s, run (fuel + 1) s = round s >>= Sum.elim (run fuel) Pure.pure)
    (hround : ∀ s j, i ≤ j → RoundAdvances src (round s) j) {fuel : Nat} {s : σ} (hi : i ≤ src.size)
    (hfuel : src.size - i < fuel) : Ends src round s i (run fuel s i) := by
  induction fuel generalizing i s with
  | zero => omega
  | succ fuel ih =>
    have hstep := hround s i le_rfl hi
    rw [hrun, bind_apply]
    cases hres : round s i with
    | error e => exact .fail hres
    | ok r =>
      rw [hres] at hstep
      obtain ⟨t | b, j⟩ := r
      · have hlt : i < j := hstep.2 rfl
        exact .more hres hlt hstep.1 (ih (fun s k hk => hround s k (by omega)) hstep.1 (by omega))
      · exact .stop hres

end

/-! ### Lists -/

section

variable {α : Type} {src : Source} {item : Reading α} {i fuel : Nat}

variable (src item) in
/-- Reads one item. The loop goes on after a comma. -/
def commaRound (xs : List α) : Reading (List α ⊕ List α) := do
  let x ← item
  if ← punct src .comma then return .inl (xs ++ [x]) else return .inr (xs ++ [x])

variable (src item) in
/-- Reads one item, unless the closing token stands here. The loop goes on after a comma. -/
def closedRound (close : Punct) (xs : List α) : Reading (List α ⊕ List α) := do
  if ← punct src close then return .inr xs
  else
    let x ← item
    if ← punct src .comma then return .inl (xs ++ [x])
    else
      expect src close
      return .inr (xs ++ [x])

variable (src item) in
/-- Reads one item, unless the closing token stands here. -/
def manyRound (close : Punct) (xs : List α) : Reading (List α ⊕ List α) := do
  if ← punct src close then return .inr xs
  else
    let x ← item
    return .inl (xs ++ [x])

theorem append_commaList (xs : List α) : (xs ++ ·) <$> commaList src item (fuel + 1) =
    commaRound src item xs >>= Sum.elim (fun ys => (ys ++ ·) <$> commaList src item fuel) pure := by
  rw [commaList, commaRound]
  simp only [map_bind, bind_assoc]
  refine bind_congr fun x => bind_congr fun b => ?_
  cases b <;> simp

theorem append_closedList (close : Punct) (xs : List α) :
    (xs ++ ·) <$> closedList src item close (fuel + 1) = closedRound src item close xs >>=
      Sum.elim (fun ys => (ys ++ ·) <$> closedList src item close fuel) pure := by
  rw [closedList, closedRound]
  simp only [map_bind, bind_assoc]
  refine bind_congr fun b => ?_
  cases b with
  | true => simp
  | false =>
    simp only [Bool.false_eq_true, if_false, map_bind, bind_assoc]
    refine bind_congr fun x => bind_congr fun b => ?_
    cases b <;> simp

theorem append_manyUntil (close : Punct) (xs : List α) :
    (xs ++ ·) <$> manyUntil src item close (fuel + 1) = manyRound src item close xs >>=
      Sum.elim (fun ys => (ys ++ ·) <$> manyUntil src item close fuel) pure := by
  rw [manyUntil, manyRound]
  simp only [map_bind, bind_assoc]
  refine bind_congr fun b => ?_
  cases b <;> simp

variable (hitem : ∀ j, i ≤ j → Advances src item j) (hi : i ≤ src.size)
  (hfuel : src.size - i < fuel)

include hitem hi hfuel

theorem ends_commaList (xs : List α) :
    Ends src (commaRound src item) xs i (((xs ++ ·) <$> commaList src item fuel) i) := by
  refine ends_of_rounds (fun fuel ys => (ys ++ ·) <$> commaList src item fuel)
    (fun _ ys => append_commaList ys) (fun ys j hj => ?_) hi hfuel
  exact (hitem j hj).bind fun x k hk => Lands.punct_ite (fun l hl => Lands.pure fun _ => by omega)
    (Lands.pure fun _ => hk)

theorem ends_closedList (close : Punct) (xs : List α) :
    Ends src (closedRound src item close) xs i
      (((xs ++ ·) <$> closedList src item close fuel) i) := by
  refine ends_of_rounds (fun fuel ys => (ys ++ ·) <$> closedList src item close fuel)
    (fun _ ys => append_closedList close ys)
    (fun ys j hj => Lands.punct_ite (fun k hk => Lands.pure fun _ => hk) ?_) hi hfuel
  refine (hitem j hj).bind fun x k hk =>
    Lands.punct_ite (fun l hl => Lands.pure fun _ => by omega) ?_
  exact (lands_expect _).bind fun _ l hl => Lands.pure fun _ => by omega

theorem ends_manyUntil (close : Punct) (xs : List α) :
    Ends src (manyRound src item close) xs i (((xs ++ ·) <$> manyUntil src item close fuel) i) := by
  refine ends_of_rounds (fun fuel ys => (ys ++ ·) <$> manyUntil src item close fuel)
    (fun _ ys => append_manyUntil close ys)
    (fun ys j hj => Lands.punct_ite (fun k hk => Lands.pure fun _ => hk) ?_) hi hfuel
  exact (hitem j hj).bind fun x k hk => Lands.pure fun _ => hk

end

/-! ### Expressions -/

section

variable {src : Source} {sub : SubReader} {i fuel : Nat}

variable (src sub) in
/-- Reads one argument. Behind the arguments that were given by name none may be given
by position. -/
def argumentRound (s : List Expr × List NamedArg) :
    Reading ((List Expr × List NamedArg) ⊕ (List Expr × List NamedArg)) := do
  match ← namedArg? src sub with
  | some a =>
    if ← punct src .comma then return .inl (s.1, s.2 ++ [a])
    else
      expect src .closeParen
      return .inr (s.1, s.2 ++ [a])
  | none =>
    if !s.2.isEmpty then unexpected src "named argument"
    else
      let x ← inContext "argument" (sub .expr)
      if ← punct src .comma then return .inl (s.1 ++ [x], s.2)
      else
        expect src .closeParen
        return .inr (s.1 ++ [x], s.2)

variable (src sub) in
/-- Reads one call or one field access. -/
def postfixRound (start : Nat) (x : Expr) : Reading (Expr ⊕ Expr) := do
  if ← punct src .openParen then
    let (args, named) ← if ← punct src .closeParen then pure ([], [])
      else arguments src sub (rounds src) false
    return .inl (.call (← locationFrom src start) x args named)
  else if ← punct src .dot then
    let f ← fieldName src
    return .inl (.access (← locationFrom src start) x f)
  else return .inr x

variable (src) in
/-- Reads one operator of a level and its right operand. -/
def operandRound (operand : Reading Expr) (ops : List Operator) (start : Nat) (x : Expr) :
    Reading (Expr ⊕ Expr) := do
  match (← look (src.punctAfter? (← get))).bind (levelOperator? ops) with
  | none => return .inr x
  | some (op, j) => do
    set j
    let y ← inContext ("operand of " ++ op.symbol) operand
    return .inl (.binOp (← locationFrom src start) op x y)

theorem append_arguments (s : List Expr × List NamedArg) :
    (fun r => (s.1 ++ r.1, s.2 ++ r.2)) <$> arguments src sub (fuel + 1) (!s.2.isEmpty) =
      argumentRound src sub s >>=
        Sum.elim (fun t =>
          (fun r => (t.1 ++ r.1, t.2 ++ r.2)) <$> arguments src sub fuel (!t.2.isEmpty)) pure := by
  rw [arguments, argumentRound]
  simp only [map_bind, bind_assoc]
  refine bind_congr fun a => ?_
  cases a with
  | some a =>
    have hnamed : (!(s.2 ++ [a]).isEmpty) = true := by simp
    simp only [map_bind, bind_assoc]
    refine bind_congr fun b => ?_
    cases b with
    | true => simp [hnamed]
    | false => simp
  | none =>
    cases hnamed : s.2.isEmpty with
    | true =>
      simp only [Bool.not_true, Bool.false_eq_true, if_false, map_bind, bind_assoc]
      refine bind_congr fun x => bind_congr fun b => ?_
      cases b <;> simp [hnamed]
    | false =>
      show _ <$> unexpected src _ = unexpected src _ >>= _
      rw [map_eq_bind, unexpected_bind, unexpected_bind]

theorem postfixes_succ (start : Nat) (x : Expr) : postfixes src sub start (fuel + 1) x =
    postfixRound src sub start x >>= Sum.elim (postfixes src sub start fuel) pure := by
  rw [postfixes, postfixRound]
  simp only [bind_assoc]
  refine bind_congr fun b => ?_
  cases b with
  | true =>
    simp only [if_true, bind_assoc]
    refine bind_congr fun b => ?_
    cases b <;> simp
  | false =>
    simp only [Bool.false_eq_true, if_false, bind_assoc]
    refine bind_congr fun b => ?_
    cases b <;> simp

theorem operands_succ (operand : Reading Expr) (ops : List Operator) (start : Nat) (x : Expr) :
    operands src operand ops start (fuel + 1) x =
      operandRound src operand ops start x >>= Sum.elim (operands src operand ops start fuel)
        pure := by
  rw [operands, operandRound]
  simp only [bind_assoc]
  refine bind_congr fun i => bind_congr fun token => ?_
  cases token.bind (levelOperator? ops) <;> simp

theorem ends_arguments (h : SubAdvances src sub i) (hi : i ≤ src.size) (hfuel : src.size - i < fuel)
    (s : List Expr × List NamedArg) :
    Ends src (argumentRound src sub) s i
      (((fun r => (s.1 ++ r.1, s.2 ++ r.2)) <$> arguments src sub fuel (!s.2.isEmpty)) i) := by
  refine ends_of_rounds
    (fun fuel s => (fun r => (s.1 ++ r.1, s.2 ++ r.2)) <$> arguments src sub fuel (!s.2.isEmpty))
    (fun _ s => append_arguments s) (fun s j hj => ?_) hi hfuel
  have hsub := h.mono hj
  refine (lands_namedArg? hsub).bind fun a k hk => ?_
  cases a with
  | some a =>
    have hlt : j < k := hk
    refine Lands.punct_ite (fun l hl => Lands.pure fun _ => by omega) ?_
    exact (lands_expect _).bind fun _ l hl => Lands.pure fun _ => by omega
  | none =>
    obtain rfl : j = k := hk
    refine Lands.ite (fun _ => lands_unexpected _) fun _ => ?_
    refine (Lands.inContext _ (hsub .expr j le_rfl)).bind fun x k hk => ?_
    refine Lands.punct_ite (fun l hl => Lands.pure fun _ => by omega) ?_
    exact (lands_expect _).bind fun _ l hl => Lands.pure fun _ => by omega

theorem ends_postfixes (h : SubAdvances src sub i) (hi : i ≤ src.size) (hfuel : src.size - i < fuel)
    (start : Nat) (x : Expr) :
    Ends src (postfixRound src sub start) x i (postfixes src sub start fuel x i) := by
  refine ends_of_rounds (postfixes src sub start) (fun _ x => postfixes_succ start x)
    (fun x j hj => ?_) hi hfuel
  refine Lands.punct_ite (fun k hk => ?_)
    (Lands.punct_ite (fun k hk => ?_) (Lands.pure fun hgo => by simp at hgo))
  · have hcall : ∀ (r : List Expr × List NamedArg) l, k ≤ l → Lands src (do
        return .inl (.call (← locationFrom src start) x r.1 r.2) : Reading (Expr ⊕ Expr)) l
          fun t m => t.isLeft → j < m :=
      fun r l hl => Lands.located fun _ _ => by omega
    refine Lands.punct_ite (fun l hl => hcall ([], []) l (by omega)) ?_
    exact (lands_arguments (h.mono (by omega)) (fuel_lt k)).bind fun r l hl => hcall r l (by omega)
  · exact lands_fieldName.bind fun f l hl => Lands.located fun _ _ => by omega

theorem ends_operands {operand : Reading Expr} (h : ∀ j, i < j → Advances src operand j)
    (hi : i ≤ src.size) (hfuel : src.size - i < fuel) (ops : List Operator) (start : Nat)
    (x : Expr) :
    Ends src (operandRound src operand ops start) x i
      (operands src operand ops start fuel x i) := by
  refine ends_of_rounds (operands src operand ops start)
    (fun _ x => operands_succ operand ops start x) (fun x j hj => ?_) hi hfuel
  refine Lands.of_le fun hsize => lands_get.bind ?_
  rintro _ _ ⟨rfl, rfl⟩
  rw [src.punctAfter?_eq hsize, look_pure, pure_bind, ← operatorOf?]
  split
  · exact Lands.pure fun hgo => by simp at hgo
  · rename_i op k hop
    have hbounds := operatorOf?_bounds hop hsize
    refine (Lands.set (P := fun _ l => k = l) hbounds.2 rfl).bind ?_
    rintro _ _ rfl
    refine (Lands.inContext _ (h _ (by omega))).bind fun y l hl => Lands.located fun _ _ => by omega

end

/-! ### Definitions -/

section

variable {src : Source} {i fuel : Nat}

variable (src) in
/-- Reads one field, unless a closing brace or a function stands here. The loop goes
on after a comma. -/
def fieldRound (fs : List Field) : Reading (List Field ⊕ List Field) := do
  if ← nextIs src .closeBrace then return .inr fs
  else if ← nextIsKeyword src "fn" then return .inr fs
  else
    let f ← field src
    if ← punct src .comma then return .inl (fs ++ [f]) else return .inr (fs ++ [f])

variable (src) in
/-- Reads one import or definition, unless the text ends here. -/
def itemRound (p : Program) : Reading (Program ⊕ Program) := do
  let start ← tokenStart src
  if start = src.size then return .inr p
  else if ← keyword src "import" then
    let i ← importTail src start
    return .inl { p with imports := p.imports ++ [i] }
  else
    let d ← definition src
    return .inl { p with defs := p.defs ++ [d] }

/-- One program after the other. -/
def joined (p q : Program) : Program :=
  { imports := p.imports ++ q.imports, defs := p.defs ++ q.defs }

theorem joined_import (p q : Program) (i : Import) :
    joined p { q with imports := i :: q.imports } = joined { p with imports := p.imports ++ [i] }
      q := by
  simp [joined]

theorem joined_def (p q : Program) (d : Definition) :
    joined p { q with defs := d :: q.defs } = joined { p with defs := p.defs ++ [d] } q := by
  simp [joined]

theorem append_fields (fs : List Field) : (fs ++ ·) <$> fields src (fuel + 1) =
    fieldRound src fs >>= Sum.elim (fun gs => (gs ++ ·) <$> fields src fuel) pure := by
  rw [fields, fieldRound]
  simp only [map_bind, bind_assoc]
  refine bind_congr fun b => ?_
  cases b with
  | true => simp
  | false =>
    simp only [Bool.false_eq_true, if_false, map_bind, bind_assoc]
    refine bind_congr fun b => ?_
    cases b with
    | true => simp
    | false =>
      simp only [Bool.false_eq_true, if_false, map_bind, bind_assoc]
      refine bind_congr fun f => bind_congr fun b => ?_
      cases b <;> simp

theorem joined_items (p : Program) : joined p <$> items src (fuel + 1) =
    itemRound src p >>= Sum.elim (fun q => joined q <$> items src fuel) pure := by
  rw [items, itemRound]
  simp only [map_bind, bind_assoc]
  refine bind_congr fun start => ?_
  by_cases hend : start = src.size
  · simp [hend, joined]
  · simp only [if_neg hend, map_bind, bind_assoc]
    refine bind_congr fun b => ?_
    cases b <;> simp [joined_import, joined_def]

theorem ends_fields (hi : i ≤ src.size) (hfuel : src.size - i < fuel) (fs : List Field) :
    Ends src (fieldRound src) fs i (((fs ++ ·) <$> fields src fuel) i) := by
  refine ends_of_rounds (fun fuel gs => (gs ++ ·) <$> fields src fuel)
    (fun _ gs => append_fields gs) (fun gs j hj => ?_) hi hfuel
  refine Lands.nextIs_ite (Lands.pure fun hgo => by simp at hgo)
    (Lands.nextIsKeyword_ite (Lands.pure fun hgo => by simp at hgo) ?_)
  exact lands_field.bind fun f k hk => Lands.punct_ite (fun l hl => Lands.pure fun _ => by omega)
    (Lands.pure fun _ => hk)

theorem ends_items (hi : i ≤ src.size) (hfuel : src.size - i < fuel) (p : Program) :
    Ends src (itemRound src) p i ((joined p <$> items src fuel) i) := by
  refine ends_of_rounds (fun fuel q => joined q <$> items src fuel) (fun _ q => joined_items q)
    (fun q j hj => ?_) hi hfuel
  refine lands_tokenStart.bind ?_
  rintro start _ ⟨rfl, -⟩
  refine Lands.ite (fun _ => Lands.pure fun hgo => by simp at hgo) fun _ =>
    Lands.keyword_ite (fun k hk => ?_) ?_
  · exact lands_importTail.bind fun _ l hl => Lands.pure fun _ => by omega
  · exact lands_definition.bind fun _ l hl => Lands.pure fun _ => hl

end

end Reading

end FunRiscv
