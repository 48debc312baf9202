import Mathlib
import FunRiscv.Proofs.Surface.Safety
import FunRiscv.Proofs.Surface.Spans

/-!
# Where trees are read

* `Reading.Yields`: if an action that starts inside the text reads anything, it ends inside the text
  and a property holds of what was read.
* `Reading.Placed`: the trees that were read lie between a start and the position after the action.
  Every rule is placed from where its first token starts on, if nested parts are (`placed_rule`).
* `Program.parse_wellPlaced`: in every program that is read, locations are true of the text,
  children lie in their parents and different children apart.
-/

namespace FunRiscv

/-! ### First tokens -/

namespace Source

variable (src : Source)

theorem trivia_lt_of_punct? {i j : Nat} {t : Punct} (h : src.punct? i = some (t, j)) :
    src.trivia i < j := by
  simp only [punct?, Option.map_eq_some_iff, Prod.mk.injEq] at h
  obtain ⟨u, -, rfl, rfl⟩ := h
  have hpos : 0 < u.bytes.length := by cases u <;> decide
  omega

theorem trivia_lt_of_name? {i j : Nat} {n : String} (h : src.name? i = some (n, j)) :
    src.trivia i < j :=
  (src.word?_bounds (Option.filter_eq_some_iff.1 h).1).1

theorem trivia_lt_of_keyword? {i j : Nat} {kw : String} (h : src.keyword? i kw = some j) :
    src.trivia i < j := by
  rw [keyword?] at h
  split at h
  · rename_i w k hk
    have hword := src.word?_bounds hk
    split at h
    · simp only [Option.some.injEq] at h
      omega
    · exact absurd h (by simp)
  · exact absurd h (by simp)

end Source

namespace Reading

/-- From a position in the text the action reads nothing, or it ends at a position in the text and
`post` holds there of what was read. -/
def Yields {α : Type} (src : Source) (act : Reading α) (i : Nat) (post : α → Nat → Prop) : Prop :=
  i ≤ src.size → ∀ a j, act i = .ok (a, j) → j ≤ src.size ∧ post a j

theorem Lands.yields {α : Type} {src : Source} {act : Reading α} {i : Nat} {P : α → Nat → Prop}
    (h : Lands src act i P) : Yields src act i P := by
  intro hi a j ha
  have hact := h hi
  rw [ha] at hact
  exact hact

namespace Yields

variable {α β : Type} {src : Source} {act : Reading α} {i : Nat} {P P' : α → Nat → Prop}
  {Q : β → Nat → Prop}

theorem pure {a : α} (h : P a i) : Yields src (Pure.pure a) i P := (Lands.pure h).yields

theorem bind {f : α → Reading β} (h : Yields src act i P)
    (hf : ∀ a j, P a j → Yields src (f a) j Q) : Yields src (act >>= f) i Q := by
  intro hi b k hb
  rw [bind_apply] at hb
  cases heq : act i with
  | error e => rw [heq] at hb; exact absurd hb (by simp)
  | ok r =>
    rw [heq] at hb
    have hact := h hi r.1 r.2 heq
    exact hf r.1 r.2 hact.2 hact.1 b k hb

theorem mono (h : Yields src act i P) (himp : ∀ a j, P a j → P' a j) : Yields src act i P' :=
  fun hi a j ha => (h hi a j ha).imp_right (himp a j)

/-- The start and the end may be taken to be in the text. -/
theorem of_le (h : i ≤ src.size → Yields src act i P) : Yields src act i P := fun hi => h hi hi

theorem map {f : α → β} (h : Yields src act i fun a j => Q (f a) j) :
    Yields src (f <$> act) i Q := by
  rw [map_eq_bind]
  exact h.bind fun a j ha => Yields.pure ha

theorem failWith {c : ReadCause} : Yields src (FunRiscv.failWith c : Reading α) i P := by
  intro _ a j h
  rw [failWith_apply] at h
  exact absurd h (by simp)

theorem look {x : Look α} (h : ∀ a, x = .ok a → P a i) : Yields src (Reading.look x) i P := by
  cases x with
  | error access => exact Yields.failWith
  | ok a => exact Yields.pure (h a rfl)

/-- A look leaves the position where it is. -/
theorem look_bind {x : Look α} {f : α → Reading β} (h : ∀ a, Yields src (f a) i Q) :
    Yields src (Reading.look x >>= f) i Q := by
  refine (Yields.look (P := fun _ j => i = j) fun _ _ => rfl).bind ?_
  rintro a _ rfl
  exact h a

theorem inContext (label : String) (h : Yields src act i P) :
    Yields src (FunRiscv.inContext label act) i P := by
  intro hi a j ha
  rw [inContext_apply] at ha
  cases hact : act i with
  | error e => rw [hact] at ha; exact absurd ha (by simp)
  | ok r =>
    rw [hact] at ha
    simp only [Except.ok.injEq] at ha
    exact h hi a j (ha ▸ hact)

theorem ite {c : Prop} [Decidable c] {act' : Reading α} (h : c → Yields src act i P)
    (h' : ¬ c → Yields src act' i P) : Yields src (if c then act else act') i P := by
  split
  · rename_i hc; exact h hc
  · rename_i hc; exact h' hc

theorem unexpectedAt {k : Nat} (want : String) : Yields src (Reading.unexpectedAt src k want) i P :=
  Yields.look_bind fun _ => Yields.look_bind fun _ => Yields.failWith

theorem unexpected (want : String) : Yields src (Reading.unexpected src want) i P :=
  lands_get.yields.bind fun _ _ _ => unexpectedAt want

theorem set {j : Nat} {P : PUnit → Nat → Prop} (hj : j ≤ src.size) (h : P ⟨⟩ j) :
    Yields src (MonadState.set j : Reading PUnit) i P := (Lands.set hj h).yields

end Yields

/-! ### Tokens -/

section Tokens

variable {α : Type} {src : Source} {i : Nat} {P : α → Nat → Prop}

theorem yields_tokenStart :
    Yields src (tokenStart src) i fun s j => i = j ∧ s = src.trivia i ∧ i ≤ s := by
  intro hi a j ha
  have hbounds := lands_tokenStart.yields hi a j ha
  rw [tokenStart_apply hi] at ha
  obtain ⟨rfl, -⟩ := Prod.mk.inj (Except.ok.inj ha)
  exact ⟨hbounds.1, hbounds.2.1, rfl, hbounds.2.2.1⟩

/-- A token that was read lies at or after the next token's start and before the
position after it. -/
theorem yields_punct (t : Punct) :
    Yields src (punct src t) i fun b j => if b then i ≤ src.trivia i ∧ src.trivia i < j else
      i = j := by
  refine Yields.of_le fun hi => lands_get.yields.bind ?_
  rintro _ _ ⟨rfl, rfl⟩
  rw [src.punctAfter?_eq hi, look_pure, pure_bind]
  split
  · rename_i u j hj
    have hlt := src.trivia_lt_of_punct? hj
    refine Yields.ite (fun _ => ?_) fun _ => Yields.pure rfl
    refine (Yields.set (P := fun _ k => j = k) (src.punct?_bounds hj hi).2 rfl).bind ?_
    rintro _ _ rfl
    exact Yields.pure ⟨src.le_trivia hi, hlt⟩
  · exact Yields.pure rfl

theorem yields_keyword (kw : String) :
    Yields src (keyword src kw) i fun b j => if b then i ≤ src.trivia i ∧ src.trivia i < j else
      i = j := by
  refine Yields.of_le fun hi => lands_get.yields.bind ?_
  rintro _ _ ⟨rfl, rfl⟩
  rw [src.keywordAfter?_eq hi, look_pure, pure_bind]
  split
  · rename_i j hj
    have hlt := src.trivia_lt_of_keyword? hj
    refine (Yields.set (P := fun _ k => j = k) (src.keyword?_bounds hj hi).2 rfl).bind ?_
    rintro _ _ rfl
    exact Yields.pure ⟨src.le_trivia hi, hlt⟩
  · exact Yields.pure rfl

/-- A token is read or left where it is, and that decides how to go on. -/
theorem Yields.token_ite {token : Reading Bool} {yes no : Reading α}
    (htoken : Yields src token i fun b j => if b then i ≤ src.trivia i ∧ src.trivia i < j
      else i = j)
    (hyes : ∀ j, i ≤ src.trivia i → src.trivia i < j → Yields src yes j P)
    (hno : Yields src no i P) :
    Yields src (token >>= fun b => if b = true then yes else no) i P := by
  refine htoken.bind fun b j hb => ?_
  cases b with
  | true => exact hyes j hb.1 hb.2
  | false =>
    obtain rfl : i = j := hb
    exact hno

/-- What stands here is looked at, and that decides how to go on. -/
theorem Yields.peek_ite {peek : Reading Bool} {yes no : Reading α}
    (hpeek : Lands src peek i fun _ j => i = j) (hyes : Yields src yes i P)
    (hno : Yields src no i P) :
    Yields src (peek >>= fun b => if b = true then yes else no) i P := by
  refine hpeek.yields.bind ?_
  rintro b _ rfl
  exact Yields.ite (fun _ => hyes) fun _ => hno

theorem Yields.punct_ite {t : Punct} {yes no : Reading α}
    (hyes : ∀ j, i ≤ src.trivia i → src.trivia i < j → Yields src yes j P)
    (hno : Yields src no i P) :
    Yields src (punct src t >>= fun b => if b = true then yes else no) i P :=
  token_ite (yields_punct t) hyes hno

theorem yields_expect (t : Punct) :
    Yields src (expect src t) i fun _ j => i ≤ src.trivia i ∧ src.trivia i < j :=
  Yields.punct_ite (fun _ hle hlt => Yields.pure ⟨hle, hlt⟩) (Yields.unexpected _)

theorem Yields.keyword_ite {kw : String} {yes no : Reading α}
    (hyes : ∀ j, i ≤ src.trivia i → src.trivia i < j → Yields src yes j P)
    (hno : Yields src no i P) :
    Yields src (keyword src kw >>= fun b => if b = true then yes else no) i P :=
  token_ite (yields_keyword kw) hyes hno

theorem Yields.nextIs_ite {t : Punct} {yes no : Reading α} (hyes : Yields src yes i P)
    (hno : Yields src no i P) :
    Yields src (nextIs src t >>= fun b => if b = true then yes else no) i P :=
  peek_ite (lands_nextIs t) hyes hno

theorem Yields.nextIsKeyword_ite {kw : String} {yes no : Reading α} (hyes : Yields src yes i P)
    (hno : Yields src no i P) :
    Yields src (nextIsKeyword src kw >>= fun b => if b = true then yes else no) i P :=
  peek_ite (lands_nextIsKeyword kw) hyes hno

theorem yields_name : Yields src (name src) i fun _ j => i ≤ src.trivia i ∧ src.trivia i < j := by
  refine Yields.of_le fun hi => lands_get.yields.bind ?_
  rintro _ _ ⟨rfl, rfl⟩
  rw [src.nameAfter?_eq hi, look_pure, pure_bind]
  split
  · rename_i n j hj
    have hlt := src.trivia_lt_of_name? hj
    refine (Yields.set (P := fun _ k => j = k) (src.name?_bounds hj hi).2 rfl).bind ?_
    rintro _ _ rfl
    exact Yields.pure ⟨src.le_trivia hi, hlt⟩
  · exact Yields.unexpected _

end Tokens

/-! ### Placed parts -/

/-- The trees of what is read, if anything is, lie between `s` and the position after it, which
is later than `s`. -/
abbrev Placed {α : Type} (src : Source) (act : Reading α) (i s : Nat) (parts : α → List SpanTree) :
    Prop :=
  Yields src act i fun a j => s < j ∧ SpansBetween src s j (parts a)

section Placed

variable {α : Type} {src : Source} {act : Reading α} {i s : Nat} {parts : α → List SpanTree}
  {view : α → SpanTree}

/-- Blanks before the first token may count as the start. -/
theorem Placed.after (h : Placed src act i (src.trivia i) parts) : Placed src act i i parts := by
  refine Yields.of_le fun hi => Yields.mono h fun a j ha => ?_
  have hle := src.le_trivia hi
  exact ⟨by omega, ha.2.mono hle le_rfl⟩

theorem Yields.locate {f : Location → Reading α} {P : α → Nat → Prop}
    (h : i ≤ src.size → Yields src (f (src.locate s i)) i P) :
    Yields src (locationFrom src s >>= f) i P := by
  intro hi a j ha
  exact h hi hi a j ha

/-- A node whose location is all that is left to find. -/
theorem Placed.located {f : Location → α} {ts : List SpanTree} (hts : SpansBetween src s i ts)
    (hlt : s < i) (hf : ∀ l, parts (f l) = [.node l ts]) :
    Placed src (locationFrom src s >>= fun l => Pure.pure (f l)) i s parts := by
  refine Yields.locate fun hi => Yields.pure ⟨hlt, ?_⟩
  rw [hf]
  exact hts.node hlt hi

theorem placed_commaList (h : ∀ j, Placed src act j (src.trivia j) fun a => [view a]) (fuel : Nat)
    (i : Nat) : Placed src (commaList src act fuel) i (src.trivia i) fun as => as.map view := by
  induction fuel generalizing i with
  | zero => exact Yields.failWith
  | succ fuel ih =>
    refine (h i).bind fun a j ha => Yields.punct_ite (fun k hle hk => ?_) (Yields.pure ha)
    refine (ih k).after.bind fun as l has => Yields.pure ⟨by omega, ?_⟩
    exact ha.2.append has.2 (by omega)

theorem placed_closedList {close : Punct}
    (h : ∀ j, Placed src act j (src.trivia j) fun a => [view a]) (fuel : Nat) (i : Nat) :
    Placed src (closedList src act close fuel) i (src.trivia i) fun as => as.map view := by
  induction fuel generalizing i with
  | zero => exact Yields.failWith
  | succ fuel ih =>
    refine Yields.punct_ite (fun j _ hj => Yields.pure ⟨hj, .nil⟩) ?_
    refine (h i).bind fun a j ha => Yields.punct_ite (fun k hle hk => ?_) ?_
    · refine (ih k).after.bind fun as l has => Yields.pure ⟨by omega, ?_⟩
      exact ha.2.append has.2 (by omega)
    · refine (yields_expect _).bind fun _ k hk => Yields.pure ⟨by omega, ?_⟩
      exact ha.2.mono le_rfl (by omega)

/-- An item may have no tokens of its own. -/
theorem placed_manyUntil {close : Punct}
    (h : ∀ j, Yields src act j fun a k => j ≤ k ∧ SpansBetween src j k (parts a)) (fuel : Nat)
    (i : Nat) : Placed src (manyUntil src act close fuel) i i fun as => as.flatMap parts := by
  induction fuel generalizing i with
  | zero => exact Yields.failWith
  | succ fuel ih =>
    refine Yields.punct_ite (fun j _ hj => Yields.pure ⟨by omega, .nil⟩) ?_
    refine (h i).bind fun a j ha => (ih j).bind fun as k has => Yields.pure ⟨by omega, ?_⟩
    exact ha.2.append has.2 (by omega)

theorem placed_manyUntil_map {close : Punct}
    (h : ∀ j, Placed src act j (src.trivia j) fun a => [view a]) (fuel : Nat) (i : Nat) :
    Placed src (manyUntil src act close fuel) i i fun as => as.map view := by
  have hitem : ∀ j, Yields src act j fun a k => j ≤ k ∧ SpansBetween src j k [view a] :=
    fun j => (h j).after.mono fun _ _ ha => ⟨Nat.le_of_lt ha.1, ha.2⟩
  exact (placed_manyUntil hitem fuel i).mono
    fun as j has => by simpa only [List.map_eq_flatMap] using has

end Placed

end Reading

/-- The locations of what a nonterminal reads. -/
def Nonterminal.spanTree : (k : Nonterminal) → k.Tree → SpanTree
  | .type => TypeExpr.spanTree
  | .expr => Expr.spanTree
  | .power => Expr.spanTree
  | .ifExpr => Expr.spanTree
  | .pattern => Pattern.spanTree
  | .block => Block.spanTree
  | .ifStmt => Stmt.spanTree

namespace Reading

/-- Nested parts are placed from their first token on. -/
def SubPlaced (src : Source) (sub : SubReader) : Prop :=
  ∀ k j, Placed src (sub k) j (src.trivia j) fun a => [k.spanTree a]

variable {src : Source} {sub : SubReader} {i s : Nat}

/-! ### Literals -/

theorem Placed.leaf {α : Type} {parts : α → List SpanTree} {a : α} (hlt : s < i)
    (ha : parts a = [.node (src.locate s i) []]) : Placed src (Pure.pure a) i s parts := by
  refine Yields.of_le fun hi => Yields.pure ⟨hlt, ?_⟩
  rw [ha]
  exact SpansBetween.nil.node hlt hi

/-- A leaf that stands from `s` to `stop`. -/
theorem Placed.leafTo {α : Type} {parts : α → List SpanTree} {stop : Nat} {a : α} (hlt : s < stop)
    (hstop : stop ≤ src.size) (ha : parts a = [.node (src.locate s stop) []]) :
    Placed src (MonadState.set stop >>= fun _ => Pure.pure a) i s parts := by
  refine (Yields.set (P := fun _ k => stop = k) hstop rfl).bind ?_
  rintro _ _ rfl
  exact Placed.leaf hlt ha

theorem placed_floatLiteral {digits point stop : Nat} {negative : Bool} (hlt : s < stop)
    (hstop : stop ≤ src.size) :
    Placed src (floatLiteral src s digits point stop negative) i s fun e => [e.spanTree] :=
  Yields.look_bind fun _ => Yields.ite (fun _ => Yields.failWith) fun _ =>
    Placed.leafTo hlt hstop (by rw [Expr.spanTree])

theorem placed_intLiteral {stop : Nat} {magnitude : Option Nat} {negative : Bool} (hlt : s < stop)
    (hstop : stop ≤ src.size) :
    Placed src (intLiteral src s stop magnitude negative) i s fun e => [e.spanTree] := by
  cases magnitude with
  | none => exact Yields.look_bind fun _ => Yields.failWith
  | some n =>
    refine Yields.ite (fun _ => Yields.look_bind fun _ => Yields.failWith) fun _ => ?_
    exact Placed.leafTo hlt hstop (by rw [Expr.spanTree])

theorem placed_uintLiteral {stop : Nat} {magnitude : Option Nat} (hlt : s < stop)
    (hstop : stop ≤ src.size) :
    Placed src (uintLiteral src s stop magnitude) i s fun e => [e.spanTree] := by
  cases magnitude with
  | none => exact Yields.look_bind fun _ => Yields.failWith
  | some n =>
    refine Yields.ite (fun _ => Yields.look_bind fun _ => Yields.failWith) fun _ => ?_
    exact Placed.leafTo hlt hstop (by rw [Expr.spanTree])

theorem placed_number {digits : Nat} (hs : s ≤ digits)
    (hdigit : (src.byte? digits).any isDigit = true) :
    Placed src (number src s digits) i s fun e => [e.spanTree] := by
  obtain ⟨first, stop, magnitude, hlt, hle, heq⟩ := number_cases hs hdigit
  rw [heq]
  refine Yields.ite (fun hpoint => ?_) fun _ => ?_
  · have hbounds := places_bounds (Bool.and_eq_true_iff.1 hpoint).2
    exact placed_floatLiteral (by omega) hbounds.2
  · exact Yields.ite (fun _ => placed_intLiteral (by omega) hle) fun _ =>
      placed_uintLiteral (by omega) hle

theorem placed_string (hquote : src.byte? s = some 0x22) :
    Placed src (string src s) i s fun e => [e.spanTree] := by
  have hstart := src.lt_size_of_byte? hquote
  have hbounds := src.closingQuote_bounds (src.size + 1) (i := s + 1) (by omega)
  rw [string_inside hstart]
  refine Yields.ite (fun _ => Yields.failWith) fun _ =>
    Yields.ite (fun _ => Yields.unexpectedAt _) fun _ => ?_
  split
  · exact Placed.leafTo (by omega) (by omega) (by rw [Expr.spanTree])
  · exact Yields.failWith

/-! ### Types and parameters -/

theorem placed_typeAtom (h : SubPlaced src sub) (i : Nat) :
    Placed src (typeAtom src sub) i (src.trivia i) fun t => [t.spanTree] := by
  refine yields_tokenStart.bind ?_
  rintro s _ ⟨rfl, rfl, hle⟩
  refine Yields.punct_ite (fun j _ hj => ?_) ?_
  · refine Yields.punct_ite (fun k _ hk => ?_) ?_
    · rw [pure_bind]
      exact Placed.located .nil (by omega) fun _ => by simp [TypeExpr.spanTree]
    refine (placed_commaList (h .type) _ j).after.bind fun ts k hts =>
      (yields_expect _).bind fun _ l hl => ?_
    have hspans := hts.2.mono (Nat.le_of_lt hj) (show k ≤ l by omega)
    rw [pure_bind]
    -- One type in parentheses is that type, at its own place.
    rcases ts with _ | ⟨t, _ | ⟨t', ts⟩⟩
    · exact Placed.located hspans (by omega) fun _ => by simp [TypeExpr.spanTree]
    · exact Yields.pure ⟨by omega, hspans⟩
    · exact Placed.located hspans (by omega)
        fun _ => by simp [TypeExpr.spanTree, Nonterminal.spanTree]
  · refine (Yields.inContext _ yields_name).bind fun n j hj => ?_
    refine Yields.punct_ite (fun k _ hk => ?_) ?_
    · refine (placed_commaList (h .type) _ k).after.bind fun ts l hts =>
        lands_closeAngle.yields.bind fun _ m hm => ?_
      rw [pure_bind]
      exact Placed.located (hts.2.mono (by omega) (Nat.le_of_lt hm)) (by omega) fun _ => by
        simp [TypeExpr.spanTree, Nonterminal.spanTree]
    · rw [pure_bind]
      exact Placed.located .nil hj.2 fun _ => by simp [TypeExpr.spanTree]

theorem placed_typeExpr (h : SubPlaced src sub) (i : Nat) :
    Placed src (typeExpr src sub) i (src.trivia i) fun t => [t.spanTree] := by
  refine yields_tokenStart.bind ?_
  rintro s _ ⟨rfl, rfl, hle⟩
  refine (placed_typeAtom h i).bind fun t j ht =>
    Yields.punct_ite (fun k _ hk => ?_) (Yields.pure ht)
  refine (Yields.inContext _ (h .type k).after).bind fun r l hr => ?_
  exact Placed.located (ht.2.append hr.2 (by omega)) (by omega)
    fun _ => by simp [TypeExpr.spanTree, Nonterminal.spanTree]

theorem placed_param (h : SubPlaced src sub) (i : Nat) :
    Placed src (param src sub) i (src.trivia i) fun p => [p.spanTree] := by
  refine yields_tokenStart.bind ?_
  rintro s _ ⟨rfl, rfl, hle⟩
  refine (Yields.inContext _ yields_name).bind fun n j hj => Yields.punct_ite (fun k _ hk => ?_) ?_
  · refine (Yields.map
      (Q := fun t l => k < l ∧ SpansBetween src k l (t.toList.map TypeExpr.spanTree))
      (Yields.inContext _ (h .type k).after)).bind fun t l ht => ?_
    exact Placed.located (ht.2.mono (by omega) le_rfl) (by omega) fun _ => rfl
  · rw [pure_bind]
    exact Placed.located .nil hj.2 fun _ => rfl

theorem placed_params (h : SubPlaced src sub) (i : Nat) :
    Placed src (params src sub) i (src.trivia i) fun ps => ps.map Param.spanTree := by
  refine (yields_expect _).bind fun _ j hj =>
    Yields.punct_ite (fun k _ hk => Yields.pure ⟨by omega, .nil⟩) ?_
  refine (placed_commaList (placed_param h) _ j).after.bind fun ps k hps =>
    (yields_expect _).bind fun _ l hl => ?_
  exact Yields.pure ⟨by omega, hps.2.mono (by omega) (by omega)⟩

/-! ### Expressions -/

theorem placed_parenthesised (h : SubPlaced src sub) (hs : s < i) :
    Placed src (parenthesised src sub s) i s fun e => [e.spanTree] := by
  refine (placed_closedList (h .expr) _ i).after.bind fun es j hes => ?_
  have hspans := hes.2.mono (Nat.le_of_lt hs) le_rfl
  have htuple : Placed src (do return Expr.tuple (← locationFrom src s) es) j s fun e =>
    [e.spanTree] :=
    Placed.located hspans (by omega) fun _ => by rw [Expr.spanTree]; rfl
  split
  · refine lands_get.yields.bind ?_
    rintro _ _ ⟨rfl, rfl⟩
    exact Yields.look_bind fun _ =>
      Yields.ite (fun _ => htuple) fun _ => Yields.pure ⟨by omega, hspans⟩
  · exact htuple

theorem placed_braced (h : SubPlaced src sub) (i : Nat) :
    Placed src (braced src sub) i (src.trivia i) fun e => [e.spanTree] := by
  refine (yields_expect _).bind fun _ j hj =>
    (h .expr j).after.bind fun e k he => (yields_expect _).bind fun _ l hl => ?_
  exact Yields.pure ⟨by omega, he.2.mono (by omega) (by omega)⟩

theorem placed_lambda (h : SubPlaced src sub) (hs : s < i) :
    Placed src (lambda src sub s) i s fun e => [e.spanTree] := by
  refine (Yields.inContext _ (placed_params h i).after).bind fun ps j hps =>
    (yields_expect _).bind fun _ k hk => ?_
  refine (Yields.inContext _ (h .expr k).after).bind fun b l hb =>
    (yields_expect _).bind fun _ m hm => ?_
  have hspans := hps.2.append hb.2 (by omega)
  exact Placed.located (hspans.mono (Nat.le_of_lt hs) (by omega)) (by omega)
    fun _ => by rw [Expr.spanTree]; rfl

theorem placed_ifExprTail (h : SubPlaced src sub) (hs : s < i) :
    Placed src (ifExprTail src sub s) i s fun e => [e.spanTree] := by
  refine (Yields.inContext _ (h .expr i).after).bind fun c j hc => ?_
  refine (Yields.inContext _ (placed_braced h j).after).bind fun t k ht => ?_
  refine Yields.keyword_ite (fun l _ hl => ?_) (Yields.unexpected _)
  have helse : Placed src (do if ← nextIsKeyword src "if" then sub .ifExpr else braced src sub) l l
    fun e => [e.spanTree] :=
    Yields.nextIsKeyword_ite (h .ifExpr l).after (placed_braced h l).after
  refine (Yields.inContext _ helse).bind fun e m he => ?_
  have hspans := (hc.2.append ht.2 (by omega)).append he.2 (by omega)
  exact Placed.located (hspans.mono (Nat.le_of_lt hs) le_rfl) (by omega)
    fun _ => by rw [Expr.spanTree]; rfl

theorem placed_ifExpr (h : SubPlaced src sub) (i : Nat) :
    Placed src (ifExpr src sub) i (src.trivia i) fun e => [e.spanTree] := by
  refine yields_tokenStart.bind ?_
  rintro s _ ⟨rfl, rfl, -⟩
  exact Yields.keyword_ite (fun j _ hj => placed_ifExprTail h hj) (Yields.unexpected _)

theorem placed_matchCase (h : SubPlaced src sub) (i : Nat) :
    Placed src (matchCase src sub) i (src.trivia i) fun c => [c.spanTree] := by
  refine yields_tokenStart.bind ?_
  rintro s _ ⟨rfl, rfl, -⟩
  refine (Yields.inContext _ (h .pattern i)).bind fun p j hp =>
    (yields_expect _).bind fun _ k hk => ?_
  refine (Yields.inContext _ (h .expr k).after).bind fun e l he => ?_
  exact Placed.located (hp.2.append he.2 (by omega)) (by omega) fun _ => by rw [Case.spanTree]; rfl

theorem placed_matchTail (h : SubPlaced src sub) (hs : s < i) :
    Placed src (matchTail src sub s) i s fun e => [e.spanTree] := by
  refine (Yields.inContext _ (h .expr i).after).bind fun x j hx =>
    (yields_expect _).bind fun _ k hk => ?_
  refine (placed_closedList (placed_matchCase h) _ k).after.bind fun cs l hcs => ?_
  have hspans := hx.2.append hcs.2 (by omega)
  exact Placed.located (hspans.mono (Nat.le_of_lt hs) le_rfl) (by omega)
    fun _ => by rw [Expr.spanTree]; rfl

theorem placed_wordExpr {stop : Nat} {w : String} (h : SubPlaced src sub) (hlt : s < stop)
    (hstop : stop ≤ src.size) :
    Placed src (wordExpr src sub s w stop) i s fun e => [e.spanTree] := by
  refine (Yields.set (P := fun _ k => stop = k) hstop rfl).bind ?_
  rintro _ _ rfl
  refine Yields.ite (fun _ => Placed.leaf hlt (by rw [Expr.spanTree])) fun _ => ?_
  refine Yields.ite (fun _ => Placed.leaf hlt (by rw [Expr.spanTree])) fun _ => ?_
  refine Yields.ite (fun _ => placed_lambda h hlt) fun _ =>
    Yields.ite (fun _ => placed_ifExprTail h hlt) fun _ => ?_
  refine Yields.ite (fun _ => placed_matchTail h hlt) fun _ => ?_
  exact Yields.ite (fun _ => Yields.unexpectedAt _) fun _ => Placed.leaf hlt (by rw [Expr.spanTree])

theorem placed_punctExpr (h : SubPlaced src sub) (hs : s = src.trivia i) :
    Placed src (punctExpr src sub s) i s fun e => [e.spanTree] := by
  subst hs
  refine Yields.punct_ite (fun j _ hj => Placed.located .nil hj fun _ => by rw [Expr.spanTree])
    (Yields.punct_ite (fun j _ hj => ?_) ?_)
  · exact placed_parenthesised h hj
  · refine Yields.punct_ite (fun j _ hj => ?_) (Yields.unexpected _)
    refine (placed_closedList (h .expr) _ j).after.bind fun es k hes => ?_
    exact Placed.located (hes.2.mono (Nat.le_of_lt hj) le_rfl) (by omega)
      fun _ => by rw [Expr.spanTree]; rfl

theorem placed_primary (h : SubPlaced src sub) (i : Nat) :
    Placed src (primary src sub) i (src.trivia i) fun e => [e.spanTree] := by
  refine Yields.of_le fun hi => yields_tokenStart.bind ?_
  rintro s _ ⟨rfl, hs, -⟩
  subst hs
  rw [primaryAt_inside (src.trivia_le hi)]
  cases hb : src.byte? (src.trivia i) with
  | none => exact Yields.unexpectedAt _
  | some b =>
    refine Yields.ite (fun hdigit => placed_number le_rfl (by simpa [hb] using hdigit)) fun _ => ?_
    refine Yields.ite (fun hsign => placed_number (Nat.le_succ _) (Bool.and_eq_true_iff.1 hsign).2)
      fun _ => ?_
    refine Yields.ite (fun hquote => placed_string (by rw [hb, beq_iff_eq.1 hquote])) fun _ => ?_
    cases hw : src.word? (src.trivia i) with
    | none => exact placed_punctExpr h rfl
    | some r =>
      have hbounds := src.word?_bounds hw
      exact placed_wordExpr h hbounds.1 hbounds.2

theorem placed_namedArg? (h : SubPlaced src sub) (i : Nat) :
    Yields src (namedArg? src sub) i fun a j =>
    (a = none ∧ i = j) ∨
      ∃ n, a = some n ∧ src.trivia i < j ∧ SpansBetween src (src.trivia i) j [n.spanTree] := by
  refine Yields.of_le fun hi => yields_tokenStart.bind ?_
  rintro s _ ⟨rfl, hs, -⟩
  subst hs
  have hsize := src.trivia_le hi
  have hle := src.le_trivia hsize
  rw [src.nameAfter?_eq hsize, look_pure, pure_bind]
  cases hn : src.name? (src.trivia i) with
  | none => exact Yields.pure (.inl ⟨rfl, rfl⟩)
  | some r =>
    obtain ⟨n, stop⟩ := r
    have hname := src.name?_bounds hn hsize
    dsimp only
    rw [src.punctAfter?_eq hname.2, look_pure, pure_bind]
    split
    · rename_i j hj
      have hpunct := src.punct?_bounds hj hname.2
      refine (Yields.set (P := fun _ k => j = k) hpunct.2 rfl).bind ?_
      rintro _ _ rfl
      refine (Yields.inContext _ (h .expr j).after).bind fun x l hx => Yields.locate fun hl => ?_
      refine Yields.pure (.inr ⟨_, rfl, by omega, ?_⟩)
      rw [NamedArg.spanTree]
      exact (hx.2.mono (by omega) le_rfl).node (by omega) hl
    · exact Yields.pure (.inl ⟨rfl, rfl⟩)

theorem placed_arguments (h : SubPlaced src sub) (fuel : Nat) (named : Bool) (i : Nat) :
    Placed src (arguments src sub fuel named) i (src.trivia i) fun r =>
      r.1.map Expr.spanTree ++ r.2.map NamedArg.spanTree := by
  induction fuel generalizing i named with
  | zero => exact Yields.failWith
  | succ fuel ih =>
    refine (placed_namedArg? h i).bind ?_
    rintro a j (⟨rfl, rfl⟩ | ⟨n, rfl, hj, hn⟩)
    · refine Yields.ite (fun _ => Yields.unexpected _) fun _ => ?_
      refine (Yields.inContext _ (h .expr i)).bind fun x k hx =>
        Yields.punct_ite (fun l hle hl => ?_) ?_
      · refine (ih false l).after.bind fun r m hr => Yields.pure ⟨by omega, ?_⟩
        exact hx.2.append hr.2 (by omega)
      · refine (yields_expect _).bind fun _ l hl => Yields.pure ⟨by omega, ?_⟩
        exact hx.2.mono le_rfl (by omega)
    · refine Yields.punct_ite (fun l hle hl => ?_) ?_
      · -- The positional arguments are listed first, wherever they stand.
        refine (ih true l).after.bind fun r m hr => Yields.pure ⟨by omega, ?_⟩
        exact (hn.append hr.2 (by omega)).perm (by simpa using List.perm_middle.symm)
      · exact (yields_expect _).bind fun _ l hl => Yields.pure ⟨by omega, hn.mono le_rfl (by omega)⟩

theorem placed_postfixes (h : SubPlaced src sub) (fuel : Nat) {x : Expr} (hs : s < i)
    (hx : SpansBetween src s i [x.spanTree]) :
    Placed src (postfixes src sub s fuel x) i s fun e => [e.spanTree] := by
  induction fuel generalizing i x with
  | zero => exact Yields.failWith
  | succ fuel ih =>
    have hmore : ∀ {f : Location → Expr} {ts : List SpanTree} {j : Nat}, s < j →
        SpansBetween src s j ts → (∀ l, (f l).spanTree = .node l ts) → Placed src (do
          let l ← locationFrom src s
          postfixes src sub s fuel (f l)) j s fun e => [e.spanTree] := by
      intro f ts j hj hts hf
      refine Yields.locate fun hsize => ih hj ?_
      rw [hf]
      exact hts.node hj hsize
    refine Yields.punct_ite (fun j _ hj => ?_) ?_
    · refine Yields.punct_ite (fun k _ hk => ?_) ?_
      · rw [pure_bind]
        exact hmore (by omega) (hx.mono le_rfl (by omega)) fun l => by simp [Expr.spanTree]
      · refine (placed_arguments h _ _ j).after.bind fun r k hr => ?_
        exact hmore (by omega) (hx.append hr.2 (by omega)) fun l => by simp [Expr.spanTree]
    · refine Yields.punct_ite (fun j _ hj => ?_) (Yields.pure ⟨hs, hx⟩)
      refine lands_fieldName.yields.bind fun f k hk => ?_
      exact hmore (by omega) (hx.mono le_rfl (by omega)) fun l => by rw [Expr.spanTree]

theorem placed_postfixed (h : SubPlaced src sub) (i : Nat) :
    Placed src (postfixed src sub) i (src.trivia i) fun e => [e.spanTree] := by
  refine yields_tokenStart.bind ?_
  rintro s _ ⟨rfl, rfl, -⟩
  exact (placed_primary h i).bind fun x j hx => placed_postfixes h _ hx.1 hx.2

theorem placed_powerExpr (h : SubPlaced src sub) (i : Nat) :
    Placed src (powerExpr src sub) i (src.trivia i) fun e => [e.spanTree] := by
  refine yields_tokenStart.bind ?_
  rintro s _ ⟨rfl, rfl, -⟩
  refine (placed_postfixed h i).bind fun x j hx =>
    Yields.punct_ite (fun k _ hk => ?_) (Yields.pure hx)
  refine (Yields.inContext _ (h .power k).after).bind fun y l hy => ?_
  exact Placed.located (hx.2.append hy.2 (by omega)) (by omega) fun _ => by rw [Expr.spanTree]; rfl

theorem placed_operands {operand : Reading Expr} {ops : List Operator}
    (h : ∀ j, Placed src operand j (src.trivia j) fun e => [e.spanTree]) (fuel : Nat) {x : Expr}
    (hs : s < i) (hx : SpansBetween src s i [x.spanTree]) :
    Placed src (operands src operand ops s fuel x) i s fun e => [e.spanTree] := by
  induction fuel generalizing i x with
  | zero => exact Yields.failWith
  | succ fuel ih =>
    refine Yields.of_le fun hi => lands_get.yields.bind ?_
    rintro _ _ ⟨rfl, rfl⟩
    rw [src.punctAfter?_eq hi, look_pure, pure_bind, ← operatorOf?]
    split
    · exact Yields.pure ⟨hs, hx⟩
    · rename_i op j hop
      have hbounds := operatorOf?_bounds hop hi
      refine (Yields.set (P := fun _ k => j = k) hbounds.2 rfl).bind ?_
      rintro _ _ rfl
      refine (Yields.inContext _ (h j).after).bind fun y k hy =>
        Yields.locate fun hk => ih (by omega) ?_
      rw [Expr.spanTree]
      exact (hx.append hy.2 (by omega)).node (by omega) hk

theorem placed_binary (h : SubPlaced src sub) (levels : List (List Operator)) (i : Nat) :
    Placed src (binary src sub levels) i (src.trivia i) fun e => [e.spanTree] := by
  induction levels generalizing i with
  | nil => exact placed_powerExpr h i
  | cons ops levels ih =>
    refine yields_tokenStart.bind ?_
    rintro s _ ⟨rfl, rfl, -⟩
    exact (ih i).bind fun x j hx => placed_operands ih _ hx.1 hx.2

/-! ### Patterns -/

theorem placed_namePattern {n : String} (h : SubPlaced src sub) (hs : s < i) :
    Placed src (namePattern src sub s n) i s fun p => [p.spanTree] := by
  refine Yields.locate fun _ => Yields.ite (fun _ => Placed.leaf hs (by rw [Pattern.spanTree]))
    fun _ => ?_
  refine Yields.punct_ite (fun j _ hj => ?_) ?_
  · refine (placed_closedList (h .pattern) _ j).after.bind fun ps k hps => ?_
    exact Placed.located (hps.2.mono (by omega) le_rfl) (by omega)
      fun _ => by rw [Pattern.spanTree]; rfl
  · refine Yields.look_bind fun capital => Yields.ite (fun _ => ?_) fun _ => ?_
    · exact Placed.leaf hs (by simp [Pattern.spanTree])
    · exact Placed.leaf hs (by rw [Pattern.spanTree])

theorem placed_pattern (h : SubPlaced src sub) (i : Nat) :
    Placed src (pattern src sub) i (src.trivia i) fun p => [p.spanTree] := by
  refine Yields.of_le fun hi => lands_get.yields.bind ?_
  rintro here _ ⟨rfl, rfl⟩
  refine yields_tokenStart.bind ?_
  rintro s _ ⟨rfl, hs, -⟩
  subst hs
  have hsize := src.trivia_le hi
  rw [src.nameAfter?_eq hsize, look_pure, pure_bind]
  cases hn : src.name? (src.trivia i) with
  | some r =>
    have hbounds := src.name?_bounds hn hsize
    refine (Yields.set (P := fun _ k => r.2 = k) hbounds.2 rfl).bind ?_
    rintro _ _ rfl
    exact placed_namePattern h hbounds.1
  | none =>
    refine Yields.punct_ite (fun j _ hj => ?_) ?_
    · refine (placed_closedList (h .pattern) _ j).after.bind fun ps k hps => ?_
      exact Placed.located (hps.2.mono (Nat.le_of_lt hj) le_rfl) (by omega)
        fun _ => by rw [Pattern.spanTree]; rfl
    · refine (Yields.inContext _ (placed_primary h i)).bind fun x j hx => ?_
      refine Yields.ite (fun _ => Yields.pure ⟨hx.1, ?_⟩) fun _ => Yields.unexpectedAt _
      show SpansBetween src _ j [(Pattern.lit x.loc x).spanTree]
      rw [Pattern.spanTree, ← Expr.loc_spanTree]
      exact hx.2.wrap

/-! ### Statements -/

/-- Before its value only the annotation of an assignment has a place. -/
theorem placed_assignHead? (h : SubPlaced src sub) (i : Nat) :
    Yields src (assignHead? src sub) i fun a j =>
    (a = none ∧ i = j) ∨ ∃ n t, a = some (n, t) ∧ src.trivia i < j ∧
      SpansBetween src (src.trivia i) j (t.toList.map TypeExpr.spanTree) := by
  have hhead : Yields src (assignHead src sub) i fun a j => ∀ n t, a = some (n, t) →
      src.trivia i < j ∧ SpansBetween src (src.trivia i) j (t.toList.map TypeExpr.spanTree) := by
    refine yields_name.bind fun n j hj => ?_
    have hwhole : ∀ (t : Option TypeExpr) k, j ≤ k →
      SpansBetween src j k (t.toList.map TypeExpr.spanTree) → Yields src (do
        if ← punct src .equals then return some (n, t) else return none :
          Reading (Option (String × Option TypeExpr))) k fun a l => ∀ n t, a = some (n, t) →
            src.trivia i < l ∧
              SpansBetween src (src.trivia i) l (t.toList.map TypeExpr.spanTree) := by
      refine fun t k hk ht =>
        Yields.punct_ite (fun l _ hl => Yields.pure ?_) (Yields.pure (by simp))
      rintro _ _ ⟨⟩
      exact ⟨by omega, ht.mono (by omega) (by omega)⟩
    refine Yields.punct_ite (fun k _ hk => ?_) ?_
    · refine (Yields.map
        (Q := fun t l => k < l ∧ SpansBetween src k l (t.toList.map TypeExpr.spanTree))
        (h .type k).after).bind
        fun t l ht => hwhole t l (by omega) (ht.2.mono (by omega) le_rfl)
    · rw [pure_bind]
      exact hwhole none j le_rfl .nil
  intro hi a j ha
  rw [assignHead?] at ha
  split at ha
  · rename_i b k hb
    obtain ⟨rfl, rfl⟩ := Prod.mk.inj (Except.ok.inj ha)
    have hread := hhead hi _ _ hb
    exact ⟨hread.1, .inr ⟨b.1, b.2, rfl, hread.2 b.1 b.2 rfl⟩⟩
  · cases ha
  · obtain ⟨rfl, rfl⟩ := Prod.mk.inj (Except.ok.inj ha)
    exact ⟨hi, .inl ⟨rfl, rfl⟩⟩

theorem placed_ifTail (h : SubPlaced src sub) (hs : s < i) :
    Placed src (ifTail src sub s) i s fun x => [x.spanTree] := by
  refine (Yields.inContext _ (h .expr i).after).bind fun c j hc => ?_
  refine (Yields.inContext _ (h .block j).after).bind fun t k ht => ?_
  have hboth := (hc.2.append ht.2 (by omega)).mono (Nat.le_of_lt hs) le_rfl
  refine Yields.keyword_ite (fun l _ hl => ?_) ?_
  · have hwhole : ∀ (b : Block) m, l < m → SpansBetween src l m [b.spanTree] → Placed src (do
        return Stmt.ifElse (← locationFrom src s) c t.loc t.stmts b.loc b.stmts) m s fun x =>
          [x.spanTree] := by
      intro b m hm hb
      exact Placed.located (hboth.append hb (by omega)) (by omega)
        fun _ => by rw [Stmt.spanTree]; rfl
    refine Yields.nextIsKeyword_ite ?_ ?_
    · refine (h .ifStmt l).after.bind fun x m hx => hwhole ⟨x.loc, [x]⟩ m hx.1 ?_
      -- The block of a further condition is that condition alone, at its own place.
      show SpansBetween src l m [.node x.loc [x.spanTree]]
      rw [← Stmt.loc_spanTree]
      exact hx.2.wrap
    · exact (Yields.inContext _ (h .block l).after).bind fun b m hb => hwhole b m hb.1 hb.2
  · exact Placed.located hboth (by omega) fun _ => by rw [Stmt.spanTree]; rfl

theorem placed_ifStmt (h : SubPlaced src sub) (i : Nat) :
    Placed src (ifStmt src sub) i (src.trivia i) fun x => [x.spanTree] := by
  refine yields_tokenStart.bind ?_
  rintro s _ ⟨rfl, rfl, -⟩
  exact Yields.keyword_ite (fun j _ hj => placed_ifTail h hj) (Yields.unexpected _)

theorem placed_returnTail (h : SubPlaced src sub) (hs : s < i) :
    Placed src (returnTail src sub s) i s fun x => [x.spanTree] := by
  refine Yields.punct_ite
    (fun j _ hj => Placed.located .nil (by omega) fun _ => by simp [Stmt.spanTree]) ?_
  refine (Yields.inContext _ (h .expr i).after).bind fun e j he =>
    (yields_expect _).bind fun _ k hk => ?_
  exact Placed.located (he.2.mono (Nat.le_of_lt hs) (by omega)) (by omega)
    fun _ => by rw [Stmt.spanTree]; rfl

theorem placed_useTail (h : SubPlaced src sub) (hs : s < i) :
    Placed src (useTail src sub s) i s fun x => [x.spanTree] := by
  refine (Yields.inContext _ yields_name).bind fun n j hj => (yields_expect _).bind fun _ k hk => ?_
  refine (Yields.inContext _ (h .expr k).after).bind fun e l he =>
    (yields_expect _).bind fun _ m hm => ?_
  exact Placed.located (he.2.mono (by omega) (by omega)) (by omega)
    fun _ => by rw [Stmt.spanTree]; rfl

theorem placed_stmt (h : SubPlaced src sub) (i : Nat) :
    Placed src (stmt src sub) i (src.trivia i) fun x => [x.spanTree] := by
  refine yields_tokenStart.bind ?_
  rintro s _ ⟨rfl, rfl, hle⟩
  refine Yields.keyword_ite (fun j _ hj => placed_returnTail h hj) ?_
  refine Yields.keyword_ite (fun j _ hj => placed_useTail h hj) ?_
  refine Yields.keyword_ite (fun j _ hj => placed_ifTail h hj) ?_
  refine (placed_assignHead? h i).bind ?_
  rintro a j (⟨rfl, rfl⟩ | ⟨n, t, rfl, hj, ht⟩)
  · refine (Yields.inContext _ (h .expr i)).bind fun e k he =>
      (yields_expect _).bind fun _ l hl => ?_
    exact Placed.located (he.2.mono le_rfl (by omega)) (by omega)
      fun _ => by rw [Stmt.spanTree]; rfl
  · refine (Yields.inContext _ (h .expr j).after).bind fun e k he =>
      (yields_expect _).bind fun _ l hl => ?_
    exact Placed.located ((ht.append he.2 (by omega)).mono le_rfl (by omega)) (by omega)
      fun _ => by rw [Stmt.spanTree]; rfl

theorem placed_block (h : SubPlaced src sub) (i : Nat) :
    Placed src (block src sub) i (src.trivia i) fun b => [b.spanTree] := by
  refine yields_tokenStart.bind ?_
  rintro s _ ⟨rfl, rfl, -⟩
  refine (yields_expect _).bind fun _ j hj =>
    (placed_manyUntil_map (placed_stmt h) _ j).bind fun ss k hss => ?_
  exact Placed.located (hss.2.mono (by omega) le_rfl) (by omega) fun _ => rfl

/-! ### Nesting -/

theorem placed_rule (h : SubPlaced src sub) : SubPlaced src (rule src sub) := by
  intro k i
  cases k with
  | type => exact placed_typeExpr h i
  | expr => exact placed_binary h precedence i
  | power => exact placed_powerExpr h i
  | ifExpr => exact placed_ifExpr h i
  | pattern => exact placed_pattern h i
  | block => exact placed_block h i
  | ifStmt => exact placed_ifStmt h i

theorem placed_nested (fuel : Nat) : SubPlaced src (nested src fuel) := by
  induction fuel with
  | zero => exact fun k j => Yields.failWith
  | succ fuel ih => exact placed_rule ih

theorem placed_tree : SubPlaced src (tree src) := placed_nested _

/-! ### Definitions -/

theorem placed_funcTail (hs : s < i) : Placed src (funcTail src s) i s fun d => [d.spanTree] := by
  refine (Yields.inContext _ yields_name).bind fun n j hj => ?_
  refine (Yields.inContext _ (placed_params placed_tree j).after).bind fun ps k hps => ?_
  have hwhole : ∀ (r : Option TypeExpr) l, k ≤ l →
    SpansBetween src k l (r.toList.map TypeExpr.spanTree) → Placed src (do
      let body ← inContext ("func " ++ n) (tree src .block)
      return {
        loc := ← locationFrom src s, name := n, params := ps, ret := r, body,
        checked := false : FuncDef }) l s
        fun d => [d.spanTree] := by
    intro r l hl hr
    refine (Yields.inContext _ (placed_tree .block l).after).bind fun b m hb => ?_
    have hspans := (hps.2.append hr (by omega)).append hb.2 (by omega)
    exact Placed.located (hspans.mono (by omega) le_rfl) (by omega) fun _ => rfl
  refine Yields.punct_ite (fun l _ hl => ?_) ?_
  · refine (Yields.map
      (Q := fun t m => l < m ∧ SpansBetween src l m (t.toList.map TypeExpr.spanTree))
      (Yields.inContext _ (placed_tree .type l).after)).bind fun r m hr => ?_
    exact hwhole r m (by omega) (hr.2.mono (by omega) le_rfl)
  · rw [pure_bind]
    exact hwhole none k le_rfl .nil

theorem placed_field (i : Nat) : Placed src (field src) i (src.trivia i) fun f => [f.spanTree] := by
  refine yields_tokenStart.bind ?_
  rintro s _ ⟨rfl, rfl, -⟩
  refine (Yields.inContext _ yields_name).bind fun n j hj => (yields_expect _).bind fun _ k hk => ?_
  refine (Yields.inContext _ (placed_tree .type k).after).bind fun t l ht => ?_
  exact Placed.located (ht.2.mono (by omega) le_rfl) (by omega) fun _ => rfl

/-- There may be no fields. -/
theorem placed_fields (fuel : Nat) (i : Nat) : Yields src (fields src fuel) i fun fs j =>
    i ≤ j ∧ SpansBetween src i j (fs.map Field.spanTree) := by
  induction fuel generalizing i with
  | zero => exact Yields.failWith
  | succ fuel ih =>
    refine Yields.nextIs_ite (Yields.pure ⟨le_rfl, .nil⟩)
      (Yields.nextIsKeyword_ite (Yields.pure ⟨le_rfl, .nil⟩) ?_)
    refine (placed_field i).after.bind fun f j hf =>
      Yields.punct_ite (fun k _ hk => ?_) (Yields.pure ⟨Nat.le_of_lt hf.1, hf.2⟩)
    exact (ih k).bind fun fs l hfs => Yields.pure ⟨by omega, hf.2.append hfs.2 (by omega)⟩

theorem placed_variant {owner : String} (i : Nat) :
    Placed src (variant src owner) i (src.trivia i) fun v => [v.spanTree] := by
  refine yields_tokenStart.bind ?_
  rintro s _ ⟨rfl, rfl, -⟩
  refine (Yields.inContext _ yields_name).bind fun n j hj => Yields.punct_ite (fun k _ hk => ?_) ?_
  · refine (Yields.inContext _ (placed_fields _ k)).bind fun fs l hfs =>
      (yields_expect _).bind fun _ m hm => ?_
    rw [pure_bind]
    exact Placed.located (hfs.2.mono (by omega) (by omega)) (by omega) fun _ => rfl
  · rw [pure_bind]
    exact Placed.located .nil hj.2 fun _ => rfl

theorem placed_typeTail (hs : s < i) : Placed src (typeTail src s) i s fun d => [d.spanTree] := by
  refine (Yields.inContext _ yields_name).bind fun n j hj =>
    (Yields.inContext _ lands_typeParams.yields).bind fun ps k hk => ?_
  refine (yields_expect _).bind fun _ l hl =>
    (placed_closedList placed_variant _ l).after.bind fun vs m hvs => ?_
  exact Placed.located (hvs.2.mono (by omega) le_rfl) (by omega) fun _ => rfl

theorem placed_objectMembers (i : Nat) : Yields src (objectMembers src) i fun g j =>
    i ≤ j ∧ SpansBetween src i j (g.1.map Field.spanTree ++ g.2.map FuncDef.spanTree) := by
  refine yields_tokenStart.bind ?_
  rintro s _ ⟨rfl, rfl, hle⟩
  refine Yields.keyword_ite (fun j _ hj => ?_) ?_
  · exact (placed_funcTail hj).bind fun d k hd => Yields.pure ⟨by omega, hd.2.mono hle le_rfl⟩
  · exact (placed_fields _ i).bind fun fs j hfs => Yields.pure ⟨hfs.1, by simpa using hfs.2⟩

theorem placed_objectTail (hs : s < i) :
    Placed src (objectTail src s) i s fun d => [d.spanTree] := by
  refine (Yields.inContext _ yields_name).bind fun n j hj =>
    (Yields.inContext _ lands_typeParams.yields).bind fun ps k hk => ?_
  refine (yields_expect _).bind fun _ l hl => ?_
  have hgroup : ∀ m, Yields src (do
      let g ← inContext ("object " ++ n) (objectMembers src)
      if g.1.isEmpty && g.2.isEmpty then unexpected src "field or fn" else return g) m fun g k =>
        m ≤ k ∧ SpansBetween src m k (g.1.map Field.spanTree ++ g.2.map FuncDef.spanTree) :=
    fun m => (Yields.inContext _ (placed_objectMembers m)).bind fun g k hg =>
      Yields.ite (fun _ => Yields.unexpected _) fun _ => Yields.pure hg
  refine (placed_manyUntil hgroup _ l).bind fun gs m hgs => ?_
  -- The groups come one after the other, but the tree lists all fields before all functions.
  have hkinds : (gs.flatMap fun g => g.1.map Field.spanTree ++ g.2.map FuncDef.spanTree).Perm
      ((gs.flatMap (·.1)).map Field.spanTree ++ (gs.flatMap (·.2)).map FuncDef.spanTree) := by
    rw [List.map_flatMap, List.map_flatMap]
    exact (List.flatMap_append_perm gs _ _).symm
  have hspans := hgs.2.perm hkinds
  exact Placed.located (hspans.mono (by omega) le_rfl) (by omega) fun _ => rfl

theorem placed_aliasTail (hs : s < i) : Placed src (aliasTail src s) i s fun d => [d.spanTree] := by
  refine (Yields.inContext _ yields_name).bind fun n j hj =>
    (Yields.inContext _ lands_typeParams.yields).bind fun ps k hk => ?_
  refine (yields_expect _).bind fun _ l hl =>
    (Yields.inContext _ (placed_tree .type l).after).bind fun t m ht => ?_
  refine (lands_punct _).yields.bind fun b e he => ?_
  have hle : m ≤ e := by split at he <;> omega
  exact Placed.located (ht.2.mono (by omega) hle) (by omega) fun _ => rfl

theorem placed_member (i : Nat) :
    Placed src (member src) i (src.trivia i) fun d => [d.spanTree] := by
  refine yields_tokenStart.bind ?_
  rintro s _ ⟨rfl, rfl, -⟩
  refine Yields.keyword_ite (fun j _ hj => (placed_funcTail hj).bind fun d k hd => Yields.pure ?_)
    ?_
  · simpa only [Definition.spanTree] using hd
  refine Yields.keyword_ite (fun j _ hj => (placed_typeTail hj).bind fun d k hd => Yields.pure ?_)
    ?_
  · simpa only [Definition.spanTree] using hd
  refine Yields.keyword_ite (fun j _ hj => (placed_objectTail hj).bind fun d k hd => Yields.pure ?_)
    ?_
  · simpa only [Definition.spanTree] using hd
  refine Yields.keyword_ite (fun j _ hj => (placed_aliasTail hj).bind fun d k hd => Yields.pure ?_)
    (Yields.unexpected _)
  simpa only [Definition.spanTree] using hd

theorem placed_moduleTail (hs : s < i) :
    Placed src (moduleTail src s) i s fun d => [d.spanTree] := by
  refine (Yields.inContext _ yields_name).bind fun n j hj => (yields_expect _).bind fun _ k hk => ?_
  refine (placed_manyUntil_map (fun l => Yields.inContext _ (placed_member l)) _ k).bind
    fun ds l hds => ?_
  exact Placed.located (hds.2.mono (by omega) le_rfl) (by omega)
    fun _ => by rw [Definition.spanTree]

theorem placed_definition (i : Nat) :
    Placed src (definition src) i (src.trivia i) fun d => [d.spanTree] := by
  refine yields_tokenStart.bind ?_
  rintro s _ ⟨rfl, rfl, -⟩
  exact Yields.keyword_ite (fun j _ hj => placed_moduleTail hj) (placed_member i)

theorem placed_importTail (hs : s < i) :
    Placed src (importTail src s) i s fun m => [m.spanTree] := by
  refine (Yields.inContext _ yields_name).bind fun n j hj => ?_
  have hwhole : ∀ (ns : List String) k, j ≤ k → Placed src (do
      let _ ← punct src .semicolon
      return { loc := ← locationFrom src s, path := n, names := ns : Import }) k s fun m =>
    [m.spanTree] := by
    refine fun ns k hk => (lands_punct _).yields.bind fun b e he => ?_
    have hle : k ≤ e := by split at he <;> omega
    exact Placed.located .nil (by omega) fun _ => rfl
  refine Yields.punct_ite (fun k _ hk => ?_) ?_
  · refine (lands_commaList (fun _ _ => Lands.inContext _ lands_name) (fuel_lt k)).yields.bind
      fun ns l hl => ?_
    refine (yields_expect _).bind fun _ m hm => ?_
    rw [pure_bind]
    exact hwhole ns m (by omega)
  · rw [pure_bind]
    exact hwhole [] j le_rfl

theorem placed_items (fuel : Nat) (i : Nat) :
    Yields src (items src fuel) i fun p j => i ≤ j ∧ SpansBetween src i j p.spanTrees := by
  induction fuel generalizing i with
  | zero => exact Yields.failWith
  | succ fuel ih =>
    refine yields_tokenStart.bind ?_
    rintro s _ ⟨rfl, rfl, hle⟩
    refine Yields.ite (fun _ => Yields.pure ⟨le_rfl, .nil⟩) fun _ =>
      Yields.keyword_ite (fun j _ hj => ?_) ?_
    · refine (placed_importTail hj).bind fun m k hm =>
        (ih k).bind fun p l hp => Yields.pure ⟨by omega, ?_⟩
      exact (hm.2.append hp.2 (by omega)).mono hle le_rfl
    · refine (placed_definition i).bind fun d k hd =>
        (ih k).bind fun p l hp => Yields.pure ⟨by omega, ?_⟩
      -- An import may come later, but it is listed before the definition.
      have hspans := (hd.2.append hp.2 (by omega)).mono hle le_rfl
      have hlisted : (d.spanTree :: p.spanTrees).Perm
        (Program.spanTrees ⟨p.imports, d :: p.defs⟩) := List.perm_middle.symm
      exact hspans.perm hlisted

end Reading

/-! ### Programs -/

/-- In a program that was read, every location is a span of the text that is not empty, with
its true line and column. The spans of the children of a node lie in its span, and no two of
them share a byte. -/
theorem Program.parse_wellPlaced {src : Source} {p : Program} (h : Program.parse src = .ok p) :
    (∀ t ∈ p.spanTrees, t.WellPlaced src) ∧ p.spanTrees.Pairwise fun t u => t.loc.Apart u.loc := by
  obtain ⟨j, hj⟩ := Program.parse_eq_ok_iff.1 h
  have hspans := (Reading.placed_items _ 0 (Nat.zero_le _) p j hj).2.2
  exact ⟨hspans.placed, hspans.apart⟩

/-- A function on three lines, with parentheses that the tree does not hold. -/
def parenthesisedSum : Source := { bytes := "fn f(x) \x7b\n  return (x) + 1;\n\x7d".toUTF8.data }

/-- The function as it is read. -/
def parenthesisedSumRead : FuncDef where
  loc := ⟨1, 1, 0, 29⟩
  name := "f"
  params := [⟨⟨1, 6, 5, 6⟩, "x", none⟩]
  ret := none
  body := ⟨⟨1, 9, 8, 29⟩,
    [.ret ⟨2, 3, 12, 27⟩
      (some (.binOp ⟨2, 10, 19, 26⟩ .add (.var ⟨2, 11, 20, 21⟩ "x") (.uint ⟨2, 16, 25, 26⟩ 1)))]⟩
  checked := false

set_option maxRecDepth 8192 in
theorem Program.parse_wellPlaced_parenthesisedSum :
    Program.parse parenthesisedSum = .ok ⟨[], [.func parenthesisedSumRead]⟩ ∧
      (∀ t ∈ Program.spanTrees ⟨[], [.func parenthesisedSumRead]⟩, t.WellPlaced parenthesisedSum) ∧
      (Program.spanTrees ⟨[], [.func parenthesisedSumRead]⟩).Pairwise fun t u =>
        t.loc.Apart u.loc := by
  have hread : Program.parse parenthesisedSum = .ok ⟨[], [.func parenthesisedSumRead]⟩ := by
    with_unfolding_all rfl
  exact ⟨hread, Program.parse_wellPlaced hread⟩

end FunRiscv
