import Mathlib
import FunRiscv.Surface.Reader.Literal
import FunRiscv.Proofs.Surface.Outcome

/-!
# Positions stay inside the text

* `ReadCause.Sound`: all that an error tells was looked up inside the text. No error comes from a
  bound of the reader, and a look leaves the text only after an escape at its end.
* `Reading.Lands`: an action that starts inside the text ends inside the text, or fails with a sound
  error.
* `lands_commaList`, `lands_closedList`, `lands_manyUntil`: repetition ends before its bound, if
  every item reads a byte.
-/

namespace FunRiscv

/-! ### Open escapes -/

namespace Source

variable (src : Source)

/-- Somewhere in the text a string starts whose closing quote is looked for beyond the end. -/
def EscapesEnd : Prop :=
  ∃ i, src.byte? i = some 0x22 ∧ src.size < Reading.closingQuote src (src.size + 1) (i + 1)

/-- The closing quote is looked for beyond the end only if the text ends with a backslash. -/
theorem backslash_of_closingQuote {fuel i : Nat} (hi : i ≤ src.size)
    (h : src.size < Reading.closingQuote src fuel i) : src.byte? (src.size - 1) = some 0x5c := by
  induction fuel generalizing i with
  | zero => exact absurd h (by simp [Reading.closingQuote]; omega)
  | succ fuel ih =>
    rw [Reading.closingQuote] at h
    split at h
    · omega
    · rename_i b hb
      have hlt := src.lt_size_of_byte? hb
      split at h
      · omega
      · split at h
        · rename_i hback
          by_cases hend : i + 2 ≤ src.size
          · exact ih hend h
          · have hlast : src.size - 1 = i := by omega
            rw [hlast, hb, beq_iff_eq.1 hback]
        · exact ih hlt h

theorem EscapesEnd.backslash {src : Source} (h : src.EscapesEnd) :
    src.byte? (src.size - 1) = some 0x5c := by
  obtain ⟨i, hi, hend⟩ := h
  exact src.backslash_of_closingQuote (src.lt_size_of_byte? hi) hend

end Source

/-! ### Errors -/

/-- All that the error tells was looked up inside the text. A look has left it only for what stands
after an escape at its end, two bytes beyond the backslash. -/
def ReadCause.Sound (src : Source) : ReadCause → Prop
  | .unexpected loc _ found => ∃ i ≤ src.size, loc = src.locate i i ∧ src.foundAt i = .ok found
  | .floatRange loc digits => ∃ i d j text, i ≤ d ∧ d < j ∧ loc = src.locate i j ∧
      src.cut d j = .ok text ∧ digits = Text.ofAscii text
  | .intRange loc literal | .uintRange loc literal => ∃ i j text, i < j ∧ loc = src.locate i j ∧
      src.cut i j = .ok text ∧ literal = Text.ofAscii text
  | .badString loc => ∃ i j : Nat, i < j ∧ j ≤ src.size ∧ loc = src.locate i j
  | .outside access => access = ⟨src.size + 1, src.size⟩ ∧ src.EscapesEnd
  | .exhausted => False

namespace Reading

/-- From a position in the text the action ends at one where `post` holds of what was read, or fails
with a sound error. -/
def Lands {α : Type} (src : Source) (act : Reading α) (i : Nat) (post : α → Nat → Prop) : Prop :=
  i ≤ src.size → match act i with
    | .ok (a, j) => j ≤ src.size ∧ post a j
    | .error e => e.cause.Sound src

/-- The action reads at least one byte. -/
abbrev Advances {α : Type} (src : Source) (act : Reading α) (i : Nat) : Prop :=
  Lands src act i fun _ j => i < j

namespace Lands

variable {α β : Type} {src : Source} {act : Reading α} {i : Nat} {P P' : α → Nat → Prop}
  {Q : β → Nat → Prop}

theorem pure {a : α} (h : P a i) : Lands src (Pure.pure a) i P := fun hi => ⟨hi, h⟩

theorem bind {f : α → Reading β} (h : Lands src act i P) (hf : ∀ a j, P a j → Lands src (f a) j Q) :
    Lands src (act >>= f) i Q := by
  intro hi
  rw [bind_apply]
  have hact := h hi
  cases heq : act i with
  | error e =>
    rw [heq] at hact
    exact hact
  | ok r =>
    rw [heq] at hact
    exact hf r.1 r.2 hact.2 hact.1

theorem mono (h : Lands src act i P) (himp : ∀ a j, P a j → P' a j) : Lands src act i P' := by
  intro hi
  have hact := h hi
  cases heq : act i with
  | error e =>
    rw [heq] at hact
    exact hact
  | ok r =>
    rw [heq] at hact
    exact ⟨hact.1, himp r.1 r.2 hact.2⟩

theorem inContext (label : String) (h : Lands src act i P) :
    Lands src (FunRiscv.inContext label act) i P := by
  intro hi
  have hact := h hi
  rw [inContext_apply]
  cases heq : act i with
  | error e =>
    rw [heq] at hact
    exact hact
  | ok r =>
    rw [heq] at hact
    exact hact

theorem map {f : α → β} (h : Lands src act i fun a j => Q (f a) j) : Lands src (f <$> act) i Q := by
  rw [map_eq_bind]
  exact h.bind fun a j ha => Lands.pure ha

theorem failWith {c : ReadCause} (h : c.Sound src) :
    Lands src (FunRiscv.failWith c : Reading α) i P := fun _ => h

theorem ite {c : Prop} [Decidable c] {act' : Reading α} (h : c → Lands src act i P)
    (h' : ¬ c → Lands src act' i P) : Lands src (if c then act else act') i P := by
  split
  · rename_i hc; exact h hc
  · rename_i hc; exact h' hc

theorem set {j : Nat} {P : PUnit → Nat → Prop} (hj : j ≤ src.size) (h : P ⟨⟩ j) :
    Lands src (MonadState.set j : Reading PUnit) i P := fun _ => ⟨hj, h⟩

/-- The start may be taken to be in the text. -/
theorem of_le (h : i ≤ src.size → Lands src act i P) : Lands src act i P := fun hi => h hi hi

end Lands

/-! ### Tokens -/

section

variable {α β : Type} {src : Source} {i : Nat} {P : α → Nat → Prop}

theorem lands_get : Lands src get i fun k j => i = k ∧ i = j := fun hi => ⟨hi, rfl, rfl⟩

theorem lands_tokenStart :
    Lands src (tokenStart src) i fun s j => i = j ∧ i ≤ s ∧ s ≤ src.size := by
  refine Lands.of_le fun hi => lands_get.bind ?_
  rintro _ _ ⟨rfl, rfl⟩
  rw [src.skip_eq hi, look_pure]
  exact Lands.pure ⟨rfl, src.le_trivia hi, src.trivia_le hi⟩

theorem lands_locationFrom (start : Nat) : Lands src (locationFrom src start) i fun _ j => i = j :=
  fun hi => ⟨hi, rfl⟩

theorem lands_unexpectedAt {k : Nat} (want : String) (hk : k ≤ src.size) :
    Lands src (unexpectedAt src k want) i P := by
  have hfound := src.foundAt_eq (src.trivia_le hk)
  rw [unexpectedAt, src.skip_eq hk, look_pure, pure_bind, hfound, look_pure, pure_bind]
  exact Lands.failWith ⟨src.trivia k, src.trivia_le hk, rfl, hfound⟩

theorem lands_unexpected (want : String) : Lands src (unexpected src want) i P := by
  refine Lands.of_le fun hi => lands_get.bind ?_
  rintro _ _ ⟨rfl, rfl⟩
  exact lands_unexpectedAt want hi

theorem lands_punct (t : Punct) :
    Lands src (punct src t) i fun b j => if b then i < j else i = j := by
  refine Lands.of_le fun hi => lands_get.bind ?_
  rintro _ _ ⟨rfl, rfl⟩
  rw [src.punctAfter?_eq hi, look_pure, pure_bind]
  split
  · rename_i u j hj
    have hbounds := src.punct?_bounds hj hi
    refine Lands.ite (fun _ => ?_) fun _ => Lands.pure rfl
    refine (Lands.set (P := fun _ k => j = k) hbounds.2 rfl).bind ?_
    rintro _ _ rfl
    exact Lands.pure hbounds.1
  · exact Lands.pure rfl

/-- A token is read or left where it is, and that decides how to go on. -/
theorem Lands.token_ite {token : Reading Bool} {yes no : Reading α}
    (htoken : Lands src token i fun b j => if b then i < j else i = j)
    (hyes : ∀ j, i < j → Lands src yes j P) (hno : Lands src no i P) :
    Lands src (token >>= fun b => if b = true then yes else no) i P := by
  refine htoken.bind fun b j hb => ?_
  cases b with
  | true => exact hyes j hb
  | false =>
    obtain rfl : i = j := hb
    exact hno

/-- What stands here is looked at, and that decides how to go on. -/
theorem Lands.peek_ite {peek : Reading Bool} {yes no : Reading α}
    (hpeek : Lands src peek i fun _ j => i = j) (hyes : Lands src yes i P)
    (hno : Lands src no i P) :
    Lands src (peek >>= fun b => if b = true then yes else no) i P := by
  refine hpeek.bind ?_
  rintro b _ rfl
  exact Lands.ite (fun _ => hyes) fun _ => hno

theorem Lands.punct_ite {t : Punct} {yes no : Reading α} (hyes : ∀ j, i < j → Lands src yes j P)
    (hno : Lands src no i P) :
    Lands src (punct src t >>= fun b => if b = true then yes else no) i P :=
  token_ite (lands_punct t) hyes hno

theorem lands_expect (t : Punct) : Advances src (expect src t) i :=
  Lands.punct_ite (fun _ hj => Lands.pure hj) (lands_unexpected _)

theorem lands_nextIs (t : Punct) : Lands src (nextIs src t) i fun _ j => i = j := by
  refine Lands.of_le fun hi => lands_get.bind ?_
  rintro _ _ ⟨rfl, rfl⟩
  rw [src.punctAfter?_eq hi, look_pure, pure_bind]
  exact Lands.pure rfl

theorem Lands.nextIs_ite {t : Punct} {yes no : Reading α} (hyes : Lands src yes i P)
    (hno : Lands src no i P) :
    Lands src (nextIs src t >>= fun b => if b = true then yes else no) i P :=
  peek_ite (lands_nextIs t) hyes hno

theorem lands_keyword (kw : String) :
    Lands src (keyword src kw) i fun b j => if b then i < j else i = j := by
  refine Lands.of_le fun hi => lands_get.bind ?_
  rintro _ _ ⟨rfl, rfl⟩
  rw [src.keywordAfter?_eq hi, look_pure, pure_bind]
  split
  · rename_i j hj
    have hbounds := src.keyword?_bounds hj hi
    refine (Lands.set (P := fun _ k => j = k) hbounds.2 rfl).bind ?_
    rintro _ _ rfl
    exact Lands.pure hbounds.1
  · exact Lands.pure rfl

theorem Lands.keyword_ite {kw : String} {yes no : Reading α} (hyes : ∀ j, i < j → Lands src yes j P)
    (hno : Lands src no i P) :
    Lands src (keyword src kw >>= fun b => if b = true then yes else no) i P :=
  token_ite (lands_keyword kw) hyes hno

theorem lands_nextIsKeyword (kw : String) :
    Lands src (nextIsKeyword src kw) i fun _ j => i = j := by
  refine Lands.of_le fun hi => lands_get.bind ?_
  rintro _ _ ⟨rfl, rfl⟩
  rw [src.keywordAfter?_eq hi, look_pure, pure_bind]
  exact Lands.pure rfl

theorem Lands.nextIsKeyword_ite {kw : String} {yes no : Reading α} (hyes : Lands src yes i P)
    (hno : Lands src no i P) :
    Lands src (nextIsKeyword src kw >>= fun b => if b = true then yes else no) i P :=
  peek_ite (lands_nextIsKeyword kw) hyes hno

theorem lands_name : Advances src (name src) i := by
  refine Lands.of_le fun hi => lands_get.bind ?_
  rintro _ _ ⟨rfl, rfl⟩
  rw [src.nameAfter?_eq hi, look_pure, pure_bind]
  split
  · rename_i n j hj
    have hbounds := src.name?_bounds hj hi
    refine (Lands.set (P := fun _ k => j = k) hbounds.2 rfl).bind ?_
    rintro _ _ rfl
    exact Lands.pure hbounds.1
  · exact lands_unexpected _

theorem lands_closeAngle : Advances src (closeAngle src) i := by
  refine lands_tokenStart.bind ?_
  rintro s _ ⟨rfl, hs, -⟩
  rw [src.holdsAt_eq, look_pure, pure_bind, Source.any_beq]
  refine Lands.ite (fun hbyte => ?_) fun _ => lands_unexpected _
  have hlt := src.lt_size_of_byte? (beq_iff_eq.1 hbyte)
  exact Lands.set hlt (by omega)

/-! ### Repetition -/

variable {item : Reading α} {fuel : Nat}

theorem lands_commaList (hitem : ∀ j, i ≤ j → Advances src item j) (hfuel : src.size - i < fuel) :
    Advances src (commaList src item fuel) i := by
  induction fuel generalizing i with
  | zero => omega
  | succ fuel ih =>
    refine (hitem i le_rfl).bind fun x j hj =>
      Lands.punct_ite (fun k hk => Lands.of_le fun hsize => ?_) (Lands.pure hj)
    exact (ih (fun l hl => hitem l (by omega)) (by omega)).bind fun xs l hl => Lands.pure (by omega)

theorem lands_closedList {close : Punct} (hitem : ∀ j, i ≤ j → Advances src item j)
    (hfuel : src.size - i < fuel) : Advances src (closedList src item close fuel) i := by
  induction fuel generalizing i with
  | zero => omega
  | succ fuel ih =>
    refine Lands.punct_ite (fun j hj => Lands.pure hj) ?_
    refine (hitem i le_rfl).bind fun x j hj =>
      Lands.punct_ite (fun k hk => Lands.of_le fun hsize => ?_) ?_
    · exact (ih (fun l hl => hitem l (by omega)) (by omega)).bind fun xs l hl =>
        Lands.pure (by omega)
    · exact (lands_expect close).bind fun _ l hl => Lands.pure (by omega)

theorem lands_manyUntil {close : Punct} (hitem : ∀ j, i ≤ j → Advances src item j)
    (hfuel : src.size - i < fuel) : Advances src (manyUntil src item close fuel) i := by
  induction fuel generalizing i with
  | zero => omega
  | succ fuel ih =>
    refine Lands.punct_ite (fun j hj => Lands.pure hj) ?_
    refine (hitem i le_rfl).bind fun x j hj => Lands.of_le fun hsize => ?_
    exact (ih (fun l hl => hitem l (by omega)) (by omega)).bind fun xs l hl => Lands.pure (by omega)

end

end Reading

end FunRiscv
