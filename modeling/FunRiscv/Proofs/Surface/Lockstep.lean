import Mathlib
import FunRiscv.Surface.Reader.Expression
import FunRiscv.Proofs.Surface.Comments

/-!
# Reading in step

A text with comments and the one with blanks in their place are read by the same actions, from
the same positions on.

* `Source.CommasClear`: before a closing parenthesis, a comma is seen in both texts or in neither.
* `Reading.Tracks`: two actions go from one position to another in step. Both read something, or
  fail with the same error.
* `Reading.Alike`: what they read is the same if commas are clear.
* `tracks_punct`, `tracks_keyword`, `tracks_name`: tokens are read in step, and
* `tracks_commaList`, `tracks_closedList`, `tracks_manyUntil`: so are sequences of items that are.
-/

namespace FunRiscv

/-- Before a closing parenthesis in the code, a comma is seen in both texts or in neither. -/
def Source.CommasClear (src : Source) : Prop :=
  ∀ i < src.size, src.byte? i = some 0x29 → src.zone i = .code →
    Reading.trailingComma src.blanked (i + 1) = Reading.trailingComma src (i + 1)

instance (src : Source) : Decidable src.CommasClear :=
  inferInstanceAs (Decidable (∀ i < src.size, _ → _ → _))

namespace Reading

/-- From a position in the code, both actions go to the same position, where `post` holds of what
they read, or fail with the same error. -/
def Tracks {α : Type} (src : Source) (act act' : Reading α) (i : Nat) (post : α → α → Nat → Prop) :
    Prop :=
  src.Clear i → (∃ a a' j, act i = .ok (a, j) ∧ act' i = .ok (a', j) ∧ src.Clear j ∧ post a a' j) ∨
    ∃ e, act i = .error e ∧ act' i = .error e

/-- What was read is the same, if commas are seen in both texts or in neither. -/
def Alike {α : Type} (src : Source) (a a' : α) : Prop := src.CommasClear → a' = a

/-- What both actions read is alike. -/
abbrev TracksAlike {α : Type} (src : Source) (act act' : Reading α) (i : Nat) : Prop :=
  Tracks src act act' i fun a a' _ => Alike src a a'

/-- Both actions read the same. -/
abbrev TracksSame {α : Type} (src : Source) (act act' : Reading α) (i : Nat) : Prop :=
  Tracks src act act' i fun a a' _ => a = a'

theorem Alike.refl {α : Type} {src : Source} (a : α) : Alike src a a := fun _ => rfl

theorem alike_of_forall₂ {α : Type} {src : Source} {xs xs' : List α}
    (h : List.Forall₂ (Alike src) xs xs') : Alike src xs xs' := by
  intro hclear
  induction h with
  | nil => rfl
  | cons hx _ ih => rw [hx hclear, ih]

namespace Tracks

variable {α β : Type} {src : Source} {act act' : Reading α} {i : Nat} {P P' : α → α → Nat → Prop}
  {Q : β → β → Nat → Prop}

theorem pure {a a' : α} (h : P a a' i) : Tracks src (Pure.pure a) (Pure.pure a') i P :=
  fun hi => .inl ⟨a, a', i, rfl, rfl, hi, h⟩

theorem bind {f f' : α → Reading β} (h : Tracks src act act' i P)
    (hf : ∀ a a' j, P a a' j → Tracks src (f a) (f' a') j Q) :
    Tracks src (act >>= f) (act' >>= f') i Q := by
  intro hi
  obtain ⟨a, a', j, ha, ha', hj, hP⟩ | ⟨e, he, he'⟩ := h hi
  · rw [bind_of_ok ha, bind_of_ok ha']
    exact hf a a' j hP hj
  · refine .inr ⟨e, ?_, ?_⟩
    · rw [bind_apply, he]
    · rw [bind_apply, he']

theorem mono (h : Tracks src act act' i P) (himp : ∀ a a' j, P a a' j → P' a a' j) :
    Tracks src act act' i P' := by
  intro hi
  obtain ⟨a, a', j, ha, ha', hj, hP⟩ | herror := h hi
  · exact .inl ⟨a, a', j, ha, ha', hj, himp a a' j hP⟩
  · exact .inr herror

theorem inContext (label : String) (h : Tracks src act act' i P) :
    Tracks src (FunRiscv.inContext label act) (FunRiscv.inContext label act') i P := by
  intro hi
  rw [inContext_apply, inContext_apply]
  obtain ⟨a, a', j, ha, ha', hj, hP⟩ | ⟨e, he, he'⟩ := h hi
  · exact .inl ⟨a, a', j, by rw [ha], by rw [ha'], hj, hP⟩
  · exact .inr ⟨e.within label, by rw [he], by rw [he']⟩

theorem map {f : α → β} (h : Tracks src act act' i fun a a' j => Q (f a) (f a') j) :
    Tracks src (f <$> act) (f <$> act') i Q := by
  rw [map_eq_bind, map_eq_bind]
  exact h.bind fun a a' j ha => Tracks.pure ha

theorem failWith (c : ReadCause) : Tracks src (FunRiscv.failWith c) (FunRiscv.failWith c) i P :=
  fun _ => .inr ⟨_, rfl, rfl⟩

theorem ite {c : Prop} [Decidable c] {other other' : Reading α} (h : c → Tracks src act act' i P)
    (h' : ¬ c → Tracks src other other' i P) :
    Tracks src (if c then act else other) (if c then act' else other') i P := by
  split
  · rename_i hc; exact h hc
  · rename_i hc; exact h' hc

theorem set {j : Nat} {P : PUnit → PUnit → Nat → Prop} (hj : src.Clear j) (h : P ⟨⟩ ⟨⟩ j) :
    Tracks src (MonadState.set j : Reading PUnit) (MonadState.set j : Reading PUnit) i P :=
  fun _ => .inl ⟨⟨⟩, ⟨⟩, j, rfl, rfl, hj, h⟩

/-- The start may be taken to be in the code. -/
theorem of_clear (h : src.Clear i → Tracks src act act' i P) : Tracks src act act' i P :=
  fun hi => h hi hi

end Tracks

/-! ### Tokens -/

section

variable {α : Type} {src : Source} {i : Nat} {P : α → α → Nat → Prop}

theorem tracks_get : Tracks src get get i fun k k' j => i = k ∧ i = k' ∧ i = j :=
  fun hi => .inl ⟨i, i, i, rfl, rfl, hi, rfl, rfl, rfl⟩

theorem tracks_tokenStart : Tracks src (tokenStart src) (tokenStart src.blanked) i fun s s' j =>
    s = s' ∧ i = j ∧ src.Fixed s ∧ s = src.trivia i := by
  intro hi
  refine .inl ⟨_, _, i, tokenStart_apply hi.1, tokenStart_apply hi.le_blanked, hi, ?_⟩
  rw [hi.trivia_blanked]
  exact ⟨rfl, rfl, hi.trivia, rfl⟩

theorem tracks_locationFrom (start : Nat) :
    Tracks src (locationFrom src start) (locationFrom src.blanked start) i fun l l' j =>
    l = l' ∧ i = j := fun hi => .inl ⟨_, _, i, rfl, rfl, hi, by rw [src.locate_blanked], rfl⟩

/-- A location is all that is left to find. -/
theorem Tracks.located {start : Nat} {f f' : Location → α} (h : ∀ l, P (f l) (f' l) i) :
    Tracks src (locationFrom src start >>= fun l => Pure.pure (f l))
      (locationFrom src.blanked start >>= fun l => Pure.pure (f' l)) i P := by
  refine (tracks_locationFrom start).bind ?_
  rintro l _ _ ⟨rfl, rfl⟩
  exact Tracks.pure (h l)

theorem tracks_unexpectedAt {k : Nat} (want : String) (hk : src.Clear k) :
    Tracks src (unexpectedAt src k want) (unexpectedAt src.blanked k want) i P := by
  have hsame : unexpectedAt src.blanked k want = (unexpectedAt src k want : Reading α) := by
    rw [unexpectedAt_eq hk.1, unexpectedAt_eq hk.le_blanked, hk.trivia_blanked, src.locate_blanked,
      hk.trivia.found_blanked]
  rw [hsame, unexpectedAt_eq hk.1]
  exact Tracks.failWith _

theorem tracks_unexpected (want : String) :
    Tracks src (unexpected src want) (unexpected src.blanked want) i P := by
  refine Tracks.of_clear fun hi => tracks_get.bind ?_
  rintro _ _ _ ⟨rfl, rfl, rfl⟩
  exact tracks_unexpectedAt want hi

/-- A punctuation token ends at a position. -/
def EndsWith (src : Source) (t : Punct) (j : Nat) : Prop :=
  ∃ k, src.Fixed k ∧ src.startsWith k t.bytes = true ∧ j = k + t.bytes.length

theorem EndsWith.le {t : Punct} {j : Nat} (h : EndsWith src t j) : j ≤ src.size := by
  obtain ⟨k, hk, hstarts, rfl⟩ := h
  exact src.startsWith_le hstarts hk.1.1

theorem tracks_punct (t : Punct) : Tracks src (punct src t) (punct src.blanked t) i fun b b' j =>
    b = b' ∧ if b then EndsWith src t j ∧ src.punct? i = some (t, j) else
      i = j ∧ ∀ k, src.punct? i ≠ some (t, k) := by
  refine Tracks.of_clear fun hi => tracks_get.bind ?_
  rintro _ _ _ ⟨rfl, rfl, rfl⟩
  rw [src.punctAfter?_eq hi.1, src.blanked.punctAfter?_eq hi.le_blanked, hi.punct?_blanked,
    look_pure, pure_bind]
  cases hpunct : src.punct? i with
  | none => exact Tracks.pure ⟨rfl, rfl, by simp⟩
  | some r =>
    obtain ⟨u, j⟩ := r
    refine Tracks.ite (fun heq => ?_) fun hne => Tracks.pure ⟨rfl, rfl, ?_⟩
    · subst heq
      have hends : EndsWith src u j := by
        simp only [Source.punct?, Option.map_eq_some_iff, Prod.mk.injEq] at hpunct
        obtain ⟨v, hv, rfl, rfl⟩ := hpunct
        have hstarts := List.find?_some hv
        exact ⟨_, hi.trivia, hstarts, rfl⟩
      refine (Tracks.set (P := fun _ _ k => j = k) (hi.punct? hpunct) rfl).bind ?_
      rintro _ _ _ rfl
      exact Tracks.pure ⟨rfl, hends, rfl⟩
    · intro k hk
      simp only [Option.some.injEq, Prod.mk.injEq] at hk
      exact hne hk.1

theorem Tracks.punct_ite {t : Punct} {yes no yes' no' : Reading α}
    (hyes : ∀ j, EndsWith src t j → Tracks src yes yes' j P)
    (hno : (∀ k, src.punct? i ≠ some (t, k)) → Tracks src no no' i P) :
    Tracks src (punct src t >>= fun b => if b = true then yes else no)
      (punct src.blanked t >>= fun b => if b = true then yes' else no') i P := by
  refine (tracks_punct t).bind ?_
  rintro b _ j ⟨rfl, hb⟩
  cases b with
  | true => exact hyes j hb.1
  | false =>
    obtain ⟨rfl, hne⟩ := hb
    exact hno hne

theorem tracks_expect (t : Punct) :
    Tracks src (expect src t) (expect src.blanked t) i fun _ _ j => EndsWith src t j :=
  Tracks.punct_ite (fun _ hj => Tracks.pure hj) fun _ => tracks_unexpected _

theorem Tracks.nextIs_ite {t : Punct} {yes no yes' no' : Reading α} (hyes : Tracks src yes yes' i P)
    (hno : Tracks src no no' i P) :
    Tracks src (nextIs src t >>= fun b => if b = true then yes else no)
      (nextIs src.blanked t >>= fun b => if b = true then yes' else no') i P := by
  have hpeek : Tracks src (nextIs src t) (nextIs src.blanked t) i fun b b' j => b = b' ∧ i = j := by
    intro hi
    refine .inl ⟨_, _, i, nextIs_apply hi.1 t, nextIs_apply hi.le_blanked t, hi, ?_, rfl⟩
    rw [hi.punct?_blanked]
  refine hpeek.bind ?_
  rintro b _ _ ⟨rfl, rfl⟩
  exact Tracks.ite (fun _ => hyes) fun _ => hno

theorem tracks_keyword (kw : String) :
    Tracks src (keyword src kw) (keyword src.blanked kw) i fun b b' j =>
    b = b' ∧ (b = false → i = j) := by
  refine Tracks.of_clear fun hi => tracks_get.bind ?_
  rintro _ _ _ ⟨rfl, rfl, rfl⟩
  rw [src.keywordAfter?_eq hi.1, src.blanked.keywordAfter?_eq hi.le_blanked, hi.keyword?_blanked,
    look_pure, pure_bind]
  cases hkw : src.keyword? i kw with
  | none => exact Tracks.pure ⟨rfl, fun _ => rfl⟩
  | some j =>
    refine (Tracks.set (P := fun _ _ k => j = k) (hi.keyword? hkw) rfl).bind ?_
    rintro _ _ _ rfl
    exact Tracks.pure ⟨rfl, by simp⟩

theorem Tracks.keyword_ite {kw : String} {yes no yes' no' : Reading α}
    (hyes : ∀ j, Tracks src yes yes' j P) (hno : Tracks src no no' i P) :
    Tracks src (keyword src kw >>= fun b => if b = true then yes else no)
      (keyword src.blanked kw >>= fun b => if b = true then yes' else no') i P := by
  refine (tracks_keyword kw).bind ?_
  rintro b _ j ⟨rfl, hb⟩
  cases b with
  | true => exact hyes j
  | false =>
    obtain rfl := hb rfl
    exact hno

theorem Tracks.nextIsKeyword_ite {kw : String} {yes no yes' no' : Reading α}
    (hyes : Tracks src yes yes' i P) (hno : Tracks src no no' i P) :
    Tracks src (nextIsKeyword src kw >>= fun b => if b = true then yes else no)
      (nextIsKeyword src.blanked kw >>= fun b => if b = true then yes' else no') i P := by
  have hpeek : Tracks src (nextIsKeyword src kw) (nextIsKeyword src.blanked kw) i fun b b' j =>
    b = b' ∧ i = j := by
    intro hi
    refine .inl ⟨_, _, i, nextIsKeyword_apply hi.1 kw, nextIsKeyword_apply hi.le_blanked kw,
      hi, ?_, rfl⟩
    rw [hi.keyword?_blanked]
  refine hpeek.bind ?_
  rintro b _ _ ⟨rfl, rfl⟩
  exact Tracks.ite (fun _ => hyes) fun _ => hno

theorem tracks_name : TracksSame src (name src) (name src.blanked) i := by
  refine Tracks.of_clear fun hi => tracks_get.bind ?_
  rintro _ _ _ ⟨rfl, rfl, rfl⟩
  rw [src.nameAfter?_eq hi.1, src.blanked.nameAfter?_eq hi.le_blanked, hi.name?_blanked, look_pure,
    pure_bind, pure_bind]
  cases hname : src.name? i with
  | none => exact tracks_unexpected _
  | some r => exact (Tracks.set (P := fun _ _ _ => True) (hi.name? hname)
    trivial).bind fun _ _ _ _ => Tracks.pure rfl

theorem tracks_closeAngle :
    Tracks src (closeAngle src) (closeAngle src.blanked) i fun _ _ _ => True := by
  refine tracks_tokenStart.bind ?_
  rintro s _ _ ⟨rfl, rfl, hs, -⟩
  rw [src.holdsAt_eq, src.blanked.holdsAt_eq, hs.byte?, Source.any_beq, look_pure,
    pure_bind, pure_bind]
  refine Tracks.ite (fun hbyte => ?_) fun _ => tracks_unexpected _
  exact Tracks.set (hs.succ (beq_iff_eq.1 hbyte) (by decide)) trivial

/-! ### Repetition -/

variable {item item' : Reading α} {R : α → α → Prop} {fuel : Nat}

theorem tracks_commaList (hitem : ∀ j, Tracks src item item' j fun a a' _ => R a a') :
    Tracks src (commaList src item fuel) (commaList src.blanked item' fuel) i fun xs xs' _ =>
      List.Forall₂ R xs xs' := by
  induction fuel generalizing i with
  | zero => exact Tracks.failWith _
  | succ fuel ih =>
    refine (hitem i).bind fun x x' j hx =>
      Tracks.punct_ite (fun k _ => ?_) fun _ => Tracks.pure (.cons hx .nil)
    exact ih.bind fun xs xs' l hxs => Tracks.pure (.cons hx hxs)

theorem tracks_closedList {close : Punct}
    (hitem : ∀ j, Tracks src item item' j fun a a' _ => R a a') :
    Tracks src (closedList src item close fuel) (closedList src.blanked item' close fuel) i
      fun xs xs' j =>
      List.Forall₂ R xs xs' ∧ EndsWith src close j := by
  induction fuel generalizing i with
  | zero => exact Tracks.failWith _
  | succ fuel ih =>
    refine Tracks.punct_ite (fun j hj => Tracks.pure ⟨.nil, hj⟩) fun _ => ?_
    refine (hitem i).bind fun x x' j hx => Tracks.punct_ite (fun k _ => ?_) fun _ => ?_
    · exact ih.bind fun xs xs' l hxs => Tracks.pure ⟨.cons hx hxs.1, hxs.2⟩
    · exact (tracks_expect close).bind fun _ _ l hl => Tracks.pure ⟨.cons hx .nil, hl⟩

theorem tracks_manyUntil {close : Punct}
    (hitem : ∀ j, Tracks src item item' j fun a a' _ => R a a') :
    Tracks src (manyUntil src item close fuel) (manyUntil src.blanked item' close fuel) i
      fun xs xs' _ =>
      List.Forall₂ R xs xs' := by
  induction fuel generalizing i with
  | zero => exact Tracks.failWith _
  | succ fuel ih =>
    refine Tracks.punct_ite (fun j hj => Tracks.pure .nil) fun _ => ?_
    exact (hitem i).bind fun x x' j hx => ih.bind fun xs xs' k hxs => Tracks.pure (.cons hx hxs)

end

end Reading

end FunRiscv
