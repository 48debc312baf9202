import Mathlib
import FunRiscv.Proofs.Surface.Lookups

/-!
# What reading actions do

* `Reading.Ensures`: whatever an action reads has a property.
* `Reading.Reads`: before which bytes an action starts and ends, and what it reads. An action may
  fail only where what was written is not `good`.

Both are closed under the ways in which actions are put together.
-/

namespace FunRiscv.Reading

variable {α β : Type}

/-! ### Single steps -/

theorem bind_apply (act : Reading α) (f : α → Reading β) (i : Nat) :
    (act >>= f) i = match act i with
      | .ok (a, j) => f a j
      | .error e => .error e := by
  show (act i >>= fun r => f r.1 r.2) = _
  cases act i with
  | error e => rfl
  | ok r => rfl

theorem bind_of_ok {act : Reading α} {a : α} {i j : Nat} (h : act i = .ok (a, j))
    (f : α → Reading β) : (act >>= f) i = f a j := by
  rw [bind_apply, h]

theorem pure_apply (a : α) (i : Nat) : (pure a : Reading α) i = .ok (a, i) := rfl

theorem get_apply (i : Nat) : (get : Reading Nat) i = .ok (i, i) := rfl

theorem set_apply (j i : Nat) : (set j : Reading PUnit) i = .ok (⟨⟩, j) := rfl

theorem failWith_apply (c : ReadCause) (i : Nat) :
    (failWith c : Reading α) i = .error (Traced.ofCause c) := rfl

theorem inContext_apply (label : String) (act : Reading α) (i : Nat) :
    inContext label act i = match act i with
      | .ok r => .ok r
      | .error e => .error (e.within label) := by
  show tryCatch (act i) _ = _
  cases act i with
  | error e => rfl
  | ok r => rfl

theorem map_eq_bind (f : α → β) (act : Reading α) : f <$> act = act >>= fun a => pure (f a) :=
  (bind_pure_comp f act).symm

/-- Nothing comes after an error. -/
theorem unexpected_bind (src : Source) (want : String) (f : α → Reading β) :
    (unexpected src want >>= f) = unexpected src want := by
  simp only [unexpected, unexpectedAt, bind_assoc]
  exact bind_congr fun i => bind_congr fun j => bind_congr fun found => rfl

/-! ### Tokens from inside the text -/

section

variable {src : Source} {i : Nat}

theorem tokenStart_apply (h : i ≤ src.size) : tokenStart src i = .ok (src.trivia i, i) := by
  rw [tokenStart, bind_of_ok (get_apply i), src.skip_eq h]
  rfl

theorem punct_apply (h : i ≤ src.size) (t : Punct) :
    punct src t i = (match src.punct? i with
      | some (u, j) => if u = t then do set j; return true else return false
      | none => return false : Reading Bool) i := by
  rw [punct, bind_of_ok (get_apply i), src.punctAfter?_eq h, look_pure]
  exact congrFun (pure_bind _ _) i

theorem nextIs_apply (h : i ≤ src.size) (t : Punct) :
    nextIs src t i = .ok ((src.punct? i).any fun u => u.1 = t, i) := by
  rw [nextIs, bind_of_ok (get_apply i), src.punctAfter?_eq h, look_pure, pure_bind]
  rfl

theorem keyword_apply (h : i ≤ src.size) (kw : String) :
    keyword src kw i = (match src.keyword? i kw with
      | some j => do set j; return true
      | none => return false : Reading Bool) i := by
  rw [keyword, bind_of_ok (get_apply i), src.keywordAfter?_eq h, look_pure]
  exact congrFun (pure_bind _ _) i

theorem nextIsKeyword_apply (h : i ≤ src.size) (kw : String) :
    nextIsKeyword src kw i = .ok ((src.keyword? i kw).isSome, i) := by
  rw [nextIsKeyword, bind_of_ok (get_apply i), src.keywordAfter?_eq h, look_pure, pure_bind]
  rfl

theorem name_apply (h : i ≤ src.size) :
    name src i = (match src.name? i with
      | some (n, j) => do set j; return n
      | none => unexpected src "name") i := by
  rw [name, bind_of_ok (get_apply i), src.nameAfter?_eq h, look_pure]
  exact congrFun (pure_bind _ _) i

end

/-! ### Properties of what is read -/

/-- Whatever the action reads has the property. -/
def Ensures (act : Reading α) (P : α → Prop) : Prop := ∀ i a j, act i = .ok (a, j) → P a

namespace Ensures

variable {act : Reading α} {P : α → Prop} {Q : β → Prop}

theorem pure {a : α} (h : P a) : Ensures (Pure.pure a) P := by
  intro i b j hb
  rw [pure_apply] at hb
  simp only [Except.ok.injEq, Prod.mk.injEq] at hb
  exact hb.1 ▸ h

theorem bind {f : α → Reading β} (h : Ensures act P) (hf : ∀ a, P a → Ensures (f a) Q) :
    Ensures (act >>= f) Q := by
  intro i b k hb
  rw [bind_apply] at hb
  cases hact : act i with
  | error e => rw [hact] at hb; exact absurd hb (by simp)
  | ok r =>
    obtain ⟨a, j⟩ := r
    rw [hact] at hb
    exact hf a (h i a j hact) j b k hb

/-- What is read first says nothing. -/
theorem seq {f : α → Reading β} (hf : ∀ a, Ensures (f a) Q) : Ensures (act >>= f) Q := by
  have htrue : Ensures act fun _ => True := fun _ _ _ _ => trivial
  exact htrue.bind fun a _ => hf a

theorem mono {P' : α → Prop} (h : Ensures act P) (himp : ∀ a, P a → P' a) : Ensures act P' :=
  fun i a j ha => himp a (h i a j ha)

theorem map {f : α → β} (h : Ensures act fun a => Q (f a)) : Ensures (f <$> act) Q := by
  rw [map_eq_bind]
  exact h.bind fun a ha => Ensures.pure ha

theorem failWith (c : ReadCause) : Ensures (FunRiscv.failWith c : Reading α) P := by
  intro i a j h
  rw [failWith_apply] at h
  exact absurd h (by simp)

theorem look {x : Look α} (h : ∀ a, x = .ok a → P a) : Ensures (Reading.look x) P := by
  cases x with
  | error access => exact Ensures.failWith _
  | ok a => exact Ensures.pure (h a rfl)

theorem inContext (label : String) (h : Ensures act P) :
    Ensures (FunRiscv.inContext label act) P := by
  intro i a j ha
  rw [inContext_apply] at ha
  cases hact : act i with
  | error e => rw [hact] at ha; exact absurd ha (by simp)
  | ok r =>
    rw [hact] at ha
    simp only [Except.ok.injEq] at ha
    exact h i a j (ha ▸ hact)

theorem ite {c : Prop} [Decidable c] {act' : Reading α} (h : c → Ensures act P)
    (h' : ¬ c → Ensures act' P) : Ensures (if c then act else act') P := by
  split
  · rename_i hc; exact h hc
  · rename_i hc; exact h' hc

end Ensures

/-! ### What is read from given bytes -/

/-- From before the bytes `bs` on, the action ends before the bytes `tail` with something that has
the property, or it fails and what is written is not good. -/
def Reads (src : Source) (act : Reading α) (bs tail : List UInt8) (good : Prop) (P : α → Prop) :
    Prop :=
  ∀ i, src.At i bs → (∃ a j, act i = .ok (a, j) ∧ src.At j tail ∧ P a) ∨
    (∃ e, act i = .error e) ∧ ¬ good

namespace Reads

variable {src : Source} {act : Reading α} {bs mid tail : List UInt8} {good good' : Prop}
  {P P' : α → Prop} {Q : β → Prop}

theorem pure {a : α} (h : P a) : Reads src (Pure.pure a) bs bs good P :=
  fun i hi => .inl ⟨a, i, rfl, hi, h⟩

theorem bind {f : α → Reading β} (h : Reads src act bs mid good P)
    (hf : ∀ a, P a → Reads src (f a) mid tail good Q) : Reads src (act >>= f) bs tail good Q := by
  intro i hi
  obtain ⟨a, j, ha, hj, hP⟩ | ⟨⟨e, he⟩, hgood⟩ := h i hi
  · rw [bind_of_ok ha]
    exact hf a hP j hj
  · refine .inr ⟨⟨e, ?_⟩, hgood⟩
    rw [bind_apply, he]

theorem mono (h : Reads src act bs tail good P) (hgood : good' → good) (hP : ∀ a, P a → P' a) :
    Reads src act bs tail good' P' := by
  intro i hi
  obtain ⟨a, j, ha, hj, hPa⟩ | ⟨he, hg⟩ := h i hi
  · exact .inl ⟨a, j, ha, hj, hP a hPa⟩
  · exact .inr ⟨he, fun hg' => hg (hgood hg')⟩

theorem inContext (label : String) (h : Reads src act bs tail good P) :
    Reads src (FunRiscv.inContext label act) bs tail good P := by
  intro i hi
  rw [inContext_apply]
  obtain ⟨a, j, ha, hj, hP⟩ | ⟨⟨e, he⟩, hgood⟩ := h i hi
  · exact .inl ⟨a, j, by rw [ha], hj, hP⟩
  · exact .inr ⟨⟨e.within label, by rw [he]⟩, hgood⟩

theorem map {f : α → β} (h : Reads src act bs tail good fun a => Q (f a)) :
    Reads src (f <$> act) bs tail good Q := by
  rw [map_eq_bind]
  exact h.bind fun a ha => Reads.pure ha

theorem failWith (c : ReadCause) (h : ¬ good) :
    Reads src (FunRiscv.failWith c : Reading α) bs tail good P :=
  fun i _ => .inr ⟨⟨_, failWith_apply c i⟩, h⟩

/-- The bytes in question may be taken to stand in the source. -/
theorem of_suffix (h : bs <:+ src.bytes.toList → Reads src act bs tail good P) :
    Reads src act bs tail good P :=
  fun i hi => h hi.suffix i hi

theorem of_length (h : bs.length ≤ src.size → Reads src act bs tail good P) :
    Reads src act bs tail good P := by
  refine of_suffix fun hsuffix => h ?_
  simpa [Source.size] using hsuffix.length_le

end Reads

end FunRiscv.Reading
