import Mathlib
import FunRiscv.Proofs.Surface.Tokens

/-!
# Reading sequences

* `commaJoin`: items with a comma and a blank between them.
* `Spread`: items with blanks around them.
* `ReadsItem`: an item is read from what is written for it, wherever that stands.
* `reads_commaList`, `reads_closedList`, `reads_manyUntil`: then so are sequences of items.
-/

namespace FunRiscv

/-- The items with a comma and a blank between them. -/
def commaJoin : List (List UInt8) → List UInt8
  | [] => []
  | [x] => x
  | x :: y :: rest => x ++ 0x2c :: 0x20 :: commaJoin (y :: rest)

/-- What follows an item: the other ones after a comma, or what follows them all. -/
def After : List (List UInt8) → List UInt8 → List UInt8
  | [], tail => tail
  | x :: rest, tail => 0x2c :: 0x20 :: (commaJoin (x :: rest) ++ tail)

theorem commaJoin_cons_append (x : List UInt8) (rest : List (List UInt8)) (tail : List UInt8) :
    commaJoin (x :: rest) ++ tail = x ++ After rest tail := by
  cases rest with
  | nil => rfl
  | cons y ys => simp [commaJoin, After]

theorem after_of_forall {follow : List UInt8 → Prop} {tail : List UInt8}
    (hcomma : ∀ r, follow (0x2c :: r)) (htail : follow tail) (rest : List (List UInt8)) :
    follow (After rest tail) := by
  cases rest with
  | nil => exact htail
  | cons x rest => exact hcomma _

/-- The bytes are those of the items, with blanks around them. -/
inductive Spread {α : Type} (print : α → List UInt8) : List α → List UInt8 → Prop
  | nil {bl : List UInt8} (hbl : AllBlank bl) : Spread print [] bl
  | cons {bl bs : List UInt8} {x : α} {xs : List α} (hbl : AllBlank bl) (h : Spread print xs bs) :
      Spread print (x :: xs) (bl ++ (print x ++ bs))

theorem map_eq_of_forall₂ {α β : Type} {view : α → β} {xs ys : List α}
    (h : List.Forall₂ (fun x y => view y = view x) xs ys) : ys.map view = xs.map view := by
  induction h with
  | nil => rfl
  | cons hx _ ih => rw [List.map_cons, List.map_cons, hx, ih]

/-- Two lists look the same if each item looks like its counterpart exactly when it is good,
and all are good. -/
theorem map_eq_iff_of_forall₂ {α β : Type} {view : α → β} {good : α → Prop} {xs ys : List α}
    (h : List.Forall₂ (fun x y => view y = view x ↔ good x) xs ys) :
    ys.map view = xs.map view ↔ ∀ x ∈ xs, good x := by
  induction h with
  | nil => simp
  | cons hx _ ih => simp [hx, ih]

namespace Reading

/-- Before at most `bound` bytes, an item is read from blanks and what is written for it, if what
comes after it is as `follow` says. -/
def ReadsItem {α β : Type} (src : Source) (item : Reading β) (print : α → List UInt8)
    (follow : List UInt8 → Prop) (bound : Nat) (good : Prop) (fits : α → β → Prop) (x : α) : Prop :=
  ∀ bl tail, AllBlank bl → follow tail → (bl ++ (print x ++ tail)).length < bound →
    Reads src item (bl ++ (print x ++ tail)) tail good (fits x)

section

variable {α β : Type} {src : Source} {item : Reading β} {print : α → List UInt8}
  {follow : List UInt8 → Prop} {bound : Nat} {good : Prop} {fits : α → β → Prop}

theorem reads_commaList {tail : List UInt8} {xs : List α} {bl : List UInt8} {fuel : Nat}
    (hitems : ∀ x ∈ xs, ReadsItem src item print follow bound good fits x)
    (hcomma : ∀ r, follow (0x2c :: r)) (htail : follow tail) (hsolid : solid (skipped tail) = true)
    (hnext : nextPunct tail ≠ some .comma) (hne : xs ≠ []) (hbl : AllBlank bl)
    (hbound : (bl ++ (commaJoin (xs.map print) ++ tail)).length < bound)
    (hfuel : (bl ++ (commaJoin (xs.map print) ++ tail)).length < fuel) :
    Reads src (commaList src item fuel) (bl ++ (commaJoin (xs.map print) ++ tail)) tail good
      (List.Forall₂ fits xs) := by
  induction xs generalizing bl fuel with
  | nil => exact absurd rfl hne
  | cons x rest ih =>
    obtain ⟨fuel, rfl⟩ : ∃ n, fuel = n + 1 := ⟨fuel - 1, by omega⟩
    rw [List.map_cons, commaJoin_cons_append] at hbound hfuel ⊢
    have hfollow := after_of_forall hcomma htail (rest.map print)
    refine (hitems x (by simp) bl _ hbl hfollow hbound).bind fun a ha => ?_
    cases rest with
    | nil => exact Reads.punct_else hsolid hnext (Reads.pure (.cons ha .nil))
    | cons y ys =>
      refine Reads.punct_then ⟨rfl, rfl, rfl⟩ ?_
      have hshorter : ([0x20] ++ (commaJoin ((y :: ys).map print) ++ tail)).length + 1 ≤
          (bl ++ (print x ++ After ((y :: ys).map print) tail)).length := by simp [After]; omega
      refine (ih (fun z hz => hitems z (by simp [hz])) (by simp) allBlank_blank (by omega)
        (by omega)).bind fun as has => ?_
      exact Reads.pure (.cons ha has)

theorem reads_closedList {close : Punct} {closing tail : List UInt8} {xs : List α} {bl : List UInt8}
    {fuel : Nat} (hitems : ∀ x ∈ xs, ReadsItem src item print follow bound good fits x)
    (hstarts : ∀ x ∈ xs, Starts (print x)) (hcomma : ∀ r, follow (0x2c :: r))
    (hclosing : follow closing) (hclose : Next close closing tail) (hne : close ≠ .comma)
    (hfirst : close.bytes.head?.any isStart = false) (hbl : AllBlank bl)
    (hbound : (bl ++ (commaJoin (xs.map print) ++ closing)).length < bound)
    (hfuel : (bl ++ (commaJoin (xs.map print) ++ closing)).length < fuel) :
    Reads src (closedList src item close fuel) (bl ++ (commaJoin (xs.map print) ++ closing))
      tail good (List.Forall₂ fits xs) := by
  induction xs generalizing bl fuel with
  | nil =>
    obtain ⟨fuel, rfl⟩ : ∃ n, fuel = n + 1 := ⟨fuel - 1, by omega⟩
    exact Reads.punct_then (hclose.append hbl) (Reads.pure .nil)
  | cons x rest ih =>
    obtain ⟨fuel, rfl⟩ : ∃ n, fuel = n + 1 := ⟨fuel - 1, by omega⟩
    rw [List.map_cons, commaJoin_cons_append] at hbound hfuel ⊢
    have hfollow := after_of_forall hcomma hclosing (rest.map print)
    have hx := (hstarts x (by simp)).append (After (rest.map print) closing)
    refine Reads.punct_else (hx.solid_skipped hbl) (hx.nextPunct_ne hbl hfirst) ?_
    refine (hitems x (by simp) bl _ hbl hfollow hbound).bind fun a ha => ?_
    cases rest with
    | nil =>
      have hcommaNot : nextPunct closing ≠ some .comma := by
        rw [hclose.2.1]
        simpa using hne
      refine Reads.punct_else hclose.1 hcommaNot ?_
      exact (reads_expect hclose).bind fun _ _ => Reads.pure (.cons ha .nil)
    | cons y ys =>
      refine Reads.punct_then ⟨rfl, rfl, rfl⟩ ?_
      have hshorter : ([0x20] ++ (commaJoin ((y :: ys).map print) ++ closing)).length + 1 ≤
          (bl ++ (print x ++ After ((y :: ys).map print) closing)).length := by simp [After]; omega
      refine (ih (fun z hz => hitems z (by simp [hz])) (fun z hz => hstarts z (by simp [hz]))
        allBlank_blank (by omega) (by omega)).bind fun as has => ?_
      exact Reads.pure (.cons ha has)

/-- A list in which a comma follows every item, the last one too. -/
theorem reads_closedList_of_spread {close : Punct} {closing tail : List UInt8} {xs : List α}
    {bs bl : List UInt8} {fuel : Nat} (h : Spread (fun x => print x ++ [0x2c]) xs bs)
    (hitems : ∀ x ∈ xs, ReadsItem src item print follow bound good fits x)
    (hstarts : ∀ x ∈ xs, Starts (print x)) (hcomma : ∀ r, follow (0x2c :: r))
    (hclose : Next close closing tail)
    (hfirst : close.bytes.head?.any isStart = false) (hbl : AllBlank bl)
    (hbound : (bl ++ (bs ++ closing)).length < bound)
    (hfuel : (bl ++ (bs ++ closing)).length < fuel) :
    Reads src (closedList src item close fuel) (bl ++ (bs ++ closing)) tail good
      (List.Forall₂ fits xs) := by
  induction h generalizing bl fuel with
  | nil hbl' =>
    obtain ⟨fuel, rfl⟩ : ∃ n, fuel = n + 1 := ⟨fuel - 1, by omega⟩
    exact Reads.punct_then ((hclose.append hbl').append hbl) (Reads.pure .nil)
  | @cons bl' bs x xs hbl' _ ih =>
    obtain ⟨fuel, rfl⟩ : ∃ n, fuel = n + 1 := ⟨fuel - 1, by omega⟩
    have hassoc : bl ++ (bl' ++ (print x ++ [0x2c] ++ bs) ++ closing) =
        (bl ++ bl') ++ (print x ++ 0x2c :: (bs ++ closing)) := by simp
    rw [hassoc] at hbound hfuel ⊢
    have hblanks := hbl.append hbl'
    have hx := (hstarts x (by simp)).append (0x2c :: (bs ++ closing))
    have hshorter : ([] ++ (bs ++ closing)).length + 1 ≤
        ((bl ++ bl') ++ (print x ++ 0x2c :: (bs ++ closing))).length := by simp; omega
    refine Reads.punct_else (hx.solid_skipped hblanks) (hx.nextPunct_ne hblanks hfirst) ?_
    refine (hitems x (by simp) _ _ hblanks (hcomma _) hbound).bind fun a ha =>
      Reads.punct_then ⟨rfl, rfl, rfl⟩ ?_
    refine (ih (fun z hz => hitems z (by simp [hz])) (fun z hz => hstarts z (by simp [hz]))
      allBlank_nil (by omega) (by omega)).bind fun as has => ?_
    exact Reads.pure (.cons ha has)

theorem reads_manyUntil {close : Punct} {closing tail : List UInt8} {xs : List α}
    {bs bl : List UInt8} {fuel : Nat} (h : Spread print xs bs)
    (hitems : ∀ x ∈ xs, ReadsItem src item print follow bound good fits x)
    (hstarts : ∀ x ∈ xs, Starts (print x)) (hend : ∀ bl, AllBlank bl → follow (bl ++ closing))
    (hnext : ∀ x ∈ xs, ∀ bl r, AllBlank bl → follow (bl ++ (print x ++ r)))
    (hclose : Next close closing tail) (hfirst : close.bytes.head?.any isStart = false)
    (hbl : AllBlank bl) (hbound : (bl ++ (bs ++ closing)).length < bound)
    (hfuel : (bl ++ (bs ++ closing)).length < fuel) :
    Reads src (manyUntil src item close fuel) (bl ++ (bs ++ closing)) tail good
      (List.Forall₂ fits xs) := by
  induction h generalizing bl fuel with
  | nil hbl' =>
    obtain ⟨fuel, rfl⟩ : ∃ n, fuel = n + 1 := ⟨fuel - 1, by omega⟩
    exact Reads.punct_then ((hclose.append hbl').append hbl) (Reads.pure .nil)
  | @cons bl' bs x xs hbl' hspread ih =>
    obtain ⟨fuel, rfl⟩ : ∃ n, fuel = n + 1 := ⟨fuel - 1, by omega⟩
    have hassoc : bl ++ (bl' ++ (print x ++ bs) ++ closing) =
      (bl ++ bl') ++ (print x ++ (bs ++ closing)) := by simp
    rw [hassoc] at hbound hfuel ⊢
    have hx := (hstarts x (by simp)).append (bs ++ closing)
    have hblanks := hbl.append hbl'
    have hfollow : follow (bs ++ closing) := by
      cases hspread with
      | nil hbl'' => exact hend _ hbl''
      | @cons bl'' bs' y ys hbl'' _ =>
        rw [List.append_assoc, List.append_assoc]
        exact hnext y (by simp) bl'' _ hbl''
    have hpos : 0 < (print x).length := List.length_pos_of_ne_nil (hstarts x (by simp)).ne_nil
    have hshorter : ([] ++ (bs ++ closing)).length + 1 ≤
      ((bl ++ bl') ++ (print x ++ (bs ++ closing))).length := by
      simp
      omega
    refine Reads.punct_else (hx.solid_skipped hblanks) (hx.nextPunct_ne hblanks hfirst) ?_
    refine (hitems x (by simp) _ _ hblanks hfollow hbound).bind fun a ha => ?_
    refine (ih (fun z hz => hitems z (by simp [hz])) (fun z hz => hstarts z (by simp [hz]))
      (fun z hz => hnext z (by simp [hz])) allBlank_nil (by omega) (by omega)).bind fun as has => ?_
    exact Reads.pure (.cons ha has)

end

end Reading

end FunRiscv
