import Mathlib
import FunRiscv.Proofs.Ty.Unifier

/-!
# How deeply unification nests

A call of the unifier goes down into the children of its two types, with more and more bindings
followed. Nothing in the types themselves bounds how deep that gets, since bindings make types
larger. The bound comes from counting: whatever is met on the way is, up to bindings, a node of the
types at hand when the call began, and on one way down no node is met twice.

* `Ty.Inside`: one type inside another, at a depth.
* `Subst.Covers`: everything inside the types at hand is one of them, up to bindings.
* `Ty.Inside.lt_length`: on one way down no type is met twice.
* `Unifying.exec_unify_ne_exhausted`: the bound that `Unifying.unify` gives itself is never reached.
-/

namespace FunRiscv

namespace Ty

/-! ### Types inside types -/

/-- The second type stands in the first one at a depth. -/
inductive Inside : Nat → Ty → Ty → Prop where
  | refl (t : Ty) : Inside 0 t t
  | step {d : Nat} {t c u : Ty} : c ∈ t.children → Inside d c u → Inside (d + 1) t u

theorem Inside.child {d : Nat} {t u c : Ty} (h : Inside d t u) (hc : c ∈ u.children) :
    Inside (d + 1) t c := by
  induction h with
  | refl t => exact .step hc (.refl c)
  | step hm _ ih => exact .step hm (ih hc)

theorem size_child {t c : Ty} (h : c ∈ t.children) : c.size < t.size := by
  cases t with
  | word | any | none | var => simp [children] at h
  | named n args | tuple args =>
    have := List.le_sum_of_mem (List.mem_map_of_mem (f := size) h)
    simp only [size, sizeList_eq_sum, children] at this ⊢
    omega
  | func p r =>
    have hcr : c = p ∨ c = r := by simpa [children] using h
    simp only [size]
    rcases hcr with rfl | rfl <;> omega

theorem Inside.size_le {d : Nat} {t u : Ty} (h : Inside d t u) : u.size ≤ t.size := by
  induction h with
  | refl => exact Nat.le_refl _
  | step hc _ ih => exact Nat.le_trans ih (Nat.le_of_lt (size_child hc))

theorem occurs_child {t c : Ty} {v : String} (h : c ∈ t.children) (hv : c.occurs v = true) :
    t.occurs v = true := by
  cases t with
  | word | any | none | var => simp [children] at h
  | named n args | tuple args =>
    simp only [occurs, occursList_eq_any, List.any_eq_true]
    exact ⟨c, h, hv⟩
  | func p r =>
    have hcr : c = p ∨ c = r := by simpa [children] using h
    rcases hcr with rfl | rfl <;> simp [occurs, hv]

theorem Inside.occurs {d : Nat} {t u : Ty} (h : Inside d t u) {v : String}
    (hv : u.occurs v = true) : t.occurs v = true := by
  induction h with
  | refl => exact hv
  | step hc _ ih => exact occurs_child hc (ih hv)

theorem mem_children_bind {f : String → Ty} {t c : Ty} (h : c ∈ t.children) :
    c.bind f ∈ (t.bind f).children := by
  cases t with
  | word | any | none | var => simp [children] at h
  | named n args | tuple args => simpa [bind, children] using ⟨c, h, rfl⟩
  | func p r =>
    have hcr : c = p ∨ c = r := by simpa [children] using h
    rcases hcr with rfl | rfl <;> simp [bind, children]

/-- Replacing variables keeps what stands inside what. -/
theorem Inside.bind {d : Nat} {t u : Ty} (h : Inside d t u) (f : String → Ty) :
    Inside d (t.bind f) (u.bind f) := by
  induction h with
  | refl => exact .refl _
  | step hc _ ih => exact .step (mem_children_bind hc) ih

theorem children_bind_of_ne_var {f : String → Ty} {t : Ty} (h : ∀ v, t ≠ var v) :
    (t.bind f).children = t.children.map (Ty.bind f) := by
  cases t with
  | word | any | none => rfl
  | var v => exact absurd rfl (h v)
  | named | tuple | func => simp [Ty.bind, children]

/-- Where one variable was replaced, what stands inside was there before or stands
inside the replacement. -/
theorem Inside.of_bind_single {d : Nat} {t u r : Ty} {v : String}
    (h : Inside d (t.bind (single v r)) u) :
    (∃ e w, Inside e t w ∧ u = w.bind (single v r)) ∨ ∃ e, Inside e r u := by
  generalize ht : t.bind (single v r) = t' at h
  induction h generalizing t with
  | refl => exact .inl ⟨0, t, .refl t, ht.symm⟩
  | @step d t' c u hc hcu ih =>
    by_cases hvar : ∃ w, t = var w
    · obtain ⟨w, rfl⟩ := hvar
      by_cases hw : w = v
      · subst hw
        simp only [Ty.bind, single_self] at ht
        exact .inr ⟨d + 1, ht ▸ .step hc hcu⟩
      · simp only [Ty.bind, single_of_ne r hw] at ht
        subst ht
        simp [children] at hc
    · rw [← ht, children_bind_of_ne_var (fun w hw => hvar ⟨w, hw⟩), List.mem_map] at hc
      obtain ⟨c', hc', rfl⟩ := hc
      rcases ih rfl with ⟨e, w, hw, rfl⟩ | hr
      · exact .inl ⟨e + 1, w, .step hc' hw, rfl⟩
      · exact .inr hr

/-- On one way down no type is met twice, so a list of all types inside is longer than the way. -/
theorem Inside.lt_length {d : Nat} {t u : Ty} (h : Inside d t u) {l : List Ty}
    (hl : ∀ e w, Inside e t w → w ∈ l) : d < l.length := by
  induction h generalizing l with
  | refl t => exact List.length_pos_of_mem (hl 0 t (.refl t))
  | @step d t c u hc _ ih =>
    have ht : t ∈ l := hl 0 t (.refl t)
    have hrest : ∀ e w, Inside e c w → w ∈ l.erase t := by
      intro e w hw
      refine (List.mem_erase_of_ne ?_).2 (hl (e + 1) w (.step hc hw))
      rintro rfl
      have := hw.size_le
      have := size_child hc
      omega
    have := ih hrest
    rw [List.length_erase_of_mem ht] at this
    omega

/-! ### The nodes of a type -/

mutual

/-- All types inside a type, as often as they stand there. -/
def nodes : Ty → List Ty
  | named n args => named n args :: nodesList args
  | func p r => func p r :: (p.nodes ++ r.nodes)
  | tuple elems => tuple elems :: nodesList elems
  | word w => [word w]
  | any => [any]
  | none => [none]
  | var v => [var v]

def nodesList : List Ty → List Ty
  | [] => []
  | t :: ts => t.nodes ++ nodesList ts

end

theorem nodesList_eq_flatMap (ts : List Ty) : nodesList ts = ts.flatMap nodes := by
  induction ts with
  | nil => rfl
  | cons t ts ih => simp [nodesList, ih]

theorem nodes_eq (t : Ty) : t.nodes = t :: t.children.flatMap nodes := by
  cases t <;> simp [nodes, nodesList_eq_flatMap, children]

theorem length_nodes (t : Ty) : t.nodes.length = t.size := by
  induction t using Ty.induction with
  | word | any | none | var => rfl
  | named n args ih | tuple args ih =>
    simp only [nodes, nodesList_eq_flatMap, List.length_cons, List.length_flatMap, size,
      sizeList_eq_sum]
    rw [List.map_congr_left ih]
  | func p r ihp ihr => simp only [nodes, List.length_cons, List.length_append, ihp, ihr, size]

theorem mem_nodes_of_inside {d : Nat} {t u : Ty} (h : Inside d t u) : u ∈ t.nodes := by
  induction h with
  | refl t => simp [nodes_eq t]
  | @step d t c u hc _ ih =>
    rw [nodes_eq t]
    exact List.mem_cons_of_mem _ (List.mem_flatMap.2 ⟨c, hc, ih⟩)

theorem inside_of_mem_nodes {t u : Ty} (h : u ∈ t.nodes) : ∃ d, Inside d t u := by
  induction t using Ty.induction with
  | word | any | none | var =>
    obtain rfl : u = _ := by simpa [nodes] using h
    exact ⟨0, .refl _⟩
  | named n args ih | tuple args ih =>
    rw [nodes_eq] at h
    rcases List.mem_cons.1 h with rfl | h
    · exact ⟨0, .refl _⟩
    · obtain ⟨c, hc, hu⟩ := List.mem_flatMap.1 h
      obtain ⟨d, hd⟩ := ih c hc hu
      exact ⟨d + 1, .step hc hd⟩
  | func p r ihp ihr =>
    rw [nodes_eq] at h
    rcases List.mem_cons.1 h with rfl | h
    · exact ⟨0, .refl _⟩
    · obtain ⟨c, hc, hu⟩ := List.mem_flatMap.1 h
      have hcr : c = p ∨ c = r := by simpa [children] using hc
      rcases hcr with rfl | rfl
      · obtain ⟨d, hd⟩ := ihp hu
        exact ⟨d + 1, .step hc hd⟩
      · obtain ⟨d, hd⟩ := ihr hu
        exact ⟨d + 1, .step hc hd⟩

theorem Inside.trans {d e : Nat} {t u w : Ty} (h : Inside d t u) (h' : Inside e u w) :
    Inside (d + e) t w := by
  induction h with
  | refl => simpa using h'
  | step hc _ ih =>
    rw [Nat.add_right_comm]
    exact .step hc (ih h')

end Ty

/-! ### The types at hand -/

namespace Subst

/-- Everything inside the types at hand is one of them, up to bindings. -/
def Covers (l : List Ty) (s : Subst) : Prop :=
  ∀ x ∈ l, ∀ d u, Ty.Inside d (s.apply x) u → ∃ y ∈ l, u = s.apply y

/-- One more binding, to a type at hand, keeps everything covered. -/
theorem Covers.cons {l : List Ty} {s : Subst} (h : Covers l s) (hs : s.Triangular)
    {v : String} {t y : Ty} (hv : s.lookup v = none) (hvt : t.occurs v = false)
    (ht : ∀ w, t.occurs w = true → s.lookup w = none) (hy : y ∈ l) (hty : t = s.apply y) :
    Covers l ((v, t) :: s) := by
  intro x hx d u hu
  rw [hs.apply_cons hv hvt ht] at hu
  rcases hu.of_bind_single with ⟨e, w, hw, rfl⟩ | ⟨e, he⟩
  · obtain ⟨z, hz, rfl⟩ := h x hx e w hw
    exact ⟨z, hz, (hs.apply_cons hv hvt ht z).symm⟩
  · obtain ⟨z, hz, rfl⟩ := h y hy e u (hty ▸ he)
    have hfree : (s.apply z).occurs v = false := by
      by_contra hocc
      have := he.occurs (by simpa using hocc)
      simp [hvt] at this
    exact ⟨z, hz, by rw [hs.apply_cons hv hvt ht, Ty.bind_single_of_not_occurs hfree]⟩

/-- A list that holds all types inside its own and all bound types is covered. -/
theorem Triangular.covers {l : List Ty} (hl : ∀ x ∈ l, ∀ d u, Ty.Inside d x u → u ∈ l) {s : Subst}
    (hs : s.Triangular) (hbound : ∀ p ∈ s, p.2 ∈ l) : Covers l s := by
  induction hs with
  | nil =>
    intro x hx d u hu
    rw [apply_nil] at hu
    exact ⟨u, hl x hx d u hu, (apply_nil u).symm⟩
  | @cons s v t hs hv hvt ht ih =>
    have hcovers := ih fun p hp => hbound p (List.mem_cons_of_mem _ hp)
    exact hcovers.cons hs hv hvt ht (hbound (v, t) List.mem_cons_self) (apply_of_unbound ht).symm

/-- A type is met at a depth below one of the types at hand, up to bindings. -/
def Met (l : List Ty) (s : Subst) (d : Nat) (t : Ty) : Prop :=
  ∃ x ∈ l, Ty.Inside d (s.apply x) (s.apply t)

theorem Met.lt_length {l : List Ty} {s : Subst} {d : Nat} {t : Ty} (h : Met l s d t)
    (hc : Covers l s) : d < l.length := by
  obtain ⟨x, hx, hi⟩ := h
  have := hi.lt_length (l := l.map s.apply) fun e w hw => by
    obtain ⟨y, hy, rfl⟩ := hc x hx e w hw
    exact List.mem_map_of_mem hy
  simpa using this

/-- More bindings leave a type where it was met. -/
theorem Met.of_suffix {l : List Ty} {s s' : Subst} (hs' : s'.Triangular) (hss' : s <:+ s')
    {d : Nat} {t : Ty} (h : Met l s d t) : Met l s' d t := by
  obtain ⟨x, hx, hi⟩ := h
  refine ⟨x, hx, ?_⟩
  rw [← hs'.apply_apply_of_suffix hss' x, ← hs'.apply_apply_of_suffix hss' t,
    apply_eq_bind s' (s.apply x), apply_eq_bind s' (s.apply t)]
  exact hi.bind _

/-- The children of a type that is met are met one step deeper. -/
theorem Met.child {l : List Ty} {s : Subst} (hs : s.Triangular) {d : Nat} {t c : Ty}
    (h : Met l s d t) (hc : c ∈ (s.apply t).children) : Met l s (d + 1) c := by
  obtain ⟨x, hx, hi⟩ := h
  refine ⟨x, hx, ?_⟩
  have hself : s.apply c = c :=
    apply_of_unbound fun w hw => hs.lookup_of_occurs_apply (Ty.occurs_child hc hw)
  rw [hself]
  exact hi.child hc

end Subst

/-! ### The bound on nesting -/

namespace Unifying

/-- A call ends well for the count: everything stays covered and the bound on nesting is not the
reason of a failure. -/
def Bounded (l : List Ty) (r : Except TypeError Unit × Unifier) : Prop :=
  Subst.Covers l r.2.subst ∧ ∀ e, r.1 = .error e → e.cause ≠ .exhausted

theorem bounded_forPairs {l : List Ty} {act : Ty → Ty → Unifying Unit} {d : Nat}
    (hgrows : ∀ a b (u : Unifier), u.Coherent → u.Grows (exec (act a b) u).2)
    (hact : ∀ a b (u : Unifier), u.Coherent → Subst.Covers l u.subst → Subst.Met l u.subst d a →
      Subst.Met l u.subst d b → Bounded l (exec (act a b) u)) :
    ∀ as bs (u : Unifier), u.Coherent → Subst.Covers l u.subst →
      (∀ a ∈ as, Subst.Met l u.subst d a) → (∀ b ∈ bs, Subst.Met l u.subst d b) →
      Bounded l (exec (forPairs act as bs) u)
  | [], _, u, _, hc, _, _ => ⟨hc, fun e he => by simp [forPairs, exec_pure] at he⟩
  | _ :: _, [], u, _, hc, _, _ => ⟨hc, fun e he => by simp [forPairs, exec_pure] at he⟩
  | a :: as, b :: bs, u, h, hc, has, hbs => by
    have hg := hgrows a b u h
    have hab := hact a b u h hc (has a (by simp)) (hbs b (by simp))
    rw [forPairs, exec_bind]
    rcases hr : exec (act a b) u with ⟨_ | _, u'⟩ <;> rw [hr] at hg hab
    · exact ⟨hab.1, fun e he => hab.2 e (by simpa using he)⟩
    · exact bounded_forPairs hgrows hact as bs u' hg.coherent hab.1
        (fun x hx => (has x (by simp [hx])).of_suffix hg.coherent.triangular hg.suffix)
        (fun x hx => (hbs x (by simp [hx])).of_suffix hg.coherent.triangular hg.suffix)

/-- A call on types that are met at a depth nests no deeper than there are types at hand. -/
theorem bounded_unifyWithin {l : List Ty} (fuel d : Nat) (hfuel : l.length ≤ fuel + d) (a b : Ty)
    (u : Unifier) (h : u.Coherent) (hc : Subst.Covers l u.subst) (ha : Subst.Met l u.subst d a)
    (hb : Subst.Met l u.subst d b) : Bounded l (exec (unifyWithin fuel a b) u) := by
  induction fuel generalizing d a b u with
  | zero =>
    have := ha.lt_length hc
    omega
  | succ fuel ih =>
    have ho := exec_unifyWithin fuel a b u
    generalize exec (unifyWithin (fuel + 1) a b) u = r at ho
    cases ho with
    | limited | cyclic | clash => exact ⟨hc, by simp⟩
    | same | dynamic => exact ⟨hc, by simp⟩
    | bound v t hv hab hocc =>
      have hvt := mayBind_of_outcome h hv hab hocc
      have hty : ∃ y ∈ l, t = u.subst.apply y := by
        rcases hab with ⟨-, hbt⟩ | ⟨hat, -⟩
        · obtain ⟨x, hx, hi⟩ := hb
          obtain ⟨y, hy, hyt⟩ := hc x hx d _ hi
          exact ⟨y, hy, hbt.symm.trans hyt⟩
        · obtain ⟨x, hx, hi⟩ := ha
          obtain ⟨y, hy, hyt⟩ := hc x hx d _ hi
          exact ⟨y, hy, hat.symm.trans hyt⟩
      obtain ⟨y, hy, hty⟩ := hty
      refine ⟨?_, by simp⟩
      simp only [hvt.insert_eq]
      exact hc.cons h.triangular hvt.free hvt.acyclic hvt.unbound hy hty
    | pairs =>
      exact bounded_forPairs (grows_unifyWithin fuel) (ih (d + 1) (by omega)) _ _ u.tick
        h.grows_tick.coherent hc (fun x hx => ha.child h.triangular hx)
        (fun x hx => hb.child h.triangular hx)

/-- The bound that unification gives itself is never reached. -/
theorem exec_unify_ne_exhausted {u : Unifier} (h : u.Coherent) (a b : Ty) (e : TypeError)
    (he : (exec (unify a b) u).1 = .error e) : e.cause ≠ .exhausted := by
  let l := a.nodes ++ b.nodes ++ u.subst.flatMap fun p => p.2.nodes
  have hlength : l.length = a.size + b.size + u.subst.size := by
    simp only [l, List.length_append, List.length_flatMap, Ty.length_nodes, Subst.size,
      Ty.sizeList_eq_sum, List.map_map]
    rfl
  have hclosed : ∀ x ∈ l, ∀ d w, Ty.Inside d x w → w ∈ l := by
    intro x hx d w hw
    have key : ∀ t : Ty, x ∈ t.nodes → w ∈ t.nodes := fun t ht => by
      obtain ⟨e, he⟩ := Ty.inside_of_mem_nodes ht
      exact Ty.mem_nodes_of_inside (he.trans hw)
    simp only [l, List.mem_append, List.mem_flatMap] at hx ⊢
    rcases hx with (hx | hx) | ⟨p, hp, hx⟩
    · exact .inl (.inl (key a hx))
    · exact .inl (.inr (key b hx))
    · exact .inr ⟨p, hp, key p.2 hx⟩
  have hself : ∀ t : Ty, t ∈ t.nodes := fun t => Ty.mem_nodes_of_inside (.refl t)
  have hbound : ∀ p ∈ u.subst, p.2 ∈ l := fun p hp => by
    simp only [l, List.mem_append, List.mem_flatMap]
    exact .inr ⟨p, hp, hself p.2⟩
  have hmet : ∀ t ∈ l, Subst.Met l u.subst 0 t := fun t ht => ⟨t, ht, .refl _⟩
  refine (bounded_unifyWithin (a.size + b.size + u.subst.size + 1) 0 (by omega) a b u h
    (h.triangular.covers hclosed hbound) (hmet a ?_) (hmet b ?_)).2 e he
  · simp [l, hself]
  · simp [l, hself]

end Unifying

end FunRiscv
