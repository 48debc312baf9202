import Mathlib
import FunRiscv.Alloc.Allocation
import FunRiscv.Proofs.Alloc.Heap
import FunRiscv.Proofs.Alloc.Ranges

/-!
# The linear scan

The scan visits ranges in the order in which they start. Two facts are kept from one
visit to the next.

* `Placement.Keeps`: every range visited so far has a machine register or a word on the stack, and
  not both. Ranges with one register do not overlap, and a range that still holds its register is
  among the active ones.
* `LinearScan.Keeps`: moreover the free registers come from the pools and no active
  range holds one of them.

`LinearScan.Keeps.expire` and `LinearScan.Keeps.visit` are the steps, and `LinearScan.keeps_run` is
a whole scan. All hold for every heap that obeys the laws.
-/

namespace FunRiscv

/-- Pools in which registers stand where they belong. -/
structure Pools.Sound (pools : Pools) : Prop where
  temps : ∀ r ∈ pools.temps, r.isSaved = false
  saved : ∀ r ∈ pools.saved, r.isSaved = true

theorem Pools.standard_sound : Pools.standard.Sound where
  temps := by decide
  saved := by decide

/-! ### Placements -/

namespace Placement

/-- The machine register of a virtual register that has one. -/
def home? (p : Placement) (r : Reg) : Option Reg := p.assigned.lookup r

theorem home_eq (p : Placement) (r : Reg) : p.home r = (p.home? r).getD .zero := rfl

theorem home_of_home? {p : Placement} {r h : Reg} (hr : p.home? r = some h) : p.home r = h := by
  rw [home_eq, hr]
  rfl

theorem lookup_cons_eq {β : Type} (es : List (Reg × β)) (k q : Reg) (b : β) :
    ((k, b) :: es).lookup q = if q = k then some b else es.lookup q := by
  rw [List.lookup_cons]
  by_cases hq : q = k
  · simp [hq]
  · rw [if_neg hq, beq_false_of_ne hq]

theorem home?_assign (p : Placement) (r h q : Reg) :
    (p.assign r h).home? q = if q = r then some h else p.home? q :=
  lookup_cons_eq p.assigned r q h

@[simp]
theorem slot?_assign (p : Placement) (r h q : Reg) : (p.assign r h).slot? q = p.slot? q := rfl

theorem home?_spill (p : Placement) (base : Int32) (r q : Reg) :
    (p.spill base r).home? q = if q = r then none else p.home? q := by
  unfold home? spill
  induction p.assigned with
  | nil => simp
  | cons e rest ih =>
    obtain ⟨k, h⟩ := e
    dsimp only at ih ⊢
    by_cases hk : k = r
    · rw [List.filter_cons_of_neg (by simp [hk]), ih, lookup_cons_eq, hk]
      split <;> rfl
    · rw [List.filter_cons_of_pos (by simp [hk]), lookup_cons_eq, lookup_cons_eq, ih]
      by_cases hqk : q = k
      · simp [hqk, hk]
      · rw [if_neg hqk, if_neg hqk]

theorem home?_of_spill {p : Placement} {base : Int32} {r q h : Reg}
    (hq : (p.spill base r).home? q = some h) : p.home? q = some h := by
  rw [home?_spill] at hq
  split at hq
  · simp at hq
  · exact hq

/-- The offset of the word with a number. -/
def offsetOf (base : Int32) (k : Nat) : Int32 := base + Int32.ofNat wordSize * Int32.ofNat k

theorem slot?_spill (p : Placement) (base : Int32) (r q : Reg) :
    (p.spill base r).slot? q = if q = r then some (offsetOf base p.spilled.length) else p.slot? q :=
  lookup_cons_eq p.spilled r q (offsetOf base p.spilled.length)

theorem not_mem_spilled {p : Placement} {r : Reg} (h : p.slot? r = none) :
    r ∉ p.spilled.map (·.1) := by
  intro hmem
  obtain ⟨⟨q, o⟩, he, rfl⟩ := List.mem_map.1 hmem
  rw [slot?, List.lookup_eq_none_iff] at h
  simpa using h _ he

theorem mem_spilled {p : Placement} {r : Reg} (h : (p.slot? r).isSome = true) :
    r ∈ p.spilled.map (·.1) := by
  by_contra hmem
  have hnone : p.slot? r = none := by
    refine List.lookup_eq_none_iff.2 fun e he => ?_
    simpa using fun heq : r = e.1 => hmem (heq ▸ List.mem_map_of_mem he)
  rw [hnone] at h
  simp at h

/-- What a scan knows about the places of the ranges it visited, the last of which started at a
place, and about those that still hold their registers. -/
structure Keeps (pools : Pools) (base : Int32) (place : Nat) (done active : List LiveRange)
    (p : Placement) : Prop where
  started : ∀ v ∈ done, v.start ≤ place
  placed : ∀ v ∈ done, (p.home? v.reg).isSome = !(p.slot? v.reg).isSome
  absent : ∀ r, (∀ v ∈ done, v.reg ≠ r) → p.home? r = none ∧ p.slot? r = none
  active_done : ∀ v ∈ active, v ∈ done ∧ (p.home? v.reg).isSome = true
  active_nodup : (active.map fun v => p.home? v.reg).Nodup
  ended : ∀ v ∈ done, (p.home? v.reg).isSome = true → v ∈ active ∨ v.stop ≤ place
  apart : ∀ v ∈ done, ∀ w ∈ done, v.start < w.start →
    ∀ h, p.home? v.reg = some h → p.home? w.reg = some h → v.stop ≤ w.start
  pooled : ∀ r h, p.home? r = some h → h ∈ pools.temps ∨ h ∈ pools.saved
  crossing : ∀ v ∈ done, v.crossesCall = true → ∀ h, p.home? v.reg = some h → h.isSaved = true
  offsets : p.spilled.map (·.2) = ((List.range p.spilled.length).map (offsetOf base)).reverse
  spilled_nodup : (p.spilled.map (·.1)).Nodup
  spilled_done : ∀ r ∈ p.spilled.map (·.1), ∃ v ∈ done, v.reg = r

variable {pools : Pools} {base : Int32} {place : Nat} {done active : List LiveRange} {p : Placement}

theorem keeps_nil (pools : Pools) (base : Int32) : Keeps pools base 0 [] [] {} where
  started := by simp
  placed := by simp
  absent := by simp [home?, slot?]
  active_done := by simp
  active_nodup := by simp
  ended := by simp
  apart := by simp
  pooled := by simp [home?]
  crossing := by simp
  offsets := by simp
  spilled_nodup := by simp
  spilled_done := by simp

namespace Keeps

theorem later (k : Keeps pools base place done active p) {next : Nat} (h : place ≤ next) :
    Keeps pools base next done active p where
  __ := k
  started := fun v hv => (k.started v hv).trans h
  ended := fun v hv hhome => (k.ended v hv hhome).imp_right fun hstop => hstop.trans h

theorem perm (k : Keeps pools base place done active p) {active' : List LiveRange}
    (h : active.Perm active') : Keeps pools base place done active' p where
  __ := k
  active_done := fun v hv => k.active_done v (h.mem_iff.2 hv)
  active_nodup := (h.map _).nodup_iff.1 k.active_nodup
  ended := fun v hv hhome => (k.ended v hv hhome).imp_left h.mem_iff.1

/-- A range that has ended gives its register up. -/
theorem drop {v : LiveRange} (k : Keeps pools base place done (v :: active) p)
    (h : v.stop ≤ place) : Keeps pools base place done active p where
  __ := k
  active_done := fun w hw => k.active_done w (List.mem_cons_of_mem v hw)
  active_nodup := (List.nodup_cons.1 k.active_nodup).2
  ended := by
    intro w hw hhome
    rcases k.ended w hw hhome with hmem | hstop
    · rcases List.mem_cons.1 hmem with rfl | hmem
      · exact .inr h
      · exact .inl hmem
    · exact .inr hstop

/-- No two active ranges hold one register. -/
theorem alone {v : LiveRange} {h : Reg} (k : Keeps pools base place done (v :: active) p)
    (hv : p.home? v.reg = some h) : ∀ w ∈ active, p.home? w.reg ≠ some h := by
  intro w hw hw'
  have hmem := List.mem_map_of_mem (f := fun w => p.home? w.reg) hw
  rw [hw', ← hv] at hmem
  exact (List.nodup_cons.1 k.active_nodup).1 hmem

theorem offsets_spill (k : Keeps pools base place done active p) (r : Reg) :
    (p.spill base r).spilled.map (·.2) =
      ((List.range (p.spill base r).spilled.length).map (offsetOf base)).reverse := by
  have hspilled : (p.spill base r).spilled = (r, offsetOf base p.spilled.length) :: p.spilled := rfl
  rw [hspilled, List.map_cons, List.length_cons, List.range_succ, List.map_append,
    List.reverse_append, k.offsets]
  rfl

/-- A new range that gets a register which no active range holds. -/
theorem assign (k : Keeps pools base place done active p) {v : LiveRange} {h : Reg}
    (hstart : place ≤ v.start) (hnew : ∀ w ∈ done, w.reg ≠ v.reg)
    (hfree : ∀ w ∈ active, p.home? w.reg ≠ some h)
    (hpool : h ∈ pools.temps ∨ h ∈ pools.saved) (hcross : v.crossesCall = true → h.isSaved = true) :
    Keeps pools base v.start (done ++ [v]) (v :: active) (p.assign v.reg h) := by
  have hself : (p.assign v.reg h).home? v.reg = some h := by rw [home?_assign, if_pos rfl]
  have hold : ∀ w ∈ done, (p.assign v.reg h).home? w.reg = p.home? w.reg := by
    intro w hw
    rw [home?_assign, if_neg (hnew w hw)]
  have hslot := (k.absent v.reg hnew).2
  have hdone : ∀ w ∈ done ++ [v], w ∈ done ∨ w = v := by simp
  constructor
  case started =>
    intro w hw
    rcases hdone w hw with hw | rfl
    · exact (k.started w hw).trans hstart
    · exact Nat.le_refl _
  case placed =>
    intro w hw
    rcases hdone w hw with hw | rfl
    · rw [hold w hw]
      exact k.placed w hw
    · rw [hself, slot?_assign, hslot]
      rfl
  case absent =>
    intro r hr
    have hne : r ≠ v.reg := fun h => hr v (by simp) h.symm
    rw [home?_assign, if_neg hne, slot?_assign]
    exact k.absent r fun w hw => hr w (by simp [hw])
  case active_done =>
    intro w hw
    rcases List.mem_cons.1 hw with rfl | hw
    · exact ⟨by simp, by rw [hself]; rfl⟩
    · obtain ⟨hmem, hhome⟩ := k.active_done w hw
      exact ⟨by simp [hmem], by rw [hold w hmem]; exact hhome⟩
  case active_nodup =>
    have hmap : active.map (fun w => (p.assign v.reg h).home? w.reg) =
      active.map fun w => p.home? w.reg :=
      List.map_congr_left fun w hw => hold w (k.active_done w hw).1
    rw [List.map_cons, hmap, hself, List.nodup_cons]
    refine ⟨?_, k.active_nodup⟩
    intro hmem
    obtain ⟨w, hw, heq⟩ := List.mem_map.1 hmem
    exact hfree w hw heq
  case ended =>
    intro w hw hhome
    rcases hdone w hw with hw | rfl
    · rw [hold w hw] at hhome
      rcases k.ended w hw hhome with hmem | hstop
      · exact .inl (List.mem_cons_of_mem v hmem)
      · exact .inr (hstop.trans hstart)
    · exact .inl List.mem_cons_self
  case apart =>
    intro w hw x hx hlt r hwr hxr
    rcases hdone w hw with hw' | rfl
    · rw [hold w hw'] at hwr
      rcases hdone x hx with hx' | rfl
      · rw [hold x hx'] at hxr
        exact k.apart w hw' x hx' hlt r hwr hxr
      · rw [hself] at hxr
        obtain rfl : h = r := Option.some.inj hxr
        rcases k.ended w hw' (by rw [hwr]; rfl) with hmem | hstop
        · exact absurd hwr (hfree w hmem)
        · exact hstop.trans hstart
    · rcases hdone x hx with hx' | rfl
      · have := k.started x hx'
        omega
      · omega
  case pooled =>
    intro r q hq
    rw [home?_assign] at hq
    split at hq
    · obtain rfl := Option.some.inj hq
      exact hpool
    · exact k.pooled r q hq
  case crossing =>
    intro w hw hc r hr
    rcases hdone w hw with hw | rfl
    · rw [hold w hw] at hr
      exact k.crossing w hw hc r hr
    · rw [hself] at hr
      obtain rfl : h = r := Option.some.inj hr
      exact hcross hc
  case offsets => exact k.offsets
  case spilled_nodup => exact k.spilled_nodup
  case spilled_done =>
    intro r hr
    obtain ⟨w, hw, heq⟩ := k.spilled_done r hr
    exact ⟨w, by simp [hw], heq⟩

/-- A new range that goes to the stack. -/
theorem spill (k : Keeps pools base place done active p) {v : LiveRange} (hstart : place ≤ v.start)
    (hnew : ∀ w ∈ done, w.reg ≠ v.reg) :
    Keeps pools base v.start (done ++ [v]) active (p.spill base v.reg) := by
  have hnone := (k.absent v.reg hnew).2
  have hself : (p.spill base v.reg).home? v.reg = none := by rw [home?_spill, if_pos rfl]
  have hslot : (p.spill base v.reg).slot? v.reg = some (offsetOf base p.spilled.length) := by
    rw [slot?_spill, if_pos rfl]
  have hold : ∀ w ∈ done, (p.spill base v.reg).home? w.reg = p.home? w.reg := by
    intro w hw
    rw [home?_spill, if_neg (hnew w hw)]
  have holdslot : ∀ w ∈ done, (p.spill base v.reg).slot? w.reg = p.slot? w.reg := by
    intro w hw
    rw [slot?_spill, if_neg (hnew w hw)]
  have hdone : ∀ w ∈ done ++ [v], w ∈ done ∨ w = v := by simp
  constructor
  case started =>
    intro w hw
    rcases hdone w hw with hw | rfl
    · exact (k.started w hw).trans hstart
    · exact Nat.le_refl _
  case placed =>
    intro w hw
    rcases hdone w hw with hw | rfl
    · rw [hold w hw, holdslot w hw]
      exact k.placed w hw
    · rw [hself, hslot]
      rfl
  case absent =>
    intro r hr
    have hne : r ≠ v.reg := fun h => hr v (by simp) h.symm
    rw [home?_spill, if_neg hne, slot?_spill, if_neg hne]
    exact k.absent r fun w hw => hr w (by simp [hw])
  case active_done =>
    intro w hw
    obtain ⟨hmem, hhome⟩ := k.active_done w hw
    exact ⟨by simp [hmem], by rw [hold w hmem]; exact hhome⟩
  case active_nodup =>
    have hmap : active.map (fun w => (p.spill base v.reg).home? w.reg) =
      active.map fun w => p.home? w.reg :=
      List.map_congr_left fun w hw => hold w (k.active_done w hw).1
    rw [hmap]
    exact k.active_nodup
  case ended =>
    intro w hw hhome
    rcases hdone w hw with hw | rfl
    · rw [hold w hw] at hhome
      exact (k.ended w hw hhome).imp_right fun hstop => hstop.trans hstart
    · simp [hself] at hhome
  case apart =>
    intro w hw x hx hlt r hwr hxr
    rcases hdone w hw with hw | rfl
    · rw [hold w hw] at hwr
      rcases hdone x hx with hx | rfl
      · rw [hold x hx] at hxr
        exact k.apart w hw x hx hlt r hwr hxr
      · simp [hself] at hxr
    · simp [hself] at hwr
  case pooled => exact fun r q hq => k.pooled r q (home?_of_spill hq)
  case crossing =>
    intro w hw hc r hr
    rcases hdone w hw with hw | rfl
    · rw [hold w hw] at hr
      exact k.crossing w hw hc r hr
    · simp [hself] at hr
  case offsets => exact k.offsets_spill v.reg
  case spilled_nodup => exact List.nodup_cons.2 ⟨not_mem_spilled hnone, k.spilled_nodup⟩
  case spilled_done =>
    intro r hr
    rcases List.mem_cons.1 hr with rfl | hr
    · exact ⟨v, by simp, rfl⟩
    · obtain ⟨w, hw, heq⟩ := k.spilled_done r hr
      exact ⟨w, by simp [hw], heq⟩

/-- An active range that goes to the stack. -/
theorem evict {v : LiveRange} (k : Keeps pools base place done (v :: active) p) :
    Keeps pools base place done active (p.spill base v.reg) := by
  obtain ⟨hv, hhome⟩ := k.active_done v List.mem_cons_self
  have hactive : ∀ w ∈ active, w.reg ≠ v.reg := by
    intro w hw heq
    obtain ⟨h, hh⟩ := Option.isSome_iff_exists.1 hhome
    exact k.alone hh w hw (heq ▸ hh)
  constructor
  case started => exact k.started
  case placed =>
    intro w hw
    by_cases heq : w.reg = v.reg
    · rw [home?_spill, if_pos heq, slot?_spill, if_pos heq]
      rfl
    · rw [home?_spill, if_neg heq, slot?_spill, if_neg heq]
      exact k.placed w hw
  case absent =>
    intro r hr
    have hne : r ≠ v.reg := fun h => hr v hv h.symm
    rw [home?_spill, if_neg hne, slot?_spill, if_neg hne]
    exact k.absent r hr
  case active_done =>
    intro w hw
    obtain ⟨hmem, hhome⟩ := k.active_done w (List.mem_cons_of_mem v hw)
    exact ⟨hmem, by rw [home?_spill, if_neg (hactive w hw)]; exact hhome⟩
  case active_nodup =>
    have hmap : active.map (fun w => (p.spill base v.reg).home? w.reg) =
      active.map fun w => p.home? w.reg := by
      refine List.map_congr_left fun w hw => ?_
      rw [home?_spill, if_neg (hactive w hw)]
    rw [hmap]
    exact (List.nodup_cons.1 k.active_nodup).2
  case ended =>
    intro w hw hsome
    obtain ⟨q, hq⟩ := Option.isSome_iff_exists.1 hsome
    rcases k.ended w hw (by rw [home?_of_spill hq]; rfl) with hmem | hstop
    · rcases List.mem_cons.1 hmem with rfl | hmem
      · rw [home?_spill, if_pos rfl] at hq
        simp at hq
      · exact .inl hmem
    · exact .inr hstop
  case apart =>
    exact fun w hw x hx hlt r hwr hxr =>
      k.apart w hw x hx hlt r (home?_of_spill hwr) (home?_of_spill hxr)
  case pooled => exact fun r q hq => k.pooled r q (home?_of_spill hq)
  case crossing => exact fun w hw hc r hr => k.crossing w hw hc r (home?_of_spill hr)
  case offsets => exact k.offsets_spill v.reg
  case spilled_nodup =>
    have hnone : p.slot? v.reg = none := by
      have := k.placed v hv
      rw [hhome] at this
      simpa using this.symm
    exact List.nodup_cons.2 ⟨not_mem_spilled hnone, k.spilled_nodup⟩
  case spilled_done =>
    intro r hr
    rcases List.mem_cons.1 hr with rfl | hr
    · exact ⟨v, hv, rfl⟩
    · exact k.spilled_done r hr

end Keeps

end Placement

/-! ### Steps of the scan -/

namespace LinearScan

/-- What a scan knows after it visited some ranges, the last of which started at a place. -/
structure Keeps (pools : Pools) (base : Int32) (place : Nat) (done : List LiveRange)
    (s : LinearScan) : Prop where
  places : s.placement.Keeps pools base place done s.active.toList
  taken : ∀ v ∈ s.active.toList, ∀ h, s.placement.home? v.reg = some h →
    s.freeTemps.contains h.number = false ∧ s.freeSaved.contains h.number = false
  temps : ∀ n, s.freeTemps.contains n = true → ⟨n⟩ ∈ pools.temps
  saved : ∀ n, s.freeSaved.contains n = true → ⟨n⟩ ∈ pools.saved
  used : ∀ r h, s.placement.home? r = some h → h.isSaved = true → s.used.contains h.number = true
  used_saved : ∀ n, s.used.contains n = true → ⟨n⟩ ∈ pools.saved

variable {pools : Pools} {base : Int32} {place : Nat} {done : List LiveRange} {s : LinearScan}

theorem keeps_start (pools : Pools) (base : Int32) : Keeps pools base 0 [] (start pools) where
  places := Placement.keeps_nil pools base
  taken := by simp [start]
  temps := by
    intro n hn
    simp only [start, BitSet.contains_ofList, decide_eq_true_eq, List.mem_map] at hn
    obtain ⟨r, hr, rfl⟩ := hn
    exact hr
  saved := by
    intro n hn
    simp only [start, BitSet.contains_ofList, decide_eq_true_eq, List.mem_map] at hn
    obtain ⟨r, hr, rfl⟩ := hn
    exact hr
  used := by simp [start, Placement.home?]
  used_saved := by
    intro n hn
    have : (start pools).used.contains n = false := BitSet.contains_empty n
    simp [this] at hn

@[simp]
theorem release_placement (s : LinearScan) (r : Reg) : (s.release r).placement = s.placement := by
  unfold release
  split <;> rfl

@[simp]
theorem release_active (s : LinearScan) (r : Reg) : (s.release r).active = s.active := by
  unfold release
  split <;> rfl

@[simp]
theorem release_used (s : LinearScan) (r : Reg) : (s.release r).used = s.used := by
  unfold release
  split <;> rfl

@[simp]
theorem take_placement (s : LinearScan) (r : Reg) : (s.take r).placement = s.placement := by
  unfold take
  split <;> rfl

@[simp]
theorem take_active (s : LinearScan) (r : Reg) : (s.take r).active = s.active := by
  unfold take
  split <;> rfl

theorem number_ne {h r : Reg} (hne : h ≠ r) : h.number ≠ r.number := by
  rintro heq
  apply hne
  cases h
  cases r
  simpa using heq

namespace Keeps

theorem later (k : Keeps pools base place done s) {next : Nat} (h : place ≤ next) :
    Keeps pools base next done s where
  __ := k
  places := k.places.later h

/-- A register of the pools that no active range holds becomes free. -/
theorem release (hpools : pools.Sound) (k : Keeps pools base place done s) {r : Reg}
    (hpool : r ∈ pools.temps ∨ r ∈ pools.saved)
    (hfree : ∀ v ∈ s.active.toList, s.placement.home? v.reg ≠ some r) :
    Keeps pools base place done (s.release r) := by
  have hne : ∀ v ∈ s.active.toList, ∀ h, s.placement.home? v.reg = some h →
    h.number ≠ r.number := by
    intro v hv h hh
    refine number_ne ?_
    rintro rfl
    exact hfree v hv hh
  constructor
  case places => simpa using k.places
  case taken =>
    intro v hv h hh
    rw [release_active] at hv
    rw [release_placement] at hh
    obtain ⟨htemps, hsaved⟩ := k.taken v hv h hh
    unfold LinearScan.release
    split
    · exact ⟨htemps, by rw [BitSet.contains_insert, hsaved, decide_eq_false (hne v hv h hh)]; rfl⟩
    · exact ⟨by rw [BitSet.contains_insert, htemps, decide_eq_false (hne v hv h hh)]; rfl, hsaved⟩
  case temps =>
    intro n hn
    unfold LinearScan.release at hn
    split at hn
    · exact k.temps n hn
    · next hr =>
      rw [BitSet.contains_insert, Bool.or_eq_true, decide_eq_true_eq] at hn
      rcases hn with rfl | hn
      · exact hpool.resolve_right fun hmem => hr (hpools.saved r hmem)
      · exact k.temps n hn
  case saved =>
    intro n hn
    unfold LinearScan.release at hn
    split at hn
    · next hr =>
      rw [BitSet.contains_insert, Bool.or_eq_true, decide_eq_true_eq] at hn
      rcases hn with rfl | hn
      · exact hpool.resolve_left fun hmem => by simp [hpools.temps r hmem] at hr
      · exact k.saved n hn
    · exact k.saved n hn
  case used =>
    intro q h hh hsaved
    rw [release_placement] at hh
    rw [release_used]
    exact k.used q h hh hsaved
  case used_saved =>
    intro n hn
    rw [release_used] at hn
    exact k.used_saved n hn

/-- Ranges that have ended give their registers back. -/
theorem expire [Heap] [LawfulHeap] (hpools : pools.Sound) (k : Keeps pools base place done s)
    (count : Nat) : Keeps pools base place done (LinearScan.expire place count s) := by
  induction count generalizing s with
  | zero => exact k
  | succ count ih =>
    rw [LinearScan.expire]
    split
    · next v rest hpop =>
      split
      · next hstop =>
        have hperm := LawfulHeap.pop?_perm hpop
        have hplaces := k.places.perm hperm
        obtain ⟨h, hh⟩ := Option.isSome_iff_exists.1 (hplaces.active_done v List.mem_cons_self).2
        rw [Placement.home_of_home? hh]
        refine ih (Keeps.release hpools ?_ (hplaces.pooled v.reg h hh) ?_)
        · exact { k with
            places := hplaces.drop hstop
            taken := fun w hw => k.taken w (hperm.mem_iff.2 (List.mem_cons_of_mem v hw)) }
        · exact hplaces.alone hh
      · exact k
    · exact k

/-- A free register is taken: it is no longer free, and no active range holds it. -/
theorem take (hpools : pools.Sound) (k : Keeps pools base place done s) {r : Reg}
    (hfree : s.freeTemps.contains r.number = true ∨ s.freeSaved.contains r.number = true) :
    Keeps pools base place done (s.take r) ∧
      ((s.take r).freeTemps.contains r.number = false ∧
      (s.take r).freeSaved.contains r.number = false) ∧
      (r.isSaved = true → (s.take r).used.contains r.number = true) := by
  have hsub : ∀ n, ((s.take r).freeTemps.contains n = true → s.freeTemps.contains n = true) ∧
      ((s.take r).freeSaved.contains n = true → s.freeSaved.contains n = true) := by
    intro n
    unfold LinearScan.take
    split
    · refine ⟨id, fun hn => ?_⟩
      rw [BitSet.contains_erase, Bool.and_eq_true] at hn
      exact hn.2
    · refine ⟨fun hn => ?_, id⟩
      rw [BitSet.contains_erase, Bool.and_eq_true] at hn
      exact hn.2
  have hsub' : ∀ {n}, s.freeTemps.contains n = false ∧ s.freeSaved.contains n = false →
      (s.take r).freeTemps.contains n = false ∧ (s.take r).freeSaved.contains n = false := by
    intro n hn
    rw [← Bool.not_eq_true, ← Bool.not_eq_true] at hn ⊢
    exact ⟨mt (hsub n).1 hn.1, mt (hsub n).2 hn.2⟩
  refine ⟨?_, ?_, ?_⟩
  · constructor
    case places => simpa using k.places
    case taken =>
      intro v hv h hh
      rw [take_active] at hv
      rw [take_placement] at hh
      exact hsub' (k.taken v hv h hh)
    case temps => exact fun n hn => k.temps n ((hsub n).1 hn)
    case saved => exact fun n hn => k.saved n ((hsub n).2 hn)
    case used =>
      intro q h hh hsaved
      rw [take_placement] at hh
      have := k.used q h hh hsaved
      unfold LinearScan.take
      split
      · rw [BitSet.contains_insert, this, Bool.or_true]
      · exact this
    case used_saved =>
      intro n hn
      unfold LinearScan.take at hn
      split at hn
      · next hr =>
        rw [BitSet.contains_insert, Bool.or_eq_true, decide_eq_true_eq] at hn
        rcases hn with rfl | hn
        · rcases hfree with hfree | hfree
          · have := hpools.temps _ (k.temps _ hfree)
            simp [this] at hr
          · exact k.saved _ hfree
        · exact k.used_saved n hn
      · exact k.used_saved n hn
  · unfold LinearScan.take
    by_cases hr : r.isSaved = true
    · rw [if_pos hr]
      refine ⟨?_, by rw [BitSet.contains_erase]; simp⟩
      rw [← Bool.not_eq_true]
      intro hn
      have := hpools.temps _ (k.temps _ hn)
      simp [this] at hr
    · rw [if_neg hr]
      refine ⟨by rw [BitSet.contains_erase]; simp, ?_⟩
      rw [← Bool.not_eq_true]
      exact fun hn => hr (hpools.saved _ (k.saved _ hn))
  · intro hr
    unfold LinearScan.take
    rw [if_pos hr, BitSet.contains_insert]
    simp

end Keeps

/-- A chosen register is free; it is a preserved one if a call lies in the range. -/
theorem free_of_choose? {v : LiveRange} {r : Reg} (h : s.choose? v = some r) :
    s.freeTemps.contains r.number = true ∧ v.crossesCall = false ∨
      s.freeSaved.contains r.number = true := by
  unfold choose? at h
  split at h
  · next n hn =>
    obtain rfl := Option.some.inj h
    split at hn
    · simp at hn
    · next hc => exact .inl ⟨BitSet.contains_of_first? hn, by simpa using hc⟩
  · obtain ⟨n, hn, rfl⟩ := Option.map_eq_some_iff.1 h
    exact .inr (BitSet.contains_of_first? hn)

/-- A fold that always keeps what it has or takes the next one ends with one of them. -/
theorem mem_of_foldl_choice {α : Type} {choose : Option α → α → Option α}
    (hchoose : ∀ best a, choose best a = best ∨ choose best a = some a) {l : List α}
    {best : Option α} {a : α} (h : l.foldl choose best = some a) : best = some a ∨ a ∈ l := by
  induction l generalizing best with
  | nil => exact .inl h
  | cons b l ih =>
    rw [List.foldl_cons] at h
    rcases ih h with heq | hmem
    · rcases hchoose best b with hkept | htaken
      · exact .inl (hkept ▸ heq)
      · rw [htaken] at heq
        exact .inr (Option.some.inj heq ▸ List.mem_cons_self)
    · exact .inr (List.mem_cons_of_mem b hmem)

/-- The range to evict is an active one whose register suits. -/
theorem active_of_victim? {v old : LiveRange} {i : Nat} (h : s.victim? v = some (old, i)) :
    s.active.toList[i]? = some old ∧ s.suits v old = true := by
  unfold victim? at h
  have hmem := mem_of_foldl_choice (fun best e => ?_) h
  · rcases hmem with hnone | hmem
    · simp at hnone
    · rw [List.mem_filter] at hmem
      exact ⟨List.mem_zipIdx_iff_getElem?.1 hmem.1, hmem.2⟩
  · dsimp only
    split
    · exact .inr rfl
    · split
      · exact .inr rfl
      · exact .inl rfl

theorem strict_startsBefore : Heap.Strict startsBefore where
  asymm v w h := by
    unfold startsBefore at h ⊢
    grind
  trans v w u h h' := by
    unfold startsBefore at h h' ⊢
    grind

section Run

variable [Heap] [LawfulHeap]

namespace Keeps

/-- Visiting a range keeps what the scan knows. -/
theorem visit (hpools : pools.Sound) (k : Keeps pools base place done s) {v : LiveRange}
    (hstart : place ≤ v.start) (hnodup : ((done ++ [v]).map (·.reg)).Nodup) :
    Keeps pools base v.start (done ++ [v]) (s.visit base v) := by
  have hnew : ∀ w ∈ done, w.reg ≠ v.reg := by
    intro w hw heq
    rw [List.map_append, List.nodup_append] at hnodup
    exact hnodup.2.2 _ (List.mem_map_of_mem hw) v.reg (by simp) heq
  unfold LinearScan.visit
  dsimp only
  have k := (k.later hstart).expire hpools s.active.size
  revert k
  generalize LinearScan.expire v.start s.active.size s = s
  intro k
  split
  · next r hchoose =>
    have hfree := free_of_choose? hchoose
    obtain ⟨kt, hfree', hused⟩ := k.take hpools (hfree.imp_left fun h => h.1)
    have hpool : r ∈ pools.temps ∨ r ∈ pools.saved :=
      hfree.imp (fun h => k.temps _ h.1) (fun h => k.saved _ h)
    have hheld : ∀ w ∈ (s.take r).active.toList, (s.take r).placement.home? w.reg ≠ some r := by
      intro w hw hh
      rw [take_active] at hw
      rw [take_placement] at hh
      obtain ⟨htemps, hsaved⟩ := k.taken w hw r hh
      rcases hfree with ⟨h, -⟩ | h
      · simp [h] at htemps
      · simp [h] at hsaved
    have hcross : v.crossesCall = true → r.isSaved = true := by
      intro hc
      rcases hfree with ⟨-, h⟩ | h
      · simp [h] at hc
      · exact hpools.saved r (k.saved _ h)
    have hperm := LawfulHeap.push_perm endsBefore (s.take r).active v
    constructor
    case places => exact (kt.places.assign (Nat.le_refl _) hnew hheld hpool hcross).perm hperm.symm
    case taken =>
      intro w hw h hh
      dsimp only at hh
      rw [Placement.home?_assign] at hh
      split at hh
      · obtain rfl := Option.some.inj hh
        exact hfree'
      · next hne =>
        rcases List.mem_cons.1 (hperm.mem_iff.1 hw) with rfl | hw
        · exact absurd rfl hne
        · exact kt.taken w hw h hh
    case temps => exact kt.temps
    case saved => exact kt.saved
    case used =>
      intro q h hh hsaved
      dsimp only at hh
      rw [Placement.home?_assign] at hh
      split at hh
      · obtain rfl := Option.some.inj hh
        exact hused hsaved
      · exact kt.used q h hh hsaved
    case used_saved => exact kt.used_saved
  · have hspill : Keeps pools base v.start (done ++ [v]) { s with
      placement := s.placement.spill base v.reg } :=
      { k with
        places := k.places.spill (Nat.le_refl _) hnew
        taken := fun w hw h hh => k.taken w hw h (Placement.home?_of_spill hh)
        used := fun q h hh hsaved => k.used q h (Placement.home?_of_spill hh) hsaved }
    split
    · exact hspill
    · next old i hvictim =>
      split
      · exact hspill
      · obtain ⟨hget, hsuits⟩ := active_of_victim? hvictim
        -- The active ranges without the evicted one.
        have hrest : s.active.toList.Perm (old :: s.active.toList.erase old) :=
          List.perm_cons_erase (List.mem_of_getElem? hget)
        have hperm : (Heap.replace endsBefore s.active i v).toList.Perm
          (v :: s.active.toList.erase old) := by
          have h := (Heap.replace_perm endsBefore hget v).trans
            ((hrest.cons v).trans (List.Perm.swap old v _))
          exact h.cons_inv
        have kr := k.places.perm hrest
        obtain ⟨h, hh⟩ := Option.isSome_iff_exists.1 (kr.active_done old List.mem_cons_self).2
        have hfree := k.taken old (List.mem_of_getElem? hget) h hh
        have hheld : ∀ w ∈ s.active.toList.erase old,
          (s.placement.spill base old.reg).home? w.reg ≠ some h :=
          fun w hw hw' => kr.alone hh w hw (Placement.home?_of_spill hw')
        have hcross : v.crossesCall = true → h.isSaved = true := by
          intro hc
          simpa [suits, hc, Placement.home_of_home? hh] using hsuits
        rw [Placement.home_of_home? hh]
        constructor
        case places =>
          exact (kr.evict.assign (Nat.le_refl _) hnew hheld (kr.pooled old.reg h hh) hcross).perm
            hperm.symm
        case taken =>
          intro w hw q hq
          dsimp only at hq
          rw [Placement.home?_assign] at hq
          split at hq
          · obtain rfl := Option.some.inj hq
            exact hfree
          · next hne =>
            rcases List.mem_cons.1 (hperm.mem_iff.1 hw) with rfl | hw
            · exact absurd rfl hne
            · exact k.taken w (hrest.mem_iff.2 (List.mem_cons_of_mem old hw)) q
                (Placement.home?_of_spill hq)
        case temps => exact k.temps
        case saved => exact k.saved
        case used =>
          intro r q hq hsaved
          dsimp only at hq
          rw [Placement.home?_assign] at hq
          split at hq
          · obtain rfl := Option.some.inj hq
            exact k.used old.reg h hh hsaved
          · exact k.used r q (Placement.home?_of_spill hq) hsaved
        case used_saved => exact k.used_saved

/-- Visiting ranges one after the other keeps what the scan knows. -/
theorem foldl (hpools : pools.Sound) (k : Keeps pools base place done s) {ranges : List LiveRange}
    (hstart : ∀ v ∈ ranges, place ≤ v.start)
    (hsorted : ranges.Pairwise fun v w => v.start < w.start)
    (hnodup : ((done ++ ranges).map (·.reg)).Nodup) :
    ∃ last, Keeps pools base last (done ++ ranges) (ranges.foldl (LinearScan.visit base) s) := by
  induction ranges generalizing place done s with
  | nil => exact ⟨place, by simpa using k⟩
  | cons v ranges ih =>
    rw [List.pairwise_cons] at hsorted
    have hsplit : done ++ v :: ranges = done ++ [v] ++ ranges := by simp
    rw [hsplit] at hnodup ⊢
    have hfirst : ((done ++ [v]).map (·.reg)).Nodup := by
      rw [List.map_append, List.nodup_append] at hnodup
      exact hnodup.1
    exact ih (k.visit hpools (hstart v List.mem_cons_self) hfirst) (fun w hw => (hsorted.1 w hw).le)
      hsorted.2 hnodup

end Keeps

/-- The heap of ranges that are still to come gives back ranges that start one after the
other as they are. -/
theorem run_eq_foldl (pools : Pools) (base : Int32) {ranges : List LiveRange}
    (hsorted : ranges.Pairwise fun v w => v.start < w.start) :
    run pools base ranges = ranges.foldl (LinearScan.visit base) (start pools) := by
  have hbefore : ranges.Pairwise fun v w => startsBefore v w = true := by
    refine hsorted.imp fun {v w} hlt => ?_
    rw [startsBefore, if_pos hlt.ne]
    exact decide_eq_true hlt
  rw [run, Heap.inOrder_eq_self strict_startsBefore hbefore]

/-- What a scan over all ranges knows at its end. -/
theorem keeps_run (hpools : pools.Sound) (base : Int32) {ranges : List LiveRange}
    (hsorted : ranges.Pairwise fun v w => v.start < w.start) (hnodup : (ranges.map (·.reg)).Nodup) :
    ∃ last, Keeps pools base last ranges (run pools base ranges) := by
  rw [run_eq_foldl pools base hsorted]
  simpa using (keeps_start pools base).foldl hpools (fun v _ => Nat.zero_le _) hsorted
    (by simpa using hnodup)

end Run

end LinearScan

end FunRiscv
