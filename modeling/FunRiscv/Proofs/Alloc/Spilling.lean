import Mathlib
import FunRiscv.Proofs.Alloc.Crowding
import FunRiscv.Proofs.Alloc.InTurn

/-!
# How many registers go to the stack

Where no range lies across a call, any register suits any range. Then the ranges that still hold
their registers at a visit are the kept ones that have not ended, since the heap gives up all
others; the registers run out exactly if these are as many as the pools have registers; and the
range that goes to the stack ends last. So the scan makes the best choice.

* `LinearScan.Minimal`: what the scan knows after each visit, beside `LinearScan.Keeps`.
* `LinearScan.Minimal.expire`, `LinearScan.Minimal.visit`: the steps.
  `LinearScan.minimal_run`: a whole scan.
* `allocate_spills_isLeast`: how many registers a listing without calls puts on the stack.
-/

namespace FunRiscv

/-- How many registers there are to choose from. -/
def Pools.size (pools : Pools) : Nat := (pools.temps ++ pools.saved).toFinset.card

/-! ### Ranges that have a machine register -/

namespace Placement

/-- The ranges that have a machine register. -/
def kept (p : Placement) (done : List LiveRange) : Finset LiveRange :=
  {v ∈ done.toFinset | (p.home? v.reg).isSome}

variable {p : Placement} {done : List LiveRange} {v : LiveRange}

theorem kept_assign (hnew : ∀ w ∈ done, w.reg ≠ v.reg) (h : Reg) :
    (p.assign v.reg h).kept (done ++ [v]) = insert v (p.kept done) := by
  ext w
  simp only [kept, Finset.mem_filter, Finset.mem_insert, List.mem_toFinset, List.mem_append,
    List.mem_singleton, home?_assign]
  by_cases hw : w = v
  · simp [hw]
  · have : w ∈ done → w.reg ≠ v.reg := hnew w
    grind

theorem kept_spill_new (hnew : ∀ w ∈ done, w.reg ≠ v.reg) (base : Int32) :
    (p.spill base v.reg).kept (done ++ [v]) = p.kept done := by
  ext w
  simp only [kept, Finset.mem_filter, List.mem_toFinset, List.mem_append, List.mem_singleton,
    home?_spill]
  have : w ∈ done → w.reg ≠ v.reg := hnew w
  grind

theorem kept_spill (hv : ∀ w ∈ done, w.reg = v.reg → w = v) (base : Int32) :
    (p.spill base v.reg).kept done = (p.kept done).erase v := by
  ext w
  simp only [kept, Finset.mem_filter, Finset.mem_erase, List.mem_toFinset, home?_spill]
  have : w ∈ done → w.reg = v.reg → w = v := hv w
  grind

theorem home_assign (p : Placement) (r h q : Reg) :
    (p.assign r h).home q = if q = r then h else p.home q := by
  rw [home_eq, home_eq, home?_assign]
  split <;> rfl

theorem home_spill_of_ne (p : Placement) (base : Int32) {r q : Reg} (hne : q ≠ r) :
    (p.spill base r).home q = p.home q := by
  rw [home_eq, home_eq, home?_spill, if_neg hne]

end Placement

/-! ### The invariant -/

namespace LinearScan

theorem strict_endsBefore : Heap.Strict endsBefore where
  asymm v w h := by
    unfold endsBefore at h ⊢
    grind
  trans v w u h h' := by
    unfold endsBefore at h h' ⊢
    grind

theorem stop_le_of_endsBefore {v w : LiveRange} (h : endsBefore w v = false) : v.stop ≤ w.stop := by
  unfold endsBefore at h
  grind

/-- Whether a register is free. -/
def Free (s : LinearScan) (h : Reg) : Prop :=
  s.freeTemps.contains h.number = true ∨ s.freeSaved.contains h.number = true

/-- What a scan over ranges that no call lies in knows, beside `Keeps`. -/
structure Minimal [Heap] (pools : Pools) (done : List LiveRange) (s : LinearScan) : Prop where
  made : Heap.Made endsBefore s.active
  held : ∀ h, h ∈ pools.temps ∨ h ∈ pools.saved →
    s.Free h ∨ ∃ v ∈ s.active.toList, s.placement.home v.reg = h
  best : LiveRange.Best pools.size done.toFinset (s.placement.kept done)

variable {pools : Pools} {base : Int32} {place : Nat} {done : List LiveRange} {s : LinearScan}

theorem minimal_start [Heap] (pools : Pools) : Minimal pools [] (start pools) where
  made := .empty
  held := by
    intro h hh
    refine .inl (hh.imp (fun hmem => ?_) fun hmem => ?_) <;>
    · simp only [start, BitSet.contains_ofList, decide_eq_true_eq]
      exact List.mem_map_of_mem hmem
  best := LiveRange.best_empty pools.size

/-! ### Ranges that have ended -/

theorem free_release (s : LinearScan) (r h : Reg) : (s.release r).Free h ↔ h = r ∨ s.Free h := by
  have hnumber : h.number = r.number ↔ h = r := by cases h; cases r; simp
  unfold release Free
  split
  · rw [BitSet.contains_insert, Bool.or_eq_true, decide_eq_true_eq, hnumber]
    tauto
  · rw [BitSet.contains_insert, Bool.or_eq_true, decide_eq_true_eq, hnumber]
    tauto

/-- Giving registers back keeps what the scan knows. -/
theorem Minimal.expire [Heap] [LawfulHeap] (m : Minimal pools done s) (place count : Nat) :
    Minimal pools done (LinearScan.expire place count s) := by
  induction count generalizing s with
  | zero => exact m
  | succ count ih =>
    rw [LinearScan.expire]
    split
    · next v rest hpop =>
      split
      · refine ih ⟨?_, ?_, ?_⟩
        · rw [release_active]
          exact m.made.pop hpop
        · intro h hh
          rw [free_release, release_active, release_placement]
          rcases m.held h hh with hfree | ⟨w, hw, rfl⟩
          · exact .inl (.inr hfree)
          · rcases List.mem_cons.1 ((LawfulHeap.pop?_perm hpop).mem_iff.1 hw) with rfl | hw
            · exact .inl (.inl rfl)
            · exact .inr ⟨w, hw, rfl⟩
        · rw [release_placement]
          exact m.best
      · exact m
    · exact m

/-- The ranges that have ended are given up. -/
theorem lt_stop_of_expire [Heap] [LawfulHeap] {count : Nat} (hmade : Heap.Made endsBefore s.active)
    (hcount : s.active.size ≤ count) :
    ∀ v ∈ (LinearScan.expire place count s).active.toList, place < v.stop := by
  induction count generalizing s with
  | zero =>
    intro v hv
    rw [LinearScan.expire, Array.eq_empty_of_size_eq_zero (Nat.le_zero.1 hcount)] at hv
    simp at hv
  | succ count ih =>
    rw [LinearScan.expire]
    split
    · next v rest hpop =>
      split
      · refine ih (by rw [release_active]; exact hmade.pop hpop) ?_
        have hsize := (LawfulHeap.pop?_perm hpop).length_eq
        simp only [Array.length_toList, List.length_cons] at hsize
        rw [release_active]
        dsimp only
        omega
      · next hstop =>
        intro w hw
        have := stop_le_of_endsBefore (hmade.pop_least strict_endsBefore hpop w hw)
        omega
    · next hpop =>
      intro w hw
      rw [Heap.eq_empty_of_pop? hpop] at hw
      simp at hw

/-! ### The choice of a register -/

/-- If there is no register for a range that no call lies in, none is free. -/
theorem not_free_of_choose? {v : LiveRange} (hv : v.crossesCall = false) (h : s.choose? v = none)
    (r : Reg) : ¬s.Free r := by
  unfold choose? at h
  rw [hv] at h
  rintro (hfree | hfree)
  · obtain ⟨k, hk⟩ := first?_of_contains hfree
    simp [hk] at h
  · obtain ⟨k, hk⟩ := first?_of_contains hfree
    rw [hk] at h
    split at h <;> simp at h

/-- A fold that never prefers a range that ends earlier ends with one that ends last. -/
theorem exists_of_foldl_latest {choose : Option (LiveRange × Nat) → LiveRange × Nat →
    Option (LiveRange × Nat)}
    (hchoose : ∀ best e, ∃ c, choose best e = some c ∧ e.1.stop ≤ c.1.stop ∧
      ∀ b, best = some b → b.1.stop ≤ c.1.stop)
    (l : List (LiveRange × Nat)) (best : Option (LiveRange × Nat)) (e : LiveRange × Nat)
    (he : best = some e ∨ e ∈ l) : ∃ c, l.foldl choose best = some c ∧ e.1.stop ≤ c.1.stop := by
  induction l generalizing best e with
  | nil => exact ⟨e, by simpa using he, Nat.le_refl _⟩
  | cons a l ih =>
    rw [List.foldl_cons]
    obtain ⟨b, hb, ha, hbest⟩ := hchoose best a
    rcases he with he | he
    · obtain ⟨c, hc, hle⟩ := ih _ b (.inl hb)
      exact ⟨c, hc, (hbest e he).trans hle⟩
    · rcases List.mem_cons.1 he with rfl | he
      · obtain ⟨c, hc, hle⟩ := ih _ b (.inl hb)
        exact ⟨c, hc, ha.trans hle⟩
      · exact ih _ e (.inr he)

/-- Where no call lies in a range, the range to evict for it is one that ends last
among all active ones. -/
theorem exists_victim? {v w : LiveRange} (hv : v.crossesCall = false) (hw : w ∈ s.active.toList) :
    ∃ old i, s.victim? v = some (old, i) ∧ w.stop ≤ old.stop := by
  obtain ⟨i, hi⟩ := List.mem_iff_getElem?.1 hw
  have hmem : (w, i) ∈ s.active.toList.zipIdx := List.mem_zipIdx_iff_getElem?.2 hi
  have hsuits : s.suits v w = true := by simp [suits, hv]
  have hlatest : ∃ c, s.victim? v = some c ∧ w.stop ≤ c.1.stop := by
    unfold victim?
    refine exists_of_foldl_latest (fun best e => ?_) _ none (w, i)
      (.inr (List.mem_filter.2 ⟨hmem, hsuits⟩))
    dsimp only
    split
    · exact ⟨_, rfl, Nat.le_refl _, by simp⟩
    · split
      · next hlt => exact ⟨_, rfl, Nat.le_refl _, fun b hb => (Option.some.inj hb) ▸ hlt.le⟩
      · next hge =>
          exact ⟨_, rfl, Nat.not_lt.1 hge, fun b hb => (Option.some.inj hb) ▸ Nat.le_refl _⟩
  obtain ⟨⟨old, j⟩, hold, hle⟩ := hlatest
  exact ⟨old, j, hold, hle⟩

/-! ### How many ranges are active -/

/-- The active ranges are the kept ones that have not ended. -/
theorem toFinset_active (k : Keeps pools base place done s)
    (halive : ∀ v ∈ s.active.toList, place < v.stop) :
    s.active.toList.toFinset = LiveRange.alive (s.placement.kept done) place := by
  ext v
  simp only [LiveRange.alive, Placement.kept, Finset.mem_filter, List.mem_toFinset]
  constructor
  · intro hv
    exact ⟨k.places.active_done v hv, halive v hv⟩
  · rintro ⟨⟨hv, hhome⟩, hstop⟩
    exact (k.places.ended v hv hhome).resolve_right (Nat.not_le.2 hstop)

theorem home?_of_active (k : Keeps pools base place done s) {v : LiveRange}
    (hv : v ∈ s.active.toList) : s.placement.home? v.reg = some (s.placement.home v.reg) := by
  obtain ⟨h, hh⟩ := Option.isSome_iff_exists.1 (k.places.active_done v hv).2
  rw [hh, Placement.home_of_home? hh]

/-- No two active ranges hold one register. -/
theorem nodup_homes (k : Keeps pools base place done s) :
    (s.active.toList.map fun v => s.placement.home v.reg).Nodup := by
  refine List.Nodup.of_map some ?_
  rw [List.map_map]
  have hmap : s.active.toList.map (fun v => s.placement.home? v.reg) =
      s.active.toList.map (some ∘ fun v => s.placement.home v.reg) :=
    List.map_congr_left fun v hv => home?_of_active k hv
  exact hmap ▸ k.places.active_nodup

/-- The active ranges are as many as the registers that they hold. -/
theorem card_active (k : Keeps pools base place done s) :
    s.active.toList.toFinset.card =
      (s.active.toList.map fun v => s.placement.home v.reg).toFinset.card := by
  have hnodup := nodup_homes k
  rw [List.toFinset_card_of_nodup hnodup, List.toFinset_card_of_nodup (List.Nodup.of_map _ hnodup),
    List.length_map]

theorem homes_subset (k : Keeps pools base place done s) :
    (s.active.toList.map fun v => s.placement.home v.reg).toFinset ⊆
      (pools.temps ++ pools.saved).toFinset := by
  intro h hh
  obtain ⟨v, hv, rfl⟩ := List.mem_map.1 (List.mem_toFinset.1 hh)
  rw [List.mem_toFinset, List.mem_append]
  exact k.places.pooled v.reg _ (home?_of_active k hv)

/-- If a register is free, fewer ranges are active than there are registers. -/
theorem card_active_lt (k : Keeps pools base place done s) {r : Reg} (hr : s.Free r) :
    s.active.toList.toFinset.card < pools.size := by
  rw [card_active k]
  refine Finset.card_lt_card (Finset.ssubset_iff_subset_ne.2 ⟨homes_subset k, fun heq => ?_⟩)
  have hpool : r ∈ (pools.temps ++ pools.saved).toFinset := by
    rw [List.mem_toFinset, List.mem_append]
    exact hr.imp (k.temps r.number) (k.saved r.number)
  obtain ⟨v, hv, hhome⟩ := List.mem_map.1 (List.mem_toFinset.1 (heq ▸ hpool))
  obtain ⟨htemps, hsaved⟩ := k.taken v hv r (hhome ▸ home?_of_active k hv)
  rcases hr with hr | hr
  · simp [hr] at htemps
  · simp [hr] at hsaved

/-- If no register is free, as many ranges are active as there are registers. -/
theorem card_active_eq [Heap] (k : Keeps pools base place done s) (m : Minimal pools done s)
    (hfree : ∀ r, ¬s.Free r) : s.active.toList.toFinset.card = pools.size := by
  rw [card_active k]
  refine congrArg Finset.card (Finset.Subset.antisymm (homes_subset k) fun h hh => ?_)
  rw [List.mem_toFinset, List.mem_append] at hh
  obtain ⟨v, hv, hhome⟩ := (m.held h hh).resolve_left (hfree h)
  exact List.mem_toFinset.2 (List.mem_map.2 ⟨v, hv, hhome⟩)

/-! ### A visit -/

theorem free_take {r h : Reg} (hne : h ≠ r) (hh : s.Free h) : (s.take r).Free h := by
  have hnumber := number_ne hne
  unfold take Free at *
  split <;> simpa [BitSet.contains_erase, hnumber] using hh

theorem toFinset_append_singleton (done : List LiveRange) (v : LiveRange) :
    (done ++ [v]).toFinset = insert v done.toFinset := by
  ext w
  simp

theorem proper_of_sorted {ranges : List LiveRange}
    (hsorted : ranges.Pairwise fun v w => v.start < w.start)
    (hforward : ∀ v ∈ ranges, v.start ≤ v.stop) : LiveRange.Proper ranges.toFinset where
  starts := by
    have hnodup : (ranges.map (·.start)).Nodup :=
      List.pairwise_map.2 (hsorted.imp fun h => Nat.ne_of_lt h)
    intro v hv w hw h
    exact List.inj_on_of_nodup_map hnodup (List.mem_toFinset.1 hv) (List.mem_toFinset.1 hw) h
  forward := fun v hv => hforward v (List.mem_toFinset.1 hv)

section Heaps

variable [Heap]

/-- A scan that has given up the ranges that have ended, and the range to visit next. -/
structure Turn (pools : Pools) (base : Int32) (done : List LiveRange) (v : LiveRange)
    (s : LinearScan) : Prop where
  keeps : Keeps pools base v.start done s
  minimal : Minimal pools done s
  alive : ∀ w ∈ s.active.toList, v.start < w.stop
  nodup : ((done ++ [v]).map (·.reg)).Nodup
  proper : LiveRange.Proper (insert v done.toFinset)
  later : ∀ w ∈ done, w.start < v.start

namespace Turn

variable {v old : LiveRange}

theorem new (t : Turn pools base done v s) : ∀ w ∈ done, w.reg ≠ v.reg := by
  have hnodup := t.nodup
  rw [List.map_append, List.nodup_append] at hnodup
  exact fun w hw => hnodup.2.2 _ (List.mem_map_of_mem hw) v.reg (by simp)

theorem eq_of_reg (t : Turn pools base done v s) {w : LiveRange} (hw : w ∈ done) (hold : old ∈ done)
    (h : w.reg = old.reg) : w = old := by
  have hnodup := t.nodup
  rw [List.map_append, List.nodup_append] at hnodup
  exact List.inj_on_of_nodup_map hnodup.1 hw hold h

theorem active_ne (t : Turn pools base done v s) : ∀ w ∈ s.active.toList, w.reg ≠ v.reg :=
  fun w hw => t.new w (t.keeps.places.active_done w hw).1

theorem visit (t : Turn pools base done v s) :
    LiveRange.Visit pools.size done.toFinset (s.placement.kept done) v :=
  ⟨t.minimal.best, t.proper, fun w hw => t.later w (List.mem_toFinset.1 hw)⟩

/-- If no register is free, and a range ends last among the active ones and the new one,
it may be dropped. -/
theorem drop (t : Turn pools base done v s) (hfree : ∀ r, ¬s.Free r) {x : LiveRange}
    (hx : x = v ∨ x ∈ s.active.toList)
    (hlast : ∀ w, w = v ∨ w ∈ s.active.toList → w.stop ≤ x.stop) :
    LiveRange.Best pools.size (done ++ [v]).toFinset
      ((insert v (s.placement.kept done)).erase x) := by
  have hactive := toFinset_active t.keeps t.alive
  have hmem : ∀ w, w ∈ insert v (LiveRange.alive (s.placement.kept done) v.start) ↔
    w = v ∨ w ∈ s.active.toList := by
    intro w
    rw [← hactive, Finset.mem_insert, List.mem_toFinset]
  rw [toFinset_append_singleton]
  exact t.visit.drop (hactive ▸ card_active_eq t.keeps t.minimal hfree) ((hmem x).2 hx) fun w hw =>
    hlast w ((hmem w).1 hw)

/-- The new range goes to the stack: it ends last. -/
theorem spill (t : Turn pools base done v s) (hfree : ∀ r, ¬s.Free r)
    (hlast : ∀ w ∈ s.active.toList, w.stop ≤ v.stop) :
    Minimal pools (done ++ [v]) { s with placement := s.placement.spill base v.reg } where
  made := t.minimal.made
  held := by
    intro h hh
    refine (t.minimal.held h hh).imp_right ?_
    rintro ⟨w, hw, rfl⟩
    exact ⟨w, hw, Placement.home_spill_of_ne _ base (t.active_ne w hw)⟩
  best := by
    have hbest := t.drop hfree (.inl rfl) fun w hw => hw.elim (fun h => h ▸ Nat.le_refl _) (hlast w)
    rw [Finset.erase_insert fun hmem => t.visit.not_mem (t.visit.best.subset hmem)] at hbest
    rw [Placement.kept_spill_new t.new]
    exact hbest

variable [LawfulHeap]

/-- The new range takes a free register. -/
theorem assign (t : Turn pools base done v s) {r : Reg} (hr : s.Free r) :
    Minimal pools (done ++ [v]) { s.take r with
      placement := (s.take r).placement.assign v.reg r,
      active := Heap.push endsBefore (s.take r).active v } where
  made := .push (by rw [take_active]; exact t.minimal.made) v
  held := by
    intro h hh
    simp only [(LawfulHeap.push_perm endsBefore _ v).mem_iff, take_active, List.mem_cons,
      Placement.home_assign]
    by_cases hhr : h = r
    · exact .inr ⟨v, .inl rfl, by rw [if_pos rfl, hhr]⟩
    · refine (t.minimal.held h hh).imp (free_take hhr) ?_
      rintro ⟨w, hw, rfl⟩
      exact ⟨w, .inr hw, by rw [if_neg (t.active_ne w hw), take_placement]⟩
  best := by
    rw [toFinset_append_singleton, take_placement, Placement.kept_assign t.new]
    exact t.visit.keep (toFinset_active t.keeps t.alive ▸ card_active_lt t.keeps hr)

/-- An active range goes to the stack, and the new one takes its register: it ended last. -/
theorem steal (t : Turn pools base done v s) (hfree : ∀ r, ¬s.Free r) {i : Nat}
    (hget : s.active.toList[i]? = some old) (hlast : ∀ w ∈ s.active.toList, w.stop ≤ old.stop)
    (hlt : v.stop ≤ old.stop) :
    Minimal pools (done ++ [v]) { s with
      placement := (s.placement.spill base old.reg).assign v.reg (s.placement.home old.reg)
      active := Heap.replace endsBefore s.active i v } := by
  have hold := List.mem_of_getElem? hget
  have hdone := (t.keeps.places.active_done old hold).1
  have hne : old ≠ v := fun heq => t.active_ne old hold (heq ▸ rfl)
  constructor
  case made => exact .replace t.minimal.made (by simpa using (List.getElem?_eq_some_iff.1 hget).1) v
  case held =>
    intro h hh
    have hmem : ∀ w, w ∈ old :: (Heap.replace endsBefore s.active i v).toList ↔
      w ∈ v :: s.active.toList :=
      fun w => (Heap.replace_perm endsBefore hget v).mem_iff
    refine (t.minimal.held h hh).imp_right ?_
    rintro ⟨w, hw, rfl⟩
    by_cases heq : w = old
    · refine ⟨v, ?_, by rw [Placement.home_assign, if_pos rfl, heq]⟩
      exact (List.mem_cons.1 ((hmem v).2 List.mem_cons_self)).resolve_left hne.symm
    · have hreg : w.reg ≠ old.reg :=
        fun h => heq (t.eq_of_reg (t.keeps.places.active_done w hw).1 hdone h)
      refine ⟨w, (List.mem_cons.1 ((hmem w).2 (List.mem_cons_of_mem v hw))).resolve_left heq, ?_⟩
      rw [Placement.home_assign, if_neg (t.active_ne w hw), Placement.home_spill_of_ne _ base hreg]
  case best =>
    have hbest := t.drop hfree (.inr hold) fun w hw => hw.elim (fun h => h ▸ hlt) (hlast w)
    rw [Finset.erase_insert_of_ne hne.symm] at hbest
    rw [Placement.kept_assign t.new, Placement.kept_spill fun w hw h => t.eq_of_reg hw hdone h]
    exact hbest

end Turn

variable [LawfulHeap]

/-- Visiting a range that no call lies in keeps what the scan knows. -/
theorem Minimal.visit (hpools : pools.Sound) (k : Keeps pools base place done s)
    (m : Minimal pools done s) {v : LiveRange} (hstart : place ≤ v.start)
    (hcross : v.crossesCall = false) (hnodup : ((done ++ [v]).map (·.reg)).Nodup)
    (hproper : LiveRange.Proper (done ++ [v]).toFinset) (hlater : ∀ w ∈ done, w.start < v.start) :
    Minimal pools (done ++ [v]) (s.visit base v) := by
  have t : Turn pools base done v (LinearScan.expire v.start s.active.size s) :=
    { keeps := (k.later hstart).expire hpools s.active.size
      minimal := m.expire v.start s.active.size
      alive := lt_stop_of_expire m.made (Nat.le_refl _)
      nodup := hnodup
      proper := toFinset_append_singleton done v ▸ hproper
      later := hlater }
  unfold LinearScan.visit
  dsimp only
  revert t
  generalize LinearScan.expire v.start s.active.size s = s
  intro t
  split
  · next r hchoose => exact t.assign ((free_of_choose? hchoose).imp_left fun h => h.1)
  · next hchoose =>
    have hfree := not_free_of_choose? hcross hchoose
    split
    · next hnone =>
      refine t.spill hfree fun w hw => ?_
      obtain ⟨old, i, hold, -⟩ := exists_victim? hcross hw
      rw [hnone] at hold
      simp at hold
    · next old i hvictim =>
      have hlast : ∀ w ∈ s.active.toList, w.stop ≤ old.stop := by
        intro w hw
        obtain ⟨old', i', hold, hle⟩ := exists_victim? hcross hw
        obtain ⟨rfl, rfl⟩ := Prod.mk.inj (Option.some.inj (hvictim.symm.trans hold))
        exact hle
      split
      · next hle => exact t.spill hfree fun w hw => (hlast w hw).trans hle
      · next hlt => exact t.steal hfree (active_of_victim? hvictim).1 hlast (Nat.not_le.1 hlt).le

/-- Visiting ranges that no call lies in, one after the other, keeps what the scan knows. -/
theorem Minimal.foldl (hpools : pools.Sound) (k : Keeps pools base place done s)
    (m : Minimal pools done s) {ranges : List LiveRange} (hstart : ∀ v ∈ ranges, place ≤ v.start)
    (hcross : ∀ v ∈ ranges, v.crossesCall = false)
    (hsorted : (done ++ ranges).Pairwise fun v w => v.start < w.start)
    (hnodup : ((done ++ ranges).map (·.reg)).Nodup)
    (hproper : LiveRange.Proper (done ++ ranges).toFinset) :
    Minimal pools (done ++ ranges) (ranges.foldl (LinearScan.visit base) s) := by
  induction ranges generalizing place done s with
  | nil => simpa using m
  | cons v ranges ih =>
    rw [List.append_cons] at hsorted hnodup hproper ⊢
    have hfirst : ((done ++ [v]).map (·.reg)).Nodup := by
      rw [List.map_append] at hnodup
      exact (List.nodup_append.1 hnodup).1
    have hproper' : LiveRange.Proper (done ++ [v]).toFinset :=
      hproper.subset fun w hw =>
        List.mem_toFinset.2 (List.mem_append_left ranges (List.mem_toFinset.1 hw))
    obtain ⟨hpre, -, hrest⟩ := List.pairwise_append.1 hsorted
    have hlater : ∀ w ∈ done, w.start < v.start :=
      fun w hw => (List.pairwise_append.1 hpre).2.2 w hw v (by simp)
    have hle := hstart v List.mem_cons_self
    exact ih (k.visit hpools hle hfirst)
      (m.visit hpools k hle (hcross v List.mem_cons_self) hfirst hproper' hlater)
      (fun w hw => (hrest v (by simp) w hw).le) (fun w hw => hcross w (List.mem_cons_of_mem v hw))
      hsorted hnodup hproper

/-- After a scan over ranges that no call lies in, the kept ranges are the best choice. -/
theorem minimal_run (hpools : pools.Sound) (base : Int32) {ranges : List LiveRange}
    (hsorted : ranges.Pairwise fun v w => v.start < w.start)
    (hforward : ∀ v ∈ ranges, v.start ≤ v.stop) (hnodup : (ranges.map (·.reg)).Nodup)
    (hcross : ∀ v ∈ ranges, v.crossesCall = false) :
    Minimal pools ranges (run pools base ranges) := by
  rw [run_eq_foldl pools base hsorted]
  exact (minimal_start pools).foldl hpools (keeps_start pools base) (fun v _ => Nat.zero_le _)
    hcross (by simpa using hsorted) (by simpa using hnodup)
    (by simpa using proper_of_sorted hsorted hforward)

end Heaps

end LinearScan

/-! ### Registers on the stack -/

/-- The registers on the stack are those of the ranges that are not kept. -/
theorem Placement.Keeps.length_spilled {pools : Pools} {base : Int32} {place : Nat}
    {done active : List LiveRange} {p : Placement} (k : Keeps pools base place done active p)
    (hnodup : (done.map (·.reg)).Nodup) :
    p.spilled.length = done.toFinset.card - (p.kept done).card := by
  have hregs : (p.spilled.map (·.1)).toFinset = (done.toFinset \ p.kept done).image (·.reg) := by
    ext r
    simp only [List.mem_toFinset, Finset.mem_image, Finset.mem_sdiff, kept,
      Finset.mem_filter, not_and]
    constructor
    · intro hr
      obtain ⟨v, hv, rfl⟩ := k.spilled_done r hr
      refine ⟨v, ⟨hv, fun _ => ?_⟩, rfl⟩
      rw [k.placed v hv]
      cases hslot : p.slot? v.reg with
      | none => exact absurd hr (not_mem_spilled hslot)
      | some o => simp
    · rintro ⟨v, ⟨hv, hhome⟩, rfl⟩
      have hplaced := k.placed v hv
      have hnone := hhome hv
      rw [Bool.not_eq_true] at hnone
      rw [hnone] at hplaced
      exact mem_spilled (by simpa using hplaced.symm)
  have hinj : Set.InjOn (fun v : LiveRange => v.reg) ↑(done.toFinset \ p.kept done) := by
    intro v hv w hw h
    rw [Finset.mem_coe, Finset.mem_sdiff, List.mem_toFinset] at hv hw
    exact List.inj_on_of_nodup_map hnodup hv.1 hw.1 h
  calc
    p.spilled.length = (p.spilled.map (·.1)).toFinset.card := by
      rw [List.toFinset_card_of_nodup k.spilled_nodup, List.length_map]
    _ = (done.toFinset \ p.kept done).card := by rw [hregs, Finset.card_image_of_injOn hinj]
    _ = done.toFinset.card - (p.kept done).card :=
      Finset.card_sdiff_of_subset (Finset.filter_subset _ _)

/-- Where no range lies across a call, allocation puts the least number of registers on the stack:
no smaller number of ranges can be removed so that no more of the rest conflict pairwise than
there are registers. -/
theorem spills_isLeast_of_ranges [Heap] [LawfulHeap] {pools : Pools} (hpools : pools.Sound)
    (base : Int32) {code : Listing} {ranges : List LiveRange} (live : LiveRanges code ranges)
    (hcross : ∀ v ∈ ranges, v.crossesCall = false) :
    IsLeast {m | ∃ removed ⊆ ranges.toFinset, removed.card = m ∧
        ¬LiveRange.Crowded (pools.size + 1) (ranges.toFinset \ removed)}
      (LinearScan.run pools base ranges).placement.spilled.length := by
  obtain ⟨last, k⟩ := LinearScan.keeps_run hpools base live.sorted live.nodup
  have m := LinearScan.minimal_run hpools base live.sorted live.start_le_stop live.nodup hcross
  rw [k.places.length_spilled live.nodup]
  exact m.best.isLeast

/-- Without calls, the fewest registers go to the stack. A listing without calls in which every
virtual register is written before it is read has live ranges, and allocation from the standard
pools puts on the stack the least number of ranges whose removal leaves no 17 that conflict
pairwise; so it puts none there if no 17 ranges conflict pairwise. -/
theorem allocate_spills_isLeast [Heap] [LawfulHeap] (base : Int32) (code : Listing)
    (hfirst : code.WritesFirst) (hcalls : ∀ i ∈ code, i.isCall = false) :
    ∃ ranges a, liveRanges code = .ok ranges ∧ LiveRange.Exact code ranges ∧
      allocate .standard base code = .ok a ∧
      IsLeast {m | ∃ removed ⊆ ranges.toFinset, removed.card = m ∧
      ¬LiveRange.Crowded 17 (ranges.toFinset \ removed)} a.spills ∧
      (¬LiveRange.Crowded 17 ranges.toFinset → a.spills = 0) := by
  obtain ⟨ranges, hranges, hexact⟩ := liveRanges_exact hfirst
  have hcross : ∀ v ∈ ranges, v.crossesCall = false := by
    intro v hv
    rw [← Bool.not_eq_true]
    intro hcross
    obtain ⟨p, i, -, -, hi, hcall⟩ := exists_call_of_crosses hranges hv hcross
    simp [hcalls i (List.mem_of_getElem? hi)] at hcall
  have hleast := spills_isLeast_of_ranges Pools.standard_sound base (liveRanges_spec hranges) hcross
  have hsize : Pools.standard.size = 16 := by decide
  rw [hsize] at hleast
  refine ⟨ranges, _, hranges, hexact, allocate_of_liveRanges .standard base hranges, hleast,
    fun hfits => ?_⟩
  exact Nat.le_zero.1 (hleast.2 ⟨∅, Finset.empty_subset _, rfl, by rwa [Finset.sdiff_empty]⟩)

/-- Seventeen values that are all read after the last of them is written. -/
def seventeenAtOnce : Listing :=
  ((List.range 17).map fun n => .li (.virtual n) (Int32.ofNat n)) ++ (List.range 17).map fun n =>
    .mv .a0 (.virtual n)

/-- One of seventeen values that are needed at once goes to the stack, and with none there
they would not fit. -/
theorem allocate_spills_isLeast_seventeenAtOnce :
    seventeenAtOnce.WritesFirst ∧ (∀ i ∈ seventeenAtOnce, i.isCall = false) ∧
      ∃ ranges, liveRanges seventeenAtOnce = .ok ranges ∧
        IsLeast {m | ∃ removed ⊆ ranges.toFinset, removed.card = m ∧
          ¬LiveRange.Crowded 17 (ranges.toFinset \ removed)} 1 := by
  have hfirst : seventeenAtOnce.WritesFirst := by decide +kernel
  have hcalls : ∀ i ∈ seventeenAtOnce, i.isCall = false := by decide +kernel
  have hspills : (allocate .standard 16 seventeenAtOnce).map Allocation.spills = .ok 1 := by
    decide +kernel
  obtain ⟨ranges, a, hranges, -, ha, hleast, -⟩ :=
    allocate_spills_isLeast 16 seventeenAtOnce hfirst hcalls
  rw [ha] at hspills
  rw [Except.ok.inj hspills] at hleast
  exact ⟨hfirst, hcalls, ranges, hranges, hleast⟩

end FunRiscv
