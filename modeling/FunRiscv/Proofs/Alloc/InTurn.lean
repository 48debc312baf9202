import Mathlib
import FunRiscv.Proofs.Alloc.Assignment

/-!
# Registers that are used in turn

Code that is done with one virtual register before it comes to the next, and that keeps none across
a call, needs one machine register at a time.

* `Listing.inTurn`: the virtual registers of code come in the order of their numbers, other
  ones after each call.
* `LinearScan.Idle`: a scan that has put nothing on the stack and taken no preserved register.
  `LinearScan.Idle.visit`: a range that starts when the one before has ended, and in which no
  call lies, leaves it so.
* `allocate_inTurn`: allocation for such code.
-/

namespace FunRiscv

/-! ### Turns -/

/-- The virtual registers of an instruction. -/
def Instr.virtuals (i : Instr) : List Reg := (i.dest :: i.reads).filter Reg.isVirtual

/-- The number from which on the virtual registers after an instruction have to be. -/
def Instr.turn (n : Nat) (i : Instr) : Nat :=
  i.virtuals.foldl (fun m r => max m r.number) n + if i.isCall then 1 else 0

/-- Whether the virtual registers of code come in the order of their numbers, from a number on, and
other ones after each call. -/
def Listing.inTurn : Nat → Listing → Bool
  | _, [] => true
  | n, i :: code =>
    i.virtuals.all (fun r => decide (n ≤ r.number)) && Listing.inTurn (i.turn n) code

section Turns

variable {n p q k : Nat} {i : Instr} {code : Listing} {r r' : Reg}

theorem le_foldl_max (rs : List Reg) (n : Nat) : n ≤ rs.foldl (fun m r => max m r.number) n ∧
    ∀ r ∈ rs, r.number ≤ rs.foldl (fun m r => max m r.number) n := by
  induction rs generalizing n with
  | nil => simp
  | cons r rs ih =>
    obtain ⟨hn, hrs⟩ := ih (max n r.number)
    rw [List.foldl_cons, List.forall_mem_cons]
    exact ⟨(le_max_left _ _).trans hn, (le_max_right _ _).trans hn, hrs⟩

theorem Instr.le_turn (n : Nat) (i : Instr) : n + (if i.isCall then 1 else 0) ≤ i.turn n :=
  Nat.add_le_add_right (le_foldl_max i.virtuals n).1 _

theorem Instr.number_le_turn (n : Nat) (hr : r ∈ i.virtuals) :
    r.number + (if i.isCall then 1 else 0) ≤ i.turn n :=
  Nat.add_le_add_right ((le_foldl_max i.virtuals n).2 r hr) _

theorem Instr.mem_virtuals : r ∈ i.virtuals ↔ r.isVirtual = true ∧ (i.dest = r ∨ r ∈ i.reads) := by
  rw [virtuals, List.mem_filter, List.mem_cons, eq_comm (a := r)]
  exact and_comm

theorem Listing.mem_placesOf (hr : r.isVirtual = true) :
    p ∈ code.placesOf r ↔ ∃ i, code[p]? = some i ∧ r ∈ i.virtuals := by
  simp only [Listing.placesOf, Set.mem_ofPred_eq, Instr.mem_virtuals, hr, true_and]

/-- After a call come registers of greater numbers only. -/
theorem Listing.inTurn_after (h : code.inTurn n = true) (hr : r.isVirtual = true)
    (hp : p ∈ code.placesOf r) :
    n ≤ r.number ∧ ∀ k < p, ∀ i, code[k]? = some i → i.isCall = true → n < r.number := by
  induction code generalizing n p with
  | nil => obtain ⟨i, hi, -⟩ := hp; simp at hi
  | cons j code ih =>
    rw [inTurn, Bool.and_eq_true, List.all_eq_true] at h
    obtain ⟨i, hi, hmem⟩ := (mem_placesOf hr).1 hp
    cases p with
    | zero =>
      obtain rfl : j = i := by simpa using hi
      exact ⟨by simpa using h.1 r hmem, fun k hk => absurd hk (Nat.not_lt_zero k)⟩
    | succ p =>
      obtain ⟨hle, hafter⟩ := ih h.2 ((mem_placesOf hr).2 ⟨i, by simpa using hi, hmem⟩)
      have hturn := j.le_turn n
      refine ⟨by omega, fun k hk i hi hcall => ?_⟩
      cases k with
      | zero =>
        obtain rfl : j = i := by simpa using hi
        rw [if_pos hcall] at hturn
        omega
      | succ k =>
        have := hafter k (Nat.lt_of_succ_lt_succ hk) i (by simpa using hi) hcall
        omega

/-- A register that comes later has no smaller number, and a greater one if there is a
call between. -/
theorem Listing.inTurn_later (h : code.inTurn n = true) (hr : r.isVirtual = true)
    (hr' : r'.isVirtual = true) (hpq : p < q) (hp : p ∈ code.placesOf r)
    (hq : q ∈ code.placesOf r') :
    r.number ≤ r'.number ∧
      ∀ k, p < k → k < q → ∀ i, code[k]? = some i → i.isCall = true → r.number < r'.number := by
  induction code generalizing n p q with
  | nil => obtain ⟨i, hi, -⟩ := hp; simp at hi
  | cons j code ih =>
    rw [inTurn, Bool.and_eq_true] at h
    obtain ⟨i, hi, hmem⟩ := (mem_placesOf hr).1 hp
    obtain ⟨i', hi', hmem'⟩ := (mem_placesOf hr').1 hq
    obtain ⟨q, rfl⟩ : ∃ m, q = m + 1 := ⟨q - 1, by omega⟩
    have htail : q ∈ Listing.placesOf code r' :=
      (mem_placesOf hr').2 ⟨i', by simpa using hi', hmem'⟩
    cases p with
    | zero =>
      obtain rfl : j = i := by simpa using hi
      obtain ⟨hle, hafter⟩ := inTurn_after h.2 hr' htail
      have hturn := Instr.number_le_turn n hmem
      refine ⟨by omega, fun k hk hkq i hi hcall => ?_⟩
      obtain ⟨k, rfl⟩ : ∃ m, k = m + 1 := ⟨k - 1, by omega⟩
      have := hafter k (by omega) i (by simpa using hi) hcall
      omega
    | succ p =>
      obtain ⟨hle, hbetween⟩ :=
        ih h.2 (Nat.lt_of_succ_lt_succ hpq) ((mem_placesOf hr).2 ⟨i, by simpa using hi, hmem⟩) htail
      refine ⟨hle, fun k hk hkq i hi hcall => ?_⟩
      obtain ⟨k, rfl⟩ : ∃ m, k = m + 1 := ⟨k - 1, by omega⟩
      exact hbetween k (by omega) (by omega) i (by simpa using hi) hcall

end Turns

/-! ### Ranges -/

/-- A range is marked only if there is a call strictly inside. -/
theorem exists_call_of_crosses {code : Listing} {ranges : List LiveRange}
    (h : liveRanges code = .ok ranges) {v : LiveRange} (hv : v ∈ ranges)
    (hcross : v.crossesCall = true) :
    ∃ p i, v.start < p ∧ p < v.stop ∧ code[p]? = some i ∧ i.isCall = true := by
  unfold liveRanges at h
  cases hscan : LiveRange.scan [] 0 code with
  | error e =>
    rw [hscan] at h
    cases h
  | ok scanned =>
    rw [hscan] at h
    obtain rfl := Except.ok.inj h
    obtain ⟨w, -, rfl⟩ := List.mem_map.1 hv
    obtain ⟨p, hlow, hhigh, hp⟩ := BitSet.anyFrom_eq_true.1 hcross
    rcases contains_callsFrom.1 hp with hempty | ⟨-, i, hi, hcall⟩
    · simp [BitSet.contains_empty] at hempty
    · exact ⟨p, i, hlow, hhigh, by simpa using hi, hcall⟩

/-- Ranges of registers that are used in turn: each starts when the one before has ended, and no
call lies in one. -/
theorem ranges_inTurn {code : Listing} {ranges : List LiveRange} {n : Nat}
    (hturn : code.inTurn n = true) (h : liveRanges code = .ok ranges)
    (hexact : LiveRange.Exact code ranges) :
    (ranges.Pairwise fun v w => v.stop ≤ w.start) ∧ ∀ v ∈ ranges, v.crossesCall = false := by
  have live := liveRanges_spec h
  have hvirtual : ∀ v ∈ ranges, v.reg.isVirtual = true := fun v hv => (live.writes_start v hv).1
  constructor
  · refine live.sorted.imp_of_mem fun {v w} hv hw hlt => ?_
    by_contra hoverlap
    -- A register between two places of another has the number of that one.
    have hle := (Listing.inTurn_later hturn (hvirtual v hv) (hvirtual w hw) hlt
      (hexact.first v hv).1 (hexact.first w hw).1).1
    have hge := (Listing.inTurn_later hturn (hvirtual w hw) (hvirtual v hv)
      (Nat.lt_of_not_le hoverlap) (hexact.first w hw).1 (hexact.last v hv).1).1
    have hreg : v.reg = w.reg := by
      cases hv' : v.reg
      cases hw' : w.reg
      rw [hv', hw'] at hle hge
      exact congrArg Reg.mk (Nat.le_antisymm hle hge)
    rw [List.inj_on_of_nodup_map live.nodup hv hw hreg] at hlt
    exact Nat.lt_irrefl _ hlt
  · intro v hv
    rw [← Bool.not_eq_true]
    intro hcross
    obtain ⟨p, i, hstart, hstop, hi, hcall⟩ := exists_call_of_crosses h hv hcross
    have hlt := (Listing.inTurn_later hturn (hvirtual v hv) (hvirtual v hv) (hstart.trans hstop)
      (hexact.first v hv).1 (hexact.last v hv).1).2 p hstart hstop i hi hcall
    exact Nat.lt_irrefl _ hlt

/-! ### The scan -/

namespace LinearScan

/-- A scan that has put nothing on the stack and taken no preserved register. At most one range
holds a register, and it has ended at a place; then a register is free. -/
structure Idle (place : Nat) (s : LinearScan) : Prop where
  spilled : s.placement.spilled = []
  used : s.used = .empty
  temps : ∀ n, s.freeTemps.contains n = true → (⟨n⟩ : Reg).isSaved = false
  ready : (s.active = #[] ∧ ∃ n, s.freeTemps.contains n = true) ∨
    ∃ v, s.active = #[v] ∧ v.stop ≤ place ∧ (s.placement.home v.reg).isSaved = false

variable {pools : Pools} {base : Int32} {place : Nat} {s : LinearScan}

theorem idle_start (hpools : pools.Sound) (htemps : pools.temps ≠ []) : Idle 0 (start pools) where
  spilled := rfl
  used := rfl
  temps n hn := hpools.temps _ ((keeps_start pools 0).temps n hn)
  ready := by
    obtain ⟨r, hr⟩ := List.exists_mem_of_ne_nil _ htemps
    refine .inl ⟨rfl, r.number, ?_⟩
    simpa [start, BitSet.contains_ofList] using ⟨r, hr, rfl⟩

/-- The range that has ended gives its register back. -/
theorem Idle.expire [Heap] [LawfulHeap] (h : Idle place s) {next : Nat} (hnext : place ≤ next) :
    let t := LinearScan.expire next s.active.size s
    t.placement.spilled = [] ∧ t.used = .empty ∧ t.active = #[] ∧
      (∀ n, t.freeTemps.contains n = true → (⟨n⟩ : Reg).isSaved = false) ∧
      ∃ n, t.freeTemps.contains n = true := by
  obtain ⟨hspilled, hused, htemps, ⟨hactive, hfree⟩ | ⟨v, hactive, hstop, hhome⟩⟩ := h
  · simp only [hactive]
    exact ⟨hspilled, hused, hactive, htemps, hfree⟩
  · have hexpire : LinearScan.expire next s.active.size s =
      ({ s with active := #[] } : LinearScan).release (s.placement.home v.reg) := by
      rw [hactive]
      show LinearScan.expire next 1 s = _
      rw [LinearScan.expire, hactive, Heap.pop?_singleton]
      dsimp only
      rw [if_pos (hstop.trans hnext), LinearScan.expire]
    dsimp only
    rw [hexpire, release, if_neg (by simp [hhome])]
    refine ⟨hspilled, hused, rfl, fun n hn => ?_,
      (s.placement.home v.reg).number, by simp [BitSet.contains_insert]⟩
    rw [BitSet.contains_insert, Bool.or_eq_true, decide_eq_true_eq] at hn
    rcases hn with rfl | hn
    · exact hhome
    · exact htemps n hn

theorem first?_of_contains {t : BitSet} {n : Nat} (h : t.contains n = true) :
    ∃ m, t.first? = some m := by
  have hmem := BitSet.mem_toList.2 h
  unfold BitSet.first?
  cases hlist : t.toList with
  | nil =>
    rw [hlist] at hmem
    cases hmem
  | cons m ms => exact ⟨m, rfl⟩

section Run

variable [Heap] [LawfulHeap]

/-- A range without a call inside that starts when the one before has ended takes a register that
calls may change. -/
theorem Idle.visit (h : Idle place s) {v : LiveRange} (hstart : place ≤ v.start)
    (hcross : v.crossesCall = false) : Idle v.stop (s.visit base v) := by
  obtain ⟨hspilled, hused, hactive, htemps, n, hn⟩ := h.expire hstart
  obtain ⟨m, hm⟩ := first?_of_contains hn
  have hsaved := htemps m (BitSet.contains_of_first? hm)
  unfold LinearScan.visit
  generalize LinearScan.expire v.start s.active.size s = t at *
  have hchoose : t.choose? v = some ⟨m⟩ := by
    unfold choose?
    rw [hcross, if_neg Bool.false_ne_true, hm]
  dsimp only
  rw [hchoose]
  dsimp only
  rw [take, if_neg (by simp [hsaved]), hactive, Heap.push_empty]
  refine ⟨hspilled, hused, fun k hk => ?_, .inr ⟨v, rfl, Nat.le_refl _, ?_⟩⟩
  · rw [BitSet.contains_erase, Bool.and_eq_true] at hk
    exact htemps k hk.2
  · rw [Placement.home_eq, Placement.home?_assign, if_pos rfl]
    exact hsaved

theorem Idle.foldl (h : Idle place s) {ranges : List LiveRange}
    (hstart : ∀ v ∈ ranges, place ≤ v.start) (hapart : ranges.Pairwise fun v w => v.stop ≤ w.start)
    (hcross : ∀ v ∈ ranges, v.crossesCall = false) :
    ∃ last, Idle last (ranges.foldl (LinearScan.visit base) s) := by
  induction ranges generalizing place s with
  | nil => exact ⟨place, h⟩
  | cons v ranges ih =>
    rw [List.forall_mem_cons] at hstart hcross
    rw [List.pairwise_cons] at hapart
    exact ih (h.visit hstart.1 hcross.1) hapart.1 hapart.2 hcross.2

/-- Ranges one after the other, in which no call lies, need no word on the stack and no
preserved register. -/
theorem idle_run (hpools : pools.Sound) (htemps : pools.temps ≠ []) (base : Int32)
    {ranges : List LiveRange} (hsorted : ranges.Pairwise fun v w => v.start < w.start)
    (hapart : ranges.Pairwise fun v w => v.stop ≤ w.start)
    (hcross : ∀ v ∈ ranges, v.crossesCall = false) :
    (run pools base ranges).placement.spilled = [] ∧ (run pools base ranges).used = .empty := by
  rw [run_eq_foldl pools base hsorted]
  obtain ⟨last, h⟩ : ∃ last, Idle last (ranges.foldl (LinearScan.visit base) (start pools)) :=
    (idle_start hpools htemps).foldl (fun v _ => Nat.zero_le _) hapart hcross
  exact ⟨h.spilled, h.used⟩

end Run

end LinearScan

/-- **Registers that are used in turn need no memory.** If code is done with each virtual register
before it comes to the next, and with all before a call, then allocation puts none on the stack and
takes no preserved register. -/
theorem allocate_inTurn [Heap] [LawfulHeap] {pools : Pools} (hpools : pools.Sound)
    (htemps : pools.temps ≠ []) (base : Int32) {code : Listing} {n : Nat}
    (hfirst : code.WritesFirst) (hturn : code.inTurn n = true) :
    ∃ a, allocate pools base code = .ok a ∧ a.spills = 0 ∧ a.saved = [] := by
  obtain ⟨ranges, hranges, hexact⟩ := liveRanges_exact hfirst
  obtain ⟨hapart, hcross⟩ := ranges_inTurn hturn hranges hexact
  obtain ⟨hspilled, hused⟩ :=
    LinearScan.idle_run hpools htemps base (liveRanges_spec hranges).sorted hapart hcross
  refine ⟨_, allocate_of_liveRanges pools base hranges, congrArg List.length hspilled, ?_⟩
  dsimp only
  rw [hused]
  rfl

end FunRiscv
