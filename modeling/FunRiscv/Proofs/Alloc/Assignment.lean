import Mathlib
import FunRiscv.Proofs.Alloc.HeapOrder
import FunRiscv.Proofs.Alloc.Simulation

/-!
# Allocation is a valid assignment

* `Listing.placesOf`: where a register occurs. `Listing.WritesFirst`: every virtual register is
  written before it is read.
* `LiveRange.Exact`: ranges that go from the first place of their register to the last.
  `liveRanges_exact`: a listing that writes registers first has such ranges.
* `LinearScan.Owned`: a preserved register that the scan took at some time is still the home of some
  register. It stays so because a register changes hands only when another range takes it over.
* `Placement.realize_machine`: placed code is on machine registers.
* `Allocation.Valid`: what an assignment has to obey. `allocate_valid`: allocation gives one,
  whatever lawful heap it uses.
* `allocate_offsets_wrap`: the offsets of words on the stack are numbers of 32 bits.
-/

namespace FunRiscv

/-- The places where a register is written or read. -/
def Listing.placesOf (code : Listing) (r : Reg) : Set Nat :=
  {p | ∃ i, code[p]? = some i ∧ (i.dest = r ∨ r ∈ i.reads)}

/-- Every virtual register that an instruction reads is written by an earlier one. -/
def Listing.WritesFirst (code : Listing) : Prop :=
  ∀ (p : Nat) (i : Instr), code[p]? = some i →
    ∀ r ∈ i.reads, r.isVirtual = true → ∃ j ∈ code.take p, j.dest = r

instance (code : Listing) : Decidable code.WritesFirst :=
  decidable_of_iff (∀ p : Fin (List.length code), ∀ r ∈ (List.get code p).reads,
    r.isVirtual = true → ∃ j ∈ code.take p, j.dest = r) <| by
    constructor
    · intro h p i hi
      obtain ⟨hp, rfl⟩ := List.getElem?_eq_some_iff.1 hi
      exact h ⟨p, hp⟩
    · intro h p
      exact h p (List.get code p) (List.getElem?_eq_getElem p.isLt)

theorem Listing.placesOf_append {code : Listing} {r : Reg} {p : Nat} (h : p ∈ code.placesOf r)
    (rest : Listing) : p ∈ Listing.placesOf (code ++ rest) r := by
  obtain ⟨i, hi, hr⟩ := h
  exact ⟨i, by rw [List.getElem?_append_left (List.getElem?_eq_some_iff.1 hi).1]; exact hi, hr⟩

/-! ### Live ranges -/

namespace LiveRange

theorem mem_extend {ranges : List LiveRange} {r : Reg} {place : Nat} {v : LiveRange}
    (h : v ∈ extend ranges r place) : v ∈ ranges ∨ v.stop = place ∧ v.reg = r := by
  obtain ⟨w, hw, rfl⟩ := List.mem_map.1 h
  split
  · next hof => exact .inr ⟨rfl, by simpa [isOf] using hof⟩
  · exact .inl hw

theorem mem_read {ranges ranges' : List LiveRange} {r : Reg} {place : Nat}
    (h : read place ranges r = .ok ranges') {v : LiveRange} (hv : v ∈ ranges') :
    v ∈ ranges ∨ v.stop = place ∧ v.reg = r := by
  unfold read at h
  split at h
  · obtain rfl := Except.ok.inj h
    exact .inl hv
  · split at h
    · obtain rfl := Except.ok.inj h
      exact mem_extend hv
    · cases h

theorem mem_foldlM_read {place : Nat} {rs : List Reg} {ranges ranges' : List LiveRange}
    (h : rs.foldlM (read place) ranges = .ok ranges') {v : LiveRange} (hv : v ∈ ranges') :
    v ∈ ranges ∨ v.stop = place ∧ v.reg ∈ rs := by
  induction rs generalizing ranges with
  | nil =>
    obtain rfl : ranges = ranges' := by simpa [pure, Except.pure] using h
    exact .inl hv
  | cons r rs ih =>
    rw [List.foldlM_cons] at h
    cases hread : read place ranges r with
    | error e =>
      rw [hread] at h
      cases h
    | ok next =>
      rw [hread] at h
      rcases ih h with hmem | ⟨hstop, hmem⟩
      · exact (mem_read hread hmem).imp_right fun ⟨hstop, hreg⟩ => ⟨hstop, by simp [hreg]⟩
      · exact .inr ⟨hstop, List.mem_cons_of_mem r hmem⟩

theorem mem_write {ranges : List LiveRange} {r : Reg} {place : Nat} {v : LiveRange}
    (hv : v ∈ write place ranges r) : v ∈ ranges ∨ v.stop = place ∧ v.reg = r := by
  unfold write at hv
  split at hv
  · exact .inl hv
  · split at hv
    · exact mem_extend hv
    · rcases List.mem_cons.1 hv with rfl | hv
      · exact .inr ⟨rfl, rfl⟩
      · exact .inl hv

/-- A range that an instruction changes ends there, and the instruction mentions its register. -/
theorem mem_step {ranges ranges' : List LiveRange} {place : Nat} {i : Instr}
    (h : step ranges place i = .ok ranges') {v : LiveRange} (hv : v ∈ ranges') :
    v ∈ ranges ∨ v.stop = place ∧ (i.dest = v.reg ∨ v.reg ∈ i.reads) := by
  unfold step at h
  cases hread : i.reads.foldlM (read place) ranges with
  | error e =>
    rw [hread] at h
    cases h
  | ok next =>
    rw [hread] at h
    obtain rfl : write place next i.dest = ranges' := by
      simpa [bind, Except.bind, pure, Except.pure] using h
    rcases mem_write hv with hv | ⟨hstop, hreg⟩
    · exact (mem_foldlM_read hread hv).imp_right fun ⟨hstop, hreg⟩ => ⟨hstop, .inr hreg⟩
    · exact .inr ⟨hstop, .inl hreg.symm⟩

/-- Every range ends at a place where its register occurs. -/
def EndsInUse (code : Listing) (ranges : List LiveRange) : Prop :=
  ∀ v ∈ ranges, v.stop ∈ code.placesOf v.reg

theorem EndsInUse.step {code : Listing} {ranges ranges' : List LiveRange}
    (h : EndsInUse code ranges) {i : Instr}
    (hstep : LiveRange.step ranges code.length i = .ok ranges') :
    EndsInUse (code ++ [i]) ranges' := by
  intro v hv
  rcases mem_step hstep hv with hv | ⟨hstop, hreg⟩
  · exact Listing.placesOf_append (h v hv) [i]
  · exact ⟨i, by simp [hstop], hreg⟩

/-- Registers that have ranges can be read. -/
theorem foldlM_read_ok {place : Nat} {rs : List Reg} {ranges : List LiveRange}
    (h : ∀ r ∈ rs, r.isVirtual = true → ∃ v ∈ ranges, v.reg = r) :
    ∃ ranges', rs.foldlM (read place) ranges = .ok ranges' := by
  induction rs generalizing ranges with
  | nil => exact ⟨ranges, rfl⟩
  | cons r rs ih =>
    rw [List.foldlM_cons]
    by_cases hr : r.isVirtual = true
    · have hread : read place ranges r = .ok (extend ranges r place) := by
        simp [read, hr, any_isOf.2 (h r List.mem_cons_self hr)]
      rw [hread]
      refine ih fun q hq hqv => ?_
      obtain ⟨v, hv, rfl⟩ := h q (List.mem_cons_of_mem r hq) hqv
      rw [extend_eq_map_touch]
      exact ⟨_, List.mem_map_of_mem hv, touch_reg _ _ _⟩
    · have hread : read place ranges r = .ok ranges := by simp [read, hr]
      rw [hread]
      exact ih fun q hq => h q (List.mem_cons_of_mem r hq)

/-- An instruction whose virtual registers have all been written extends the ranges. -/
theorem Describes.step_ok {code : Listing} {ranges : List LiveRange} (h : Describes code ranges)
    {i : Instr} (hwritten : ∀ r ∈ i.reads, r.isVirtual = true → ∃ j ∈ code, j.dest = r) :
    ∃ ranges', LiveRange.step ranges code.length i = .ok ranges' := by
  have hread : ∀ r ∈ i.reads, r.isVirtual = true → ∃ v ∈ ranges, v.reg = r := by
    intro r hr hv
    obtain ⟨j, hj, rfl⟩ := hwritten r hr hv
    obtain ⟨q, hq⟩ := List.mem_iff_getElem?.1 hj
    obtain ⟨v, hv, hreg, -⟩ := h.writes q j hq hv
    exact ⟨v, hv, hreg⟩
  obtain ⟨next, hnext⟩ : ∃ next, i.reads.foldlM (read code.length) ranges = .ok next :=
    foldlM_read_ok hread
  exact ⟨write code.length next i.dest, by unfold LiveRange.step; rw [hnext]; rfl⟩

/-- A listing that writes registers first can be scanned, and every range ends in use. -/
theorem Describes.scan_ok {pre code : Listing} {ranges : List LiveRange} (h : Describes pre ranges)
    (he : EndsInUse pre ranges) (hfirst : Listing.WritesFirst (pre ++ code)) :
    ∃ ranges', LiveRange.scan ranges pre.length code = .ok ranges' ∧
      EndsInUse (pre ++ code) ranges' := by
  induction code generalizing pre ranges with
  | nil => exact ⟨ranges, rfl, by simpa using he⟩
  | cons i code ih =>
    have hi : (pre ++ i :: code)[pre.length]? = some i := by simp
    have hwritten := hfirst pre.length i hi
    rw [List.take_left] at hwritten
    obtain ⟨next, hstep⟩ := h.step_ok hwritten
    have hsplit : pre ++ i :: code = pre ++ [i] ++ code := by simp
    rw [hsplit] at hfirst ⊢
    obtain ⟨ranges', hscan, hends⟩ := ih (h.step hstep) (he.step hstep) hfirst
    refine ⟨ranges', ?_, hends⟩
    rw [LiveRange.scan, hstep]
    rw [List.length_append, List.length_singleton] at hscan
    exact hscan

/-- Ranges of distinct registers, one for each virtual register that occurs, from its first
place to its last. -/
structure Exact (code : Listing) (ranges : List LiveRange) : Prop where
  nodup : (ranges.map (·.reg)).Nodup
  registers : ∀ r, (∃ v ∈ ranges, v.reg = r) ↔ r.isVirtual = true ∧ (code.placesOf r).Nonempty
  first : ∀ v ∈ ranges, IsLeast (code.placesOf v.reg) v.start
  last : ∀ v ∈ ranges, IsGreatest (code.placesOf v.reg) v.stop

end LiveRange

/-- Every place of a virtual register lies in its range. -/
theorem LiveRanges.covers {code : Listing} {ranges : List LiveRange} (live : LiveRanges code ranges)
    {r : Reg} (hr : r.isVirtual = true) {p : Nat} (hp : p ∈ code.placesOf r) :
    ∃ v ∈ ranges, v.reg = r ∧ v.start ≤ p ∧ p ≤ v.stop := by
  obtain ⟨i, hi, rfl | hread⟩ := hp
  · exact live.writes p i hi hr
  · obtain ⟨v, hv, hreg, hstart, hstop⟩ := live.reads p i r hi hread hr
    exact ⟨v, hv, hreg, hstart.le, hstop⟩

theorem liveRanges_eq_ok {code : Listing} {scanned : List LiveRange}
    (h : LiveRange.scan [] 0 code = .ok scanned) :
    liveRanges code = .ok (scanned.reverse.map fun v =>
      { v with crossesCall := (callsFrom 0 .empty code).anyFrom (v.start + 1) v.stop }) := by
  unfold liveRanges
  rw [h]
  rfl

/-- A listing that writes registers first has exact live ranges. -/
theorem liveRanges_exact {code : Listing} (hfirst : code.WritesFirst) :
    ∃ ranges, liveRanges code = .ok ranges ∧ LiveRange.Exact code ranges := by
  have hends : LiveRange.EndsInUse [] [] := fun v hv => by simp at hv
  obtain ⟨scanned, hscan, hends⟩ := LiveRange.describes_nil.scan_ok hends hfirst
  rw [List.nil_append] at hends
  refine ⟨_, liveRanges_eq_ok hscan, ?_⟩
  have live := liveRanges_spec (liveRanges_eq_ok hscan)
  have hlast : ∀ v ∈ scanned.reverse.map fun v =>
      { v with crossesCall := (callsFrom 0 .empty code).anyFrom (v.start + 1) v.stop },
        v.stop ∈ code.placesOf v.reg := by
    intro v hv
    obtain ⟨w, hw, rfl⟩ := List.mem_map.1 hv
    exact hends w (List.mem_reverse.1 hw)
  revert live hlast
  generalize (scanned.reverse.map fun v =>
    { v with crossesCall := (callsFrom 0 .empty code).anyFrom (v.start + 1) v.stop }) = ranges
  intro live hlast
  -- Registers have one range each, so the range that covers a place of a register is its range.
  have hcovers : ∀ v ∈ ranges, ∀ p ∈ code.placesOf v.reg, v.start ≤ p ∧ p ≤ v.stop := by
    intro v hv p hp
    obtain ⟨w, hw, hreg, hbounds⟩ := live.covers (live.writes_start v hv).1 hp
    rwa [List.inj_on_of_nodup_map live.nodup hw hv hreg] at hbounds
  refine ⟨live.nodup, ?_, ?_, ?_⟩
  · intro r
    constructor
    · rintro ⟨v, hv, rfl⟩
      exact ⟨(live.writes_start v hv).1, v.stop, hlast v hv⟩
    · rintro ⟨hr, p, hp⟩
      obtain ⟨v, hv, hreg, -⟩ := live.covers hr hp
      exact ⟨v, hv, hreg⟩
  · intro v hv
    obtain ⟨-, i, hi, hdest⟩ := live.writes_start v hv
    exact ⟨⟨i, hi, .inl hdest⟩, fun p hp => (hcovers v hv p hp).1⟩
  · intro v hv
    exact ⟨hlast v hv, fun p hp => (hcovers v hv p hp).2⟩

/-! ### Registers that were taken -/

namespace LinearScan

variable {pools : Pools} {base : Int32} {place : Nat} {done : List LiveRange} {s : LinearScan}

/-- Every preserved register that was chosen at some time is the home of a register. -/
def Owned (s : LinearScan) : Prop :=
  ∀ n, s.used.contains n = true → ∃ r, s.placement.home? r = some ⟨n⟩

theorem used_of_take {r : Reg} {n : Nat} (h : (s.take r).used.contains n = true) :
    n = r.number ∨ s.used.contains n = true := by
  unfold take at h
  split at h
  · simpa [BitSet.contains_insert] using h
  · exact .inr h

section Run

variable [Heap]

theorem expire_keeps_used (place count : Nat) (s : LinearScan) :
    (expire place count s).used = s.used ∧ (expire place count s).placement = s.placement := by
  induction count generalizing s with
  | zero => exact ⟨rfl, rfl⟩
  | succ count ih =>
    rw [expire]
    split
    · split
      · obtain ⟨hused, hplacement⟩ := ih _
        rw [hused, hplacement, release_used, release_placement]
        exact ⟨rfl, rfl⟩
      · exact ⟨rfl, rfl⟩
    · exact ⟨rfl, rfl⟩

variable [LawfulHeap]

/-- Visiting a range leaves no chosen register without an owner: one that is stolen goes to
the range visited. -/
theorem Owned.visit (hpools : pools.Sound) (k : Keeps pools base place done s) (ho : s.Owned)
    {v : LiveRange} (hstart : place ≤ v.start) (hnew : ∀ w ∈ done, w.reg ≠ v.reg) :
    (s.visit base v).Owned := by
  unfold LinearScan.visit
  dsimp only
  have k := (k.later hstart).expire hpools s.active.size
  have ho : (LinearScan.expire v.start s.active.size s).Owned := by
    obtain ⟨hused, hplacement⟩ := expire_keeps_used v.start s.active.size s
    unfold Owned
    rw [hused, hplacement]
    exact ho
  revert k ho
  generalize LinearScan.expire v.start s.active.size s = s
  intro k ho
  -- The range visited has no home yet, so the owners so far are others.
  have howner : ∀ n, s.used.contains n = true →
    ∃ r, r ≠ v.reg ∧ s.placement.home? r = some ⟨n⟩ := by
    intro n hn
    obtain ⟨r, hr⟩ := ho n hn
    refine ⟨r, ?_, hr⟩
    rintro rfl
    rw [(k.places.absent v.reg hnew).1] at hr
    cases hr
  have hspill : Owned { s with placement := s.placement.spill base v.reg } := by
    intro n hn
    obtain ⟨r, hne, hr⟩ := howner n hn
    exact ⟨r, by rw [Placement.home?_spill, if_neg hne]; exact hr⟩
  split
  · next r hchoose =>
    intro n hn
    rcases used_of_take hn with rfl | hn
    · exact ⟨v.reg, by rw [Placement.home?_assign, if_pos rfl]⟩
    · obtain ⟨q, hne, hq⟩ := howner n hn
      exact ⟨q, by rw [Placement.home?_assign, if_neg hne, take_placement]; exact hq⟩
  · split
    · exact hspill
    · next old i hvictim =>
      split
      · exact hspill
      · obtain ⟨h, hh⟩ := Option.isSome_iff_exists.1
          (k.places.active_done old (List.mem_of_getElem? (active_of_victim? hvictim).1)).2
        rw [Placement.home_of_home? hh]
        intro n hn
        obtain ⟨r, hne, hr⟩ := howner n hn
        by_cases hold : r = old.reg
        · subst hold
          obtain rfl : h = ⟨n⟩ := Option.some.inj (hh.symm.trans hr)
          exact ⟨v.reg, by rw [Placement.home?_assign, if_pos rfl]⟩
        · exact ⟨r, by rw [Placement.home?_assign, if_neg hne, Placement.home?_spill,
            if_neg hold]; exact hr⟩

theorem Owned.foldl (hpools : pools.Sound) (k : Keeps pools base place done s) (ho : s.Owned)
    {ranges : List LiveRange} (hstart : ∀ v ∈ ranges, place ≤ v.start)
    (hsorted : ranges.Pairwise fun v w => v.start < w.start)
    (hnodup : ((done ++ ranges).map (·.reg)).Nodup) :
    (ranges.foldl (LinearScan.visit base) s).Owned := by
  induction ranges generalizing done place s with
  | nil => exact ho
  | cons v ranges ih =>
    rw [List.pairwise_cons] at hsorted
    rw [List.append_cons] at hnodup
    have hfirst : ((done ++ [v]).map (·.reg)).Nodup := by
      rw [List.map_append, List.nodup_append] at hnodup
      exact hnodup.1
    have hnew : ∀ w ∈ done, w.reg ≠ v.reg := by
      intro w hw heq
      rw [List.map_append, List.nodup_append] at hfirst
      exact hfirst.2.2 _ (List.mem_map_of_mem hw) v.reg (by simp) heq
    have hle := hstart v List.mem_cons_self
    exact ih (k.visit hpools hle hfirst) (ho.visit hpools k hle hnew)
      (fun w hw => (hsorted.1 w hw).le) hsorted.2 hnodup

/-- After a scan over all ranges, every preserved register that was chosen is the home
of a register. -/
theorem owned_run (hpools : pools.Sound) (base : Int32) {ranges : List LiveRange}
    (hsorted : ranges.Pairwise fun v w => v.start < w.start) (hnodup : (ranges.map (·.reg)).Nodup) :
    (run pools base ranges).Owned := by
  have hempty : (start pools).Owned := by
    intro n hn
    rw [show (start pools).used.contains n = false from BitSet.contains_empty n] at hn
    cases hn
  rw [run_eq_foldl pools base hsorted]
  exact hempty.foldl hpools (keeps_start pools base) (fun _ _ => Nat.zero_le _) hsorted
    (by simpa using hnodup)

end Run

end LinearScan

/-! ### Code on machine registers -/

/-- Whether an instruction neither writes nor reads a virtual register. -/
def Instr.onMachine (i : Instr) : Prop :=
  i.dest.isVirtual = false ∧ ∀ r ∈ i.reads, r.isVirtual = false

theorem Instr.reads_mapRegs (written read : Reg → Reg) (i : Instr) :
    (i.mapRegs written read).reads = i.reads.map read := by
  cases i <;> rfl

namespace Placement

variable {p : Placement}

theorem scratch_machine {s : Reg} (h : s ∈ scratch) : s.isVirtual = false := by
  revert s
  decide

theorem home_machine (hhome : ∀ r h, p.home? r = some h → h.isVirtual = false) (r : Reg) :
    (p.home r).isVirtual = false := by
  rw [home_eq]
  cases hr : p.home? r with
  | none => rfl
  | some h => exact hhome r h hr

theorem target_machine (hhome : ∀ r h, p.home? r = some h → h.isVirtual = false) (r : Reg) :
    (p.target r).isVirtual = false := by
  unfold target
  split
  · next hr => simpa using hr
  · split
    · rfl
    · exact home_machine hhome r

theorem source_machine (hhome : ∀ r h, p.home? r = some h → h.isVirtual = false) (i : Instr)
    (r : Reg) : (p.source (p.loadedOf i) r).isVirtual = false := by
  unfold source
  split
  · next hr => simpa using hr
  · split
    · next s hs =>
      obtain ⟨before, after, hsplit, -⟩ := List.lookup_eq_some_iff.1 hs
      have hmem : (r, s) ∈ p.loadedOf i := by simp [hsplit]
      exact scratch_machine (List.of_mem_zip hmem).2
    · exact home_machine hhome r

/-- If homes are machine registers, placed code is on machine registers. -/
theorem realize_machine (hhome : ∀ r h, p.home? r = some h → h.isVirtual = false) (code : Listing) :
    ∀ i ∈ p.realize code, i.onMachine := by
  intro j hj
  obtain ⟨i, -, hj⟩ := List.mem_flatMap.1 hj
  rw [realizeInstr_eq, List.mem_append, List.mem_cons] at hj
  rcases hj with hload | rfl | hstore
  · obtain ⟨⟨s, q, o⟩, hmem, rfl⟩ := List.mem_map.1 hload
    exact ⟨scratch_machine (List.of_mem_zip hmem).1, by simp [Instr.reads, Reg.isVirtual, Reg.sp,
      Reg.machineCount]⟩
  · constructor
    · rw [Instr.dest_mapRegs p.target_zero]
      exact target_machine hhome i.dest
    · intro r hr
      rw [Instr.reads_mapRegs] at hr
      obtain ⟨q, -, rfl⟩ := List.mem_map.1 hr
      exact source_machine hhome i q
  · unfold storesOf at hstore
    split at hstore
    · obtain rfl := List.mem_singleton.1 hstore
      exact ⟨rfl, by simp [Instr.reads, Reg.isVirtual, Reg.t5, Reg.sp, Reg.machineCount]⟩
    · simp at hstore

/-! ### Words on the stack -/

theorem offsetOf_inj {base : Int32} {k l : Nat} (hk : 4 * k < 2 ^ 32) (hl : 4 * l < 2 ^ 32)
    (h : offsetOf base k = offsetOf base l) : k = l := by
  have hbits := congrArg Int32.toBitVec h
  rw [toBitVec_offsetOf, toBitVec_offsetOf, BitVec.add_right_inj] at hbits
  have hnat := congrArg BitVec.toNat hbits
  rw [BitVec.toNat_ofNat, BitVec.toNat_ofNat, Nat.mod_eq_of_lt hk, Nat.mod_eq_of_lt hl] at hnat
  omega

/-- Offsets repeat once the words fill the address space. -/
theorem offsetOf_wraps (base : Int32) : offsetOf base (2 ^ 30) = offsetOf base 0 := by
  apply Int32.toBitVec_inj.1
  rw [toBitVec_offsetOf, toBitVec_offsetOf]
  rfl

/-- The offsets of some words are distinct exactly if the words fit the address space. -/
theorem nodup_offsets_iff (base : Int32) (n : Nat) :
    ((List.range n).map (offsetOf base)).Nodup ↔ 4 * n ≤ 2 ^ 32 := by
  constructor
  · intro hnodup
    by_contra hlarge
    have h := List.inj_on_of_nodup_map hnodup (x := 2 ^ 30) (List.mem_range.2 (by omega)) (y := 0)
      (List.mem_range.2 (by omega)) (offsetOf_wraps base)
    omega
  · intro hfit
    refine List.Nodup.map_on ?_ List.nodup_range
    intro k hk l hl h
    rw [List.mem_range] at hk hl
    exact offsetOf_inj (by omega) (by omega) h

end Placement

/-! ### Valid assignments -/

/-- Pools of machine registers in which registers stand where they belong. -/
structure Pools.Proper (pools : Pools) : Prop extends pools.Sound where
  machine : ∀ r ∈ pools.temps, r.isVirtual = false

theorem Pools.standard_proper : Pools.standard.Proper := ⟨standard_sound, by decide⟩

theorem Pools.Proper.home_machine {pools : Pools} (hpools : pools.Proper) {h : Reg}
    (hh : h ∈ pools.temps ∨ h ∈ pools.saved) : h.isVirtual = false := by
  rcases hh with hh | hh
  · exact hpools.machine h hh
  · have hsaved := hpools.saved h hh
    simp only [Reg.isSaved, Reg.isSavedNumber, Bool.or_eq_true, Bool.and_eq_true, beq_iff_eq,
      decide_eq_true_eq] at hsaved
    rw [Reg.isVirtual, decide_eq_false_iff_not, Reg.machineCount]
    omega

/-- What an allocation for a listing with some live ranges has to obey. -/
structure Allocation.Valid (pools : Pools) (base : Int32) (code : Listing) (ranges : List LiveRange)
    (a : Allocation) : Prop where
  /-- Every virtual register that occurs has a home or a word on the stack, and not both. -/
  placed : ∀ r, r.isVirtual = true → (code.placesOf r).Nonempty →
    Xor ((a.placement.home? r).isSome = true) ((a.placement.slot? r).isSome = true)
  /-- No other register has a place. -/
  absent : ∀ r, ¬(r.isVirtual = true ∧ (code.placesOf r).Nonempty) → a.placement.home? r = none ∧
    a.placement.slot? r = none
  /-- Of two registers with one home, one is over where the other starts. -/
  apart : ∀ v ∈ ranges, ∀ w ∈ ranges, v.reg ≠ w.reg → ∀ h, a.placement.home? v.reg = some h →
    a.placement.home? w.reg = some h → v.stop ≤ w.start ∨ w.stop ≤ v.start
  /-- A register whose range has a call strictly inside is on the stack or in a
  preserved register. -/
  crossing : ∀ v ∈ ranges, ∀ p i, code[p]? = some i → i.isCall = true → v.start < p → p < v.stop →
    (a.placement.slot? v.reg).isSome = true ∨ ∃ h, a.placement.home? v.reg = some h ∧
      h.isSaved = true
  /-- Homes come from the pools. -/
  pooled : ∀ r h, a.placement.home? r = some h → h ∈ pools.temps ∨ h ∈ pools.saved
  /-- The words on the stack, from the first to the last, follow each other from the base on. -/
  offsets : (a.placement.spilled.map (·.2)).reverse = (List.range a.spills).map fun k =>
    base + 4 * Int32.ofNat k
  /-- No register has two words on the stack. -/
  spilled_once : (a.placement.spilled.map (·.1)).Nodup
  /-- The offsets are distinct, as long as the words fit the address space. -/
  offsets_nodup : (a.placement.spilled.map (·.2)).Nodup ↔ 4 * a.spills ≤ 2 ^ 32
  /-- The saved registers are listed in increasing order. -/
  saved_sorted : a.saved.Pairwise fun r q => r.number < q.number
  /-- The saved registers are the preserved registers that are homes. -/
  mem_saved : ∀ h, h ∈ a.saved ↔ h.isSaved = true ∧ ∃ r, a.placement.home? r = some h
  /-- The code is on machine registers. -/
  machine : ∀ i ∈ a.code, i.onMachine

/-- The placement that a scan ends with is valid. -/
theorem valid_of_keeps {pools : Pools} (hpools : pools.Proper) {base : Int32} {code : Listing}
    {ranges : List LiveRange} (live : LiveRanges code ranges) (hexact : LiveRange.Exact code ranges)
    {last : Nat} {s : LinearScan} (k : s.Keeps pools base last ranges) (ho : s.Owned) :
    Allocation.Valid pools base code ranges
      { code := s.placement.realize code, placement := s.placement,
        saved := s.used.toList.map Reg.mk } where
  placed := by
    intro r hr hoccurs
    obtain ⟨v, hv, rfl⟩ := (hexact.registers r).2 ⟨hr, hoccurs⟩
    have hplaced := k.places.placed v hv
    cases hslot : (s.placement.slot? v.reg).isSome <;> simp [hplaced, hslot, Xor]
  absent := by
    intro r hr
    refine k.places.absent r ?_
    rintro v hv rfl
    exact hr ((hexact.registers v.reg).1 ⟨v, hv, rfl⟩)
  apart := by
    intro v hv w hw hne h hvh hwh
    rcases Nat.lt_trichotomy v.start w.start with hlt | heq | hlt
    · exact .inl (k.places.apart v hv w hw hlt h hvh hwh)
    · -- One instruction writes one register, so two ranges do not start together.
      obtain ⟨-, i, hi, hdest⟩ := live.writes_start v hv
      obtain ⟨-, j, hj, hdest'⟩ := live.writes_start w hw
      rw [← heq, hi] at hj
      obtain rfl := Option.some.inj hj
      exact absurd (hdest.symm.trans hdest') hne
    · exact .inr (k.places.apart w hw v hv hlt h hwh hvh)
  crossing := by
    intro v hv p i hi hcall hstart hstop
    have hplaced := k.places.placed v hv
    cases hhome : s.placement.home? v.reg with
    | none =>
      rw [hhome] at hplaced
      exact .inl (by simpa using hplaced.symm)
    | some h => exact .inr ⟨h, rfl,
      k.places.crossing v hv (live.crosses v hv p i hi hcall hstart hstop) h hhome⟩
  pooled := k.places.pooled
  offsets := by
    rw [k.places.offsets, List.reverse_reverse]
    rfl
  spilled_once := k.places.spilled_nodup
  offsets_nodup := by
    rw [k.places.offsets, List.nodup_reverse]
    exact Placement.nodup_offsets_iff base s.placement.spilled.length
  saved_sorted := by
    rw [List.pairwise_map]
    exact BitSet.sorted_toList s.used
  mem_saved := by
    intro h
    constructor
    · intro hh
      obtain ⟨n, hn, rfl⟩ := List.mem_map.1 hh
      have hused := BitSet.mem_toList.1 hn
      exact ⟨hpools.saved _ (k.used_saved n hused), ho n hused⟩
    · rintro ⟨hsaved, r, hr⟩
      exact List.mem_map.2 ⟨h.number, BitSet.mem_toList.2 (k.used r h hr hsaved), rfl⟩
  machine := Placement.realize_machine (fun r h hr => hpools.home_machine (k.places.pooled r h hr))
    code

section Heaps

variable [Heap]

/-- What allocation makes of a listing with some live ranges. -/
theorem allocate_of_liveRanges (pools : Pools) (base : Int32) {code : Listing}
    {ranges : List LiveRange} (h : liveRanges code = .ok ranges) : allocate pools base code = .ok
      { code := (LinearScan.run pools base ranges).placement.realize code
        placement := (LinearScan.run pools base ranges).placement
        saved := (LinearScan.run pools base ranges).used.toList.map Reg.mk } := by
  rw [allocate, h]
  rfl

variable [LawfulHeap]

theorem exists_valid {pools : Pools} (hpools : pools.Proper) (base : Int32) {code : Listing}
    {ranges : List LiveRange} (h : liveRanges code = .ok ranges)
    (hexact : LiveRange.Exact code ranges) :
    ∃ a, allocate pools base code = .ok a ∧ a.Valid pools base code ranges := by
  have live := liveRanges_spec h
  obtain ⟨last, k⟩ := LinearScan.keeps_run hpools.toSound base live.sorted live.nodup
  have ho := LinearScan.owned_run hpools.toSound base live.sorted live.nodup
  exact ⟨_, allocate_of_liveRanges pools base h, valid_of_keeps hpools live hexact k ho⟩

/-- From the standard pools, code that writes registers first gets a valid assignment. -/
theorem exists_standard (base : Int32) {code : Listing} (hfirst : code.WritesFirst) :
    ∃ a ranges, allocate .standard base code = .ok a ∧ a.Valid .standard base code ranges := by
  obtain ⟨ranges, hranges, hexact⟩ := liveRanges_exact hfirst
  obtain ⟨a, ha, hvalid⟩ := exists_valid Pools.standard_proper base hranges hexact
  exact ⟨a, ranges, ha, hvalid⟩

/-- **Allocation is a valid assignment, for every lawful heap.** A listing in which every virtual
register is written before it is read has live ranges, which go from the first place of each virtual
register to the last, and allocation from any pools of machine registers, in which those that calls
preserve and those that they do not stand where they belong, succeeds with a valid assignment. The
words on the stack follow each other in the arithmetic of 32 bits, and are distinct exactly if they
fit the address space. -/
theorem allocate_valid (pools : Pools) (hpools : pools.Proper) (base : Int32) (code : Listing)
    (hfirst : code.WritesFirst) :
    ∃ ranges a, liveRanges code = .ok ranges ∧ LiveRange.Exact code ranges ∧
      allocate pools base code = .ok a ∧ a.Valid pools base code ranges := by
  obtain ⟨ranges, hranges, hexact⟩ := liveRanges_exact hfirst
  obtain ⟨a, ha, hvalid⟩ := exists_valid hpools base hranges hexact
  exact ⟨ranges, a, hranges, hexact, ha, hvalid⟩

end Heaps

deriving instance DecidableEq for Allocation

/-- One register of each kind. -/
def narrowPools : Pools where
  temps := [⟨5⟩]
  saved := [⟨9⟩]

/-- Five values for two registers. The first two take both; the third takes the preserved register
over from the first, which goes to the stack; the fourth gets the register that the second no longer
needs; and the fifth outlives the others. -/
def crowded : Listing :=
  [.li (.virtual 0) 1, .li (.virtual 1) 2, .li (.virtual 2) 3,
    .reg .add (.virtual 3) (.virtual 1) (.virtual 2), .li (.virtual 4) 5, .mv .a0 (.virtual 3),
    .jal .ra "f", .reg .add .a0 .a0 (.virtual 2), .reg .add .a0 .a0 (.virtual 0),
    .reg .add .a0 .a0 (.virtual 4)]

/-- The same on the two registers. -/
def crowdedAllocation : Allocation where
  code := [.li .t5 1, .store .sw .t5 .sp 16, .li ⟨5⟩ 2, .li ⟨9⟩ 3, .reg .add ⟨5⟩ ⟨5⟩ ⟨9⟩, .li .t5 5,
    .store .sw .t5 .sp 20, .mv .a0 ⟨5⟩, .jal .ra "f", .reg .add .a0 .a0 ⟨9⟩, .load .lw .t5 .sp 16,
    .reg .add .a0 .a0 .t5, .load .lw .t5 .sp 20, .reg .add .a0 .a0 .t5]
  placement := {
    assigned := [(.virtual 3, ⟨5⟩), (.virtual 2, ⟨9⟩), (.virtual 1, ⟨5⟩)]
    spilled := [(.virtual 4, 20), (.virtual 0, 16)] }
  saved := [⟨9⟩]

theorem allocate_crowded : allocate narrowPools 16 crowded = .ok crowdedAllocation := by
  decide +kernel

theorem allocate_valid_crowded : narrowPools.Proper ∧ crowded.WritesFirst ∧
    ∃ ranges, LiveRange.Exact crowded ranges ∧
      allocate narrowPools 16 crowded = .ok crowdedAllocation ∧
      crowdedAllocation.Valid narrowPools 16 crowded ranges := by
  have hpools : narrowPools.Proper := ⟨⟨by decide, by decide⟩, by decide⟩
  have hfirst : crowded.WritesFirst := by decide
  obtain ⟨ranges, a, -, hexact, ha, hvalid⟩ := allocate_valid narrowPools hpools 16 crowded hfirst
  rw [allocate_crowded] at ha
  obtain rfl := Except.ok.inj ha
  exact ⟨hpools, hfirst, ranges, hexact, allocate_crowded, hvalid⟩

/-! ### Offsets that wrap -/

/-- No registers to choose from. -/
def noPools : Pools := ⟨[], []⟩

/-- Some virtual registers, each written once. -/
def writeAll (n : Nat) : Listing := (List.range n).map fun k => .li (.virtual k) 0

theorem writesFirst_writeAll (n : Nat) : (writeAll n).WritesFirst := by
  intro p i hi r hr
  obtain ⟨k, -, rfl⟩ := List.mem_map.1 (List.mem_of_getElem? hi)
  cases hr

/-- Without registers to choose from, all virtual registers go to the stack. -/
theorem Allocation.Valid.le_spills {base : Int32} {n : Nat} {ranges : List LiveRange}
    {a : Allocation} (h : a.Valid noPools base (writeAll n) ranges) : n ≤ a.spills := by
  have hspilled : (List.range n).map Reg.virtual ⊆ a.placement.spilled.map (·.1) := by
    intro r hr
    obtain ⟨k, hk, rfl⟩ := List.mem_map.1 hr
    have hmem : Instr.li (.virtual k) 0 ∈ writeAll n := List.mem_map_of_mem hk
    obtain ⟨p, hp⟩ := List.mem_iff_getElem?.1 hmem
    have hvirtual : (Reg.virtual k).isVirtual = true := decide_eq_true (Nat.le_add_right _ _)
    have hplaced := h.placed _ hvirtual ⟨p, _, hp, .inl rfl⟩
    have hhome : a.placement.home? (.virtual k) = none := by
      by_contra hsome
      obtain ⟨q, hq⟩ := Option.ne_none_iff_exists'.1 hsome
      exact (h.pooled _ q hq).elim List.not_mem_nil List.not_mem_nil
    rw [hhome] at hplaced
    exact Placement.mem_spilled (by simpa [Xor] using hplaced)
  have hnodup : ((List.range n).map Reg.virtual).Nodup :=
    List.nodup_range.map fun k l hkl => by simpa [Reg.virtual] using hkl
  simpa [Allocation.spills] using (List.subperm_of_subset hnodup hspilled).length_le

/-- Offsets are numbers of 32 bits. A base near the greatest of them is followed by the least ones;
and of more words than fit the address space, two have the same offset. -/
theorem allocate_offsets_wrap : noPools.Proper ∧ (∀ n, (writeAll n).WritesFirst) ∧
    (∃ a, allocate noPools 2147483647 (writeAll 2) = .ok a ∧
      (a.placement.spilled.map fun e => (e.1, e.2.toInt)) = [(.virtual 1, -2147483645),
        (.virtual 0, 2147483647)]) ∧
    ∃ a, allocate noPools 0 (writeAll (2 ^ 30 + 1)) = .ok a ∧
    ¬(a.placement.spilled.map (·.2)).Nodup := by
  have hpools : noPools.Proper := ⟨⟨by decide, by decide⟩, by decide⟩
  refine ⟨hpools, writesFirst_writeAll, ⟨_, rfl, by decide +kernel⟩, ?_⟩
  obtain ⟨ranges, hranges, hexact⟩ := liveRanges_exact (writesFirst_writeAll (2 ^ 30 + 1))
  obtain ⟨a, ha, hvalid⟩ := exists_valid hpools 0 hranges hexact
  refine ⟨a, ha, fun hnodup => ?_⟩
  have hle := hvalid.le_spills
  have hfit := hvalid.offsets_nodup.1 hnodup
  omega

end FunRiscv
