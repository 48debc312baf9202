import Mathlib
import FunRiscv.Alloc.LiveRange
import FunRiscv.Proofs.BitSet.Membership

/-!
# What live ranges say about a listing

* `LiveRange.Describes`: ranges of distinct registers, by where they start. Each starts where its
  register is written, and covers every place where the register is read or written; it starts
  strictly before every read.
* `LiveRange.Describes.step`: one more instruction.  `LiveRange.Describes.scan`: a whole listing.
* `liveRanges_spec`: the ranges of a listing describe it, and a range with a call
  strictly inside is marked.
-/

namespace FunRiscv

namespace LiveRange

/-! ### One more instruction -/

/-- The range with its end moved to a place if its register is among some. -/
def touch (rs : List Reg) (place : Nat) (v : LiveRange) : LiveRange :=
  if v.reg ∈ rs then { v with stop := place } else v

@[simp]
theorem touch_reg (rs : List Reg) (place : Nat) (v : LiveRange) :
    (touch rs place v).reg = v.reg := by
  unfold touch
  split <;> rfl

@[simp]
theorem touch_start (rs : List Reg) (place : Nat) (v : LiveRange) :
    (touch rs place v).start = v.start := by
  unfold touch
  split <;> rfl

theorem touch_stop_of_mem {rs : List Reg} {place : Nat} {v : LiveRange} (h : v.reg ∈ rs) :
    (touch rs place v).stop = place := by simp [touch, h]

theorem stop_le_touch_stop {rs : List Reg} {place : Nat} {v : LiveRange} (h : v.stop ≤ place) :
    v.stop ≤ (touch rs place v).stop := by
  unfold touch
  split
  · exact h
  · exact Nat.le_refl _

theorem touch_stop_le {rs : List Reg} {place : Nat} {v : LiveRange} (h : v.stop ≤ place) :
    (touch rs place v).stop ≤ place := by
  unfold touch
  split
  · exact Nat.le_refl _
  · exact h

theorem extend_eq_map_touch (ranges : List LiveRange) (r : Reg) (place : Nat) :
    extend ranges r place = ranges.map (touch [r] place) := by
  unfold extend touch isOf
  simp

theorem any_isOf {ranges : List LiveRange} {r : Reg} :
    ranges.any (isOf r) = true ↔ ∃ v ∈ ranges, v.reg = r := by
  simp [isOf]

theorem touch_touch (rs rs' : List Reg) (place : Nat) (v : LiveRange) :
    touch rs' place (touch rs place v) = touch (rs ++ rs') place v := by
  by_cases h : v.reg ∈ rs <;> by_cases h' : v.reg ∈ rs' <;> simp [touch, h, h']

/-- Reading registers moves the ends of their ranges. -/
theorem foldlM_read_eq_ok {place : Nat} {rs : List Reg} {ranges ranges' : List LiveRange}
    (hvirtual : ∀ v ∈ ranges, v.reg.isVirtual = true)
    (h : rs.foldlM (read place) ranges = .ok ranges') :
    ranges' = ranges.map (touch rs place) ∧
      ∀ r ∈ rs, r.isVirtual = true → ∃ v ∈ ranges, v.reg = r := by
  induction rs generalizing ranges with
  | nil =>
    obtain rfl : ranges = ranges' := by simpa [pure, Except.pure] using h
    have hid : touch [] place = id := by
      funext v
      simp [touch]
    simp [hid]
  | cons r rs ih =>
    rw [List.foldlM_cons] at h
    by_cases hr : r.isVirtual = true
    · by_cases hany : ranges.any (isOf r) = true
      · have hread : read place ranges r = .ok (extend ranges r place) := by simp [read, hr, hany]
        rw [hread] at h
        have hv' : ∀ v ∈ extend ranges r place, v.reg.isVirtual = true := by
          intro v hv
          rw [extend_eq_map_touch, List.mem_map] at hv
          obtain ⟨w, hw, rfl⟩ := hv
          simpa using hvirtual w hw
        obtain ⟨heq, hreads⟩ := ih hv' h
        have hregs : ∀ q, (∃ v ∈ extend ranges r place, v.reg = q) ↔ ∃ v ∈ ranges, v.reg = q := by
          intro q
          simp [extend_eq_map_touch]
        refine ⟨?_, ?_⟩
        · rw [heq, extend_eq_map_touch, List.map_map]
          refine List.map_congr_left fun v _ => ?_
          simpa using touch_touch [r] rs place v
        · intro q hq hqv
          rcases List.mem_cons.1 hq with rfl | hq
          · exact any_isOf.1 hany
          · exact (hregs q).1 (hreads q hq hqv)
      · have hread : read place ranges r = .error ⟨r, place⟩ := by simp [read, hr, hany]
        rw [hread] at h
        cases h
    · have hread : read place ranges r = .ok ranges := by simp [read, hr]
      rw [hread] at h
      obtain ⟨heq, hreads⟩ := ih hvirtual h
      refine ⟨?_, ?_⟩
      · rw [heq]
        refine List.map_congr_left fun v hv => ?_
        have hne : v.reg ≠ r := by
          rintro rfl
          exact hr (hvirtual v hv)
        simp [touch, hne]
      · intro q hq hqv
        rcases List.mem_cons.1 hq with rfl | hq
        · exact absurd hqv hr
        · exact hreads q hq hqv

/-! ### Ranges that describe a listing -/

/-- Ranges of distinct registers, the latest first, that tell where a listing writes
and reads them. -/
structure Describes (code : Listing) (ranges : List LiveRange) : Prop where
  nodup : (ranges.map (·.reg)).Nodup
  sorted : ranges.Pairwise fun v w => w.start < v.start
  start_le_stop : ∀ v ∈ ranges, v.start ≤ v.stop
  stop_lt : ∀ v ∈ ranges, v.stop < code.length
  writes_start :
    ∀ v ∈ ranges, v.reg.isVirtual = true ∧ ∃ i, code[v.start]? = some i ∧ i.dest = v.reg
  reads : ∀ p i r, code[p]? = some i → r ∈ i.reads → r.isVirtual = true →
    ∃ v ∈ ranges, v.reg = r ∧ v.start < p ∧ p ≤ v.stop
  writes : ∀ p i, code[p]? = some i → i.dest.isVirtual = true →
    ∃ v ∈ ranges, v.reg = i.dest ∧ v.start ≤ p ∧ p ≤ v.stop

theorem describes_nil : Describes [] [] where
  nodup := by simp
  sorted := by simp
  start_le_stop := by simp
  stop_lt := by simp
  writes_start := by simp
  reads := by simp
  writes := by simp

theorem getElem?_append_singleton {α : Type} {l : List α} {a b : α} {p : Nat}
    (h : (l ++ [a])[p]? = some b) : l[p]? = some b ∨ p = l.length ∧ b = a := by
  rw [List.getElem?_append] at h
  split at h
  · exact .inl h
  · next hp =>
    right
    have hp0 : p - l.length = 0 := by
      by_contra hne
      rw [List.getElem?_eq_none (by simp; omega)] at h
      simp at h
    rw [hp0] at h
    exact ⟨by omega, by simpa using h.symm⟩

/-- The range of a register first written at a place. -/
def opened (r : Reg) (place : Nat) : LiveRange := ⟨r, place, place, false⟩

/-- One more instruction: the ends of ranges move, and a range may be added. -/
theorem Describes.extended {code : Listing} {ranges : List LiveRange} (h : Describes code ranges)
    {i : Instr} (new : List LiveRange) {rs : List Reg}
    (hnew : new = [] ∨
      new = [opened i.dest code.length] ∧ i.dest.isVirtual = true ∧ ∀ v ∈ ranges, v.reg ≠ i.dest)
    (hreads : ∀ r ∈ i.reads, r.isVirtual = true → r ∈ rs ∧ ∃ v ∈ ranges, v.reg = r)
    (hdest : i.dest.isVirtual = true →
      new = [opened i.dest code.length] ∨ i.dest ∈ rs ∧ ∃ v ∈ ranges, v.reg = i.dest) :
    Describes (code ++ [i]) (new ++ ranges.map (touch rs code.length)) where
  nodup := by
    have hold : ((ranges.map (touch rs code.length)).map (·.reg)).Nodup := by
      rw [List.map_map]
      simpa [Function.comp_def] using h.nodup
    rcases hnew with rfl | ⟨rfl, -, hne⟩
    · exact hold
    · simpa [opened, Function.comp_def] using ⟨hne, h.nodup⟩
  sorted := by
    have hold : (ranges.map (touch rs code.length)).Pairwise fun v w => w.start < v.start := by
      rw [List.pairwise_map]
      simpa using h.sorted
    rcases hnew with rfl | ⟨rfl, -, -⟩
    · exact hold
    · refine List.pairwise_cons.2 ⟨?_, hold⟩
      intro v hv
      obtain ⟨w, hw, rfl⟩ := List.mem_map.1 hv
      rw [touch_start]
      exact (h.start_le_stop w hw).trans_lt (h.stop_lt w hw)
  start_le_stop := by
    intro v hv
    rcases List.mem_append.1 hv with hv | hv
    · rcases hnew with rfl | ⟨rfl, -, -⟩
      · simp at hv
      · simp [List.mem_singleton.1 hv, opened]
    · obtain ⟨w, hw, rfl⟩ := List.mem_map.1 hv
      rw [touch_start]
      exact (h.start_le_stop w hw).trans (stop_le_touch_stop (h.stop_lt w hw).le)
  stop_lt := by
    intro v hv
    rw [List.length_append, List.length_singleton]
    rcases List.mem_append.1 hv with hv | hv
    · rcases hnew with rfl | ⟨rfl, -, -⟩
      · simp at hv
      · simp [List.mem_singleton.1 hv, opened]
    · obtain ⟨w, hw, rfl⟩ := List.mem_map.1 hv
      exact Nat.lt_succ_of_le (touch_stop_le (h.stop_lt w hw).le)
  writes_start := by
    intro v hv
    rcases List.mem_append.1 hv with hv | hv
    · rcases hnew with rfl | ⟨rfl, hvirtual, -⟩
      · simp at hv
      · rw [List.mem_singleton.1 hv]
        exact ⟨hvirtual, i, by simp [opened], rfl⟩
    · obtain ⟨w, hw, rfl⟩ := List.mem_map.1 hv
      obtain ⟨hvirtual, j, hj, hdest⟩ := h.writes_start w hw
      rw [touch_reg, touch_start]
      exact ⟨hvirtual,
        j, by rw [List.getElem?_append_left (List.getElem?_eq_some_iff.1 hj).1]; exact hj, hdest⟩
  reads := by
    intro p j r hj hr hvirtual
    rcases getElem?_append_singleton hj with hj | ⟨rfl, rfl⟩
    · obtain ⟨v, hv, hreg, hstart, hstop⟩ := h.reads p j r hj hr hvirtual
      refine ⟨_, List.mem_append_right _ (List.mem_map_of_mem hv), by simpa using hreg, by
        simpa using hstart, ?_⟩
      exact hstop.trans (stop_le_touch_stop (h.stop_lt v hv).le)
    · obtain ⟨hmem, v, hv, rfl⟩ := hreads r hr hvirtual
      refine ⟨_, List.mem_append_right _ (List.mem_map_of_mem hv), by simp, ?_,
        (touch_stop_of_mem hmem).ge⟩
      rw [touch_start]
      exact (h.start_le_stop v hv).trans_lt (h.stop_lt v hv)
  writes := by
    intro p j hj hvirtual
    rcases getElem?_append_singleton hj with hj | ⟨rfl, rfl⟩
    · obtain ⟨v, hv, hreg, hstart, hstop⟩ := h.writes p j hj hvirtual
      refine ⟨_, List.mem_append_right _ (List.mem_map_of_mem hv), by simpa using hreg, by
        simpa using hstart, ?_⟩
      exact hstop.trans (stop_le_touch_stop (h.stop_lt v hv).le)
    · rcases hdest hvirtual with rfl | ⟨hmem, v, hv, hreg⟩
      · exact ⟨opened j.dest code.length, by simp, rfl, Nat.le_refl _, Nat.le_refl _⟩
      · refine ⟨_, List.mem_append_right _ (List.mem_map_of_mem hv), by simpa using hreg, ?_, ?_⟩
        · rw [touch_start]
          exact (h.start_le_stop v hv).trans (h.stop_lt v hv).le
        · exact (touch_stop_of_mem (hreg ▸ hmem)).ge

/-- The ranges after one more instruction describe the listing with it. -/
theorem Describes.step {code : Listing} {ranges ranges' : List LiveRange}
    (h : Describes code ranges) {i : Instr}
    (hstep : LiveRange.step ranges code.length i = .ok ranges') :
    Describes (code ++ [i]) ranges' := by
  obtain ⟨touched, hreads, rfl⟩ : ∃ touched,
    i.reads.foldlM (read code.length) ranges = .ok touched ∧
      ranges' = write code.length touched i.dest := by
    unfold LiveRange.step at hstep
    cases hr : i.reads.foldlM (read code.length) ranges with
    | error e =>
      rw [hr] at hstep
      cases hstep
    | ok touched =>
      rw [hr] at hstep
      exact ⟨touched, rfl, by simpa [bind, Except.bind, pure, Except.pure] using hstep.symm⟩
  obtain ⟨rfl, hpresent⟩ := foldlM_read_eq_ok (fun v hv => (h.writes_start v hv).1) hreads
  have hany : (ranges.map (touch i.reads code.length)).any (isOf i.dest) = true ↔
    ∃ v ∈ ranges, v.reg = i.dest := by
    rw [any_isOf]
    simp
  unfold write
  by_cases hvirtual : i.dest.isVirtual = true
  · by_cases hold : ∃ v ∈ ranges, v.reg = i.dest
    · have hmap : (ranges.map (touch i.reads code.length)).map (touch [i.dest] code.length) =
          [] ++ ranges.map (touch (i.reads ++ [i.dest]) code.length) := by
        rw [List.map_map]
        exact List.map_congr_left fun v _ => touch_touch i.reads [i.dest] code.length v
      rw [hvirtual, hany.2 hold, extend_eq_map_touch, hmap]
      exact h.extended [] (.inl rfl) (fun r hr hv => ⟨by simp [hr], hpresent r hr hv⟩)
        (fun _ => .inr ⟨by simp, hold⟩)
    · rw [hvirtual, Bool.eq_false_of_not_eq_true (mt hany.1 hold)]
      refine h.extended [opened i.dest code.length] (.inr ⟨rfl, hvirtual, ?_⟩)
        (fun r hr hv => ⟨hr, hpresent r hr hv⟩) (fun _ => .inl rfl)
      intro v hv hreg
      exact hold ⟨v, hv, hreg⟩
  · rw [Bool.eq_false_of_not_eq_true hvirtual]
    exact h.extended [] (.inl rfl) (fun r hr hv => ⟨hr, hpresent r hr hv⟩)
      (fun hv => absurd hv hvirtual)

/-- The ranges after a scan describe the whole listing. -/
theorem Describes.scan {pre code : Listing} {ranges ranges' : List LiveRange}
    (h : Describes pre ranges) (hscan : LiveRange.scan ranges pre.length code = .ok ranges') :
    Describes (pre ++ code) ranges' := by
  induction code generalizing pre ranges with
  | nil =>
    obtain rfl : ranges = ranges' := by simpa [LiveRange.scan] using hscan
    simpa using h
  | cons i code ih =>
    cases hstep : LiveRange.step ranges pre.length i with
    | error e =>
      rw [LiveRange.scan, hstep] at hscan
      cases hscan
    | ok next =>
      rw [LiveRange.scan, hstep] at hscan
      have hrest : LiveRange.scan next (pre ++ [i]).length code = .ok ranges' := by
        rw [List.length_append, List.length_singleton]
        exact hscan
      simpa using ih (h.step hstep) hrest

end LiveRange

/-! ### Calls -/

theorem contains_callsFrom {place : Nat} {calls : BitSet} {code : Listing} {n : Nat} :
    (callsFrom place calls code).contains n = true ↔
      calls.contains n = true ∨ place ≤ n ∧ ∃ i, code[n - place]? = some i ∧ i.isCall = true := by
  induction code generalizing place calls with
  | nil => simp [callsFrom]
  | cons i code ih =>
    rw [callsFrom, ih]
    have hcalls : (if i.isCall = true then calls.insert place else calls).contains n = true ↔
        calls.contains n = true ∨ n = place ∧ i.isCall = true := by
      split
      · next hcall => simp [BitSet.contains_insert, hcall, or_comm]
      · next hcall => simp [hcall]
    rw [hcalls, or_assoc]
    refine or_congr_right ?_
    constructor
    · rintro (⟨rfl, hcall⟩ | ⟨hle, j, hj, hcall⟩)
      · exact ⟨Nat.le_refl _, i, by simp, hcall⟩
      · refine ⟨by omega, j, ?_, hcall⟩
        rw [show n - place = n - (place + 1) + 1 by omega]
        simpa using hj
    · rintro ⟨hle, j, hj, hcall⟩
      by_cases hn : n = place
      · subst hn
        obtain rfl : i = j := by simpa using hj
        exact .inl ⟨rfl, hcall⟩
      · right
        rw [show n - place = n - (place + 1) + 1 by omega] at hj
        exact ⟨by omega, j, by simpa using hj, hcall⟩

/-- What the live ranges of a listing say about it: ranges of distinct registers, by
where they start. -/
structure LiveRanges (code : Listing) (ranges : List LiveRange) : Prop where
  nodup : (ranges.map (·.reg)).Nodup
  sorted : ranges.Pairwise fun v w => v.start < w.start
  start_le_stop : ∀ v ∈ ranges, v.start ≤ v.stop
  writes_start :
    ∀ v ∈ ranges, v.reg.isVirtual = true ∧ ∃ i, code[v.start]? = some i ∧ i.dest = v.reg
  reads : ∀ p i r, code[p]? = some i → r ∈ i.reads → r.isVirtual = true →
    ∃ v ∈ ranges, v.reg = r ∧ v.start < p ∧ p ≤ v.stop
  writes : ∀ p i, code[p]? = some i → i.dest.isVirtual = true →
    ∃ v ∈ ranges, v.reg = i.dest ∧ v.start ≤ p ∧ p ≤ v.stop
  crosses : ∀ v ∈ ranges, ∀ p i, code[p]? = some i → i.isCall = true → v.start < p → p < v.stop →
    v.crossesCall = true

/-- The live ranges of a listing describe it. -/
theorem liveRanges_spec {code : Listing} {ranges : List LiveRange}
    (h : liveRanges code = .ok ranges) : LiveRanges code ranges := by
  obtain ⟨scanned, hscan, rfl⟩ : ∃ scanned, LiveRange.scan [] 0 code = .ok scanned ∧
      ranges = scanned.reverse.map fun v =>
        { v with crossesCall := (callsFrom 0 .empty code).anyFrom (v.start + 1) v.stop } := by
    unfold liveRanges at h
    cases hs : LiveRange.scan [] 0 code with
    | error e =>
      rw [hs] at h
      cases h
    | ok scanned =>
      rw [hs] at h
      exact ⟨scanned, rfl, by simpa [bind, Except.bind, pure, Except.pure] using h.symm⟩
  have d : LiveRange.Describes code scanned := LiveRange.describes_nil.scan hscan
  have hmem : ∀ {P : LiveRange → Prop}, (∀ v ∈ scanned, ∀ b, P { v with crossesCall := b }) →
      ∀ v ∈ scanned.reverse.map fun v =>
        { v with crossesCall := (callsFrom 0 .empty code).anyFrom (v.start + 1) v.stop }, P v := by
    intro P hP v hv
    obtain ⟨w, hw, rfl⟩ := List.mem_map.1 hv
    exact hP w (List.mem_reverse.1 hw) _
  refine ⟨?_, ?_, ?_, ?_, ?_, ?_, ?_⟩
  · rw [List.map_map, List.map_reverse, List.nodup_reverse]
    exact d.nodup
  · rw [List.pairwise_map, List.pairwise_reverse]
    exact d.sorted
  · exact hmem fun v hv _ => d.start_le_stop v hv
  · exact hmem fun v hv _ => d.writes_start v hv
  · intro p i r hi hr hvirtual
    obtain ⟨v, hv, hreg, hstart, hstop⟩ := d.reads p i r hi hr hvirtual
    exact ⟨_, List.mem_map_of_mem (List.mem_reverse.2 hv), hreg, hstart, hstop⟩
  · intro p i hi hvirtual
    obtain ⟨v, hv, hreg, hstart, hstop⟩ := d.writes p i hi hvirtual
    exact ⟨_, List.mem_map_of_mem (List.mem_reverse.2 hv), hreg, hstart, hstop⟩
  · intro v hv p i hi hcall hstart hstop
    obtain ⟨w, hw, rfl⟩ := List.mem_map.1 hv
    exact BitSet.anyFrom_eq_true.2 ⟨p, hstart, hstop,
      contains_callsFrom.2 (.inr ⟨by omega, i, by simpa using hi, hcall⟩)⟩

end FunRiscv
