import Mathlib
import FunRiscv.Proofs.Alloc.Assignment
import FunRiscv.Proofs.Alloc.Heap

/-!
# Register allocation under other numbers

Register allocation looks at which places come before which, not at how far they are
apart. Comments occur in no live range and only move the other lines away from each other,
so they change no decision.

* `Listing.bare`: a listing without its comments.  `Listing.place`: where the other lines stand.
* `liveRanges_bare`: the live ranges of a listing are those without the comments, moved.
* `LinearScan.run_moved`: the scan makes the same of live ranges that were moved and
  kept their order.
* `allocate_bare`: allocation makes the same of a listing with and without its comments.
-/

namespace FunRiscv

/-! ### Listings without comments -/

/-- Whether a line is a comment. -/
def Instr.isComment : Instr → Bool
  | comment _ => true
  | _ => false

namespace Listing

/-- A listing without its comments. -/
def bare (code : Listing) : Listing := code.filter fun i => !i.isComment

@[simp]
theorem bare_nil : bare [] = [] := rfl

@[simp]
theorem bare_append (a b : Listing) : bare (a ++ b) = bare a ++ bare b := List.filter_append ..

theorem bare_cons (i : Instr) (code : Listing) :
    bare (i :: code) = if i.isComment then bare code else i :: bare code := by
  rw [bare, List.filter_cons]
  cases i.isComment <;> rfl

theorem bare_cons_of_comment {i : Instr} (h : i.isComment = true) (code : Listing) :
    bare (i :: code) = bare code := by
  rw [bare_cons, if_pos h]

theorem bare_cons_of_line {i : Instr} (h : i.isComment = false) (code : Listing) :
    bare (i :: code) = i :: bare code := by
  rw [bare_cons, h, if_neg Bool.false_ne_true]

theorem bare_eq_self {code : Listing} (h : ∀ i ∈ code, i.isComment = false) : bare code = code :=
  List.filter_eq_self.2 fun i hi => by rw [h i hi]; rfl

/-- The place in a listing of a line that has a place among those that are no comments. -/
def place : Listing → Nat → Nat
  | [], k => k
  | i :: code, k =>
    if i.isComment then place code k + 1 else if k = 0 then 0 else place code (k - 1) + 1

theorem place_cons_of_comment {i : Instr} (h : i.isComment = true) (code : Listing) (k : Nat) :
    place (i :: code) k = place code k + 1 := by rw [place, if_pos h]

theorem place_cons_zero {i : Instr} (h : i.isComment = false) (code : Listing) :
    place (i :: code) 0 = 0 := by simp [place, h]

theorem place_cons_succ {i : Instr} (h : i.isComment = false) (code : Listing) (k : Nat) :
    place (i :: code) (k + 1) = place code k + 1 := by simp [place, h]

theorem place_strictMono (code : Listing) : StrictMono (place code) := by
  refine strictMono_nat_of_lt_succ fun k => ?_
  induction code generalizing k with
  | nil => exact Nat.lt_succ_self k
  | cons i code ih =>
    cases h : i.isComment with
    | true =>
      rw [place_cons_of_comment h, place_cons_of_comment h]
      exact Nat.succ_lt_succ (ih k)
    | false =>
      rw [place_cons_succ h]
      cases k with
      | zero =>
        rw [place_cons_zero h]
        exact Nat.succ_pos _
      | succ k =>
        rw [place_cons_succ h]
        exact Nat.succ_lt_succ (ih k)

theorem getElem?_place (code : Listing) (k : Nat) : code[place code k]? = (bare code)[k]? := by
  induction code generalizing k with
  | nil => rfl
  | cons i code ih =>
    cases h : i.isComment with
    | true => rw [place_cons_of_comment h, bare_cons_of_comment h, List.getElem?_cons_succ, ih]
    | false =>
      rw [bare_cons_of_line h]
      cases k with
      | zero => rw [place_cons_zero h, List.getElem?_cons_zero, List.getElem?_cons_zero]
      | succ k => rw [place_cons_succ h, List.getElem?_cons_succ, List.getElem?_cons_succ, ih]

theorem exists_place {code : Listing} {n : Nat} {i : Instr} (hi : code[n]? = some i)
    (h : i.isComment = false) : ∃ k, n = place code k := by
  induction code generalizing n with
  | nil => cases hi
  | cons j code ih =>
    cases n with
    | zero =>
      obtain rfl : j = i := by simpa using hi
      exact ⟨0, (place_cons_zero h code).symm⟩
    | succ n =>
      obtain ⟨k, rfl⟩ := ih (by simpa using hi)
      cases hj : j.isComment with
      | true => exact ⟨k, (place_cons_of_comment hj code k).symm⟩
      | false => exact ⟨k + 1, (place_cons_succ hj code k).symm⟩

end Listing

/-! ### Live ranges -/

namespace LiveRange

variable {f : Nat → Nat}

/-- The range with other numbers for its places. -/
def moved (f : Nat → Nat) (v : LiveRange) : LiveRange :=
  { v with start := f v.start, stop := f v.stop }

theorem any_isOf_moved (ranges : List LiveRange) (r : Reg) :
    (ranges.map (moved f)).any (isOf r) = ranges.any (isOf r) := by
  rw [List.any_map]
  rfl

theorem extend_moved (ranges : List LiveRange) (r : Reg) (place : Nat) :
    extend (ranges.map (moved f)) r (f place) = (extend ranges r place).map (moved f) := by
  unfold extend
  rw [List.map_map, List.map_map]
  refine List.map_congr_left fun v _ => ?_
  by_cases h : v.reg = r <;> simp [moved, isOf, h]

theorem write_moved (ranges : List LiveRange) (r : Reg) (place : Nat) :
    write (f place) (ranges.map (moved f)) r = (write place ranges r).map (moved f) := by
  unfold write
  rw [any_isOf_moved, extend_moved]
  split
  · rfl
  · split <;> rfl

theorem foldlM_read_moved {place : Nat} {rs : List Reg} {ranges ranges' : List LiveRange}
    (h : rs.foldlM (read place) ranges = .ok ranges') :
    rs.foldlM (read (f place)) (ranges.map (moved f)) = .ok (ranges'.map (moved f)) := by
  induction rs generalizing ranges with
  | nil =>
    obtain rfl : ranges = ranges' := by simpa [pure, Except.pure] using h
    rfl
  | cons r rs ih =>
    have hread : ∀ next, read place ranges r = .ok next →
      read (f place) (ranges.map (moved f)) r = .ok (next.map (moved f)) := by
      unfold read
      rw [any_isOf_moved, extend_moved]
      intro next hnext
      split at hnext
      · next hr =>
        obtain rfl := Except.ok.inj hnext
        rw [if_pos hr]
      · next hr =>
        split at hnext
        · next hany =>
          obtain rfl := Except.ok.inj hnext
          rw [if_neg hr, if_pos hany]
        · cases hnext
    rw [List.foldlM_cons] at h ⊢
    cases hr : read place ranges r with
    | error e =>
      rw [hr] at h
      cases h
    | ok next =>
      rw [hr] at h
      rw [hread next hr]
      exact ih h

theorem step_moved {place : Nat} {i : Instr} {ranges ranges' : List LiveRange}
    (h : step ranges place i = .ok ranges') :
    step (ranges.map (moved f)) (f place) i = .ok (ranges'.map (moved f)) := by
  unfold step at h ⊢
  cases hr : i.reads.foldlM (read place) ranges with
  | error e =>
    rw [hr] at h
    cases h
  | ok next =>
    rw [hr] at h
    obtain rfl : write place next i.dest = ranges' := Except.ok.inj h
    rw [foldlM_read_moved hr]
    exact congrArg Except.ok (write_moved next i.dest place)

theorem step_comment {i : Instr} (h : i.isComment = true) (ranges : List LiveRange) (place : Nat) :
    step ranges place i = .ok ranges := by
  cases i with
  | comment => rfl
  | _ => cases h

/-- A scan of a listing makes the same as one without its comments, with the places that the lines
have in the listing. -/
theorem scan_moved {code : Listing} {p q : Nat} (hf : ∀ k, f (q + k) = p + code.place k)
    {ranges ranges' : List LiveRange} (h : scan ranges q code.bare = .ok ranges') :
    scan (ranges.map (moved f)) p code = .ok (ranges'.map (moved f)) := by
  induction code generalizing p q ranges with
  | nil =>
    obtain rfl : ranges = ranges' := Except.ok.inj h
    rfl
  | cons i code ih =>
    rw [scan]
    cases hi : i.isComment with
    | true =>
      rw [Listing.bare_cons_of_comment hi] at h
      rw [step_comment hi]
      refine ih (fun k => ?_) h
      rw [hf, Listing.place_cons_of_comment hi]
      omega
    | false =>
      rw [Listing.bare_cons_of_line hi, scan] at h
      have hp : f q = p := by simpa [Listing.place_cons_zero hi] using hf 0
      cases hstep : step ranges q i with
      | error e =>
        rw [hstep] at h
        cases h
      | ok next =>
        rw [hstep] at h
        have hmoved : step (ranges.map (moved f)) p i = .ok (next.map (moved f)) :=
          hp ▸ step_moved hstep
        rw [hmoved]
        refine ih (fun k => ?_) h
        have hk := hf (k + 1)
        rw [Listing.place_cons_succ hi] at hk
        rw [show q + 1 + k = q + (k + 1) by omega, hk]
        omega

end LiveRange

/-- Between two lines there is a call exactly if there is one without the comments. -/
theorem anyFrom_callsFrom_place (code : Listing) (a b : Nat) :
    (callsFrom 0 .empty code).anyFrom (code.place a + 1) (code.place b) =
      (callsFrom 0 .empty code.bare).anyFrom (a + 1) b := by
  have hmono := code.place_strictMono
  have hcalls : ∀ l : Listing, ∀ n, (callsFrom 0 .empty l).contains n = true ↔
    ∃ i, l[n]? = some i ∧ i.isCall = true := by
    intro l n
    simp [contains_callsFrom, BitSet.contains_empty]
  rw [Bool.eq_iff_iff, BitSet.anyFrom_eq_true, BitSet.anyFrom_eq_true]
  constructor
  · rintro ⟨n, hlow, hhigh, hn⟩
    obtain ⟨i, hi, hcall⟩ := (hcalls code n).1 hn
    have hcomment : i.isComment = false := by
      cases i with
      | comment => cases hcall
      | _ => rfl
    obtain ⟨k, rfl⟩ := Listing.exists_place hi hcomment
    exact ⟨k, hmono.lt_iff_lt.1 hlow, hmono.lt_iff_lt.1 hhigh,
      (hcalls _ k).2 ⟨i, by rw [← Listing.getElem?_place, hi], hcall⟩⟩
  · rintro ⟨k, hlow, hhigh, hk⟩
    obtain ⟨i, hi, hcall⟩ := (hcalls code.bare k).1 hk
    exact ⟨code.place k, hmono hlow, hmono hhigh,
      (hcalls _ _).2 ⟨i, by rw [Listing.getElem?_place, hi], hcall⟩⟩

/-- The live ranges of a listing are those without its comments, with the places that the lines
have in the listing. -/
theorem liveRanges_bare {code : Listing} {ranges : List LiveRange}
    (h : liveRanges code.bare = .ok ranges) :
    liveRanges code = .ok (ranges.map (LiveRange.moved code.place)) := by
  cases hs : LiveRange.scan [] 0 code.bare with
  | error e =>
    unfold liveRanges at h
    rw [hs] at h
    cases h
  | ok scanned =>
    have hscan : LiveRange.scan [] 0 code = .ok (scanned.map (LiveRange.moved code.place)) :=
      LiveRange.scan_moved (fun k => by rw [Nat.zero_add, Nat.zero_add]) hs
    rw [liveRanges_eq_ok hs] at h
    obtain rfl := Except.ok.inj h
    rw [liveRanges_eq_ok hscan, ← List.map_reverse, List.map_map, List.map_map]
    refine congrArg Except.ok (List.map_congr_left fun v _ => ?_)
    simp only [Function.comp_apply, LiveRange.moved, anyFrom_callsFrom_place]

/-! ### The scan -/

/-- A fold over mapped elements, with a step that commutes with maps of the elements
and of the result. -/
theorem foldl_map_hom {α β γ δ : Type} {step : α → β → α} {step' : γ → δ → γ} (m : α → γ)
    (n : β → δ) (h : ∀ a b, step' (m a) (n b) = m (step a b)) (a : α) (l : List β) :
    (l.map n).foldl step' (m a) = m (l.foldl step a) := by
  rw [List.foldl_map]
  exact List.foldl_hom m h

namespace LinearScan

variable {f : Nat → Nat} (hf : StrictMono f)

/-- The state with other numbers for the places of the active ranges. -/
def moved (f : Nat → Nat) (s : LinearScan) : LinearScan :=
  { s with active := s.active.map (LiveRange.moved f) }

theorem release_moved (s : LinearScan) (r : Reg) :
    (s.moved f).release r = (s.release r).moved f := by
  unfold release
  split <;> rfl

theorem take_moved (s : LinearScan) (r : Reg) : (s.moved f).take r = (s.take r).moved f := by
  unfold take
  split <;> rfl

theorem choose?_moved (s : LinearScan) (v : LiveRange) :
    (s.moved f).choose? (v.moved f) = s.choose? v := rfl

include hf

theorem endsBefore_moved (v w : LiveRange) :
    endsBefore (v.moved f) (w.moved f) = endsBefore v w := by
  have hstop : f v.stop = f w.stop ↔ v.stop = w.stop := hf.injective.eq_iff
  by_cases h : v.stop = w.stop <;> simp [endsBefore, LiveRange.moved, hstop, h, hf.lt_iff_lt]

theorem startsBefore_moved (v w : LiveRange) :
    startsBefore (v.moved f) (w.moved f) = startsBefore v w := by
  have hstart : f v.start = f w.start ↔ v.start = w.start := hf.injective.eq_iff
  by_cases h : v.start = w.start <;> simp [startsBefore, LiveRange.moved, hstart, h, hf.lt_iff_lt]

theorem expire_moved [Heap] [UniformHeap] (place count : Nat) (s : LinearScan) :
    expire (f place) count (s.moved f) = (expire place count s).moved f := by
  induction count generalizing s with
  | zero => rfl
  | succ count ih =>
    have hpop : Heap.pop? endsBefore (s.moved f).active = _ :=
      UniformHeap.pop?_map (endsBefore_moved hf) s.active
    rw [expire, expire, hpop]
    cases Heap.pop? endsBefore s.active with
    | none => rfl
    | some p =>
      obtain ⟨v, rest⟩ := p
      simp only [Option.map_some, LiveRange.moved, hf.le_iff_le]
      split
      · exact (congrArg (expire (f place) count) (release_moved { s with active := rest } _)).trans
          (ih _)
      · rfl

theorem victim?_moved (s : LinearScan) (v : LiveRange) :
    (s.moved f).victim? (v.moved f) = (s.victim? v).map fun (w, i) => (w.moved f, i) := by
  have hfilter : (((s.active.map (LiveRange.moved f)).toList.zipIdx).filter fun (w, _) =>
    (s.moved f).suits (v.moved f) w) =
      (s.active.toList.zipIdx.filter fun (w, _) => s.suits v w).map fun (w, i) =>
        (w.moved f, i) := by
    rw [Array.toList_map, List.zipIdx_map, List.filter_map]
    rfl
  unfold victim?
  rw [show (s.moved f).active = s.active.map (LiveRange.moved f) from rfl, hfilter]
  refine foldl_map_hom (Option.map fun (p : LiveRange × Nat) => (p.1.moved f, p.2)) _ ?_ none _
  rintro (_ | ⟨b, j⟩) ⟨w, i⟩
  · rfl
  · simp only [Option.map_some, LiveRange.moved, hf.lt_iff_lt]
    split <;> rfl

/-- Placing a range, where all places have other numbers in the same order. -/
theorem visit_moved [Heap] [UniformHeap] (base : Int32) (s : LinearScan) (v : LiveRange) :
    visit base (s.moved f) (v.moved f) = (visit base s v).moved f := by
  have hexpire : expire (v.moved f).start (s.moved f).active.size (s.moved f) =
    (expire v.start s.active.size s).moved f := by
    rw [show (s.moved f).active.size = s.active.size from Array.size_map]
    exact expire_moved hf v.start s.active.size s
  unfold visit
  rw [hexpire]
  generalize expire v.start s.active.size s = s
  simp only [choose?_moved, victim?_moved hf, take_moved]
  have hpush := UniformHeap.push_map (endsBefore_moved hf)
  have hreplace := Heap.replace_map (endsBefore_moved hf)
  cases s.choose? v with
  | some r => simp only [moved, hpush]; rfl
  | none =>
    cases s.victim? v with
    | none => rfl
    | some p =>
      obtain ⟨old, i⟩ := p
      simp only [Option.map_some, LiveRange.moved, hf.le_iff_le]
      split
      · rfl
      · simp only [moved, ← hreplace]; rfl

/-- The scan of ranges, where all places have other numbers in the same order. -/
theorem run_moved [Heap] [UniformHeap] (pools : Pools) (base : Int32) (ranges : List LiveRange) :
    run pools base (ranges.map (LiveRange.moved f)) = (run pools base ranges).moved f := by
  have hstart : (start pools).moved f = start pools := by simp [moved, start]
  have hfold :=
    foldl_map_hom (moved f) (LiveRange.moved f) (visit_moved hf base) (start pools)
      (Heap.inOrder startsBefore ranges)
  rw [run, run, Heap.inOrder_map (startsBefore_moved hf)]
  rwa [hstart] at hfold

end LinearScan

/-! ### Allocation -/

namespace Placement

theorem isComment_mapRegs (written read : Reg → Reg) (i : Instr) :
    (i.mapRegs written read).isComment = i.isComment := by
  cases i <;> rfl

theorem realizeInstr_of_comment (p : Placement) {i : Instr} (h : i.isComment = true) :
    p.realizeInstr i = [i] := by
  cases i with
  | comment => rfl
  | _ => cases h

theorem isComment_of_mem_realizeInstr {p : Placement} {i j : Instr} (h : i.isComment = false)
    (hj : j ∈ p.realizeInstr i) : j.isComment = false := by
  simp only [realizeInstr, List.mem_append, List.mem_cons, List.mem_map] at hj
  rcases hj with ⟨_, -, rfl⟩ | rfl | hj
  · rfl
  · rw [isComment_mapRegs, h]
  · split at hj
    · obtain rfl := List.mem_singleton.1 hj
      rfl
    · cases hj

/-- The comments in the realized code are those of the listing. -/
theorem bare_realize (p : Placement) (code : Listing) :
    Listing.bare (p.realize code) = p.realize code.bare := by
  induction code with
  | nil => rfl
  | cons i code ih =>
    rw [realize, List.flatMap_cons, ← realize, Listing.bare_append, ih]
    cases hi : i.isComment with
    | true => rw [realizeInstr_of_comment p hi, Listing.bare_cons_of_comment hi,
      Listing.bare_cons_of_comment hi]; rfl
    | false => rw [Listing.bare_eq_self fun j => isComment_of_mem_realizeInstr hi,
      Listing.bare_cons_of_line hi]; rfl

end Placement

/-- **Comments do not change the allocation.** If a listing without its comments can be allocated,
then so can the listing, with the same placement and the same preserved registers; and without its
comments the code is the same too. -/
theorem allocate_bare [Heap] [UniformHeap] {pools : Pools} {base : Int32} {code : Listing}
    {a : Allocation} (h : allocate pools base code.bare = .ok a) :
    allocate pools base code = .ok { a with code := a.placement.realize code } ∧
      Listing.bare (a.placement.realize code) = a.code := by
  cases hr : liveRanges code.bare with
  | error e =>
    rw [allocate, hr] at h
    cases h
  | ok ranges =>
    have hrun := LinearScan.run_moved code.place_strictMono pools base ranges
    rw [allocate_of_liveRanges pools base hr] at h
    obtain rfl := Except.ok.inj h
    rw [allocate_of_liveRanges pools base (liveRanges_bare hr), Placement.bare_realize, hrun]
    exact ⟨rfl, rfl⟩

end FunRiscv
