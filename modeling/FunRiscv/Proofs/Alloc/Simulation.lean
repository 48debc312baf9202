import Mathlib
import FunRiscv.Proofs.Alloc.Scan
import FunRiscv.Proofs.Machine.Execution

/-!
# Code on machine registers follows code on virtual registers

* `Placement.Fits`: a placement that comes from a scan over the live ranges of a listing.
* `Placement.Follows`: how the machine that runs the code on machine registers stands to
  the one that runs the listing. A virtual register whose range is not over is found in its
  home or on the stack.
* `Placement.run_loads`, `Placement.source_loaded`: the loads before an instruction
  fetch what it reads.
* `Placement.Follows.flow`: one step of the listing is a run through the block of
  instructions that it became.
-/

namespace FunRiscv

open Machine

/-- Whether a register is one of those that code on virtual registers may share with its caller and
its callees: the return address, the stack pointer and the registers of arguments. -/
def Reg.isShared (r : Reg) : Bool := r == .ra || r == .sp || (10 ≤ r.number && r.number ≤ 17)

/-- Whether a register may occur in code on virtual registers. -/
def Reg.isLowered (r : Reg) : Bool := r.isVirtual || r == .zero || r.isShared

/-- Whether an instruction may occur in code on virtual registers. It does not change
the stack pointer. -/
def Instr.isLowered (i : Instr) : Bool :=
  i.reads.all Reg.isLowered && i.dest.isLowered && i.dest != .sp

theorem Instr.isLowered_iff {i : Instr} :
    i.isLowered = true ↔ (∀ r ∈ i.reads, r.isLowered = true) ∧ i.dest.isLowered = true ∧
      i.dest ≠ .sp := by
  simp [Instr.isLowered, and_assoc]

namespace Placement

/-! ### Placements that fit a listing -/

/-- A placement of the registers of a listing, whose live ranges are given, with the
standard pools. -/
structure Fits (base : Int32) (code : Listing) (ranges : List LiveRange) (p : Placement) :
    Prop where
  live : LiveRanges code ranges
  kept : ∃ place active, p.Keeps .standard base place ranges active

variable {base : Int32} {code : Listing} {ranges : List LiveRange} {p : Placement}

namespace Fits

theorem range_unique (f : p.Fits base code ranges) {v w : LiveRange} (hv : v ∈ ranges)
    (hw : w ∈ ranges) (h : v.reg = w.reg) : v = w := List.inj_on_of_nodup_map f.live.nodup hv hw h

/-- A home is neither a scratch register nor one that the code may share. -/
theorem home_private (f : p.Fits base code ranges) {r h : Reg} (hr : p.home? r = some h) :
    h ≠ .t5 ∧ h ≠ .t6 ∧ h ≠ .zero ∧ h.isShared = false ∧ h.isVirtual = false := by
  obtain ⟨place, active, k⟩ := f.kept
  have key : ∀ q ∈ Pools.standard.temps ++ Pools.standard.saved,
      q ≠ .t5 ∧ q ≠ .t6 ∧ q ≠ .zero ∧ q.isShared = false ∧ q.isVirtual = false := by decide
  exact key h (List.mem_append.2 (k.pooled r h hr))

/-- A register with a live range and without a word on the stack has a home. -/
theorem home?_of_slot? (f : p.Fits base code ranges) {v : LiveRange} (hv : v ∈ ranges)
    (h : p.slot? v.reg = none) : ∃ q, p.home? v.reg = some q := by
  obtain ⟨place, active, k⟩ := f.kept
  have := k.placed v hv
  rw [h] at this
  exact Option.isSome_iff_exists.1 this

/-- Two ranges that share a home do not overlap. -/
theorem apart (f : p.Fits base code ranges) {v w : LiveRange} (hv : v ∈ ranges) (hw : w ∈ ranges)
    (hne : v.reg ≠ w.reg) {h : Reg} (hvh : p.home? v.reg = some h) (hwh : p.home? w.reg = some h) :
    v.stop ≤ w.start ∨ w.stop ≤ v.start := by
  obtain ⟨place, active, k⟩ := f.kept
  rcases Nat.lt_trichotomy v.start w.start with hlt | heq | hlt
  · exact .inl (k.apart v hv w hw hlt h hvh hwh)
  · -- Ranges are in the strict order of their starts.
    have hsorted : (ranges.map (·.start)).Nodup := by
      rw [List.Nodup, List.pairwise_map]
      exact f.live.sorted.imp fun h => h.ne
    exact absurd (congrArg _ (List.inj_on_of_nodup_map hsorted hv hw heq)) hne
  · exact .inr (k.apart w hw v hv hlt h hwh hvh)

/-- The word of a register on the stack has a number, which belongs to no other register. -/
theorem index_of_slot? (f : p.Fits base code ranges) {r : Reg} {o : Int32}
    (h : p.slot? r = some o) :
    ∃ k < p.spilled.length, o = offsetOf base k ∧
      p.spilled[p.spilled.length - 1 - k]? = some (r, o) := by
  obtain ⟨place, active, kept⟩ := f.kept
  obtain ⟨before, after, hsplit, -⟩ := List.lookup_eq_some_iff.1 h
  have hlen : p.spilled.length = before.length + after.length + 1 := by simp [hsplit]; omega
  have hget : p.spilled[before.length]? = some (r, o) := by simp [hsplit]
  refine ⟨after.length, by omega,
    ?_, by rw [show p.spilled.length - 1 - after.length = before.length by omega]; exact hget⟩
  have hoffset : (p.spilled.map (·.2))[before.length]? = some o := by simp [hget]
  rw [kept.offsets, List.getElem?_reverse (by simp; omega)] at hoffset
  simp only [List.length_map, List.length_range] at hoffset
  rw [show p.spilled.length - 1 - before.length = after.length by omega] at hoffset
  simpa [List.getElem?_range (show after.length < p.spilled.length by omega)] using hoffset.symm

end Fits

/-! ### The words of the spilled registers -/

/-- The addresses of the spilled registers, where the stack pointer holds a word. -/
def area (base : Int32) (p : Placement) (sp : Val) : Set Val :=
  span (sp + base.toBitVec) (4 * p.spilled.length)

theorem toBitVec_offsetOf (base : Int32) (k : Nat) :
    (offsetOf base k).toBitVec = base.toBitVec + BitVec.ofNat 32 (4 * k) := by
  unfold offsetOf wordSize
  rw [Int32.toBitVec_add, Int32.toBitVec_mul, Int32.toBitVec_ofNat', Int32.toBitVec_ofNat',
    ← BitVec.ofNat_mul]

theorem distance_offsetOf (base : Int32) {k n : Nat} (hk : k < n) (hfit : 4 * n ≤ 2 ^ 32)
    (sp : Val) : (sp + (offsetOf base k).toBitVec - (sp + base.toBitVec)).toNat = 4 * k := by
  rw [toBitVec_offsetOf,
    show sp + (base.toBitVec + BitVec.ofNat 32 (4 * k)) - (sp + base.toBitVec) =
      BitVec.ofNat 32 (4 * k) by
    ring, BitVec.toNat_ofNat]
  exact Nat.mod_eq_of_lt (by omega)

namespace Fits

theorem word_subset_area (f : p.Fits base code ranges) (hfit : 4 * p.spilled.length ≤ 2 ^ 32)
    {r : Reg} {o : Int32} (h : p.slot? r = some o) (sp : Val) :
    span (sp + o.toBitVec) 4 ⊆ p.area base sp := by
  obtain ⟨k, hk, rfl, -⟩ := f.index_of_slot? h
  intro x hx
  refine mem_span_of_mem_span hx ?_
  rw [distance_offsetOf base hk hfit sp]
  omega

/-- The words of two registers have no address in common. -/
theorem words_apart (f : p.Fits base code ranges) (hfit : 4 * p.spilled.length ≤ 2 ^ 32) {r q : Reg}
    {o o' : Int32} (hr : p.slot? r = some o) (hq : p.slot? q = some o') (hne : r ≠ q) (sp : Val) :
    ∀ x ∈ span (sp + o.toBitVec) 4, x ∉ span (sp + o'.toBitVec) 4 := by
  obtain ⟨k, hk, rfl, hget⟩ := f.index_of_slot? hr
  obtain ⟨l, hl, rfl, hget'⟩ := f.index_of_slot? hq
  have hkl : k ≠ l := by
    rintro rfl
    rw [hget] at hget'
    exact hne (congrArg Prod.fst (Option.some.inj hget'))
  intro x hx
  have hdk := distance_offsetOf base hk hfit sp
  have hdl := distance_offsetOf base hl hfit sp
  exact not_mem_span_of_mem_span (a := sp + base.toBitVec) hx (by omega) (by omega) (by omega)

end Fits

/-! ### Loads before an instruction -/

theorem mem_stacked {rs : List Reg} {r : Reg} {o : Int32} :
    (r, o) ∈ p.stacked rs ↔ r ∈ rs ∧ p.slot? r = some o := by
  unfold stacked
  simp only [List.mem_filterMap, List.mem_eraseDups, Option.map_eq_some_iff, Prod.mk.injEq]
  constructor
  · rintro ⟨q, hq, o', ho, rfl, rfl⟩
    exact ⟨hq, ho⟩
  · rintro ⟨hr, ho⟩
    exact ⟨r, hr, o, ho, rfl, rfl⟩

theorem eraseDups_spec (rs : List Reg) : rs.eraseDups.Nodup ∧ rs.eraseDups.length ≤ rs.length := by
  induction h : rs.length using Nat.strong_induction_on generalizing rs with
  | _ n ih =>
    cases rs with
    | nil => simp
    | cons r rs =>
      have hfilter : (rs.filter fun q => !q == r).length ≤ rs.length := List.length_filter_le _ _
      rw [List.length_cons] at h
      obtain ⟨hnodup, hlen⟩ := ih _ (by omega) (rs.filter fun q => !q == r) rfl
      rw [List.eraseDups_cons]
      refine ⟨List.nodup_cons.2 ⟨?_, hnodup⟩, ?_⟩
      · simp [List.mem_eraseDups]
      · rw [List.length_cons]
        omega

theorem stacked_nodup (p : Placement) (rs : List Reg) : ((p.stacked rs).map (·.1)).Nodup := by
  have hsub : ((p.stacked rs).map (·.1)).Sublist rs.eraseDups := by
    unfold stacked
    induction rs.eraseDups with
    | nil => simp
    | cons r rs ih =>
      rw [List.filterMap_cons]
      cases p.slot? r with
      | none => exact ih.cons r
      | some o => exact ih.cons_cons r
  exact hsub.nodup (eraseDups_spec rs).1

theorem stacked_length_le (p : Placement) (i : Instr) :
    (p.stacked i.reads).length ≤ scratch.length := by
  have hreads : i.reads.eraseDups.length ≤ 2 := by
    refine (eraseDups_spec i.reads).2.trans ?_
    cases i <;> simp [Instr.reads]
  exact (List.length_filterMap_le _ _).trans hreads

/-- A register on the stack that is read passes through a scratch register. -/
theorem exists_scratch {st : List (Reg × Int32)} {ss : List Reg} (hlen : st.length ≤ ss.length)
    (hnodup : (st.map (·.1)).Nodup) {r : Reg} {o : Int32} (h : (r, o) ∈ st) :
    ∃ s, ((st.map (·.1)).zip ss).lookup r = some s ∧ (s, r, o) ∈ ss.zip st := by
  induction st generalizing ss with
  | nil => simp at h
  | cons e st ih =>
    cases ss with
    | nil => simp at hlen
    | cons s ss =>
      rw [List.map_cons, List.nodup_cons] at hnodup
      rw [List.map_cons, List.zip_cons_cons, List.zip_cons_cons]
      rcases List.mem_cons.1 h with rfl | hmem
      · exact ⟨s, by rw [lookup_cons_eq, if_pos rfl], List.mem_cons_self⟩
      · have hne : r ≠ e.1 := by
          intro heq
          have hkey := List.mem_map_of_mem (f := fun e : Reg × Int32 => e.1) hmem
          exact hnodup.1 (heq ▸ hkey)
        obtain ⟨t, ht, hmem'⟩ := ih (by simpa using hlen) hnodup.2 hmem
        exact ⟨t, by rw [lookup_cons_eq, if_neg hne]; exact ht, List.mem_cons_of_mem _ hmem'⟩

theorem lookup_zip_eq_none {rs ss : List Reg} {r : Reg} (h : r ∉ rs) :
    (rs.zip ss).lookup r = none := by
  induction rs generalizing ss with
  | nil => rfl
  | cons q rs ih =>
    cases ss with
    | nil => rfl
    | cons s ss =>
      rw [List.mem_cons, not_or] at h
      rw [List.zip_cons_cons, lookup_cons_eq, if_neg h.1]
      exact ih h.2

/-- Loads of words on the stack fetch them into scratch registers and change nothing else. -/
theorem run_loads (sym : String → Val) {big : Listing} {sp : Val} (ls : List (Reg × Reg × Int32))
    {d : Config} (hat : At big d.pc (ls.map fun (s, _, offset) => .load .lw s .sp offset))
    (hsp : d.regs .sp = some sp) (hnodup : (ls.map (·.1)).Nodup) (hne : ∀ e ∈ ls, e.1 ≠ .sp) :
    ∃ d', Run (flow sym big) d (List.range' d.pc ls.length) d' ∧ d'.pc = d.pc + ls.length ∧
      d'.mem = d.mem ∧ d'.calls = d.calls ∧
      (∀ e ∈ ls, d'.regs e.1 = some (d.mem.word (sp + e.2.2.toBitVec))) ∧
      ∀ r, (∀ e ∈ ls, e.1 ≠ r) → d'.regs r = d.regs r := by
  induction ls generalizing d with
  | nil => exact ⟨d, .nil d, rfl, rfl, rfl, by simp, fun _ _ => rfl⟩
  | cons e ls ih =>
    obtain ⟨s, r, o⟩ := e
    rw [List.map_cons, List.nodup_cons] at hnodup
    obtain ⟨hi, hrest⟩ := At.head hat
    have hsp' : d.regs.get .sp = some sp := hsp
    have hs : Reg.sp ≠ s := (hne _ List.mem_cons_self).symm
    have heffect : (Instr.load .lw s .sp o).effect sym d.regs.get d.mem =
      some (some (d.mem.word (sp + o.toBitVec)), d.mem) := by
      simp [Instr.effect, hsp', LoadOp.extend, LoadOp.width, Memory.word]
    have hstep := flow_of_effect hi heffect
    have hsp₁ : d.regs.put s (some (d.mem.word (sp + o.toBitVec))) .sp = some sp := by
      rw [Regs.put_of_ne hs]
      exact hsp
    obtain ⟨d', hrun, hpc, hmem, hcalls, hloaded, hkept⟩ := ih (d := { d with
        pc := d.pc + 1, regs := d.regs.put s (some (d.mem.word (sp + o.toBitVec))) }) hrest
      hsp₁ hnodup.2 (fun e he => hne e (List.mem_cons_of_mem _ he))
    refine ⟨d', ?_, ?_, hmem, hcalls, ?_, ?_⟩
    · rw [List.length_cons, List.range'_succ]
      exact .cons hstep hrun
    · rw [hpc, List.length_cons]
      show d.pc + 1 + ls.length = d.pc + (ls.length + 1)
      omega
    · intro e he
      rcases List.mem_cons.1 he with rfl | he
      · rw [hkept s fun e he heq => hnodup.1 (List.mem_map.2 ⟨e, he, heq⟩)]
        exact if_pos rfl
      · exact hloaded e he
    · intro q hq
      rw [hkept q fun e he => hq e (List.mem_cons_of_mem _ he)]
      have hqs : q ≠ s := (hq _ List.mem_cons_self).symm
      show d.regs.put s (some (d.mem.word (sp + o.toBitVec))) q = d.regs q
      rw [Regs.put_of_ne hqs]

/-! ### Blocks -/

/-- The loads before an instruction. -/
def loadsOf (p : Placement) (i : Instr) : Listing :=
  (scratch.zip (p.stacked i.reads)).map fun (s, _, offset) => .load .lw s .sp offset

/-- The registers that an instruction reads from scratch registers. -/
def loadedOf (p : Placement) (i : Instr) : List (Reg × Reg) :=
  ((p.stacked i.reads).map (·.1)).zip scratch

/-- The store after an instruction. -/
def storesOf (p : Placement) (i : Instr) : Listing :=
  match if i.dest.isVirtual then p.slot? i.dest else none with
  | some offset => [.store .sw .t5 .sp offset]
  | none => []

theorem realizeInstr_eq (p : Placement) (i : Instr) :
    p.realizeInstr i =
      p.loadsOf i ++ (i.mapRegs p.target (p.source (p.loadedOf i)) :: p.storesOf i) := rfl

theorem target_zero (p : Placement) : p.target .zero = .zero := rfl

/-! ### Following a listing -/

/-- A relation between what a register holds in code on virtual registers and what it holds in code
on machine registers: words are the same. -/
structure Carries (V : Option Val → Option Val → Prop) : Prop where
  eq_some : ∀ w x, V (some w) x → x = some w
  refl : ∀ w, V (some w) (some w)

/-- Where a virtual register is found: on the stack or in its home. -/
def Located (p : Placement) (sp : Val) (d : Config) (v : Reg) (w : Val) : Prop :=
  match p.slot? v with
  | some o => d.mem.word (sp + o.toBitVec) = w
  | none => d.regs (p.home v) = some w

/-- How a machine that runs code on machine registers stands to one that runs code on virtual
registers: they agree on the shared registers and on a region of memory, and each virtual register
whose range is not over is found in its place. -/
structure Follows (V : Option Val → Option Val → Prop) (keep : Set Val) (ranges : List LiveRange)
    (p : Placement) (sp : Val) (c d : Config) : Prop where
  shared : ∀ r, r.isShared = true → V (c.regs r) (d.regs r)
  sp_eq : c.regs .sp = some sp
  mem : ∀ x ∈ keep, c.mem x = d.mem x
  live : ∀ v w, v.isVirtual = true → c.regs v = some w →
    ∃ R ∈ ranges, R.reg = v ∧ R.start < c.pc ∧ (c.pc ≤ R.stop → p.Located sp d v w)
  calls : c.calls = d.calls

theorem ne_of_isShared {r q : Reg} (h : r.isShared = true) (hq : q.isShared = false) : r ≠ q := by
  rintro rfl
  simp [h] at hq

theorem ne_zero_of_isVirtual {r : Reg} (h : r.isVirtual = true) : r ≠ .zero := by
  rintro rfl
  cases h

theorem isShared_of_isLowered {r : Reg} (h : r.isLowered = true) (hv : r.isVirtual = false)
    (hz : r ≠ .zero) : r.isShared = true := by simpa [Reg.isLowered, hv, hz] using h

variable {V : Option Val → Option Val → Prop} {keep : Set Val} {sp : Val} {sym : String → Val}
  {big : Listing} {c d : Config}

namespace Follows

theorem sp_target (s : Follows V keep ranges p sp c d) (hV : Carries V) : d.regs .sp = some sp := by
  have h := s.shared .sp rfl
  rw [s.sp_eq] at h
  exact hV.eq_some _ _ h

/-- The loads before an instruction fetch what it reads. -/
theorem fetch (s : Follows V keep ranges p sp c d) (hV : Carries V) (f : p.Fits base code ranges)
    {i : Instr} (hi : code[c.pc]? = some i) (hlow : i.isLowered = true) {rest : Listing}
    (hat : At big d.pc (p.loadsOf i ++ rest)) :
    ∃ d', Run (flow sym big) d (List.range' d.pc (p.loadsOf i).length) d' ∧
      d'.pc = d.pc + (p.loadsOf i).length ∧ d'.mem = d.mem ∧ d'.calls = d.calls ∧
      (∀ r, r ≠ .t5 → r ≠ .t6 → d'.regs r = d.regs r) ∧
      ∀ r ∈ i.reads, ∀ x, c.regs.get r = some x →
        d'.regs.get (p.source (p.loadedOf i) r) = some x := by
  have hzip : ∀ e ∈ scratch.zip (p.stacked i.reads), e.1 = .t5 ∨ e.1 = .t6 := by
    intro e he
    have := (List.of_mem_zip he).1
    simpa [scratch] using this
  have hnodup : ((scratch.zip (p.stacked i.reads)).map (·.1)).Nodup := by
    have ht : Reg.t5 ≠ .t6 := by decide
    rcases p.stacked i.reads with _ | ⟨a, _ | ⟨b, st⟩⟩ <;> simp [scratch, ht]
  obtain ⟨d', hrun, hpc, hmem, hcalls, hloaded, hkept⟩ :=
    run_loads sym (scratch.zip (p.stacked i.reads)) (At.append hat).1 (s.sp_target hV) hnodup (by
      intro e he
      rcases hzip e he with h | h <;> rw [h] <;> decide)
  have hother : ∀ r, r ≠ .t5 → r ≠ .t6 → d'.regs r = d.regs r := by
    intro r h5 h6
    refine hkept r fun e he => ?_
    rcases hzip e he with h | h
    · rw [h]
      exact h5.symm
    · rw [h]
      exact h6.symm
  have hlen : (p.loadsOf i).length = (scratch.zip (p.stacked i.reads)).length := by
    rw [loadsOf, List.length_map]
  refine ⟨d', by rw [hlen]; exact hrun, by rw [hlen]; exact hpc, hmem, hcalls, hother, ?_⟩
  intro r hr x hx
  by_cases hv : r.isVirtual = true
  · rw [Regs.get_of_ne_zero (ne_zero_of_isVirtual hv)] at hx
    obtain ⟨R, hR, hreg, -, hloc⟩ := s.live r x hv hx
    obtain ⟨R', hR', hreg', -, hstop⟩ := f.live.reads _ i r hi hr hv
    obtain rfl := f.range_unique hR hR' (hreg.trans hreg'.symm)
    have hloc := hloc hstop
    unfold Located at hloc
    unfold source
    rw [hv]
    cases hslot : p.slot? r with
    | some o =>
      rw [hslot] at hloc
      obtain ⟨t, hlookup, hmem'⟩ :=
        exists_scratch (p.stacked_length_le i) (p.stacked_nodup i.reads) (mem_stacked.2 ⟨hr, hslot⟩)
      have ht : t ≠ .zero := by
        rcases hzip _ hmem' with h | h <;> rw [show t = _ from h] <;> decide
      simp only [Bool.not_true, Bool.false_eq_true, if_false, loadedOf, hlookup]
      rw [Regs.get_of_ne_zero ht, hloaded _ hmem']
      exact congrArg some hloc
    | none =>
      rw [hslot] at hloc
      have hnot : r ∉ (p.stacked i.reads).map (·.1) := by
        intro hmem'
        obtain ⟨⟨q, o⟩, he, rfl⟩ := List.mem_map.1 hmem'
        simp [(mem_stacked.1 he).2] at hslot
      obtain ⟨h, hh⟩ := f.home?_of_slot? hR (by rw [hreg]; exact hslot)
      rw [hreg] at hh
      obtain ⟨h5, h6, h0, -, -⟩ := f.home_private hh
      simp only [Bool.not_true, Bool.false_eq_true, if_false, loadedOf, lookup_zip_eq_none hnot]
      rw [home_of_home? hh] at hloc ⊢
      rw [Regs.get_of_ne_zero h0, hother h h5 h6]
      exact hloc
  · have hv := Bool.eq_false_of_not_eq_true hv
    have hsource : p.source (p.loadedOf i) r = r := by simp [source, hv]
    rw [hsource]
    by_cases hz : r = .zero
    · subst hz
      exact hx
    · have hsh := isShared_of_isLowered ((Instr.isLowered_iff.1 hlow).1 r hr) hv hz
      rw [Regs.get_of_ne_zero hz] at hx ⊢
      rw [hother r (ne_of_isShared hsh rfl) (ne_of_isShared hsh rfl)]
      have h := s.shared r hsh
      rw [hx] at h
      exact hV.eq_some _ _ h

/-- The place that a virtual register is written to is a scratch register or its home. -/
theorem target_virtual (f : p.Fits base code ranges) {i : Instr} {place : Nat}
    (hi : code[place]? = some i) (hv : i.dest.isVirtual = true) :
    (∃ o, p.slot? i.dest = some o ∧ p.target i.dest = .t5) ∨
      ∃ h, p.slot? i.dest = none ∧ p.home? i.dest = some h ∧ p.target i.dest = h := by
  unfold target
  rw [hv]
  cases hslot : p.slot? i.dest with
  | some o => exact .inl ⟨o, rfl, rfl⟩
  | none =>
    obtain ⟨R, hR, hreg, -, -⟩ := f.live.writes place i hi hv
    obtain ⟨h, hh⟩ := f.home?_of_slot? hR (by rw [hreg]; exact hslot)
    rw [hreg] at hh
    exact .inr ⟨h, rfl, hh, home_of_home? hh⟩

/-- No shared register but the destination itself is written. -/
theorem ne_target (f : p.Fits base code ranges) {i : Instr} {place : Nat}
    (hi : code[place]? = some i) {r : Reg} (hr : r.isShared = true) (hne : r ≠ i.dest) :
    r ≠ p.target i.dest := by
  by_cases hv : i.dest.isVirtual = true
  · rcases target_virtual f hi hv with ⟨o, -, ht⟩ | ⟨h, -, hh, ht⟩
    · rw [ht]
      exact ne_of_isShared hr rfl
    · rw [ht]
      exact ne_of_isShared hr (f.home_private hh).2.2.2.1
  · have ht : p.target i.dest = i.dest := by simp [target, hv]
    rw [ht]
    exact hne

/-- A home in use is not written by an instruction that writes another register. -/
theorem home_ne_target (f : p.Fits base code ranges) {i : Instr} {place : Nat}
    (hi : code[place]? = some i) (hlow : i.isLowered = true) {R : LiveRange} (hR : R ∈ ranges)
    (hstart : R.start < place) (hstop : place < R.stop) (hne : R.reg ≠ i.dest) {h : Reg}
    (hh : p.home? R.reg = some h) : h ≠ p.target i.dest := by
  obtain ⟨h5, -, h0, hsh, hvirt⟩ := f.home_private hh
  by_cases hv : i.dest.isVirtual = true
  · rcases target_virtual f hi hv with ⟨o, -, ht⟩ | ⟨q, -, hq, ht⟩
    · rw [ht]
      exact h5
    · rw [ht]
      rintro rfl
      -- The range of the destination covers the place, and ranges with one home do not overlap.
      obtain ⟨S, hS, hreg, hSstart, hSstop⟩ := f.live.writes place i hi hv
      rw [← hreg] at hq hne
      rcases f.apart hR hS hne hh hq with hle | hle <;> omega
  · have hv := Bool.eq_false_of_not_eq_true hv
    have ht : p.target i.dest = i.dest := by simp [target, hv]
    rw [ht]
    rintro rfl
    simpa [hsh, h0, hvirt, Reg.isLowered] using (Instr.isLowered_iff.1 hlow).2.1

/-- One instruction is over: both machines have made the step, and only the
destination was written. -/
theorem advance (s : Follows V keep ranges p sp c d) (hV : Carries V) (f : p.Fits base code ranges)
    {i : Instr} (hi : code[c.pc]? = some i) (hlow : i.isLowered = true) {c' d' : Config}
    {w : Option Val} (hpc : c.pc < c'.pc) (hregs : c'.regs = c.regs.put i.dest w)
    (hnone : w = none → i.dest = .zero)
    (hmem : ∀ x ∈ keep, c'.mem x = d'.mem x) (hcalls : c'.calls = d'.calls)
    (hother : ∀ r, r ≠ .t5 → r ≠ .t6 → r ≠ p.target i.dest → d'.regs r = d.regs r)
    (hshared : ∀ x, w = some x → i.dest.isShared = true → d'.regs i.dest = some x)
    (hvirtual : ∀ x, w = some x → i.dest.isVirtual = true → p.Located sp d' i.dest x)
    (hwords : ∀ u o, u ≠ i.dest → p.slot? u = some o →
      d'.mem.word (sp + o.toBitVec) = d.mem.word (sp + o.toBitVec)) :
    Follows V keep ranges p sp c' d' := by
  constructor
  case shared =>
    intro r hr
    by_cases hd : r = i.dest
    · subst hd
      cases w with
      | none =>
        rw [hnone rfl] at hr
        cases hr
      | some x =>
        have hc : c'.regs i.dest = some x := by rw [hregs, Regs.put_some, if_pos rfl]
        rw [hc, hshared x rfl hr]
        exact hV.refl x
    · rw [hregs, Regs.put_of_ne hd, hother r (ne_of_isShared hr rfl) (ne_of_isShared hr rfl)
        (ne_target f hi hr hd)]
      exact s.shared r hr
  case sp_eq =>
    rw [hregs, Regs.put_of_ne (Instr.isLowered_iff.1 hlow).2.2.symm]
    exact s.sp_eq
  case mem => exact hmem
  case live =>
    intro v x hv hx
    by_cases hd : v = i.dest
    · subst hd
      cases w with
      | none =>
        rw [hnone rfl] at hv
        cases hv
      | some y =>
        obtain rfl : y = x := by simpa [hregs, Regs.put_some] using hx
        obtain ⟨R, hR, hreg, hstart, -⟩ := f.live.writes _ i hi hv
        exact ⟨R, hR, hreg, by omega, fun _ => hvirtual y rfl hv⟩
    · rw [hregs, Regs.put_of_ne hd] at hx
      obtain ⟨R, hR, rfl, hstart, hloc⟩ := s.live v x hv hx
      refine ⟨R, hR, rfl, by omega, fun hstop => ?_⟩
      have hloc := hloc (by omega)
      unfold Located at hloc ⊢
      cases hslot : p.slot? R.reg with
      | some o =>
        rw [hslot] at hloc
        exact (hwords _ o hd hslot).trans hloc
      | none =>
        rw [hslot] at hloc
        obtain ⟨h, hh⟩ := f.home?_of_slot? hR hslot
        obtain ⟨h5, h6, -, -, -⟩ := f.home_private hh
        rw [home_of_home? hh] at hloc
        show d'.regs (p.home R.reg) = some x
        rw [home_of_home? hh, hother h h5 h6 (home_ne_target f hi hlow hR hstart (by omega) hd hh)]
        exact hloc
  case calls => exact hcalls

end Follows

/-- A machine that runs code on machine registers changes, of all memory, only a region and the
words of spilled registers, and of the registers that calls preserve only those that are homes;
these keep holding words. -/
structure Spares (base : Int32) (keep : Set Val) (p : Placement) (sp : Val) (d d' : Config) :
    Prop where
  mem : ∀ x, x ∉ keep → x ∉ p.area base sp → d'.mem x = d.mem x
  regs : ∀ r, r.isSaved = true → (∀ v, p.home? v ≠ some r) → d'.regs r = d.regs r
  holding : ∀ r, r.isSaved = true → (d.regs r).isSome = true → (d'.regs r).isSome = true

theorem Spares.refl (base : Int32) (keep : Set Val) (p : Placement) (sp : Val) (d : Config) :
    Spares base keep p sp d d where
  mem := fun _ _ _ => rfl
  regs := fun _ _ _ => rfl
  holding := fun _ _ h => h

theorem Spares.trans {d' d'' : Config} (h : Spares base keep p sp d d')
    (h' : Spares base keep p sp d' d'') : Spares base keep p sp d d'' where
  mem := fun x hx ha => (h'.mem x hx ha).trans (h.mem x hx ha)
  regs := fun r hr hv => (h'.regs r hr hv).trans (h.regs r hr hv)
  holding := fun r hr hd => h'.holding r hr (h.holding r hr hd)

theorem number_lt_of_not_isVirtual {r : Reg} (h : r.isVirtual = false) : r.number < 32 := by
  rw [Reg.isVirtual, decide_eq_false_iff_not, Nat.not_le] at h
  exact h

theorem not_isVirtual_of_isShared {r : Reg} (h : r.isShared = true) : r.isVirtual = false := by
  rw [Reg.isVirtual, decide_eq_false_iff_not, Nat.not_le]
  simp only [Reg.isShared, Bool.or_eq_true, Bool.and_eq_true, beq_iff_eq, decide_eq_true_eq] at h
  rcases h with (rfl | rfl) | h
  · decide
  · decide
  · exact h.2.trans_lt (by decide)

theorem not_isSaved_of_isLowered {r : Reg} (h : r.isLowered = true) (hv : r.isVirtual = false) :
    r.isSaved = false := by
  have key : ∀ n < 32, (Reg.mk n).isLowered = true → (Reg.mk n).isSaved = false := by decide
  exact key r.number (number_lt_of_not_isVirtual hv) h

namespace Follows

/-- A preserved register that is no home is not written. -/
theorem saved_ne_target (f : p.Fits base code ranges) {i : Instr} {place : Nat}
    (hi : code[place]? = some i) (hlow : i.isLowered = true) {r : Reg} (hr : r.isSaved = true)
    (hnot : ∀ v, p.home? v ≠ some r) : r ≠ p.target i.dest := by
  by_cases hv : i.dest.isVirtual = true
  · rcases target_virtual f hi hv with ⟨o, -, ht⟩ | ⟨h, -, hh, ht⟩
    · rw [ht]
      rintro rfl
      cases hr
    · rw [ht]
      rintro rfl
      exact hnot _ hh
  · have hv := Bool.eq_false_of_not_eq_true hv
    have ht : p.target i.dest = i.dest := by simp [target, hv]
    rw [ht]
    rintro rfl
    simp [not_isSaved_of_isLowered (Instr.isLowered_iff.1 hlow).2.1 hv] at hr

theorem saved_ne_scratch {r : Reg} (hr : r.isSaved = true) : r ≠ .t5 ∧ r ≠ .t6 := by
  constructor <;> rintro rfl <;> cases hr

/-- The loads before an instruction and the instruction itself. -/
theorem perform (s : Follows V keep ranges p sp c d) (hV : Carries V) (f : p.Fits base code ranges)
    {i : Instr} (hi : code[c.pc]? = some i) (hlow : i.isLowered = true) {w : Option Val}
    {m : Memory} (heffect : i.effect sym c.regs.get c.mem = some (w, m))
    (htouch : i.touches c.regs.get ⊆ keep) (hat : At big d.pc (p.realizeInstr i)) :
    ∃ d', Run (Machine.flow sym big) d (List.range' d.pc ((p.loadsOf i).length + 1)) d' ∧
      d'.pc = d.pc + ((p.loadsOf i).length + 1) ∧ d'.calls = d.calls ∧
      (∀ r, r ≠ .t5 → r ≠ .t6 → r ≠ p.target i.dest → d'.regs r = d.regs r) ∧
      (∀ x, w = some x → d'.regs (p.target i.dest) = some x) ∧
      (∀ x ∈ keep, m x = d'.mem x) ∧ ∀ x ∉ keep, d'.mem x = d.mem x := by
  rw [realizeInstr_eq] at hat
  obtain ⟨d₁, hrun, hpc, hmem, hcalls, hregs, hread⟩ := s.fetch hV f hi hlow hat
  have hat' := (At.append hat).2
  rw [← hpc] at hat'
  obtain ⟨m', heffect', hagree, hframe⟩ := Instr.effect_mono heffect hread htouch s.mem
  rw [← Instr.effect_mapRegs sym d₁.regs.get d.mem p.target, ← hmem] at heffect'
  have hstep := flow_of_effect (At.head hat').1 heffect'
  rw [Instr.dest_mapRegs p.target_zero] at hstep
  refine ⟨{ d₁ with pc := d₁.pc + 1, regs := d₁.regs.put (p.target i.dest) w, mem := m' }, ?_, ?_,
    hcalls, ?_, ?_, hagree, hframe⟩
  · rw [List.range'_concat, Nat.one_mul, ← hpc]
    exact hrun.append (Run.single hstep)
  · rw [hpc, Nat.add_assoc]
  · intro r h5 h6 ht
    show d₁.regs.put (p.target i.dest) w r = d.regs r
    rw [Regs.put_of_ne ht]
    exact hregs r h5 h6
  · rintro x rfl
    exact if_pos rfl

/-- An instruction with an effect becomes a block that has it. -/
theorem effect (s : Follows V keep ranges p sp c d) (hV : Carries V) (f : p.Fits base code ranges)
    (hfit : 4 * p.spilled.length ≤ 2 ^ 32) (hkeep : ∀ x ∈ keep, x ∉ p.area base sp) {i : Instr}
    (hi : code[c.pc]? = some i) (hlow : i.isLowered = true) {w : Option Val} {m : Memory}
    (heffect : i.effect sym c.regs.get c.mem = some (w, m)) (htouch : i.touches c.regs.get ⊆ keep)
    (hat : At big d.pc (p.realizeInstr i)) :
    ∃ d', Run (Machine.flow sym big) d (List.range' d.pc (p.realizeInstr i).length) d' ∧
      d'.pc = d.pc + (p.realizeInstr i).length ∧
      Follows V keep ranges p sp { c with pc := c.pc + 1, regs := c.regs.put i.dest w, mem := m }
        d' ∧
      Spares base keep p sp d d' := by
  obtain ⟨d₁, hrun, hpc, hcalls, hregs, hdest, hagree, hframe⟩ :=
    s.perform hV f hi hlow heffect htouch hat
  have hnone : w = none → i.dest = .zero := by
    rintro rfl
    exact Instr.dest_eq_zero_of_effect heffect
  have hsaved : ∀ r, r.isSaved = true → (∀ v, p.home? v ≠ some r) → d₁.regs r = d.regs r :=
    fun r hr hnot =>
    hregs r (saved_ne_scratch hr).1 (saved_ne_scratch hr).2 (saved_ne_target f hi hlow hr hnot)
  have hholding : ∀ r, r.isSaved = true → (d.regs r).isSome = true → (d₁.regs r).isSome = true := by
    intro r hr hd
    by_cases ht : r = p.target i.dest
    · cases w with
      | none =>
        rw [hnone rfl, target_zero] at ht
        rw [ht] at hr
        cases hr
      | some x =>
        rw [ht, hdest x rfl]
        rfl
    · rw [hregs r (saved_ne_scratch hr).1 (saved_ne_scratch hr).2 ht]
      exact hd
  have hword : ∀ u o, p.slot? u = some o →
    d₁.mem.word (sp + o.toBitVec) = d.mem.word (sp + o.toBitVec) := fun u o ho =>
    Memory.word_congr fun x hx => hframe x fun hk => hkeep x hk (f.word_subset_area hfit ho sp hx)
  have hshared : ∀ x, w = some x → i.dest.isShared = true → d₁.regs i.dest = some x := by
    intro x hx hsh
    have ht : p.target i.dest = i.dest := by simp [target, not_isVirtual_of_isShared hsh]
    have h := hdest x hx
    rwa [ht] at h
  by_cases hspill : ∃ o, i.dest.isVirtual = true ∧ p.slot? i.dest = some o
  · -- The word goes from the first scratch register to the stack.
    obtain ⟨o, hv, hslot⟩ := hspill
    have hstores : p.storesOf i = [.store .sw .t5 .sp o] := by simp [storesOf, hv, hslot]
    have htarget : p.target i.dest = .t5 := by simp [target, hv, hslot]
    obtain ⟨x, rfl⟩ : ∃ x, w = some x := by
      refine Option.ne_none_iff_exists'.1 fun hw => ?_
      rw [hnone hw] at hv
      cases hv
    have hlen : (p.realizeInstr i).length = (p.loadsOf i).length + 1 + 1 := by
      rw [realizeInstr_eq, hstores, List.length_append]
      rfl
    have hstore : big[d₁.pc]? = some (.store .sw .t5 .sp o) := by
      rw [hpc]
      refine hat _ _ ?_
      rw [realizeInstr_eq, hstores, List.getElem?_append_right (by omega)]
      simp
    have heffect' : (Instr.store .sw .t5 .sp o).effect sym d₁.regs.get d₁.mem =
        some (none, d₁.mem.write (sp + o.toBitVec) 4 x) := by
      have h5 : d₁.regs .t5 = some x := htarget ▸ hdest x rfl
      have h5 : d₁.regs.get .t5 = some x := h5
      have hsp : d₁.regs.get .sp = some sp :=
        (hregs .sp (by decide) (by decide) (by rw [htarget]; decide)).trans (s.sp_target hV)
      simp [Instr.effect, hsp, h5, StoreOp.width]
    have hstep := flow_of_effect hstore heffect'
    refine ⟨{ d₁ with pc := d₁.pc + 1, mem := d₁.mem.write (sp + o.toBitVec) 4 x }, ?_, ?_, ?_, ?_⟩
    · rw [hlen, List.range'_concat, Nat.one_mul, ← hpc]
      exact hrun.append (Run.single hstep)
    · rw [hlen, hpc, Nat.add_assoc, Nat.add_assoc]
    · refine s.advance hV f hi hlow (w := some x) (Nat.lt_succ_self _) rfl hnone ?_
        (s.calls.trans hcalls.symm) hregs hshared ?_ ?_
      · intro y hy
        show m y = d₁.mem.write (sp + o.toBitVec) 4 x y
        rw [Memory.write_of_not_mem x fun hspan =>
          hkeep y hy (f.word_subset_area hfit hslot sp hspan)]
        exact hagree y hy
      · intro y hy _
        obtain rfl := Option.some.inj hy
        unfold Located
        rw [hslot]
        exact Memory.word_write_word d₁.mem _ x
      · intro u o' hu ho'
        rw [Memory.word_write_of_disjoint x (f.words_apart hfit ho' hslot hu sp)]
        exact hword u o' ho'
    · refine ⟨fun y hy ha => ?_, hsaved, hholding⟩
      show d₁.mem.write (sp + o.toBitVec) 4 x y = d.mem y
      rw [Memory.write_of_not_mem x fun hspan => ha (f.word_subset_area hfit hslot sp hspan)]
      exact hframe y hy
  · have hstores : p.storesOf i = [] := by
      unfold storesOf
      by_cases hv : i.dest.isVirtual = true
      · cases hslot : p.slot? i.dest with
        | none => simp [hv]
        | some o => exact absurd ⟨o, hv, hslot⟩ hspill
      · simp [hv]
    have hlen : (p.realizeInstr i).length = (p.loadsOf i).length + 1 := by
      rw [realizeInstr_eq, hstores, List.length_append]
      rfl
    rw [hlen]
    refine ⟨d₁, hrun, hpc, ?_, ⟨fun y hy _ => hframe y hy, hsaved, hholding⟩⟩
    refine s.advance hV f hi hlow (w := w) (Nat.lt_succ_self _) rfl hnone hagree
      (s.calls.trans hcalls.symm) hregs hshared ?_ ?_
    · intro x hx hv
      rcases target_virtual f hi hv with ⟨o, ho, -⟩ | ⟨h, hslot, hh, ht⟩
      · exact absurd ⟨o, hv, ho⟩ hspill
      · have h := hdest x hx
        unfold Located
        rw [hslot]
        show d₁.regs (p.home i.dest) = some x
        rwa [home_of_home? hh, ← ht]
    · exact fun u o _ ho => hword u o ho

/-- A call is over: it preserved what calls preserve. -/
theorem across_call (s : Follows V keep ranges p sp c d) (f : p.Fits base code ranges) {i : Instr}
    (hi : code[c.pc]? = some i) (hcall : i.isCall = true) {c' d' : Config} (hpc : c'.pc = c.pc + 1)
    (hvirtual : ∀ v, v.isVirtual = true → c'.regs v = c.regs v)
    (hsaved : ∀ r, r.isSaved = true → d'.regs r = d.regs r)
    (hwords : ∀ u o, p.slot? u = some o → d'.mem.word (sp + o.toBitVec) =
      d.mem.word (sp + o.toBitVec)) (hshared : ∀ r, r.isShared = true → V (c'.regs r) (d'.regs r))
    (hsp : c'.regs .sp = some sp) (hmem : ∀ x ∈ keep, c'.mem x = d'.mem x)
    (hcalls : c'.calls = d'.calls) : Follows V keep ranges p sp c' d' where
  shared := hshared
  sp_eq := hsp
  mem := hmem
  calls := hcalls
  live := by
    intro v x hv hx
    rw [hvirtual v hv] at hx
    obtain ⟨R, hR, rfl, hstart, hloc⟩ := s.live v x hv hx
    refine ⟨R, hR, rfl, by omega, fun hstop => ?_⟩
    have hloc := hloc (by omega)
    unfold Located at hloc ⊢
    cases hslot : p.slot? R.reg with
    | some o =>
      rw [hslot] at hloc
      exact (hwords _ o hslot).trans hloc
    | none =>
      rw [hslot] at hloc
      obtain ⟨h, hh⟩ := f.home?_of_slot? hR hslot
      -- The call lies strictly inside the range, so that its home is a preserved register.
      have hcross := f.live.crosses R hR _ i hi hcall hstart (by omega)
      obtain ⟨place, active, k⟩ := f.kept
      show d'.regs (p.home R.reg) = some x
      rw [home_of_home? hh] at hloc ⊢
      rw [hsaved h (k.crossing R hR hcross h hh)]
      exact hloc

/-- A branch becomes a block that ends with it. -/
theorem branch (sym : String → Val) (s : Follows V keep ranges p sp c d) (hV : Carries V)
    (f : p.Fits base code ranges) {op : BranchOp} {a b : Reg} {l : String}
    (hi : code[c.pc]? = some (.branch op a b l)) (hlow : (Instr.branch op a b l).isLowered = true)
    {x y : Val} (hx : c.regs.get a = some x) (hy : c.regs.get b = some y)
    (hat : At big d.pc (p.realizeInstr (.branch op a b l))) (next : Nat) (hnext : c.pc < next) :
    ∃ d',
      Run (Machine.flow sym big) d (List.range' d.pc (p.realizeInstr (.branch op a b l)).length)
        d' ∧
      d'.pc = (if op.holds x y then Machine.target big l else
        d.pc + (p.realizeInstr (.branch op a b l)).length) ∧
      Follows V keep ranges p sp { c with pc := next } d' ∧ Spares base keep p sp d d' := by
  have hlen : (p.realizeInstr (.branch op a b l)).length =
    (p.loadsOf (.branch op a b l)).length + 1 := by
    rw [realizeInstr_eq, List.length_append]
    rfl
  rw [hlen]
  rw [realizeInstr_eq] at hat
  obtain ⟨d₁, hrun, hpc, hmem, hcalls, hregs, hread⟩ := s.fetch hV f hi hlow hat
  have hat' := (At.append hat).2
  rw [← hpc] at hat'
  have hstep := flow_of_branch sym (At.head hat').1 (hread a (by simp [Instr.reads]) x hx)
    (hread b (by simp [Instr.reads]) y hy)
  refine ⟨{ d₁ with pc := if op.holds x y then Machine.target big l else d₁.pc + 1 },
    ?_, ?_, ?_, ?_⟩
  · rw [List.range'_concat, Nat.one_mul, ← hpc]
    exact hrun.append (Run.single hstep)
  · show (if op.holds x y then Machine.target big l else d₁.pc + 1) = _
    rw [hpc, Nat.add_assoc]
  · refine s.advance hV f hi hlow (w := none) hnext rfl (fun _ => rfl) ?_
      (s.calls.trans hcalls.symm) ?_ ?_ ?_ ?_
    · intro z hz
      show c.mem z = d₁.mem z
      rw [hmem]
      exact s.mem z hz
    · exact fun r h5 h6 _ => hregs r h5 h6
    · exact fun z hz => by cases hz
    · exact fun z hz => by cases hz
    · intro u o _ _
      show d₁.mem.word _ = _
      rw [hmem]
  · have hsame : ∀ r, r.isSaved = true → d₁.regs r = d.regs r := fun r hr =>
      hregs r (saved_ne_scratch hr).1 (saved_ne_scratch hr).2
    refine ⟨fun z _ _ => congrFun hmem z, fun r hr _ => hsame r hr, fun r hr hd => ?_⟩
    show (d₁.regs r).isSome = true
    rw [hsame r hr]
    exact hd

/-- A jump stays one. -/
theorem jump (sym : String → Val) (s : Follows V keep ranges p sp c d) (hV : Carries V)
    (f : p.Fits base code ranges) {l : String} (hi : code[c.pc]? = some (.jal .zero l))
    (hat : At big d.pc (p.realizeInstr (.jal .zero l))) {next : Nat} (hnext : c.pc < next) :
    Run (Machine.flow sym big) d [d.pc] { d with pc := Machine.target big l } ∧
      Follows V keep ranges p sp { c with pc := next } { d with pc := Machine.target big l } := by
  refine ⟨Run.single (flow_of_jump (At.head hat).1), ?_⟩
  exact s.advance hV f hi rfl (w := none) hnext rfl (fun _ => rfl) s.mem s.calls
    (fun _ _ _ _ => rfl) (fun z hz => by cases hz) (fun z hz => by cases hz) (fun _ _ _ _ => rfl)

end Follows

/-! ### Places -/

/-- Where the block of a place starts, counted from the first block. -/
def offset (p : Placement) (code : Listing) (place : Nat) : Nat :=
  (p.realize (code.take place)).length

/-- The places of the block of a place, where the first block starts at `origin`. -/
def block (p : Placement) (code : Listing) (origin place : Nat) : List Nat :=
  List.range' (origin + p.offset code place) (p.offset code (place + 1) - p.offset code place)

theorem offset_succ (p : Placement) {code : Listing} {place : Nat} {i : Instr}
    (hi : code[place]? = some i) :
    p.offset code (place + 1) = p.offset code place + (p.realizeInstr i).length := by
  unfold offset realize
  rw [List.take_add_one, hi, Option.toList_some, List.flatMap_append, List.length_append,
    List.flatMap_singleton]

theorem block_eq (p : Placement) {code : Listing} {origin place : Nat} {i : Instr}
    (hi : code[place]? = some i) :
    p.block code origin place = List.range' (origin + p.offset code place)
      (p.realizeInstr i).length := by
  rw [block, p.offset_succ hi, Nat.add_sub_cancel_left]

/-- The blocks of a listing stand in a larger one, from a place on, and jumps find the blocks of
their targets there. -/
structure Embeds (p : Placement) (code : Listing) (big : Listing) (origin : Nat) : Prop where
  blocks : At big origin (p.realize code)
  targets : ∀ i ∈ code, ∀ l, i.jumpsTo? = some l →
    Machine.target big l = origin + p.offset code (Machine.target code l)

theorem Embeds.block_at {origin : Nat} (e : p.Embeds code big origin) {place : Nat} {i : Instr}
    (hi : code[place]? = some i) : At big (origin + p.offset code place) (p.realizeInstr i) := by
  have hsplit : p.realize code = p.realize (code.take place) ++
    (p.realizeInstr i ++ p.realize (code.drop (place + 1))) := by
    obtain ⟨hlt, rfl⟩ := List.getElem?_eq_some_iff.1 hi
    conv_lhs => rw [← List.take_append_drop place code, ← List.getElem_cons_drop hlt]
    rw [realize, List.flatMap_append, List.flatMap_cons]
    rfl
  have h := e.blocks
  rw [hsplit] at h
  exact (At.append (At.append h).2).1

/-- One step of a listing is a run through the block of its place. -/
theorem Follows.flow (s : Follows V keep ranges p sp c d) (hV : Carries V)
    (f : p.Fits base code ranges) (hfit : 4 * p.spilled.length ≤ 2 ^ 32)
    (hkeep : ∀ x ∈ keep, x ∉ p.area base sp) (hforward : code.Forward)
    (hlow : ∀ i ∈ code, i.isLowered = true) {origin : Nat} (e : p.Embeds code big origin)
    (hpc : d.pc = origin + p.offset code c.pc) {c' : Config}
    (hstep : Machine.flow sym code c = some c')
    (htouch : ∀ i, code[c.pc]? = some i → i.touches c.regs.get ⊆ keep) :
    ∃ d', Run (Machine.flow sym big) d (p.block code origin c.pc) d' ∧
      d'.pc = origin + p.offset code c'.pc ∧ Follows V keep ranges p sp c' d' ∧
      Spares base keep p sp d d' := by
  rcases flow_cases hstep with ⟨i, w, m, hi, heffect, rfl⟩ | ⟨op, a, b, l, x, y, hi, hx, hy,
    rfl⟩ | ⟨l, hi, rfl⟩
  · have hat := e.block_at hi
    rw [p.block_eq hi]
    rw [← hpc] at hat ⊢
    obtain ⟨d', hrun, hpc', hfollows, hspares⟩ :=
      s.effect hV f hfit hkeep hi (hlow i (List.mem_of_getElem? hi)) heffect (htouch i hi) hat
    refine ⟨d', hrun, ?_, hfollows, hspares⟩
    rw [hpc', hpc, p.offset_succ hi, Nat.add_assoc]
  · have hat := e.block_at hi
    rw [p.block_eq hi]
    rw [← hpc] at hat ⊢
    have htarget := e.targets _ (List.mem_of_getElem? hi) l rfl
    have hlater := hforward _ _ l hi rfl
    obtain ⟨d', hrun, hpc', hfollows, hspares⟩ :=
      s.branch sym hV f hi (hlow _ (List.mem_of_getElem? hi)) hx hy hat (if op.holds x y then
        Machine.target code l else c.pc + 1) (by split <;> omega)
    refine ⟨d', hrun, ?_, hfollows, hspares⟩
    rw [hpc', htarget, hpc, Nat.add_assoc, ← p.offset_succ hi]
    dsimp only
    split <;> rfl
  · have hat := e.block_at hi
    rw [p.block_eq hi]
    rw [← hpc] at hat ⊢
    have htarget := e.targets _ (List.mem_of_getElem? hi) l rfl
    obtain ⟨hrun, hfollows⟩ := s.jump sym hV f hi hat (hforward _ _ l hi rfl)
    exact ⟨_, hrun, htarget, hfollows, ⟨fun _ _ _ => rfl, fun _ _ _ => rfl, fun _ _ h => h⟩⟩

end Placement

end FunRiscv
