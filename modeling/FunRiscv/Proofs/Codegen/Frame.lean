import Mathlib
import FunRiscv.Codegen.Generate
import FunRiscv.Proofs.Codegen.Meaning

/-!
# Stack frames

* `Machine.below`: the addresses under the stack pointer.
* `StackFrame.total`: the size of a frame as a number, and `StackFrame.Fits`: a frame whose size
  is that of its parts.
* `StackFrame.words`: the words in which a function keeps what it has to preserve.
* `StackFrame.run_enter`: entering a function takes the frame and keeps the registers in it.
* `StackFrame.run_leave`: leaving it restores them and gives the frame back.
-/

namespace FunRiscv

open Machine

/-! ### Under the stack pointer -/

/-- The addresses of a number of bytes under an address. -/
def Machine.below (a : Val) (n : Nat) : Set Val := {x | (a - 1 - x).toNat < n}

theorem Machine.toNat_complement (a x : Val) : (a - 1 - x).toNat = 2 ^ 32 - 1 - (x - a).toNat := by
  have hsum : a - 1 - x = BitVec.allOnes 32 - (x - a) := by
    rw [show BitVec.allOnes 32 = (-1 : Val) by decide]
    ring
  have := (x - a).isLt
  rw [hsum, BitVec.toNat_sub, BitVec.toNat_allOnes]
  omega

theorem Machine.below_mono {a x : Val} {n m : Nat} (h : x ∈ below a n) (hle : n ≤ m) :
    x ∈ below a m := Nat.lt_of_lt_of_le h hle

/-- What is under the start of a frame is under its end. -/
theorem Machine.below_of_below_sub {a x : Val} {n m : Nat}
    (h : x ∈ below (a - BitVec.ofNat 32 n) m) : x ∈ below a (n + m) := by
  have hsum : a - 1 - x = (a - BitVec.ofNat 32 n - 1 - x) + BitVec.ofNat 32 n := by ring
  have h : (a - BitVec.ofNat 32 n - 1 - x).toNat < m := h
  show (a - 1 - x).toNat < n + m
  rw [hsum, BitVec.toNat_add, BitVec.toNat_ofNat]
  have := Nat.mod_le n (2 ^ 32)
  have := Nat.mod_le ((a - BitVec.ofNat 32 n - 1 - x).toNat + n % 2 ^ 32) (2 ^ 32)
  omega

/-- A byte of a frame is under its end. -/
theorem Machine.below_of_mem_span {a x : Val} {n : Nat} (hn : n ≤ 2 ^ 32)
    (h : x ∈ span (a - BitVec.ofNat 32 n) n) : x ∈ below a n := by
  rw [mem_span] at h
  have hsum : x - a = (x - (a - BitVec.ofNat 32 n)) - BitVec.ofNat 32 n := by ring
  have hdistance : (x - a).toNat = 2 ^ 32 - n + (x - (a - BitVec.ofNat 32 n)).toNat := by
    rw [hsum, BitVec.toNat_sub, BitVec.toNat_ofNat]
    generalize (x - (a - BitVec.ofNat 32 n)).toNat = y at h
    omega
  show (a - 1 - x).toNat < n
  rw [toNat_complement, hdistance]
  omega

/-- A byte of a frame is not under its start. -/
theorem Machine.not_mem_below_of_mem_span {a x : Val} {n m : Nat} (h : x ∈ span a n)
    (hfit : n + m ≤ 2 ^ 32) : x ∉ below a m := by
  rw [mem_span] at h
  intro hx
  have hx : (a - 1 - x).toNat < m := hx
  rw [toNat_complement] at hx
  omega

/-! ### The size of a frame -/

namespace StackFrame

/-- How many bytes the parts of a frame take. -/
def bytes (f : StackFrame) : Nat :=
  slotBase + slotSize * f.slots + slotSize * f.spills + slotSize * f.saved.length

/-- The size of a frame as a number. -/
def total (f : StackFrame) : Nat := (f.bytes + 15) / 16 * 16

/-- A frame with so few parts that its size is that of its parts, and that an instruction
can take at once. -/
structure Fits (f : StackFrame) : Prop where
  slots : f.slots < 2 ^ 27
  spills : f.spills < 2 ^ 27
  saved : f.saved.length < 2 ^ 10
  immediate : fitsImmediate f.size = true

theorem and_not_fifteen (x : Val) : x &&& ~~~15#32 = (x >>> 4) <<< 4 := by
  refine BitVec.eq_of_getLsbD_eq fun i hi => ?_
  have hmask : ∀ i : Fin 32, (~~~15#32).getLsbD i = !decide (i.1 < 4) := by decide
  have hbit : (~~~15#32).getLsbD i = !decide (i < 4) := hmask ⟨i, hi⟩
  rw [BitVec.getLsbD_and, hbit, BitVec.getLsbD_shiftLeft, BitVec.getLsbD_ushiftRight]
  by_cases h4 : i < 4
  · simp [h4]
  · simp [h4, hi, Nat.add_sub_cancel' (Nat.le_of_not_lt h4)]

variable {f : StackFrame}

theorem toBitVec_savedBase (f : StackFrame) :
    f.savedBase.toBitVec =
      BitVec.ofNat 32 (slotBase + slotSize * f.slots + slotSize * f.spills) := by
  unfold savedBase spillBase
  rw [Int32.toBitVec_add, Int32.toBitVec_mul]
  show BitVec.ofNat 32 _ + BitVec.ofNat 32 _ * BitVec.ofNat 32 _ = _
  rw [← BitVec.ofNat_mul, ← BitVec.ofNat_add]

theorem toBitVec_size (h : f.Fits) : f.size.toBitVec = BitVec.ofNat 32 f.total := by
  have hbytes : (f.savedBase + Int32.ofNat slotSize * Int32.ofNat f.saved.length + 15).toBitVec =
    BitVec.ofNat 32 (f.bytes + 15) := by
    rw [Int32.toBitVec_add, Int32.toBitVec_add, Int32.toBitVec_mul, toBitVec_savedBase]
    show BitVec.ofNat 32 _ + BitVec.ofNat 32 _ * BitVec.ofNat 32 _ + BitVec.ofNat 32 15 = _
    rw [← BitVec.ofNat_mul, ← BitVec.ofNat_add, ← BitVec.ofNat_add]
    rfl
  have hlt : f.bytes + 15 < 2 ^ 32 := by
    obtain ⟨h1, h2, h3, -⟩ := h
    unfold bytes slotBase slotSize
    omega
  unfold size
  rw [Int32.toBitVec_and, hbytes]
  show BitVec.ofNat 32 (f.bytes + 15) &&& ~~~15#32 = _
  rw [and_not_fifteen]
  refine BitVec.eq_of_toNat_eq ?_
  rw [BitVec.toNat_shiftLeft, BitVec.toNat_ushiftRight, BitVec.toNat_ofNat, BitVec.toNat_ofNat,
    Nat.mod_eq_of_lt hlt, Nat.shiftRight_eq_div_pow, Nat.shiftLeft_eq]
  rfl

theorem bytes_le_total (f : StackFrame) : f.bytes ≤ f.total := by
  unfold total
  omega

theorem toInt_size (h : f.Fits) : f.size.toInt = f.total := by
  have hlt : f.total < 2 ^ 31 := by
    obtain ⟨h1, h2, h3, -⟩ := h
    unfold total bytes slotBase slotSize
    omega
  rw [← Int32.toInt_toBitVec, toBitVec_size h, BitVec.toInt_eq_toNat_of_lt]
  · rw [BitVec.toNat_ofNat, Nat.mod_eq_of_lt (by omega)]
  · rw [BitVec.toNat_ofNat, Nat.mod_eq_of_lt (by omega)]
    omega

/-- The size of a frame fits the immediate field of an instruction. -/
theorem total_le (h : f.Fits) : f.total ≤ 2032 := by
  have hle : f.size ≤ 2047 := by
    have := h.immediate
    rw [fitsImmediate, Bool.and_eq_true, decide_eq_true_eq, decide_eq_true_eq] at this
    exact this.2
  have hle := Int32.le_iff_toInt_le.1 hle
  rw [toInt_size h] at hle
  have hle : (f.total : Int) ≤ 2047 := hle
  unfold total at hle ⊢
  omega

/-! ### Words of preserved registers -/

/-- Where the word of a preserved register lies. -/
def savedOffset (f : StackFrame) (i : Nat) : Int32 :=
  f.savedBase + Int32.ofNat slotSize * Int32.ofNat i

theorem distance_saved (h : f.Fits) {i : Nat} (hi : i < f.saved.length) (sp : Val) :
    (sp + (f.savedOffset i).toBitVec - sp).toNat = slotBase + slotSize * f.slots +
      slotSize * f.spills + slotSize * i := by
  have hoffset : (f.savedOffset i).toBitVec =
      BitVec.ofNat 32 (slotBase + slotSize * f.slots + slotSize * f.spills + slotSize * i) := by
    unfold savedOffset
    rw [Int32.toBitVec_add, Int32.toBitVec_mul, toBitVec_savedBase]
    show BitVec.ofNat 32 _ + BitVec.ofNat 32 _ * BitVec.ofNat 32 _ = _
    rw [← BitVec.ofNat_mul, ← BitVec.ofNat_add]
  have hbytes := f.bytes_le_total
  have htotal := total_le h
  unfold bytes at hbytes
  rw [show sp + (f.savedOffset i).toBitVec - sp = (f.savedOffset i).toBitVec by ring, hoffset,
    BitVec.toNat_ofNat, Nat.mod_eq_of_lt]
  unfold slotSize at *
  omega

/-- The words of preserved registers lie in the frame, behind everything else. -/
theorem saved_in_frame (h : f.Fits) {i : Nat} (hi : i < f.saved.length) {sp x : Val}
    (hx : x ∈ span (sp + (f.savedOffset i).toBitVec) 4) :
    x ∈ span sp f.total ∧ x ∉ span sp (slotBase + slotSize * f.slots + slotSize * f.spills) := by
  have hdistance := distance_saved h hi sp
  have hbytes := f.bytes_le_total
  have htotal := total_le h
  unfold bytes slotSize at hbytes
  unfold slotSize at hdistance ⊢
  have hzero : (sp - sp).toNat = 0 := by simp
  refine ⟨mem_span_of_mem_span hx (by omega), not_mem_span_of_mem_span (a := sp) hx (by omega)
    (by omega) (by omega)⟩

theorem saved_apart (h : f.Fits) {i j : Nat} (hi : i < f.saved.length) (hj : j < f.saved.length)
    (hne : i ≠ j) {sp x : Val} (hx : x ∈ span (sp + (f.savedOffset i).toBitVec) 4) :
    x ∉ span (sp + (f.savedOffset j).toBitVec) 4 := by
  have di := distance_saved h hi sp
  have dj := distance_saved h hj sp
  have hbytes := f.bytes_le_total
  have htotal := total_le h
  unfold bytes slotSize at hbytes
  unfold slotSize at di dj
  exact not_mem_span_of_mem_span (a := sp) hx (by omega) (by omega) (by omega)

theorem places_eq (f : StackFrame) :
    f.places = f.saved.zipIdx.map fun (r, i) => (r, f.savedOffset i) := rfl

/-! ### Entering and leaving -/

section

variable (sym : String → Val) {big : Listing} {sp : Val} (value : Reg → Val) {d : Config}

/-- Registers, from the `k`-th preserved one on, are kept in their words. -/
theorem run_saves (h : f.Fits) {rs : List Reg} {k : Nat} (hlen : k + rs.length ≤ f.saved.length)
    (hat : At big d.pc ((rs.zipIdx k).map fun (r, i) => .store .sw r .sp (f.savedOffset i)))
    (hsp : d.regs .sp = some sp) (hregs : ∀ r ∈ rs, d.regs.get r = some (value r)) :
    ∃ ps d', Run (flow sym big) d ps d' ∧ d'.pc = d.pc + rs.length ∧ d'.regs = d.regs ∧
      (∀ x, (∀ i, k ≤ i → i < k + rs.length → x ∉ span (sp + (f.savedOffset i).toBitVec) 4) →
        d'.mem x = d.mem x) ∧
      ∀ j r, rs[j]? = some r → d'.mem.word (sp + (f.savedOffset (k + j)).toBitVec) = value r := by
  induction rs generalizing k d with
  | nil => exact ⟨[], d, .nil d, rfl, rfl, fun _ _ => rfl, by simp⟩
  | cons r rs ih =>
    rw [List.length_cons] at hlen
    obtain ⟨hi, hat'⟩ := At.head hat
    have hspget : d.regs.get .sp = some sp := hsp
    have heffect : (Instr.store .sw r .sp (f.savedOffset k)).effect sym d.regs.get d.mem =
        some (none, d.mem.write (sp + (f.savedOffset k).toBitVec) 4 (value r)) := by
      rw [Instr.effect, hregs r List.mem_cons_self, hspget]
      rfl
    obtain ⟨ps, d', hrun, hpc, hregs', hmem, hwords⟩ := ih (k := k + 1)
      (d := { d with
        pc := d.pc + 1, mem := d.mem.write (sp + (f.savedOffset k).toBitVec) 4 (value r) })
      (by omega) hat' hsp (fun q hq => hregs q (List.mem_cons_of_mem r hq))
    refine ⟨_, d', .cons (flow_of_effect hi heffect) hrun, ?_, hregs', ?_, ?_⟩
    · rw [hpc, List.length_cons]
      show d.pc + 1 + _ = _
      omega
    · intro x hx
      rw [hmem x fun i h1 h2 => hx i (by omega) (by rw [List.length_cons]; omega)]
      exact Memory.write_of_not_mem _ (hx k (Nat.le_refl _) (by rw [List.length_cons]; omega))
    · intro j q hq
      cases j with
      | zero =>
        obtain rfl : r = q := by simpa using hq
        rw [Nat.add_zero,
          ← Memory.word_write_word d.mem (sp + (f.savedOffset k).toBitVec) (value r)]
        refine Memory.word_congr fun x hx => hmem x fun i h1 h2 => ?_
        exact saved_apart h (by omega) (by omega) (by omega) hx
      | succ j =>
        rw [← hwords j q (by simpa using hq), Nat.add_assoc, Nat.add_comm 1 j]

/-- Registers, from the `k`-th preserved one on, are taken from their words. -/
theorem run_restores {rs : List Reg} {k : Nat}
    (hat : At big d.pc ((rs.zipIdx k).map fun (r, i) => .load .lw r .sp (f.savedOffset i)))
    (hsp : d.regs .sp = some sp) (hne : .sp ∉ rs)
    (hwords : ∀ j r, rs[j]? = some r → d.mem.word (sp + (f.savedOffset (k + j)).toBitVec) =
      value r) : ∃ ps d', Run (flow sym big) d ps d' ∧ d'.pc = d.pc + rs.length ∧ d'.mem = d.mem ∧
      ∀ r, d'.regs r = if r ∈ rs then some (value r) else d.regs r := by
  induction rs generalizing k d with
  | nil => exact ⟨[], d, .nil d, rfl, rfl, by simp⟩
  | cons r rs ih =>
    obtain ⟨hi, hat'⟩ := At.head hat
    have hspne : Reg.sp ≠ r := by
      rintro rfl
      exact hne List.mem_cons_self
    have hspget : d.regs.get .sp = some sp := hsp
    have heffect : (Instr.load .lw r .sp (f.savedOffset k)).effect sym d.regs.get d.mem =
      some (some (value r), d.mem) := by
      rw [Instr.effect, hspget, ← hwords 0 r rfl]
      rfl
    obtain ⟨ps, d', hrun, hpc, hmem, hregs⟩ := ih (k := k + 1)
      (d := { d with pc := d.pc + 1, regs := d.regs.put r (some (value r)) }) hat'
      (by
        show d.regs.put r (some (value r)) .sp = some sp
        rw [Regs.put_of_ne hspne, hsp])
      (fun h => hne (List.mem_cons_of_mem r h))
      (fun j q hq => by
        rw [← hwords (j + 1) q (by simpa using hq), Nat.add_assoc, Nat.add_comm 1 j])
    refine ⟨_, d', .cons (flow_of_effect hi heffect) hrun, ?_, hmem, ?_⟩
    · rw [hpc, List.length_cons]
      show d.pc + 1 + _ = _
      omega
    · intro q
      rw [hregs q]
      show (if q ∈ rs then _ else d.regs.put r (some (value r)) q) = _
      rw [Regs.put_some]
      by_cases hq : q ∈ rs
      · rw [if_pos hq, if_pos (List.mem_cons_of_mem r hq)]
      · by_cases heq : q = r
        · subst heq
          rw [if_neg hq, if_pos rfl, if_pos List.mem_cons_self]
        · have hnot : q ∉ r :: rs := fun h => (List.mem_cons.1 h).elim heq hq
          rw [if_neg hq, if_neg heq, if_neg hnot]

/-- What a frame holds: the return address and the preserved registers. -/
structure Keeps (f : StackFrame) (sp ra : Val) (value : Reg → Val) (m : Memory) : Prop where
  address : m.word sp = ra
  saved : ∀ j r, f.saved[j]? = some r → m.word (sp + (f.savedOffset j).toBitVec) = value r

/-- A frame keeps what it holds if only what lies before the words of preserved registers changes,
and not the first word. -/
theorem Keeps.of_mem {m m' : Memory} {ra : Val} {value : Reg → Val} (h : f.Keeps sp ra value m)
    (fits : f.Fits)
    (hmem : ∀ x ∈ span sp f.total, (x ∉ span sp slotBase →
      x ∉ span sp (slotBase + slotSize * f.slots + slotSize * f.spills)) → m' x = m x) :
    f.Keeps sp ra value m' where
  address := by
    rw [← h.address]
    refine Memory.word_congr fun x hx =>
      hmem x (mem_span_of_mem_span hx ?_) fun hnot => absurd (mem_span_of_mem_span hx ?_) hnot
    · have := f.bytes_le_total
      unfold bytes slotBase at this
      simp
      omega
    · simp [slotBase]
  saved := by
    intro j r hr
    rw [← h.saved j r hr]
    have hj := (List.getElem?_eq_some_iff.1 hr).1
    exact Memory.word_congr fun x hx =>
      hmem x (saved_in_frame fits hj hx).1 fun _ => (saved_in_frame fits hj hx).2

/-- Entering takes the frame and keeps the return address and the preserved registers in it. -/
theorem run_enter (h : f.Fits) (hat : At big d.pc f.enter) {ra : Val} (hsp : d.regs .sp = some sp)
    (hra : d.regs .ra = some ra) (hregs : ∀ r ∈ f.saved, r ≠ .sp ∧ d.regs.get r = some (value r)) :
    ∃ ps d', Run (flow sym big) d ps d' ∧ d'.pc = d.pc + f.enter.length ∧
      d'.regs .sp = some (sp - BitVec.ofNat 32 f.total) ∧ (∀ r, r ≠ .sp → d'.regs r = d.regs r) ∧
      f.Keeps (sp - BitVec.ofNat 32 f.total) ra value d'.mem ∧
      ∀ x, x ∉ span (sp - BitVec.ofNat 32 f.total) f.total → d'.mem x = d.mem x := by
  obtain ⟨hat, hats⟩ := At.append hat
  obtain ⟨hadd, hat⟩ := At.head hat
  obtain ⟨hstore, -⟩ := At.head hat
  rw [places_eq, List.map_map] at hats
  have hspget : d.regs.get .sp = some sp := hsp
  have hadds : (Instr.imm .addi .sp .sp (-f.size)).effect sym d.regs.get d.mem =
      some (some (sp - BitVec.ofNat 32 f.total), d.mem) := by
    rw [Instr.effect, hspget, sub_eq_add_neg, ← toBitVec_size h, ← Int32.toBitVec_neg]
    rfl
  have hstep₁ := flow_of_effect hadd hadds
  generalize sp - BitVec.ofNat 32 f.total = low at *
  have hstores : (Instr.store .sw .ra .sp 0).effect sym (Regs.get (d.regs.put .sp (some low)))
    d.mem =
      some (none, d.mem.write low 4 ra) := by
    have h1 : Regs.get (d.regs.put .sp (some low)) .ra = some ra := hra
    have h2 : Regs.get (d.regs.put .sp (some low)) .sp = some low := rfl
    rw [Instr.effect, h1, h2]
    show some (none, d.mem.write (low + 0) 4 ra) = _
    rw [add_zero]
  have hstep₂ :=
    flow_of_effect (c := { d with pc := d.pc + 1, regs := d.regs.put .sp (some low) })
      hstore hstores
  obtain ⟨ps, d', hrun, hpc, hregs', hmem, hwords⟩ := run_saves sym value (k := 0)
    (d := { d with pc := d.pc + 2, regs := d.regs.put .sp (some low), mem := d.mem.write low 4 ra })
    h (by simp) hats (show d.regs.put .sp (some low) .sp = some low from rfl) (fun r hr => by
      have hget : Regs.get (d.regs.put .sp (some low)) r = d.regs.get r := by
        unfold Regs.get
        rw [Regs.put_of_ne (hregs r hr).1]
      rw [← (hregs r hr).2]
      exact hget)
  have hbytes := f.bytes_le_total
  unfold bytes slotBase at hbytes
  have hfirst : ∀ x ∈ span low 4, d'.mem x = d.mem.write low 4 ra x := by
    intro x hx
    refine hmem x fun i _ hi hsaved => (saved_in_frame h (by omega) hsaved).2 ?_
    refine mem_span_of_mem_span hx ?_
    simp [slotBase]
    omega
  refine ⟨_, d', .cons hstep₁ (.cons hstep₂ hrun), ?_, ?_, ?_, ⟨?_, ?_⟩, ?_⟩
  · rw [hpc]
    simp only [enter, places, List.length_append, List.length_cons, List.length_nil,
      List.length_map, List.length_zipIdx]
    omega
  · rw [hregs']
    rfl
  · intro r hr
    rw [hregs']
    show d.regs.put .sp (some low) r = _
    exact Regs.put_of_ne hr _
  · rw [Memory.word_congr hfirst, Memory.word_write_word]
  · intro j r hr
    rw [← hwords j r hr, Nat.zero_add]
  · intro x hx
    rw [hmem x fun i _ hi hsaved => hx (saved_in_frame h (by omega) hsaved).1]
    refine Memory.write_of_not_mem _ fun hspan => hx (mem_span_of_mem_span hspan ?_)
    simp
    omega

/-- Leaving restores the return address and the preserved registers, and gives the frame back; a
return is what is left to do. -/
theorem run_leave (h : f.Fits) (hat : At big d.pc f.leave) {ra : Val}
    (hsp : d.regs .sp = some (sp - BitVec.ofNat 32 f.total))
    (hkeeps : f.Keeps (sp - BitVec.ofNat 32 f.total) ra value d.mem) (hne : .sp ∉ f.saved) :
    ∃ ps d', Run (flow sym big) d ps d' ∧ big[d'.pc]? = some (.jalr .zero .ra 0) ∧ d'.mem = d.mem ∧
      d'.regs .sp = some sp ∧ d'.regs .ra = some ra ∧
      ∀ r, r ≠ .sp → r ≠ .ra → d'.regs r = if r ∈ f.saved then some (value r) else d.regs r := by
  obtain ⟨hats, hat⟩ := At.append hat
  obtain ⟨hload, hat⟩ := At.head hat
  obtain ⟨hadd, hat⟩ := At.head hat
  obtain ⟨hjalr, -⟩ := At.head hat
  rw [places_eq, List.map_map] at hats
  obtain ⟨ps, d₁, hrun, hpc₁, hmem₁, hregs₁⟩ := run_restores sym value (k := 0) hats hsp hne
    (fun j r hr => by rw [Nat.zero_add]; exact hkeeps.saved j r hr)
  have hlength : d.pc + f.places.length = d₁.pc := by
    rw [hpc₁]
    simp [places]
  rw [List.length_map, hlength] at hload hadd hjalr
  have hsp₁ : d₁.regs.get .sp = some (sp - BitVec.ofNat 32 f.total) := by
    show d₁.regs .sp = _
    rw [hregs₁, if_neg hne, hsp]
  have hloads : (Instr.load .lw .ra .sp 0).effect sym d₁.regs.get d₁.mem =
    some (some ra, d₁.mem) := by
    rw [Instr.effect, hsp₁, hmem₁, ← hkeeps.address]
    show some (some (d.mem.word (sp - BitVec.ofNat 32 f.total + 0)), d.mem) = _
    rw [add_zero]
  have hstep₁ := flow_of_effect hload hloads
  have hadds : (Instr.imm .addi .sp .sp f.size).effect sym (Regs.get (d₁.regs.put .ra (some ra)))
    d₁.mem = some (some sp, d₁.mem) := by
    have hget : Regs.get (d₁.regs.put .ra (some ra)) .sp = some (sp - BitVec.ofNat 32 f.total) :=
      hsp₁
    rw [Instr.effect, hget]
    show some (some (sp - BitVec.ofNat 32 f.total + f.size.toBitVec), d₁.mem) = _
    rw [toBitVec_size h, sub_add_cancel]
  have hstep₂ :=
    flow_of_effect (c := { d₁ with pc := d₁.pc + 1, regs := d₁.regs.put .ra (some ra) }) hadd hadds
  refine ⟨_, _, hrun.append (.cons hstep₁ (.single hstep₂)), hjalr, hmem₁, rfl, rfl, ?_⟩
  intro r hsp hra
  show (d₁.regs.put .ra (some ra)).put .sp (some sp) r = _
  rw [Regs.put_of_ne hsp, Regs.put_of_ne hra, hregs₁]

end

end StackFrame

end FunRiscv
