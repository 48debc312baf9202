import Mathlib
import FunRiscv.Proofs.Codegen.Labels

/-!
# Frames and immediate numbers

A frame holds the return address, the variables of a function, the registers that allocation spilled
and the preserved registers that the function uses. Its parts are counted in different places, and
the one check of its size comes last.

* `StackFrame.words`: the offsets of the words of a frame. `StackFrame.words_eq`: they follow each
  other like variables.
* `StackFrame.Safe`: a frame that is aligned and small, whose words are aligned,
  disjoint and within it.
* `Instr.KeepsTo`: a line that has access to variables and spilled registers only and writes
  preserved registers of the frame only.
* `Compiles.safe`, `Compiles.laidOut`, `Compiles.encodable`: a function takes such a frame, keeps to
  it and gives it back.
* `Program.generate_framed`: the theorem about the frames and the immediate numbers of a listing.
-/

namespace FunRiscv

open Lowering

/-! ### The words of a frame -/

namespace StackFrame

/-- The offsets of the words that the body of a function may use: variables and
spilled registers. -/
def locals (f : StackFrame) : List Int32 :=
  (List.range f.slots).map slotOffset ++ (List.range f.spills).map
    (Placement.offsetOf (spillBase f.slots))

/-- The offsets of all words: the return address, variables, spilled registers and
preserved registers. -/
def words (f : StackFrame) : List Int32 := 0 :: (f.locals ++ f.places.map (·.2))

theorem offsetOf_spillBase (slots k : Nat) :
    Placement.offsetOf (spillBase slots) k = slotOffset (slots + k) := by
  apply Int32.toBitVec_inj.1
  rw [Placement.toBitVec_offsetOf]
  show BitVec.ofNat 32 _ + BitVec.ofNat 32 _ = BitVec.ofNat 32 _
  rw [← BitVec.ofNat_add]
  congr 1
  unfold slotBase slotSize
  omega

theorem savedOffset_eq (f : StackFrame) (i : Nat) :
    f.savedOffset i = slotOffset (f.slots + f.spills + i) := by
  apply Int32.toBitVec_inj.1
  unfold savedOffset
  rw [Int32.toBitVec_add, Int32.toBitVec_mul, toBitVec_savedBase]
  show BitVec.ofNat 32 _ + BitVec.ofNat 32 _ * BitVec.ofNat 32 _ = BitVec.ofNat 32 _
  rw [← BitVec.ofNat_mul, ← BitVec.ofNat_add]
  congr 1
  unfold slotBase slotSize
  omega

theorem offsets_places (f : StackFrame) :
    f.places.map (·.2) = (List.range f.saved.length).map f.savedOffset := by
  rw [places_eq, List.map_map, List.range_eq_range', ← List.zipIdx_map_snd 0 f.saved, List.map_map]
  rfl

/-- After the return address, the words follow each other. -/
theorem words_eq (f : StackFrame) :
    f.words = 0 :: (List.range (f.slots + f.spills + f.saved.length)).map slotOffset := by
  have hspills : Placement.offsetOf (spillBase f.slots) = fun k => slotOffset (f.slots + k) :=
    funext (offsetOf_spillBase f.slots)
  have hsaved : f.savedOffset = fun i => slotOffset (f.slots + f.spills + i) :=
    funext f.savedOffset_eq
  rw [words, locals, offsets_places, hspills, hsaved, List.range_add, List.range_add,
    List.map_append, List.map_append, List.map_map, List.map_map]
  rfl

theorem toInt_slotOffset {n : Nat} (hn : n < 2 ^ 28) :
    (slotOffset n).toInt = slotBase + slotSize * n := by
  have hnat : (BitVec.ofNat 32 (slotBase + slotSize * n)).toNat = slotBase + slotSize * n := by
    rw [BitVec.toNat_ofNat]
    unfold slotBase slotSize
    omega
  rw [← Int32.toInt_toBitVec]
  show (BitVec.ofNat 32 (slotBase + slotSize * n)).toInt = _
  rw [BitVec.toInt_eq_toNat_of_lt, hnat]
  · push_cast
    rfl
  · rw [hnat]
    unfold slotBase slotSize
    omega

/-- A frame that is safe to use: its size is a multiple of sixteen that one instruction can add, and
its words are aligned, lie within it and have no byte in common. -/
structure Safe (f : StackFrame) : Prop where
  aligned : 16 ∣ f.size.toInt
  small : f.size.toInt ≤ 2032
  words : ∀ o ∈ f.words, 4 ∣ o.toInt ∧ 0 ≤ o.toInt ∧ o.toInt + 4 ≤ f.size.toInt
  disjoint : f.words.Pairwise fun o o' => o.toInt + 4 ≤ o'.toInt
  saved : f.saved.Nodup ∧ ∀ r ∈ f.saved, r.isSaved = true

theorem Fits.safe {f : StackFrame} (h : f.Fits)
    (hsaved : f.saved.Nodup ∧ ∀ r ∈ f.saved, r.isSaved = true) : f.Safe := by
  have hsize := toInt_size h
  have hbytes : 8 + 4 * (f.slots + f.spills + f.saved.length) ≤ f.total := by
    have := f.bytes_le_total
    unfold bytes slotBase slotSize at this
    omega
  have htotal := total_le h
  have hword : ∀ n < f.slots + f.spills + f.saved.length, (slotOffset n).toInt = 8 + 4 * n :=
    fun n hn => toInt_slotOffset (by omega)
  refine ⟨?_, ?_, ?_, ?_, hsaved⟩
  · rw [hsize]
    unfold total
    omega
  · rw [hsize]
    omega
  · intro o ho
    rw [words_eq, List.mem_cons, List.mem_map] at ho
    rcases ho with rfl | ⟨n, hn, rfl⟩
    · rw [hsize, Int32.toInt_zero]
      omega
    · rw [List.mem_range] at hn
      rw [hword n hn, hsize]
      omega
  · rw [words_eq, List.pairwise_cons]
    constructor
    · intro o ho
      obtain ⟨n, hn, rfl⟩ := List.mem_map.1 ho
      rw [hword n (List.mem_range.1 hn), Int32.toInt_zero]
      omega
    · rw [List.pairwise_map]
      refine List.pairwise_lt_range.imp_of_mem fun {m n} hm hn hlt => ?_
      rw [hword m (List.mem_range.1 hm), hword n (List.mem_range.1 hn)]
      omega

end StackFrame

/-! ### Lines that keep to a frame -/

/-- A line that moves no stack pointer, writes only those preserved registers that a frame holds,
has access only to the variables and the spilled registers of the frame, and has an immediate number
that fits its field. -/
structure Instr.KeepsTo (f : StackFrame) (i : Instr) : Prop where
  stack : i.dest ≠ .sp
  saved : i.dest.isSaved = true → i.dest ∈ f.saved
  placed : i.Placed (· ∈ f.locals)

/-- The immediate number of an instruction, or its offset. -/
def Instr.immediate? : Instr → Option Int32
  | imm _ _ _ n | load _ _ _ n | store _ _ _ n | jalr _ _ n => some n
  | _ => none

/-- A line that the machine can take as it is: its immediate number or offset has twelve bits with a
sign, and its registers are those of the machine. -/
structure Instr.Encodable (i : Instr) : Prop where
  immediate : ∀ n, i.immediate? = some n → -2048 ≤ n.toInt ∧ n.toInt ≤ 2047
  machine : i.onMachine

theorem fitsImmediate_iff {n : Int32} :
    fitsImmediate n = true ↔ -2048 ≤ n.toInt ∧ n.toInt ≤ 2047 := by
  rw [fitsImmediate, Bool.and_eq_true, decide_eq_true_eq, decide_eq_true_eq, Int32.le_iff_toInt_le,
    Int32.le_iff_toInt_le]
  rfl

/-- What a frame holds can be reached by an offset in an instruction. -/
theorem StackFrame.Safe.offset {f : StackFrame} (h : f.Safe) {o : Int32}
    (ho : o ∈ f.words) : -2048 ≤ o.toInt ∧ o.toInt ≤ 2047 := by
  have := h.words o ho
  have := h.small
  omega

theorem Instr.KeepsTo.immediate {f : StackFrame} {i : Instr} (h : i.KeepsTo f) (safe : f.Safe)
    {n : Int32} (hn : i.immediate? = some n) : -2048 ≤ n.toInt ∧ n.toInt ≤ 2047 := by
  have hplaced := h.placed
  cases i with
  | load | store =>
    obtain rfl := Option.some.inj hn
    exact safe.offset (List.mem_cons_of_mem 0 (List.mem_append_left _ hplaced.2))
  | imm =>
    obtain rfl := Option.some.inj hn
    exact fitsImmediate_iff.1 hplaced
  | jalr => exact hplaced.elim
  | _ => cases hn

section Lines

variable {f : StackFrame} {p : Placement} {i j : Instr}

theorem Reg.isSaved_of_isLowered {r : Reg} (h : r.isLowered = true)
    (hmachine : r.isVirtual = false) : r.isSaved = false := by
  simp only [Reg.isLowered, Reg.isShared, hmachine, Bool.false_or, Bool.or_eq_true,
    Bool.and_eq_true, beq_iff_eq, decide_eq_true_eq] at h
  rcases h with rfl | (rfl | rfl) | h
  · rfl
  · rfl
  · rfl
  · simp only [Reg.isSaved, Reg.isSavedNumber, Bool.or_eq_false_iff, beq_eq_false_iff_ne,
      Bool.and_eq_false_iff, decide_eq_false_iff_not]
    omega

/-- The register that a line writes, after registers were put in. -/
theorem Placement.target_kept (hhome : ∀ r h, p.home? r = some h → h ≠ .sp ∧
    (h.isSaved = true → h ∈ f.saved)) {r : Reg}
    (hlowered : r.isLowered = true) (hsp : r ≠ .sp) :
    p.target r ≠ .sp ∧ ((p.target r).isSaved = true → p.target r ∈ f.saved) := by
  unfold target
  by_cases hr : r.isVirtual = true
  · rw [hr, Bool.not_true, if_neg Bool.false_ne_true]
    cases p.slot? r with
    | some o =>
      show Reg.t5 ≠ .sp ∧ (Reg.t5.isSaved = true → _)
      exact ⟨by decide, fun h => nomatch h⟩
    | none =>
      show p.home r ≠ .sp ∧ _
      rw [home_eq]
      cases hh : p.home? r with
      | none => exact ⟨by decide, fun h => nomatch h⟩
      | some h => exact hhome r h hh
  · rw [Bool.not_eq_true] at hr
    rw [hr, Bool.not_false, if_pos rfl]
    refine ⟨hsp, fun hsaved => ?_⟩
    rw [Reg.isSaved_of_isLowered hlowered hr] at hsaved
    cases hsaved

/-- A line that keeps to variables becomes lines that keep to the frame. -/
theorem Placement.keepsTo_realizeInstr (hhome : ∀ r h, p.home? r = some h → h ≠ .sp ∧
    (h.isSaved = true → h ∈ f.saved))
    (hslot : ∀ r o, p.slot? r = some o → o ∈ f.locals) (hlowered : i.isLowered = true)
    (hplaced : i.Placed (IsSlot f.slots)) (hj : j ∈ p.realizeInstr i) : j.KeepsTo f := by
  obtain ⟨-, hdest, hsp⟩ := Instr.isLowered_iff.1 hlowered
  obtain ⟨htarget, hsaved⟩ := p.target_kept hhome hdest hsp
  have hscratch : ∀ s ∈ scratch, s ≠ .sp ∧ s.isSaved = false := by decide
  have hvariable : ∀ o, IsSlot f.slots o → o ∈ f.locals := by
    rintro _ ⟨n, hn, rfl⟩
    exact List.mem_append_left _ (List.mem_map_of_mem (List.mem_range.2 hn))
  rw [realizeInstr_eq, List.mem_append, List.mem_cons] at hj
  rcases hj with hload | rfl | hstore
  · -- a value is fetched from its word
    obtain ⟨⟨s, r, o⟩, hmem, rfl⟩ := List.mem_map.1 hload
    obtain ⟨hs, hstacked⟩ := List.of_mem_zip hmem
    obtain ⟨hne, hs⟩ := hscratch s hs
    refine ⟨hne, fun h => ?_, rfl, hslot r o (mem_stacked.1 hstacked).2⟩
    rw [show (Instr.load .lw s .sp o).dest = s from rfl, hs] at h
    cases h
  · refine ⟨by rwa [Instr.dest_mapRegs p.target_zero], by rwa [Instr.dest_mapRegs p.target_zero],
      ?_⟩
    cases i with
    | load op rd base o | store op src base o =>
      obtain ⟨rfl, ho⟩ := hplaced
      exact ⟨rfl, hvariable o ho⟩
    | _ => exact hplaced
  · -- a value is put into its word
    unfold storesOf at hstore
    split at hstore
    · next o ho =>
      obtain rfl := List.mem_singleton.1 hstore
      refine ⟨show Reg.zero ≠ .sp by decide, fun h => (nomatch h), rfl, ?_⟩
      split at ho
      · exact hslot _ o ho
      · cases ho
    · cases hstore

end Lines

/-! ### The code of a function -/

section Frame

variable {f : StackFrame}

theorem Reg.machine_of_isSaved {r : Reg} (h : r.isSaved = true) : r.isVirtual = false := by
  simp only [Reg.isSaved, Reg.isSavedNumber, Bool.or_eq_true, Bool.and_eq_true, beq_iff_eq,
    decide_eq_true_eq] at h
  rw [Reg.isVirtual, decide_eq_false_iff_not, Reg.machineCount]
  omega

theorem StackFrame.Safe.encodable_place (safe : f.Safe) {r : Reg} {o : Int32}
    (h : (r, o) ∈ f.places) :
    (Instr.store .sw r .sp o).Encodable ∧ (Instr.load .lw r .sp o).Encodable := by
  have ho : o ∈ f.words :=
    List.mem_cons_of_mem 0 (List.mem_append_right _ (List.mem_map_of_mem (f := (·.2)) h))
  have hr : r.isVirtual = false := by
    rw [StackFrame.places_eq] at h
    obtain ⟨⟨q, i⟩, hq, heq⟩ := List.mem_map.1 h
    obtain ⟨rfl, -⟩ := Prod.mk.inj heq
    exact Reg.machine_of_isSaved (safe.saved.2 q (List.fst_mem_of_mem_zipIdx hq))
  have himmediate : ∀ n, some o = some n → -2048 ≤ n.toInt ∧ n.toInt ≤ 2047 := by
    rintro n ⟨⟩
    exact safe.offset ho
  exact ⟨⟨himmediate, rfl, by simp [Instr.reads, hr]; rfl⟩,
    ⟨himmediate, hr, by simp [Instr.reads]; rfl⟩⟩

theorem StackFrame.Safe.encodable_size (safe : f.Safe) :
    (Instr.imm .addi .sp .sp (-f.size)).Encodable ∧ (Instr.imm .addi .sp .sp f.size).Encodable := by
  have hsmall := safe.small
  have hzero : 0 ≤ f.size.toInt := by
    have := safe.words 0 List.mem_cons_self
    omega
  have hneg : (-f.size).toInt = -f.size.toInt := by
    rw [Int32.toInt_neg, Int.bmod_eq_of_le (by omega) (by omega)]
  refine ⟨⟨?_, rfl, by simp [Instr.reads]; rfl⟩, ⟨?_, rfl, by simp [Instr.reads]; rfl⟩⟩
  · rintro n ⟨⟩
    rw [hneg]
    omega
  · rintro n ⟨⟩
    omega

theorem StackFrame.Safe.encodable_address :
    (Instr.store .sw .ra .sp 0).Encodable ∧ (Instr.load .lw .ra .sp 0).Encodable ∧
      (Instr.jalr .zero .ra 0).Encodable := by
  have himmediate : ∀ n, some (0 : Int32) = some n → -2048 ≤ n.toInt ∧ n.toInt ≤ 2047 := by
    rintro n ⟨⟩
    decide
  exact ⟨⟨himmediate, rfl, by decide⟩, ⟨himmediate, rfl, by decide⟩, ⟨himmediate, rfl, by decide⟩⟩

theorem Instr.encodable_label (l : String) : (Instr.label l).Encodable :=
  ⟨fun _ h => (nomatch h), rfl, fun _ h => (nomatch h)⟩

theorem StackFrame.Safe.encodable_enter (safe : f.Safe) : ∀ i ∈ f.enter, i.Encodable := by
  intro i hi
  simp only [enter, List.mem_append, List.mem_map, List.mem_cons, List.not_mem_nil, or_false] at hi
  rcases hi with (rfl | rfl) | ⟨⟨r, o⟩, hplace, rfl⟩
  · exact safe.encodable_size.1
  · exact encodable_address.1
  · exact (safe.encodable_place hplace).1

theorem StackFrame.Safe.encodable_leave (safe : f.Safe) : ∀ i ∈ f.leave, i.Encodable := by
  intro i hi
  simp only [leave, List.mem_append, List.mem_map, List.mem_cons, List.not_mem_nil, or_false] at hi
  rcases hi with ⟨⟨r, o⟩, hplace, rfl⟩ | rfl | rfl | rfl
  · exact (safe.encodable_place hplace).2
  · exact encodable_address.2.1
  · exact safe.encodable_size.2
  · exact encodable_address.2.2

end Frame

/-- The code of a function: its label, what takes a frame and keeps the return address and the
preserved registers in it, a body that keeps to the frame, the label of the end, and what restores
all of that and returns. -/
structure Listing.LaidOut (name : String) (f : StackFrame) (block : Listing) : Prop where
  safe : f.Safe
  parts : ∃ (body : Listing) (exit : String), block =
    Instr.label (functionLabel name) :: Instr.imm .addi .sp .sp (-f.size) ::
      Instr.store .sw .ra .sp 0 ::
        ((f.places.map fun place => Instr.store .sw place.1 .sp place.2) ++
          (body ++ Instr.label exit ::
            ((f.places.map fun place => Instr.load .lw place.1 .sp place.2) ++
          [Instr.load .lw .ra .sp 0, Instr.imm .addi .sp .sp f.size, Instr.jalr .zero .ra 0]))) ∧
    ∀ i ∈ body, i.KeepsTo f

section Function

variable {opts : CodegenOptions} {functions : List String} {labels : Nat} {f : NamedFunction}
  {lf : LoweredFunction} {s : Supply} {a : Allocation}

/-- Without comments the same registers and words are chosen. -/
theorem Compiles.bare (h : Compiles opts functions labels f lf s a) :
    ∃ a' ranges, Compiles opts.silent functions labels f { lf with code := lf.code.bare } s a' ∧
      a'.placement = a.placement ∧ a'.saved = a.saved ∧
      a'.Valid .standard (StackFrame.spillBase s.slots) lf.code.bare ranges := by
  obtain ⟨a', ranges, hallocated, hvalid⟩ :=
    exists_standard (StackFrame.spillBase s.slots) (writesFirst_function h.silent)
  obtain ⟨hcommented, -⟩ := allocate_bare hallocated
  obtain rfl := Except.ok.inj (h.allocated.symm.trans hcommented)
  exact ⟨a', ranges, ⟨h.silent, hallocated, h.immediate⟩, rfl, rfl, hvalid⟩

/-- The body of a function keeps to its frame. -/
theorem Compiles.keepsTo (h : Compiles opts functions labels f lf s a) :
    ∀ i ∈ a.code, i.KeepsTo (frameOf s a) := by
  obtain ⟨hcode, ⟨ranges, fits⟩, hsaved, -⟩ := allocate_spec h.allocated
  have hhome : ∀ r q, a.placement.home? r = some q →
    q ≠ .sp ∧ (q.isSaved = true → q ∈ (frameOf s a).saved) := by
    intro r q hq
    refine ⟨?_, hsaved r q hq⟩
    rintro rfl
    have hshared := (fits.home_private hq).2.2.2.1
    cases hshared
  have hslot : ∀ r o, a.placement.slot? r = some o → o ∈ (frameOf s a).locals := by
    intro r o ho
    obtain ⟨k, hk, rfl, -⟩ := fits.index_of_slot? ho
    exact List.mem_append_right _ (List.mem_map_of_mem (List.mem_range.2 hk))
  intro j hj
  rw [hcode] at hj
  obtain ⟨i, hi, hj⟩ := List.mem_flatMap.1 hj
  by_cases hcomment : i.isComment = true
  · cases i with
    | comment note =>
      have hj : j ∈ [Instr.comment note] := hj
      obtain rfl := List.mem_singleton.1 hj
      exact ⟨show Reg.zero ≠ .sp by decide, fun h => (nomatch h), trivial⟩
    | _ => cases hcomment
  · -- All other lines are also there without comments, and these are tidy.
    obtain ⟨-, piece⟩ := shape_function rfl h.silent
    have htidy := piece.tidy i (mem_bare.2 ⟨hi, by simpa using hcomment⟩)
    exact a.placement.keepsTo_realizeInstr hhome hslot htidy.lowered htidy.placed hj

/-- The frame of a function with few variables and registers is safe. -/
theorem Compiles.safe (h : Compiles opts functions labels f lf s a) (hslots : s.slots < 2 ^ 27)
    (hregs : s.regs < 2 ^ 27) : (frameOf s a).Safe := by
  obtain ⟨a', ranges, hbare, hplacement, hsaved, hvalid⟩ := h.bare
  have hframe : frameOf s a' = frameOf s a := by
    rw [frameOf, frameOf, Allocation.spills, Allocation.spills, hplacement, hsaved]
  rw [← hframe]
  have hregisters : a'.saved.Nodup ∧ ∀ r ∈ a'.saved, r.isSaved = true :=
    ⟨hvalid.saved_sorted.imp fun hlt heq => (heq ▸ hlt).ne rfl,
      fun r hr => ((hvalid.mem_saved r).1 hr).1⟩
  exact (hbare.frame_fits rfl hslots hregs).safe hregisters

/-- The code of a function takes its frame, keeps to it and gives it back. -/
theorem Compiles.laidOut (h : Compiles opts functions labels f lf s a) (safe : (frameOf s a).Safe) :
    (blockOf f lf s a).LaidOut f.name (frameOf s a) := by
  refine ⟨safe, a.code, lf.exit, ?_, h.keepsTo⟩
  simp [blockOf, StackFrame.enter, StackFrame.leave]

/-- The code of a function can be encoded. -/
theorem Compiles.encodable (h : Compiles opts functions labels f lf s a)
    (safe : (frameOf s a).Safe) : ∀ i ∈ blockOf f lf s a, i.Encodable := by
  obtain ⟨hcode, ⟨_, places⟩, -, -⟩ := allocate_spec h.allocated
  have hmachine : ∀ i ∈ a.code, i.onMachine := by
    rw [hcode]
    exact Placement.realize_machine (fun r q hq => (places.home_private hq).2.2.2.2) lf.code
  intro i hi
  simp only [blockOf, List.mem_append, List.mem_singleton] at hi
  rcases hi with (((rfl | hi) | hi) | rfl) | hi
  · exact Instr.encodable_label _
  · exact safe.encodable_enter i hi
  · exact ⟨fun n hn => (h.keepsTo i hi).immediate safe hn, hmachine i hi⟩
  · exact Instr.encodable_label _
  · exact safe.encodable_leave i hi

end Function

/-! ### The listing of a program -/

/-- What a listing of functions with some frames has to obey: its lines can be encoded, and it is
the code of the functions, one after the other, each laid out with its frame. -/
structure Listing.Framed (code : Listing) (fs : List NamedFunction) (frames : List StackFrame) :
    Prop where
  encodable : ∀ i ∈ code, i.Encodable
  length : frames.length = fs.length
  blocks : ∃ blocks : List Listing, code = blocks.flatten ∧
    List.Forall₂ (fun (e : NamedFunction × StackFrame) block => block.LaidOut e.1.name e.2)
      (fs.zip frames) blocks

theorem generateFunctions_framed {opts : CodegenOptions} {functions : List String} {labels : Nat}
    {fs : List NamedFunction} {code : Listing}
    (h : generateFunctions opts functions labels fs = .ok code)
    (hfew : ∀ e ∈ framesOf opts functions labels fs, e.1.slots < 2 ^ 27 ∧ e.1.regs < 2 ^ 27) :
    code.Framed fs ((framesOf opts functions labels fs).map (·.2)) := by
  induction fs generalizing labels code with
  | nil =>
    obtain rfl : [] = code := Except.ok.inj h
    exact ⟨List.forall_mem_nil _, rfl, [], rfl, .nil⟩
  | cons f fs ih =>
    obtain ⟨lf, s, a, rest, hcompiles, hrest, rfl⟩ := generateFunctions_cons h
    rw [hcompiles.framesOf_cons] at hfew ⊢
    rw [List.forall_mem_cons] at hfew
    obtain ⟨⟨hslots, hregs⟩, hfew⟩ := hfew
    have safe := hcompiles.safe hslots hregs
    obtain ⟨hencodable, hlength, blocks, rfl, hblocks⟩ := ih hrest hfew
    refine ⟨?_, congrArg Nat.succ hlength, blockOf f lf s a :: blocks, rfl,
      .cons (hcompiles.laidOut safe) hblocks⟩
    exact List.forall_mem_append.2 ⟨hcompiles.encodable safe, hencodable⟩

/-- **Frames are safe and can be encoded.** The listing of a program whose functions have fewer than
`2 ^ 27` variables and registers each is the code of the functions, one after the other. The frame
of a function has a size that is a multiple of sixteen and at most 2032; its words, for the return
address, variables, spilled registers and preserved registers, are aligned, disjoint and within it.
The function keeps the preserved registers of the frame before its body and restores them from the
same words after it, and the body moves no stack pointer, uses the words of variables and spilled
registers only and writes no other preserved register. Every immediate number and every offset in
the listing has twelve bits with a sign, and every register is one of the machine. -/
theorem Program.generate_framed {opts : CodegenOptions} {p : Program} {code : Listing}
    (h : p.generate opts = .ok code)
    (hfew : ∀ e ∈ p.frames opts, e.1.slots < 2 ^ 27 ∧ e.1.regs < 2 ^ 27) :
    code.Framed p.functions ((p.frames opts).map (·.2)) := by
  unfold Program.generate at h
  split at h
  · cases h
  · exact generateFunctions_framed h hfew

/-- A function that adds its argument to a call of itself, thirteen times over: more values outlive
the call than the machine has registers that calls preserve. -/
def summingProgram : Program := ⟨[], [
  .func {
    loc := {}, name := "sum", params := [⟨{}, "x", none⟩], ret := none, checked := true
    body := ⟨{}, [.ret {} (some ((List.replicate 13 (Expr.var {} "x")).foldr (.binOp {} .add)
      (.call {} (.var {} "sum") [.var {} "x"] [])))]⟩ }]⟩

theorem summing_framed : ∃ code, summingProgram.generate {} = .ok code ∧
    (∀ e ∈ summingProgram.frames {}, e.1.slots < 2 ^ 27 ∧ e.1.regs < 2 ^ 27) ∧
    code.Framed summingProgram.functions [⟨1, 2, Pools.standard.saved⟩] := by
  have hframes : (summingProgram.frames {}).map (·.2) = [⟨1, 2, Pools.standard.saved⟩] := by
    decide +kernel
  have hfew : ∀ e ∈ summingProgram.frames {}, e.1.slots < 2 ^ 27 ∧ e.1.regs < 2 ^ 27 := by
    decide +kernel
  have hgenerates : (summingProgram.generate {}).toBool = true := by decide +kernel
  cases hgenerate : summingProgram.generate {} with
  | error e =>
    rw [hgenerate] at hgenerates
    cases hgenerates
  | ok code =>
    have hframed := Program.generate_framed hgenerate hfew
    rw [hframes] at hframed
    exact ⟨code, rfl, hfew, hframed⟩

end FunRiscv
