import Mathlib
import FunRiscv.Proofs.Codegen.Frame

/-!
# The listing of a program

* `Compiles`: what the code of a function is made from, and `blockOf`: that code.
* `Program.generate_spec`: the listing of a program holds the code of each function,
  and no label twice.
* `Compiles.embeds`: jumps in the code of a function find their targets in the listing.
-/

namespace FunRiscv

open Machine Lowering

/-! ### The code of a function -/

/-- The frame of a function. -/
def frameOf (s : Supply) (a : Allocation) : StackFrame := ⟨s.slots, a.spills, a.saved⟩

/-- The code of a function. -/
def blockOf (f : NamedFunction) (lf : LoweredFunction) (s : Supply) (a : Allocation) : Listing :=
  [.label (functionLabel f.name)] ++ (frameOf s a).enter ++ a.code ++ [.label lf.exit] ++
    (frameOf s a).leave

/-- What the code of a function is made from: the function on virtual registers and
where these were put. -/
structure Compiles (opts : CodegenOptions) (functions : List String) (labels : Nat)
    (f : NamedFunction) (lf : LoweredFunction) (s : Supply) (a : Allocation) : Prop where
  lowered : Gives (lowerFunction opts functions f) { labels } lf s
  allocated : allocate .standard (StackFrame.spillBase s.slots) lf.code = .ok a
  immediate : fitsImmediate (frameOf s a).size = true

variable {opts : CodegenOptions} {functions : List String} {labels : Nat} {f : NamedFunction}

theorem generateFunction_spec {code : Listing} {labels' : Nat}
    (h : generateFunction opts functions labels f = .ok (code, labels')) :
    ∃ lf s a, Compiles opts functions labels f lf s a ∧ code = blockOf f lf s a ∧
      labels' = s.labels := by
  unfold generateFunction at h
  cases hl : (lowerFunction opts functions f).run { labels } with
  | error e =>
    rw [hl] at h
    cases h
  | ok r =>
    obtain ⟨lf, s⟩ := r
    rw [hl] at h
    simp only [bind, Except.bind] at h
    cases ha : allocate .standard (StackFrame.spillBase s.slots) lf.code with
    | error e =>
      rw [ha] at h
      cases h
    | ok a =>
      rw [ha] at h
      dsimp only at h
      split at h
      · cases h
      · next hfits =>
        obtain ⟨rfl, rfl⟩ := Prod.mk.inj (Except.ok.inj h)
        rw [Bool.not_eq_true, Bool.not_eq_false'] at hfits
        exact ⟨lf, s, a, ⟨hl, ha, hfits⟩, rfl, rfl⟩

theorem generateFunctions_cons {fs : List NamedFunction} {code : Listing}
    (h : generateFunctions opts functions labels (f :: fs) = .ok code) :
    ∃ lf s a rest, Compiles opts functions labels f lf s a ∧
      generateFunctions opts functions s.labels fs = .ok rest ∧
      code = blockOf f lf s a ++ rest := by
  rw [generateFunctions] at h
  cases hf : generateFunction opts functions labels f with
  | error e =>
    rw [hf] at h
    cases h
  | ok r =>
    obtain ⟨block, labels'⟩ := r
    rw [hf] at h
    obtain ⟨lf, s, a, hcompiles, rfl, rfl⟩ := generateFunction_spec hf
    have h : (generateFunctions opts functions s.labels fs).bind
      (fun rest => .ok (blockOf f lf s a ++ rest)) = .ok code := h
    cases hr : generateFunctions opts functions s.labels fs with
    | error e =>
      rw [hr] at h
      cases h
    | ok rest =>
      rw [hr] at h
      obtain rfl := Except.ok.inj h
      exact ⟨lf, s, a, rest, hcompiles, hr, rfl⟩

/-! ### Labels -/

/-- Blocks of machine instructions have the labels of the instructions. -/
theorem Placement.count_realize (p : Placement) (code : Listing) (l : String) :
    (p.realize code).count (.label l) = code.count (.label l) := by
  induction code with
  | nil => rfl
  | cons i code ih =>
    have hsplit : p.realize (i :: code) = p.realizeInstr i ++ p.realize code := rfl
    have hblock : (p.realizeInstr i).count (.label l) = if i = .label l then 1 else 0 := by
      by_cases hi : i = .label l
      · subst hi
        rw [if_pos rfl]
        exact List.count_singleton_self
      · rw [if_neg hi]
        exact List.count_eq_zero.2 fun h => hi (label_mem_realizeInstr.1 h)
    rw [hsplit, List.count_append, hblock, ih, count_label_cons, Nat.add_comm]

theorem StackFrame.label_not_mem_enter (f : StackFrame) (l : String) : .label l ∉ f.enter := by
  simp [enter]

theorem StackFrame.label_not_mem_leave (f : StackFrame) (l : String) : .label l ∉ f.leave := by
  simp [leave]

/-- A label with a number is not the label of a function. -/
theorem functionLabel_ne_labelName (name : String) {stem : String} (hstem : stem ∈ stems)
    (n : Nat) : functionLabel name ≠ labelName stem n := by
  intro h
  have hlist := congrArg String.toList h
  have hname : (labelName stem n).toList = stem.toList ++ '_' :: (toString n).toList := by
    simp [labelName]
  rw [hname] at hlist
  unfold functionLabel at hlist
  split at hlist
  · have hmem : '_' ∈ "main".toList := by
      rw [hlist]
      simp
    revert hmem
    decide
  · have hheads : ∀ stem ∈ stems, stem.toList.head? ≠ some 'f' ∧ stem.toList ≠ [] := by decide
    obtain ⟨hhead, hnil⟩ := hheads stem hstem
    refine hhead ?_
    have := congrArg List.head? hlist
    rw [List.head?_append_of_ne_nil _ hnil] at this
    rw [← this]
    simp

/-- The labels of a function: its own, and those with numbers that were handed out for it. -/
theorem Compiles.count_label {lf : LoweredFunction} {s : Supply} {a : Allocation}
    (h : Compiles opts functions labels f lf s a) (hcomments : opts.comments = false) (l : String) :
    (blockOf f lf s a).count (.label l) ≤ 1 ∧ (0 < (blockOf f lf s a).count (.label l) →
      l = functionLabel f.name ∨
        ∃ stem ∈ stems, ∃ n, labels < n ∧ n ≤ s.labels ∧ l = labelName stem n) := by
  obtain ⟨hlater, piece⟩ := shape_function hcomments h.lowered
  obtain ⟨-, hexit, -⟩ := gives_function h.lowered
  obtain ⟨hcode, -⟩ := allocate_spec h.allocated
  have hlabels : labels + 1 ≤ s.labels := hlater.labels
  have hcount : (blockOf f lf s a).count (.label l) = (if functionLabel f.name = l then 1 else 0) +
      lf.code.count (.label l) + if lf.exit = l then 1 else 0 := by
    unfold blockOf
    rw [hcode]
    simp only [List.count_append, Placement.count_realize,
      List.count_eq_zero.2 ((frameOf s a).label_not_mem_enter l),
      List.count_eq_zero.2 ((frameOf s a).label_not_mem_leave l)]
    rw [count_label_cons, count_label_cons]
    simp
  rw [hcount]
  have hle := count_label_le lf.code l
  have hpiece : _ ∧ (_ → labels + 1 < _ ∧ _) := piece.labels (labelNumber l)
  have hnamed : 0 < lf.code.count (.label l) →
    ∃ stem ∈ stems, l = labelName stem (labelNumber l) := by
    intro hpos
    obtain ⟨stem, hstem, n, hn⟩ := (piece.tidy _ (List.count_pos_iff.1 hpos)).named l rfl
    refine ⟨stem, hstem, ?_⟩
    rw [hn, labelNumber_labelName]
  have hret : lf.exit = labelName "ret" (labels + 1) := hexit
  by_cases hfun : functionLabel f.name = l
  · have hzero : lf.code.count (.label l) = 0 := by
      by_contra hne
      obtain ⟨stem, hstem, hl⟩ := hnamed (Nat.pos_of_ne_zero hne)
      exact functionLabel_ne_labelName f.name hstem _ (hfun.trans hl)
    have hother : lf.exit ≠ l := by
      rw [hret]
      exact fun h => functionLabel_ne_labelName f.name (by decide) _ (hfun.trans h.symm)
    rw [if_pos hfun, hzero, if_neg hother]
    exact ⟨Nat.le_refl _, fun _ => .inl hfun.symm⟩
  · rw [if_neg hfun]
    by_cases hend : lf.exit = l
    · have hnumber : labelNumber l = labels + 1 := by rw [← hend, hret, labelNumber_labelName]
      rw [hnumber] at hle hpiece
      rw [if_pos hend]
      refine ⟨by omega,
        fun _ => .inr ⟨"ret", by decide, labels + 1, by omega, hlabels, by rw [← hend, hret]⟩⟩
    · rw [if_neg hend]
      refine ⟨by omega, fun hpos => .inr ?_⟩
      obtain ⟨stem, hstem, hl⟩ := hnamed (by omega)
      exact ⟨stem, hstem, labelNumber l, by omega, by omega, hl⟩

/-! ### The listing -/

theorem duplicateLabel?_none {seen : List String} {fs : List NamedFunction}
    (h : duplicateLabel? seen fs = none) :
    (fs.map fun f => functionLabel f.name).Nodup ∧ ∀ f ∈ fs, functionLabel f.name ∉ seen := by
  induction fs generalizing seen with
  | nil => exact ⟨List.nodup_nil, by simp⟩
  | cons f fs ih =>
    rw [duplicateLabel?] at h
    split at h
    · cases h
    · next hseen =>
      obtain ⟨hnodup, hnot⟩ := ih h
      refine ⟨List.nodup_cons.2 ⟨?_, hnodup⟩, ?_⟩
      · intro hmem
        obtain ⟨g, hg, heq⟩ := List.mem_map.1 hmem
        exact hnot g hg (heq ▸ List.mem_cons_self)
      · intro g hg
        rcases List.mem_cons.1 hg with rfl | hg
        · simpa using hseen
        · exact fun hmem => hnot g hg (List.mem_cons_of_mem _ hmem)

/-- No label stands twice in the code of functions whose labels are distinct. -/
theorem count_label_functions {fs : List NamedFunction} {code : Listing}
    (hcomments : opts.comments = false) (h : generateFunctions opts functions labels fs = .ok code)
    (hnodup : (fs.map fun f => functionLabel f.name).Nodup) (l : String) :
    code.count (.label l) ≤ 1 ∧ (0 < code.count (.label l) →
      (∃ f ∈ fs, l = functionLabel f.name) ∨
        ∃ stem ∈ stems, ∃ n, labels < n ∧ l = labelName stem n) := by
  induction fs generalizing labels code with
  | nil =>
    obtain rfl : [] = code := Except.ok.inj h
    simp
  | cons f fs ih =>
    obtain ⟨lf, s, a, rest, hcompiles, hrest, rfl⟩ := generateFunctions_cons h
    rw [List.map_cons, List.nodup_cons] at hnodup
    obtain ⟨hblock, hblock'⟩ := hcompiles.count_label hcomments l
    obtain ⟨hrest, hrest'⟩ := ih hrest hnodup.2
    obtain ⟨hlater, -⟩ := shape_function hcomments hcompiles.lowered
    have hlabels : labels + 1 ≤ s.labels := hlater.labels
    rw [List.count_append]
    -- Labels of functions are distinct, numbers go on, and no label is of both kinds.
    have hapart : 0 < (blockOf f lf s a).count (.label l) → rest.count (.label l) = 0 := by
      intro hpos
      by_contra hne
      rcases hblock' hpos with rfl | ⟨stem, hstem, n, -, hn, rfl⟩
      · rcases hrest' (Nat.pos_of_ne_zero hne) with ⟨g, hg, heq⟩ | ⟨stem, hstem, n, -, heq⟩
        · exact hnodup.1 (heq ▸ List.mem_map_of_mem hg)
        · exact functionLabel_ne_labelName f.name hstem n heq
      · rcases hrest' (Nat.pos_of_ne_zero hne) with ⟨g, -, heq⟩ | ⟨stem', -, m, hm, heq⟩
        · exact functionLabel_ne_labelName g.name hstem n heq.symm
        · have := congrArg labelNumber heq
          rw [labelNumber_labelName, labelNumber_labelName] at this
          omega
    refine ⟨by omega, fun hpos => ?_⟩
    by_cases hzero : (blockOf f lf s a).count (.label l) = 0
    · rcases hrest' (by omega) with ⟨g, hg, rfl⟩ | ⟨stem, hstem, n, hn, rfl⟩
      · exact .inl ⟨g, List.mem_cons_of_mem f hg, rfl⟩
      · exact .inr ⟨stem, hstem, n, by omega, rfl⟩
    · rcases hblock' (Nat.pos_of_ne_zero hzero) with rfl | ⟨stem, hstem, n, hn, -, rfl⟩
      · exact .inl ⟨f, List.mem_cons_self, rfl⟩
      · exact .inr ⟨stem, hstem, n, hn, rfl⟩

/-- What is handed out for functions that are lowered one after the other, and their frames. -/
def framesOf (opts : CodegenOptions) (functions : List String) (labels : Nat) :
    List NamedFunction → List (Supply × StackFrame)
  | [] => []
  | f :: fs =>
    match (lowerFunction opts functions f).run { labels } with
    | .error _ => []
    | .ok (lf, s) =>
      match allocate .standard (StackFrame.spillBase s.slots) lf.code with
      | .error _ => []
      | .ok a => (s, frameOf s a) :: framesOf opts functions s.labels fs

/-- What is handed out for the functions of a program, and their frames. -/
def Program.frames (opts : CodegenOptions) (p : Program) : List (Supply × StackFrame) :=
  framesOf opts (p.functions.map (·.name)) 0 p.functions

theorem Compiles.framesOf_cons {lf : LoweredFunction} {s : Supply} {a : Allocation}
    (h : Compiles opts functions labels f lf s a) (fs : List NamedFunction) :
    framesOf opts functions labels (f :: fs) = (s, frameOf s a) :: framesOf opts functions
      s.labels fs := by
  have hlowered : (lowerFunction opts functions f).run { labels } = .ok (lf, s) := h.lowered
  rw [framesOf, hlowered]
  dsimp only
  rw [h.allocated]

theorem generateFunctions_block {fs : List NamedFunction} {code : Listing}
    (h : generateFunctions opts functions labels fs = .ok code) (hf : f ∈ fs) :
    ∃ start lf s a origin, Compiles opts functions start f lf s a ∧
      At code origin (blockOf f lf s a) ∧ (s, frameOf s a) ∈ framesOf opts functions labels fs := by
  induction fs generalizing labels code with
  | nil => cases hf
  | cons g fs ih =>
    obtain ⟨lf, s, a, rest, hcompiles, hrest, rfl⟩ := generateFunctions_cons h
    rcases List.mem_cons.1 hf with rfl | hf
    · refine ⟨labels, lf, s, a, 0, hcompiles, fun k i hi => ?_, ?_⟩
      · rw [Nat.zero_add, List.getElem?_append_left (List.getElem?_eq_some_iff.1 hi).1]
        exact hi
      · rw [hcompiles.framesOf_cons]
        exact List.mem_cons_self
    · obtain ⟨start, lf', s', a', origin, hcompiles', hat, hframe⟩ := ih hrest hf
      refine ⟨start, lf', s', a', (blockOf g lf s a).length + origin, hcompiles',
        fun k i hi => ?_, ?_⟩
      · rw [Nat.add_assoc, List.getElem?_append_right (by omega), Nat.add_sub_cancel_left]
        exact hat k i hi
      · rw [hcompiles.framesOf_cons]
        exact List.mem_cons_of_mem _ hframe

/-- A listing that holds the code of each function of a program, and no label twice. -/
structure Program.Generated (opts : CodegenOptions) (p : Program) (code : Listing) : Prop where
  distinct : code.Distinct
  names : (p.functions.map fun f => functionLabel f.name).Nodup
  blocks : ∀ f ∈ p.functions, ∃ start lf s a origin,
    Compiles opts (p.functions.map (·.name)) start f lf s a ∧ At code origin (blockOf f lf s a) ∧
      (s, frameOf s a) ∈ p.frames opts

/-- The listing of a program is such a listing. -/
theorem Program.generate_spec {p : Program} {code : Listing} (hcomments : opts.comments = false)
    (h : p.generate opts = .ok code) : p.Generated opts code := by
  unfold Program.generate at h
  split at h
  · cases h
  · next hnone =>
    obtain ⟨hnodup, -⟩ := duplicateLabel?_none hnone
    exact ⟨distinct_of_count fun l => (count_label_functions hcomments h hnodup l).1, hnodup,
      fun f hf => generateFunctions_block h hf⟩

/-- The end of a function is not within its code. -/
theorem Compiles.exit_not_mem {lf : LoweredFunction} {s : Supply} {a : Allocation}
    (h : Compiles opts functions labels f lf s a) (hcomments : opts.comments = false) :
    .label lf.exit ∉ lf.code := by
  obtain ⟨-, piece⟩ := shape_function hcomments h.lowered
  obtain ⟨-, hexit, -⟩ := gives_function h.lowered
  intro hmem
  have hpos := List.count_pos_iff.2 (mem_numbersOf hmem)
  have hlt : labels + 1 < _ := ((piece.labels _).2 hpos).1
  rw [hexit, exitLabel, labelNumber_labelName] at hlt
  exact Nat.lt_irrefl _ hlt

theorem Compiles.target_exit {lf : LoweredFunction} {s : Supply} {a : Allocation}
    (h : Compiles opts functions labels f lf s a) (hcomments : opts.comments = false) :
    target lf.code lf.exit = lf.code.length :=
  List.idxOf_eq_length (h.exit_not_mem hcomments)

/-- Jumps in the code of a function find their targets in the listing. -/
theorem Compiles.embeds {lf : LoweredFunction} {s : Supply} {a : Allocation} {code : Listing}
    {origin : Nat} (h : Compiles opts functions labels f lf s a) (hcomments : opts.comments = false)
    (hdistinct : code.Distinct)
    (hat : At code origin (a.placement.realize lf.code ++ [Instr.label lf.exit])) :
    a.placement.Embeds lf.code code origin := by
  obtain ⟨-, piece⟩ := shape_function hcomments h.lowered
  obtain ⟨hblocks, hlast⟩ := At.append hat
  refine ⟨hblocks, fun i hi l hl => hdistinct.target ?_⟩
  rcases piece.jumps.mem hi hl with hmem | rfl
  · have hlabel : .label l ∈ a.placement.realize lf.code :=
      List.mem_flatMap.2 ⟨.label l, hmem, Placement.label_mem_realizeInstr.2 rfl⟩
    have htarget := a.placement.target_realize lf.code l
    rw [← htarget]
    refine hblocks _ _ ?_
    rw [Machine.target, List.getElem?_eq_getElem (List.idxOf_lt_length_of_mem hlabel),
      List.getElem_idxOf]
  · rw [h.target_exit hcomments, Placement.offset, List.take_length]
    exact (At.head hlast).1

/-! ### The frame of a function -/

/-- At most as many registers are spilled as were handed out. -/
theorem Compiles.spills_le {lf : LoweredFunction} {s : Supply} {a : Allocation}
    (h : Compiles opts functions labels f lf s a) (hcomments : opts.comments = false) :
    a.spills ≤ s.regs := by
  obtain ⟨-, piece⟩ := shape_function hcomments h.lowered
  obtain ⟨-, ⟨ranges, fits⟩, -⟩ := allocate_spec h.allocated
  obtain ⟨place, active, keeps⟩ := fits.kept
  have hsubset : a.placement.spilled.map (·.1) ⊆ (List.range s.regs).map Reg.virtual := by
    intro r hr
    obtain ⟨range, hrange, rfl⟩ := keeps.spilled_done r hr
    obtain ⟨hvirtual, i, hi, hdest⟩ := fits.live.writes_start range hrange
    have hlt := (piece.tidy i (List.mem_of_getElem? hi)).written (by rw [hdest]; exact hvirtual)
    have hge : Reg.machineCount ≤ range.reg.number := of_decide_eq_true hvirtual
    rw [hdest] at hlt
    refine List.mem_map.2 ⟨range.reg.number - Reg.machineCount, List.mem_range.2 (by omega), ?_⟩
    show (⟨Reg.machineCount + (range.reg.number - Reg.machineCount)⟩ : Reg) = range.reg
    rw [Nat.add_sub_cancel' hge]
  have hlength := (List.subperm_of_subset keeps.spilled_nodup hsubset).length_le
  rwa [List.length_map, List.length_map, List.length_range] at hlength

theorem Compiles.frame_fits {lf : LoweredFunction} {s : Supply} {a : Allocation}
    (h : Compiles opts functions labels f lf s a) (hcomments : opts.comments = false)
    (hslots : s.slots < 2 ^ 27) (hregs : s.regs < 2 ^ 27) : (frameOf s a).Fits where
  slots := hslots
  spills := (h.spills_le hcomments).trans_lt hregs
  saved := (allocate_saved_length h.allocated).trans_lt (by decide)
  immediate := h.immediate

end FunRiscv
