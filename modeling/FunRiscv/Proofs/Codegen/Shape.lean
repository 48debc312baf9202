import Mathlib
import FunRiscv.Proofs.Alloc.Simulation
import FunRiscv.Proofs.Codegen.Lowering

/-!
# The shape of lowered code

* `Lowering.labelNumber_labelName`: the number of a label is known from its name.
* `Instr.Tidy`: an instruction on registers and words of the frame that were handed out.
* `Lowering.Jumps`: jumps lead to later labels or to given ones.
* `Lowering.Piece`: tidy code whose labels are distinct and were handed out between two supplies.
* `Lowering.shape_expr`, `Lowering.shape_stmts`, `Lowering.shape_function`: lowered
  code is such a piece.
-/

namespace FunRiscv

open Machine

namespace Lowering

/-! ### Numbers of labels -/

/-- The number at the end of a label. -/
def labelNumber (l : String) : Nat :=
  Nat.ofDigitChars 10 (l.toList.reverse.takeWhile (· != '_')).reverse 0

@[simp]
theorem labelNumber_labelName (stem : String) (n : Nat) : labelNumber (labelName stem n) = n := by
  have hlist : (labelName stem n).toList = stem.toList ++ '_' :: Nat.toDigits 10 n := by
    simp [labelName, ToString.toString]
  have hdigits : ∀ b ∈ (Nat.toDigits 10 n).reverse, (b != '_') = true := by
    intro b hb
    rw [bne_iff_ne]
    rintro rfl
    exact Nat.underscore_not_in_toDigits (List.mem_reverse.1 hb)
  rw [labelNumber, hlist, List.reverse_append, List.reverse_cons, List.append_assoc,
    List.takeWhile_append_of_pos hdigits]
  simp [Nat.ofDigitChars_ten_toDigits]

/-- The numbers of the labels that stand in code. -/
def numbersOf : Listing → List Nat
  | [] => []
  | .label l :: rest => labelNumber l :: numbersOf rest
  | _ :: rest => numbersOf rest

theorem numbersOf_append (a b : Listing) : numbersOf (a ++ b) = numbersOf a ++ numbersOf b := by
  induction a with
  | nil => rfl
  | cons i a ih => cases i <;> simp [numbersOf, ih]

theorem mem_numbersOf {code : Listing} {l : String} (h : .label l ∈ code) :
    labelNumber l ∈ numbersOf code := by
  induction code with
  | nil => cases h
  | cons i code ih =>
    rcases List.mem_cons.1 h with rfl | h
    · exact List.mem_cons_self
    · have := ih h
      cases i <;> simp [numbersOf, this]

theorem count_label_cons (i : Instr) (code : Listing) (l : String) :
    (i :: code).count (.label l) = code.count (.label l) + if i = .label l then 1 else 0 := by
  rw [List.count_cons]
  congr 1
  by_cases h : i = .label l <;> simp [h]

theorem count_label_le (code : Listing) (l : String) :
    code.count (.label l) ≤ (numbersOf code).count (labelNumber l) := by
  induction code with
  | nil => exact Nat.zero_le _
  | cons i code ih =>
    rw [count_label_cons]
    cases i with
    | label l' =>
      rw [numbersOf, List.count_cons]
      by_cases heq : l' = l
      · simp [heq, ih]
      · have : ¬Instr.label l' = .label l := fun h => heq (Instr.label.inj h)
        rw [if_neg this]
        omega
    | _ => simpa [numbersOf] using ih

/-! ### Jumps -/

/-- Jumps lead to later labels or to given ones. -/
def Jumps (E : String → Prop) : Listing → Prop
  | [] => True
  | i :: rest => (∀ l, i.jumpsTo? = some l → .label l ∈ rest ∨ E l) ∧ Jumps E rest

theorem Jumps.mono {E F : String → Prop} {code : Listing} (h : Jumps E code) (hE : ∀ l, E l → F l) :
    Jumps F code := by
  induction code with
  | nil => trivial
  | cons i code ih => exact ⟨fun l hl => (h.1 l hl).imp_right (hE l), ih h.2⟩

theorem jumps_append {E : String → Prop} {a b : Listing} :
    Jumps E (a ++ b) ↔ Jumps (fun l => .label l ∈ b ∨ E l) a ∧ Jumps E b := by
  induction a with
  | nil => simp [Jumps]
  | cons i a ih =>
    simp only [List.cons_append, Jumps, ih, List.mem_append, or_assoc]
    tauto

theorem Jumps.mem {E : String → Prop} {code : Listing} (h : Jumps E code) {i : Instr}
    (hi : i ∈ code) {l : String} (hl : i.jumpsTo? = some l) : .label l ∈ code ∨ E l := by
  induction code with
  | nil => cases hi
  | cons j code ih =>
    rcases List.mem_cons.1 hi with rfl | hi
    · exact (h.1 l hl).imp_left (List.mem_cons_of_mem i)
    · exact (ih h.2 hi).imp_left (List.mem_cons_of_mem j)

/-- Code without jumps. -/
theorem jumps_of_none {E : String → Prop} {code : Listing} (h : ∀ i ∈ code, i.jumpsTo? = none) :
    Jumps E code := by
  induction code with
  | nil => trivial
  | cons i code ih =>
    refine ⟨fun l hl => ?_, ih fun j hj => h j (List.mem_cons_of_mem i hj)⟩
    rw [h i List.mem_cons_self] at hl
    cases hl

end Lowering

/-! ### Tidy code -/

namespace Lowering

/-- What the names of labels start with. -/
def stems : List String := ["then", "else", "endif", "match_end", "case", "ret"]

end Lowering

/-- An instruction that has access to memory only at certain offsets from the stack pointer, and
whose other immediate number fits the field for it. -/
def Instr.Placed (O : Int32 → Prop) : Instr → Prop
  | load _ _ base offset | store _ _ base offset => base = .sp ∧ O offset
  | imm _ _ _ value => fitsImmediate value = true
  | jalr .. => False
  | _ => True

theorem Instr.Placed.mono {O O' : Int32 → Prop} {i : Instr} (h : i.Placed O)
    (hO : ∀ o, O o → O' o) : i.Placed O' := by
  cases i with
  | load | store => exact ⟨h.1, hO _ h.2⟩
  | _ => exact h

/-- An offset of one of the first variables. -/
def Lowering.IsSlot (slots : Nat) (o : Int32) : Prop := ∃ n < slots, o = Lowering.slotOffset n

/-- An instruction that may occur in code on virtual registers, writes only a virtual register that
was handed out, loads and stores only whole words of variables that were handed out, and has a
numbered name if it is a label. -/
structure Instr.Tidy (regs slots : Nat) (i : Instr) : Prop where
  lowered : i.isLowered = true
  written : i.dest.isVirtual = true → i.dest.number < Reg.machineCount + regs
  accesses : ∀ get : Reg → Option Val, ∀ sp, get .sp = some sp → ∀ x ∈ i.touches get,
    ∃ n < slots, x ∈ span (sp + (Lowering.slotOffset n).toBitVec) 4
  named : ∀ l, i = .label l → ∃ stem ∈ Lowering.stems, ∃ n, l = Lowering.labelName stem n
  placed : i.Placed (Lowering.IsSlot slots)

theorem Instr.Tidy.mono {regs regs' slots slots' : Nat} {i : Instr} (h : i.Tidy regs slots)
    (hr : regs ≤ regs') (hs : slots ≤ slots') : i.Tidy regs' slots' where
  lowered := h.lowered
  written := fun hv => (h.written hv).trans_le (by omega)
  accesses := by
    intro get sp hsp x hx
    obtain ⟨n, hn, hmem⟩ := h.accesses get sp hsp x hx
    exact ⟨n, by omega, hmem⟩
  named := h.named
  placed := h.placed.mono fun _ ⟨n, hn, ho⟩ => ⟨n, hn.trans_le hs, ho⟩

theorem Reg.isVirtual_virtual (n : Nat) : (Reg.virtual n).isVirtual = true := by
  rw [Reg.isVirtual, decide_eq_true_eq]
  exact Nat.le_add_right _ _

theorem Reg.isLowered_virtual (n : Nat) : (Reg.virtual n).isLowered = true := by
  rw [Reg.isLowered, Reg.isVirtual_virtual]
  rfl

theorem Reg.virtual_ne_sp (n : Nat) : Reg.virtual n ≠ .sp := by
  intro h
  have := Reg.isVirtual_virtual n
  rw [h] at this
  cases this

namespace Lowering

section

variable {regs slots : Nat}

/-- An instruction without access to memory is tidy if its registers are. -/
theorem tidy_of_regs {i : Instr} (hreads : ∀ r ∈ i.reads, r.isLowered = true)
    (hdest : i.dest.isLowered = true) (hsp : i.dest ≠ .sp)
    (hwritten : i.dest.isVirtual = true → i.dest.number < Reg.machineCount + regs)
    (htouch : ∀ get, i.touches get = ∅) (hlabel : ∀ l, i ≠ .label l)
    (hplaced : i.Placed (IsSlot slots)) : i.Tidy regs slots where
  lowered := Instr.isLowered_iff.2 ⟨hreads, hdest, hsp⟩
  written := hwritten
  accesses := by
    intro get sp _ x hx
    rw [htouch] at hx
    exact absurd hx (Set.notMem_empty x)
  named := fun l hl => absurd hl (hlabel l)
  placed := hplaced

/-- An instruction that puts a word into a register that was handed out is tidy if it
reads such registers. -/
theorem tidy_of_dest {i : Instr} {n : Nat} (hdest : i.dest = .virtual n) (hn : n < regs)
    (hreads : ∀ r ∈ i.reads, r.isLowered = true) (htouch : ∀ get, i.touches get = ∅)
    (hlabel : ∀ l, i ≠ .label l) (hplaced : i.Placed (IsSlot slots)) : i.Tidy regs slots := by
  refine tidy_of_regs hreads ?_ ?_ (fun _ => ?_) htouch hlabel hplaced
  · rw [hdest]
    exact Reg.isLowered_virtual n
  · rw [hdest]
    exact Reg.virtual_ne_sp n
  · rw [hdest]
    exact Nat.add_lt_add_left hn _

theorem tidy_mv {n : Nat} {q : Reg} (hn : n < regs) (hq : q.isLowered = true) :
    (Instr.mv (.virtual n) q).Tidy regs slots :=
  tidy_of_dest rfl hn (by simp [Instr.reads, hq]) (fun _ => rfl) (by simp) trivial

theorem tidy_li {n : Nat} (v : Int32) (hn : n < regs) : (Instr.li (.virtual n) v).Tidy regs slots :=
  tidy_of_dest rfl hn (by simp [Instr.reads]) (fun _ => rfl) (by simp) trivial

theorem tidy_la {n : Nat} (l : String) (hn : n < regs) :
    (Instr.la (.virtual n) l).Tidy regs slots :=
  tidy_of_dest rfl hn (by simp [Instr.reads]) (fun _ => rfl) (by simp) trivial

theorem tidy_reg {op : RegOp} {n : Nat} {x y : Reg} (hn : n < regs) (hx : x.isLowered = true)
    (hy : y.isLowered = true) : (Instr.reg op (.virtual n) x y).Tidy regs slots :=
  tidy_of_dest rfl hn (by simp [Instr.reads, hx, hy]) (fun _ => rfl) (by simp) trivial

theorem tidy_imm {op : ImmOp} {n : Nat} {x : Reg} {v : Int32} (hn : n < regs)
    (hx : x.isLowered = true) (hv : fitsImmediate v = true) :
    (Instr.imm op (.virtual n) x v).Tidy regs slots :=
  tidy_of_dest rfl hn (by simp [Instr.reads, hx]) (fun _ => rfl) (by simp) hv

theorem tidy_load {n k : Nat} (hn : n < regs) (hk : k < slots) :
    (Instr.load .lw (.virtual n) .sp (slotOffset k)).Tidy regs slots where
  lowered := Instr.isLowered_iff.2
    ⟨by simp [Instr.reads, Reg.isLowered, Reg.isShared], Reg.isLowered_virtual n,
      Reg.virtual_ne_sp n⟩
  written := fun _ => Nat.add_lt_add_left hn _
  accesses := by
    rintro get sp hsp x ⟨b, hb, hx⟩
    rw [hsp] at hb
    obtain rfl := Option.some.inj hb
    exact ⟨k, hk, hx⟩
  named := by simp
  placed := ⟨rfl, k, hk, rfl⟩

theorem tidy_store {q : Reg} {k : Nat} (hq : q.isLowered = true) (hk : k < slots) :
    (Instr.store .sw q .sp (slotOffset k)).Tidy regs slots where
  lowered := Instr.isLowered_iff.2
    ⟨by simp [Instr.reads, hq]; simp [Reg.isLowered, Reg.isShared],
      rfl, by simp [Instr.dest, Reg.zero, Reg.sp]⟩
  written := fun h => by cases h
  accesses := by
    rintro get sp hsp x ⟨b, hb, hx⟩
    rw [hsp] at hb
    obtain rfl := Option.some.inj hb
    exact ⟨k, hk, hx⟩
  named := by simp
  placed := ⟨rfl, k, hk, rfl⟩

theorem isLowered_arg {i : Nat} (hi : i < Reg.argCount) : (Reg.arg i).isLowered = true := by
  have key : ∀ i < Reg.argCount, (Reg.arg i).isLowered = true := by decide
  exact key i hi

theorem tidy_pass {i : Nat} {q : Reg} (hi : i < Reg.argCount) (hq : q.isLowered = true) :
    (Instr.mv (.arg i) q).Tidy regs slots := by
  have key : ∀ i < Reg.argCount, (Reg.arg i).isVirtual = false ∧ Reg.arg i ≠ .sp := by decide
  refine tidy_of_regs (by simp [Instr.reads, hq]) (isLowered_arg hi) (key i hi).2 (fun h => ?_)
    (fun _ => rfl) (by simp) trivial
  have h : (Reg.arg i).isVirtual = true := h
  rw [(key i hi).1] at h
  cases h

theorem tidy_call (l : String) : (Instr.jal .ra l).Tidy regs slots :=
  tidy_of_regs (by simp [Instr.reads]) rfl (show Reg.ra ≠ .sp by decide) (fun h => by cases h)
    (fun _ => rfl) (by simp) trivial

theorem tidy_jump (l : String) : (Instr.jal .zero l).Tidy regs slots :=
  tidy_of_regs (by simp [Instr.reads]) rfl (show Reg.zero ≠ .sp by decide) (fun h => by cases h)
    (fun _ => rfl) (by simp) trivial

theorem tidy_branch {x y : Reg} (l : String) (hx : x.isLowered = true) (hy : y.isLowered = true) :
    (Instr.branch .bne x y l).Tidy regs slots :=
  tidy_of_regs (by simp [Instr.reads, hx, hy]) rfl (by simp [Instr.dest, Reg.zero, Reg.sp])
    (fun h => by cases h) (fun _ => rfl) (by simp) trivial

theorem tidy_label {stem : String} (h : stem ∈ stems) (n : Nat) :
    (Instr.label (labelName stem n)).Tidy regs slots where
  lowered := rfl
  written := fun h => by cases h
  accesses := fun _ _ _ _ hx => absurd hx (Set.notMem_empty _)
  named := by
    intro l hl
    obtain rfl := Instr.label.inj hl
    exact ⟨stem, h, n, rfl⟩
  placed := trivial

end

/-! ### Pieces -/

/-- A supply with at least as many numbers handed out. -/
structure Later (s s' : Supply) : Prop where
  labels : s.labels ≤ s'.labels
  regs : s.regs ≤ s'.regs
  slots : s.slots ≤ s'.slots

theorem Later.refl (s : Supply) : Later s s := ⟨Nat.le_refl _, Nat.le_refl _, Nat.le_refl _⟩

theorem Later.trans {s s' s'' : Supply} (h : Later s s') (h' : Later s' s'') : Later s s'' :=
  ⟨h.labels.trans h'.labels, h.regs.trans h'.regs, h.slots.trans h'.slots⟩

/-- What is later than one supply is later than any with fewer numbers handed out. -/
theorem Later.since {s s' t : Supply} (h : Later s s') (hl : t.labels ≤ s.labels)
    (hr : t.regs ≤ s.regs) (hs : t.slots ≤ s.slots) : Later t s' :=
  ⟨hl.trans h.labels, hr.trans h.regs, hs.trans h.slots⟩

/-- Tidy code whose labels are distinct and were handed out between two supplies, and whose jumps
lead to later labels of the code or to given ones. -/
structure Piece (E : String → Prop) (s s' : Supply) (code : Listing) : Prop where
  tidy : ∀ i ∈ code, i.Tidy s'.regs s'.slots
  labels : ∀ n, (numbersOf code).count n ≤ 1 ∧
    (0 < (numbersOf code).count n → s.labels < n ∧ n ≤ s'.labels)
  jumps : Jumps E code

variable {E F : String → Prop} {a b code : Listing} {s s' s'' : Supply}

/-- Code without labels and jumps. -/
theorem piece_of_straight (htidy : ∀ i ∈ code, i.Tidy s'.regs s'.slots)
    (hlabel : numbersOf code = []) (hjump : ∀ i ∈ code, i.jumpsTo? = none) : Piece E s s' code where
  tidy := htidy
  labels := by simp [hlabel]
  jumps := jumps_of_none hjump

theorem piece_nil : Piece E s s' [] := piece_of_straight (by simp) rfl (by simp)

theorem piece_single {i : Instr} (htidy : i.Tidy s'.regs s'.slots) (hlabel : numbersOf [i] = [])
    (hjump : i.jumpsTo? = none) : Piece E s s' [i] := by
  refine piece_of_straight ?_ hlabel ?_
  · intro j hj
    obtain rfl := List.mem_singleton.1 hj
    exact htidy
  · intro j hj
    obtain rfl := List.mem_singleton.1 hj
    exact hjump

/-- Code that was made later adds its labels. -/
theorem Piece.append (h : Later s s') (h' : Later s' s'') (ha : Piece E s s' a)
    (hb : Piece F s' s'' b) (hE : ∀ l, E l → .label l ∈ b ∨ F l) : Piece F s s'' (a ++ b) where
  tidy := by
    intro i hi
    rcases List.mem_append.1 hi with hi | hi
    · exact (ha.tidy i hi).mono h'.regs h'.slots
    · exact hb.tidy i hi
  labels := by
    intro n
    have := ha.labels n
    have := hb.labels n
    have := h.labels
    have := h'.labels
    rw [numbersOf_append, List.count_append]
    omega
  jumps := jumps_append.2 ⟨ha.jumps.mono hE, hb.jumps⟩

/-- A register that was handed out between two supplies. -/
def FreshReg (s s' : Supply) (r : Reg) : Prop := ∃ n, s.regs ≤ n ∧ n < s'.regs ∧ r = .virtual n

theorem FreshReg.isLowered {r : Reg} (h : FreshReg s s' r) : r.isLowered = true := by
  obtain ⟨n, -, -, rfl⟩ := h
  exact Reg.isLowered_virtual n

theorem FreshReg.mono {t t' : Supply} {r : Reg} (h : FreshReg s s' r) (hs : t.regs ≤ s.regs)
    (hs' : s'.regs ≤ t'.regs) : FreshReg t t' r := by
  obtain ⟨n, h1, h2, rfl⟩ := h
  exact ⟨n, by omega, by omega, rfl⟩

/-- The shape of the code of an expression. -/
structure ExprShape (s : Supply) (code : Listing) (r : Reg) (s' : Supply) : Prop where
  later : Later s s'
  fresh : FreshReg s s' r
  piece : Piece (fun _ => False) s s' code

/-! ### Variables in scope -/

theorem lookup_cons_name {β : Type} (es : List (String × β)) (k q : String) (b : β) :
    ((k, b) :: es).lookup q = if q = k then some b else es.lookup q := by
  rw [List.lookup_cons]
  by_cases hq : q = k
  · simp [hq]
  · rw [if_neg hq, beq_false_of_ne hq]

/-- The variables in scope lie in words that were handed out, different ones in different words. -/
def Known (slots : Slots) (n : Nat) : Prop :=
  ∃ number : String → Option Nat, (∀ x, slots.lookup x = (number x).map slotOffset) ∧
    (∀ x k, number x = some k → k < n) ∧ ∀ x y k, number x = some k → number y = some k → x = y

theorem Known.mono {slots : Slots} {n m : Nat} (h : Known slots n) (hle : n ≤ m) :
    Known slots m := by
  obtain ⟨number, hlookup, hlt, hinj⟩ := h
  exact ⟨number, hlookup, fun x k hk => (hlt x k hk).trans_le hle, hinj⟩

theorem known_nil : Known [] 0 := ⟨fun _ => none, by simp, by simp, by simp⟩

theorem Known.offset {slots : Slots} {n : Nat} (h : Known slots n) {name : String} {o : Int32}
    (ho : slots.lookup name = some o) : ∃ k < n, o = slotOffset k := by
  obtain ⟨number, hlookup, hlt, -⟩ := h
  rw [hlookup] at ho
  obtain ⟨k, hk, rfl⟩ := Option.map_eq_some_iff.1 ho
  exact ⟨k, hlt name k hk, rfl⟩

theorem Known.cons {slots : Slots} {n : Nat} (h : Known slots n) (name : String) :
    Known ((name, slotOffset n) :: slots) (n + 1) := by
  obtain ⟨number, hlookup, hlt, hinj⟩ := h
  refine ⟨fun x => if x = name then some n else number x, ?_, ?_, ?_⟩
  · intro x
    rw [lookup_cons_name]
    dsimp only
    split
    · rfl
    · exact hlookup x
  · intro x k hk
    dsimp only at hk
    split at hk
    · obtain rfl := Option.some.inj hk
      exact Nat.lt_succ_self n
    · have := hlt x k hk
      omega
  · intro x y k hx hy
    dsimp only at hx hy
    split at hx <;> split at hy
    · next hx' hy' => rw [hx', hy']
    · have := hlt y k hy
      obtain rfl := Option.some.inj hx
      omega
    · have := hlt x k hx
      obtain rfl := Option.some.inj hy
      omega
    · exact hinj x y k hx hy

/-! ### Expressions -/

variable {c : LowerContext} {slots : Slots} {depth : Nat} {r : Reg}

theorem shape_literal {n : Int32} :
    ExprShape s [.li (.virtual s.regs) n] (.virtual s.regs) { s with regs := s.regs + 1 } where
  later := ⟨Nat.le_refl _, Nat.le_succ _, Nat.le_refl _⟩
  fresh := ⟨s.regs, Nat.le_refl _, Nat.lt_succ_self _, rfl⟩
  piece := piece_single (tidy_li n (Nat.lt_succ_self _)) rfl rfl

theorem shape_var {loc : Location} {name : String} (hknown : Known slots s.slots)
    (h : Gives (lowerExpr c slots depth (.var loc name)) s (code, r) s') :
    ExprShape s code r s' := by
  obtain ⟨rfl, rfl, hcode⟩ := gives_var h
  refine ⟨⟨Nat.le_refl _, Nat.le_succ _, Nat.le_refl _⟩, ⟨s.regs, Nat.le_refl _, Nat.lt_succ_self _,
    rfl⟩, ?_⟩
  rcases hcode with ⟨o, ho, rfl⟩ | ⟨-, l, -, rfl⟩
  · obtain ⟨k, hk, rfl⟩ := hknown.offset ho
    exact piece_single (tidy_load (Nat.lt_succ_self _) hk) rfl rfl
  · exact piece_single (tidy_la l (Nat.lt_succ_self _)) rfl rfl

/-- The code of an operator is straight. -/
theorem shape_operator {op : Operator} {x y : Reg} (hx : x.isLowered = true)
    (hy : y.isLowered = true) (h : Gives (operator op x y) s (code, r) s') :
    ExprShape s code r s' := by
  obtain ⟨rfl, hcode⟩ := gives_operator h
  have hzero : Reg.zero.isLowered = true := rfl
  rcases hcode with ⟨hop, rfl, rfl⟩ | ⟨hop, rfl, rfl⟩
  · refine ⟨⟨Nat.le_refl _, Nat.le_add_right _ _, Nat.le_refl _⟩,
      ⟨s.regs, Nat.le_refl _, Nat.lt_add_of_pos_right (by decide), rfl⟩, ?_⟩
    have ht := Reg.isLowered_virtual (s.regs + 1)
    have h1 : s.regs < s.regs + 2 := by omega
    have h2 : s.regs + 1 < s.regs + 2 := by omega
    cases op <;> first | (cases hop; done) | skip
    all_goals
      refine piece_of_straight ?_ rfl (by simp [operatorCode, Instr.jumpsTo?])
      intro i hi
      simp only [operatorCode, List.mem_cons, List.not_mem_nil, or_false] at hi
      rcases hi with rfl | rfl
    · exact tidy_reg h2 hx hy
    · exact tidy_imm h1 ht (by decide)
    · exact tidy_reg h2 hx hy
    · exact tidy_reg h1 hzero ht
    · exact tidy_reg h2 hy hx
    · exact tidy_imm h1 ht (by decide)
    · exact tidy_reg h2 hx hy
    · exact tidy_imm h1 ht (by decide)
  · refine ⟨⟨Nat.le_refl _, Nat.le_add_right _ _, Nat.le_refl _⟩, ⟨s.regs, Nat.le_refl _,
      Nat.lt_succ_self _, rfl⟩, ?_⟩
    have h1 : s.regs < s.regs + 1 := Nat.lt_succ_self _
    cases op <;> first | (cases hop; done) | exact piece_nil |
      exact piece_single (tidy_reg h1 hx hy) rfl rfl |
      exact piece_single (tidy_reg h1 hy hx) rfl rfl

/-- The statement of `shape_expr` for one expression. -/
def HasShape (x : Expr) : Prop :=
  ∀ (c : LowerContext) (slots : Slots) (depth : Nat) (s : Supply) (code : Listing) (r : Reg)
    (s' : Supply),
    Known slots s.slots → Gives (lowerExpr c slots depth x) s (code, r) s' → ExprShape s code r s'

theorem shape_binOp {loc : Location} {op : Operator} {x y : Expr} (ihx : HasShape x)
    (ihy : HasShape y) (hknown : Known slots s.slots)
    (h : Gives (lowerExpr c slots depth (.binOp loc op x y)) s (code, r) s') :
    ExprShape s code r s' := by
  obtain ⟨-, xc, xr, s₁, yc, yr, s₂, oc, hx, hy, ho, rfl⟩ := gives_binOp h
  have sx := ihx c slots _ s xc xr s₁ hknown hx
  have sy := ihy c slots _ s₁ yc yr s₂ (hknown.mono sx.later.slots) hy
  have so := shape_operator sx.fresh.isLowered sy.fresh.isLowered ho
  have hlater := sx.later.trans sy.later
  refine ⟨hlater.trans so.later, so.fresh.mono hlater.regs (Nat.le_refl _), ?_⟩
  have hxy := Piece.append sx.later sy.later sx.piece sy.piece fun _ h => h.elim
  exact Piece.append hlater so.later hxy so.piece fun _ h => h.elim

theorem shape_args {xs : List Expr} (ih : ∀ x ∈ xs, HasShape x) {rs : List Reg}
    (hknown : Known slots s.slots) (h : Gives (lowerArgs c slots depth xs) s (code, rs) s') :
    Later s s' ∧ rs.length = xs.length ∧ (∀ r ∈ rs, FreshReg s s' r) ∧
      Piece (fun _ => False) s s' code := by
  induction xs generalizing s code rs with
  | nil =>
    obtain ⟨rfl, rfl, rfl⟩ := gives_args_nil h
    exact ⟨.refl _, rfl, by simp, piece_nil⟩
  | cons x xs ihxs =>
    obtain ⟨xc, xr, s₁, rest, rs', hx, hrest, rfl, rfl⟩ := gives_args_cons h
    have shape := ih x List.mem_cons_self c slots depth s xc xr s₁ hknown hx
    obtain ⟨hlater, hlen, hfresh, hpiece⟩ :=
      ihxs (fun y hy => ih y (List.mem_cons_of_mem x hy)) (hknown.mono shape.later.slots) hrest
    refine ⟨shape.later.trans hlater, by rw [List.length_cons, List.length_cons, hlen], ?_, ?_⟩
    · intro q hq
      rcases List.mem_cons.1 hq with rfl | hq
      · exact shape.fresh.mono (Nat.le_refl _) hlater.regs
      · exact (hfresh q hq).mono shape.later.regs (Nat.le_refl _)
    · exact Piece.append shape.later hlater shape.piece hpiece fun _ h => h.elim

theorem mem_passArgs {rs : List Reg} {i : Nat} {instr : Instr} (h : instr ∈ passArgs i rs) :
    ∃ k r, k < rs.length ∧ r ∈ rs ∧ instr = .mv (.arg (i + k)) r := by
  induction rs generalizing i with
  | nil => cases h
  | cons r rs ih =>
    rcases List.mem_cons.1 h with rfl | h
    · exact ⟨0, r, Nat.zero_lt_succ _, List.mem_cons_self, rfl⟩
    · obtain ⟨k, q, hk, hq, rfl⟩ := ih h
      exact ⟨k + 1, q, Nat.succ_lt_succ hk,
        List.mem_cons_of_mem r hq, by rw [Nat.add_assoc, Nat.add_comm 1 k]⟩

theorem numbersOf_passArgs (i : Nat) (rs : List Reg) : numbersOf (passArgs i rs) = [] := by
  induction rs generalizing i with
  | nil => rfl
  | cons r rs ih => exact ih (i + 1)

theorem shape_call {loc : Location} {f : Expr} {args : List Expr} {named : List NamedArg}
    (ih : ∀ x ∈ args, HasShape x) (hknown : Known slots s.slots)
    (h : Gives (lowerExpr c slots depth (.call loc f args named)) s (code, r) s') :
    ExprShape s code r s' := by
  obtain ⟨-, hcount, vloc, name, l, ac, rs, s₁, rfl, -, -, ha, rfl, rfl, rfl⟩ := gives_call h
  obtain ⟨hlater, hlen, hfresh, hpiece⟩ := shape_args ih hknown ha
  have hlater₁ : Later s₁ { s₁ with regs := s₁.regs + 1 } :=
    ⟨Nat.le_refl _, Nat.le_succ _, Nat.le_refl _⟩
  refine ⟨hlater.trans hlater₁, ⟨s₁.regs, hlater.regs, Nat.lt_succ_self _, rfl⟩, ?_⟩
  rw [List.append_assoc]
  refine Piece.append hlater hlater₁ hpiece (piece_of_straight ?_ ?_ ?_) fun _ h => h.elim
  · intro i hi
    rcases List.mem_append.1 hi with hi | hi
    · obtain ⟨k, q, hk, hq, rfl⟩ := mem_passArgs hi
      exact tidy_pass (by omega) (hfresh q hq).isLowered
    · simp only [List.mem_cons, List.not_mem_nil, or_false] at hi
      rcases hi with rfl | rfl
      · exact tidy_call l
      · exact tidy_mv (Nat.lt_succ_self _) rfl
  · rw [numbersOf_append, numbersOf_passArgs]
    rfl
  · intro i hi
    rcases List.mem_append.1 hi with hi | hi
    · obtain ⟨k, q, -, -, rfl⟩ := mem_passArgs hi
      rfl
    · simp only [List.mem_cons, List.not_mem_nil, or_false] at hi
      rcases hi with rfl | rfl <;> rfl

theorem numbersOf_choice (x : Reg) (s : Supply) (t e : Listing) : numbersOf (choice x s t e) =
    [s.labels + 1] ++ numbersOf t ++ [s.labels + 2] ++ numbersOf e ++ [s.labels + 3] := by
  simp [choice, choose, numbersOf_append, numbersOf, thenLabel, elseLabel, endLabel]

/-- A choice between pieces. -/
theorem piece_choice {t e : Listing} {x : Reg} (hx : x.isLowered = true)
    (h : Later (afterChoice s) s') (h' : Later s' s'') (ht : Piece E (afterChoice s) s' t)
    (he : Piece E s' s'' e) : Piece E s s'' (choice x s t e) where
  tidy := by
    intro i hi
    simp only [choice, choose, List.mem_append, List.mem_cons, List.not_mem_nil, or_false,
      or_assoc] at hi
    rcases hi with rfl | rfl | rfl | hi | rfl | rfl | hi | rfl
    · exact tidy_branch _ hx rfl
    · exact tidy_jump _
    · exact tidy_label (by decide) _
    · exact (ht.tidy i hi).mono h'.regs h'.slots
    · exact tidy_jump _
    · exact tidy_label (by decide) _
    · exact he.tidy i hi
    · exact tidy_label (by decide) _
  labels := by
    intro n
    have hl : s.labels + 3 ≤ s'.labels := h.labels
    have hl' := h'.labels
    have hn : _ ∧ (_ → s.labels + 3 < n ∧ n ≤ s'.labels) := ht.labels n
    have hn' := he.labels n
    rw [numbersOf_choice]
    simp only [List.count_append, List.count_singleton, beq_iff_eq]
    split <;> split <;> split <;> omega
  jumps := by
    unfold choice choose
    simp only [jumps_append, Jumps, Instr.jumpsTo?, and_true]
    refine ⟨⟨⟨⟨?_, ht.jumps.mono fun _ h => .inr (.inr (.inr h))⟩, ?_⟩,
      he.jumps.mono fun _ h => .inr h⟩, ?_⟩
    all_goals simp +contextual

theorem shape_ifElse {loc : Location} {x t e : Expr} (ihx : HasShape x) (iht : HasShape t)
    (ihe : HasShape e) (hknown : Known slots s.slots)
    (h : Gives (lowerExpr c slots depth (.ifElse loc x t e)) s (code, r) s') :
    ExprShape s code r s' := by
  obtain ⟨xc, xr, s₁, tc, tr, s₂, ec, er, hx, ht, he, rfl, rfl⟩ := gives_ifElse h
  have sx := ihx c slots _ s xc xr s₁ hknown hx
  have hknown₁ := hknown.mono sx.later.slots
  have st := iht c slots _ (afterChoice { s₁ with regs := s₁.regs + 1 }) tc tr s₂ hknown₁ ht
  have hlater₁ : Later (afterChoice s₁) s₂ :=
    st.later.since (Nat.le_refl _) (Nat.le_succ _) (Nat.le_refl _)
  have hlater₂ : Later s₁ s₂ := hlater₁.since (Nat.le_add_right _ 3) (Nat.le_refl _) (Nat.le_refl _)
  have se := ihe c slots _ s₂ ec er s' (hknown₁.mono hlater₂.slots) he
  have hd₁ : s₁.regs < s₂.regs := st.later.regs
  have hd : s₁.regs < s'.regs := hd₁.trans_le se.later.regs
  have ht' := Piece.append st.later (.refl _) st.piece
    (piece_single (tidy_mv hd₁ st.fresh.isLowered) rfl rfl) (F := fun _ => False) fun _ h => h.elim
  have he' := Piece.append se.later (.refl _) se.piece
    (piece_single (tidy_mv hd se.fresh.isLowered) rfl rfl) (F := fun _ => False) fun _ h => h.elim
  refine ⟨sx.later.trans (hlater₂.trans se.later), ⟨s₁.regs, sx.later.regs, hd, rfl⟩, ?_⟩
  exact Piece.append sx.later (hlater₂.trans se.later) sx.piece
    (piece_choice sx.fresh.isLowered hlater₁ se.later ⟨ht'.tidy, ht'.labels, ht'.jumps⟩ he')
    fun _ h => h.elim

theorem shape_pattern {x : Reg} {next : String} {pattern : Pattern} {inner : Slots}
    (ih : ∀ v ∈ pattern.parts, HasShape v) (hx : x.isLowered = true) (hknown : Known slots s.slots)
    (h : Gives (lowerPattern c slots depth x next pattern) s (code, inner) s') :
    Later s s' ∧ Known inner s'.slots ∧ Piece (· = next) s s' code := by
  rcases gives_pattern h with ⟨loc, v, vc, vr, rfl, hv, rfl, rfl⟩ | ⟨loc, name, rfl, rfl, rfl,
    rfl⟩ | ⟨loc, rfl, rfl, rfl, rfl⟩
  · have sv := ih v (by simp [Pattern.parts]) c _ _ s vc vr s' hknown hv
    refine ⟨sv.later, hknown.mono sv.later.slots, ?_⟩
    refine Piece.append sv.later (.refl _) sv.piece ⟨?_, by simp [numbersOf], ?_⟩ fun _ h => h.elim
    · intro i hi
      obtain rfl := List.mem_singleton.1 hi
      exact tidy_branch next hx sv.fresh.isLowered
    · simp [Jumps, Instr.jumpsTo?]
  · refine ⟨⟨Nat.le_refl _, Nat.le_refl _, Nat.le_succ _⟩, hknown.cons name, ?_⟩
    exact piece_single (tidy_store hx (Nat.lt_succ_self _)) rfl rfl
  · exact ⟨.refl _, hknown, piece_nil⟩

/-- The arms of a match jump to its end. -/
theorem shape_cases {x : Reg} {n : Nat} {last : String} {cases : List Case}
    (ih : ∀ k ∈ cases, ∀ v ∈ k.parts, HasShape v) (hx : x.isLowered = true) (hn : n < s.regs)
    (hknown : Known slots s.slots)
    (h : Gives (lowerCases c slots depth x (.virtual n) last cases) s code s') :
    Later s s' ∧ Piece (· = last) s s' code := by
  induction cases generalizing s code with
  | nil =>
    obtain ⟨rfl, rfl⟩ := gives_cases_nil h
    exact ⟨.refl _, piece_nil⟩
  | cons k rest ihrest =>
    obtain ⟨loc, pattern, body⟩ := k
    obtain ⟨test, inner, s₁, bc, br, s₂, others, hp, hb, ho, rfl⟩ := gives_cases_cons h
    have hparts := ih (.mk loc pattern body) List.mem_cons_self
    obtain ⟨hlater₁, hinner, htest⟩ := shape_pattern (s := { s with labels := s.labels + 1 })
      (fun v hv => hparts v (List.mem_append_left _ hv)) hx hknown hp
    have sb := hparts body (List.mem_append_right _ List.mem_cons_self) c inner depth s₁ bc
      br s₂ hinner hb
    have hlater₂ : Later s s₂ :=
      (hlater₁.trans sb.later).since (Nat.le_succ _) (Nat.le_refl _) (Nat.le_refl _)
    obtain ⟨hlater₃, hothers⟩ :=
      ihrest (fun k hk => ih k (List.mem_cons_of_mem _ hk)) (hn.trans_le hlater₂.regs)
        (hknown.mono hlater₂.slots) ho
    refine ⟨hlater₂.trans hlater₃, ?_, ?_, ?_⟩
    · intro i hi
      simp only [List.mem_append, List.mem_cons, List.not_mem_nil, or_false, or_assoc] at hi
      rcases hi with hi | hi | rfl | rfl | rfl | hi
      · exact (htest.tidy i hi).mono (sb.later.trans hlater₃).regs (sb.later.trans hlater₃).slots
      · exact (sb.piece.tidy i hi).mono hlater₃.regs hlater₃.slots
      · exact tidy_mv (hn.trans_le (hlater₂.trans hlater₃).regs) sb.fresh.isLowered
      · exact tidy_jump _
      · exact tidy_label (by decide) _
      · exact hothers.tidy i hi
    · intro m
      have h1 : s.labels + 1 ≤ s₁.labels := hlater₁.labels
      have h2 := sb.later.labels
      have h3 := hlater₃.labels
      have l1 : _ ∧ (_ → s.labels + 1 < m ∧ m ≤ s₁.labels) := htest.labels m
      have l2 := sb.piece.labels m
      have l3 := hothers.labels m
      simp only [numbersOf_append, numbersOf, caseLabel, labelNumber_labelName, List.count_append,
        List.count_singleton, beq_iff_eq]
      split <;> omega
    · simp only [jumps_append, Jumps, Instr.jumpsTo?, and_true]
      refine ⟨⟨⟨htest.jumps.mono ?_, sb.piece.jumps.mono fun _ h => h.elim⟩, ?_⟩, hothers.jumps⟩
      · rintro l rfl
        exact .inr (.inl (by simp))
      · simp

theorem shape_matchOn {loc : Location} {x : Expr} {cases : List Case} (ihx : HasShape x)
    (ih : ∀ k ∈ cases, ∀ v ∈ k.parts, HasShape v) (hknown : Known slots s.slots)
    (h : Gives (lowerExpr c slots depth (.matchOn loc x cases)) s (code, r) s') :
    ExprShape s code r s' := by
  obtain ⟨xc, xr, s₁, body, hx, hb, rfl, rfl⟩ := gives_matchOn h
  have sx := ihx c slots _ s xc xr s₁ hknown hx
  obtain ⟨hlater, hbody⟩ :=
    shape_cases (s := { s₁ with regs := s₁.regs + 1, labels := s₁.labels + 1 }) ih
      sx.fresh.isLowered (Nat.lt_succ_self s₁.regs) (hknown.mono sx.later.slots) hb
  have hlater₁ : Later s₁ s' := hlater.since (Nat.le_succ _) (Nat.le_succ _) (Nat.le_refl _)
  have hd : s₁.regs < s'.regs := hlater.regs
  refine ⟨sx.later.trans hlater₁, ⟨s₁.regs, sx.later.regs, hd, rfl⟩, ?_⟩
  rw [List.append_assoc]
  refine Piece.append sx.later hlater₁ sx.piece ⟨?_, ?_, ?_⟩ fun _ h => h.elim
  · intro i hi
    simp only [List.mem_append, List.mem_cons, List.not_mem_nil, or_false] at hi
    rcases hi with hi | rfl | rfl
    · exact hbody.tidy i hi
    · exact tidy_li _ hd
    · exact tidy_label (by decide) _
  · intro m
    have h1 : s₁.labels + 1 ≤ s'.labels := hlater.labels
    have l1 : _ ∧ (_ → s₁.labels + 1 < m ∧ m ≤ s'.labels) := hbody.labels m
    simp only [numbersOf_append, numbersOf, matchLabel, labelNumber_labelName, List.count_append,
      List.count_singleton, beq_iff_eq]
    split <;> omega
  · simp only [jumps_append, Jumps, Instr.jumpsTo?, and_true]
    refine ⟨hbody.jumps.mono ?_, by simp⟩
    rintro l rfl
    exact .inl (by simp)

/-- The code of an expression leaves its value in a register of its own and jumps only
within itself. -/
theorem shape_expr (x : Expr) : HasShape x := by
  induction x using Expr.induction with
  | step x ih =>
    intro c slots depth s code r s' hknown h
    rcases shape_of_gives h with
      hlit | ⟨loc, name, rfl⟩ | ⟨loc, op, l, y, rfl⟩ | ⟨loc, f, args, named, rfl⟩ | ⟨loc, y, t, e,
        rfl⟩ | ⟨loc, y, cases, rfl⟩
    · obtain ⟨n, hn⟩ := Option.isSome_iff_exists.1 hlit
      obtain ⟨rfl, rfl, rfl⟩ := gives_literal hn h
      exact shape_literal
    · exact shape_var hknown h
    · exact shape_binOp (ih l (by simp [Expr.parts])) (ih y (by simp [Expr.parts])) hknown h
    · exact shape_call ih hknown h
    · exact shape_ifElse (ih y (by simp [Expr.parts])) (ih t (by simp [Expr.parts]))
        (ih e (by simp [Expr.parts])) hknown h
    · refine shape_matchOn (ih y (by simp [Expr.parts])) (fun k hk v hv => ih v ?_) hknown h
      exact List.mem_cons_of_mem y (List.mem_flatMap.2 ⟨k, hk, hv⟩)

/-! ### Statements -/

/-- The shape of the code of statements: the variables that were in scope stay where they are. -/
structure StmtShape (exit : String) (slots : Slots) (s : Supply) (code : Listing) (slots' : Slots)
    (s' : Supply) : Prop where
  later : Later s s'
  known : Known slots' s'.slots
  kept : ∀ x o, slots.lookup x = some o → slots'.lookup x = some o
  piece : Piece (· = exit) s s' code

variable {exit : String} {slots' slots'' : Slots} {last : Bool}

theorem StmtShape.append (h : StmtShape exit slots s a slots' s')
    (h' : StmtShape exit slots' s' b slots'' s'') :
    StmtShape exit slots s (a ++ b) slots'' s'' where
  later := h.later.trans h'.later
  known := h'.known
  kept := fun x o ho => h'.kept x o (h.kept x o ho)
  piece := Piece.append h.later h'.later h.piece h'.piece fun _ h => .inr h

theorem shape_nil (hknown : Known slots s.slots) : StmtShape exit slots s [] slots s :=
  ⟨.refl s, hknown, fun _ _ h => h, piece_nil⟩

/-- An expression whose value is not needed. -/
theorem ExprShape.toStmt (h : ExprShape s code r s') (hknown : Known slots s.slots) :
    StmtShape exit slots s code slots s' where
  later := h.later
  known := hknown.mono h.later.slots
  kept := fun _ _ h => h
  piece := ⟨h.piece.tidy, h.piece.labels, h.piece.jumps.mono fun _ h => h.elim⟩

theorem shape_slotOf {name : String} {o : Int32} (hknown : Known slots s.slots)
    (h : Gives (slotOf slots name) s (o, slots') s') :
    Later s s' ∧ Known slots' s'.slots ∧ slots'.lookup name = some o ∧
      ∀ x o, slots.lookup x = some o → slots'.lookup x = some o := by
  rcases gives_slotOf h with ⟨ho, rfl, rfl⟩ | ⟨hnone, rfl, rfl, rfl⟩
  · exact ⟨.refl _, hknown, ho, fun _ _ h => h⟩
  · refine ⟨⟨Nat.le_refl _, Nat.le_refl _, Nat.le_succ _⟩, hknown.cons name, by simp, ?_⟩
    intro x o ho
    rw [lookup_cons_name, if_neg, ho]
    rintro rfl
    rw [hnone] at ho
    cases ho

theorem shape_store {name : String} {x : Expr} (hknown : Known slots s.slots)
    (h : Gives (lowerStore c slots depth name x) s (code, slots') s') :
    StmtShape exit slots s code slots' s' := by
  obtain ⟨xc, xr, s₁, o, hx, ho, rfl⟩ := gives_store h
  have sx := shape_expr x c slots depth s xc xr s₁ hknown hx
  obtain ⟨hlater, hknown', hlookup, hkept⟩ := shape_slotOf (hknown.mono sx.later.slots) ho
  obtain ⟨k, hk, rfl⟩ := hknown'.offset hlookup
  refine ⟨sx.later.trans hlater, hknown', hkept, ?_⟩
  exact Piece.append sx.later hlater sx.piece (piece_single (tidy_store sx.fresh.isLowered hk) rfl
    rfl) fun _ h => h.elim

theorem piece_leaving (c : LowerContext) (last : Bool) (q : Reg) (hq : q.isLowered = true) :
    Piece (· = c.exit) s s' ([Instr.mv .a0 q] ++ leaving c last) where
  tidy := by
    intro i hi
    rcases List.mem_append.1 hi with hi | hi
    · obtain rfl := List.mem_singleton.1 hi
      exact tidy_pass (i := 0) (by decide) hq
    · unfold leaving at hi
      split at hi
      · cases hi
      · obtain rfl := List.mem_singleton.1 hi
        exact tidy_jump _
  labels := by cases last <;> simp [leaving, numbersOf]
  jumps := by cases last <;> simp [leaving, Jumps, Instr.jumpsTo?]

theorem shape_return {x : Option Expr} (hknown : Known slots s.slots)
    (h : Gives (lowerReturn c slots depth last x) s code s') :
    StmtShape c.exit slots s code slots s' := by
  rcases gives_return h with ⟨rfl, rfl, rfl⟩ | ⟨y, xc, xr, rfl, hx, rfl⟩
  · exact ⟨.refl _, hknown, fun _ _ h => h, piece_leaving c last .zero rfl⟩
  · have sx := shape_expr y c slots depth s xc xr s' hknown hx
    refine ⟨sx.later, hknown.mono sx.later.slots, fun _ _ h => h, ?_⟩
    rw [List.append_assoc]
    exact Piece.append sx.later (.refl _) sx.piece (piece_leaving c last xr sx.fresh.isLowered)
      fun _ h => h.elim

/-- The statement of `shape_stmt` for one statement. -/
def StmtHasShape (t : Stmt) : Prop :=
  ∀ (c : LowerContext) (slots : Slots) (depth : Nat) (last : Bool) (s : Supply) (code : Listing)
    (slots' : Slots) (s' : Supply),
    c.comments = false → Known slots s.slots →
      Gives (lowerStmt c slots depth last t) s (code, slots') s' →
      StmtShape c.exit slots s code slots' s'

theorem shape_stmts_of {top : Bool} {ts : List Stmt} (ih : ∀ t ∈ ts, StmtHasShape t)
    (hc : c.comments = false) (hknown : Known slots s.slots)
    (h : Gives (lowerStmts c slots depth top ts) s (code, slots') s') :
    StmtShape c.exit slots s code slots' s' := by
  induction ts generalizing s slots code with
  | nil =>
    obtain ⟨rfl, rfl, rfl⟩ := gives_stmts_nil h
    exact shape_nil hknown
  | cons t ts ihts =>
    obtain ⟨tc, inner, s₁, rest, ht, hrest, rfl⟩ := gives_stmts_cons h
    have st := ih t List.mem_cons_self c slots depth _ s tc inner s₁ hc hknown ht
    exact st.append (ihts (fun u hu => ih u (List.mem_cons_of_mem t hu)) st.known hrest)

/-- A choice after the code of what it depends on. -/
theorem StmtShape.choice {t e : Listing} {s₁ s₂ : Supply} (hx : ExprShape s a r s₁)
    (ht : StmtShape exit slots (afterChoice s₁) t slots' s₂)
    (he : StmtShape exit slots' s₂ e slots'' s') :
    StmtShape exit slots s (a ++ Lowering.choice r s₁ t e) slots'' s' := by
  have hlater : Later s₁ s' :=
    (ht.later.trans he.later).since (Nat.le_add_right _ 3) (Nat.le_refl _) (Nat.le_refl _)
  refine ⟨hx.later.trans hlater, he.known, fun x o ho => he.kept x o (ht.kept x o ho), ?_⟩
  exact Piece.append hx.later hlater hx.piece (piece_choice hx.fresh.isLowered ht.later he.later
    ht.piece he.piece) fun _ h => h.elim

theorem shape_stmt (t : Stmt) : StmtHasShape t := by
  induction t using Stmt.induction with
  | step t ih =>
    intro c slots depth last s code slots' s' hc hknown h
    cases t with
    | ret loc x =>
      obtain ⟨rfl, h⟩ := gives_ret hc h
      exact shape_return hknown h
    | assign loc name type x => exact shape_store hknown (gives_assign hc h)
    | use loc name x => exact shape_store hknown (gives_use hc h)
    | ifThen loc x tl t =>
      obtain ⟨xc, xr, s₁, tc, hx, ht, rfl⟩ := gives_ifThen hc h
      have sx := shape_expr x c slots _ s xc xr s₁ hknown hx
      have st := shape_stmts_of (s := afterChoice s₁) ih hc (hknown.mono sx.later.slots) ht
      exact StmtShape.choice sx st (shape_nil st.known)
    | ifElse loc x tl t el e =>
      obtain ⟨xc, xr, s₁, tc, inner, s₂, ec, hx, ht, he, rfl⟩ := gives_ifElseStmt hc h
      have sx := shape_expr x c slots _ s xc xr s₁ hknown hx
      have st := shape_stmts_of (s := afterChoice s₁) (fun u hu => ih u (List.mem_append_left e hu))
        hc (hknown.mono sx.later.slots) ht
      exact StmtShape.choice sx st (shape_stmts_of (fun u hu => ih u (List.mem_append_right t hu))
        hc st.known he)
    | expr loc x =>
      obtain ⟨rfl, xr, hx⟩ := gives_exprStmt hc h
      exact (shape_expr x c slots' _ s code xr s' hknown hx).toStmt hknown
    | missing => exact absurd h not_gives_missing

/-- The code of statements jumps only within itself and to the end of the function. -/
theorem shape_stmts {top : Bool} {ts : List Stmt} (hc : c.comments = false)
    (hknown : Known slots s.slots)
    (h : Gives (lowerStmts c slots depth top ts) s (code, slots') s') :
    StmtShape c.exit slots s code slots' s' :=
  shape_stmts_of (fun t _ => shape_stmt t) hc hknown h

/-! ### Functions -/

theorem shape_params {ps : List Param} {i : Nat} (hcount : i + ps.length ≤ Reg.argCount)
    (hknown : Known slots s.slots) (h : Gives (lowerParams i slots ps) s (code, slots') s') :
    Later s s' ∧ Known slots' s'.slots ∧ Piece E s s' code := by
  induction ps generalizing s slots code i with
  | nil =>
    obtain ⟨rfl, rfl, rfl⟩ := gives_params_nil h
    exact ⟨.refl _, hknown, piece_nil⟩
  | cons p ps ih =>
    obtain ⟨rest, hrest, rfl⟩ := gives_params_cons h
    rw [List.length_cons] at hcount
    obtain ⟨hlater, hknown', hpiece⟩ :=
      ih (s := { s with slots := s.slots + 1 }) (by omega) (hknown.cons p.name) hrest
    have hlater₁ : Later s { s with slots := s.slots + 1 } :=
      ⟨Nat.le_refl _, Nat.le_refl _, Nat.le_succ _⟩
    refine ⟨hlater₁.trans hlater, hknown', ?_⟩
    exact Piece.append hlater₁ hlater (a := [.store .sw (.arg i) .sp (slotOffset s.slots)])
      (piece_single (tidy_store (isLowered_arg (by omega)) (Nat.lt_succ_self _)) rfl rfl) hpiece
      fun _ h => .inr h

/-- The supply at the start of a function: the label of its end was handed out. -/
def started (labels : Nat) : Supply := { labels := labels + 1 }

/-- The code of a function jumps only within itself and to its end. -/
theorem shape_function {opts : CodegenOptions} {functions : List String} {f : NamedFunction}
    {lf : LoweredFunction} {labels : Nat} (hc : opts.comments = false)
    (h : Gives (lowerFunction opts functions f) { labels } lf s') :
    Later (started labels) s' ∧ Piece (· = lf.exit) (started labels) s' lf.code := by
  obtain ⟨hcount, hexit, pc, inner, s₁, bc, hp, hb, hcode⟩ := gives_function h
  obtain ⟨hlater, hknown, hparams⟩ :=
    shape_params (E := (· = exitLabel { labels })) (s := started labels) (by omega) known_nil hp
  obtain ⟨sc, outer, hs, rfl⟩ := gives_body hb
  have ss := shape_stmts (c := contextOf opts functions f (exitLabel { labels })) hc hknown hs
  refine ⟨hlater.trans ss.later, ?_⟩
  rw [hcode, hexit, ← List.append_assoc]
  have hfall : Piece (· = exitLabel { labels }) s' s' (falling f.func.body.stmts) := by
    unfold falling
    split
    · exact piece_nil
    · exact piece_single (tidy_pass (i := 0) (by decide) rfl) rfl rfl
  have hbody := Piece.append hlater ss.later hparams ss.piece fun _ h => .inr h
  exact Piece.append (hlater.trans ss.later) (.refl _) hbody hfall fun _ h => .inr h

end Lowering

/-! ### Places of labels -/

/-- No label stands twice in a listing. -/
def Listing.Distinct (code : Listing) : Prop :=
  ∀ (j k : Nat) (l : String), code[j]? = some (.label l) → code[k]? = some (.label l) → j = k

/-- A label that stands only once is found where it stands. -/
theorem Listing.Distinct.target {code : Listing} (h : code.Distinct) {k : Nat} {l : String}
    (hk : code[k]? = some (.label l)) : target code l = k := by
  refine h _ _ l ?_ hk
  rw [Machine.target,
    List.getElem?_eq_getElem (List.idxOf_lt_length_of_mem (List.mem_of_getElem? hk)),
    List.getElem_idxOf]

namespace Lowering

theorem distinct_of_count {code : Listing} (h : ∀ l, code.count (.label l) ≤ 1) :
    code.Distinct := by
  intro j k l hj hk
  by_contra hne
  wlog hlt : j < k generalizing j k with hother
  · exact hother k j hk hj (fun h => hne h.symm) (by omega)
  have hsplit : code = code.take k ++ code.drop k := (List.take_append_drop k code).symm
  have h₁ : Instr.label l ∈ code.take k := by
    refine List.mem_of_getElem? (i := j) ?_
    rw [List.getElem?_take_of_lt hlt, hj]
  have h₂ : Instr.label l ∈ code.drop k := by
    refine List.mem_of_getElem? (i := 0) ?_
    rw [List.getElem?_drop, Nat.add_zero, hk]
  have hn := h l
  rw [hsplit, List.count_append] at hn
  have := List.count_pos_iff.2 h₁
  have := List.count_pos_iff.2 h₂
  omega

theorem Piece.distinct {E : String → Prop} {s s' : Supply} {code : Listing}
    (h : Piece E s s' code) : code.Distinct :=
  distinct_of_count fun l => (count_label_le code l).trans (h.labels (labelNumber l)).1

/-- Jumps to later labels, and to labels that are not there, go forward. -/
theorem forward_of_jumps {E : String → Prop} {code : Listing} (hdistinct : code.Distinct)
    (hjumps : Jumps E code) (hE : ∀ l, E l → .label l ∉ code) : code.Forward := by
  intro place i l hi hl
  obtain ⟨hlt, rfl⟩ := List.getElem?_eq_some_iff.1 hi
  have hsplit := List.take_append_drop place code
  rw [← List.getElem_cons_drop hlt] at hsplit
  rw [← hsplit, jumps_append] at hjumps
  rcases hjumps.2.1 l hl with hmem | hexit
  · obtain ⟨k, hk⟩ := List.getElem?_of_mem hmem
    rw [List.getElem?_drop] at hk
    rw [hdistinct.target hk]
    omega
  · have habsent : Machine.target code l = code.length := List.idxOf_eq_length (hE l hexit)
    rw [habsent]
    exact hlt

end Lowering

end FunRiscv
