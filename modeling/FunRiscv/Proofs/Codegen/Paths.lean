import Mathlib
import FunRiscv.Proofs.Codegen.Labels

/-!
# The paths through lowered code

A register that holds the result of a choice is written on each of its arms and read after they
meet, so that it does not suffice to look at the order of the lines. A set of registers is kept
for each label: they have to be known wherever control comes to the label from, and they are all
that is known behind it.

* `Listing.Path`: the places that control passes on its way through a listing.
* `Listing.Meets`: with the sets for labels, what is read is known, and so is what the labels need.
  By `Listing.Meets.written`, what is read is then written on each path.
* `Lowering.Flows`: such sets can be found for code whose labels were handed out
  between two supplies.
* `Lowering.flows_expr`, `Lowering.flows_stmt`: they can be found for the code of
  expressions and statements.
* `lowered_allocatable`: the theorem about all that allocation relies on.
-/

namespace FunRiscv

open Machine

namespace Listing

/-! ### Paths -/

/-- Control goes from one place to another: to the next one, unless there is a jump, or to the label
of a jump or branch. -/
def Goes (code : Listing) (p q : Nat) : Prop :=
  ∃ i, code[p]? = some i ∧
    ((q = p + 1 ∧ ∀ l, i ≠ .jal .zero l) ∨ ∃ l, i.jumpsTo? = some l ∧ code[q]? = some (.label l))

/-- Control passes some places, the first line's first, and comes to another. -/
inductive Path (code : Listing) : List Nat → Nat → Prop
  | start : Path code [] 0
  | step {ps : List Nat} {p q : Nat} : Path code ps p → code.Goes p q → Path code (ps ++ [p]) q

/-- On every path, every virtual register that is read was written before. -/
def WritesFirstOnPaths (code : Listing) : Prop :=
  ∀ ps q, code.Path ps q → ∀ i, code[q]? = some i → ∀ r ∈ i.reads, r.isVirtual = true →
    ∃ p ∈ ps, ∃ j, code[p]? = some j ∧ j.dest = r

end Listing

/-! ### Registers known at labels -/

/-- The registers known after an instruction, where `held` are those known at labels. What comes
after a jump is reached by labels only. -/
def Instr.outcome (held : String → Set Reg) (known : Set Reg) : Instr → Set Reg
  | .label l => held l
  | .jal rd _ => if rd = .zero then Set.univ else insert rd known
  | i => insert i.dest known

/-- The registers that an instruction reads are known, and so are those that are needed at the label
that it is or goes to. -/
def Instr.Meets (held : String → Set Reg) (known : Set Reg) (i : Instr) : Prop :=
  (∀ r ∈ i.reads, r.isVirtual = true → r ∈ known) ∧
    ∀ l, i = .label l ∨ i.jumpsTo? = some l → held l ⊆ known

namespace Listing

/-- The registers known after code. -/
def outcome (held : String → Set Reg) (known : Set Reg) : Listing → Set Reg
  | [] => known
  | i :: code => outcome held (i.outcome held known) code

/-- The registers that code reads are known, and so are those that are needed at labels. -/
def Meets (held : String → Set Reg) (known : Set Reg) : Listing → Prop
  | [] => True
  | i :: code => i.Meets held known ∧ Meets held (i.outcome held known) code

variable {held : String → Set Reg} {known known' : Set Reg} {a b code : Listing}

theorem outcome_append : outcome held known (a ++ b) = outcome held (outcome held known a) b := by
  induction a generalizing known with
  | nil => rfl
  | cons i a ih => exact ih

theorem meets_append :
    Meets held known (a ++ b) ↔ Meets held known a ∧ Meets held (outcome held known a) b := by
  induction a generalizing known with
  | nil => simp [Meets, outcome]
  | cons i a ih => rw [List.cons_append, Meets, Meets, ih, outcome, and_assoc]

theorem outcome_instr_mono (h : known ⊆ known') (i : Instr) :
    i.outcome held known ⊆ i.outcome held known' := by
  unfold Instr.outcome
  split
  · exact Set.Subset.refl _
  · split
    · exact Set.Subset.refl _
    · exact Set.insert_subset_insert h
  · exact Set.insert_subset_insert h

theorem outcome_mono (h : known ⊆ known') : outcome held known a ⊆ outcome held known' a := by
  induction a generalizing known known' with
  | nil => exact h
  | cons i a ih => exact ih (outcome_instr_mono h i)

theorem Meets.mono (hm : Meets held known a) (h : known ⊆ known') : Meets held known' a := by
  induction a generalizing known known' with
  | nil => trivial
  | cons i a ih =>
    exact ⟨⟨fun r hr hv => h (hm.1.1 r hr hv), fun l hl => (hm.1.2 l hl).trans h⟩,
      ih hm.2 (outcome_instr_mono h i)⟩

/-- What is known when control comes to a place: at a label, what is needed there. -/
def arriving (held : String → Set Reg) (code : Listing) (q : Nat) : Set Reg :=
  match code[q]? with
  | some (.label l) => held l
  | _ => outcome held ∅ (code.take q)

theorem arriving_label {q : Nat} {l : String} (h : code[q]? = some (.label l)) :
    arriving held code q = held l := by
  rw [arriving, h]

/-- What an instruction needs is known before it. -/
theorem Meets.get (h : Meets held ∅ code) {p : Nat} {i : Instr} (hi : code[p]? = some i) :
    i.Meets held (outcome held ∅ (code.take p)) ∧
      outcome held ∅ (code.take (p + 1)) = i.outcome held (outcome held ∅ (code.take p)) := by
  obtain ⟨hp, rfl⟩ := List.getElem?_eq_some_iff.1 hi
  have hsplit : code = code.take p ++ code[p] :: code.drop (p + 1) := by
    rw [List.getElem_cons_drop, List.take_append_drop]
  constructor
  · rw [hsplit, meets_append] at h
    exact h.2.1
  · rw [List.take_succ_eq_append_getElem hp, outcome_append]
    rfl

theorem Meets.arriving_subset (h : Meets held ∅ code) (q : Nat) :
    arriving held code q ⊆ outcome held ∅ (code.take q) := by
  unfold arriving
  split
  · next l hl => exact (h.get hl).1.2 l (.inl rfl)
  · exact Set.Subset.refl _

/-- Control that goes from one place to another has written what it needs there, or knew it. -/
theorem Meets.goes (h : Meets held ∅ code) {p q : Nat} (hgoes : code.Goes p q) :
    ∃ i, code[p]? = some i ∧ arriving held code q ⊆ insert i.dest (arriving held code p) := by
  obtain ⟨i, hi, hnext⟩ := hgoes
  refine ⟨i, hi, ?_⟩
  obtain ⟨⟨-, hlabels⟩, houtcome⟩ := h.get hi
  have hplain : (∀ l, i ≠ .label l) → arriving held code p = outcome held ∅ (code.take p) := by
    intro hne
    unfold arriving
    split
    · next l hl => exact absurd (Option.some.inj (hi.symm.trans hl)) (hne l)
    · rfl
  rcases hnext with ⟨rfl, hjump⟩ | ⟨l, hl, hq⟩
  · refine (h.arriving_subset (p + 1)).trans ?_
    rw [houtcome]
    cases i with
    | label l =>
      rw [arriving_label hi]
      exact Set.subset_insert _ _
    | jal rd l =>
      rw [hplain (by simp)]
      by_cases hrd : rd = .zero
      · exact absurd (hrd ▸ rfl) (hjump l)
      · simp only [Instr.outcome, if_neg hrd, Instr.dest]
        exact Set.Subset.refl _
    | _ =>
      rw [hplain (by simp)]
      exact Set.Subset.refl _
  · rw [arriving_label hq, hplain fun l' heq => by simp [heq, Instr.jumpsTo?] at hl]
    exact (hlabels l (.inr hl)).trans (Set.subset_insert _ _)

/-- What is known when control comes to a place was written on the way. -/
theorem Meets.path (h : Meets held ∅ code) {ps : List Nat} {q : Nat} (hpath : code.Path ps q) :
    ∀ r ∈ arriving held code q, r.isVirtual = true →
      ∃ p ∈ ps, ∃ j, code[p]? = some j ∧ j.dest = r := by
  induction hpath with
  | start =>
    intro r hr
    exact absurd (h.arriving_subset 0 hr) (Set.notMem_empty r)
  | @step ps p q _ hgoes ih =>
    intro r hr hv
    obtain ⟨i, hi, hsub⟩ := h.goes hgoes
    rcases hsub hr with rfl | hr
    · exact ⟨p, by simp, i, hi, rfl⟩
    · obtain ⟨p', hp', hj⟩ := ih r hr hv
      exact ⟨p', List.mem_append_left _ hp', hj⟩

/-- If sets for labels are found, every register that is read was written on each path. -/
theorem Meets.written (h : Meets held ∅ code) : code.WritesFirstOnPaths := by
  intro ps q hpath i hi r hr hv
  refine h.path hpath r ?_ hv
  have hknown := (h.get hi).1.1 r hr hv
  unfold arriving
  split
  · next l hl =>
    obtain rfl := Option.some.inj (hi.symm.trans hl)
    cases hr
  · exact hknown

/-! ### Straight code -/

/-- Code without labels and jumps. -/
def Straight (code : Listing) : Prop := ∀ i ∈ code, (∀ l, i ≠ .label l) ∧ i.jumpsTo? = none

theorem outcome_of_straight (h : Straight code) : outcome held known code = known ∪ dests code := by
  induction code generalizing known with
  | nil => simp [outcome]
  | cons i code ih =>
    obtain ⟨⟨hlabel, hjump⟩, hcode⟩ := List.forall_mem_cons.1 h
    have hi : i.outcome held known = insert i.dest known := by
      cases i with
      | label l => exact absurd rfl (hlabel l)
      | jal rd l =>
        have hrd : rd ≠ .zero := fun heq => by simp [Instr.jumpsTo?, heq] at hjump
        simp [Instr.outcome, hrd, Instr.dest]
      | _ => rfl
    rw [outcome, hi, ih hcode, dests_cons, Set.insert_union, ← Set.union_insert]

theorem meets_of_straight (h : Straight code) (hd : Defined known code) :
    Meets held known code := by
  induction code generalizing known with
  | nil => trivial
  | cons i code ih =>
    obtain ⟨⟨hlabel, hjump⟩, hcode⟩ := List.forall_mem_cons.1 h
    have hi : outcome held known [i] = known ∪ dests [i] :=
      outcome_of_straight (List.forall_mem_singleton.2 ⟨hlabel, hjump⟩)
    refine ⟨⟨hd.1, ?_⟩, ?_⟩
    · rintro l (heq | hl)
      · exact absurd heq (hlabel l)
      · rw [hjump] at hl
        cases hl
    · have hi : i.outcome held known = insert i.dest known := by simpa [outcome] using hi
      rw [hi]
      exact ih hcode hd.2

end Listing

namespace Lowering

open Listing

/-! ### Sets for labels -/

/-- For the labels that were handed out between two counts there are sets with which the code finds
what it needs, given what is known before it, and after which something is known. Other labels need
what a condition says. -/
structure Flows (J : (String → Set Reg) → Prop) (n m : Nat) (known : Set Reg) (code : Listing)
    (known' : Set Reg) : Prop where
  le : n ≤ m
  held : ∃ held : String → Set Reg,
    ∀ held', (∀ l, n < labelNumber l → labelNumber l ≤ m → held' l = held l) → J held' →
      code.Meets held' known ∧ known' ⊆ code.outcome held' known

section Flows

variable {J K : (String → Set Reg) → Prop} {n m k : Nat} {a b code : Listing}
  {known known' known'' : Set Reg} {x y : Reg} {l : String}

/-- Sets are only needed for labels that were handed out. -/
theorem flows_of_meets (h : ∀ held, J held → code.Meets held known ∧
    known' ⊆ code.outcome held known) : Flows J n n known code known' :=
  ⟨Nat.le_refl n, fun _ => ∅, fun held' _ hJ => h held' hJ⟩

/-- Less is known after the code. -/
theorem Flows.subset (h : Flows J n m known code known') (hk : known'' ⊆ known') :
    Flows J n m known code known'' where
  le := h.le
  held := by
    obtain ⟨held, hheld⟩ := h.held
    refine ⟨held, fun held' hagree hJ => ?_⟩
    obtain ⟨hmeets, hout⟩ := hheld held' hagree hJ
    exact ⟨hmeets, hk.trans hout⟩

/-- More is asked of the sets for other labels. -/
theorem Flows.under (h : Flows J n m known code known') (hJ : ∀ held, K held → J held) :
    Flows K n m known code known' where
  le := h.le
  held := by
    obtain ⟨held, hheld⟩ := h.held
    exact ⟨held, fun held' hagree hK => hheld held' hagree (hJ held' hK)⟩

theorem Flows.append (ha : Flows J n m known a known') (hb : Flows J m k known' b known'') :
    Flows J n k known (a ++ b) known'' where
  le := ha.le.trans hb.le
  held := by
    obtain ⟨heldA, hA⟩ := ha.held
    obtain ⟨heldB, hB⟩ := hb.held
    have hle := ha.le
    have hle' := hb.le
    refine ⟨fun l => if labelNumber l ≤ m then heldA l else heldB l, fun held' hagree hJ => ?_⟩
    obtain ⟨hmeets, hout⟩ :=
      hA held' (fun l hl hl' => (hagree l hl (by omega)).trans (if_pos hl')) hJ
    obtain ⟨hmeets', hout'⟩ :=
      hB held' (fun l hl hl' => (hagree l (by omega) hl').trans (if_neg (by omega))) hJ
    rw [meets_append, outcome_append]
    exact ⟨⟨hmeets, hmeets'.mono hout⟩, hout'.trans (outcome_mono hout)⟩

/-- A set is chosen for a new label. -/
theorem Flows.newLabel (set : Set Reg) (hl : labelNumber l = n + 1)
    (h : Flows (fun held => held l = set ∧ J held) (n + 1) m known code known') :
    Flows J n m known code known' where
  le := Nat.le_of_succ_le h.le
  held := by
    obtain ⟨held, hheld⟩ := h.held
    have hle := h.le
    refine ⟨fun l' => if labelNumber l' = n + 1 then set else held l',
      fun held' hagree hJ => hheld held' (fun l' hl' hm => ?_) ⟨?_, hJ⟩⟩
    · exact (hagree l' (by omega) hm).trans (if_neg (by omega))
    · exact (hagree l (by omega) (by omega)).trans (if_pos hl)

theorem flows_nil : Flows J n n known [] known :=
  flows_of_meets fun _ _ => ⟨trivial, Set.Subset.refl _⟩

theorem flows_straight (hcode : Straight code) (hd : Defined known code) :
    Flows J n n known code (known ∪ dests code) :=
  flows_of_meets fun _ _ => ⟨meets_of_straight hcode hd, (outcome_of_straight hcode).ge⟩

theorem flows_single {i : Instr} (hlabel : ∀ l, i ≠ .label l) (hjump : i.jumpsTo? = none)
    (hreads : ∀ r ∈ i.reads, r.isVirtual = true → r ∈ known) :
    Flows J n n known [i] (insert i.dest known) := by
  refine (flows_straight (List.forall_mem_singleton.2 ⟨hlabel, hjump⟩) ⟨hreads, trivial⟩).subset ?_
  simp

theorem flows_mv (d : Reg) (hx : x ∈ known) : Flows J n n known [.mv d x] (insert d known) :=
  flows_single (by simp) rfl (List.forall_mem_singleton.2 fun _ => hx)

theorem flows_branch (op : BranchOp) (hx : x.isVirtual = true → x ∈ known)
    (hy : y.isVirtual = true → y ∈ known) (hl : ∀ held, J held → held l ⊆ known) :
    Flows J n n known [.branch op x y l] known := by
  refine flows_of_meets fun held hJ => ⟨⟨⟨?_, ?_⟩, trivial⟩, Set.subset_insert _ _⟩
  · intro r hr hv
    rcases List.mem_cons.1 hr with rfl | hr
    · exact hx hv
    · obtain rfl := List.mem_singleton.1 hr
      exact hy hv
  · rintro l' (heq | heq)
    · cases heq
    · obtain rfl := Option.some.inj heq
      exact hl held hJ

/-- Behind a jump everything counts as known. -/
theorem flows_jump (hl : ∀ held, J held → held l ⊆ known) :
    Flows J n n known [.jal .zero l] Set.univ := by
  refine flows_of_meets fun held hJ =>
    ⟨⟨⟨by simp [Instr.reads], ?_⟩, trivial⟩, by simp [Listing.outcome, Instr.outcome]⟩
  rintro l' (heq | heq)
  · cases heq
  · obtain rfl : l = l' := by simpa [Instr.jumpsTo?] using heq
    exact hl held hJ

theorem flows_label (hl : ∀ held, J held → held l = known') (hsub : known' ⊆ known) :
    Flows J n n known [.label l] known' := by
  refine flows_of_meets fun held hJ => ⟨⟨⟨by simp [Instr.reads], ?_⟩, trivial⟩, (hl held hJ).ge⟩
  rintro l' (heq | heq)
  · obtain rfl := Instr.label.inj heq
    rwa [hl held hJ]
  · cases heq

/-- The sets for the labels of a choice: what is known before it is known on both arms, and
something else where they meet. -/
def ChoiceSets (J : (String → Set Reg) → Prop) (s : Supply) (known known' : Set Reg)
    (held : String → Set Reg) : Prop :=
  held (endLabel s) = known' ∧ held (elseLabel s) = known ∧ held (thenLabel s) = known ∧ J held

/-- A choice: what both arms leave is known where they meet. -/
theorem Flows.choice {s : Supply} {t e : Listing} (hx : x ∈ known)
    (ht : Flows J (s.labels + 3) m known t known') (he : Flows J m k known e known') :
    Flows J s.labels k known (choice x s t e) known' := by
  refine .newLabel (l := thenLabel s) known (by simp [thenLabel])
    (.newLabel (l := elseLabel s) known (by simp [elseLabel]) ?_)
  refine .newLabel (l := endLabel s) known' (by simp [endLabel]) ?_
  change Flows (ChoiceSets J s known known') (s.labels + 3) k known (Lowering.choice x s t e) known'
  have hJ : ∀ held, ChoiceSets J s known known' held → J held := fun _ h => h.2.2.2
  have hbranch : Flows (ChoiceSets J s known known') (s.labels + 3) (s.labels + 3) known
    [.branch .bne x .zero (thenLabel s)] known :=
    flows_branch .bne (fun _ => hx) (fun h => absurd h (by decide)) fun _ h => h.2.2.1.le
  have hchoose :=
    (hbranch.append (flows_jump fun _ h => h.2.1.le)).append (flows_label (fun _ h => h.2.2.1)
      (Set.subset_univ _))
  have hthen := (hchoose.append (ht.under hJ)).append (flows_jump fun _ h => h.1.le)
  have helse := (flows_label (fun _ h => h.2.1) (Set.subset_univ _)).append (he.under hJ)
  simpa [Lowering.choice, choose] using (hthen.append helse).append
    (flows_label (fun _ h => h.1) (Set.Subset.refl _))

end Flows

/-! ### Expressions -/

section Expressions

variable {J : (String → Set Reg) → Prop} {c : LowerContext} {slots slots' : Slots} {depth : Nat}
  {s s' : Supply} {code : Listing} {r : Reg} {known : Set Reg}

/-- The statement of `flows_expr` for one expression. -/
def FlowsToValue (x : Expr) : Prop :=
  ∀ (c : LowerContext) (slots : Slots) (depth : Nat) (s : Supply) (code : Listing) (r : Reg)
    (s' : Supply),
    Gives (lowerExpr c slots depth x) s (code, r) s' →
      ∀ J known, Flows J s.labels s'.labels known code (insert r known)

theorem straight_operatorCode (op : Operator) (d l r t : Reg) :
    Straight (operatorCode op d l r t) := by
  cases op <;> simp [operatorCode, Straight, Instr.jumpsTo?]

theorem flows_operator {op : Operator} {x y : Reg} (hop : op ≠ .pow) (hx : x ∈ known)
    (hy : y ∈ known) (h : Gives (operator op x y) s (code, r) s') :
    Flows J s.labels s'.labels known code (insert r known) := by
  obtain ⟨hdefined, hwritten⟩ := defined_operator hop hx hy h
  have hsub : insert r known ⊆ known ∪ dests code :=
    Set.insert_subset (.inr hwritten) Set.subset_union_left
  obtain ⟨rfl, ⟨-, rfl, rfl⟩ | ⟨-, rfl, rfl⟩⟩ := gives_operator h <;>
  exact (flows_straight (straight_operatorCode _ _ _ _ _) hdefined).subset hsub

theorem flows_args {xs : List Expr} (ih : ∀ x ∈ xs, FlowsToValue x) {rs : List Reg}
    (known : Set Reg) (h : Gives (lowerArgs c slots depth xs) s (code, rs) s') :
    ∃ known', known ⊆ known' ∧ (∀ r ∈ rs, r ∈ known') ∧
      Flows J s.labels s'.labels known code known' := by
  induction xs generalizing s code rs known with
  | nil =>
    obtain ⟨rfl, rfl, rfl⟩ := gives_args_nil h
    exact ⟨known, Set.Subset.refl _, by simp, flows_nil⟩
  | cons x xs ihxs =>
    obtain ⟨xc, xr, s₁, rest, rs', hx, hrest, rfl, rfl⟩ := gives_args_cons h
    have hfirst := ih x List.mem_cons_self c slots depth s xc xr s₁ hx J known
    obtain ⟨known', hsub, hwritten, hflows⟩ :=
      ihxs (fun y hy => ih y (List.mem_cons_of_mem x hy)) (insert xr known) hrest
    refine ⟨known', (Set.subset_insert xr known).trans hsub,
      List.forall_mem_cons.2 ⟨hsub (Set.mem_insert xr known), hwritten⟩, ?_⟩
    exact hfirst.append hflows

theorem straight_passArgs (i : Nat) (rs : List Reg) : Straight (passArgs i rs) := by
  intro j hj
  obtain ⟨k, r, -, -, rfl⟩ := mem_passArgs hj
  exact ⟨by simp, rfl⟩

theorem flows_pattern {x : Reg} {next : String} {p : Pattern} {inner : Slots}
    (ih : ∀ v ∈ p.parts, FlowsToValue v) (hx : x ∈ known)
    (hnext : ∀ held, J held → held next ⊆ known)
    (h : Gives (lowerPattern c slots depth x next p) s (code, inner) s') :
    Flows J s.labels s'.labels known code known := by
  rcases gives_pattern h with ⟨loc, v, vc, vr, rfl, hv, rfl, rfl⟩ | ⟨loc, n, rfl, rfl, rfl,
    rfl⟩ | ⟨loc, rfl, rfl, rfl, rfl⟩
  · have hvalue := ih v (by simp [Pattern.parts]) c _ _ s vc vr s' hv J known
    have hbranch : Flows J s'.labels s'.labels (insert vr known) [.branch .bne x vr next]
      (insert vr known) :=
      flows_branch .bne (fun _ => .inr hx) (fun _ => .inl rfl) fun held hJ =>
        (hnext held hJ).trans (Set.subset_insert vr known)
    exact (hvalue.append hbranch).subset (Set.subset_insert vr known)
  · refine (flows_straight (by simp [Straight, Instr.jumpsTo?]) ?_).subset Set.subset_union_left
    simp [Defined, Instr.reads, hx, Reg.sp, Reg.isVirtual, Reg.machineCount]
  · exact flows_nil

/-- The arms of a match: each one that fits leaves the value and goes to the end. -/
theorem flows_cases {x d : Reg} {last : String} {cs : List Case}
    (ih : ∀ k ∈ cs, ∀ v ∈ k.parts, FlowsToValue v) (hx : x ∈ known)
    (hlast : ∀ held, J held → held last ⊆ insert d known)
    (h : Gives (lowerCases c slots depth x d last cs) s code s') :
    Flows J s.labels s'.labels known code known := by
  induction cs generalizing s code with
  | nil =>
    obtain ⟨rfl, rfl⟩ := gives_cases_nil h
    exact flows_nil
  | cons k cs ihcs =>
    obtain ⟨loc, p, b⟩ := k
    obtain ⟨test, inner, s₁, bc, br, s₂, others, hp, hb, ho, rfl⟩ := gives_cases_cons h
    have hparts := ih (.mk loc p b) List.mem_cons_self
    refine .newLabel (l := caseLabel s) known (by simp [caseLabel]) ?_
    have hothers := (ihcs (fun k hk => ih k (List.mem_cons_of_mem _ hk)) ho).under
      fun held (h : held (caseLabel s) = known ∧ J held) => h.2
    have htest := flows_pattern (J := fun held => held (caseLabel s) = known ∧ J held)
      (fun v hv => hparts v (List.mem_append_left _ hv)) hx (fun _ h => h.1.le) hp
    have hbody := hparts b (List.mem_append_right _ List.mem_cons_self) c inner depth s₁ bc br s₂ hb
      (fun held => held (caseLabel s) = known ∧ J held) known
    have hleave := (hbody.append (flows_mv d (Set.mem_insert br known))).append
      (flows_jump fun held h =>
        (hlast held h.2).trans (Set.insert_subset_insert (Set.subset_insert br known)))
    have harm := (htest.append hleave).append (flows_label (fun _ h => h.1) (Set.subset_univ known))
    simpa using harm.append hothers

/-- The code of an expression reads what was written on each path, and its value is
written on each. -/
theorem flows_expr (x : Expr) : FlowsToValue x := by
  induction x using Expr.induction with
  | step x ih =>
    intro c slots depth s code r s' h J known
    rcases shape_of_gives h with
      hlit | ⟨loc, n, rfl⟩ | ⟨loc, op, l, y, rfl⟩ | ⟨loc, f, args, named, rfl⟩ | ⟨loc, y, t, e,
        rfl⟩ | ⟨loc, y, cs, rfl⟩
    · obtain ⟨v, hv⟩ := Option.isSome_iff_exists.1 hlit
      obtain ⟨rfl, rfl, rfl⟩ := gives_literal hv h
      exact flows_single (by simp) rfl (List.forall_mem_nil _)
    · obtain ⟨rfl, rfl, ⟨o, -, rfl⟩ | ⟨-, l, -, rfl⟩⟩ := gives_var h
      · exact flows_single (by simp) rfl
          (List.forall_mem_singleton.2 fun hv => absurd hv (by decide))
      · exact flows_single (by simp) rfl (List.forall_mem_nil _)
    · obtain ⟨hop, lc, lr, s₁, yc, yr, s₂, oc, hl, hy, ho, rfl⟩ := gives_binOp h
      have hleft := ih l (by simp [Expr.parts]) _ _ _ _ _ _ _ hl J known
      have hright := ih y (by simp [Expr.parts]) _ _ _ _ _ _ _ hy J (insert lr known)
      have hoperator :=
        flows_operator (J := J) hop (.inr (Set.mem_insert lr known)) (Set.mem_insert yr _) ho
      exact ((hleft.append hright).append hoperator).subset
        (Set.insert_subset_insert ((Set.subset_insert lr known).trans (Set.subset_insert yr _)))
    · obtain ⟨-, -, vloc, n, l, ac, rs, s₁, rfl, -, -, ha, rfl, rfl, rfl⟩ := gives_call h
      obtain ⟨known', hsub, hwritten, hargs⟩ := flows_args (J := J) (fun x hx => ih x hx) known ha
      have hpass :=
        (flows_straight (J := J) (n := s₁.labels) (straight_passArgs 0 rs)
          (defined_passArgs hwritten 0)).subset Set.subset_union_left
      have hcall : Flows J s₁.labels s₁.labels known' [.jal .ra l] known' :=
        (flows_single (by simp) rfl (List.forall_mem_nil _)).subset (Set.subset_insert _ _)
      have hvalue : Flows J s₁.labels s₁.labels known' [.mv (.virtual s₁.regs) .a0]
        (insert (.virtual s₁.regs) known) :=
        (flows_single (by simp) rfl
          (List.forall_mem_singleton.2 fun hv => absurd hv (by decide))).subset
          (Set.insert_subset_insert hsub)
      exact (hargs.append hpass).append (hcall.append hvalue)
    · obtain ⟨yc, yr, s₁, tc, tr, s₂, ec, er, hy, ht, he, rfl, rfl⟩ := gives_ifElse h
      have hcond := ih y (by simp [Expr.parts]) _ _ _ _ _ _ _ hy J known
      have hthen := (ih t (by simp [Expr.parts]) _ _ _ _ _ _ _ ht J (insert yr known)).append
        (flows_mv (.virtual s₁.regs) (Set.mem_insert tr _))
      have helse := (ih e (by simp [Expr.parts]) _ _ _ _ _ _ _ he J (insert yr known)).append
        (flows_mv (.virtual s₁.regs) (Set.mem_insert er _))
      have hsub : ∀ q, insert (Reg.virtual s₁.regs) known ⊆ insert (.virtual s₁.regs)
        (insert q (insert yr known)) :=
        fun q => Set.insert_subset_insert
          ((Set.subset_insert yr known).trans (Set.subset_insert q _))
      exact hcond.append (.choice (Set.mem_insert yr known) (hthen.subset (hsub tr))
        (helse.subset (hsub er)))
    · obtain ⟨yc, yr, s₁, body, hy, hbody, rfl, rfl⟩ := gives_matchOn h
      have hscrutinee := ih y (by simp [Expr.parts]) _ _ _ _ _ _ _ hy J known
      have hcases :=
        flows_cases (J := fun held =>
          held (matchLabel s₁) = insert (.virtual s₁.regs) (insert yr known) ∧ J held)
        (fun k hk v hv => ih v (List.mem_cons_of_mem y (List.mem_flatMap.2 ⟨k, hk, hv⟩)))
        (Set.mem_insert yr known) (fun _ h => h.1.le) hbody
      have hzero : Flows
        (fun held => held (matchLabel s₁) = insert (.virtual s₁.regs) (insert yr known) ∧ J held)
        s'.labels s'.labels (insert yr known) [.li (.virtual s₁.regs) 0]
        (insert (.virtual s₁.regs) (insert yr known)) :=
        flows_single (by simp) rfl (List.forall_mem_nil _)
      have hend := hzero.append (flows_label (fun _ h => h.1) (Set.Subset.refl _))
      rw [List.append_assoc]
      refine hscrutinee.append (.newLabel (l := matchLabel s₁) _ (by simp [matchLabel])
        ((hcases.append hend).subset ?_))
      exact Set.insert_subset_insert (Set.subset_insert yr known)

/-! ### Statements -/

theorem Noted.flows {rest : Listing} {n m : Nat} {known' : Set Reg} (h : Noted c code rest)
    (hrest : Flows J n m known rest known') : Flows J n m known code known' := by
  obtain ⟨note, rfl, -, hcomments⟩ := h
  have hstraight : Straight note := by
    intro i hi
    obtain ⟨t, rfl⟩ := hcomments i hi
    exact ⟨by simp, rfl⟩
  have hdefined : Defined known note := defined_of_reads fun i hi => by
    obtain ⟨t, rfl⟩ := hcomments i hi
    simp [Instr.reads]
  exact ((flows_straight hstraight hdefined).subset Set.subset_union_left).append hrest

theorem labels_slotOf {n : String} {o : Int32} (h : Gives (slotOf slots n) s (o, slots') s') :
    s'.labels = s.labels := by
  rcases gives_slotOf h with ⟨-, -, rfl⟩ | ⟨-, -, -, rfl⟩ <;> rfl

theorem flows_store {n : String} {x : Expr}
    (h : Gives (lowerStore c slots depth n x) s (code, slots') s') :
    Flows J s.labels s'.labels known code known := by
  obtain ⟨xc, xr, s₁, o, hx, ho, rfl⟩ := gives_store h
  rw [labels_slotOf ho]
  have hvalue := flows_expr x _ _ _ _ _ _ _ hx J known
  have hstore : Flows J s₁.labels s₁.labels (insert xr known) [.store .sw xr .sp o]
    (insert .zero (insert xr known)) :=
    flows_single (by simp) rfl (by simp [Instr.reads, Reg.sp, Reg.isVirtual, Reg.machineCount])
  exact (hvalue.append hstore).subset ((Set.subset_insert xr known).trans (Set.subset_insert _ _))

theorem flows_leaving {n : Nat} (last : Bool) (hexit : ∀ held, J held → held c.exit ⊆ known) :
    Flows J n n known (leaving c last) known := by
  cases last with
  | true => exact flows_nil
  | false => exact (flows_jump hexit).subset (Set.subset_univ known)

/-- Nothing is needed at the end of the function. -/
def LeavesFreely (c : LowerContext) (held : String → Set Reg) : Prop := held c.exit = ∅

theorem flows_return {last : Bool} {x : Option Expr}
    (h : Gives (lowerReturn c slots depth last x) s code s') :
    Flows (LeavesFreely c) s.labels s'.labels known code known := by
  have hexit : ∀ k held, LeavesFreely c held → held c.exit ⊆ k :=
    fun k held h => h.le.trans (Set.empty_subset k)
  rcases gives_return h with ⟨rfl, rfl, rfl⟩ | ⟨y, xc, xr, rfl, hy, rfl⟩
  · have hvalue : Flows (LeavesFreely c) s'.labels s'.labels known [.mv .a0 .zero]
      (insert .a0 known) :=
      flows_single (by simp) rfl (List.forall_mem_singleton.2 fun hv => absurd hv (by decide))
    exact (hvalue.append (flows_leaving last (hexit _))).subset (Set.subset_insert _ _)
  · have hvalue :=
      (flows_expr y _ _ _ _ _ _ _ hy (LeavesFreely c) known).append
        (flows_mv .a0 (Set.mem_insert xr known))
    exact (hvalue.append (flows_leaving last (hexit _))).subset
      ((Set.subset_insert xr known).trans (Set.subset_insert _ _))

/-- The statement of `flows_stmt` for one statement. -/
def StmtFlows (t : Stmt) : Prop :=
  ∀ (c : LowerContext) (slots : Slots) (depth : Nat) (last : Bool) (s : Supply) (code : Listing)
    (slots' : Slots) (s' : Supply),
    Gives (lowerStmt c slots depth last t) s (code, slots') s' →
      ∀ known, Flows (LeavesFreely c) s.labels s'.labels known code known

theorem flows_stmts_of {top : Bool} {ts : List Stmt} (ih : ∀ t ∈ ts, StmtFlows t) (known : Set Reg)
    (h : Gives (lowerStmts c slots depth top ts) s (code, slots') s') :
    Flows (LeavesFreely c) s.labels s'.labels known code known := by
  induction ts generalizing slots s code with
  | nil =>
    obtain ⟨rfl, rfl, rfl⟩ := gives_stmts_nil h
    exact flows_nil
  | cons t ts ihts =>
    obtain ⟨tc, inner, s₁, rest, ht, hrest, rfl⟩ := gives_stmts_cons h
    have hfirst := ih t List.mem_cons_self _ _ _ _ _ _ _ _ ht known
    exact hfirst.append (ihts (fun u hu => ih u (List.mem_cons_of_mem t hu)) hrest)

/-- The code of a statement reads what was written on each path. -/
theorem flows_stmt (t : Stmt) : StmtFlows t := by
  induction t using Stmt.induction with
  | step t ih =>
    intro c slots depth last s code slots' s' h known
    cases t with
    | ret loc x =>
      obtain ⟨rest, hnoted, -, hrest⟩ := gives_noted_ret h
      exact hnoted.flows (flows_return hrest)
    | assign loc n type x =>
      obtain ⟨rest, hnoted, hrest⟩ := gives_noted_assign h
      exact hnoted.flows (flows_store hrest)
    | use loc n x =>
      obtain ⟨rest, hnoted, hrest⟩ := gives_noted_use h
      exact hnoted.flows (flows_store hrest)
    | ifThen loc x tl t =>
      obtain ⟨xc, xr, s₁, tc, hx, ht, hnoted⟩ := gives_noted_ifThen h
      have hcond := flows_expr x _ _ _ _ _ _ _ hx (LeavesFreely c) known
      have hthen := flows_stmts_of (fun u hu => ih u hu) (insert xr known) ht
      exact hnoted.flows ((hcond.append (.choice (Set.mem_insert xr known) hthen flows_nil)).subset
        (Set.subset_insert xr known))
    | ifElse loc x tl t el e =>
      obtain ⟨xc, xr, s₁, tc, inner, s₂, ec, hx, ht, he, hnoted⟩ := gives_noted_ifElse h
      have hcond := flows_expr x _ _ _ _ _ _ _ hx (LeavesFreely c) known
      have hthen :=
        flows_stmts_of (fun u hu => ih u (List.mem_append_left e hu)) (insert xr known) ht
      have helse :=
        flows_stmts_of (fun u hu => ih u (List.mem_append_right t hu)) (insert xr known) he
      exact hnoted.flows ((hcond.append (.choice (Set.mem_insert xr known) hthen helse)).subset
        (Set.subset_insert xr known))
    | expr loc x =>
      obtain ⟨-, xc, xr, hnoted, hx⟩ := gives_noted_exprStmt h
      exact hnoted.flows ((flows_expr x _ _ _ _ _ _ _ hx (LeavesFreely c) known).subset
        (Set.subset_insert xr known))
    | missing => exact absurd h not_gives_missing

end Expressions

/-! ### Functions -/

section Functions

variable {opts : CodegenOptions} {functions : List String} {f : NamedFunction} {labels : Nat}
  {s : Supply} {lf : LoweredFunction}

theorem straight_params {i : Nat} {slots slots' : Slots} {s s' : Supply} {code : Listing}
    {ps : List Param} (h : Gives (lowerParams i slots ps) s (code, slots') s') :
    Straight code ∧ s'.labels = s.labels := by
  induction ps generalizing i slots s code with
  | nil =>
    obtain ⟨rfl, -, rfl⟩ := gives_params_nil h
    exact ⟨List.forall_mem_nil _, rfl⟩
  | cons p ps ih =>
    obtain ⟨rest, hrest, rfl⟩ := gives_params_cons h
    obtain ⟨hstraight, hlabels⟩ := ih hrest
    exact ⟨List.forall_mem_cons.2 ⟨⟨by simp, rfl⟩, hstraight⟩, hlabels⟩

theorem flows_falling {J : (String → Set Reg) → Prop} {n : Nat} {known : Set Reg} (ss : List Stmt) :
    Flows J n n known (falling ss) known := by
  unfold falling
  split
  · exact flows_nil
  · exact (flows_single (by simp) rfl
      (List.forall_mem_singleton.2 fun hv => absurd hv (by decide))).subset
      (Set.subset_insert _ _)

/-- The code of a function reads what was written on each path. -/
theorem writesFirstOnPaths_function (h : Gives (lowerFunction opts functions f) { labels } lf s) :
    lf.code.WritesFirstOnPaths := by
  obtain ⟨hcount, -, pc, inner, s₁, bc, hp, hb, hcode⟩ := gives_function h
  obtain ⟨sc, inner', hs, rfl⟩ := gives_body hb
  obtain ⟨hstraight, hlabels⟩ := straight_params hp
  have hdefined : Defined ∅ pc := defined_params (by omega) hp
  have hparams :=
    flows_straight (J := LeavesFreely (contextOf opts functions f (exitLabel { labels })))
      (n := labels + 1) hstraight hdefined
  have hbody :=
    (flows_stmts_of (fun t _ => flows_stmt t) (∅ ∪ dests pc) hs).append
      (flows_falling f.func.body.stmts)
  rw [hlabels] at hbody
  obtain ⟨held, hheld⟩ := (hparams.append hbody).held
  -- The label of the end was handed out before, so that nothing is needed there.
  have hmeets :=
    (hheld (fun l => if labelNumber l ≤ labels + 1 then ∅ else held l)
      (fun l hl _ => if_neg (by omega)) (if_pos ?_)).1
  · rw [hcode]
    exact hmeets.written
  · simp [contextOf, exitLabel]

theorem jumps_of_bare {E : String → Prop} {code : Listing} (h : Jumps E code.bare) :
    Jumps E code := by
  induction code with
  | nil => trivial
  | cons i code ih =>
    cases hi : i.isComment with
    | true =>
      rw [bare_cons_of_comment hi] at h
      refine ⟨fun l hl => ?_, ih h⟩
      cases i with
      | comment => cases hl
      | _ => cases hi
    | false =>
      rw [bare_cons_of_line hi] at h
      exact ⟨fun l hl => (h.1 l hl).imp_left fun hmem => (mem_bare.1 hmem).1, ih h.2⟩

/-- A jump leads to a given label or to one that stands later. -/
theorem Jumps.get {E : String → Prop} {code : Listing} (h : Jumps E code) {p : Nat} {i : Instr}
    (hi : code[p]? = some i) {l : String} (hl : i.jumpsTo? = some l) :
    E l ∨ ∃ q, p < q ∧ code[q]? = some (.label l) := by
  induction code generalizing p with
  | nil => simp at hi
  | cons j code ih =>
    cases p with
    | zero =>
      obtain rfl : j = i := by simpa using hi
      refine (h.1 l hl).symm.imp_right fun hmem => ?_
      obtain ⟨q, hq⟩ := List.mem_iff_getElem?.1 hmem
      exact ⟨q + 1, Nat.succ_pos q, by simpa using hq⟩
    | succ p =>
      refine (ih h.2 (by simpa using hi)).imp_right ?_
      rintro ⟨q, hpq, hq⟩
      exact ⟨q + 1, Nat.succ_lt_succ hpq, by simpa using hq⟩

/-- Lowered code holds only instructions that may occur on virtual registers. -/
theorem isLowered_function (h : Gives (lowerFunction opts functions f) { labels } lf s) {i : Instr}
    (hi : i ∈ lf.code) : i.isLowered = true := by
  obtain ⟨-, piece⟩ := shape_function rfl h.silent
  cases hc : i.isComment with
  | true => cases i <;> first | rfl | cases hc
  | false => exact (piece.tidy i (mem_bare.2 ⟨hi, hc⟩)).lowered

end Functions

end Lowering

/-! ### What allocation may rely on -/

/-- Code on virtual registers that ends at a label. -/
structure Listing.Allocatable (exit : String) (code : Listing) : Prop where
  /-- A branch or jump goes to the end or to a label further on. -/
  forward : ∀ (p : Nat) (i : Instr) (l : String), code[p]? = some i → i.jumpsTo? = some l →
    l = exit ∨ ∃ q, p < q ∧ code[q]? = some (.label l)
  /-- On every path a virtual register is written before it is read. -/
  written : code.WritesFirstOnPaths
  /-- The only machine registers are `zero`, `ra`, `sp` and those of arguments. -/
  registers : ∀ i ∈ code, ∀ r ∈ i.dest :: i.reads, r.isVirtual = true ∨ r ∈ [Reg.zero, .ra, .sp] ∨
    ∃ n < Reg.argCount, r = .arg n
  /-- The stack pointer is not written. -/
  stack : ∀ i ∈ code, i.dest ≠ .sp

theorem Reg.cases_of_isLowered {r : Reg} (h : r.isLowered = true) :
    r.isVirtual = true ∨ r ∈ [Reg.zero, .ra, .sp] ∨ ∃ n < Reg.argCount, r = .arg n := by
  simp only [isLowered, isShared, Bool.or_eq_true, beq_iff_eq, Bool.and_eq_true,
    decide_eq_true_eq] at h
  rcases h with (h | rfl) | (rfl | rfl) | h
  · exact .inl h
  · exact .inr (.inl (by simp))
  · exact .inr (.inl (by simp))
  · exact .inr (.inl (by simp))
  · obtain ⟨n⟩ := r
    dsimp only at h
    exact .inr (.inr ⟨n - 10, show n - 10 < 8 by omega,
      congrArg Reg.mk (show n = 10 + (n - 10) by omega)⟩)

/-- **Lowered code can be allocated.** Whenever a function is lowered, its code jumps to its end or
to later labels, writes on each path the virtual registers that are read, uses no machine registers
but `zero`, `ra`, `sp` and those of arguments, and leaves the stack pointer alone. So its registers
can be allocated, whatever the pools are. -/
theorem lowered_allocatable (opts : CodegenOptions) (functions : List String) (f : NamedFunction)
    (labels : Nat) (lf : LoweredFunction) (s : Supply)
    (h : (lowerFunction opts functions f).run { labels } = .ok (lf, s)) :
    lf.code.Allocatable lf.exit ∧ ∀ pools base, ∃ a, allocate pools base lf.code = .ok a := by
  have hgives : Lowering.Gives (lowerFunction opts functions f) { labels } lf s := h
  constructor
  · obtain ⟨-, piece⟩ := Lowering.shape_function rfl hgives.silent
    constructor
    case forward => exact fun p i l hi hl => (Lowering.jumps_of_bare piece.jumps).get hi hl
    case written => exact Lowering.writesFirstOnPaths_function hgives
    case registers =>
      intro i hi r hr
      obtain ⟨hreads, hdest, -⟩ := Instr.isLowered_iff.1 (Lowering.isLowered_function hgives hi)
      rcases List.mem_cons.1 hr with rfl | hr
      · exact Reg.cases_of_isLowered hdest
      · exact Reg.cases_of_isLowered (hreads r hr)
    case stack =>
      exact fun i hi => (Instr.isLowered_iff.1 (Lowering.isLowered_function hgives hi)).2.2
  · intro pools base
    obtain ⟨ranges, hranges, -⟩ := liveRanges_exact (writesFirst_function hgives)
    exact ⟨_, allocate_of_liveRanges pools base hranges⟩

/-- A function of one parameter that gives one if it is true and two if it is not. -/
def choosing : NamedFunction where
  name := "main"
  func := {
    loc := {}, name := "main", params := [⟨{}, "x", none⟩], ret := none, checked := true
    body := ⟨{}, [.ret {} (some (.ifElse {} (.var {} "x") (.uint {} 1) (.uint {} 2)))]⟩ }

/-- Its code: the register `v1` is written on both ways to the last label. -/
def choosingCode : Listing :=
  [.store .sw .a0 .sp 8, .load .lw (.virtual 0) .sp 8, .branch .bne (.virtual 0) .zero "then_2",
    .jal .zero "else_3", .label "then_2", .li (.virtual 2) 1, .mv (.virtual 1) (.virtual 2),
    .jal .zero "endif_4", .label "else_3", .li (.virtual 3) 2, .mv (.virtual 1) (.virtual 3),
    .label "endif_4", .mv .a0 (.virtual 1)]

theorem lowered_allocatable_choosing :
    (lowerFunction {} ["main"] choosing).run { labels := 0 } =
      .ok (⟨choosingCode, "ret_1"⟩, ⟨4, 4, 1⟩) ∧
      choosingCode.Allocatable "ret_1" ∧
      ∀ pools base, ∃ a, allocate pools base choosingCode = .ok a := by
  have hlowered : (lowerFunction {} ["main"] choosing).run { labels := 0 } =
    .ok (⟨choosingCode, "ret_1"⟩, ⟨4, 4, 1⟩) := rfl
  exact ⟨hlowered, lowered_allocatable {} ["main"] choosing 0 ⟨choosingCode, "ret_1"⟩ ⟨4,
    4, 1⟩ hlowered⟩

end FunRiscv
