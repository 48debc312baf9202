import Mathlib
import FunRiscv.Proofs.Alloc.Preservation
import FunRiscv.Proofs.Codegen.Evaluation
import FunRiscv.Proofs.Codegen.Shape

/-!
# Lowered code computes what programs mean

Code on virtual registers runs in an environment whose calls compute what `call` says.

* `Lowering.Holds`: each variable with a value is in scope, and its word in the frame
  holds the value.
* `Lowering.Undisturbed`: the registers and words that were handed out before are as they were.
* `Lowering.run_expr`: the code of an expression puts its value into its register.
* `Lowering.run_stmts`: the code of statements does what they do.
* `Lowering.run_function`: the code of a function returns its value.
-/

namespace FunRiscv.Lowering

open Machine

/-! ### Words of variables -/

/-- How many variables a function may have. -/
def maxSlots : Nat := 2 ^ 27

/-- The word of a variable. -/
def slotWord (sp : Val) (m : Memory) (n : Nat) : Val := m.word (sp + (slotOffset n).toBitVec)

theorem distance_slot {n : Nat} (hn : n < maxSlots) (sp : Val) :
    (sp + (slotOffset n).toBitVec - sp).toNat = slotBase + slotSize * n := by
  have hoffset : (slotOffset n).toBitVec = BitVec.ofNat 32 (slotBase + slotSize * n) := rfl
  rw [show sp + (slotOffset n).toBitVec - sp = (slotOffset n).toBitVec by ring, hoffset,
    BitVec.toNat_ofNat]
  unfold maxSlots at hn
  unfold slotBase slotSize
  omega

/-- Different variables have words apart from each other. -/
theorem slots_apart {n k : Nat} (hn : n < maxSlots) (hk : k < maxSlots) (hne : n ≠ k) {sp x : Val}
    (hx : x ∈ span (sp + (slotOffset n).toBitVec) 4) :
    x ∉ span (sp + (slotOffset k).toBitVec) 4 := by
  have dn := distance_slot hn sp
  have dk := distance_slot hk sp
  unfold maxSlots at hn hk
  unfold slotBase slotSize at dn dk
  exact not_mem_span_of_mem_span (a := sp) hx (by omega) (by omega) (by omega)

theorem slotWord_write_of_ne {n k : Nat} (hn : n < maxSlots) (hk : k < maxSlots) (hne : n ≠ k)
    (sp : Val) (m : Memory) (v : Val) :
    slotWord sp (m.write (sp + (slotOffset k).toBitVec) 4 v) n = slotWord sp m n :=
  Memory.word_write_of_disjoint v fun _ hx => slots_apart hn hk hne hx

/-- Each variable with a value is in scope, and its word holds the value. -/
def Holds (sp : Val) (slots : Slots) (σ : Store) (m : Memory) : Prop :=
  ∀ x w, σ x = some w → ∃ o, slots.lookup x = some o ∧ m.word (sp + o.toBitVec) = w

variable {sp : Val} {slots slots' : Slots} {σ : Store}

theorem Holds.mono {m : Memory} (h : Holds sp slots σ m)
    (hkept : ∀ x o, slots.lookup x = some o → slots'.lookup x = some o) : Holds sp slots' σ m := by
  intro x w hx
  obtain ⟨o, ho, hw⟩ := h x w hx
  exact ⟨o, hkept x o ho, hw⟩

/-- A value goes into the word of a variable; the other variables keep theirs. -/
theorem Holds.store {m : Memory} {n : Nat} {name : String} {o : Int32} (h : Holds sp slots σ m)
    (hknown : Known slots' n) (hn : n ≤ maxSlots) (hname : slots'.lookup name = some o)
    (hothers : ∀ x, x ≠ name → ∀ q, slots.lookup x = some q → slots'.lookup x = some q) (v : Val) :
    Holds sp slots' (σ.set name v) (m.write (sp + o.toBitVec) 4 v) := by
  intro x w hx
  unfold Store.set at hx
  split at hx
  · next heq =>
    obtain rfl := Option.some.inj hx
    exact ⟨o, by rw [heq, hname], Memory.word_write_word m _ v⟩
  · next hne =>
    obtain ⟨q, hq, hw⟩ := h x w hx
    have hq' := hothers x hne q hq
    refine ⟨q, hq', ?_⟩
    obtain ⟨number, hlookup, hlt, hinj⟩ := hknown
    rw [hlookup] at hq' hname
    obtain ⟨j, hj, rfl⟩ := Option.map_eq_some_iff.1 hq'
    obtain ⟨k, hk, rfl⟩ := Option.map_eq_some_iff.1 hname
    have hjk : j ≠ k := by
      rintro rfl
      exact hne (hinj x name j hj hk)
    rw [← hw]
    exact slotWord_write_of_ne ((hlt x j hj).trans_le hn) ((hlt name k hk).trans_le hn) hjk sp m v

/-! ### Runs -/

/-- The registers and the words of variables that were handed out before are as they were. -/
structure Undisturbed (s : Supply) (sp : Val) (c c' : Config) : Prop where
  regs : ∀ n < s.regs, c'.regs (.virtual n) = c.regs (.virtual n)
  words : ∀ n < s.slots, slotWord sp c'.mem n = slotWord sp c.mem n
  stack : c'.regs .sp = c.regs .sp

theorem Undisturbed.refl (s : Supply) (sp : Val) (c : Config) : Undisturbed s sp c c :=
  ⟨fun _ _ => rfl, fun _ _ => rfl, rfl⟩

theorem Undisturbed.trans {s : Supply} {c c' c'' : Config} (h : Undisturbed s sp c c')
    (h' : Undisturbed s sp c' c'') : Undisturbed s sp c c'' where
  regs := fun n hn => (h'.regs n hn).trans (h.regs n hn)
  words := fun n hn => (h'.words n hn).trans (h.words n hn)
  stack := h'.stack.trans h.stack

theorem Undisturbed.mono {s s' : Supply} {c c' : Config} (h : Undisturbed s' sp c c')
    (hr : s.regs ≤ s'.regs) (hs : s.slots ≤ s'.slots) : Undisturbed s sp c c' where
  regs := fun n hn => h.regs n (by omega)
  words := fun n hn => h.words n (by omega)
  stack := h.stack

theorem Holds.undisturbed {s : Supply} {c c' : Config} (h : Holds sp slots σ c.mem)
    (hknown : Known slots s.slots) (hu : Undisturbed s sp c c') : Holds sp slots σ c'.mem := by
  intro x w hx
  obtain ⟨o, ho, hw⟩ := h x w hx
  obtain ⟨k, hk, rfl⟩ := hknown.offset ho
  exact ⟨_, ho, (hu.words k hk).trans hw⟩

/-- Steps of a listing in an environment that lead from one place to another without disturbing what
was handed out before. -/
def Reaches (env : Environment) (code : Listing) (s : Supply) (sp : Val) (c c' : Config) : Prop :=
  (∃ ps, Run (env.step code) c ps c') ∧ Undisturbed s sp c c'

section

variable {env : Environment} {code : Listing} {s s' : Supply} {c c' c'' : Config}

theorem Reaches.refl (c : Config) : Reaches env code s sp c c := ⟨⟨[], .nil c⟩, .refl s sp c⟩

theorem Reaches.trans (h : Reaches env code s sp c c') (h' : Reaches env code s sp c' c'') :
    Reaches env code s sp c c'' := by
  obtain ⟨⟨ps, hrun⟩, hu⟩ := h
  obtain ⟨⟨qs, hrun'⟩, hu'⟩ := h'
  exact ⟨⟨ps ++ qs, hrun.append hrun'⟩, hu.trans hu'⟩

theorem Reaches.mono (h : Reaches env code s' sp c c') (hr : s.regs ≤ s'.regs)
    (hs : s.slots ≤ s'.slots) : Reaches env code s sp c c' := ⟨h.1, h.2.mono hr hs⟩

theorem Reaches.since (h : Reaches env code s' sp c c') (hl : Later s s') :
    Reaches env code s sp c c' := h.mono hl.regs hl.slots

/-- A step that only goes elsewhere. -/
theorem reaches_goto {place : Nat} (h : flow env.sym code c = some { c with pc := place }) :
    Reaches env code s sp c { c with pc := place } :=
  ⟨⟨[c.pc], .single (Environment.step_of_flow h)⟩, ⟨fun _ _ => rfl, fun _ _ => rfl, rfl⟩⟩

theorem reaches_jump {l : String} (hi : code[c.pc]? = some (.jal .zero l)) :
    Reaches env code s sp c { c with pc := target code l } := reaches_goto (flow_of_jump hi)

theorem reaches_label {l : String} (hi : code[c.pc]? = some (.label l)) :
    Reaches env code s sp c { c with pc := c.pc + 1 } :=
  reaches_goto (flow_of_effect hi rfl)

/-- A step that puts a word into a register that was not handed out before. -/
theorem reaches_put {i : Instr} {w : Val} (hi : code[c.pc]? = some i) (hsp : i.dest ≠ .sp)
    (hdest : ∀ n < s.regs, i.dest ≠ .virtual n)
    (h : i.effect env.sym c.regs.get c.mem = some (some w, c.mem)) :
    Reaches env code s sp c { c with pc := c.pc + 1, regs := c.regs.put i.dest (some w) } := by
  refine ⟨⟨[c.pc], .single (Environment.step_of_flow (flow_of_effect hi h))⟩, fun n hn => ?_,
    fun _ _ => rfl, ?_⟩
  · show c.regs.put i.dest (some w) (.virtual n) = _
    exact Regs.put_of_ne (hdest n hn).symm _
  · show c.regs.put i.dest (some w) .sp = _
    exact Regs.put_of_ne hsp.symm _

/-- A step that puts a word into a new virtual register. -/
theorem reaches_new {i : Instr} {n : Nat} {w : Val} (hi : code[c.pc]? = some i)
    (hdest : i.dest = .virtual n) (hn : s.regs ≤ n)
    (h : i.effect env.sym c.regs.get c.mem = some (some w, c.mem)) :
    Reaches env code s sp c { c with
      pc := c.pc + 1, regs := c.regs.put (.virtual n) (some w) } := by
  rw [← hdest]
  refine reaches_put hi ?_ ?_ h
  · rw [hdest]
    exact Reg.virtual_ne_sp n
  · intro k hk heq
    rw [hdest] at heq
    have : Reg.machineCount + n = Reg.machineCount + k := congrArg Reg.number heq
    omega

theorem get_virtual (f : Regs) (n : Nat) : f.get (.virtual n) = f (.virtual n) :=
  Regs.get_of_ne_zero (Placement.ne_zero_of_isVirtual (Reg.isVirtual_virtual n)) f

theorem FreshReg.get {r : Reg} (h : FreshReg s s' r) (f : Regs) : f.get r = f r := by
  obtain ⟨n, -, -, rfl⟩ := h
  exact get_virtual f n

theorem Undisturbed.fresh {r : Reg} {t : Supply} (h : Undisturbed s' sp c c')
    (hr : FreshReg t s' r) : c'.regs r = c.regs r := by
  obtain ⟨n, -, hn, rfl⟩ := hr
  exact h.regs n hn

end

/-! ### Operators -/

theorem ult_one (x y : Val) : (x - y).ult 1 = (x == y) := by
  rw [Bool.eq_iff_iff, BitVec.ult, decide_eq_true_eq, beq_iff_eq]
  constructor
  · intro h
    have hzero : x - y = 0 := BitVec.eq_of_toNat_eq (by simpa using h)
    exact sub_eq_zero.1 hzero
  · rintro rfl
    simp

theorem zero_ult (x y : Val) : BitVec.ult 0 (x - y) = (x != y) := by
  rw [Bool.eq_iff_iff, BitVec.ult, decide_eq_true_eq, bne_iff_ne]
  constructor
  · rintro h rfl
    simp at h
  · intro hne
    have hsub : x - y ≠ 0 := fun h => hne (sub_eq_zero.1 h)
    have : (x - y).toNat ≠ 0 := fun h => hsub (BitVec.eq_of_toNat_eq (by simpa using h))
    simpa using Nat.pos_of_ne_zero this

theorem xor_one (x y : Val) : ofBool (x.slt y) ^^^ 1 = ofBool (y.sle x) := by
  rw [BitVec.sle_eq_not_slt]
  cases x.slt y <;> rfl

/-- The code of an operator computes it. -/
theorem run_operator {env : Environment} {code frag : Listing} {s s' : Supply} {sp : Val}
    {op : Operator} {a b r : Reg} {x y v : Val} {c : Config}
    (h : Gives (operator op a b) s (frag, r) s') (hat : At code c.pc frag) (ha : FreshReg {} s a)
    (hb : FreshReg {} s b) (hx : c.regs a = some x) (hy : c.regs b = some y)
    (hv : op.eval x y = some v) :
    ∃ c', Reaches env code s sp c c' ∧ c'.pc = c.pc + frag.length ∧ c'.regs r = some v := by
  obtain ⟨rfl, hcode⟩ := gives_operator h
  have gx : c.regs.get a = some x := by rw [ha.get, hx]
  have gy : c.regs.get b = some y := by rw [hb.get, hy]
  have one : ∀ {i : Instr} {w : Val}, frag = [i] → i.dest = .virtual s.regs →
      i.effect env.sym c.regs.get c.mem = some (some w, c.mem) → w = v →
      ∃ c', Reaches env code s sp c c' ∧ c'.pc = c.pc + frag.length ∧
        c'.regs (.virtual s.regs) = some v := by
    rintro i w rfl hdest heffect rfl
    refine ⟨_, reaches_new (At.head hat).1 hdest (Nat.le_refl _) heffect, rfl, ?_⟩
    show c.regs.put _ (some w) _ = _
    rw [Regs.put_some, if_pos rfl]
  have two : ∀ {i j : Instr} {t w : Val}, frag = [i, j] → i.dest = .virtual (s.regs + 1) →
      j.dest = .virtual s.regs → i.effect env.sym c.regs.get c.mem = some (some t, c.mem) →
      (∀ f : Reg → Option Val, f (.virtual (s.regs + 1)) = some t → f .zero = some 0 →
        j.effect env.sym f c.mem = some (some w, c.mem)) → w = v →
      ∃ c', Reaches env code s sp c c' ∧ c'.pc = c.pc + frag.length ∧
        c'.regs (.virtual s.regs) = some v := by
    rintro i j t w rfl hi hj heffect hnext rfl
    obtain ⟨hati, hatj⟩ := At.head hat
    refine ⟨_, (reaches_new hati hi (Nat.le_succ _) heffect).trans
      (reaches_new (At.head hatj).1 hj (Nat.le_refl _) (hnext _ ?_ rfl)), rfl, ?_⟩
    · rw [get_virtual]
      show c.regs.put _ (some t) _ = _
      rw [Regs.put_some, if_pos rfl]
    · show Regs.put _ _ (some w) _ = _
      rw [Regs.put_some, if_pos rfl]
  rcases hcode with ⟨hop, rfl, -⟩ | ⟨hop, rfl, -⟩
  · cases op <;> first | (cases hop; done) | skip
    · refine two rfl rfl rfl (by rw [Instr.effect, gx, gy]; rfl)
        (fun f ht _ => by rw [Instr.effect, ht]; rfl) ?_
      exact (congrArg ofBool (ult_one x y)).trans (Option.some.inj hv)
    · refine two rfl rfl rfl (by rw [Instr.effect, gx, gy]; rfl)
        (fun f ht hz => by rw [Instr.effect, ht, hz]; rfl) ?_
      exact (congrArg ofBool (zero_ult x y)).trans (Option.some.inj hv)
    · refine two rfl rfl rfl (by rw [Instr.effect, gy, gx]; rfl)
        (fun f ht _ => by rw [Instr.effect, ht]; rfl) ?_
      exact (xor_one y x).trans (Option.some.inj hv)
    · refine two rfl rfl rfl (by rw [Instr.effect, gx, gy]; rfl)
        (fun f ht _ => by rw [Instr.effect, ht]; rfl) ?_
      exact (xor_one x y).trans (Option.some.inj hv)
  · cases op <;> first | (cases hop; done) | (cases hv; done) |
      exact one rfl rfl (by rw [Instr.effect, gx, gy]; rfl) (Option.some.inj hv)

/-! ### Expressions -/

/-- A listing in an environment whose calls compute what `call` says. -/
structure Hosts (call : String → List Val → Option Val) (lc : LowerContext) (env : Environment)
    (code : Listing) : Prop where
  distinct : code.Distinct
  calls : ∀ name l vs v, lc.functionLabel? name = some l → call name vs = some v →
    vs.length ≤ Reg.argCount → ∀ n f m, (∀ i w, vs[i]? = some w → f (.arg i) = some w) →
      ∃ out, env.callee n l f m = some out ∧ out.1 .a0 = some v ∧ out.2 = m

/-- A machine at a place with the values of variables in their words. -/
structure Ready (sp : Val) (slots : Slots) (σ : Store) (place : Nat) (c : Config) : Prop where
  pc : c.pc = place
  stack : c.regs .sp = some sp
  holds : Holds sp slots σ c.mem

theorem Ready.after {sp : Val} {slots : Slots} {σ : Store} {place place' : Nat} {s : Supply}
    {c c' : Config} (h : Ready sp slots σ place c) (hknown : Known slots s.slots)
    (hu : Undisturbed s sp c c') (hpc : c'.pc = place') : Ready sp slots σ place' c' :=
  ⟨hpc, hu.stack.trans h.stack, h.holds.undisturbed hknown hu⟩

section

variable {call : String → List Val → Option Val} {lc : LowerContext} {env : Environment}
  {code frag : Listing} {sp : Val} {slots : Slots} {σ : Store} {depth place : Nat} {s s' : Supply}
  {r : Reg} {v : Val} {c : Config}

/-- The value of an expression gets into a register, and the machine goes on after the code. -/
def Computes (env : Environment) (code : Listing) (sp : Val) (s : Supply) (c : Config) (place : Nat)
    (r : Reg) (v : Val) : Prop :=
  ∃ c', Reaches env code s sp c c' ∧ c'.pc = place ∧ c'.regs r = some v

theorem computes_put {i : Instr} {n : Nat} (hi : code[c.pc]? = some i) (hdest : i.dest = .virtual n)
    (hn : s.regs ≤ n) (h : i.effect env.sym c.regs.get c.mem = some (some v, c.mem)) :
    Computes env code sp s c (c.pc + 1) (.virtual n) v := by
  refine ⟨_, reaches_new hi hdest hn h, rfl, ?_⟩
  show c.regs.put _ (some v) _ = _
  rw [Regs.put_some, if_pos rfl]

theorem eval_literal {x : Expr} {n : Int32} (h : literal? x = some n) :
    evalExpr call σ x = some n.toBitVec := by
  cases x with
  | uint loc u =>
    obtain rfl := Option.some.inj h
    rw [evalExpr]
    congr 1
    exact (BitVec.ofNat_toNat 32 u.toBitVec).symm
  | int loc n =>
    obtain rfl := Option.some.inj h
    rw [evalExpr]
  | bool loc b =>
    obtain rfl := Option.some.inj h
    rw [evalExpr]
    cases b <;> rfl
  | eraser loc =>
    obtain rfl := Option.some.inj h
    rw [evalExpr]
    rfl
  | _ => cases h

/-- The statement of `run_expr` for one expression. -/
def ComputesWell (call : String → List Val → Option Val) (lc : LowerContext) (env : Environment)
    (code : Listing) (sp : Val) (x : Expr) : Prop :=
  ∀ (slots : Slots) (depth : Nat) (s s' : Supply) (frag : Listing) (r : Reg) (σ : Store) (v : Val)
    (place : Nat) (c : Config),
    Known slots s.slots → s'.slots ≤ maxSlots → Gives (lowerExpr lc slots depth x) s (frag, r) s' →
      At code place frag → Ready sp slots σ place c → evalExpr call σ x = some v →
      Computes env code sp s c (place + frag.length) r v

theorem run_literal {x : Expr} {n : Int32} (hx : literal? x = some n)
    (h : Gives (lowerExpr lc slots depth x) s (frag, r) s') (hat : At code place frag)
    (hc : Ready sp slots σ place c) (hv : evalExpr call σ x = some v) :
    Computes env code sp s c (place + frag.length) r v := by
  obtain ⟨rfl, rfl, rfl⟩ := gives_literal hx h
  rw [eval_literal hx] at hv
  obtain rfl := Option.some.inj hv
  rw [← hc.pc] at hat ⊢
  exact computes_put (At.head hat).1 rfl (Nat.le_refl _) rfl

theorem run_var {loc : Location} {name : String}
    (h : Gives (lowerExpr lc slots depth (.var loc name)) s (frag, r) s') (hat : At code place frag)
    (hc : Ready sp slots σ place c) (hv : evalExpr call σ (.var loc name) = some v) :
    Computes env code sp s c (place + frag.length) r v := by
  obtain ⟨rfl, rfl, hcode⟩ := gives_var h
  rw [evalExpr] at hv
  obtain ⟨o, ho, hw⟩ := hc.holds name v hv
  have hsp : c.regs.get .sp = some sp := hc.stack
  rcases hcode with ⟨o', ho', rfl⟩ | ⟨hnone, -⟩
  · obtain rfl : o = o' := by rw [ho] at ho'; exact Option.some.inj ho'
    rw [← hc.pc] at hat ⊢
    refine computes_put (At.head hat).1 rfl (Nat.le_refl _) ?_
    rw [Instr.effect, hsp, ← hw]
    rfl
  · rw [ho] at hnone
    cases hnone

theorem run_binOp {loc : Location} {op : Operator} {x y : Expr}
    (ihx : ComputesWell call lc env code sp x) (ihy : ComputesWell call lc env code sp y)
    (hknown : Known slots s.slots) (hmax : s'.slots ≤ maxSlots)
    (h : Gives (lowerExpr lc slots depth (.binOp loc op x y)) s (frag, r) s')
    (hat : At code place frag) (hc : Ready sp slots σ place c)
    (hv : evalExpr call σ (.binOp loc op x y) = some v) :
    Computes env code sp s c (place + frag.length) r v := by
  obtain ⟨-, xc, xr, s₁, yc, yr, s₂, oc, hx, hy, ho, rfl⟩ := gives_binOp h
  rw [evalExpr] at hv
  obtain ⟨xv, hxv, hv⟩ := Option.bind_eq_some_iff.1 hv
  obtain ⟨yv, hyv, hv⟩ := Option.bind_eq_some_iff.1 hv
  have sx := shape_expr x lc slots _ s xc xr s₁ hknown hx
  have hknown₁ := hknown.mono sx.later.slots
  have sy := shape_expr y lc slots _ s₁ yc yr s₂ hknown₁ hy
  have so := shape_operator sx.fresh.isLowered sy.fresh.isLowered ho
  obtain ⟨hatxy, hato⟩ := At.append hat
  obtain ⟨hatx, haty⟩ := At.append hatxy
  obtain ⟨c₁, hr₁, hpc₁, hreg₁⟩ :=
    ihx slots _ s s₁ xc xr σ xv place c hknown (sy.later.slots.trans (so.later.slots.trans hmax))
      hx hatx hc hxv
  obtain ⟨c₂, hr₂, hpc₂, hreg₂⟩ :=
    ihy slots _ s₁ s₂ yc yr σ yv _ c₁ hknown₁ (so.later.slots.trans hmax) hy haty
      (hc.after hknown hr₁.2 hpc₁) hyv
  rw [List.length_append, ← Nat.add_assoc, ← hpc₂] at hato
  obtain ⟨c₃, hr₃, hpc₃, hreg₃⟩ :=
    run_operator ho hato (sx.fresh.mono (Nat.zero_le _) sy.later.regs)
      (sy.fresh.mono (Nat.zero_le _) (Nat.le_refl _)) ((hr₂.2.fresh sx.fresh).trans hreg₁) hreg₂ hv
  refine ⟨c₃, hr₁.trans ((hr₂.since sx.later).trans (hr₃.since (sx.later.trans sy.later))),
    ?_, hreg₃⟩
  rw [hpc₃, hpc₂, List.length_append, List.length_append]
  omega

/-- Virtual registers hold the words of a list. -/
def Carried (c : Config) (rs : List Reg) (vs : List Val) : Prop :=
  List.Forall₂ (fun r v => r.isVirtual = true ∧ c.regs r = some v) rs vs

theorem run_args {xs : List Expr} (ih : ∀ x ∈ xs, ComputesWell call lc env code sp x)
    {rs : List Reg} {vs : List Val} (hknown : Known slots s.slots) (hmax : s'.slots ≤ maxSlots)
    (h : Gives (lowerArgs lc slots depth xs) s (frag, rs) s') (hat : At code place frag)
    (hc : Ready sp slots σ place c) (hv : evalArgs call σ xs = some vs) :
    ∃ c', Reaches env code s sp c c' ∧ c'.pc = place + frag.length ∧ Carried c' rs vs := by
  induction xs generalizing s frag rs vs place c with
  | nil =>
    obtain ⟨rfl, rfl, rfl⟩ := gives_args_nil h
    rw [evalArgs] at hv
    obtain rfl := Option.some.inj hv
    exact ⟨c, .refl c, hc.pc, .nil⟩
  | cons x xs ihxs =>
    obtain ⟨xc, xr, s₁, rest, rs', hx, hrest, rfl, rfl⟩ := gives_args_cons h
    rw [evalArgs] at hv
    obtain ⟨xv, hxv, hv⟩ := Option.bind_eq_some_iff.1 hv
    obtain ⟨vs', hvs', rfl⟩ := Option.map_eq_some_iff.1 hv
    have sx := shape_expr x lc slots depth s xc xr s₁ hknown hx
    have hknown₁ := hknown.mono sx.later.slots
    obtain ⟨hlater, -, -, -⟩ := shape_args (fun y _ => shape_expr y) hknown₁ hrest
    obtain ⟨hatx, hatr⟩ := At.append hat
    obtain ⟨c₁, hr₁, hpc₁, hreg₁⟩ :=
      ih x List.mem_cons_self slots depth s s₁ xc xr σ xv place c hknown (hlater.slots.trans hmax)
        hx hatx hc hxv
    obtain ⟨c₂, hr₂, hpc₂, hregs₂⟩ :=
      ihxs (fun y hy => ih y (List.mem_cons_of_mem x hy)) hknown₁ hrest hatr
        (hc.after hknown hr₁.2 hpc₁) hvs'
    refine ⟨c₂, hr₁.trans (hr₂.since sx.later), ?_,
      .cons ⟨?_, (hr₂.2.fresh sx.fresh).trans hreg₁⟩ hregs₂⟩
    · rw [hpc₂, List.length_append, Nat.add_assoc]
    · obtain ⟨n, -, -, rfl⟩ := sx.fresh
      exact Reg.isVirtual_virtual n

theorem arg_ne_virtual {k : Nat} (hk : k < Reg.argCount) {r : Reg} (hr : r.isVirtual = true) :
    r ≠ .arg k := by
  rintro rfl
  have h : Reg.machineCount ≤ 10 + k := of_decide_eq_true hr
  unfold Reg.machineCount at h
  unfold Reg.argCount at hk
  omega

theorem arg_ne_sp (k : Nat) : Reg.arg k ≠ .sp := by
  intro h
  have : 10 + k = 2 := congrArg Reg.number h
  omega

theorem arg_inj {j k : Nat} (h : Reg.arg j = .arg k) : j = k := by
  have : 10 + j = 10 + k := congrArg Reg.number h
  omega

/-- The registers of arguments get the words. -/
theorem run_passArgs {rs : List Reg} {vs : List Val} {i : Nat}
    (hcount : i + rs.length ≤ Reg.argCount) (hat : At code c.pc (passArgs i rs))
    (hcarried : Carried c rs vs) :
    ∃ c', Reaches env code s sp c c' ∧ c'.pc = c.pc + (passArgs i rs).length ∧
      (∀ k < i, c'.regs (.arg k) = c.regs (.arg k)) ∧
      ∀ k w, vs[k]? = some w → c'.regs (.arg (i + k)) = some w := by
  induction rs generalizing i c vs with
  | nil =>
    obtain rfl := List.forall₂_nil_left_iff.1 hcarried
    exact ⟨c, .refl c, rfl, fun _ _ => rfl, by simp⟩
  | cons r rs ih =>
    obtain ⟨v, vs, hr, hrest, rfl⟩ := List.forall₂_cons_left_iff.1 hcarried
    rw [List.length_cons] at hcount
    obtain ⟨hi, hat'⟩ := At.head hat
    have heffect : (Instr.mv (.arg i) r).effect env.sym c.regs.get c.mem =
      some (some v, c.mem) := by
      rw [Instr.effect, Regs.get_of_ne_zero (Placement.ne_zero_of_isVirtual hr.1), hr.2]
      rfl
    have hreach : Reaches env code s sp c { c with
      pc := c.pc + 1, regs := c.regs.put (.arg i) (some v) } :=
      reaches_put hi (arg_ne_sp i)
        (fun n _ => (arg_ne_virtual (by omega) (Reg.isVirtual_virtual n)).symm) heffect
    have hcarried' : Carried { c with pc := c.pc + 1, regs := c.regs.put (.arg i) (some v) }
      rs vs := by
      refine hrest.imp fun q w hq => ⟨hq.1, ?_⟩
      show c.regs.put (.arg i) (some v) q = some w
      rw [Regs.put_of_ne (arg_ne_virtual (by omega) hq.1), hq.2]
    obtain ⟨c', hr', hpc', hbelow, hregs⟩ := ih (i := i + 1) (by omega) hat' hcarried'
    refine ⟨c', hreach.trans hr', ?_, ?_, ?_⟩
    · rw [hpc', passArgs, List.length_cons]
      show c.pc + 1 + _ = _
      omega
    · intro k hk
      rw [hbelow k (by omega)]
      show c.regs.put (.arg i) (some v) (.arg k) = _
      refine Regs.put_of_ne (fun h => ?_) _
      have := arg_inj h
      omega
    · intro k w hk
      cases k with
      | zero =>
        obtain rfl : v = w := by simpa using hk
        rw [Nat.add_zero, hbelow i (by omega)]
        show c.regs.put (.arg i) (some v) (.arg i) = _
        rw [Regs.put_some, if_pos rfl]
      | succ k =>
        rw [← hregs k w (by simpa using hk)]
        congr 2
        omega

theorem length_evalArgs {xs : List Expr} {vs : List Val} (h : evalArgs call σ xs = some vs) :
    vs.length = xs.length := by
  induction xs generalizing vs with
  | nil =>
    rw [evalArgs] at h
    obtain rfl := Option.some.inj h
    rfl
  | cons x xs ih =>
    rw [evalArgs] at h
    obtain ⟨xv, -, h⟩ := Option.bind_eq_some_iff.1 h
    obtain ⟨vs', hvs', rfl⟩ := Option.map_eq_some_iff.1 h
    rw [List.length_cons, List.length_cons, ih hvs']

theorem run_call {loc : Location} {f : Expr} {args : List Expr} {named : List NamedArg}
    (host : Hosts call lc env code) (ih : ∀ x ∈ args, ComputesWell call lc env code sp x)
    (hknown : Known slots s.slots) (hmax : s'.slots ≤ maxSlots)
    (h : Gives (lowerExpr lc slots depth (.call loc f args named)) s (frag, r) s')
    (hat : At code place frag) (hc : Ready sp slots σ place c)
    (hv : evalExpr call σ (.call loc f args named) = some v) :
    Computes env code sp s c (place + frag.length) r v := by
  obtain ⟨rfl, hcount, vloc, name, l, ac, rs, s₁, rfl, -, hl, ha, rfl, rfl, rfl⟩ := gives_call h
  rw [evalExpr] at hv
  obtain ⟨vs, hvs, hv⟩ := Option.bind_eq_some_iff.1 hv
  obtain ⟨hlater, hlen, -, -⟩ := shape_args (fun y _ => shape_expr y) hknown ha
  obtain ⟨hatap, hatcall⟩ := At.append hat
  obtain ⟨hata, hatp⟩ := At.append hatap
  obtain ⟨c₁, hr₁, hpc₁, hregs₁⟩ :=
    run_args ih hknown (show s₁.slots ≤ maxSlots from hmax) ha hata hc hvs
  rw [← hpc₁] at hatp
  obtain ⟨c₂, hr₂, hpc₂, -, hregs₂⟩ := run_passArgs (by omega) hatp hregs₁
  rw [List.length_append, ← Nat.add_assoc, ← hpc₁, ← hpc₂] at hatcall
  obtain ⟨hcall, hatmv⟩ := At.head hatcall
  obtain ⟨out, hout, ha0, hmem⟩ :=
    host.calls name l vs v hl hv (by rw [length_evalArgs hvs]; exact hcount) c₂.calls
      (Environment.visible c₂.regs) c₂.mem (by
      intro k w hk
      have hlt : k < Reg.argCount := by
        have := (List.getElem?_eq_some_iff.1 hk).1
        rw [length_evalArgs hvs] at this
        omega
      have harg : (Reg.arg k).isArg = true := by
        have key : ∀ k < Reg.argCount, (Reg.arg k).isArg = true := by decide
        exact key k hlt
      rw [Environment.visible, if_pos (.inr harg), ← hregs₂ k w hk, Nat.zero_add])
  have hstep : env.step code c₂ = some (env.afterCall c₂ out) := by
    rw [Environment.step_of_call hcall, Environment.call, hout]
    rfl
  have hr₃ : Reaches env code s sp c₂ (env.afterCall c₂ out) := by
    refine ⟨⟨_, .single hstep⟩, fun n _ => ?_, fun n _ => ?_, ?_⟩
    · exact Placement.afterCall_regs_of_kept (Placement.kept_of_isVirtual (Reg.isVirtual_virtual n))
    · show slotWord sp out.2 n = _
      rw [hmem]
    · exact Placement.afterCall_regs_of_kept ⟨by decide, rfl⟩
  have heffect : (Instr.mv (.virtual s₁.regs) .a0).effect env.sym (env.afterCall c₂ out).regs.get
    (env.afterCall c₂ out).mem =
      some (some v, (env.afterCall c₂ out).mem) := by
    have hget : (env.afterCall c₂ out).regs.get .a0 = some v := ha0
    rw [Instr.effect, hget]
    rfl
  obtain ⟨c₄, hr₄, hpc₄, hreg₄⟩ : Computes env code sp s (env.afterCall c₂ out)
    ((env.afterCall c₂ out).pc + 1) _ v :=
    computes_put (At.head hatmv).1 rfl hlater.regs heffect
  refine ⟨c₄, hr₁.trans (hr₂.trans (hr₃.trans hr₄)), ?_, hreg₄⟩
  rw [hpc₄]
  show c₂.pc + 1 + 1 = _
  rw [hpc₂, hpc₁]
  simp only [List.length_append, List.length_cons, List.length_nil]
  omega

/-- What stands where in the code of a choice. -/
theorem choice_at {x : Reg} {t e : Listing} (h : At code place (choice x s t e)) :
    code[place]? = some (.branch .bne x .zero (thenLabel s)) ∧
      code[place + 1]? = some (.jal .zero (elseLabel s)) ∧
      code[place + 2]? = some (.label (thenLabel s)) ∧ At code (place + 3) t ∧
      code[place + 3 + t.length]? = some (.jal .zero (endLabel s)) ∧
      code[place + 3 + t.length + 1]? = some (.label (elseLabel s)) ∧
      At code (place + 3 + t.length + 2) e ∧
      code[place + 3 + t.length + 2 + e.length]? = some (.label (endLabel s)) := by
  obtain ⟨h, hlast⟩ := At.append h
  obtain ⟨h, he⟩ := At.append h
  obtain ⟨h, hmid⟩ := At.append h
  obtain ⟨hchoose, ht⟩ := At.append h
  obtain ⟨h₀, hchoose⟩ := At.head hchoose
  obtain ⟨h₁, hchoose⟩ := At.head hchoose
  obtain ⟨h₂, -⟩ := At.head hchoose
  simp only [List.length_append, List.length_cons, List.length_nil, choose, Nat.zero_add,
    ← Nat.add_assoc] at hmid he hlast
  obtain ⟨h₃, hmid⟩ := At.head hmid
  obtain ⟨h₄, -⟩ := At.head hmid
  exact ⟨h₀, h₁, h₂, ht, h₃, h₄, he, (At.head hlast).1⟩

theorem length_choice (x : Reg) (s : Supply) (t e : Listing) :
    (choice x s t e).length = 3 + t.length + 2 + e.length + 1 := by
  simp [choice, choose]
  omega

/-- A choice goes to its first arm or to its second. -/
theorem reaches_arm {s₀ : Supply} {x : Reg} {t e : Listing} {w : Val} (hdistinct : code.Distinct)
    (h : At code c.pc (choice x s t e)) (hx : c.regs.get x = some w) :
    Reaches env code s₀ sp c { c with
      pc := if w ≠ 0 then c.pc + 3 else c.pc + 3 + t.length + 2 } := by
  obtain ⟨h₀, h₁, h₂, -, -, h₄, -, -⟩ := choice_at h
  have hbranch := flow_of_branch env.sym h₀ hx (Regs.get_zero c.regs)
  rw [hdistinct.target h₂] at hbranch
  by_cases hw : w = 0
  · subst hw
    have hjump : Reaches env code s₀ sp { c with pc := c.pc + 1 } { c with
      pc := target code (elseLabel s) } := reaches_jump h₁
    rw [hdistinct.target h₄] at hjump
    exact (reaches_goto hbranch).trans (hjump.trans (reaches_label h₄))
  · have hholds : BranchOp.bne.holds w 0 = true := bne_iff_ne.2 hw
    rw [hholds, if_pos rfl] at hbranch
    rw [if_pos hw]
    exact (reaches_goto hbranch).trans (reaches_label h₂)

/-- Both arms of a choice lead to its end. -/
theorem reaches_join {s₀ : Supply} {x : Reg} {t e : Listing} (hdistinct : code.Distinct)
    (h : At code place (choice x s t e))
    (hpc : c.pc = place + 3 + t.length ∨ c.pc = place + 3 + t.length + 2 + e.length) :
    Reaches env code s₀ sp c { c with pc := place + (choice x s t e).length } := by
  obtain ⟨-, -, -, -, h₃, -, -, h₅⟩ := choice_at h
  have hend : place + (choice x s t e).length = place + 3 + t.length + 2 + e.length + 1 := by
    rw [length_choice]
    omega
  rw [hend]
  rcases hpc with hpc | hpc
  · rw [← hpc] at h₃
    have hjump : Reaches env code s₀ sp c { c with pc := target code (endLabel s) } :=
      reaches_jump h₃
    rw [hdistinct.target h₅] at hjump
    exact hjump.trans (reaches_label h₅)
  · rw [← hpc] at h₅ ⊢
    exact reaches_label h₅

theorem Computes.mono (h : Computes env code sp s' c place r v) (hr : s.regs ≤ s'.regs)
    (hs : s.slots ≤ s'.slots) : Computes env code sp s c place r v := by
  obtain ⟨c', hr', h'⟩ := h
  exact ⟨c', hr'.mono hr hs, h'⟩

/-- A word that was computed is moved to a register that was handed out after `s`. -/
theorem Computes.move {c₀ : Config} {n : Nat} (h : Computes env code sp s c₀ place r v)
    (hr : r.isVirtual = true) (hi : code[place]? = some (.mv (.virtual n) r)) (hn : s.regs ≤ n) :
    Computes env code sp s c₀ (place + 1) (.virtual n) v := by
  obtain ⟨c₁, hr₁, rfl, hreg₁⟩ := h
  have heffect : (Instr.mv (.virtual n) r).effect env.sym c₁.regs.get c₁.mem =
    some (some v, c₁.mem) := by
    rw [Instr.effect, Regs.get_of_ne_zero (Placement.ne_zero_of_isVirtual hr), hreg₁]
    rfl
  obtain ⟨c₂, hr₂, hpc₂, hreg₂⟩ : Computes env code sp s c₁ (c₁.pc + 1) (.virtual n) v :=
    computes_put hi rfl hn heffect
  exact ⟨c₂, hr₁.trans hr₂, hpc₂, hreg₂⟩

theorem FreshReg.isVirtual (h : FreshReg s s' r) : r.isVirtual = true := by
  obtain ⟨n, -, -, rfl⟩ := h
  exact Reg.isVirtual_virtual n

theorem run_ifElse {loc : Location} {x t e : Expr} (host : Hosts call lc env code)
    (ihx : ComputesWell call lc env code sp x) (iht : ComputesWell call lc env code sp t)
    (ihe : ComputesWell call lc env code sp e) (hknown : Known slots s.slots)
    (hmax : s'.slots ≤ maxSlots) (h : Gives (lowerExpr lc slots depth (.ifElse loc x t e)) s (frag,
      r) s') (hat : At code place frag) (hc : Ready sp slots σ place c)
    (hv : evalExpr call σ (.ifElse loc x t e) = some v) :
    Computes env code sp s c (place + frag.length) r v := by
  obtain ⟨xc, xr, s₁, tc, tr, s₂, ec, er, hx, ht, he, rfl, rfl⟩ := gives_ifElse h
  rw [evalExpr] at hv
  obtain ⟨xv, hxv, hv⟩ := Option.bind_eq_some_iff.1 hv
  have sx := shape_expr x lc slots _ s xc xr s₁ hknown hx
  have hknown₁ := hknown.mono sx.later.slots
  have st := shape_expr t lc slots _ (afterChoice { s₁ with regs := s₁.regs + 1 }) tc
    tr s₂ hknown₁ ht
  have hlater₁ : Later s₁ s₂ :=
    st.later.since (Nat.le_add_right _ 3) (Nat.le_succ _) (Nat.le_refl _)
  have se := shape_expr e lc slots _ s₂ ec er s' (hknown₁.mono hlater₁.slots) he
  obtain ⟨hatx, hatc⟩ := At.append hat
  obtain ⟨c₁, hr₁, hpc₁, hreg₁⟩ := ihx slots _ s s₁ xc xr σ xv place c hknown
    (hlater₁.slots.trans (se.later.slots.trans hmax)) hx hatx hc hxv
  have hready := hc.after hknown hr₁.2 hpc₁
  rw [← hpc₁] at hatc
  have harm : Reaches env code s₁ sp c₁ _ :=
    reaches_arm host.distinct hatc ((sx.fresh.get c₁.regs).trans hreg₁)
  obtain ⟨-, -, -, hatt, -, -, hate, -⟩ := choice_at hatc
  -- Whichever arm is taken, its value ends up in the register of the choice, and the machine at
  -- the end of the arm.
  obtain ⟨c₂, hr₂, hpc₂, hreg₂⟩ : ∃ c₂, Reaches env code s₁ sp c₁ c₂ ∧
      (c₂.pc = c₁.pc + 3 + (tc ++ [Instr.mv (.virtual s₁.regs) tr]).length ∨
        c₂.pc = c₁.pc + 3 + (tc ++ [Instr.mv (.virtual s₁.regs) tr]).length + 2 +
          (ec ++ [Instr.mv (.virtual s₁.regs) er]).length) ∧
      c₂.regs (.virtual s₁.regs) = some v := by
    split at hv
    · next hne =>
      rw [if_pos hne] at harm
      obtain ⟨hatt, hmv⟩ := At.append hatt
      have hcomp :=
        iht slots _ (afterChoice { s₁ with regs := s₁.regs + 1 }) s₂ tc tr σ v _ _ hknown₁
          (se.later.slots.trans hmax) ht hatt (hready.after hknown₁ harm.2 rfl) hv
      have hcomp₁ : Computes env code sp s₁ _ _ tr v := hcomp.mono (Nat.le_succ _) (Nat.le_refl _)
      obtain ⟨c₂, hr₂, hpc₂, hreg₂⟩ :=
        hcomp₁.move st.fresh.isVirtual (At.head hmv).1 (Nat.le_refl _)
      refine ⟨c₂, harm.trans hr₂, .inl ?_, hreg₂⟩
      rw [hpc₂, List.length_append]
      rfl
    · next heq =>
      rw [if_neg heq] at harm
      obtain ⟨hate, hmv⟩ := At.append hate
      have hcomp := ihe slots _ s₂ s' ec er σ v _ _ (hknown₁.mono hlater₁.slots) hmax he hate
        (hready.after hknown₁ harm.2 rfl) hv
      have hcomp₁ : Computes env code sp s₁ _ _ er v := hcomp.mono hlater₁.regs hlater₁.slots
      obtain ⟨c₂, hr₂, hpc₂, hreg₂⟩ :=
        hcomp₁.move se.fresh.isVirtual (At.head hmv).1 (Nat.le_refl _)
      refine ⟨c₂, harm.trans hr₂, .inr ?_, hreg₂⟩
      rw [hpc₂, List.length_append, List.length_append]
      rfl
  have hjoin : Reaches env code s₁ sp c₂ _ := reaches_join host.distinct hatc hpc₂
  refine ⟨_, hr₁.trans ((hr₂.trans hjoin).since sx.later), ?_, hreg₂⟩
  show c₁.pc + _ = _
  rw [hpc₁, List.length_append, Nat.add_assoc]

theorem Computes.after {c₁ : Config} (h : Computes env code sp s c₁ place r v)
    (h₀ : Reaches env code s sp c c₁) : Computes env code sp s c place r v := by
  obtain ⟨c₂, hr₂, h₂⟩ := h
  exact ⟨c₂, h₀.trans hr₂, h₂⟩

/-- The values of variables if a word fits a pattern. -/
def fit (call : String → List Val → Option Val) (σ : Store) (w : Val) :
    Pattern → Option (Option Store)
  | .lit _ y => (evalExpr call σ y).map fun u => if w = u then some σ else none
  | .var _ name => some (some (σ.set name w))
  | .wild _ => some (some σ)
  | .cons .. | .tuple .. | .missing => none

theorem evalCases_cons (loc : Location) (pattern : Pattern) (body : Expr) (rest : List Case)
    (w : Val) : evalCases call σ w (.mk loc pattern body :: rest) =
      (fit call σ w pattern).bind fun o =>
        o.elim (evalCases call σ w rest) fun σ' => evalExpr call σ' body := by
  cases pattern with
  | lit ploc y =>
    rw [evalCases, fit, Option.bind_map]
    congr 1
    funext u
    simp only [Function.comp]
    split <;> rfl
  | _ =>
    rw [evalCases, fit]
    rfl

/-- The code of a pattern goes on if a word fits it, and to the next arm if it does not. -/
theorem run_pattern {x : Reg} {w : Val} {next : String} {pattern : Pattern} {inner : Slots}
    {o : Option Store} (ih : ∀ y ∈ pattern.parts, ComputesWell call lc env code sp y)
    (hx : FreshReg {} s x) (hknown : Known slots s.slots) (hmax : s'.slots ≤ maxSlots)
    (h : Gives (lowerPattern lc slots depth x next pattern) s (frag, inner) s')
    (hat : At code place frag) (hc : Ready sp slots σ place c) (hw : c.regs x = some w)
    (ho : fit call σ w pattern = some o) : ∃ c', Reaches env code s sp c c' ∧
      o.elim (c'.pc = target code next) fun σ' => Ready sp inner σ' (place + frag.length) c' := by
  rcases gives_pattern h with ⟨loc, y, yc, yr, rfl, hy, rfl, rfl⟩ | ⟨loc, name, rfl, rfl, rfl,
    rfl⟩ | ⟨loc, rfl, rfl, rfl, rfl⟩
  · rw [fit] at ho
    obtain ⟨u, hu, rfl⟩ := Option.map_eq_some_iff.1 ho
    obtain ⟨haty, hbranch⟩ := At.append hat
    have sy := shape_expr y lc inner depth s yc yr s' hknown hy
    obtain ⟨c₁, hr₁, hpc₁, hreg₁⟩ :=
      ih y List.mem_cons_self inner depth s s' yc yr σ u place c hknown hmax hy haty hc hu
    have hw₁ : c₁.regs x = some w := (hr₁.2.fresh hx).trans hw
    have hflow :=
      flow_of_branch env.sym (by rw [hpc₁]; exact (At.head hbranch).1) ((hx.get c₁.regs).trans hw₁)
        ((sy.fresh.get c₁.regs).trans hreg₁)
    have hr₂ : Reaches env code s sp c { c₁ with pc := _ } := hr₁.trans (reaches_goto hflow)
    by_cases heq : w = u
    · have hfails : BranchOp.bne.holds w u = false := by simp [BranchOp.holds, heq]
      rw [hfails, if_neg (by decide)] at hr₂
      rw [if_pos heq]
      refine ⟨_, hr₂, hc.after hknown hr₂.2 ?_⟩
      rw [List.length_append, ← Nat.add_assoc, ← hpc₁]
      rfl
    · have hholds : BranchOp.bne.holds w u = true := by simp [BranchOp.holds, heq]
      rw [hholds, if_pos rfl] at hr₂
      rw [if_neg heq]
      exact ⟨_, hr₂, rfl⟩
  · rw [fit] at ho
    obtain rfl := Option.some.inj ho
    have hsp : c.regs.get .sp = some sp := hc.stack
    have heffect : (Instr.store .sw x .sp (slotOffset s.slots)).effect env.sym c.regs.get c.mem =
        some (none, c.mem.write (sp + (slotOffset s.slots).toBitVec) 4 w) := by
      rw [Instr.effect, hx.get, hw, hsp]
      rfl
    rw [← hc.pc] at hat
    have hstep := Environment.step_of_flow (flow_of_effect (At.head hat).1 heffect)
    have hfits : s.slots < maxSlots := hmax
    refine ⟨_, ⟨⟨_, .single hstep⟩, fun _ _ => rfl, fun n hn => ?_, rfl⟩, ?_, hc.stack, ?_⟩
    · exact slotWord_write_of_ne (by omega) hfits (by omega) sp c.mem w
    · show c.pc + 1 = _
      rw [hc.pc]
      rfl
    · refine hc.holds.store (hknown.cons name) hmax (by simp) (fun y hy q hq => ?_) w
      rw [lookup_cons_name, if_neg hy, hq]
  · rw [fit] at ho
    obtain rfl := Option.some.inj ho
    exact ⟨c, .refl c, hc⟩

/-- The value of an arm ends up in the register of the match, and the machine at the
end of the match. -/
theorem run_arm {t : Supply} {n : Nat} {last next : String} {body : Expr}
    (ih : ComputesWell call lc env code sp body) (hknown : Known slots s.slots)
    (hmax : s'.slots ≤ maxSlots) (hn : t.regs ≤ n) (hr : t.regs ≤ s.regs) (hs : t.slots ≤ s.slots)
    (h : Gives (lowerExpr lc slots depth body) s (frag, r) s')
    (hat : At code place (frag ++ [Instr.mv (.virtual n) r, Instr.jal .zero last,
      Instr.label next])) (hc : Ready sp slots σ place c)
    (hv : evalExpr call σ body = some v) :
    Computes env code sp t c (target code last) (.virtual n) v := by
  obtain ⟨hatb, hmid⟩ := At.append hat
  obtain ⟨hmv, hmid⟩ := At.head hmid
  have sb := shape_expr body lc slots depth s frag r s' hknown h
  have hcomp := (ih slots depth s s' frag r σ v place c hknown hmax h hatb hc hv).mono hr hs
  obtain ⟨c₁, hr₁, hpc₁, hreg₁⟩ := hcomp.move sb.fresh.isVirtual hmv hn
  have hjump := (At.head hmid).1
  rw [← hpc₁] at hjump
  exact ⟨{ c₁ with pc := target code last }, hr₁.trans (reaches_jump hjump), rfl, hreg₁⟩

/-- The arms of a match: the value of the one that applies ends up in the register of the match, and
the machine at its end; if none applies the machine goes on after the arms. -/
theorem run_cases {t : Supply} {n : Nat} {x : Reg} {w : Val} {last : String} {cases : List Case}
    (host : Hosts call lc env code)
    (ih : ∀ k ∈ cases, ∀ y ∈ k.parts, ComputesWell call lc env code sp y) (hx : FreshReg {} s x)
    (hn : t.regs ≤ n) (hd : n < s.regs) (ht : t.slots ≤ s.slots) (hknown : Known slots s.slots)
    (hmax : s'.slots ≤ maxSlots)
    (h : Gives (lowerCases lc slots depth x (.virtual n) last cases) s frag s')
    (hat : At code place frag) (hc : Ready sp slots σ place c) (hw : c.regs x = some w)
    (hv : evalCases call σ w cases = some v) :
    Computes env code sp t c (target code last) (.virtual n) v ∨
      v = 0 ∧ ∃ c', Reaches env code t sp c c' ∧ c'.pc = place + frag.length := by
  induction cases generalizing s frag place c with
  | nil =>
    obtain ⟨rfl, rfl⟩ := gives_cases_nil h
    rw [evalCases] at hv
    exact .inr ⟨(Option.some.inj hv).symm, c, .refl c, hc.pc⟩
  | cons k rest ihrest =>
    obtain ⟨loc, pattern, body⟩ := k
    obtain ⟨test, inner, s₁, bc, br, s₂, others, hp, hb, ho, rfl⟩ := gives_cases_cons h
    have hparts := ih (.mk loc pattern body) List.mem_cons_self
    obtain ⟨hlater₁, hinner, -⟩ :=
      shape_pattern (s := { s with labels := s.labels + 1 }) (fun v _ => shape_expr v)
        hx.isLowered hknown hp
    have hregs₁ : s.regs ≤ s₁.regs := hlater₁.regs
    have hslots₁ : s.slots ≤ s₁.slots := hlater₁.slots
    have sb := shape_expr body lc inner depth s₁ bc br s₂ hinner hb
    have hregs₂ := sb.later.regs
    have hslots₂ := sb.later.slots
    obtain ⟨hlater₃, -⟩ :=
      shape_cases (fun k _ v _ => shape_expr v) hx.isLowered (by omega : n < s₂.regs)
        (hknown.mono (by omega)) ho
    have hmax₂ : s₂.slots ≤ maxSlots := hlater₃.slots.trans hmax
    rw [List.append_assoc test] at hat
    obtain ⟨hat, hato⟩ := At.append hat
    obtain ⟨hatt, hatb⟩ := At.append hat
    rw [evalCases_cons] at hv
    obtain ⟨o, hfit, hv⟩ := Option.bind_eq_some_iff.1 hv
    obtain ⟨c₁, hr₁, hend⟩ := run_pattern (s := { s with labels := s.labels + 1 })
      (fun y hy => hparts y (List.mem_append_left _ hy)) hx hknown (hslots₂.trans hmax₂) hp
      hatt hc hw hfit
    have hr₁ : Reaches env code s sp c c₁ := hr₁.mono (Nat.le_refl _) (Nat.le_refl _)
    cases o with
    | some σ' =>
      have harm :=
        run_arm (hparts body (List.mem_append_right _ List.mem_cons_self)) hinner hmax₂ hn
          (by omega) (by omega) hb hatb hend hv
      exact .inl (harm.after (hr₁.mono (by omega) ht))
    | none =>
      have hlabel := (At.head (At.head (At.head (At.append hatb).2).2).2).1
      have hend : c₁.pc = target code (caseLabel s) := hend
      rw [host.distinct.target hlabel] at hend
      rw [← hend] at hlabel
      have hr₂ := hr₁.trans (reaches_label hlabel)
      have hready := hc.after hknown hr₂.2 rfl
      have hw₂ : c₁.regs x = some w := (hr₁.2.fresh hx).trans hw
      have hplace :
        place + (test ++ (bc ++ [Instr.mv (.virtual n) br, Instr.jal .zero last,
          Instr.label (caseLabel s)])).length = c₁.pc + 1 := by
        rw [hend]
        simp only [List.length_append, List.length_cons, List.length_nil]
        omega
      rw [hplace] at hato
      have hr₃ : Reaches env code t sp c { c₁ with pc := c₁.pc + 1 } := hr₂.mono (by omega) ht
      rcases ihrest (fun k hk => ih k (List.mem_cons_of_mem _ hk))
        (hx.mono (Nat.le_refl _) (by omega)) (by omega) (by omega) (hknown.mono (by omega)) ho hato
        hready hw₂ hv with hcomp | ⟨hzero, c', hr', hpc'⟩
      · exact .inl (hcomp.after hr₃)
      · refine .inr ⟨hzero, c', hr₃.trans hr', ?_⟩
        rw [hpc', ← hplace]
        simp only [List.length_append]
        omega

theorem run_matchOn {loc : Location} {x : Expr} {cases : List Case} (host : Hosts call lc env code)
    (ihx : ComputesWell call lc env code sp x)
    (ih : ∀ k ∈ cases, ∀ y ∈ k.parts, ComputesWell call lc env code sp y)
    (hknown : Known slots s.slots) (hmax : s'.slots ≤ maxSlots)
    (h : Gives (lowerExpr lc slots depth (.matchOn loc x cases)) s (frag, r) s')
    (hat : At code place frag) (hc : Ready sp slots σ place c)
    (hv : evalExpr call σ (.matchOn loc x cases) = some v) :
    Computes env code sp s c (place + frag.length) r v := by
  obtain ⟨xc, xr, s₁, body, hx, hb, rfl, rfl⟩ := gives_matchOn h
  rw [evalExpr] at hv
  obtain ⟨w, hw, hv⟩ := Option.bind_eq_some_iff.1 hv
  have sx := shape_expr x lc slots _ s xc xr s₁ hknown hx
  have hknown₁ := hknown.mono sx.later.slots
  obtain ⟨hlater, -⟩ :=
    shape_cases (s := { s₁ with regs := s₁.regs + 1, labels := s₁.labels + 1 })
      (fun k _ v _ => shape_expr v) sx.fresh.isLowered (Nat.lt_succ_self s₁.regs) hknown₁ hb
  rw [List.append_assoc] at hat
  obtain ⟨hatx, hat⟩ := At.append hat
  obtain ⟨hatb, hatend⟩ := At.append hat
  obtain ⟨hli, hlabel⟩ := At.head hatend
  have hlabel := (At.head hlabel).1
  obtain ⟨c₁, hr₁, hpc₁, hreg₁⟩ :=
    ihx slots _ s s₁ xc xr σ w place c hknown (hlater.slots.trans hmax) hx hatx hc hw
  have hlast :
    place + (xc ++ body ++ [Instr.li (.virtual s₁.regs) 0, Instr.label (matchLabel s₁)]).length =
      target code (matchLabel s₁) + 1 := by
    rw [host.distinct.target hlabel]
    simp only [List.length_append, List.length_cons, List.length_nil]
    omega
  have hcomp : Computes env code sp s c₁ (target code (matchLabel s₁)) (.virtual s₁.regs) v := by
    rcases run_cases (s := { s₁ with regs := s₁.regs + 1, labels := s₁.labels + 1 })
      (t := s) host ih (sx.fresh.mono (Nat.zero_le _) (Nat.le_succ _)) sx.later.regs
      (Nat.lt_succ_self s₁.regs) sx.later.slots hknown₁ hmax hb hatb (hc.after hknown hr₁.2 hpc₁)
      hreg₁ hv with hcomp | ⟨rfl, c₂, hr₂, hpc₂⟩
    · exact hcomp
    · rw [← hpc₂] at hli
      have hli' : Computes env code sp s c₂ (c₂.pc + 1) (.virtual s₁.regs) 0 :=
        computes_put hli rfl sx.later.regs rfl
      rw [host.distinct.target hlabel, ← hpc₂]
      exact hli'.after hr₂
  obtain ⟨c₂, hr₂, hpc₂, hreg₂⟩ := hcomp.after hr₁
  rw [← host.distinct.target hlabel, ← hpc₂] at hlabel
  refine ⟨_, hr₂.trans (reaches_label hlabel), ?_, hreg₂⟩
  rw [hlast, ← hpc₂]

/-- The code of an expression puts its value into its register. -/
theorem run_expr (host : Hosts call lc env code) (x : Expr) :
    ComputesWell call lc env code sp x := by
  induction x using Expr.induction with
  | step x ih =>
    intro slots depth s s' frag r σ v place c hknown hmax h hat hc hv
    rcases shape_of_gives h with
      hlit | ⟨loc, name, rfl⟩ | ⟨loc, op, l, y, rfl⟩ | ⟨loc, f, args, named, rfl⟩ | ⟨loc, y, t, e,
        rfl⟩ | ⟨loc, y, cases, rfl⟩
    · obtain ⟨n, hn⟩ := Option.isSome_iff_exists.1 hlit
      exact run_literal hn h hat hc hv
    · exact run_var h hat hc hv
    · exact run_binOp (ih l (by simp [Expr.parts])) (ih y (by simp [Expr.parts])) hknown
        hmax h hat hc hv
    · exact run_call host ih hknown hmax h hat hc hv
    · exact run_ifElse host (ih y (by simp [Expr.parts])) (ih t (by simp [Expr.parts]))
        (ih e (by simp [Expr.parts])) hknown hmax h hat hc hv
    · refine run_matchOn host (ih y (by simp [Expr.parts])) (fun k hk u hu => ih u ?_) hknown
        hmax h hat hc hv
      exact List.mem_cons_of_mem y (List.mem_flatMap.2 ⟨k, hk, hu⟩)

end

/-! ### Statements -/

/-- Where statements with an outcome lead: on to a place with the values of variables, or out of the
function with the value that it returns. A machine is out of the function at the label of its end,
or at the place if nothing follows there. -/
def Reached (code : Listing) (exit : String) (sp : Val) (slots : Slots) (place : Nat) (falls : Prop)
    (c : Config) : Outcome → Prop
  | .next σ => Ready sp slots σ place c
  | .done v => c.regs .a0 = some v ∧ (c.pc = target code exit ∨ falls ∧ c.pc = place)

/-- A run that leads there. -/
def Leads (env : Environment) (code : Listing) (exit : String) (sp : Val) (slots : Slots)
    (place : Nat) (falls : Prop) (c : Config) (o : Outcome) : Prop :=
  ∃ ps c', Run (env.step code) c ps c' ∧ Reached code exit sp slots place falls c' o

section

variable {call : String → List Val → Option Val} {lc : LowerContext} {env : Environment}
  {code frag : Listing} {sp : Val} {slots slots' : Slots} {σ : Store} {depth place : Nat}
  {s s' : Supply} {v : Val} {c : Config} {falls : Prop} {o : Outcome}

theorem Leads.after {exit : String} {c₁ : Config}
    (h : Leads env code exit sp slots place falls c₁ o) (h₀ : Reaches env code s sp c c₁) :
    Leads env code exit sp slots place falls c o := by
  obtain ⟨⟨ps, hrun⟩, -⟩ := h₀
  obtain ⟨qs, c', hrun', h'⟩ := h
  exact ⟨ps ++ qs, c', hrun.append hrun', h'⟩

theorem Leads.mono {exit : String} (h : Leads env code exit sp slots place falls c o)
    (hkept : ∀ x q, slots.lookup x = some q → slots'.lookup x = some q) :
    Leads env code exit sp slots' place falls c o := by
  obtain ⟨ps, c', hrun, h⟩ := h
  refine ⟨ps, c', hrun, ?_⟩
  cases o with
  | next σ' => exact ⟨h.pc, h.stack, h.holds.mono hkept⟩
  | done v => exact h

/-- A value is kept in a variable. -/
theorem run_store {exit name : String} {x : Expr} (host : Hosts call lc env code)
    (hknown : Known slots s.slots) (hmax : s'.slots ≤ maxSlots)
    (h : Gives (lowerStore lc slots depth name x) s (frag, slots') s') (hat : At code place frag)
    (hc : Ready sp slots σ place c) (hv : evalExpr call σ x = some v) :
    Leads env code exit sp slots' (place + frag.length) falls c (.next (σ.set name v)) := by
  obtain ⟨xc, xr, s₁, q, hx, hq, rfl⟩ := gives_store h
  have sx := shape_expr x lc slots depth s xc xr s₁ hknown hx
  obtain ⟨hlater, hknown', hlookup, hkept⟩ := shape_slotOf (hknown.mono sx.later.slots) hq
  obtain ⟨hatx, hats⟩ := At.append hat
  obtain ⟨c₁, hr₁, hpc₁, hreg₁⟩ :=
    run_expr host x slots depth s s₁ xc xr σ v place c hknown (hlater.slots.trans hmax)
      hx hatx hc hv
  have hready := hc.after hknown hr₁.2 hpc₁
  have hsp : c₁.regs.get .sp = some sp := hready.stack
  have heffect : (Instr.store .sw xr .sp q).effect env.sym c₁.regs.get c₁.mem =
    some (none, c₁.mem.write (sp + q.toBitVec) 4 v) := by
    rw [Instr.effect, sx.fresh.get, hreg₁, hsp]
    rfl
  rw [← hpc₁] at hats
  have hstep := Environment.step_of_flow (flow_of_effect (At.head hats).1 heffect)
  refine Leads.after ⟨_, _, .single hstep, ?_, hready.stack, ?_⟩ hr₁
  · show c₁.pc + 1 = _
    rw [hpc₁, List.length_append, ← Nat.add_assoc]
    rfl
  · exact hready.holds.store hknown' hmax hlookup (fun y _ p hp => hkept y p hp) v

/-- The value of a return gets into the result register, and the machine out of the function. -/
theorem run_leaving {q : Reg} {final : Bool} (hq : c.regs.get q = some v)
    (hat : At code c.pc ([Instr.mv .a0 q] ++ leaving lc final)) :
    Leads env code lc.exit sp slots (c.pc + ([Instr.mv .a0 q] ++ leaving lc final).length)
      (final = true) c (.done v) := by
  obtain ⟨hmv, hleave⟩ := At.append hat
  have heffect : (Instr.mv .a0 q).effect env.sym c.regs.get c.mem = some (some v, c.mem) := by
    rw [Instr.effect, hq]
    rfl
  have hstep := Environment.step_of_flow (flow_of_effect (At.head hmv).1 heffect)
  have ha0 : c.regs.put .a0 (some v) .a0 = some v := by rw [Regs.put_some, if_pos rfl]
  cases final with
  | true => exact ⟨_, _, .single hstep, ha0, .inr ⟨rfl, rfl⟩⟩
  | false => exact ⟨_, _,
    .cons hstep (.single (Environment.step_of_flow (flow_of_jump (At.head hleave).1))),
    ha0, .inl rfl⟩

theorem run_return {final : Bool} {loc : Location} {x : Option Expr} (host : Hosts call lc env code)
    (hknown : Known slots s.slots) (hmax : s'.slots ≤ maxSlots)
    (h : Gives (lowerReturn lc slots depth final x) s frag s') (hat : At code place frag)
    (hc : Ready sp slots σ place c) (hv : evalStmt call σ (.ret loc x) = some o) :
    Leads env code lc.exit sp slots (place + frag.length) (final = true) c o := by
  rcases gives_return h with ⟨rfl, rfl, rfl⟩ | ⟨y, xc, xr, rfl, hx, rfl⟩
  · rw [evalStmt] at hv
    obtain rfl := Option.some.inj hv
    rw [← hc.pc] at hat ⊢
    exact run_leaving (Regs.get_zero _) hat
  · rw [evalStmt] at hv
    obtain ⟨v, hy, rfl⟩ := Option.map_eq_some_iff.1 hv
    have sx := shape_expr y lc slots depth s xc xr s' hknown hx
    rw [List.append_assoc] at hat
    obtain ⟨hatx, hatl⟩ := At.append hat
    obtain ⟨c₁, hr₁, hpc₁, hreg₁⟩ :=
      run_expr host y slots depth s s' xc xr σ v place c hknown hmax hx hatx hc hy
    rw [← hpc₁] at hatl
    have hlead : Leads env code lc.exit sp slots _ _ c₁ (.done v) :=
      run_leaving ((sx.fresh.get c₁.regs).trans hreg₁) hatl
    rw [hpc₁, Nat.add_assoc, ← List.length_append, ← List.append_assoc] at hlead
    exact hlead.after hr₁

/-- The arms of a choice between statements lead where the choice leads. -/
theorem run_choice {x : Reg} {w : Val} {t e : Listing} {exit : String} (hdistinct : code.Distinct)
    (hat : At code place (choice x s t e)) (hpc : c.pc = place) (hx : c.regs.get x = some w)
    (ht : w ≠ 0 → At code (place + 3) t →
      Leads env code exit sp slots (place + 3 + t.length) False { c with pc := place + 3 } o)
    (he : w = 0 → At code (place + 3 + t.length + 2) e →
      Leads env code exit sp slots (place + 3 + t.length + 2 + e.length) False { c with
        pc := place + 3 + t.length + 2 } o) :
    Leads env code exit sp slots (place + (choice x s t e).length) falls c o := by
  subst hpc
  obtain ⟨-, -, -, hatt, -, -, hate, -⟩ := choice_at hat
  have harm : Reaches env code s sp c _ := reaches_arm hdistinct hat hx
  -- The run through the arm that is taken.
  obtain ⟨ps, c', hrun, hreached⟩ : ∃ ps c', Run (env.step code) c ps c' ∧
      (Reached code exit sp slots (c.pc + 3 + t.length) False c' o ∨
        Reached code exit sp slots (c.pc + 3 + t.length + 2 + e.length) False c' o) := by
    by_cases hw : w = 0
    · rw [if_neg (not_not_intro hw)] at harm
      obtain ⟨ps, c', hrun, h'⟩ := (he hw hate).after harm
      exact ⟨ps, c', hrun, .inr h'⟩
    · rw [if_pos hw] at harm
      obtain ⟨ps, c', hrun, h'⟩ := (ht hw hatt).after harm
      exact ⟨ps, c', hrun, .inl h'⟩
  cases o with
  | next σ' =>
    have hpc : c'.pc = c.pc + 3 + t.length ∨ c'.pc = c.pc + 3 + t.length + 2 + e.length :=
      hreached.imp (·.pc) (·.pc)
    obtain ⟨⟨qs, hjoin⟩, -⟩ : Reaches env code s sp c' _ := reaches_join hdistinct hat hpc
    have hready : c'.regs .sp = some sp ∧ Holds sp slots σ' c'.mem :=
      hreached.elim (fun h => ⟨h.stack, h.holds⟩) fun h => ⟨h.stack, h.holds⟩
    exact ⟨_, _, hrun.append hjoin, rfl, hready.1, hready.2⟩
  | done v =>
    refine ⟨ps, c', hrun, ?_⟩
    rcases hreached with ⟨ha0, hend⟩ | ⟨ha0, hend⟩
    · exact ⟨ha0, .inl (hend.resolve_right fun h => h.1)⟩
    · exact ⟨ha0, .inl (hend.resolve_right fun h => h.1)⟩

/-- The statement of `run_stmt` for one statement. -/
def RunsWell (call : String → List Val → Option Val) (lc : LowerContext) (env : Environment)
    (code : Listing) (sp : Val) (t : Stmt) : Prop :=
  ∀ (slots : Slots) (depth : Nat) (final : Bool) (s s' : Supply) (frag : Listing) (slots' : Slots)
    (σ : Store) (o : Outcome) (place : Nat) (c : Config), Known slots s.slots →
      s'.slots ≤ maxSlots →
      Gives (lowerStmt lc slots depth final t) s (frag, slots') s' → At code place frag →
      Ready sp slots σ place c → evalStmt call σ t = some o →
      Leads env code lc.exit sp slots' (place + frag.length) (final = true ∧
        endsWithReturn [t] = true) c o

theorem evalStmts_cons (t : Stmt) (ts : List Stmt) (o : Outcome)
    (h : evalStmts call σ (t :: ts) = some o) :
    (∃ σ', evalStmt call σ t = some (.next σ') ∧ evalStmts call σ' ts = some o) ∨
      ∃ v, evalStmt call σ t = some (.done v) ∧ o = .done v := by
  rw [evalStmts] at h
  obtain ⟨o', ho', h⟩ := Option.bind_eq_some_iff.1 h
  cases o' with
  | next σ' => exact .inl ⟨σ', ho', h⟩
  | done v => exact .inr ⟨v, ho', (Option.some.inj h).symm⟩

theorem endsWithReturn_cons (t : Stmt) {ts : List Stmt} (h : endsWithReturn ts = true) :
    endsWithReturn (t :: ts) = true := by
  cases ts with
  | nil => cases h
  | cons u ts =>
    unfold endsWithReturn at h ⊢
    rw [List.getLast?_cons_cons]
    exact h

theorem run_stmts_of {top : Bool} {ts : List Stmt} (ih : ∀ t ∈ ts, RunsWell call lc env code sp t)
    (hcomments : lc.comments = false) (hknown : Known slots s.slots) (hmax : s'.slots ≤ maxSlots)
    (h : Gives (lowerStmts lc slots depth top ts) s (frag, slots') s') (hat : At code place frag)
    (hc : Ready sp slots σ place c) (ho : evalStmts call σ ts = some o) :
    Leads env code lc.exit sp slots' (place + frag.length) (top = true ∧ endsWithReturn ts = true)
      c o := by
  induction ts generalizing s slots frag place c σ with
  | nil =>
    obtain ⟨rfl, rfl, rfl⟩ := gives_stmts_nil h
    rw [evalStmts] at ho
    obtain rfl := Option.some.inj ho
    exact ⟨[], c, .nil c, hc⟩
  | cons t ts ihts =>
    obtain ⟨tc, inner, s₁, rest, ht, hrest, rfl⟩ := gives_stmts_cons h
    have st := shape_stmt t lc slots depth _ s tc inner s₁ hcomments hknown ht
    have sr := shape_stmts hcomments st.known hrest
    obtain ⟨hatt, hatr⟩ := At.append hat
    have hlead :=
      fun o ho => ih t List.mem_cons_self slots depth _ s s₁ tc inner σ o place c hknown
        (sr.later.slots.trans hmax) ht hatt hc ho
    rcases evalStmts_cons t ts o ho with ⟨σ', ht', ho'⟩ | ⟨v, ht', rfl⟩
    · obtain ⟨ps, c₁, hrun, hready⟩ := hlead _ ht'
      obtain ⟨qs, c₂, hrun', hreached⟩ :=
        ihts (fun u hu => ih u (List.mem_cons_of_mem t hu)) st.known hrest hatr hready ho'
      refine ⟨ps ++ qs, c₂, hrun.append hrun', ?_⟩
      rw [List.length_append, ← Nat.add_assoc]
      cases o with
      | next σ'' => exact hreached
      | done v => exact ⟨hreached.1,
        hreached.2.imp_right fun h => ⟨⟨h.1.1, endsWithReturn_cons t h.1.2⟩, h.2⟩⟩
    · obtain ⟨ps, c₁, hrun, ha0, hend⟩ := hlead _ ht'
      refine ⟨ps, c₁, hrun, ha0, hend.imp_right ?_⟩
      rintro ⟨⟨hlast, hret⟩, hpc⟩
      rw [Bool.and_eq_true, List.isEmpty_iff] at hlast
      obtain ⟨rfl, rfl⟩ := hlast
      obtain ⟨rfl, -, -⟩ := gives_stmts_nil hrest
      rw [List.append_nil]
      exact ⟨⟨rfl, hret⟩, hpc⟩

/-- A choice between statements, after the code of what it depends on. -/
theorem run_if {x : Expr} {t e : List Stmt} {d : Nat} {xc tc ec : Listing} {xr : Reg}
    {s₁ s₂ : Supply} {inner : Slots} (host : Hosts call lc env code)
    (hcomments : lc.comments = false) (iht : ∀ u ∈ t, RunsWell call lc env code sp u)
    (ihe : ∀ u ∈ e, RunsWell call lc env code sp u) (hknown : Known slots s.slots)
    (hmax : s'.slots ≤ maxSlots) (hx : Gives (lowerExpr lc slots depth x) s (xc, xr) s₁)
    (ht : Gives (lowerStmts lc slots d false t) (afterChoice s₁) (tc, inner) s₂)
    (he : Gives (lowerStmts lc inner d false e) s₂ (ec, slots') s')
    (hat : At code place (xc ++ choice xr s₁ tc ec)) (hc : Ready sp slots σ place c)
    (ho : (evalExpr call σ x).bind (fun w => if w ≠ 0 then evalStmts call σ t else
      evalStmts call σ e) = some o) :
    Leads env code lc.exit sp slots' (place + (xc ++ choice xr s₁ tc ec).length) falls c o := by
  obtain ⟨w, hw, ho⟩ := Option.bind_eq_some_iff.1 ho
  have sx := shape_expr x lc slots _ s xc xr s₁ hknown hx
  have hknown₁ := hknown.mono sx.later.slots
  have st := shape_stmts (s := afterChoice s₁) hcomments hknown₁ ht
  have se := shape_stmts hcomments st.known he
  have hslots : s₁.slots ≤ s₂.slots := st.later.slots
  obtain ⟨hatx, hatc⟩ := At.append hat
  obtain ⟨c₁, hr₁, hpc₁, hreg₁⟩ := run_expr host x slots _ s s₁ xc xr σ w place c hknown
    (hslots.trans (se.later.slots.trans hmax)) hx hatx hc hw
  have hready := hc.after hknown hr₁.2 hpc₁
  have hstart : ∀ q, Ready sp slots σ q { c₁ with pc := q } :=
    fun q => ⟨rfl, hready.stack, hready.holds⟩
  have hfalse : ∀ ts : List Stmt, (false = true ∧ endsWithReturn ts = true) = False := fun ts =>
    eq_false fun h => Bool.false_ne_true h.1
  rw [List.length_append, ← Nat.add_assoc]
  refine Leads.after (run_choice host.distinct hatc hpc₁ ((sx.fresh.get c₁.regs).trans hreg₁) ?_ ?_)
    hr₁
  · intro hne hatt
    rw [if_pos hne] at ho
    have hlead :=
      run_stmts_of (s := afterChoice s₁) iht hcomments hknown₁ (se.later.slots.trans hmax) ht
        hatt (hstart _) ho
    rw [hfalse] at hlead
    exact hlead.mono se.kept
  · intro hzero hate
    rw [if_neg (not_not_intro hzero)] at ho
    have hstart' := hstart (place + xc.length + 3 + tc.length + 2)
    have hlead :=
      run_stmts_of ihe hcomments st.known hmax he hate ⟨rfl, hstart'.stack,
        hstart'.holds.mono st.kept⟩ ho
    rw [hfalse] at hlead
    exact hlead

theorem run_stmt (host : Hosts call lc env code) (hcomments : lc.comments = false) (t : Stmt) :
    RunsWell call lc env code sp t := by
  induction t using Stmt.induction with
  | step t ih =>
    intro slots depth final s s' frag slots' σ o place c hknown hmax h hat hc ho
    cases t with
    | ret loc x =>
      obtain ⟨rfl, h⟩ := gives_ret hcomments h
      obtain ⟨ps, c', hrun, hreached⟩ := run_return host hknown hmax h hat hc ho
      refine ⟨ps, c', hrun, ?_⟩
      cases o with
      | next σ' => exact hreached
      | done v => exact ⟨hreached.1, hreached.2.imp_right fun h => ⟨⟨h.1, rfl⟩, h.2⟩⟩
    | assign loc name type x =>
      rw [evalStmt] at ho
      obtain ⟨v, hv, rfl⟩ := Option.map_eq_some_iff.1 ho
      exact run_store host hknown hmax (gives_assign hcomments h) hat hc hv
    | use loc name x =>
      rw [evalStmt] at ho
      obtain ⟨v, hv, rfl⟩ := Option.map_eq_some_iff.1 ho
      exact run_store host hknown hmax (gives_use hcomments h) hat hc hv
    | ifThen loc x tl t =>
      obtain ⟨xc, xr, s₁, tc, hx, ht, rfl⟩ := gives_ifThen hcomments h
      have hnil : Gives (lowerStmts lc slots' (depth + 1) false []) s' ([], slots') s' := by
        rw [lowerStmts]
        exact gives_pure.2 ⟨rfl, rfl⟩
      rw [evalStmt] at ho
      refine run_if (e := []) host hcomments ih (by simp) hknown hmax hx ht hnil hat hc ?_
      rw [evalStmts]
      exact ho
    | ifElse loc x tl t el e =>
      obtain ⟨xc, xr, s₁, tc, inner, s₂, ec, hx, ht, he, rfl⟩ := gives_ifElseStmt hcomments h
      rw [evalStmt] at ho
      exact run_if host hcomments (fun u hu => ih u (List.mem_append_left e hu))
        (fun u hu => ih u (List.mem_append_right t hu)) hknown hmax hx ht he hat hc ho
    | expr loc x =>
      obtain ⟨rfl, xr, hx⟩ := gives_exprStmt hcomments h
      rw [evalStmt] at ho
      obtain ⟨v, hv, rfl⟩ := Option.map_eq_some_iff.1 ho
      obtain ⟨c₁, ⟨⟨ps, hrun⟩, hu⟩, hpc₁, -⟩ :=
        run_expr host x slots' _ s s' frag xr σ v place c hknown hmax hx hat hc hv
      exact ⟨ps, c₁, hrun, hc.after hknown hu hpc₁⟩
    | missing => exact absurd h not_gives_missing

/-- The code of statements does what they do. -/
theorem run_stmts {top : Bool} {ts : List Stmt} (host : Hosts call lc env code)
    (hcomments : lc.comments = false) (hknown : Known slots s.slots) (hmax : s'.slots ≤ maxSlots)
    (h : Gives (lowerStmts lc slots depth top ts) s (frag, slots') s') (hat : At code place frag)
    (hc : Ready sp slots σ place c) (ho : evalStmts call σ ts = some o) :
    Leads env code lc.exit sp slots' (place + frag.length) (top = true ∧ endsWithReturn ts = true)
      c o :=
  run_stmts_of (fun t _ => run_stmt host hcomments t) hcomments hknown hmax h hat hc ho

/-! ### Functions -/

/-- Statements that end with a return do not come to an end. -/
theorem endsWithReturn_of_next {ts : List Stmt} {σ' : Store}
    (h : evalStmts call σ ts = some (.next σ')) : endsWithReturn ts = false := by
  induction ts generalizing σ with
  | nil => rfl
  | cons t ts ih =>
    rcases evalStmts_cons t ts _ h with ⟨σ₁, ht, hts⟩ | ⟨v, -, hv⟩
    · have htail := ih hts
      cases ts with
      | nil =>
        cases t with
        | ret loc x =>
          cases x <;> simp [evalStmt] at ht
        | _ => rfl
      | cons u ts =>
        unfold endsWithReturn at htail ⊢
        rw [List.getLast?_cons_cons]
        exact htail
    · cases hv

/-- Arguments get into the words of parameters. -/
theorem run_params {ps : List Param} {vs : List Val} {i : Nat} (hlen : vs.length = ps.length)
    (hknown : Known slots s.slots) (hcount : i + ps.length ≤ Reg.argCount)
    (hmax : s'.slots ≤ maxSlots) (h : Gives (lowerParams i slots ps) s (frag, slots') s')
    (hat : At code place frag) (hc : Ready sp slots σ place c)
    (hargs : ∀ k w, vs[k]? = some w → c.regs (.arg (i + k)) = some w) :
    ∃ ps' c', Run (env.step code) c ps' c' ∧
      Ready sp slots' (bindParams σ ps vs) (place + frag.length) c' := by
  induction ps generalizing s slots frag place c σ i vs with
  | nil =>
    obtain ⟨rfl, rfl, rfl⟩ := gives_params_nil h
    exact ⟨[], c, .nil c, hc⟩
  | cons p ps ih =>
    cases vs with
    | nil => cases hlen
    | cons v vs =>
      obtain ⟨rest, hrest, rfl⟩ := gives_params_cons h
      rw [List.length_cons] at hcount
      obtain ⟨hlater, -, -⟩ :=
        shape_params (E := fun _ => False) (s := { s with slots := s.slots + 1 }) (by omega)
          (hknown.cons p.name) hrest
      obtain ⟨hi, hatr⟩ := At.head hat
      have hsp : c.regs.get .sp = some sp := hc.stack
      have harg : c.regs.get (.arg i) = some v := by
        rw [Regs.get_of_ne_zero, ← hargs 0 v rfl, Nat.add_zero]
        intro hzero
        have : 10 + i = 0 := congrArg Reg.number hzero
        omega
      have heffect : (Instr.store .sw (.arg i) .sp (slotOffset s.slots)).effect env.sym
        c.regs.get c.mem =
          some (none, c.mem.write (sp + (slotOffset s.slots).toBitVec) 4 v) := by
        rw [Instr.effect, harg, hsp]
        rfl
      rw [← hc.pc] at hi
      have hstep := Environment.step_of_flow (flow_of_effect hi heffect)
      have hfits : s.slots + 1 ≤ maxSlots := hlater.slots.trans hmax
      have hready : Ready sp ((p.name, slotOffset s.slots) :: slots) (σ.set p.name v) (place + 1)
          { c with pc := c.pc + 1, mem := c.mem.write (sp +
            (slotOffset s.slots).toBitVec) 4 v } := by
        refine ⟨congrArg (· + 1) hc.pc, hc.stack, hc.holds.store (hknown.cons p.name) hfits
          (by simp) (fun y hy q hq => ?_) v⟩
        rw [lookup_cons_name, if_neg hy, hq]
      have hargs' : ∀ k w, vs[k]? = some w → c.regs (.arg (i + 1 + k)) = some w := by
        intro k w hk
        rw [← hargs (k + 1) w (by simpa using hk), Nat.add_assoc, Nat.add_comm 1 k]
      obtain ⟨qs, c', hrun, hready'⟩ :=
        ih (s := { s with slots := s.slots + 1 }) (i := i + 1) (Nat.succ.inj hlen)
          (hknown.cons p.name) (by omega) hrest hatr hready hargs'
      refine ⟨_, c', .cons hstep hrun, ?_⟩
      rw [List.length_cons, Nat.add_comm rest.length, ← Nat.add_assoc]
      exact hready'

end

/-- The code of a function returns its value. -/
theorem run_function {opts : CodegenOptions} {functions : List String} {f : NamedFunction}
    {lf : LoweredFunction} {labels : Nat} {s' : Supply} {call : String → List Val → Option Val}
    {env : Environment} {sp : Val} {vs : List Val} {v : Val} {c : Config}
    (hcomments : opts.comments = false)
    (h : Gives (lowerFunction opts functions f) { labels } lf s') (hmax : s'.slots ≤ maxSlots)
    (host : Hosts call (contextOf opts functions f lf.exit) env lf.code)
    (hexit : target lf.code lf.exit = lf.code.length) (hpc : c.pc = 0) (hsp : c.regs .sp = some sp)
    (hlen : vs.length = f.func.params.length)
    (hargs : ∀ k w, vs[k]? = some w → c.regs (.arg k) = some w)
    (hv : evalBody call (bindParams (fun _ => none) f.func.params vs) f.func.body.stmts = some v) :
    ∃ ps c', Run (env.step lf.code) c ps c' ∧ c'.pc = lf.code.length ∧ c'.regs .a0 = some v := by
  obtain ⟨hcount, hexit', pc, inner, s₁, bc, hp, hb, hcode⟩ := gives_function h
  rw [← hexit'] at hb
  obtain ⟨sc, outer, hs, rfl⟩ := gives_body hb
  obtain ⟨-, hknown, -⟩ :=
    shape_params (E := fun _ => False) (s := started labels) (by omega) known_nil hp
  have ss := shape_stmts hcomments hknown hs
  have hat : At lf.code 0 lf.code := fun k i hi => by rw [Nat.zero_add]; exact hi
  nth_rewrite 2 [hcode] at hat
  obtain ⟨hatp, hatb⟩ := At.append hat
  obtain ⟨hats, hatf⟩ := At.append hatb
  have hempty : Ready sp [] (fun _ => none) 0 c := ⟨hpc, hsp, fun x w hx => nomatch hx⟩
  obtain ⟨ps, c₁, hrun₁, hready⟩ : ∃ ps c₁, Run (env.step lf.code) c ps c₁ ∧
    Ready sp inner _ (0 + pc.length) c₁ :=
    run_params (s := started labels) hlen known_nil (by omega) (ss.later.slots.trans hmax)
      hp hatp hempty (fun k w hk => by rw [Nat.zero_add]; exact hargs k w hk)
  unfold evalBody at hv
  obtain ⟨o, ho, hv⟩ := Option.map_eq_some_iff.1 hv
  obtain ⟨qs, c₂, hrun₂, hreached⟩ := run_stmts host hcomments hknown hmax hs hats hready ho
  have hlength : lf.code.length = 0 + pc.length + sc.length +
    (falling f.func.body.stmts).length := by
    rw [hcode, List.length_append, List.length_append]
    omega
  cases o with
  | next σ' =>
    obtain rfl : 0 = v := hv
    have hfall : falling f.func.body.stmts = [.mv .a0 .zero] := by
      rw [falling, endsWithReturn_of_next ho]
      rfl
    rw [hfall, ← hreached.pc] at hatf
    have heffect : (Instr.mv .a0 .zero).effect env.sym c₂.regs.get c₂.mem = some (some 0, c₂.mem) :=
      rfl
    have hstep := Environment.step_of_flow (flow_of_effect (At.head hatf).1 heffect)
    refine ⟨_, _, hrun₁.append (hrun₂.append (.single hstep)), ?_, rfl⟩
    rw [hlength, hfall, ← hreached.pc]
    rfl
  | done w =>
    obtain rfl : w = v := hv
    refine ⟨_, c₂, hrun₁.append hrun₂, ?_, hreached.1⟩
    rcases hreached.2 with hend | ⟨⟨-, hret⟩, hend⟩
    · rw [hend]
      exact hexit
    · rw [hend, hlength, falling, if_pos hret]
      rfl

end FunRiscv.Lowering
