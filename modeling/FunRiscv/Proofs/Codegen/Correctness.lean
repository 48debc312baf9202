import Mathlib
import FunRiscv.Proofs.Codegen.Layout

/-!
# Generated code computes what programs mean

* `Machine.step`: one step of a whole program on machine registers. A call may leave anything in the
  temporary registers.
* `Program.environment`: an environment in which calls compute what they mean.
* `Hosted.run`: a whole program follows a function on virtual registers.
* `Program.callsWell`: by induction on how deeply calls are nested, each function returns its value
  and leaves the stack pointer, the preserved registers and memory above the stack as they were.
* `generate_correct`: the code that is generated for a program computes what the program means.
-/

namespace FunRiscv

open Machine Lowering

/-! ### Whole programs -/

namespace Machine

/-- What is left of a machine when it calls a function: the temporary registers may
hold anything. -/
def Config.linked (junk : Config → Reg → Option Val) (c : Config) (place : Nat) : Config :=
  { c with
    pc := place
    regs := fun r => if r = .ra then some (BitVec.ofNat 32 (c.pc + 1)) else if r.isTemporary then
      junk c r else c.regs r }

/-- One step of a whole program. -/
def step (sym : String → Val) (junk : Config → Reg → Option Val) (code : Listing) (c : Config) :
    Option Config :=
  match code[c.pc]? with
  | some (.jal rd l) => if rd = .ra then some (c.linked junk (target code l)) else flow sym code c
  | some (.jalr rd rs offset) =>
    if rd = .zero then (c.regs.get rs).map fun x => { c with pc := (x + offset.toBitVec).toNat }
      else none
  | _ => flow sym code c

variable {sym : String → Val} {junk : Config → Reg → Option Val} {code : Listing} {c c' : Config}

theorem step_of_flow (h : flow sym code c = some c') : step sym junk code c = some c' := by
  unfold step
  split
  · next rd l hi =>
    split
    · next hrd =>
      subst hrd
      rw [Environment.flow_eq_none_of_call hi] at h
      cases h
    · exact h
  · next rd rs offset hi =>
    unfold flow at h
    rw [hi] at h
    cases h
  · exact h

theorem step_of_call {l : String} (hi : code[c.pc]? = some (.jal .ra l)) :
    step sym junk code c = some (c.linked junk (target code l)) := by
  unfold step
  rw [hi]
  rfl

theorem step_of_return {ra : Val} (hi : code[c.pc]? = some (.jalr .zero .ra 0))
    (hra : c.regs .ra = some ra) : step sym junk code c = some { c with pc := ra.toNat } := by
  have hget : c.regs.get .ra = some ra := hra
  unfold step
  rw [hi]
  dsimp only
  rw [if_pos rfl, hget, Option.map_some]
  congr 3
  exact BitVec.add_zero ra

/-- How many calls were made does not matter. -/
theorem flow_calls (n : Nat) (h : flow sym code c = some c') :
    flow sym code { c with calls := n } = some { c' with calls := n } := by
  rcases flow_cases h with ⟨i, w, m, hi, heffect, rfl⟩ | ⟨op, a, b, l, x, y, hi, hx, hy,
    rfl⟩ | ⟨l, hi, rfl⟩
  · exact flow_of_effect (c := { c with calls := n }) hi heffect
  · exact flow_of_branch sym (c := { c with calls := n }) hi hx hy
  · exact flow_of_jump (c := { c with calls := n }) hi

end Machine

/-! ### Calls -/

/-- The registers after a call, as far as they are known. -/
def answer (v : Val) : Regs := fun r => if r = .a0 then some v else none

/-- An environment in which calls compute what they mean. -/
def Program.environment (p : Program) (sym : String → Val) (depth : Nat) : Environment where
  sym := sym
  callee := fun _ l f m =>
    (p.functions.find? fun g => functionLabel g.name == l).bind fun g =>
      if ∀ i < g.func.params.length, (f (.arg i)).isSome then
        (p.eval depth g.name ((List.range g.func.params.length).map fun i =>
          (f (.arg i)).getD 0)).map fun v => (answer v, m)
      else none
  junk := fun _ _ => none

/-- What a call in this environment is. -/
theorem Program.environment_spec {p : Program} {sym : String → Val} {depth n : Nat} {l : String}
    {f : Regs} {m : Memory} {out : Regs × Memory}
    (h : (p.environment sym depth).callee n l f m = some out) :
    ∃ g ∈ p.functions, ∃ vs v, functionLabel g.name = l ∧ p.eval depth g.name vs = some v ∧
      (∀ k w, vs[k]? = some w → f (.arg k) = some w) ∧ out = (answer v, m) := by
  obtain ⟨g, hg, h⟩ := Option.bind_eq_some_iff.1 h
  split at h
  · next hsome =>
    obtain ⟨v, hv, rfl⟩ := Option.map_eq_some_iff.1 h
    refine ⟨g, List.mem_of_find?_eq_some hg, _, v, by simpa using List.find?_some hg, hv, ?_, rfl⟩
    intro k w hk
    rw [List.getElem?_map] at hk
    obtain ⟨i, hi, rfl⟩ := Option.map_eq_some_iff.1 hk
    obtain ⟨hlt, rfl⟩ := List.getElem?_eq_some_iff.1 hi
    rw [List.length_range] at hlt
    rw [List.getElem_range]
    obtain ⟨w, hw⟩ := Option.isSome_iff_exists.1 (hsome k hlt)
    rw [hw]
    rfl
  · cases h

/-- Functions with one label are one. -/
theorem function_unique {fs : List NamedFunction}
    (hnodup : (fs.map fun f => functionLabel f.name).Nodup) {f g : NamedFunction} (hf : f ∈ fs)
    (hg : g ∈ fs) (h : functionLabel f.name = functionLabel g.name) : f = g :=
  List.inj_on_of_nodup_map hnodup hf hg h

/-- What a function means: its body, where calls mean the functions that their names mean in it. -/
theorem Program.eval_succ {p : Program}
    (hnodup : (p.functions.map fun f => functionLabel f.name).Nodup) {f : NamedFunction}
    (hf : f ∈ p.functions) {depth : Nat} {vs : List Val} {v : Val}
    (h : p.eval (depth + 1) f.name vs = some v) : vs.length = f.func.params.length ∧
      evalBody
        (fun callee us => (resolveName (p.functions.map (·.name)) (pathOf f.name) callee).bind
          fun q => p.eval depth q us)
        (bindParams (fun _ => none) f.func.params vs) f.func.body.stmts = some v := by
  rw [Program.eval, Option.bind_eq_some_iff] at h
  obtain ⟨g, hg, h⟩ := h
  have hname : g.name = f.name := by simpa using List.find?_some hg
  obtain rfl := function_unique hnodup (List.mem_of_find?_eq_some hg) hf (by rw [hname])
  split at h
  · next hlen => exact ⟨hlen, h⟩
  · cases h

/-- The length of the arguments with which a function has a value. -/
theorem Program.eval_length {p : Program}
    (hnodup : (p.functions.map fun f => functionLabel f.name).Nodup) {f : NamedFunction}
    (hf : f ∈ p.functions) {depth : Nat} {vs : List Val} {v : Val}
    (h : p.eval depth f.name vs = some v) : vs.length = f.func.params.length := by
  cases depth with
  | zero => cases h
  | succ depth => exact (Program.eval_succ hnodup hf h).1

theorem Program.eval_mem {p : Program} {depth : Nat} {name : String} {vs : List Val} {v : Val}
    (h : p.eval depth name vs = some v) : ∃ f ∈ p.functions, f.name = name := by
  cases depth with
  | zero => cases h
  | succ depth =>
    rw [Program.eval] at h
    obtain ⟨g, hg, -⟩ := Option.bind_eq_some_iff.1 h
    exact ⟨g, List.mem_of_find?_eq_some hg, by simpa using List.find?_some hg⟩

/-- Calls in the environment of a program compute what the functions mean. -/
theorem Program.hosts {p : Program} (hnodup : (p.functions.map fun f => functionLabel f.name).Nodup)
    (opts : CodegenOptions) (f : NamedFunction) (exit : String) (sym : String → Val) (depth : Nat)
    {code : Listing} (hdistinct : code.Distinct) :
    Hosts (fun callee us => (resolveName (p.functions.map (·.name)) (pathOf f.name) callee).bind
      fun q => p.eval depth q us) (contextOf opts (p.functions.map (·.name)) f exit)
    (p.environment sym depth) code where
  distinct := hdistinct
  calls := by
    intro name l vs v hl hv _ n regs m hargs
    rw [functionLabel?_eq] at hl
    obtain ⟨q, hq, rfl⟩ := Option.map_eq_some_iff.1 hl
    obtain ⟨q', hq', hv⟩ := Option.bind_eq_some_iff.1 hv
    obtain rfl : q = q' := Option.some.inj (hq.symm.trans hq')
    obtain ⟨g, hg, rfl⟩ := Program.eval_mem hv
    have hfind : p.functions.find? (fun h => functionLabel h.name == functionLabel g.name) =
      some g := by
      cases hfound : p.functions.find? (fun h => functionLabel h.name == functionLabel g.name) with
      | none =>
        have := List.find?_eq_none.1 hfound g hg
        simp at this
      | some g' =>
        rw [function_unique hnodup (List.mem_of_find?_eq_some hfound) hg
          (by simpa using List.find?_some hfound)]
    have hlen := Program.eval_length hnodup hg hv
    have hvs : ((List.range g.func.params.length).map fun i => (regs (.arg i)).getD 0) = vs := by
      refine List.ext_getElem (by simp [hlen]) fun i h1 h2 => ?_
      rw [List.getElem_map, List.getElem_range, hargs i vs[i] (List.getElem?_eq_getElem h2)]
      rfl
    have hsome : ∀ i < g.func.params.length, (regs (.arg i)).isSome := by
      intro i hi
      rw [hargs i _ (List.getElem?_eq_getElem (by omega))]
      rfl
    refine ⟨(answer v, m), ?_, rfl, rfl⟩
    show (p.functions.find? _).bind _ = _
    rw [hfind, Option.bind_some, if_pos hsome, hvs, hv]
    rfl

/-- A machine at the start of a function. -/
structure Entry (args : List Val) (sp ra : Val) (d : Config) : Prop where
  args : ∀ k w, args[k]? = some w → d.regs (.arg k) = some w
  stack : d.regs .sp = some sp
  address : d.regs .ra = some ra
  saved : ∀ r, r.isSaved = true → (d.regs r).isSome = true

/-- A function has returned a value: it has changed memory only under the stack pointer. -/
structure Returned (sp ra v : Val) (room : Nat) (d d' : Config) : Prop where
  pc : d'.pc = ra.toNat
  result : d'.regs .a0 = some v
  stack : d'.regs .sp = some sp
  saved : ∀ r, r.isSaved = true → d'.regs r = d.regs r
  mem : ∀ x, x ∉ below sp room → d'.mem x = d.mem x

/-- Each function of a program returns its value, if calls are nested at most so deeply. -/
def Program.CallsWell (p : Program) (sym : String → Val) (junk : Config → Reg → Option Val)
    (code : Listing) (frame depth : Nat) : Prop :=
  ∀ f ∈ p.functions, ∀ args v, p.eval depth f.name args = some v →
    ∀ sp ra d, d.pc = target code (functionLabel f.name) → Entry args sp ra d →
    ∃ ps d', Run (step sym junk code) d ps d' ∧ Returned sp ra v (frame * depth) d d'

theorem plain_of_isArg {r : Reg} (h : r.isArg = true) : r ≠ .ra ∧ r.isTemporary = false := by
  simp only [Reg.isArg, Bool.and_eq_true, decide_eq_true_eq] at h
  constructor
  · rintro rfl
    revert h
    decide
  · simp only [Reg.isTemporary, Bool.or_eq_false_iff, Bool.and_eq_false_iff,
      decide_eq_false_iff_not]
    omega

/-- A call goes through a function and comes back. -/
theorem Program.CallsWell.call {p : Program} {sym : String → Val} {junk : Config → Reg → Option Val}
    {code : Listing} {frame depth n : Nat} (h : p.CallsWell sym junk code frame depth)
    (hlength : code.length < 2 ^ 32) {l : String} {f : Regs} {m : Memory} {out : Regs × Memory}
    (hout : (p.environment sym depth).callee n l f m = some out) {d : Config} {sp : Val}
    (hi : code[d.pc]? = some (.jal .ra l))
    (hargs : ∀ k w, f (.arg k) = some w → (Reg.arg k).isArg = true ∧ d.regs (.arg k) = some w)
    (hsp : d.regs .sp = some sp) (hsaved : ∀ r, r.isSaved = true → (d.regs r).isSome = true) :
    ∃ ps d' v, Run (step sym junk code) d ps d' ∧ out = (answer v, m) ∧ d'.pc = d.pc + 1 ∧
      d'.regs .a0 = some v ∧ d'.regs .sp = some sp ∧
      (∀ r, r.isSaved = true → d'.regs r = d.regs r) ∧
      ∀ x, x ∉ below sp (frame * depth) → d'.mem x = d.mem x := by
  obtain ⟨g, hg, vs, v, rfl, hv, hvs, rfl⟩ := Program.environment_spec hout
  have hkept : ∀ r, r ≠ .ra → r.isTemporary = false →
      (d.linked junk (target code (functionLabel g.name))).regs r = d.regs r := by
    intro r hra htemp
    show (if r = .ra then _ else if r.isTemporary then _ else _) = _
    rw [if_neg hra, htemp]
    rfl
  have hkeptSaved : ∀ r, r.isSaved = true →
    (d.linked junk (target code (functionLabel g.name))).regs r = d.regs r :=
    fun r hr => hkept r (fun h => (Placement.kept_of_isSaved hr).1 (.inl h))
      (Placement.kept_of_isSaved hr).2
  have hentry : Entry vs sp (BitVec.ofNat 32 (d.pc + 1))
    (d.linked junk (target code (functionLabel g.name))) := by
    refine ⟨fun k w hk => ?_, ?_, rfl, fun r hr => ?_⟩
    · obtain ⟨harg, hreg⟩ := hargs k w (hvs k w hk)
      obtain ⟨hra, htemp⟩ := plain_of_isArg harg
      rw [hkept _ hra htemp, hreg]
    · rw [hkept .sp (by decide) rfl, hsp]
    · rw [hkeptSaved r hr]
      exact hsaved r hr
  obtain ⟨ps, d', hrun, hback⟩ := h g hg vs v hv sp _ _ rfl hentry
  have hpc : (BitVec.ofNat 32 (d.pc + 1)).toNat = d.pc + 1 := by
    have hlt := (List.getElem?_eq_some_iff.1 hi).1
    rw [BitVec.toNat_ofNat, Nat.mod_eq_of_lt (by omega)]
  refine ⟨_, d', v, .cons (step_of_call hi) hrun, rfl, hback.pc.trans hpc, hback.result,
    hback.stack, fun r hr => ?_, hback.mem⟩
  rw [hback.saved r hr, hkeptSaved r hr]

/-! ### The body of a function -/

/-- A machine register holds the word that a register holds, if it holds one. -/
def Upholds (x y : Option Val) : Prop := ∀ w, x = some w → y = some w

theorem upholds_carries : Placement.Carries Upholds := ⟨fun w _ h => h w rfl, fun _ _ h => h⟩

/-- The blocks of a function on virtual registers stand in the listing of a program, and its
variables, its spilled registers and the stack under it are apart. -/
structure Hosted (base : Int32) (code : Listing) (ranges : List LiveRange) (p : Placement)
    (big : Listing) (origin : Nat) (sp : Val) (keep : Set Val) (room : Nat) : Prop where
  fits : p.Fits base code ranges
  small : 4 * p.spilled.length ≤ 2 ^ 32
  forward : code.Forward
  lowered : ∀ i ∈ code, i.isLowered = true
  embeds : p.Embeds code big origin
  touches : ∀ i ∈ code, ∀ get : Reg → Option Val, get .sp = some sp → i.touches get ⊆ keep
  apart : ∀ x ∈ keep, x ∉ p.area base sp
  keep_below : ∀ x ∈ keep, x ∉ below sp room
  area_below : ∀ x ∈ p.area base sp, x ∉ below sp room

theorem Placement.Spares.mono {base : Int32} {keep more : Set Val} {p : Placement} {sp : Val}
    {d d' : Config} (h : p.Spares base keep sp d d') (hmore : keep ⊆ more) :
    p.Spares base more sp d d' where
  mem := fun x hx ha => h.mem x (fun hk => hx (hmore hk)) ha
  regs := h.regs
  holding := h.holding

variable {base : Int32} {code big : Listing} {ranges : List LiveRange} {place : Placement}
  {origin : Nat} {sp : Val} {keep : Set Val} {frame depth : Nat} {p : Program} {sym : String → Val}
  {junk : Config → Reg → Option Val}

/-- A machine that runs a whole program follows one that runs a function on virtual registers. -/
structure Tracks (ranges : List LiveRange) (place : Placement) (code : Listing) (origin : Nat)
    (sp : Val) (keep : Set Val) (c d : Config) : Prop where
  follows : place.Follows Upholds keep ranges sp { c with calls := d.calls } d
  pc : d.pc = origin + place.offset code c.pc
  saved : ∀ r, r.isSaved = true → (d.regs r).isSome = true

/-- A step on virtual registers is a run of the whole program. -/
theorem Hosted.step (h : Hosted base code ranges place big origin sp keep (frame * depth))
    (hcalls : p.CallsWell sym junk big frame depth) (hlength : big.length < 2 ^ 32)
    {c c' d : Config} (t : Tracks ranges place code origin sp keep c d)
    (hstep : (p.environment sym depth).step code c = some c') :
    ∃ ps d', Run (Machine.step sym junk big) d ps d' ∧
      Tracks ranges place code origin sp keep c' d' ∧
      place.Spares base (keep ∪ below sp (frame * depth)) sp d d' := by
  rcases Environment.step_cases hstep with ⟨l, out, hi, hout, rfl⟩ | hflow
  · have hat := h.embeds.block_at hi
    rw [← t.pc] at hat
    have hargs : ∀ k w, Environment.visible c.regs (.arg k) = some w → (Reg.arg k).isArg = true ∧
      d.regs (.arg k) = some w := by
      intro k w hk
      unfold Environment.visible at hk
      split at hk
      · next hvisible =>
        have harg := hvisible.resolve_left (arg_ne_sp k)
        exact ⟨harg, t.follows.shared _ (Placement.isShared_iff.2 (.inr (.inr harg))) w hk⟩
      · cases hk
    obtain ⟨ps, d', v, hrun, rfl, hpc, ha0, hsp, hsaved, hmem⟩ :=
      hcalls.call hlength hout (At.head hat).1 hargs (t.follows.sp_target upholds_carries) t.saved
    refine ⟨ps, d', hrun, ⟨?_, ?_, fun r hr => ?_⟩, ⟨fun x hx _ => hmem x fun hb => hx (.inr hb),
      fun r hr _ => hsaved r hr, fun r hr hd => ?_⟩⟩
    · refine t.follows.across_call h.fits hi rfl rfl
        (fun r hr => Placement.afterCall_regs_of_kept (Placement.kept_of_isVirtual hr)) hsaved
        ?_ ?_ ?_ ?_ rfl
      · intro u o ho
        exact Memory.word_congr fun x hx =>
          hmem x (h.area_below x (h.fits.word_subset_area h.small ho sp hx))
      · intro r hr w hw
        have hw : (if r = .ra ∨ r.isArg = true then answer v r else if r.isTemporary then none else
          c.regs r) = some w := hw
        rcases Placement.isShared_iff.1 hr with rfl | hother
        · rw [if_neg (by decide)] at hw
          rw [hsp, ← hw]
          exact t.follows.sp_eq.symm
        · rw [if_pos hother] at hw
          unfold answer at hw
          split at hw
          · next ha =>
            rw [ha, ha0, hw]
          · cases hw
      · exact t.follows.sp_eq
      · intro x hx
        rw [hmem x (h.keep_below x hx)]
        exact t.follows.mem x hx
    · rw [hpc, t.pc, Nat.add_assoc]
      show origin + _ = origin + place.offset code (c.pc + 1)
      rw [place.offset_succ hi]
      rfl
    · rw [hsaved r hr]
      exact t.saved r hr
    · rw [hsaved r hr]
      exact hd
  · obtain ⟨d', hrun, hpc, hfollows, hspares⟩ :=
      t.follows.flow upholds_carries h.fits h.small h.apart h.forward h.lowered h.embeds t.pc
        (flow_calls d.calls hflow)
        (fun i hi => h.touches i (List.mem_of_getElem? hi) _ t.follows.sp_eq)
    have hcalls' : d.calls = d'.calls := hfollows.calls
    rw [hcalls'] at hfollows
    exact ⟨_, d', hrun.mono fun _ _ h => step_of_flow h,
      ⟨hfollows, hpc, fun r hr => hspares.holding r hr (t.saved r hr)⟩,
      hspares.mono Set.subset_union_left⟩

/-- A run on virtual registers is a run of the whole program. -/
theorem Hosted.run (h : Hosted base code ranges place big origin sp keep (frame * depth))
    (hcalls : p.CallsWell sym junk big frame depth) (hlength : big.length < 2 ^ 32)
    {c c' d : Config} {ps : List Nat} (hrun : Run ((p.environment sym depth).step code) c ps c')
    (t : Tracks ranges place code origin sp keep c d) :
    ∃ qs d', Run (Machine.step sym junk big) d qs d' ∧
      Tracks ranges place code origin sp keep c' d' ∧
      place.Spares base (keep ∪ below sp (frame * depth)) sp d d' := by
  induction hrun generalizing d with
  | nil => exact ⟨[], d, .nil d, t, .refl _ _ _ _ _⟩
  | cons hstep _ ih =>
    obtain ⟨qs, d₁, hrun₁, t₁, hspares₁⟩ := h.step hcalls hlength t hstep
    obtain ⟨qs', d₂, hrun₂, t₂, hspares₂⟩ := ih t₁
    exact ⟨qs ++ qs', d₂, hrun₁.append hrun₂, t₂, hspares₁.trans hspares₂⟩

/-! ### The parts of a frame -/

/-- The bytes of the variables of a function. -/
def slotArea (s : Supply) (sp : Val) : Set Val :=
  {x | ∃ n < s.slots, x ∈ span (sp + (slotOffset n).toBitVec) 4}

variable {s : Supply} {a : Allocation} {x : Val}

theorem slots_in_frame (h : s.slots < 2 ^ 27) (hx : x ∈ slotArea s sp) :
    x ∉ span sp slotBase ∧ x ∈ span sp (slotBase + slotSize * s.slots) := by
  obtain ⟨n, hn, hx⟩ := hx
  have hdistance := distance_slot (hn.trans h) sp
  have hzero : (sp - sp).toNat = 0 := by simp
  unfold slotBase slotSize at *
  exact ⟨not_mem_span_of_mem_span (a := sp) hx (by omega) (by omega) (by omega),
    mem_span_of_mem_span hx (by omega)⟩

theorem area_in_frame (h : (frameOf s a).Fits)
    (hx : x ∈ a.placement.area (StackFrame.spillBase s.slots) sp) :
    x ∉ span sp (slotBase + slotSize * s.slots) ∧
      x ∈ span sp (slotBase + slotSize * s.slots + slotSize * a.spills) := by
  have hslots : s.slots < 2 ^ 27 := h.slots
  have hspills : a.spills < 2 ^ 27 := h.spills
  have hdistance : (sp + (StackFrame.spillBase s.slots).toBitVec - sp).toNat = _ :=
    distance_slot hslots sp
  have hx : x ∈ span (sp + (StackFrame.spillBase s.slots).toBitVec) (4 * a.spills) := hx
  have hzero : (sp - sp).toNat = 0 := by simp
  unfold slotBase slotSize at *
  exact ⟨not_mem_span_of_mem_span (a := sp) hx (by omega) (by omega) (by omega),
    mem_span_of_mem_span hx (by omega)⟩

theorem span_mono {n m : Nat} (hx : x ∈ span sp n) (h : n ≤ m) : x ∈ span sp m :=
  Nat.lt_of_lt_of_le hx h

/-- The parts of a frame are within it. -/
theorem parts_in_frame (h : (frameOf s a).Fits)
    (hx : x ∈ slotArea s sp ∨ x ∈ a.placement.area (StackFrame.spillBase s.slots) sp) :
    x ∈ span sp (frameOf s a).total := by
  have hbytes := (frameOf s a).bytes_le_total
  have hparts : slotBase + slotSize * s.slots + slotSize * a.spills + slotSize * a.saved.length ≤
    (frameOf s a).total := hbytes
  rcases hx with hx | hx
  · exact span_mono (slots_in_frame h.slots hx).2 (by omega)
  · exact span_mono (area_in_frame h hx).2 (by omega)

/-- The code of a function on virtual registers is hosted by the listing. -/
theorem Compiles.hosted {opts : CodegenOptions} {functions : List String} {labels room : Nat}
    {f : NamedFunction} {lf : LoweredFunction} (h : Compiles opts functions labels f lf s a)
    (hcomments : opts.comments = false) (fits : (frameOf s a).Fits) (hdistinct : big.Distinct)
    (hat : At big origin (a.placement.realize lf.code ++ [Instr.label lf.exit]))
    (hroom : (frameOf s a).total + room ≤ 2 ^ 32) :
    ∃ ranges, Hosted (StackFrame.spillBase s.slots) lf.code ranges a.placement big origin sp
      (slotArea s sp) room := by
  obtain ⟨-, piece⟩ := shape_function hcomments h.lowered
  obtain ⟨-, ⟨ranges, hfits⟩, -⟩ := allocate_spec h.allocated
  have hspills : a.placement.spilled.length < 2 ^ 27 := fits.spills
  refine ⟨ranges, hfits, by omega, ?_, fun i hi => (piece.tidy i hi).lowered,
    h.embeds hcomments hdistinct hat, ?_, ?_, ?_, ?_⟩
  · refine forward_of_jumps piece.distinct piece.jumps ?_
    rintro l rfl
    exact h.exit_not_mem hcomments
  · exact fun i hi get hsp x hx => (piece.tidy i hi).accesses get sp hsp x hx
  · exact fun x hx harea => (area_in_frame fits harea).1 (slots_in_frame fits.slots hx).2
  · exact fun x hx => not_mem_below_of_mem_span (parts_in_frame fits (.inl hx)) hroom
  · exact fun x hx => not_mem_below_of_mem_span (parts_in_frame fits (.inr hx)) hroom

/-! ### Functions -/

/-- A program whose functions have few variables and registers, and frames of a bounded size. -/
def Program.Within (opts : CodegenOptions) (p : Program) (frame : Nat) : Prop :=
  ∀ e ∈ p.frames opts, e.1.slots < 2 ^ 27 ∧ e.1.regs < 2 ^ 27 ∧ e.2.size.toInt ≤ frame

instance (opts : CodegenOptions) (p : Program) (frame : Nat) : Decidable (p.Within opts frame) :=
  inferInstanceAs (Decidable (∀ e ∈ p.frames opts, _))

/-- The body of a function, from its first block to its end. -/
theorem Compiles.run_body {opts : CodegenOptions} {labels : Nat} {f : NamedFunction}
    {lf : LoweredFunction} (h : Compiles opts (p.functions.map (·.name)) labels f lf s a)
    (gen : p.Generated opts big) (hf : f ∈ p.functions) (hcomments : opts.comments = false)
    (fits : (frameOf s a).Fits) (hlength : big.length < 2 ^ 32)
    (hroom : (frameOf s a).total + frame * depth ≤ 2 ^ 32)
    (ih : p.CallsWell sym junk big frame depth)
    (hat : At big origin (a.placement.realize lf.code ++ [Instr.label lf.exit])) {args : List Val}
    {v : Val} (hv : p.eval (depth + 1) f.name args = some v) {d : Config} (hpc : d.pc = origin)
    (hsp : d.regs .sp = some sp) (hargs : ∀ k w, args[k]? = some w → d.regs (.arg k) = some w)
    (hsaved : ∀ r, r.isSaved = true → (d.regs r).isSome = true) :
    ∃ ps d', Run (Machine.step sym junk big) d ps d' ∧
      d'.pc = origin + (a.placement.realize lf.code).length ∧ d'.regs .a0 = some v ∧
      d'.regs .sp = some sp ∧
      a.placement.Spares (StackFrame.spillBase s.slots) (slotArea s sp ∪ below sp (frame * depth))
        sp d d' := by
  obtain ⟨hlen, hbody⟩ := Program.eval_succ gen.names hf hv
  obtain ⟨hcount, -⟩ := gives_function h.lowered
  obtain ⟨-, piece⟩ := shape_function hcomments h.lowered
  obtain ⟨ranges, hosted⟩ := h.hosted hcomments fits gen.distinct hat hroom
  -- The machine on virtual registers starts with what the machine registers hold.
  let c : Config := { d with pc := 0, regs := fun r => if r.isVirtual then none else d.regs r }
  have hcargs : ∀ k w, args[k]? = some w → c.regs (.arg k) = some w := by
    intro k w hk
    have hlt := (List.getElem?_eq_some_iff.1 hk).1
    have hplain : (Reg.arg k).isVirtual = false := by
      have key : ∀ k < Reg.argCount, (Reg.arg k).isVirtual = false := by decide
      exact key k (by omega)
    show (if (Reg.arg k).isVirtual then none else d.regs (.arg k)) = some w
    rw [hplain, ← hargs k w hk]
    rfl
  have host := Program.hosts gen.names opts f lf.exit sym depth piece.distinct
  obtain ⟨ps, c', hrun, hend, ha0⟩ :=
    run_function hcomments h.lowered (Nat.le_of_lt fits.slots) host (h.target_exit hcomments)
      (c := c) rfl hsp hlen hcargs hbody
  have start : Tracks ranges a.placement lf.code origin sp (slotArea s sp) c d := by
    refine ⟨⟨fun r hr w hw => ?_, hsp, fun _ _ => rfl, fun r w hr hw => ?_, rfl⟩, hpc, hsaved⟩
    · have hw : (if r.isVirtual then none else d.regs r) = some w := hw
      rwa [Placement.not_isVirtual_of_isShared hr] at hw
    · have hw : (if r.isVirtual then none else d.regs r) = some w := hw
      rw [hr] at hw
      cases hw
  obtain ⟨qs, d', hrun', t, hspares⟩ := hosted.run ih hlength hrun start
  refine ⟨qs, d', hrun', ?_, t.follows.shared .a0 rfl v ha0, t.follows.sp_target upholds_carries,
    hspares⟩
  rw [t.pc, hend, Placement.offset, List.take_length]

/-- A function returns its value if the functions that it calls do. -/
theorem Program.CallsWell.succ {opts : CodegenOptions} (gen : p.Generated opts big)
    (hcomments : opts.comments = false) (hlength : big.length < 2 ^ 32)
    (hwithin : p.Within opts frame) (hroom : frame * (depth + 1) ≤ 2 ^ 32)
    (ih : p.CallsWell sym junk big frame depth) : p.CallsWell sym junk big frame (depth + 1) := by
  intro f hf args v hv sp ra d hpc entry
  obtain ⟨labels, lf, s, a, origin, compiles, hat, hframe⟩ := gen.blocks f hf
  obtain ⟨hslots, hregs, hsize⟩ := hwithin _ hframe
  dsimp only at hslots hregs hsize
  have fits := compiles.frame_fits hcomments hslots hregs
  rw [StackFrame.toInt_size fits, Int.ofNat_le] at hsize
  have hspace : (frameOf s a).total + frame * depth ≤ frame * (depth + 1) := by
    rw [Nat.mul_succ]
    omega
  obtain ⟨hcode, -, hhomes, hpool⟩ := allocate_spec compiles.allocated
  have hsaved : ∀ r ∈ a.saved, r.isSaved = true ∧ r ≠ .sp ∧ r ≠ .zero := by
    have key : ∀ r ∈ Pools.standard.saved, r.isSaved = true ∧ r ≠ .sp ∧ r ≠ .zero := by decide
    exact fun r hr => key r (hpool r hr)
  let value : Reg → Val := fun r => (d.regs r).getD 0
  have hvalue : ∀ r, r.isSaved = true → d.regs r = some (value r) := by
    intro r hr
    obtain ⟨w, hw⟩ := Option.isSome_iff_exists.1 (entry.saved r hr)
    show d.regs r = some ((d.regs r).getD 0)
    rw [hw]
    rfl
  -- The parts of the code.
  unfold blockOf at hat
  rw [hcode, List.append_assoc _ (a.placement.realize lf.code)] at hat
  obtain ⟨hat, hatleave⟩ := At.append hat
  obtain ⟨hat, hatbody⟩ := At.append hat
  obtain ⟨hatlabel, hatenter⟩ := At.append hat
  have hlabel := (At.head hatlabel).1
  rw [gen.distinct.target hlabel] at hpc
  rw [← hpc] at hlabel hatenter hatbody hatleave
  -- The frame is taken.
  have hstep₀ : flow sym big d = some { d with pc := d.pc + 1 } := flow_of_effect hlabel rfl
  obtain ⟨ps₁, d₁, hrun₁, hpc₁, hsp₁, hregs₁, hkeeps₁, hmem₁⟩ := StackFrame.run_enter sym value fits
    (d := { d with pc := d.pc + 1 }) hatenter entry.stack entry.address
    (fun r hr =>
      ⟨(hsaved r hr).2.1, (Regs.get_of_ne_zero (hsaved r hr).2.2 _).trans
        (hvalue r (hsaved r hr).1)⟩)
  generalize hlow : sp - BitVec.ofNat 32 (frameOf s a).total = low at *
  have hbody₁ : d₁.pc =
    d.pc + ([Instr.label (functionLabel f.name)] ++ (frameOf s a).enter).length := by
    rw [hpc₁, List.length_append]
    show d.pc + 1 + _ = d.pc + (1 + _)
    omega
  -- The body runs.
  obtain ⟨ps₂, d₂, hrun₂, hpc₂, ha0₂, hsp₂, hspares⟩ :=
    compiles.run_body gen hf hcomments fits hlength (by omega) ih hatbody hv hbody₁ hsp₁
    (fun k w hk => (hregs₁ _ (arg_ne_sp k)).trans (entry.args k w hk))
    (fun r hr => by
      rw [hregs₁ r (by rintro rfl; cases hr)]
      exact entry.saved r hr)
  -- What the frame keeps is still there.
  have hkeeps₂ : (frameOf s a).Keeps low ra value d₂.mem := by
    refine hkeeps₁.of_mem fits fun x hx hparts => hspares.mem x ?_ fun harea => ?_
    · rintro (hslot | hbelow)
      · obtain ⟨h1, h2⟩ := slots_in_frame fits.slots hslot
        exact hparts h1 (span_mono h2 (Nat.le_add_right _ _))
      · exact not_mem_below_of_mem_span hx (by omega) hbelow
    · obtain ⟨h1, h2⟩ := area_in_frame fits harea
      exact hparts (fun h => h1 (span_mono h (Nat.le_add_right _ _))) h2
  -- The frame is given back.
  have hexit := (At.head (At.append hatbody).2).1
  rw [← hpc₂] at hexit
  have hstep₂ : flow sym big d₂ = some { d₂ with pc := d₂.pc + 1 } := flow_of_effect hexit rfl
  have hleave : At big (d₂.pc + 1) (frameOf s a).leave := by
    have hplace : d₂.pc + 1 = d.pc + ([Instr.label (functionLabel f.name)] ++ (frameOf s a).enter ++
        (a.placement.realize lf.code ++ [Instr.label lf.exit])).length := by
      rw [hpc₂]
      simp only [List.length_append, List.length_cons, List.length_nil]
      omega
    rw [hplace]
    exact hatleave
  subst hlow
  obtain ⟨ps₃, d₃, hrun₃, hjalr, hmem₃, hsp₃, hra₃, hregs₃⟩ :=
    StackFrame.run_leave sym value fits (d := { d₂ with pc := d₂.pc + 1 }) hleave hsp₂ hkeeps₂
      (fun h => (hsaved _ h).2.1 rfl)
  have hlift : ∀ {c c' ps}, Run (flow sym big) c ps c' → Run (Machine.step sym junk big) c ps c' :=
    fun h =>
    h.mono fun _ _ h => step_of_flow h
  refine ⟨_, { d₃ with pc := ra.toNat }, (hlift (.cons hstep₀ hrun₁)).append
    (hrun₂.append ((hlift (.cons hstep₂ hrun₃)).append (.single (step_of_return hjalr hra₃)))), rfl,
    ?_, hsp₃, ?_, ?_⟩
  · have hnot : Reg.a0 ∉ a.saved := fun h => by cases (hsaved _ h).1
    rw [← ha0₂]
    exact (hregs₃ .a0 (by decide) (by decide)).trans (if_neg hnot)
  · intro r hr
    have hrsp : r ≠ .sp := by
      rintro rfl
      cases hr
    have hrra : r ≠ .ra := by
      rintro rfl
      cases hr
    refine (hregs₃ r hrsp hrra).trans ?_
    by_cases hin : r ∈ a.saved
    · rw [hvalue r hr]
      exact if_pos hin
    · refine (if_neg hin).trans ?_
      show d₂.regs r = d.regs r
      rw [hspares.regs r hr fun u hu => hin (hhomes u r hu hr), hregs₁ r hrsp]
  · intro x hx
    have hframe : x ∉ span (sp - BitVec.ofNat 32 (frameOf s a).total) (frameOf s a).total :=
      fun h =>
      hx (below_mono (below_of_mem_span (by omega) h) (by omega))
    show d₃.mem x = d.mem x
    rw [hmem₃]
    show d₂.mem x = d.mem x
    rw [hspares.mem x ?_ fun harea => hframe (parts_in_frame fits (.inr harea)), hmem₁ x hframe]
    rintro (hslot | hbelow)
    · exact hframe (parts_in_frame fits (.inl hslot))
    · exact hx (below_mono (below_of_below_sub hbelow) hspace)

/-- Functions return their values, however deeply calls are nested, as long as the
stack has room. -/
theorem Program.callsWell {opts : CodegenOptions} (gen : p.Generated opts big)
    (hcomments : opts.comments = false) (hlength : big.length < 2 ^ 32)
    (hwithin : p.Within opts frame) (sym : String → Val) (junk : Config → Reg → Option Val)
    (hroom : frame * depth ≤ 2 ^ 32) : p.CallsWell sym junk big frame depth := by
  induction depth with
  | zero =>
    intro f _ args v hv
    cases hv
  | succ depth ih =>
    have hroom' : frame * depth ≤ 2 ^ 32 :=
      (Nat.mul_le_mul_left frame (Nat.le_succ depth)).trans hroom
    exact (ih hroom').succ gen hcomments hlength hwithin hroom

/-- Generated code computes what the program means. Take a program for which code is generated,
without comments, and whose functions have fewer than `2 ^ 27` variables and registers each and
frames of at most `frame` bytes. Let a call of a function mean `v`, calls being nested at most
`depth` deep, and let the stack have room for as many frames. Then a machine that starts at the
label of the function, with the arguments in their registers, runs until it is back at the return
address, whatever calls leave in the temporary registers. It then has `v` in the result register,
and the stack pointer, the preserved registers and memory outside the stack are as they were. -/
theorem generate_correct (opts : CodegenOptions) (p : Program) (code : Listing)
    (hgenerate : p.generate opts = .ok code) (hcomments : opts.comments = false) (frame : Nat)
    (hwithin : p.Within opts frame) (hlength : code.length < 2 ^ 32) (sym : String → Val)
    (junk : Config → Reg → Option Val) (f : NamedFunction) (hf : f ∈ p.functions) (args : List Val)
    (v : Val) (depth : Nat) (hroom : frame * depth ≤ 2 ^ 32)
    (hv : p.eval depth f.name args = some v) (sp ra : Val) (d : Config)
    (hpc : d.pc = target code (functionLabel f.name)) (hentry : Entry args sp ra d) :
    ∃ ps d', Run (step sym junk code) d ps d' ∧ Returned sp ra v (frame * depth) d d' :=
  p.callsWell (Program.generate_spec hcomments hgenerate) hcomments hlength hwithin sym junk hroom f
    hf args v hv sp ra d hpc hentry

/-- A function that calls itself from within an expression. -/
def factorialFunction : FuncDef where
  loc := {}
  name := "factorial"
  params := [⟨{}, "n", none⟩]
  ret := none
  body := ⟨{}, [
    .ifThen {} (.binOp {} .eq (.var {} "n") (.uint {} 0)) {} [.ret {} (some (.uint {} 1))],
    .ret {} (some (.binOp {} .mul (.var {} "n")
      (.call {} (.var {} "factorial") [.binOp {} .sub (.var {} "n") (.uint {} 1)] [])))]⟩
  checked := true

/-- The program that consists of this function. -/
def factorialProgram : Program := ⟨[], [.func factorialFunction]⟩

/-- A machine that is to compute the factorial of three. -/
def factorialStart (code : Listing) : Config where
  pc := target code (functionLabel "factorial")
  regs := fun r => some (if r = .a0 then 3 else 0x80000000)
  mem := fun _ => 0

theorem generate_correct_factorial : ∃ code, factorialProgram.generate {} = .ok code ∧
    ∃ ps d', Run (step (fun _ => 0) (fun _ _ => none) code) (factorialStart code) ps d' ∧
      d'.pc = 0x80000000 ∧ d'.regs .a0 = some 6 := by
  have hshort : (match factorialProgram.generate {} with
    | .ok code => decide (code.length < 2 ^ 32)
    | .error _ => false) = true := by decide +kernel
  cases hgenerate : factorialProgram.generate {} with
  | error e =>
    rw [hgenerate] at hshort
    cases hshort
  | ok code =>
    rw [hgenerate] at hshort
    have hlength : code.length < 2 ^ 32 := of_decide_eq_true hshort
    obtain ⟨ps, d', hrun, hreturned⟩ :=
      generate_correct {} factorialProgram code hgenerate rfl 16 (by decide +kernel) hlength
      (fun _ => 0) (fun _ _ => none) ⟨"factorial", factorialFunction⟩ List.mem_cons_self [3] 6 4
      (by decide) (by decide +kernel) 0x80000000 0x80000000 (factorialStart code) rfl
      ⟨by
        intro k w hk
        obtain rfl : k = 0 := by
          have := (List.getElem?_eq_some_iff.1 hk).1
          simpa using this
        exact hk, rfl, rfl, fun _ _ => rfl⟩
    exact ⟨code, rfl, ps, d', hrun, hreturned.pc, hreturned.result⟩

end FunRiscv
