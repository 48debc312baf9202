import Mathlib
import FunRiscv.Proofs.Pass.Hoisting

/-!
# The names of temporaries

* `readInt_toString`: a 64-bit integer is read back from its decimal form.
* `temporaryNumber?_temporaryName`: so the number of a temporary is known from its name.
* `Program.targets_le_lastTemporary`: the temporaries that a program assigns have numbers up to the
  one that linearization goes on from.
* `Program.functions_linearize`: what linearization does to the functions of a program.
* `linearize_temporaries_fresh`: the temporaries that it introduces are distinct, and the program
  assigns none of them.
* `linearize_captures_parameter`: but one of them may be the name of a parameter.
-/

namespace FunRiscv

/-! ### Decimal forms -/

namespace Number

theorem le_ofDigitChars (cs : List Char) (n : Nat) : n ≤ Nat.ofDigitChars 10 cs n := by
  induction cs generalizing n with
  | nil => exact Nat.le_refl n
  | cons c cs ih => exact Nat.le_trans (by omega) (ih (10 * n + (c.toNat - '0'.toNat)))

theorem readDigits_eq {cs : List Char} (hcs : ∀ c ∈ cs, c.isDigit = true) {n : Nat}
    (hlt : Nat.ofDigitChars 10 cs n < unsignedBound) :
    readDigits n cs = .ok (Nat.ofDigitChars 10 cs n) := by
  induction cs generalizing n with
  | nil => rfl
  | cons c cs ih =>
    have hdigit : (48 ≤ c.toNat && c.toNat ≤ 57) = true := by
      have := hcs c List.mem_cons_self
      simp only [Char.isDigit, Bool.and_eq_true, decide_eq_true_eq] at this ⊢
      exact ⟨this.1, this.2⟩
    have hstep : Nat.ofDigitChars 10 (c :: cs) n = Nat.ofDigitChars 10 cs
      (n * 10 + (c.toNat - 48)) := by
      rw [Nat.mul_comm]
      rfl
    rw [hstep] at hlt ⊢
    have hle := le_ofDigitChars cs (n * 10 + (c.toNat - 48))
    have hnot : ¬unsignedBound ≤ n * 10 + (c.toNat - 48) := by omega
    rw [readDigits, if_pos hdigit]
    simp only [if_neg hnot]
    exact ih (fun d hd => hcs d (List.mem_cons_of_mem _ hd)) hlt

theorem readNat_toDigits {n : Nat} (hn : n < unsignedBound) :
    readNat (Nat.toDigits 10 n) = .ok n := by
  have hdigits : ∀ c ∈ Nat.toDigits 10 n, c.isDigit = true :=
    fun c hc => Nat.isDigit_of_mem_toDigits (by decide) (by decide) hc
  have hvalue : Nat.ofDigitChars 10 (Nat.toDigits 10 n) 0 = n := Nat.ofDigitChars_ten_toDigits
  have hempty : (Nat.toDigits 10 n).isEmpty = false := by simp [Nat.toDigits_ne_nil]
  rw [readNat, hempty, if_neg Bool.false_ne_true, readDigits_eq hdigits (hvalue.symm ▸ hn), hvalue]

theorem readInt_toString {i : Int} (hlow : -(signedBound : Int) ≤ i) (hhigh : i < signedBound) :
    readInt (toString i) = .ok i := by
  have hbounds : signedBound < unsignedBound := by decide
  cases i with
  | ofNat m =>
    have hlist : (toString (Int.ofNat m)).toList = Nat.toDigits 10 m := by
      simp [ToString.toString, Int.repr]
    have hm : m < signedBound := by simpa using hhigh
    have hread := readNat_toDigits (Nat.lt_trans hm hbounds)
    have hhead : ∀ c ∈ Nat.toDigits 10 m, c.isDigit = true :=
      fun c hc => Nat.isDigit_of_mem_toDigits (by decide) (by decide) hc
    rw [readInt, hlist]
    split
    · next heq => exact absurd (hhead '-' (heq ▸ List.mem_cons_self)) (by decide)
    · next heq => exact absurd (hhead '+' (heq ▸ List.mem_cons_self)) (by decide)
    · rw [hread]
      show (if signedBound ≤ m then throw .outOfRange else
        pure (m : Int) : Except IntegerFault Int) = _
      rw [if_neg (Nat.not_le.2 hm)]
      rfl
  | negSucc m =>
    have hlist : (toString (Int.negSucc m)).toList = '-' :: Nat.toDigits 10 (m + 1) := by
      simp [ToString.toString, Int.repr]
    have hm : m + 1 ≤ signedBound := by omega
    have hread := readNat_toDigits (Nat.lt_of_le_of_lt hm hbounds)
    rw [readInt, hlist]
    show (readNat (Nat.toDigits 10 (m + 1)) >>= fun n => if signedBound < n then throw .outOfRange
      else pure (-(n : Int))) = _
    rw [hread]
    show (if signedBound < m + 1 then throw .outOfRange else
      pure (-((m + 1 : Nat) : Int)) : Except IntegerFault Int) = _
    rw [if_neg (Nat.not_lt.2 hm)]
    rfl

end Number

/-! ### Numbers and names -/

theorem startsWith_temporaryName (n : Int64) :
    (temporaryName n).startsWith temporaryStem = true := by
  simp [temporaryName]

theorem temporaryNumber?_temporaryName (n : Int64) :
    temporaryNumber? (temporaryName n) = some n := by
  have hdrop : String.ofList ((temporaryName n).toList.drop temporaryStem.length) = toString
    n.toInt := by
    simp [temporaryName, String.toList_append, ← String.length_toList]
  have hread : Number.readInt (toString n.toInt) = .ok n.toInt :=
    Number.readInt_toString (by simpa [Number.signedBound] using n.le_toInt)
      (by simpa [Number.signedBound] using n.toInt_lt)
  rw [temporaryNumber?, if_pos (startsWith_temporaryName n), hdrop, hread]
  simp

theorem startsWith_of_temporaryNumber? {t : String} {m : Int64} (h : temporaryNumber? t = some m) :
    t.startsWith temporaryStem = true := by
  unfold temporaryNumber? at h
  split at h
  · assumption
  · cases h

theorem temporaryName_injective : Function.Injective temporaryName := by
  intro m n h
  have := congrArg temporaryNumber? h
  simpa only [temporaryNumber?_temporaryName, Option.some.injEq] using this

theorem toInt_add_ofNat {n : Int64} {i : Nat} (h : n.toInt + i < 2 ^ 63) :
    (n + Int64.ofNat i).toInt = n.toInt + i := by
  have hlow := n.le_toInt
  have hsize : Int64.size = 2 ^ 64 := by norm_num [Int64.size]
  rw [Int64.toInt_add, Int64.toInt_ofNat', hsize, Int.add_bmod_bmod]
  exact Int.bmod_eq_of_le (by norm_num; omega) (by norm_num; omega)

/-- Where the counter does not run over, the number of a temporary is beyond the one it
was counted from. -/
theorem lt_of_mem_temporaries {n m : Int64} {k : Nat} (hroom : n.toInt + k < 2 ^ 63)
    (hm : temporaryName m ∈ temporaries n k) : n.toInt < m.toInt := by
  obtain ⟨i, hi, heq⟩ := List.mem_map.1 hm
  obtain rfl := temporaryName_injective heq
  have hik : i + 1 ≤ k := List.mem_range.1 hi
  rw [toInt_add_ofNat (by omega)]
  omega

theorem nodup_temporaries {n : Int64} {k : Nat} (hroom : n.toInt + k < 2 ^ 63) :
    (temporaries n k).Nodup := by
  refine List.Nodup.map_on (fun i hi j hj h => ?_) List.nodup_range
  have hik : i + 1 ≤ k := List.mem_range.1 hi
  have hjk : j + 1 ≤ k := List.mem_range.1 hj
  have hsum := congrArg Int64.toInt (temporaryName_injective h)
  rw [toInt_add_ofNat (by omega), toInt_add_ofNat (by omega)] at hsum
  omega

/-! ### The temporaries that a program assigns -/

/-- The greater of a number and that of a temporary. -/
def countTemporary (n : Int64) (t : String) : Int64 :=
  match temporaryNumber? t with
  | some m => if n < m then m else n
  | none => n

theorem le_countTemporary (n : Int64) (t : String) : n.toInt ≤ (countTemporary n t).toInt := by
  unfold countTemporary
  split
  · split
    · next h => exact Int.le_of_lt (Int64.lt_iff_toInt_lt.1 h)
    · exact Int.le_refl _
  · exact Int.le_refl _

theorem number_le_countTemporary {n m : Int64} {t : String} (h : temporaryNumber? t = some m) :
    m.toInt ≤ (countTemporary n t).toInt := by
  rw [countTemporary, h]
  show m.toInt ≤ (if n < m then m else n).toInt
  split
  · exact Int.le_refl _
  · next h => exact Int.not_lt.1 fun hlt => h (Int64.lt_iff_toInt_lt.2 hlt)

theorem le_foldl_countTemporary (ts : List String) (n : Int64) :
    n.toInt ≤ (ts.foldl countTemporary n).toInt := by
  induction ts generalizing n with
  | nil => exact Int.le_refl _
  | cons t ts ih => exact Int.le_trans (le_countTemporary n t) (ih _)

theorem number_le_foldl {ts : List String} {t : String} {n m : Int64} (ht : t ∈ ts)
    (hm : temporaryNumber? t = some m) : m.toInt ≤ (ts.foldl countTemporary n).toInt := by
  induction ts generalizing n with
  | nil => cases ht
  | cons u ts ih =>
    rcases List.mem_cons.1 ht with rfl | ht
    · exact Int.le_trans (number_le_countTemporary hm) (le_foldl_countTemporary ts _)
    · exact ih ht

/-- The temporaries that a program assigns have numbers up to the one that the counter
is moved to. -/
theorem Program.targets_le_lastTemporary {p : Program} {m : Int64} {t : String} (ht : t ∈ p.targets)
    (hm : temporaryNumber? t = some m) (last : Int64) : m.toInt ≤ (p.lastTemporary last).toInt :=
  number_le_foldl ht hm

/-! ### Functions -/

namespace Hoisting

/-- A function and what becomes of it: its body means the same, if the temporaries are
distinct and new to it. -/
structure SameFunction (temps : List String) (f g : NamedFunction) : Prop where
  name : g.name = f.name
  params : g.func.params = f.func.params
  eval : stmtsLowerable f.func.body.stmts = true → temps.Nodup →
    (∀ n ∈ f.func.mentioned, n ∉ temps) →
    ∀ call σ, evalBody call σ g.func.body.stmts = evalBody call σ f.func.body.stmts

theorem SameFunction.mono {temps temps' : List String} {f g : NamedFunction}
    (h : SameFunction temps f g) (hsub : List.Sublist temps temps') : SameFunction temps' f g :=
  ⟨h.name, h.params, fun hlow hnodup hfresh =>
    h.eval hlow (hnodup.sublist hsub) fun n hn hmem => hfresh n hn (hsub.subset hmem)⟩

theorem evalBody_eq_of_rel {call : String → List Machine.Val → Option Machine.Val}
    {names : List String} {σ τ : Store} {ss ts : List Stmt}
    (h : Option.Rel (Outcome.Alike names) (evalStmts call σ ss) (evalStmts call τ ts)) :
    evalBody call σ ss = evalBody call τ ts := by
  unfold evalBody
  generalize evalStmts call σ ss = x at h
  generalize evalStmts call τ ts = y at h
  cases h with
  | none => rfl
  | some hout => cases hout <;> rfl

theorem HoistsStmts.sameFunction {f : NamedFunction} {s s' : Temporaries} {ss' : List Stmt}
    {k : Nat} (h : HoistsStmts (stmts f.func.body.stmts) f.func.body.stmts s ss' k s') :
    SameFunction (temporaries s.last k) f (f.withBody ss') where
  name := rfl
  params := rfl
  eval hlow hnodup hfresh call σ := by
    have hnames : stmtsMentioned f.func.body.stmts ⊆ f.func.mentioned :=
      fun n hn => List.mem_cons_of_mem _ (List.mem_append_right _ hn)
    exact (evalBody_eq_of_rel (h.keeps hlow f.func.mentioned hnames hnodup hfresh call σ σ
      (.refl _ σ))).symm

/-- What becomes of functions, one after the other. -/
structure HoistsBodies (fs : List NamedFunction) (s : Temporaries) (gs : List NamedFunction)
    (k : Nat) (s' : Temporaries) : Prop where
  run : ((mapBodies stmts fs).run s).value = (gs, s')
  last : s'.last = s.last + Int64.ofNat k
  targets : (gs.flatMap fun f => stmtsTargets f.func.body.stmts).Perm
    ((fs.flatMap fun f => stmtsTargets f.func.body.stmts) ++ temporaries s.last k)
  mentioned : (gs.flatMap fun f => f.func.mentioned) ⊆ (fs.flatMap fun f => f.func.mentioned) ++
    temporaries s.last k
  count : k ≤ (fs.map fun f => stmtsNodeCount f.func.body.stmts).sum
  same : List.Forall₂ (SameFunction (temporaries s.last k)) fs gs

theorem bodies_hoist :
    ∀ (fs : List NamedFunction) (s : Temporaries), ∃ gs k s', HoistsBodies fs s gs k s'
  | [], s => ⟨[], 0, s, rfl, (Int64.add_zero _).symm, by simp, by simp, Nat.le_refl _, .nil⟩
  | f :: fs, s => by
    obtain ⟨ss', j, s₁, hf⟩ := stmts_hoists f.func.body.stmts s
    obtain ⟨gs, k, s', hfs⟩ := bodies_hoist fs s₁
    have htemps : temporaries s.last (j + k) = temporaries s.last j ++ temporaries s₁.last k := by
      rw [temporaries_add, hf.last]
    refine ⟨f.withBody ss' :: gs, j + k, s', ?_, ?_, ?_, ?_, ?_, ?_⟩
    · rw [mapBodies_cons, value_bind hf.run, value_bind hfs.run]
      rfl
    · rw [hfs.last, hf.last, Int64.ofNat_add, Int64.add_assoc]
    · rw [htemps]
      have hboth := hf.targets.append hfs.targets
      rw [List.perm_iff_count] at hboth ⊢
      intro n
      have := hboth n
      simp only [List.flatMap_cons, List.count_append, NamedFunction.withBody] at this ⊢
      omega
    · rw [htemps]
      have hfirst := hf.mentioned
      have hrest := hfs.mentioned
      intro n hn
      simp only [List.flatMap_cons, List.mem_append, NamedFunction.withBody, FuncDef.mentioned,
        List.mem_cons] at hn ⊢
      rcases hn with (hn | hn | hn) | hn
      · tauto
      · tauto
      · have := List.mem_append.1 (hfirst hn)
        tauto
      · have := List.mem_append.1 (hrest hn)
        simp only [FuncDef.mentioned] at this
        tauto
    · have hfc := hf.count
      have hfsc := hfs.count
      rw [List.map_cons, List.sum_cons]
      omega
    · rw [htemps]
      exact .cons (hf.sameFunction.mono (List.sublist_append_left _ _))
        (hfs.same.imp fun _ _ h => h.mono (List.sublist_append_right _ _))

end Hoisting

/-- The functions of a linearized program. -/
theorem Program.functions_linearize (p : Program) (last : Int64) :
    ∃ k s', Hoisting.HoistsBodies p.functions { last := p.lastTemporary last }
      (p.linearize last).1.value.functions k s' := by
  obtain ⟨gs, k, s', h⟩ := Hoisting.bodies_hoist p.functions { last := p.lastTemporary last }
  refine ⟨k, s', ?_⟩
  rw [(p.linearized_bodies last).1, h.run]
  exact h

/-! ### Freshness -/

/-- The temporaries that linearization introduces: what is assigned beside what was
assigned before. -/
def Program.introduced (p : Program) (last : Int64) : List String :=
  (p.linearize last).1.value.targets.diff p.targets

/-- Linearization names distinct temporaries, none of which the program assigns. Nothing else is
new in the program. So if every name that looks like a temporary is assigned somewhere, the
temporaries occur nowhere in the program. The counter has to have room for as many temporaries as
there are expressions. -/
theorem linearize_temporaries_fresh (p : Program) (last : Int64)
    (hroom : (p.lastTemporary last).toInt + p.nodeCount < 2 ^ 63) :
    (p.introduced last).Nodup ∧ (∀ n ∈ p.introduced last, n ∉ p.targets) ∧
    (∀ n ∈ (p.linearize last).1.value.mentioned, n ∈ p.mentioned ∨ n ∈ p.introduced last) ∧
    ((∀ n ∈ p.mentioned, n.startsWith temporaryStem = true → n ∈ p.targets) →
      ∀ n ∈ p.introduced last, n ∉ p.mentioned) := by
  obtain ⟨k, s', h⟩ := p.functions_linearize last
  have hcount : k ≤ p.nodeCount := h.count
  have hroomk : (p.lastTemporary last).toInt + k < 2 ^ 63 := by omega
  have hperm : (p.introduced last).Perm (temporaries (p.lastTemporary last) k) := by
    refine List.perm_iff_count.2 fun n => ?_
    have hn := List.perm_iff_count.1 h.targets n
    rw [List.count_append] at hn
    rw [Program.introduced, List.count_diff]
    exact Nat.sub_eq_of_eq_add' hn
  have hfresh : ∀ n ∈ p.introduced last, n ∉ p.targets := by
    intro n hn ht
    obtain ⟨i, -, rfl⟩ := List.mem_map.1 (hperm.mem_iff.1 hn)
    have hlt := lt_of_mem_temporaries hroomk (hperm.mem_iff.1 hn)
    have hle := p.targets_le_lastTemporary ht (temporaryNumber?_temporaryName _) last
    exact absurd hlt (Int.not_lt.2 hle)
  refine ⟨hperm.nodup_iff.2 (nodup_temporaries hroomk), hfresh, fun n hn => ?_,
    fun hnames n hn hmem => ?_⟩
  · exact (List.mem_append.1 (h.mentioned hn)).imp_right hperm.mem_iff.2
  · obtain ⟨i, -, rfl⟩ := List.mem_map.1 (hperm.mem_iff.1 hn)
    exact hfresh _ hn (hnames _ hmem (startsWith_temporaryName _))

/-- A program of one function that assigns one to some variables and returns the sum of one and two,
times a variable. -/
def sumTimes (params before : List String) (n : String) : Program :=
  ⟨[], [.func
    { loc := {}
      name := "main"
      params := params.map fun n => ⟨{}, n, some (.name {} "u24" [])⟩
      ret := some (.name {} "u24" [])
      body := ⟨{}, before.map (fun n => .assign {} n none (.uint {} 1)) ++
        [.ret {} (some (.binOp {} .mul (.binOp {} .add (.uint {} 1) (.uint {} 2)) (.var {} n)))]⟩
      checked := true }]⟩

theorem linearize_temporaries_fresh_seven :
    (sumTimes [] ["__lin_7"] "__lin_7").introduced 0 = ["__lin_8"] ∧
      "__lin_8" ∉ (sumTimes [] ["__lin_7"] "__lin_7").mentioned := by
  obtain ⟨-, -, -, hfresh⟩ :=
    linearize_temporaries_fresh (sumTimes [] ["__lin_7"] "__lin_7") 0 (by decide +kernel)
  have hintroduced : (sumTimes [] ["__lin_7"] "__lin_7").introduced 0 = ["__lin_8"] := by
    decide +kernel
  exact ⟨hintroduced, hfresh (by decide +kernel) "__lin_8" (hintroduced ▸ List.mem_cons_self)⟩

/-- A parameter may have the name that a temporary gets, and then its value is lost. -/
theorem linearize_captures_parameter :
    (sumTimes ["__lin_1"] [] "__lin_1").introduced 0 = ["__lin_1"] ∧
      "__lin_1" ∈ (sumTimes ["__lin_1"] [] "__lin_1").mentioned ∧
      (sumTimes ["__lin_1"] [] "__lin_1").eval 1 "main" [5] = some 15 ∧
      ((sumTimes ["__lin_1"] [] "__lin_1").linearize 0).1.value.eval 1 "main" [5] = some 9 := by
  refine ⟨?_, ?_, ?_, ?_⟩ <;> decide +kernel

end FunRiscv
