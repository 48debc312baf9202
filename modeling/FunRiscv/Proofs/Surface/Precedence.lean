import Mathlib
import FunRiscv.Proofs.Surface.RoundTrip

/-!
# Operators are read by their levels

* `Operator.level`: the place of an operator in the table of the reader.
* `Expr.sparing`: an operation with no more parentheses than the levels ask for.
* `Expr.Operation`: expressions of variables and operators.
* `ReadsAt`, `LeadsAt`: a text is read as an expression at a level, alone or as the
  first of some operands.
* `Program.parse_returned`: in the body of a function, what is written sparingly reads as
  the operation itself.
-/

namespace FunRiscv

open Reading

/-! ### Levels -/

namespace Operator

/-- The level of an operator in the table of the reader, counted from the loosest one. The power
operator is not in the table, it comes after all levels. -/
def level (op : Operator) : Nat := precedence.findIdx fun ops => ops.contains op

/-- Whether an operation has to stand between parentheses as the left operand of `op`. -/
def enclosesLeft (op inner : Operator) : Bool := op == .pow || inner.level < op.level

/-- Whether an operation has to stand between parentheses as the right operand of `op`. All
operators but the power associate to the left. -/
def enclosesRight (op inner : Operator) : Bool :=
  inner.level < op.level || (inner.level == op.level && op != .pow)

theorem eq_pow_of_level {op : Operator} (h : precedence.length ≤ op.level) : op = .pow := by
  revert h
  cases op <;> decide

theorem mem_of_level {op : Operator} (h : op.level < precedence.length) :
    op ∈ precedence[op.level] := by
  have hfound : precedence[op.level].contains op = true := List.findIdx_getElem
  exact List.contains_iff_mem.1 hfound

/-- An operator is in one level only. -/
theorem notMem_tighter (op : Operator) : op ∉ (precedence.drop (op.level + 1)).flatten := by
  cases op <;> decide

end Operator

/-! ### Operations -/

namespace Expr

/-- The operator of an operation. -/
def operator? : Expr → Option Operator
  | .binOp _ op _ _ => some op
  | _ => none

/-- A text, between parentheses if they are asked for. -/
def enclosedIf (enclosed : Bool) (text : List UInt8) : List UInt8 :=
  if enclosed then 0x28 :: (text ++ [0x29]) else text

/-- A variable or an operation with blanks around its operator. An operand stands between
parentheses only if its own operator is looser than the operator of the operation, or of the same
level and on the right of an operator that associates to the left, or on the left of a power. -/
def sparing : Expr → List UInt8
  | .var _ n => Text.bytesOf n
  | .binOp _ op a b => enclosedIf (a.operator?.any op.enclosesLeft) a.sparing ++
      0x20 :: (Text.bytesOf op.symbol ++ 0x20 :: enclosedIf (b.operator?.any op.enclosesRight)
        b.sparing)
  | _ => []

/-- Variables and operations on such expressions. -/
inductive Operation : Expr → Prop
  | var (l : Location) {n : String} (hn : IsName n) : Operation (.var l n)
  | binOp (l : Location) (op : Operator) {a b : Expr} (ha : Operation a) (hb : Operation b) :
    Operation (.binOp l op a b)

/-- The operator of an operation is at a level or tighter. -/
def Tight (e : Expr) (k : Nat) : Prop := ∀ op, e.operator? = some op → k ≤ op.level

theorem Operation.plain {e : Expr} (h : e.Operation) : e.Plain := by
  induction h with
  | var => trivial
  | binOp l op _ _ iha ihb => exact ⟨iha, ihb⟩

end Expr

/-! ### Reading at a level -/

/-- The text reads as the expression at the given levels, before a token that carries no operation
of these levels on. -/
def ReadsAt (src : Source) (e : Expr) (text : List UInt8) (levels : List (List Operator)) : Prop :=
  ∀ n bl tail, AllBlank bl → Apart tail → stops (levelTokens levels) tail = true →
    (bl ++ (text ++ tail)).length ≤ n →
    Reads src (binary src (nested src n) levels) (bl ++ (text ++ tail)) tail True fun a =>
      a.bare = e.bare

/-- The text reads as the expression if operands of the level `ops` are read, and further operands
may come after it. -/
def LeadsAt (src : Source) (e : Expr) (text : List UInt8) (ops : List Operator)
    (tighter : List (List Operator)) : Prop :=
  ∀ n start fuel bl tail stop (P : Expr → Prop), AllBlank bl → Apart tail →
    stops (levelTokens tighter) tail = true → (bl ++ (text ++ tail)).length ≤ n →
    (bl ++ (text ++ tail)).length < fuel →
    (∀ a fuel, a.bare = e.bare → tail.length < fuel →
      Reads src (operands src (binary src (nested src n) tighter) ops start fuel a) tail
        stop True P) →
    Reads src (binary src (nested src n) tighter >>= operands src
      (binary src (nested src n) tighter) ops start fuel)
      (bl ++ (text ++ tail)) stop True P

section

variable {src : Source} {e a b : Expr} {text left right : List UInt8} {ops : List Operator}
  {tighter levels : List (List Operator)}

theorem ReadsAt.of_chain (h : Chains src e text) (hstarts : Starts text) (hplain : e.Plain) :
    ReadsAt src e text levels :=
  fun _ _ _ hbl hapart htail hn =>
    (reads_binary_of_chain h hstarts hbl hapart htail hn fun _ => hplain).mono id fun _ ha =>
      ha.2 hplain

/-- What is read at a tighter level leads operands. -/
theorem ReadsAt.leads (h : ReadsAt src e text tighter) : LeadsAt src e text ops tighter := by
  intro n start fuel bl tail stop P hbl hapart htail hn hfuel hrest
  refine (h n bl tail hbl hapart htail hn).bind fun a ha => hrest a fuel ha ?_
  simp only [List.length_append] at hfuel
  omega

/-- What leads operands may stand alone. -/
theorem LeadsAt.reads (h : LeadsAt src e text ops tighter) (hstarts : Starts text) :
    ReadsAt src e text (ops :: tighter) := by
  intro n bl tail hbl hapart htail hn
  obtain ⟨htighter, hops⟩ := levelTokens_cons_subset ops tighter
  refine Reads.of_length fun hsize =>
    (reads_tokenStart ((hstarts.append tail).solid_skipped hbl)).bind fun start _ => ?_
  refine h n start _ bl tail tail _ hbl hapart (stops_mono htail htighter) hn
    (Nat.lt_succ_of_le hsize) fun a fuel ha hfuel => ?_
  exact reads_operands_end (stops_mono htail hops) (by omega) ha

/-- An operation leads operands of its own level if its left operand does. So such operators
associate to the left. -/
theorem LeadsAt.binOp {op : Operator} (ha : LeadsAt src a left ops tighter)
    (hb : ReadsAt src b right tighter) (hop : op ∈ ops) (hpow : op ≠ .pow)
    (hnot : op ∉ tighter.flatten) (l : Location) :
    LeadsAt src (.binOp l op a b) (left ++ 0x20 :: (Text.bytesOf op.symbol ++ 0x20 :: right))
      ops tighter := by
  intro n start fuel bl tail stop P hbl hapart htail hn hfuel hrest
  have htext : left ++ 0x20 :: (Text.bytesOf op.symbol ++ 0x20 :: right) ++ tail =
      left ++ 0x20 :: (Text.bytesOf op.symbol ++ 0x20 :: (right ++ tail)) := by simp
  rw [htext] at hn hfuel ⊢
  refine ha n start fuel bl _ stop P hbl ⟨rfl, by simp⟩ (Operator.stops_levelTokens hpow hnot _) hn
    hfuel fun a' k ha' hk => ?_
  obtain ⟨k, rfl⟩ : ∃ m, k = m + 1 := ⟨k - 1, by omega⟩
  simp only [List.length_append, List.length_cons] at hn hk
  refine reads_operands_next (op.next _) hop (hb n [0x20] tail allBlank_blank hapart htail ?_)
    fun l' b' hb' => hrest _ k ?_ ?_
  · simp only [List.length_append, List.length_cons, List.length_nil]
    omega
  · simp only [Expr.bare, ha', hb']
  · omega

/-- A power, which associates to the right. -/
theorem ReadsAt.pow (ha : Chains src a left) (hstarts : Starts left) (hplain : a.Plain)
    (hb : ReadsAt src b right []) (l : Location) :
    ReadsAt src (.binOp l .pow a b)
      (left ++ 0x20 :: (Text.bytesOf Operator.pow.symbol ++ 0x20 :: right)) [] := by
  intro n bl tail hbl hapart htail hn
  have htext : left ++ 0x20 :: (Text.bytesOf Operator.pow.symbol ++ 0x20 :: right) ++ tail =
      left ++ 0x20 :: (Text.bytesOf Operator.pow.symbol ++ 0x20 :: (right ++ tail)) := by simp
  rw [htext] at hn ⊢
  refine (reads_tokenStart ((hstarts.append _).solid_skipped hbl)).bind fun start _ => ?_
  refine (reads_postfixed_of_chain ha hstarts hbl ⟨rfl, by simp⟩
    (Operator.stops_of_token_notMem (by decide) _) hn fun _ => hplain).bind fun a' ha' =>
    Reads.punct_then (Operator.next .pow _) ?_
  obtain ⟨n, rfl⟩ : ∃ m, n = m + 1 :=
    ⟨n - 1, by simp only [List.length_append, List.length_cons] at hn; omega⟩
  have hright : Reads src (nested src (n + 1) .power) ([0x20] ++ (right ++ tail)) tail True fun a =>
    a.bare = b.bare := by
    refine hb n [0x20] tail allBlank_blank hapart htail ?_
    simp only [List.length_append, List.length_cons, List.length_nil] at hn ⊢
    omega
  refine (hright.inContext _).bind fun b' hb' =>
    (reads_locationFrom start).bind fun l' _ => Reads.pure ?_
  simp only [Expr.bare, ha'.2 hplain, hb']

end

/-! ### Operations at their levels -/

namespace Expr

/-- What is written sparingly for an expression reads at every level that is no tighter than its
operator, and leads operands there. -/
structure ReadsSparing (src : Source) (e : Expr) : Prop where
  starts : Starts e.sparing
  ends : Ends e.sparing
  atom : e.operator? = none → Chains src e e.sparing
  reads : ∀ k ≤ precedence.length, e.Tight k → ReadsAt src e e.sparing (precedence.drop k)
  leads : ∀ k (h : k < precedence.length), e.Tight k →
    LeadsAt src e e.sparing precedence[k] (precedence.drop (k + 1))

theorem starts_enclosedIf (c : Bool) {text : List UInt8} (h : Starts text) :
    Starts (enclosedIf c text) := by
  cases c
  · exact h
  · rfl

theorem ends_enclosedIf (c : Bool) {text : List UInt8} (h : Ends text) :
    Ends (enclosedIf c text) := by
  cases c
  · exact h
  · exact ends_cons (0x28 :: text) (by decide)

namespace ReadsSparing

variable {src : Source} {e : Expr} {k : Nat}

/-- Between parentheses every operation may stand anywhere. -/
theorem enclosed (h : e.ReadsSparing src) (hplain : e.Plain) :
    Chains src e (enclosedIf true e.sparing) := by
  refine chains_enclosed h.starts h.ends fun n good _ bl tail hbl htail hn => ?_
  obtain ⟨n, rfl⟩ : ∃ m, n = m + 1 := ⟨n - 1, by omega⟩
  have hread : Reads src (nested src (n + 1) .expr) (bl ++ (e.sparing ++ tail)) tail True fun a =>
    a.bare = e.bare :=
    h.reads 0 (Nat.zero_le _) (fun _ _ => Nat.zero_le _) n bl tail hbl htail.apart
      (stops_mono htail (List.subset_append_left _ _)) (Nat.le_of_lt_succ hn)
  exact hread.mono (fun _ => trivial) fun a ha => iff_of_true ha hplain

/-- An operand reads at a level if it is tight enough or between parentheses. -/
theorem operand_reads (h : e.ReadsSparing src) (hplain : e.Plain) {c : Bool}
    (hk : k ≤ precedence.length) (hc : c = false → e.Tight k) :
    ReadsAt src e (enclosedIf c e.sparing) (precedence.drop k) := by
  cases c with
  | true => exact .of_chain (h.enclosed hplain) (starts_enclosedIf true h.starts) hplain
  | false => exact h.reads k hk (hc rfl)

theorem operand_leads (h : e.ReadsSparing src) (hplain : e.Plain) {c : Bool}
    (hk : k < precedence.length) (hc : c = false → e.Tight k) :
    LeadsAt src e (enclosedIf c e.sparing) precedence[k] (precedence.drop (k + 1)) := by
  cases c with
  | true => exact (h.operand_reads (c := true) hplain hk (by simp)).leads
  | false => exact h.leads k hk (hc rfl)

/-- Left of a power, an operand is a variable or stands between parentheses. -/
theorem operand_chains (h : e.ReadsSparing src) (hplain : e.Plain) :
    Chains src e (enclosedIf (e.operator?.any Operator.pow.enclosesLeft) e.sparing) := by
  cases hop : e.operator? with
  | none => exact h.atom hop
  | some op => exact h.enclosed hplain

end ReadsSparing

theorem readsSparing_var (src : Source) (l : Location) {n : String} (hn : IsName n) :
    (Expr.var l n).ReadsSparing src := by
  have hback : (Expr.var l n).ReadsBack src := readsBack_var l hn
  have hreads : ∀ levels, ReadsAt src (.var l n) (Text.bytesOf n) levels :=
    fun levels => .of_chain hback.operand hback.starts trivial
  exact {
    starts := hback.starts
    ends := hback.ends
    atom := fun _ => hback.operand
    reads := fun k _ _ => hreads _
    leads := fun k _ _ => (hreads _).leads }

/-- What an operand of an operation need not be put between parentheses for. -/
theorem tight_of_not_enclosesLeft {e : Expr} {op : Operator}
    (h : e.operator?.any op.enclosesLeft = false) : e.Tight op.level := by
  intro inner hinner
  rw [hinner] at h
  simp only [Option.any_some, Operator.enclosesLeft, Bool.or_eq_false_iff,
    decide_eq_false_iff_not] at h
  omega

theorem tight_of_not_enclosesRight {e : Expr} {op : Operator} (hpow : op ≠ .pow)
    (h : e.operator?.any op.enclosesRight = false) : e.Tight (op.level + 1) := by
  intro inner hinner
  rw [hinner] at h
  simp only [Option.any_some, Operator.enclosesRight, Bool.or_eq_false_iff, decide_eq_false_iff_not,
    Bool.and_eq_false_iff, beq_eq_false_iff_ne, bne_eq_false_iff_eq] at h
  have hne := h.2.resolve_right hpow
  omega

section

variable {src : Source} {a b : Expr}

theorem sparing_binOp (l : Location) (op : Operator) : (Expr.binOp l op a b).sparing =
    enclosedIf (a.operator?.any op.enclosesLeft) a.sparing ++
      0x20 :: (Text.bytesOf op.symbol ++ 0x20 :: enclosedIf (b.operator?.any op.enclosesRight)
        b.sparing) := rfl

/-- An operation leads operands of its own level, which is that of no power. -/
theorem leads_binOp (l : Location) {op : Operator} (hlevel : op.level < precedence.length)
    (ha : a.ReadsSparing src) (hb : b.ReadsSparing src) (haplain : a.Plain) (hbplain : b.Plain) :
    LeadsAt src (.binOp l op a b) (Expr.binOp l op a b).sparing precedence[op.level]
      (precedence.drop (op.level + 1)) := by
  have hpow : op ≠ .pow := by
    rintro rfl
    exact absurd hlevel (by decide)
  have hleft := ha.operand_leads haplain hlevel tight_of_not_enclosesLeft
  have hright := hb.operand_reads hbplain hlevel (tight_of_not_enclosesRight hpow)
  exact hleft.binOp hright (Operator.mem_of_level hlevel) hpow op.notMem_tighter l

theorem reads_power (l : Location) (ha : a.ReadsSparing src) (hb : b.ReadsSparing src)
    (haplain : a.Plain) (hbplain : b.Plain) :
    ReadsAt src (.binOp l .pow a b) (Expr.binOp l .pow a b).sparing
      (precedence.drop precedence.length) := by
  have htight : b.operator?.any Operator.pow.enclosesRight = false → b.Tight precedence.length := by
    intro h inner hinner
    rw [hinner] at h
    have hpow : Operator.pow.level = precedence.length := by decide
    simpa [Operator.enclosesRight, hpow] using h
  have hright := hb.operand_reads hbplain le_rfl htight
  rw [List.drop_length] at hright ⊢
  exact .pow (ha.operand_chains haplain) (starts_enclosedIf _ ha.starts) haplain hright l

theorem readsSparing_binOp (l : Location) (op : Operator) (ha : a.ReadsSparing src)
    (hb : b.ReadsSparing src) (haplain : a.Plain) (hbplain : b.Plain) :
    (Expr.binOp l op a b).ReadsSparing src := by
  have hstarts : Starts (Expr.binOp l op a b).sparing := (starts_enclosedIf _ ha.starts).append _
  have hends := ((ends_enclosedIf (b.operator?.any op.enclosesRight) hb.ends).append
    (0x20 :: (Text.bytesOf op.symbol ++ [0x20]))).append
    (enclosedIf (a.operator?.any op.enclosesLeft) a.sparing)
  -- From the tightest level down: at its own level the operation leads operands, at looser ones it
  -- is read as a whole.
  have hreads : ∀ d k, k + d = precedence.length → k ≤ op.level →
      ReadsAt src (.binOp l op a b) (Expr.binOp l op a b).sparing (precedence.drop k) ∧
        ∀ h : k < precedence.length, LeadsAt src (.binOp l op a b) (Expr.binOp l op a b).sparing
          precedence[k] (precedence.drop (k + 1)) := by
    intro d
    induction d with
    | zero =>
      rintro k rfl hlevel
      obtain rfl := Operator.eq_pow_of_level hlevel
      exact ⟨reads_power l ha hb haplain hbplain, fun h => absurd h (by simp)⟩
    | succ d ih =>
      intro k hk hlevel
      have hlt : k < precedence.length := by omega
      have hleads : LeadsAt src (.binOp l op a b) (Expr.binOp l op a b).sparing precedence[k]
        (precedence.drop (k + 1)) := by
        rcases Nat.eq_or_lt_of_le hlevel with rfl | hlevel
        · exact leads_binOp l hlt ha hb haplain hbplain
        · exact (ih (k + 1) (by omega) hlevel).1.leads
      refine ⟨?_, fun _ => hleads⟩
      rw [List.drop_eq_getElem_cons hlt]
      exact hleads.reads hstarts
  exact {
    starts := hstarts
    ends := by simpa [sparing_binOp] using hends
    atom := fun h => absurd h (by simp [operator?])
    reads := fun k hk htight => (hreads (precedence.length - k) k (by omega) (htight op rfl)).1
    leads := fun k hk htight => (hreads (precedence.length - k) k (by omega) (htight op rfl)).2 hk }

end

/-- What is written sparingly for an operation reads back at every level. -/
theorem Operation.readsSparing (src : Source) {e : Expr} (h : e.Operation) :
    e.ReadsSparing src := by
  induction h with
  | var l hn => exact readsSparing_var src l hn
  | binOp l op ha hb iha ihb => exact readsSparing_binOp l op iha ihb ha.plain hb.plain

end Expr

/-! ### Functions -/

/-- A function that returns an expression. -/
def Expr.returned (e : Expr) : FuncDef where
  loc := {}
  name := "f"
  params := []
  ret := none
  body := { loc := {}, stmts := [.ret {} (some e)] }
  checked := false

/-- The text of that function, the expression written sparingly. -/
def Expr.returnedText (e : Expr) : List UInt8 :=
  Text.bytesOf "fn f() \x7b return " ++ (e.sparing ++ Text.bytesOf "; \x7d")

section

variable {src : Source} {e : Expr} {n start : Nat} {tail : List UInt8}

theorem reads_returnTail (h : e.ReadsSparing src)
    (hn : ([0x20] ++ (e.sparing ++ 0x3b :: tail)).length ≤ n) :
    Reads src (returnTail src (nested src (n + 1)) start) ([0x20] ++ (e.sparing ++ 0x3b :: tail))
      tail True fun s => s.bare = (Stmt.ret {} (some e)).bare := by
  have hfirst := h.starts.append (0x3b :: tail)
  refine Reads.punct_else (hfirst.solid_skipped allBlank_blank)
    (hfirst.nextPunct_ne allBlank_blank (by decide)) ?_
  have hread : Reads src (nested src (n + 1) .expr) ([0x20] ++ (e.sparing ++ 0x3b :: tail))
      (0x3b :: tail) True fun a => a.bare = e.bare := by
    have hend : ExprEnd (0x3b :: tail) := exprEnd_cons (by simp) tail
    exact h.reads 0 (Nat.zero_le _) (fun _ _ => Nat.zero_le _) n [0x20] _ allBlank_blank hend.apart
      (stops_mono hend (List.subset_append_left _ _)) hn
  refine (hread.inContext _).bind fun a ha => (reads_expect ⟨rfl, rfl, rfl⟩).bind fun _ _ => ?_
  exact (reads_locationFrom start).bind fun _ _ => Reads.pure (by simp [Stmt.bare, ha])

theorem nextWord_return (rest : List UInt8) :
    NextWord "return" ([0x20] ++ (Text.bytesOf "return" ++ ([0x20] ++ rest))) ([0x20] ++ rest) :=
  Stmt.isWord_return.nextWord allBlank_blank rfl

theorem reads_returned_stmts {fuel : Nat} (h : e.ReadsSparing src)
    (hn : ([0x20] ++ (e.sparing ++ 0x3b :: 0x20 :: 0x7d :: tail)).length ≤ n) :
    Reads src (manyUntil src (stmt src (nested src (n + 1))) .closeBrace (fuel + 2))
      ([0x20] ++ (Text.bytesOf "return" ++ ([0x20] ++ (e.sparing ++ 0x3b :: 0x20 :: 0x7d :: tail))))
      tail True fun ss => ss.map Stmt.bare = [(Stmt.ret {} (some e)).bare] := by
  have hword := nextWord_return (e.sparing ++ 0x3b :: 0x20 :: 0x7d :: tail)
  refine Reads.punct_else hword.1 (hword.nextPunct_ne _) ?_
  have hstmt : Reads src (stmt src (nested src (n + 1)))
    ([0x20] ++ (Text.bytesOf "return" ++ ([0x20] ++ (e.sparing ++ 0x3b :: 0x20 :: 0x7d :: tail))))
    (0x20 :: 0x7d :: tail) True fun s => s.bare = (Stmt.ret {} (some e)).bare :=
    (reads_tokenStart hword.1).bind fun s _ => Reads.keyword_then hword (reads_returnTail h hn)
  have hclose : Reads src (manyUntil src (stmt src (nested src (n + 1))) .closeBrace (fuel + 1))
      (0x20 :: 0x7d :: tail) tail True (· = []) := Reads.punct_then ⟨rfl, rfl, rfl⟩ (Reads.pure rfl)
  refine hstmt.bind fun s hs => hclose.bind ?_
  rintro _ rfl
  exact Reads.pure (by simp [hs])

/-- The function after its keyword. -/
theorem reads_returned_func (h : e.ReadsSparing src) :
    Reads src (funcTail src start)
      ([0x20] ++ (Text.bytesOf "f" ++ 0x28 :: 0x29 :: 0x20 :: 0x7b ::
        ([0x20] ++ (Text.bytesOf "return" ++
          ([0x20] ++ (e.sparing ++ 0x3b :: 0x20 :: 0x7d :: tail)))))) tail True fun d =>
    d.bare = e.returned.bare := by
  have hname : IsName "f" := ⟨⟨[0x66], rfl, rfl, rfl⟩, rfl⟩
  refine Reads.of_length fun hsize => ?_
  simp only [List.length_append, List.length_cons] at hsize
  obtain ⟨m, hm⟩ : ∃ m, src.size = m + 1 := ⟨src.size - 1, by omega⟩
  refine ((reads_name (hname.1.nextWord allBlank_blank rfl) hname.2).inContext _).bind ?_
  rintro _ rfl
  have hparams : Reads src (params src (tree src))
    (0x28 :: 0x29 :: 0x20 :: 0x7b ::
      ([0x20] ++ (Text.bytesOf "return" ++
        ([0x20] ++ (e.sparing ++ 0x3b :: 0x20 :: 0x7d :: tail))))) _ True (· = []) :=
    (reads_expect ⟨rfl, rfl, rfl⟩).bind fun _ _ => Reads.punct_then ⟨rfl, rfl, rfl⟩ (Reads.pure rfl)
  refine (hparams.inContext _).bind ?_
  rintro _ rfl
  refine Reads.punct_other (u := .openBrace) ⟨rfl, rfl, rfl⟩ (by decide) ?_
  have hblock : Reads src (tree src .block)
    (0x20 :: 0x7b ::
      ([0x20] ++ (Text.bytesOf "return" ++
        ([0x20] ++ (e.sparing ++ 0x3b :: 0x20 :: 0x7d :: tail))))) tail True fun b =>
    b.stmts.map Stmt.bare = [(Stmt.ret {} (some e)).bare] := by
    rw [tree, hm]
    refine (reads_tokenStart rfl).bind fun s _ => (reads_expect ⟨rfl, rfl, rfl⟩).bind fun _ _ => ?_
    rw [rounds, hm]
    refine (reads_returned_stmts h ?_).bind fun ss hss =>
      (reads_locationFrom s).bind fun _ _ => Reads.pure hss
    simp only [List.length_append, List.length_cons, List.length_nil]
    omega
  refine (Reads.pure (P := fun r : Option TypeExpr => r = none) rfl).bind ?_
  rintro _ rfl
  refine (hblock.inContext _).bind fun b hb =>
    (reads_locationFrom start).bind fun _ _ => Reads.pure ?_
  simp [FuncDef.bare, Block.bare, Expr.returned, stmtsBare_eq_map, hb]

theorem reads_returned (h : e.ReadsSparing src) :
    Reads src (items src (n + 2)) e.returnedText [] True fun p =>
      p.bare = Program.bare ⟨[], [.func e.returned]⟩ := by
  have hword : NextWord "fn" e.returnedText
    ([0x20] ++ (Text.bytesOf "f" ++ 0x28 :: 0x29 :: 0x20 :: 0x7b ::
      ([0x20] ++ (Text.bytesOf "return" ++ ([0x20] ++ (e.sparing ++ 0x3b :: 0x20 :: [0x7d])))))) :=
    isWord_fn.nextWord allBlank_nil rfl
  refine reads_items_step hword fun s => Reads.keyword_other hword (by decide) ?_
  have hdefinition : Reads src (definition src) e.returnedText [] True fun d =>
    d.bare = .func e.returned.bare := by
    refine (reads_tokenStart hword.1).bind fun s _ => Reads.keyword_other hword (by decide) ?_
    refine (reads_tokenStart hword.1).bind fun s _ => Reads.keyword_then hword ?_
    exact (reads_returned_func h).bind fun d hd => Reads.pure (by simp [Definition.bare, hd])
  refine hdefinition.bind fun d hd => (reads_items_end allBlank_nil).bind ?_
  rintro _ rfl
  exact Reads.pure (by simp [Program.bare, definitionsBare, Definition.bare, hd])

end

/-- In the body of a function, an operation of variables that is written sparingly is read as that
operation: operators take their operands by their levels, and those of one level associate to the
left, powers to the right. -/
theorem Program.parse_returned {e : Expr} (h : e.Operation) :
    ∃ p, Program.parse { bytes := e.returnedText.toArray } = .ok p ∧
      p.bare = Program.bare ⟨[], [.func e.returned]⟩ := by
  generalize hsrc : ({ bytes := e.returnedText.toArray } : Source) = src
  have hbytes : src.bytes.toList = e.returnedText := by rw [← hsrc]
  have hstart : src.At 0 e.returnedText :=
    ⟨by rw [Source.rest, hbytes, List.drop_zero], Nat.zero_le _⟩
  obtain ⟨n, hn⟩ : ∃ n, rounds src = n + 2 := by
    have hsize : src.size = e.returnedText.length := by
      rw [← hbytes, Source.size, Array.length_toList]
    have hpos : 0 < e.returnedText.length := Nat.succ_pos _
    exact ⟨src.size - 1, by rw [rounds]; omega⟩
  have hread : Reads src (items src (rounds src)) e.returnedText [] True fun p =>
      p.bare = Program.bare ⟨[], [.func e.returned]⟩ := hn ▸ reads_returned (h.readsSparing src)
  obtain ⟨p, j, hp, -, hbare⟩ | ⟨-, hfalse⟩ := hread 0 hstart
  · exact ⟨p, Program.parse_eq_ok_iff.2 ⟨j, hp⟩, hbare⟩
  · exact absurd trivial hfalse

/-- A difference of which only the right operand, a difference too, has parentheses. -/
def mixedOperation : Expr :=
  .binOp {} .sub (.binOp {} .add (.var {} "a") (.binOp {} .mul (.var {} "b") (.var {} "c")))
    (.binOp {} .sub (.var {} "List/d")
      (.binOp {} .pow (.var {} "e") (.binOp {} .pow (.var {} "f") (.var {} "g"))))

theorem Program.parse_returned_mixed : mixedOperation.Operation ∧
    mixedOperation.sparing = Text.bytesOf "a + b * c - (List/d - e ** f ** g)" ∧
      ∃ p, Program.parse { bytes := mixedOperation.returnedText.toArray } = .ok p ∧
        p.bare = Program.bare ⟨[], [.func mixedOperation.returned]⟩ := by
  have hall : ∀ n ∈ ["a", "b", "c", "List/d", "e", "f", "g"], (n = Text.ofAscii (Text.bytesOf n) ∧
      (Text.bytesOf n).head?.any isLetter = true ∧ wordRun (Text.bytesOf n) = Text.bytesOf n) ∧
      isKeyword n = false := by decide
  have hname : ∀ n ∈ ["a", "b", "c", "List/d", "e", "f", "g"], IsName n :=
    fun n hn => ⟨⟨_, (hall n hn).1⟩, (hall n hn).2⟩
  have hoperation : mixedOperation.Operation := by
    refine .binOp _ _ (.binOp _ _ (.var _ ?_) (.binOp _ _ (.var _ ?_) (.var _ ?_)))
      (.binOp _ _ (.var _ ?_) (.binOp _ _ (.var _ ?_) (.binOp _ _ (.var _ ?_) (.var _ ?_))))
    all_goals exact hname _ (by simp)
  exact ⟨hoperation, by rfl, Program.parse_returned hoperation⟩

end FunRiscv
