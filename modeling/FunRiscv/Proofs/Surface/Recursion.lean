import Mathlib
import FunRiscv.Proofs.Surface.Safety

/-!
# The recursion of the reader ends

* `Reading.Agrees`: two actions do the same at a position in the text. It is closed under the ways
  in which actions are put together.
* `Reading.SubAgrees`: two readers of nested parts agree from a position on, and read at least
  one byte of any part.
* `agrees_rule`: a rule at a position asks for nested parts at later positions only. So the
  recursion goes up in the text, and `tree_eq_rule` has the rules without a bound on the nesting.
-/

namespace FunRiscv.Reading

variable {α β : Type} {src : Source} {i : Nat}

/-- Started at a position in the text, both actions do the same. -/
def Agrees (src : Source) (act act' : Reading α) (i : Nat) : Prop := i ≤ src.size → act i = act' i

namespace Agrees

variable {act act' : Reading α} {P : α → Nat → Prop}

theorem refl (act : Reading α) : Agrees src act act i := fun _ => rfl

theorem of_le (h : i ≤ src.size → Agrees src act act' i) : Agrees src act act' i :=
  fun hi => h hi hi

theorem bind {f f' : α → Reading β} (h : Agrees src act act' i) (hact : Lands src act i P)
    (hf : ∀ a j, P a j → Agrees src (f a) (f' a) j) : Agrees src (act >>= f) (act' >>= f') i := by
  intro hi
  have hlands := hact hi
  rw [bind_apply, bind_apply, ← h hi]
  cases heq : act i with
  | error e => rfl
  | ok r =>
    rw [heq] at hlands
    exact hf r.1 r.2 hlands.2 hlands.1

/-- What is read first asks for no nested parts. -/
theorem after {f f' : α → Reading β} (hact : Lands src act i P)
    (hf : ∀ a j, P a j → Agrees src (f a) (f' a) j) : Agrees src (act >>= f) (act >>= f') i :=
  (refl act).bind hact hf

/-- What is read last asks for no nested parts. -/
theorem before (h : Agrees src act act' i) (f : α → Reading β) :
    Agrees src (act >>= f) (act' >>= f) i := by
  intro hi
  rw [bind_apply, bind_apply, h hi]

theorem inContext (label : String) (h : Agrees src act act' i) :
    Agrees src (FunRiscv.inContext label act) (FunRiscv.inContext label act') i := by
  intro hi
  rw [inContext_apply, inContext_apply, h hi]

theorem ite {c : Prop} [Decidable c] {no no' : Reading α} (h : c → Agrees src act act' i)
    (hno : ¬ c → Agrees src no no' i) :
    Agrees src (if c then act else no) (if c then act' else no') i := by
  split
  · rename_i hc; exact h hc
  · rename_i hc; exact hno hc

/-- A token is read or left where it is, and that decides how to go on. -/
theorem token_ite {token : Reading Bool} {no no' : Reading α}
    (htoken : Lands src token i fun b j => if b then i < j else i = j)
    (hyes : ∀ j, i < j → Agrees src act act' j) (hno : Agrees src no no' i) :
    Agrees src (token >>= fun b => if b = true then act else no)
      (token >>= fun b => if b = true then act' else no') i := by
  refine after htoken fun b j hb => ?_
  cases b with
  | true => exact hyes j hb
  | false =>
    obtain rfl : i = j := hb
    exact hno

theorem punct_ite {t : Punct} {no no' : Reading α} (hyes : ∀ j, i < j → Agrees src act act' j)
    (hno : Agrees src no no' i) : Agrees src (punct src t >>= fun b => if b = true then act else no)
      (punct src t >>= fun b => if b = true then act' else no') i :=
  token_ite (lands_punct t) hyes hno

theorem keyword_ite {kw : String} {no no' : Reading α} (hyes : ∀ j, i < j → Agrees src act act' j)
    (hno : Agrees src no no' i) :
    Agrees src (keyword src kw >>= fun b => if b = true then act else no)
      (keyword src kw >>= fun b => if b = true then act' else no') i :=
  token_ite (lands_keyword kw) hyes hno

theorem nextIsKeyword_ite {kw : String} {no no' : Reading α} (hyes : Agrees src act act' i)
    (hno : Agrees src no no' i) :
    Agrees src (nextIsKeyword src kw >>= fun b => if b = true then act else no)
      (nextIsKeyword src kw >>= fun b => if b = true then act' else no') i := by
  refine after (lands_nextIsKeyword kw) ?_
  rintro b _ rfl
  exact ite (fun _ => hyes) fun _ => hno

theorem map (f : α → β) (h : Agrees src act act' i) : Agrees src (f <$> act) (f <$> act') i := by
  rw [map_eq_bind, map_eq_bind]
  exact h.before _

end Agrees

/-! ### Repetition -/

section

variable {item item' : Reading α} (hitem : ∀ j, i ≤ j → Agrees src item item' j)
variable (hlands : ∀ j, i ≤ j → Advances src item j)

include hitem hlands

theorem agrees_commaList (fuel : Nat) :
    Agrees src (commaList src item fuel) (commaList src item' fuel) i := by
  induction fuel generalizing i with
  | zero => exact .refl _
  | succ fuel ih =>
    refine (hitem i le_rfl).bind (hlands i le_rfl) fun x j hj =>
      Agrees.punct_ite (fun k hk => ?_) (.refl _)
    exact (ih (fun l hl => hitem l (by omega)) fun l hl => hlands l (by omega)).before _

theorem agrees_closedList (close : Punct) (fuel : Nat) :
    Agrees src (closedList src item close fuel) (closedList src item' close fuel) i := by
  induction fuel generalizing i with
  | zero => exact .refl _
  | succ fuel ih =>
    refine Agrees.punct_ite (fun _ _ => .refl _) ?_
    refine (hitem i le_rfl).bind (hlands i le_rfl) fun x j hj =>
      Agrees.punct_ite (fun k hk => ?_) (.refl _)
    exact (ih (fun l hl => hitem l (by omega)) fun l hl => hlands l (by omega)).before _

theorem agrees_manyUntil (close : Punct) (fuel : Nat) :
    Agrees src (manyUntil src item close fuel) (manyUntil src item' close fuel) i := by
  induction fuel generalizing i with
  | zero => exact .refl _
  | succ fuel ih =>
    refine Agrees.punct_ite (fun _ _ => .refl _) ?_
    refine (hitem i le_rfl).bind (hlands i le_rfl) fun x j hj => ?_
    exact (ih (fun l hl => hitem l (by omega)) fun l hl => hlands l (by omega)).before _

end

/-! ### Nested parts -/

/-- From a position on, two readers of nested parts do the same, and read at least one
byte of any part. -/
structure SubAgrees (src : Source) (sub sub' : SubReader) (low : Nat) : Prop where
  advances : SubAdvances src sub low
  agrees : ∀ k j, low ≤ j → Agrees src (sub k) (sub' k) j

theorem SubAgrees.mono {sub sub' : SubReader} {low high : Nat} (h : SubAgrees src sub sub' low)
    (hle : low ≤ high) : SubAgrees src sub sub' high :=
  ⟨h.advances.mono hle, fun k j hj => h.agrees k j (by omega)⟩

variable {sub sub' : SubReader}

/-! ### Types and parameters -/

theorem agrees_typeAtom (h : SubAgrees src sub sub' (i + 1)) :
    Agrees src (typeAtom src sub) (typeAtom src sub') i := by
  refine Agrees.after lands_tokenStart ?_
  rintro start _ ⟨rfl, -⟩
  refine Agrees.punct_ite (fun j hj => ?_) ?_
  · refine Agrees.punct_ite (fun _ _ => .refl _) ?_
    exact (agrees_commaList (fun k hk => h.agrees .type k (by omega))
      (fun k hk => h.advances .type k (by omega)) _).before _
  · refine Agrees.after (Lands.inContext _ lands_name) fun n j hj =>
      Agrees.punct_ite (fun k hk => ?_) (.refl _)
    exact (agrees_commaList (fun l hl => h.agrees .type l (by omega))
      (fun l hl => h.advances .type l (by omega)) _).before _

theorem agrees_typeExpr (h : SubAgrees src sub sub' (i + 1)) :
    Agrees src (typeExpr src sub) (typeExpr src sub') i := by
  refine Agrees.after lands_tokenStart ?_
  rintro start _ ⟨rfl, -⟩
  refine (agrees_typeAtom h).bind (lands_typeAtom h.advances) fun t j hj =>
    Agrees.punct_ite (fun k hk => ?_) (.refl _)
  exact ((h.agrees .type k (by omega)).inContext _).before _

theorem agrees_param (h : SubAgrees src sub sub' (i + 1)) :
    Agrees src (param src sub) (param src sub') i := by
  refine Agrees.after lands_tokenStart ?_
  rintro start _ ⟨rfl, -⟩
  refine Agrees.after (Lands.inContext _ lands_name) fun n j hj =>
    Agrees.punct_ite (fun k hk => ?_) (.refl _)
  exact (((h.agrees .type k (by omega)).inContext _).map _).before _

theorem agrees_params (h : SubAgrees src sub sub' (i + 1)) :
    Agrees src (params src sub) (params src sub') i := by
  refine Agrees.after (lands_expect _) fun _ j hj => Agrees.punct_ite (fun _ _ => .refl _) ?_
  exact (agrees_commaList (fun k hk => agrees_param (h.mono (by omega)))
    (fun k hk => lands_param (h.advances.mono (by omega))) _).before _

/-! ### Expressions -/

theorem agrees_parenthesised {start : Nat} (h : SubAgrees src sub sub' i) :
    Agrees src (parenthesised src sub start) (parenthesised src sub' start) i :=
  (agrees_closedList (fun j hj => h.agrees .expr j hj) (fun j hj => h.advances .expr j hj)
    _ _).before _

theorem agrees_braced (h : SubAgrees src sub sub' i) :
    Agrees src (braced src sub) (braced src sub') i :=
  Agrees.after (lands_expect _) fun _ j hj => (h.agrees .expr j (by omega)).before _

theorem agrees_lambda {start : Nat} (h : SubAgrees src sub sub' i) :
    Agrees src (lambda src sub start) (lambda src sub' start) i := by
  have hparams := h.mono (Nat.le_succ i)
  refine ((agrees_params hparams).inContext _).bind
    (Lands.inContext _ (lands_params hparams.advances)) fun ps j hj => ?_
  exact Agrees.after (lands_expect _) fun _ k hk =>
    ((h.agrees .expr k (by omega)).inContext _).before _

theorem agrees_ifExprTail {start : Nat} (h : SubAgrees src sub sub' i) :
    Agrees src (ifExprTail src sub start) (ifExprTail src sub' start) i := by
  refine ((h.agrees .expr i le_rfl).inContext _).bind
    (Lands.inContext _ (h.advances .expr i le_rfl)) fun c j hj => ?_
  refine ((agrees_braced (h.mono (by omega))).inContext _).bind
    (Lands.inContext _ (lands_braced (h.advances.mono (by omega)))) fun t k hk => ?_
  refine Agrees.keyword_ite (fun l hl => ?_) (.refl _)
  refine (Agrees.inContext _ ?_).before _
  exact Agrees.nextIsKeyword_ite (h.agrees .ifExpr l (by omega)) (agrees_braced (h.mono (by omega)))

theorem agrees_ifExpr (h : SubAgrees src sub sub' (i + 1)) :
    Agrees src (ifExpr src sub) (ifExpr src sub') i := by
  refine Agrees.after lands_tokenStart ?_
  rintro start _ ⟨rfl, -⟩
  exact Agrees.keyword_ite (fun j hj => agrees_ifExprTail (h.mono (by omega))) (.refl _)

theorem agrees_matchCase (h : SubAgrees src sub sub' i) :
    Agrees src (matchCase src sub) (matchCase src sub') i := by
  refine Agrees.after lands_tokenStart ?_
  rintro start _ ⟨rfl, -⟩
  refine ((h.agrees .pattern i le_rfl).inContext _).bind
    (Lands.inContext _ (h.advances .pattern i le_rfl)) fun p j hj => ?_
  exact Agrees.after (lands_expect _) fun _ k hk =>
    ((h.agrees .expr k (by omega)).inContext _).before _

theorem agrees_matchTail {start : Nat} (h : SubAgrees src sub sub' i) :
    Agrees src (matchTail src sub start) (matchTail src sub' start) i := by
  refine ((h.agrees .expr i le_rfl).inContext _).bind
    (Lands.inContext _ (h.advances .expr i le_rfl)) fun x j hj => ?_
  refine Agrees.after (lands_expect _) fun _ k hk => ?_
  exact (agrees_closedList (fun l hl => agrees_matchCase (h.mono (by omega)))
    (fun l hl => lands_matchCase (h.advances.mono (by omega))) _ _).before _

theorem agrees_wordExpr {start stop : Nat} {w : String} (h : SubAgrees src sub sub' (i + 1))
    (hi : i < stop) (hstop : stop ≤ src.size) :
    Agrees src (wordExpr src sub start w stop) (wordExpr src sub' start w stop) i := by
  refine Agrees.after (Lands.set (P := fun _ k => stop = k) hstop rfl) ?_
  rintro _ _ rfl
  have hsub : SubAgrees src sub sub' stop := h.mono (by omega)
  refine Agrees.ite (fun _ => .refl _) fun _ => Agrees.ite (fun _ => .refl _) fun _ => ?_
  refine Agrees.ite (fun _ => agrees_lambda hsub) fun _ =>
    Agrees.ite (fun _ => agrees_ifExprTail hsub) fun _ => ?_
  exact Agrees.ite (fun _ => agrees_matchTail hsub) fun _ => .refl _

theorem agrees_punctExpr {start : Nat} (h : SubAgrees src sub sub' (i + 1)) :
    Agrees src (punctExpr src sub start) (punctExpr src sub' start) i := by
  refine Agrees.punct_ite (fun _ _ => .refl _)
    (Agrees.punct_ite (fun j hj => agrees_parenthesised (h.mono hj)) ?_)
  refine Agrees.punct_ite (fun j hj => ?_) (.refl _)
  exact (agrees_closedList (fun k hk => h.agrees .expr k (by omega))
    (fun k hk => h.advances .expr k (by omega)) _ _).before _

theorem agrees_primary (h : SubAgrees src sub sub' (i + 1)) :
    Agrees src (primary src sub) (primary src sub') i := by
  refine Agrees.after lands_tokenStart ?_
  rintro start _ ⟨rfl, hle, hsize⟩
  rw [primaryAt_inside hsize, primaryAt_inside hsize]
  cases hb : src.byte? start with
  | none => exact .refl _
  | some b =>
    refine Agrees.ite (fun _ => .refl _) fun _ =>
      Agrees.ite (fun _ => .refl _) fun _ => Agrees.ite (fun _ => .refl _) fun _ => ?_
    cases hw : src.word? start with
    | none => exact agrees_punctExpr h
    | some r =>
      have hbounds := src.word?_bounds hw
      exact agrees_wordExpr h (by omega) hbounds.2

theorem agrees_namedArg? (h : SubAgrees src sub sub' i) :
    Agrees src (namedArg? src sub) (namedArg? src sub') i := by
  refine Agrees.after lands_tokenStart ?_
  rintro start _ ⟨rfl, hle, hsize⟩
  simp only [src.nameAfter?_eq hsize, look_pure, pure_bind]
  cases hn : src.name? start with
  | none => exact .refl _
  | some r =>
    obtain ⟨n, stop⟩ := r
    have hname := src.name?_bounds hn hsize
    simp only [src.punctAfter?_eq hname.2, look_pure, pure_bind]
    split
    · rename_i j hj
      have hpunct := src.punct?_bounds hj hname.2
      refine Agrees.after (Lands.set (P := fun _ k => j = k) hpunct.2 rfl) ?_
      rintro _ _ rfl
      exact ((h.agrees .expr _ (by omega)).inContext _).before _
    · exact .refl _

theorem agrees_arguments (h : SubAgrees src sub sub' i) (fuel : Nat) (named : Bool) :
    Agrees src (arguments src sub fuel named) (arguments src sub' fuel named) i := by
  induction fuel generalizing i named with
  | zero => exact .refl _
  | succ fuel ih =>
    refine (agrees_namedArg? h).bind (lands_namedArg? h.advances) fun a j hj => ?_
    cases a with
    | some a =>
      have hlt : i < j := hj
      exact Agrees.punct_ite (fun k hk => (ih (h.mono (by omega)) true).before _) (.refl _)
    | none =>
      obtain rfl : i = j := hj
      refine Agrees.ite (fun _ => .refl _) fun _ => ?_
      refine ((h.agrees .expr i le_rfl).inContext _).bind
        (Lands.inContext _ (h.advances .expr i le_rfl)) fun x k hk => ?_
      exact Agrees.punct_ite (fun l hl => (ih (h.mono (by omega)) false).before _) (.refl _)

theorem agrees_postfixes (h : SubAgrees src sub sub' i) (start fuel : Nat) (x : Expr) :
    Agrees src (postfixes src sub start fuel x) (postfixes src sub' start fuel x) i := by
  induction fuel generalizing i x with
  | zero => exact .refl _
  | succ fuel ih =>
    refine Agrees.punct_ite (fun j hj => ?_) (Agrees.punct_ite (fun j hj => ?_) (.refl _))
    · have hwhole : ∀ (r : List Expr × List NamedArg) k, j ≤ k → Agrees src
          (do let call := Expr.call (← locationFrom src start) x r.1 r.2
              postfixes src sub start fuel call)
          (do let call := Expr.call (← locationFrom src start) x r.1 r.2
              postfixes src sub' start fuel call) k := by
        intro r k hk
        refine Agrees.after (lands_locationFrom start) ?_
        rintro l _ rfl
        exact ih (h.mono (by omega)) _
      refine Agrees.punct_ite (fun k hk => hwhole ([], []) k (by omega)) ?_
      have hargs := h.mono (Nat.le_of_lt hj)
      exact (agrees_arguments hargs _ _).bind (lands_arguments hargs.advances (fuel_lt j))
        fun r k hk => hwhole r k (by omega)
    · refine Agrees.after lands_fieldName fun f k hk => Agrees.after (lands_locationFrom start) ?_
      rintro l _ rfl
      exact ih (h.mono (by omega)) _

theorem agrees_postfixed (h : SubAgrees src sub sub' (i + 1)) :
    Agrees src (postfixed src sub) (postfixed src sub') i := by
  refine Agrees.after lands_tokenStart ?_
  rintro start _ ⟨rfl, -⟩
  exact (agrees_primary h).bind (lands_primary h.advances) fun x j hj =>
    agrees_postfixes (h.mono hj) _ _ _

theorem agrees_powerExpr (h : SubAgrees src sub sub' (i + 1)) :
    Agrees src (powerExpr src sub) (powerExpr src sub') i := by
  refine Agrees.after lands_tokenStart ?_
  rintro start _ ⟨rfl, -⟩
  refine (agrees_postfixed h).bind (lands_postfixed h.advances) fun x j hj =>
    Agrees.punct_ite (fun k hk => ?_) (.refl _)
  exact ((h.agrees .power k (by omega)).inContext _).before _

theorem agrees_operands {operand operand' : Reading Expr}
    (hop : ∀ j, i < j → Agrees src operand operand' j)
    (hlands : ∀ j, i < j → Advances src operand j) (ops : List Operator) (start fuel : Nat)
    (x : Expr) :
    Agrees src (operands src operand ops start fuel x) (operands src operand' ops start fuel x)
      i := by
  induction fuel generalizing i x with
  | zero => exact .refl _
  | succ fuel ih =>
    refine Agrees.of_le fun hi => Agrees.after lands_get ?_
    rintro _ _ ⟨rfl, rfl⟩
    simp only [src.punctAfter?_eq hi, look_pure, pure_bind]
    split
    · exact .refl _
    · rename_i op j hj
      have hbounds := operatorOf?_bounds hj hi
      refine Agrees.after (Lands.set (P := fun _ k => j = k) hbounds.2 rfl) ?_
      rintro _ _ rfl
      refine ((hop _ hbounds.1).inContext _).bind (Lands.inContext _ (hlands _ hbounds.1))
        fun y k hk => ?_
      refine Agrees.after (lands_locationFrom start) ?_
      rintro l _ rfl
      exact ih (fun m hm => hop m (by omega)) (fun m hm => hlands m (by omega)) _

theorem agrees_binary (levels : List (List Operator)) (h : SubAgrees src sub sub' (i + 1)) :
    Agrees src (binary src sub levels) (binary src sub' levels) i := by
  induction levels generalizing i with
  | nil => exact agrees_powerExpr h
  | cons ops levels ih =>
    refine Agrees.after lands_tokenStart ?_
    rintro start _ ⟨rfl, -⟩
    refine (ih h).bind (lands_binary levels h.advances) fun x j hj => ?_
    exact agrees_operands (fun k hk => ih (h.mono (by omega)))
      (fun k hk => lands_binary levels (h.advances.mono (by omega))) _ _ _ _

/-! ### Patterns -/

theorem agrees_namePattern {start : Nat} {n : String} (h : SubAgrees src sub sub' i) :
    Agrees src (namePattern src sub start n) (namePattern src sub' start n) i := by
  refine Agrees.after (lands_locationFrom start) ?_
  rintro loc _ rfl
  refine Agrees.ite (fun _ => .refl _) fun _ => Agrees.punct_ite (fun j hj => ?_) (.refl _)
  exact (agrees_closedList (fun k hk => h.agrees .pattern k (by omega))
    (fun k hk => h.advances .pattern k (by omega)) _ _).before _

theorem agrees_pattern (h : SubAgrees src sub sub' (i + 1)) :
    Agrees src (pattern src sub) (pattern src sub') i := by
  refine Agrees.after lands_get ?_
  rintro here _ ⟨rfl, rfl⟩
  refine Agrees.after lands_tokenStart ?_
  rintro start _ ⟨rfl, hle, hsize⟩
  simp only [src.nameAfter?_eq hsize, look_pure, pure_bind]
  cases hn : src.name? start with
  | some r =>
    have hbounds := src.name?_bounds hn hsize
    refine Agrees.after (Lands.set (P := fun _ k => r.2 = k) hbounds.2 rfl) ?_
    rintro _ _ rfl
    exact agrees_namePattern (h.mono (by omega))
  | none =>
    refine Agrees.punct_ite (fun j hj => ?_) (((agrees_primary h).inContext _).before _)
    exact (agrees_closedList (fun k hk => h.agrees .pattern k (by omega))
      (fun k hk => h.advances .pattern k (by omega)) _ _).before _

/-! ### Statements -/

/-- An attempt that fails leaves nothing behind but the position where it began. -/
theorem agrees_assignHead? (h : SubAgrees src sub sub' i) :
    Agrees src (assignHead? src sub) (assignHead? src sub') i := by
  intro hi
  have hhead : Agrees src (assignHead src sub) (assignHead src sub') i := by
    refine Agrees.after lands_name fun n j hj => Agrees.punct_ite (fun k hk => ?_) (.refl _)
    exact ((h.agrees .type k (by omega)).map _).before _
  rw [assignHead?, assignHead?, hhead hi]

theorem agrees_ifTail {start : Nat} (h : SubAgrees src sub sub' i) :
    Agrees src (ifTail src sub start) (ifTail src sub' start) i := by
  refine ((h.agrees .expr i le_rfl).inContext _).bind
    (Lands.inContext _ (h.advances .expr i le_rfl)) fun c j hj => ?_
  refine ((h.agrees .block j (by omega)).inContext _).bind
    (Lands.inContext _ (h.advances .block j (by omega))) fun t k hk => ?_
  refine Agrees.keyword_ite (fun l hl => Agrees.nextIsKeyword_ite ?_ ?_) (.refl _)
  · exact (h.agrees .ifStmt l (by omega)).before _
  · exact ((h.agrees .block l (by omega)).inContext _).before _

theorem agrees_ifStmt (h : SubAgrees src sub sub' (i + 1)) :
    Agrees src (ifStmt src sub) (ifStmt src sub') i := by
  refine Agrees.after lands_tokenStart ?_
  rintro start _ ⟨rfl, -⟩
  exact Agrees.keyword_ite (fun j hj => agrees_ifTail (h.mono hj)) (.refl _)

theorem agrees_returnTail {start : Nat} (h : SubAgrees src sub sub' i) :
    Agrees src (returnTail src sub start) (returnTail src sub' start) i :=
  Agrees.punct_ite (fun _ _ => .refl _) (((h.agrees .expr i le_rfl).inContext _).before _)

theorem agrees_useTail {start : Nat} (h : SubAgrees src sub sub' i) :
    Agrees src (useTail src sub start) (useTail src sub' start) i :=
  Agrees.after (Lands.inContext _ lands_name) fun n j hj =>
    Agrees.after (lands_expect _) fun _ k hk =>
    ((h.agrees .expr k (by omega)).inContext _).before _

theorem agrees_stmt (h : SubAgrees src sub sub' i) :
    Agrees src (stmt src sub) (stmt src sub') i := by
  refine Agrees.after lands_tokenStart ?_
  rintro start _ ⟨rfl, -⟩
  refine Agrees.keyword_ite (fun j hj => agrees_returnTail (h.mono (by omega))) ?_
  refine Agrees.keyword_ite (fun j hj => agrees_useTail (h.mono (by omega))) ?_
  refine Agrees.keyword_ite (fun j hj => agrees_ifTail (h.mono (by omega))) ?_
  refine (agrees_assignHead? h).bind (lands_assignHead? h.advances) fun a j hj => ?_
  cases a with
  | some a => exact ((h.agrees .expr j hj).inContext _).before _
  | none => exact ((h.agrees .expr j hj).inContext _).before _

theorem agrees_block (h : SubAgrees src sub sub' (i + 1)) :
    Agrees src (block src sub) (block src sub') i := by
  refine Agrees.after lands_tokenStart ?_
  rintro start _ ⟨rfl, -⟩
  refine Agrees.after (lands_expect _) fun _ j hj => ?_
  exact (agrees_manyUntil (fun k hk => agrees_stmt (h.mono (by omega)))
    (fun k hk => lands_stmt (h.advances.mono (by omega))) _ _).before _

/-! ### Rules -/

/-- A rule at a position asks for nested parts at later positions only. -/
theorem agrees_rule (h : SubAgrees src sub sub' (i + 1)) (k : Nonterminal) :
    Agrees src (rule src sub k) (rule src sub' k) i := by
  cases k with
  | type => exact agrees_typeExpr h
  | expr => exact agrees_binary precedence h
  | power => exact agrees_powerExpr h
  | ifExpr => exact agrees_ifExpr h
  | pattern => exact agrees_pattern h
  | block => exact agrees_block h
  | ifStmt => exact agrees_ifStmt h

/-- Two bounds on the nesting that exceed what is left of the text make no difference. -/
theorem agrees_nested {fuel fuel' : Nat} (hfuel : src.size - i < fuel)
    (hfuel' : src.size - i < fuel') (k : Nonterminal) :
    Agrees src (nested src fuel k) (nested src fuel' k) i := by
  induction fuel generalizing i fuel' k with
  | zero => omega
  | succ fuel ih =>
    cases fuel' with
    | zero => omega
    | succ fuel' =>
      refine agrees_rule ⟨fun l j hj => Lands.of_le fun hsize => lands_nested (by omega) l,
        fun l j hj => ?_⟩ k
      exact Agrees.of_le fun hsize => ih (by omega) (by omega) l

theorem nested_eq_tree {fuel : Nat} (hi : i ≤ src.size) (hfuel : src.size - i < fuel)
    (k : Nonterminal) : nested src fuel k i = tree src k i :=
  agrees_nested hfuel (by omega) k hi

/-- The rules call each other without a bound on the nesting. -/
theorem tree_eq_rule (hi : i ≤ src.size) (k : Nonterminal) :
    tree src k i = rule src (tree src) k i := by
  refine agrees_rule ⟨fun l j hj => Lands.of_le fun hsize => lands_nested (by omega) l,
    fun l j hj => ?_⟩ k hi
  exact Agrees.of_le fun hsize => agrees_nested (by omega) (by omega) l

end FunRiscv.Reading
