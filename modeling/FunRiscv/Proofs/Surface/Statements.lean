import Mathlib
import FunRiscv.Proofs.Surface.Expressions

/-!
# Reading statements back

* `Expr.refused`: no statement reads from what is written for an expression before a closing brace.
  So a conditional expression that stands as a statement, which reads as a conditional statement,
  fails in its first arm.
* `Stmt.ReadsBack`: what is written for a statement reads as a statement, which is the same exactly
  if no part of it has a shape that does not read back.
* `Stmt.readsBack`: so it is for every legible statement.
-/

namespace FunRiscv

open Reading

/-! ### Heads of assignments -/

section

variable {src : Source} {n : Nat} {good : Prop} {bs bl mid tail : List UInt8}

theorem assignHead?_of_some {sub : SubReader} {i j : Nat} {head : String × Option TypeExpr}
    (h : assignHead src sub i = .ok (some head, j)) :
    assignHead? src sub i = .ok (some head, j) := by
  rw [assignHead?, h]

theorem assignHead?_of_none {sub : SubReader} {i j : Nat}
    (h : assignHead src sub i = .ok (none, j)) : assignHead? src sub i = .ok (none, i) := by
  rw [assignHead?, h]

/-- What does not start with a name is no assignment. -/
theorem assignHead?_of_name?_none {sub : SubReader} {i : Nat} (hi : i ≤ src.size)
    (h : src.name? i = none) : assignHead? src sub i = .ok (none, i) := by
  have hname : name src i = unexpectedAt src i "name" i := by
    rw [name_apply hi, h]
    rfl
  rw [unexpectedAt_eq hi, failWith_apply] at hname
  rw [assignHead?, assignHead, bind_apply, hname]
  rfl

/-- A name, perhaps an annotation, and an equals sign are the head of an assignment. -/
theorem reads_assignHead?_some {target : String} {type : Option TypeExpr} (hname : IsName target)
    (htype : ∀ t, type = some t → t.Legible) (hbl : AllBlank bl)
    (hn : (bl ++
      (Text.bytesOf target ++
      (optionalTypePrint [0x3a] type ++ 0x20 :: 0x3d :: 0x20 :: tail))).length ≤ n) :
    Reads src (assignHead? src (nested src n))
      (bl ++ (Text.bytesOf target ++
        (optionalTypePrint [0x3a] type ++ 0x20 :: 0x3d :: 0x20 :: tail))) (0x20 :: tail) good
      fun r => ∃ u, r = some (target, u) ∧ u.map TypeExpr.bare = type.map TypeExpr.bare := by
  have hhead : Reads src (assignHead src (nested src n))
      (bl ++ (Text.bytesOf target ++
        (optionalTypePrint [0x3a] type ++ 0x20 :: 0x3d :: 0x20 :: tail))) (0x20 :: tail) True
      fun r => ∃ u, r = some (target, u) ∧ u.map TypeExpr.bare = type.map TypeExpr.bare := by
    refine (reads_name (hname.1.nextWord hbl (wordRun_annotated type rfl)) hname.2).bind ?_
    rintro _ rfl
    refine reads_optionalType (fun r => ⟨rfl, rfl, rfl⟩) rfl (fun t ht => ?_) fun u hu => ?_
    · refine (TypeExpr.readsBack src (htype t ht)).whole n True [0x20] _ allBlank_blank rfl ?_
      have := List.length_pos_of_ne_nil hname.1.starts.ne_nil
      simp only [ht, optionalTypePrint, List.length_append, List.length_cons,
        List.length_nil] at hn ⊢
      omega
    · exact Reads.punct_then ⟨rfl, rfl, rfl⟩ (Reads.pure ⟨u, rfl, hu⟩)
  intro i hi
  obtain ⟨_, j, hact, hj, u, rfl, hu⟩ | ⟨-, hnot⟩ := hhead i hi
  · exact .inl ⟨_, j, assignHead?_of_some hact, hj, u, rfl, hu⟩
  · exact absurd trivial hnot

/-- What starts as an expression is no assignment. -/
theorem reads_assignHead?_none {c : Bool} (hsolid : solid (skipped bs) = true)
    (hopens : Opens c bs) : Reads src (assignHead? src (nested src n)) bs bs good (· = none) := by
  refine fun i hi => .inl ⟨none, i, ?_, hi, rfl⟩
  obtain hkeyword | ⟨w, mid, hw, hname, hmid⟩ := hopens.cases hsolid
  · exact assignHead?_of_name?_none hi.2 (Source.At.name?_eq_none hi hsolid hkeyword)
  · have hhead : Reads src (assignHead src (nested src n)) bs mid True (· = none) := by
      refine (reads_name hw hname).bind ?_
      rintro _ rfl
      refine Reads.punct_else (solid_of_stops hmid) (nextPunct_ne_of_stops hmid (by simp)) ?_
      refine (Reads.pure rfl).bind ?_
      rintro _ rfl
      exact Reads.punct_else (solid_of_stops hmid) (nextPunct_ne_of_stops hmid (by simp))
        (Reads.pure rfl)
    obtain ⟨_, j, hact, -, rfl⟩ | ⟨-, hnot⟩ := hhead i hi
    · exact assignHead?_of_none hact
    · exact absurd trivial hnot

/-! ### Expressions that are no statements -/

theorem Opens.nextWord_ne {e : Expr} (hopens : Opens e.isIfElse bs)
    (hsolid : solid (skipped bs) = true) : nextWord bs ≠ some "return" ∧ nextWord bs ≠ some "use" ∧
      nextWord bs ≠ some "else" ∧ (e.isIfElse = false → nextWord bs ≠ some "if") := by
  have hno : ∀ w, isKeyword w = true → w ∉ ["true", "false", "lambda", "match"] →
      ¬ (w = "if" ∧ e.isIfElse = true) → nextWord bs ≠ some w := by
    intro w hkeyword hmem hif hw
    obtain ⟨mid, hnext⟩ := exists_nextWord hsolid hw
    obtain ⟨hname, -⟩ | hstart | hconditional := hopens w mid hnext
    · exact absurd (hname.symm.trans hkeyword) (by simp)
    · exact hmem hstart
    · exact hif hconditional
  refine ⟨hno _ (by decide) (by decide) (by simp), hno _ (by decide) (by decide) (by simp),
    hno _ (by decide) (by decide) (by simp), fun h => hno _ (by decide) (by decide) (by simp [h])⟩

/-- An expression that is no conditional reads up to where a semicolon has to stand. -/
theorem reads_stmt_expr {e : Expr} {P : Stmt → Prop} {after : List UInt8} (he : e.ReadsBack src)
    (hif : e.isIfElse = false) (hbl : AllBlank bl) (hafter : ExprEnd after)
    (hn : (bl ++ (e.print ++ after)).length < n) (hgood : good → e.Plain)
    (hstop : Reads src (expect src .semicolon) after tail good fun _ =>
      ∀ l a, (a.bare = e.bare ↔ e.Plain) → P (.expr l a)) :
        Reads src (stmt src (nested src n)) (bl ++ (e.print ++ after)) tail good P := by
  have hsolid := (he.starts.append after).solid_skipped hbl
  have hopens := he.opens bl after hbl (stops_mono hafter (by simp))
  obtain ⟨hreturn, huse, -, hif'⟩ := hopens.nextWord_ne hsolid
  refine (reads_tokenStart hsolid).bind fun s _ => ?_
  refine Reads.keyword_else hsolid hreturn
    (Reads.keyword_else hsolid huse (Reads.keyword_else hsolid (hif' hif) ?_))
  refine (reads_assignHead?_none hsolid hopens).bind ?_
  rintro _ rfl
  refine ((he.whole n good hgood bl after hbl hafter hn).inContext _).bind fun a ha =>
    hstop.bind fun _ hP => ?_
  exact (reads_locationFrom s).bind fun l _ => Reads.pure (hP l a ha)

/-- No statement reads from what is written for the expression before a closing brace. -/
def Expr.Refused (src : Source) (e : Expr) : Prop :=
  ∀ n bl rest tail, AllBlank bl → (bl ++ (e.print ++ 0x20 :: 0x7d :: rest)).length < n →
    Reads src (stmt src (nested src n)) (bl ++ (e.print ++ 0x20 :: 0x7d :: rest)) tail False
      fun _ => False

theorem Expr.ReadsBack.refused {e : Expr} (he : e.ReadsBack src) (hif : e.isIfElse = false) :
    e.Refused src := by
  intro n bl rest tail hbl hn
  refine reads_stmt_expr he hif hbl (exprEnd_blank_cons (by simp) rest) hn False.elim ?_
  have hbrace : Next .closeBrace (0x20 :: 0x7d :: rest) rest := ⟨rfl, rfl, rfl⟩
  exact reads_expect_other hbrace.1 (by simp [hbrace.2.1]) id

/-- So no block does. -/
theorem Expr.Refused.block {e : Expr} (he : e.Refused src) (hstarts : Starts e.print)
    {rest : List UInt8}
    (hn : (0x20 :: 0x7b :: ([0x20] ++ (e.print ++ 0x20 :: 0x7d :: rest))).length ≤ n) :
    Reads src (nested src n .block) (0x20 :: 0x7b :: ([0x20] ++ (e.print ++ 0x20 :: 0x7d :: rest)))
      tail False fun _ => False := by
  obtain ⟨n, rfl⟩ : ∃ m, n = m + 1 := ⟨n - 1, by simp only [List.length_cons] at hn; omega⟩
  have hfirst := hstarts.append (0x20 :: 0x7d :: rest)
  refine (reads_tokenStart rfl).bind fun s _ => (reads_expect ⟨rfl, rfl, rfl⟩).bind fun _ _ => ?_
  have hstmts : Reads src (manyUntil src (stmt src (nested src n)) .closeBrace (rounds src))
      ([0x20] ++ (e.print ++ 0x20 :: 0x7d :: rest)) tail False fun _ => False := by
    refine Reads.punct_else (hfirst.solid_skipped allBlank_blank)
      (hfirst.nextPunct_ne allBlank_blank (by decide)) ?_
    refine (he n [0x20] rest tail allBlank_blank ?_).bind fun _ h => h.elim
    simp only [List.length_cons] at hn
    omega
  exact hstmts.bind fun _ h => h.elim

/-- A conditional expression reads as a conditional statement, the first arm of which is refused. -/
theorem Expr.stmt_ifElse_refused {l : Location} {c t e : Expr} {rest : List UInt8}
    (hc : c.ReadsBack src) (ht : t.Refused src) (hstarts : Starts t.print) (hbl : AllBlank bl)
    (hn : (bl ++ ((Expr.ifElse l c t e).print ++ rest)).length < n) :
    Reads src (stmt src (nested src n)) (bl ++ ((Expr.ifElse l c t e).print ++ rest)) tail False
      fun _ => False := by
  have htext : (Expr.ifElse l c t e).print ++ rest =
    Text.bytesOf "if" ++
      ([0x20] ++ (c.print ++
      0x20 :: 0x7b ::
        ([0x20] ++ (t.print ++
          0x20 :: 0x7d ::
            (0x20 :: (Text.bytesOf "else" ++ 0x20 :: (e.brace e.print ++ rest))))))) := by
    simp [Expr.print]
  rw [htext] at hn ⊢
  simp only [List.length_append, List.length_cons, List.length_nil] at hn
  have hblock : Reads src (nested src n .block)
    (0x20 :: 0x7b ::
      ([0x20] ++ (t.print ++
        0x20 :: 0x7d :: (0x20 :: (Text.bytesOf "else" ++ 0x20 :: (e.brace e.print ++ rest)))))) tail
    False fun _ => False := by
    refine ht.block hstarts ?_
    simp only [List.length_append, List.length_cons, List.length_nil]
    omega
  refine (reads_tokenStart (isWord_if.nextWord hbl rfl).1).bind fun s _ => ?_
  refine Reads.keyword_other (isWord_if.nextWord hbl rfl) (by decide)
    (Reads.keyword_other (isWord_if.nextWord hbl rfl) (by decide) ?_)
  refine Reads.keyword_then (isWord_if.nextWord hbl rfl) ?_
  refine ((hc.whole n False False.elim [0x20] _ allBlank_blank (exprEnd_blank_cons (by simp) _)
    ?_).inContext _).bind fun _ _ => ?_
  · simp only [List.length_append, List.length_cons, List.length_nil]
    omega
  exact (hblock.inContext _).bind fun _ h => h.elim

theorem Expr.refused (src : Source) {e : Expr} (h : e.Legible) (hfloats : FloatsReadBack e.floats) :
    e.Refused src := by
  induction e using Expr.inductionOn with
  | hifElse l c t e _ iht _ =>
    obtain ⟨hfc, hfloats⟩ := floatsReadBack_append.1 hfloats
    obtain ⟨hft, -⟩ := floatsReadBack_append.1 hfloats
    intro n bl rest tail hbl hn
    exact Expr.stmt_ifElse_refused (Expr.readsBack src h.1 hfc) (iht h.2.1 hft)
      (Expr.readsBack src h.2.1 hft).starts hbl hn
  | _ => exact (Expr.readsBack src h hfloats).refused rfl

end

/-! ### Reading back -/

/-- What may follow a statement: no `else`. -/
def StmtEnd (tail : List UInt8) : Prop := solid (skipped tail) = true ∧ nextWord tail ≠ some "else"

/-- What is written for a statement reads as a statement, which is the same exactly if no part of it
has a shape that does not read back. -/
structure Stmt.ReadsBack (src : Source) (s : Stmt) : Prop where
  starts : ∀ d, Starts (s.print d)
  notElse : ∀ d bl r, AllBlank bl → nextWord (bl ++ (s.print d ++ r)) ≠ some "else"
  whole : ∀ d n good, (good → s.Plain) →
    ReadsItem src (stmt src (nested src n)) (Stmt.print d) StmtEnd n good
      (fun s a => a.bare = s.bare ↔ s.Plain) s

/-- What follows the first arm of a conditional statement. -/
def Reading.elseTail (src : Source) (sub : SubReader) (start : Nat) (cond : Expr)
    (thenArm : Block) : Reading Stmt := do
  if ← keyword src "else" then
    let elseArm ← if ← nextIsKeyword src "if" then do
        let nested ← sub .ifStmt
        pure { loc := nested.loc, stmts := [nested] : Block }
      else inContext "else" (sub .block)
    return .ifElse (← locationFrom src start) cond thenArm.loc thenArm.stmts elseArm.loc
      elseArm.stmts
  else return .ifThen (← locationFrom src start) cond thenArm.loc thenArm.stmts

/-! ### Blocks -/

theorem allBlank_tabs (d : Nat) : AllBlank (tabs d) := by
  intro b hb
  rw [List.eq_of_mem_replicate hb]
  rfl

theorem Spread.blank {α : Type} {print : α → List UInt8} {xs : List α} {bs bl : List UInt8}
    (hbl : AllBlank bl) (h : Spread print xs bs) : Spread print xs (bl ++ bs) := by
  cases h with
  | nil hbl' => exact .nil (hbl.append hbl')
  | cons hbl' h =>
    rw [← List.append_assoc]
    exact .cons (hbl.append hbl') h

theorem allBlank_newline : AllBlank [0x0a] := by
  intro b hb
  rw [List.mem_singleton.1 hb]
  rfl

theorem spread_stmts (d : Nat) (ss : List Stmt) : Spread (Stmt.print d) ss (stmtsPrint d ss) := by
  induction ss with
  | nil => exact .nil allBlank_nil
  | cons s ss ih =>
    rw [stmtsPrint]
    exact .cons (allBlank_tabs d) (ih.blank allBlank_newline)

section

variable {src : Source} {n d : Nat} {good : Prop} {bl tail : List UInt8}

/-- A block reads back if its statements do. -/
theorem reads_block {ss : List Stmt} (hss : ∀ s ∈ ss, s.ReadsBack src)
    (hgood : good → ∀ s ∈ ss, s.Plain)
    (hn : (0x20 :: 0x7b :: ([0x0a] ++ (stmtsPrint (d + 1) ss ++ (tabs d ++ 0x7d :: tail)))).length ≤
      n) : Reads src (nested src n .block)
      (0x20 :: 0x7b :: ([0x0a] ++ (stmtsPrint (d + 1) ss ++ (tabs d ++ 0x7d :: tail)))) tail good
      fun b => b.stmts.map Stmt.bare = ss.map Stmt.bare ↔ ∀ s ∈ ss, s.Plain := by
  obtain ⟨n, rfl⟩ : ∃ m, n = m + 1 := ⟨n - 1, by simp only [List.length_cons] at hn; omega⟩
  have hclose : Next .closeBrace (tabs d ++ 0x7d :: tail) tail :=
    Next.append ⟨rfl, rfl, rfl⟩ (allBlank_tabs d)
  refine (reads_tokenStart rfl).bind fun start _ =>
    (reads_expect ⟨rfl, rfl, rfl⟩).bind fun _ _ => ?_
  refine Reads.of_length fun hsize => ?_
  refine (reads_manyUntil (spread_stmts (d + 1) ss)
    (fun s hs => (hss s hs).whole (d + 1) n good fun hg => hgood hg s hs)
    (fun s hs => (hss s hs).starts (d + 1)) ?_ ?_ hclose (by decide) allBlank_newline ?_
    (Nat.lt_succ_of_le hsize)).bind
    fun as has => ?_
  · exact fun bl hbl => ⟨(hclose.append hbl).1, (hclose.append hbl).nextWord_ne _⟩
  · intro s hs bl r hbl
    exact ⟨(((hss s hs).starts (d + 1)).append r).solid_skipped hbl,
      (hss s hs).notElse (d + 1) bl r hbl⟩
  · simp only [List.length_cons] at hn
    omega
  · exact (reads_locationFrom start).bind fun _ _ => Reads.pure (map_eq_iff_of_forall₂ has)

/-! ### Simple statements -/

namespace Stmt

/-- A statement that starts with a keyword. -/
theorem notElse_of_keyword {w : String} (hw : w ∈ keywords) (hne : w ≠ "else") {rest : List UInt8}
    (hrest : wordRun rest = []) (hbl : AllBlank bl) :
    nextWord (bl ++ (Text.bytesOf w ++ rest)) ≠ some "else" := by
  rw [((isWord_keyword hw).nextWord hbl hrest).2.1]
  simpa using hne

theorem isWord_return : IsWord "return" := isWord_keyword (by decide)

theorem isWord_use : IsWord "use" := isWord_keyword (by decide)

theorem readsBack_return (l : Location) : (Stmt.ret l none).ReadsBack src := by
  refine ⟨fun _ => isWord_return.starts.append _, fun _ bl r hbl => ?_,
    fun d n good _ bl tail hbl htail hn => ?_⟩
  · rw [Stmt.print, List.append_assoc]
    exact notElse_of_keyword (by decide) (by decide) rfl hbl
  · have htext : (Stmt.ret l none).print d ++ tail = Text.bytesOf "return" ++ 0x3b :: tail := by
      simp [Stmt.print]
    rw [htext]
    refine (reads_tokenStart (isWord_return.nextWord hbl rfl).1).bind fun s _ => ?_
    refine Reads.keyword_then (isWord_return.nextWord hbl rfl) (Reads.punct_then ⟨rfl, rfl, rfl⟩ ?_)
    exact (reads_locationFrom s).bind fun _ _ => Reads.pure (by simp [Stmt.bare, Stmt.Plain])

theorem readsBack_returnValue (l : Location) {x : Expr} (hx : x.ReadsBack src) :
    (Stmt.ret l (some x)).ReadsBack src := by
  have htext : ∀ d tail, (Stmt.ret l (some x)).print d ++ tail =
    Text.bytesOf "return" ++ ([0x20] ++ (x.print ++ 0x3b :: tail)) := by
    simp [Stmt.print]
  refine ⟨fun _ => isWord_return.starts.append _, fun d bl r hbl => ?_,
    fun d n good hgood bl tail hbl htail hn => ?_⟩
  · rw [htext]
    exact notElse_of_keyword (by decide) (by decide) rfl hbl
  · have hplain : (Stmt.ret l (some x)).Plain ↔ x.Plain := by simp [Stmt.Plain]
    rw [htext] at hn ⊢
    have hfirst := hx.starts.append (0x3b :: tail)
    simp only [List.length_append, List.length_cons] at hn
    refine (reads_tokenStart (isWord_return.nextWord hbl rfl).1).bind fun s _ => ?_
    refine Reads.keyword_then (isWord_return.nextWord hbl rfl) ?_
    refine Reads.punct_else (hfirst.solid_skipped allBlank_blank)
      (hfirst.nextPunct_ne allBlank_blank (by decide)) ?_
    refine ((hx.whole n good (fun hg => hplain.1 (hgood hg)) [0x20] _ allBlank_blank
      (exprEnd_cons (by simp) tail) ?_).inContext _).bind
      fun a (ha : a.bare = x.bare ↔ x.Plain) => (reads_expect ⟨rfl, rfl, rfl⟩).bind fun _ _ => ?_
    · simp only [List.length_append, List.length_cons]
      omega
    refine (reads_locationFrom s).bind fun _ _ => Reads.pure ?_
    show _ ↔ (Stmt.ret l (some x)).Plain
    rw [hplain, ← ha]
    simp [Stmt.bare]

theorem readsBack_use (l : Location) {w : String} {x : Expr} (hw : IsName w)
    (hx : x.ReadsBack src) : (Stmt.use l w x).ReadsBack src := by
  have htext : ∀ d tail, (Stmt.use l w x).print d ++ tail =
      Text.bytesOf "use" ++
        ([0x20] ++ (Text.bytesOf w ++ 0x20 :: 0x3d :: ([0x20] ++ (x.print ++ 0x3b :: tail)))) := by
    simp [Stmt.print]
  refine ⟨fun _ => isWord_use.starts.append _, fun d bl r hbl => ?_,
    fun d n good hgood bl tail hbl htail hn => ?_⟩
  · rw [htext]
    exact notElse_of_keyword (by decide) (by decide) rfl hbl
  · rw [htext] at hn ⊢
    simp only [List.length_append, List.length_cons] at hn
    refine (reads_tokenStart (isWord_use.nextWord hbl rfl).1).bind fun s _ => ?_
    refine Reads.keyword_other (isWord_use.nextWord hbl rfl) (by decide)
      (Reads.keyword_then (isWord_use.nextWord hbl rfl) ?_)
    refine ((reads_name (hw.1.nextWord allBlank_blank rfl) hw.2).inContext _).bind ?_
    rintro _ rfl
    refine (reads_expect ⟨rfl, rfl, rfl⟩).bind fun _ _ => ?_
    refine ((hx.whole n good hgood [0x20] _ allBlank_blank (exprEnd_cons (by simp) tail)
      ?_).inContext _).bind
      fun a (ha : a.bare = x.bare ↔ x.Plain) => (reads_expect ⟨rfl, rfl, rfl⟩).bind fun _ _ => ?_
    · simp only [List.length_append, List.length_cons]
      omega
    refine (reads_locationFrom s).bind fun _ _ => Reads.pure ?_
    show _ ↔ x.Plain
    rw [← ha]
    simp [Stmt.bare]

theorem readsBack_assign (l : Location) {target : String} {type : Option TypeExpr} {x : Expr}
    (htarget : IsName target) (htype : ∀ t, type = some t → t.Legible) (hx : x.ReadsBack src) :
    (Stmt.assign l target type x).ReadsBack src := by
  have htext : ∀ d tail, (Stmt.assign l target type x).print d ++ tail =
      Text.bytesOf target ++
        (optionalTypePrint [0x3a] type ++ 0x20 :: 0x3d :: 0x20 :: (x.print ++ 0x3b :: tail)) := by
    simp [Stmt.print]
  have hne : ∀ w, isKeyword w = true → target ≠ w := by
    rintro w hw rfl
    exact absurd (htarget.2.symm.trans hw) (by simp)
  refine ⟨fun _ => htarget.1.starts.append _, fun d bl r hbl => ?_,
    fun d n good hgood bl tail hbl htail hn => ?_⟩
  · rw [htext, (htarget.1.nextWord hbl (wordRun_annotated type rfl)).2.1]
    simpa using hne "else" (by decide)
  · rw [htext] at hn ⊢
    have hword : NextWord target (bl ++ (Text.bytesOf target ++ (optionalTypePrint [0x3a] type ++
        0x20 :: 0x3d :: 0x20 :: (x.print ++ 0x3b :: tail)))) _ :=
      htarget.1.nextWord hbl (wordRun_annotated type rfl)
    refine (reads_tokenStart hword.1).bind fun s _ => ?_
    refine Reads.keyword_other hword (hne _ (by decide))
      (Reads.keyword_other hword (hne _ (by decide))
        (Reads.keyword_other hword (hne _ (by decide)) ?_))
    refine (reads_assignHead?_some htarget htype hbl hn.le).bind ?_
    rintro _ ⟨u, rfl, hu⟩
    refine ((hx.whole n good hgood [0x20] _ allBlank_blank (exprEnd_cons (by simp) tail)
      ?_).inContext _).bind
      fun a (ha : a.bare = x.bare ↔ x.Plain) => (reads_expect ⟨rfl, rfl, rfl⟩).bind fun _ _ => ?_
    · simp only [List.length_append, List.length_cons, List.length_nil] at hn ⊢
      omega
    refine (reads_locationFrom s).bind fun _ _ => Reads.pure ?_
    show _ ↔ x.Plain
    rw [← ha]
    simp [Stmt.bare, hu]

theorem readsBack_expr (l : Location) {x : Expr} (hx : x.ReadsBack src)
    (hrefused : x.isIfElse = true → ∀ n bl rest tail, AllBlank bl →
    (bl ++ (x.print ++ rest)).length < n →
    Reads src (stmt src (nested src n)) (bl ++ (x.print ++ rest)) tail False fun _ => False) :
    (Stmt.expr l x).ReadsBack src := by
  have hplain : (Stmt.expr l x).Plain ↔ x.isIfElse = false ∧ x.Plain := by
    have hshape : (Stmt.expr l x).isIfExpr = x.isIfElse := by cases x <;> rfl
    rw [← hshape]
    rfl
  have htext : ∀ d tail, (Stmt.expr l x).print d ++ tail = x.print ++ 0x3b :: tail := by
    simp [Stmt.print]
  refine ⟨fun _ => hx.starts.append _, fun d bl r hbl => ?_,
    fun d n good hgood bl tail hbl htail hn => ?_⟩
  · rw [htext]
    have hend : ExprEnd (0x3b :: r) := exprEnd_cons (by simp) r
    exact ((hx.opens bl _ hbl (stops_mono hend (by simp))).nextWord_ne
      ((hx.starts.append _).solid_skipped hbl)).2.2.1
  · rw [htext] at hn ⊢
    cases hif : x.isIfElse with
    | true =>
      refine (hrefused hif n bl _ tail hbl hn).mono (fun hg => ?_) fun _ h => h.elim
      rw [hif] at hplain
      exact absurd (hplain.1 (hgood hg)).1 (by simp)
    | false =>
      refine reads_stmt_expr hx hif hbl (exprEnd_cons (by simp) tail) hn
        (fun hg => (hplain.1 (hgood hg)).2) ?_
      refine (reads_expect ⟨rfl, rfl, rfl⟩).mono id fun _ _ l' a ha => ?_
      show _ ↔ (Stmt.expr l x).Plain
      rw [hplain, ← ha]
      simp [Stmt.bare, hif]

/-! ### Conditional statements -/

/-- The condition and the first arm of a conditional statement. -/
theorem reads_ifHead {c : Expr} {t : List Stmt} {P : Stmt → Prop} {after : List UInt8}
    (hc : c.ReadsBack src) (ht : ∀ s ∈ t, s.ReadsBack src)
    (hgood : good → c.Plain ∧ ∀ s ∈ t, s.Plain) (hbl : AllBlank bl)
    (hn : (bl ++
      (Text.bytesOf "if" ++
      ([0x20] ++ (c.print ++
      0x20 :: 0x7b :: ([0x0a] ++ (stmtsPrint (d + 1) t ++ (tabs d ++ 0x7d :: after))))))).length <
    n)
    (hrest : ∀ start c' (b : Block), (c'.bare = c.bare ↔ c.Plain) →
      (b.stmts.map Stmt.bare = t.map Stmt.bare ↔ ∀ s ∈ t, s.Plain) →
      Reads src (elseTail src (nested src n) start c' b) after tail good P) :
    Reads src (stmt src (nested src n))
      (bl ++ (Text.bytesOf "if" ++
        ([0x20] ++ (c.print ++
        0x20 :: 0x7b :: ([0x0a] ++ (stmtsPrint (d + 1) t ++ (tabs d ++ 0x7d :: after)))))))
    tail good P := by
  simp only [List.length_append, List.length_cons] at hn
  refine (reads_tokenStart (isWord_if.nextWord hbl rfl).1).bind fun s _ => ?_
  refine Reads.keyword_other (isWord_if.nextWord hbl rfl) (by decide)
    (Reads.keyword_other (isWord_if.nextWord hbl rfl) (by decide) ?_)
  refine Reads.keyword_then (isWord_if.nextWord hbl rfl) ?_
  refine ((hc.whole n good (fun hg => (hgood hg).1) [0x20] _ allBlank_blank
    (exprEnd_blank_cons (by simp) _) ?_).inContext _).bind
    fun c' hc' => ?_
  · simp only [List.length_append, List.length_cons]
    omega
  refine ((reads_block ht (fun hg => (hgood hg).2) ?_).inContext _).bind fun b hb =>
    hrest s c' b hc' hb
  simp only [List.length_append, List.length_cons]
  omega

theorem readsBack_ifThen (l : Location) {c : Expr} (tl : Location) {t : List Stmt}
    (hc : c.ReadsBack src) (ht : ∀ s ∈ t, s.ReadsBack src) :
    (Stmt.ifThen l c tl t).ReadsBack src := by
  have hplain : (Stmt.ifThen l c tl t).Plain ↔ c.Plain ∧ ∀ s ∈ t, s.Plain := by
    rw [← stmtsPlain_iff]
    rfl
  have htext : ∀ d tail, (Stmt.ifThen l c tl t).print d ++ tail =
    Text.bytesOf "if" ++
      ([0x20] ++ (c.print ++
      0x20 :: 0x7b :: ([0x0a] ++ (stmtsPrint (d + 1) t ++ (tabs d ++ 0x7d :: tail))))) := by
    simp [Stmt.print]
  refine ⟨fun _ => isWord_if.starts.append _, fun d bl r hbl => ?_,
    fun d n good hgood bl tail hbl htail hn => ?_⟩
  · rw [htext]
    exact notElse_of_keyword (by decide) (by decide) rfl hbl
  · rw [htext] at hn ⊢
    refine reads_ifHead hc ht (fun hg => hplain.1 (hgood hg)) hbl hn fun start c' b hc' hb => ?_
    refine Reads.keyword_else htail.1 htail.2
      ((reads_locationFrom start).bind fun _ _ => Reads.pure ?_)
    show _ ↔ (Stmt.ifThen l c tl t).Plain
    rw [hplain, ← hc', ← hb]
    simp [Stmt.bare]

theorem readsBack_ifElse (l : Location) {c : Expr} (tl el : Location) {t e : List Stmt}
    (hc : c.ReadsBack src) (ht : ∀ s ∈ t, s.ReadsBack src) (he : ∀ s ∈ e, s.ReadsBack src) :
    (Stmt.ifElse l c tl t el e).ReadsBack src := by
  have hplain : (Stmt.ifElse l c tl t el e).Plain ↔ (c.Plain ∧ ∀ s ∈ t, s.Plain) ∧
    ∀ s ∈ e, s.Plain := by
    rw [← stmtsPlain_iff, ← stmtsPlain_iff, and_assoc]
    rfl
  have htext : ∀ d tail, (Stmt.ifElse l c tl t el e).print d ++ tail =
    Text.bytesOf "if" ++
        ([0x20] ++ (c.print ++
        0x20 :: 0x7b ::
          ([0x0a] ++ (stmtsPrint (d + 1) t ++
            (tabs d ++ 0x7d ::
              ([0x20] ++ (Text.bytesOf "else" ++
                0x20 :: 0x7b ::
                  ([0x0a] ++ (stmtsPrint (d + 1) e ++ (tabs d ++ 0x7d :: tail)))))))))) := by
    simp [Stmt.print]
  refine ⟨fun _ => isWord_if.starts.append _, fun d bl r hbl => ?_,
    fun d n good hgood bl tail hbl htail hn => ?_⟩
  · rw [htext]
    exact notElse_of_keyword (by decide) (by decide) rfl hbl
  · rw [htext] at hn ⊢
    refine reads_ifHead hc ht (fun hg => (hplain.1 (hgood hg)).1) hbl hn fun start c' b hc' hb => ?_
    refine Reads.keyword_then (isWord_else.nextWord allBlank_blank rfl) ?_
    refine Reads.nextKeyword_else rfl (Next.nextWord_ne (t := .openBrace) ⟨rfl, rfl, rfl⟩ _) ?_
    refine ((reads_block he (fun hg => (hplain.1 (hgood hg)).2) ?_).inContext _).bind fun b' hb' =>
      ?_
    · simp only [List.length_append, List.length_cons] at hn ⊢
      omega
    refine (reads_locationFrom start).bind fun _ _ => Reads.pure ?_
    show _ ↔ (Stmt.ifElse l c tl t el e).Plain
    rw [hplain, ← hc', ← hb, ← hb']
    simp [Stmt.bare, and_assoc]

/-- What is written for a legible statement reads back as far as it can. -/
theorem readsBack (src : Source) {s : Stmt} (h : s.Legible) (hfloats : FloatsReadBack s.floats) :
    s.ReadsBack src := by
  induction s using Stmt.inductionOn with
  | hret l x =>
    cases x with
    | none => exact readsBack_return l
    | some x => exact readsBack_returnValue l (Expr.readsBack src (h x rfl) hfloats)
  | hassign l target type x => exact readsBack_assign l h.1 h.2.1 (Expr.readsBack src h.2.2 hfloats)
  | huse l w x => exact readsBack_use l h.1 (Expr.readsBack src h.2 hfloats)
  | hifThen l c tl t ih =>
    obtain ⟨hfc, hft⟩ := floatsReadBack_append.1 hfloats
    have hft' := floatsReadBack_flatMap ((stmtsFloats_eq_flatMap _).subst hft)
    exact readsBack_ifThen l tl (Expr.readsBack src h.1 hfc) fun s hs =>
      ih s hs ((stmtsLegible_iff _).1 h.2 s hs) (hft' s hs)
  | hifElse l c tl t el e iht ihe =>
    obtain ⟨hfc, hfloats⟩ := floatsReadBack_append.1 hfloats
    obtain ⟨hft, hfe⟩ := floatsReadBack_append.1 hfloats
    have hft' := floatsReadBack_flatMap ((stmtsFloats_eq_flatMap _).subst hft)
    have hfe' := floatsReadBack_flatMap ((stmtsFloats_eq_flatMap _).subst hfe)
    exact readsBack_ifElse l tl el (Expr.readsBack src h.1 hfc)
      (fun s hs => iht s hs ((stmtsLegible_iff _).1 h.2.1 s hs) (hft' s hs))
      fun s hs => ihe s hs ((stmtsLegible_iff _).1 h.2.2 s hs) (hfe' s hs)
  | hexpr l x =>
    refine readsBack_expr l (Expr.readsBack src h hfloats) fun hif n bl rest tail hbl hn => ?_
    cases x with
    | ifElse l' c t e =>
      obtain ⟨hfc, hfloats⟩ := floatsReadBack_append.1 hfloats
      obtain ⟨hft, -⟩ := floatsReadBack_append.1 hfloats
      exact Expr.stmt_ifElse_refused (Expr.readsBack src h.1 hfc) (Expr.refused src h.2.1 hft)
        (Expr.readsBack src h.2.1 hft).starts hbl hn
    | _ => exact absurd hif (by simp [Expr.isIfElse])
  | hmissing => exact absurd h id

end Stmt

end

end FunRiscv
