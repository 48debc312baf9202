import Mathlib
import FunRiscv.Pass.Unreachable
import FunRiscv.Proofs.Pass.NormalForms

/-!
# What passes make of blocks

* `StmtsAll`: what holds of all expressions in statements.
* `StmtsTight`: no statement of any block stands after one that terminates. `stmtsTight_trimStmts`:
  so it is after trimming, which leaves such statements alone (`trimStmts_of_tight`).
* `StmtsTight.revise`: revising expressions keeps blocks tight.
-/

namespace FunRiscv

/-! ### Expressions -/

/-- A property holds of all expressions in statements. -/
def StmtsAll (P : Expr → Prop) (ss : List Stmt) : Prop := ∀ x ∈ stmtsExprs ss, x.All P

section Expressions

variable {P : Expr → Prop} {ss ts : List Stmt} {rule : Expr → Option Expr}

theorem stmtsAll_of_nodes (h : ∀ x ∈ stmtsNodes ss, P x) : StmtsAll P ss :=
  fun x hx => Expr.all_of_nodes fun y hy => h y (nodes_subset_stmtsNodes ss x hx hy)

theorem stmtsAll_append : StmtsAll P (ss ++ ts) ↔ StmtsAll P ss ∧ StmtsAll P ts := by
  simp only [StmtsAll, stmtsExprs_append, List.mem_append]
  exact ⟨fun h => ⟨fun x hx => h x (.inl hx), fun x hx => h x (.inr hx)⟩,
    fun h x hx => hx.elim (h.1 x) (h.2 x)⟩

theorem stmtsAll_revise (h : ∀ x ∈ stmtsExprs ss, (x.revise rule).value.All P) :
    StmtsAll P (reviseStmts rule ss).value := by
  intro y hy
  rw [(reviseStmts_spec rule ss).1] at hy
  obtain ⟨x, hx, rfl⟩ := List.mem_map.1 hy
  exact h x hx

theorem reviseStmts_unchanged (h : StmtsAll (fun y => rule y = none) ss) :
    (reviseStmts rule ss).changed = false := by
  rw [(reviseStmts_spec rule ss).2, List.any_eq_false]
  intro x hx
  rw [Expr.unchanged_of_all (h x hx)]
  exact Bool.false_ne_true

end Expressions

/-! ### Trimming -/

mutual

/-- In no block of a statement does a statement stand after one that terminates. -/
def Stmt.Tight : Stmt → Prop
  | .ifThen _ _ _ t => StmtsTight t
  | .ifElse _ _ _ t _ e => StmtsTight t ∧ StmtsTight e
  | .ret .. | .assign .. | .use .. | .expr .. | .missing => True

/-- In no block does a statement stand after one that terminates. -/
def StmtsTight : List Stmt → Prop
  | [] => True
  | s :: ss => s.Tight ∧ (s.terminates = true → ss = []) ∧ StmtsTight ss

end

theorem stmtsTerminate_cons (s : Stmt) (ss : List Stmt) :
    stmtsTerminate (s :: ss) = if ss.isEmpty then s.terminates else stmtsTerminate ss := by
  cases ss <;> simp [stmtsTerminate]

theorem stmtsTerminate_append {ss ts : List Stmt} (h : ts ≠ []) :
    stmtsTerminate (ss ++ ts) = stmtsTerminate ts := by
  induction ss with
  | nil => rfl
  | cons s ss ih =>
    rw [List.cons_append, stmtsTerminate_cons, ih, if_neg]
    simp [h]

theorem stmtsTight_append {ss ts : List Stmt} (hss : StmtsTight ss) (hts : StmtsTight ts)
    (hlast : stmtsTerminate ss = true → ts = []) : StmtsTight (ss ++ ts) := by
  induction ss with
  | nil => exact hts
  | cons s ss ih =>
    rw [StmtsTight] at hss
    obtain ⟨hs, hend, hss⟩ := hss
    rw [stmtsTerminate_cons] at hlast
    rw [List.cons_append, StmtsTight]
    refine ⟨hs, fun hterm => ?_, ih hss fun hlast' => hlast ?_⟩
    · obtain rfl := hend hterm
      exact hlast (by simpa using hterm)
    · cases ss with
      | nil => simp [stmtsTerminate] at hlast'
      | cons t ss => simpa using hlast'

theorem trimStmts_cons (s : Stmt) (ss : List Stmt) : trimStmts (s :: ss) =
    if s.trim.value.terminates && !ss.isEmpty then ⟨[s.trim.value], true⟩
    else ⟨s.trim.value :: (trimStmts ss).value, s.trim.changed || (trimStmts ss).changed⟩ := by
  rw [trimStmts]
  simp only [bind]
  split <;> simp [Revised.replaced, pure]

mutual

theorem Stmt.value_trim_of_unchanged : ∀ s : Stmt, s.trim.changed = false → s.trim.value = s
  | .ret .., _ | .assign .., _ | .use .., _ | .expr .., _ | .missing, _ => by simp [Stmt.trim, pure]
  | .ifThen _ c _ t, h => by
    simp only [Stmt.trim, bind, pure, Bool.or_false] at h
    simp only [Stmt.trim, bind, pure, value_trimStmts_of_unchanged t h]
  | .ifElse _ c _ t _ e, h => by
    simp only [Stmt.trim, bind, pure, Bool.or_false, Bool.or_eq_false_iff] at h
    simp only [Stmt.trim, bind, pure, value_trimStmts_of_unchanged t h.1,
      value_trimStmts_of_unchanged e h.2]

theorem value_trimStmts_of_unchanged :
    ∀ ss : List Stmt, (trimStmts ss).changed = false → (trimStmts ss).value = ss
  | [], _ => by simp [trimStmts, pure]
  | s :: ss, h => by
    rw [trimStmts_cons] at h ⊢
    split at h
    · cases h
    · next hcond =>
      rw [Bool.or_eq_false_iff] at h
      rw [if_neg hcond, s.value_trim_of_unchanged h.1, value_trimStmts_of_unchanged ss h.2]

end

mutual

theorem Stmt.trim_of_tight : ∀ s : Stmt, s.Tight → s.trim.changed = false
  | .ret .., _ | .assign .., _ | .use .., _ | .expr .., _ | .missing, _ => by simp [Stmt.trim, pure]
  | .ifThen _ c _ t, h => by
    rw [Stmt.Tight] at h
    simp [Stmt.trim, pure, bind, trimStmts_of_tight t h]
  | .ifElse _ c _ t _ e, h => by
    rw [Stmt.Tight] at h
    simp [Stmt.trim, pure, bind, trimStmts_of_tight t h.1, trimStmts_of_tight e h.2]

/-- Trimming leaves tight blocks alone. -/
theorem trimStmts_of_tight : ∀ ss : List Stmt, StmtsTight ss → (trimStmts ss).changed = false
  | [], _ => by simp [trimStmts, pure]
  | s :: ss, h => by
    rw [StmtsTight] at h
    obtain ⟨hs, hend, hss⟩ := h
    have hsame := s.trim_of_tight hs
    rw [trimStmts_cons, s.value_trim_of_unchanged hsame, hsame, trimStmts_of_tight ss hss, if_neg]
    · rfl
    · intro hcond
      simp only [Bool.and_eq_true, Bool.not_eq_true', List.isEmpty_eq_false_iff] at hcond
      exact hcond.2 (hend hcond.1)

end

mutual

theorem Stmt.tight_trim : ∀ s : Stmt, s.trim.value.Tight
  | .ret .. | .assign .. | .use .. | .expr .. | .missing => by simp [Stmt.trim, pure, Stmt.Tight]
  | .ifThen _ c _ t => by simp [Stmt.trim, pure, bind, Stmt.Tight, stmtsTight_trimStmts t]
  | .ifElse _ c _ t _ e => by
    simp [Stmt.trim, pure, bind, Stmt.Tight, stmtsTight_trimStmts t, stmtsTight_trimStmts e]

/-- Trimmed blocks are tight. -/
theorem stmtsTight_trimStmts : ∀ ss : List Stmt, StmtsTight (trimStmts ss).value
  | [] => by simp [trimStmts, pure, StmtsTight]
  | s :: ss => by
    rw [trimStmts_cons]
    split
    · simp [StmtsTight, s.tight_trim]
    · next hcond =>
      rw [StmtsTight]
      refine ⟨s.tight_trim, fun hterm => ?_, stmtsTight_trimStmts ss⟩
      rw [hterm, Bool.true_and, Bool.not_eq_true, Bool.not_eq_false', List.isEmpty_iff] at hcond
      rw [hcond]
      rfl

end

mutual

theorem Stmt.exprs_trim_subset : ∀ s : Stmt, s.trim.value.exprs ⊆ s.exprs
  | .ret .. | .assign .. | .use .. | .expr .. | .missing => by simp [Stmt.trim, pure]
  | .ifThen _ c _ t => by
    simp only [Stmt.trim, pure, bind, Stmt.exprs]
    exact List.cons_subset_cons _ (stmtsExprs_trim_subset t)
  | .ifElse _ c _ t _ e => by
    simp only [Stmt.trim, pure, bind, Stmt.exprs]
    exact List.cons_subset_cons _
      (List.append_subset.2 ⟨List.Subset.trans (stmtsExprs_trim_subset t)
        (List.subset_append_left _ _), List.Subset.trans (stmtsExprs_trim_subset e)
        (List.subset_append_right _ _)⟩)

theorem stmtsExprs_trim_subset : ∀ ss : List Stmt, stmtsExprs (trimStmts ss).value ⊆ stmtsExprs ss
  | [] => by simp [trimStmts, pure]
  | s :: ss => by
    have hs := List.Subset.trans s.exprs_trim_subset (List.subset_append_left _ (stmtsExprs ss))
    rw [trimStmts_cons]
    split
    · simpa [stmtsExprs] using hs
    · rw [stmtsExprs, stmtsExprs]
      exact List.append_subset.2 ⟨hs, List.Subset.trans (stmtsExprs_trim_subset ss)
        (List.subset_append_right _ _)⟩

end

/-- What holds of all expressions holds of those that trimming leaves. -/
theorem StmtsAll.trim {P : Expr → Prop} {ss : List Stmt} (h : StmtsAll P ss) :
    StmtsAll P (trimStmts ss).value :=
  fun x hx => h x (stmtsExprs_trim_subset ss hx)

/-! ### Revised blocks -/

section Revise

variable (rule : Expr → Option Expr)

theorem reviseStmts_value (ss : List Stmt) :
    (reviseStmts rule ss).value = ss.map fun s => (s.revise rule).value := by
  induction ss with
  | nil => simp [reviseStmts, pure]
  | cons s ss ih =>
    rw [List.map_cons, ← ih, reviseStmts]
    rfl

mutual

theorem Stmt.terminates_revise : ∀ s : Stmt, (s.revise rule).value.terminates = s.terminates
  | .ret _ none | .ret _ (some _) | .assign .. | .use .. | .expr .. | .missing | .ifThen .. => by
    simp [Stmt.revise, pure, bind, Stmt.terminates]
  | .ifElse _ c _ t _ e => by
    simp [Stmt.revise, pure, bind, Stmt.terminates, stmtsTerminate_revise t,
      stmtsTerminate_revise e]

theorem stmtsTerminate_revise :
    ∀ ss : List Stmt, stmtsTerminate (reviseStmts rule ss).value = stmtsTerminate ss
  | [] => by simp [reviseStmts, pure]
  | s :: ss => by
    have hs := s.terminates_revise
    have hss := stmtsTerminate_revise ss
    rw [reviseStmts_value] at hss ⊢
    rw [List.map_cons, stmtsTerminate_cons, stmtsTerminate_cons, hs, hss]
    simp

end

mutual

theorem Stmt.Tight.revise : ∀ {s : Stmt}, s.Tight → (s.revise rule).value.Tight
  | .ret _ none, _ | .ret _ (some _), _ | .assign .., _ | .use .., _ | .expr .., _
  | .missing, _ => by
    simp [Stmt.revise, pure, bind, Stmt.Tight]
  | .ifThen _ c _ t, h => by
    rw [Stmt.Tight] at h
    simpa [Stmt.revise, pure, bind, Stmt.Tight] using StmtsTight.revise h
  | .ifElse _ c _ t _ e, h => by
    rw [Stmt.Tight] at h
    simpa [Stmt.revise, pure, bind, Stmt.Tight] using And.intro (StmtsTight.revise h.1)
      (StmtsTight.revise h.2)

/-- Tight blocks stay tight when their expressions are revised. -/
theorem StmtsTight.revise :
    ∀ {ss : List Stmt}, StmtsTight ss → StmtsTight (reviseStmts rule ss).value
  | [], _ => by simp [reviseStmts, pure, StmtsTight]
  | s :: ss, h => by
    rw [StmtsTight] at h
    obtain ⟨hs, hend, hss⟩ := h
    have hrest := StmtsTight.revise hss
    rw [reviseStmts_value] at hrest ⊢
    rw [List.map_cons, StmtsTight, s.terminates_revise]
    refine ⟨hs.revise, fun hterm => ?_, hrest⟩
    rw [hend hterm]
    rfl

end

end Revise

end FunRiscv
