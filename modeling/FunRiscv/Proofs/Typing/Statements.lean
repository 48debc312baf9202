import Mathlib
import FunRiscv.Proofs.Typing.Inference

/-!
# Statements follow the rules

* `Checks`: checking a statement records types that follow the rules, and gives the frames after it.
* `checks`, `checksAll`: it holds for every statement and every list of statements.

The result type of a function is shown with the dynamic type for its unknown parts; so the rules
hold for every blur of it.
-/

namespace FunRiscv

open Checking

variable {locals : List Frame} {c c' : Checker} {i : Nat} {result : Ty}

/-- Whenever a statement is checked, the types of its expressions follow the rules. -/
def Checks (i : Nat) (s : Stmt) : Prop :=
  ∀ ⦃result : Ty⦄ ⦃locals : List Frame⦄ ⦃c c' : Checker⦄ ⦃out : List Frame × Bool⦄, c.Ready locals →
    result.Over c.unifier.Past → Gives (checkStmt result locals i s) c out c' →
      Advances (Set.Ico i (i + s.nodeCount)) c c' ∧ c'.Ready out.1 ∧
        ∀ θ r shown, Settles θ r (Set.Ico i (i + s.nodeCount)) c' → (result.bind θ).Blurs shown →
          s.Typed r shown (locals.map (Frame.bind θ)) i (out.1.map (Frame.bind θ))

/-- Whenever statements are checked, the types of their expressions follow the rules. -/
def ChecksAll (i : Nat) (ss : List Stmt) : Prop :=
  ∀ ⦃result : Ty⦄ ⦃locals : List Frame⦄ ⦃c c' : Checker⦄ ⦃out : Bool⦄, c.Ready locals →
    result.Over c.unifier.Past → Gives (checkStmts result locals i ss) c out c' →
      Advances (Set.Ico i (i + stmtsNodeCount ss)) c c' ∧
        ∀ θ r shown, Settles θ r (Set.Ico i (i + stmtsNodeCount ss)) c' →
          (result.bind θ).Blurs shown → stmtsTyped r shown (locals.map (Frame.bind θ)) i ss

/-! ### One lemma for each kind of statement -/

theorem expectType_spec {t : Ty} {e : Expr} {x : Unit} (hc : c.Ready locals)
    (ht : t.Over c.unifier.Past) (h : Gives (expectType locals i t e) c x c') :
    Advances (span (i, e)) c c' ∧
      ∀ θ r, Settles θ r (span (i, e)) c' → e.Typed r (locals.map (Frame.bind θ)) i ∧
      ∃ u, r.types i = some u ∧ u.Agrees (t.bind θ) := by
  rw [expectType, gives_bind] at h
  obtain ⟨found, c₁, hfound, h⟩ := h
  exact (infers e i hc (by simpa using ht) hfound).expect ht (gives_unifyAt.1 h)

theorem Checks.ret (i : Nat) (loc : Location) (x : Option Expr) : Checks i (.ret loc x) := by
  intro result locals c c' out hc hresult h
  cases x with
  | none =>
    rw [checkStmt, gives_bind] at h
    obtain ⟨y, c₁, hy, h⟩ := h
    obtain ⟨rfl, rfl⟩ := gives_pure.1 h
    obtain ⟨hadv, hagree⟩ := advances_unified hc.tidy hresult Ty.over_none (gives_unifyAt.1 hy)
    exact ⟨hadv, hc.later hadv, fun θ r shown hs hblur =>
      ⟨(hagree θ hs.respects).symm.blur hblur, rfl⟩⟩
  | some e =>
    rw [checkStmt, gives_bind] at h
    obtain ⟨y, c₁, hy, h⟩ := h
    obtain ⟨rfl, rfl⟩ := gives_pure.1 h
    obtain ⟨hadv, htyped⟩ := expectType_spec hc hresult hy
    refine ⟨hadv, hc.later hadv, fun θ r shown hs hblur => ?_⟩
    obtain ⟨htree, u, hu, hagree⟩ := htyped θ r hs
    exact ⟨htree, ⟨u, hu, hagree.blur hblur⟩, rfl⟩

theorem assignLocal_spec {S : Set Nat} {n : String} {t : Ty} {loc : Location} {out : List Frame}
    (hc : c.Ready locals) (ht : t.Over c.unifier.Past)
    (h : Gives (assignLocal locals n t loc) c out c') :
    Advances S c c' ∧ c'.Ready out ∧ ∀ θ, Subst.Respects θ c'.unifier.subst →
      Assigned (locals.map (Frame.bind θ)) n (t.bind θ) (out.map (Frame.bind θ)) := by
  unfold assignLocal at h
  split at h
  · next m old hold =>
    rw [gives_bind] at h
    obtain ⟨x, c₁, hx, h⟩ := h
    obtain ⟨rfl, rfl⟩ := gives_pure.1 h
    have hpast : old.Over c.unifier.Past := by
      obtain ⟨f, hf, hmem⟩ := mem_of_findIn? hold
      obtain ⟨u, hu, hover⟩ := hc.locals f hf _ hmem
      obtain ⟨-, rfl⟩ := Symbol.variable.inj hu
      exact hover
    obtain ⟨hadv, hagree⟩ := advances_unified (S := S) hc.tidy hpast ht (gives_unifyAt.1 hx)
    refine ⟨hadv, hc.later hadv, fun θ hθ => ?_⟩
    unfold Assigned
    rw [findIn?_bind, hold]
    exact ⟨(hagree θ hθ).symm, rfl⟩
  · next hnew =>
    obtain ⟨rfl, rfl⟩ := gives_pure.1 h
    refine ⟨.refl hc.tidy, ⟨hc.tidy, hc.globals, hc.locals.bindLocal ht⟩, fun θ _ => ?_⟩
    unfold Assigned
    rw [findIn?_bind, bindLocal_bind]
    cases hfound : findIn? locals n with
    | none => rfl
    | some s =>
      obtain ⟨f, hf, hmem⟩ := mem_of_findIn? hfound
      obtain ⟨u, hu, -⟩ := hc.locals f hf _ hmem
      dsimp only at hu
      exact (hnew n u (hu ▸ hfound)).elim

theorem Checks.assign (i : Nat) (loc : Location) (n : String) (type : Option TypeExpr) (e : Expr) :
    Checks i (.assign loc n type e) := by
  intro result locals c c' out hc _ h
  -- The value has a type, either found or expected; then the variable takes it.
  have tail : ∀ {t u : Ty} {c₁ : Checker}, Advances (span (i, e)) c c₁ → u.Over c₁.unifier.Past →
      (∀ θ r, Settles θ r (span (i, e)) c₁ → e.Typed r (locals.map (Frame.bind θ)) i ∧
        ∃ t, r.types i = some t ∧
        (∀ a, type = some a → r.Means a (u.bind θ) ∧ t.Agrees (u.bind θ)) ∧
        (type = none → t = u.bind θ)) →
      Gives (do
        let after ← assignLocal locals n u loc
        return (after, false)) c₁ out c' →
      Advances (Set.Ico i (i + e.nodeCount)) c c' ∧ c'.Ready out.1 ∧
        ∀ θ r shown, Settles θ r (Set.Ico i (i + e.nodeCount)) c' → (result.bind θ).Blurs shown →
          (Stmt.assign loc n type e).Typed r shown (locals.map (Frame.bind θ)) i
            (out.1.map (Frame.bind θ)) := by
    intro t u c₁ hadv hu htyped h
    rw [gives_bind] at h
    obtain ⟨after, c₂, hafter, h⟩ := h
    obtain ⟨rfl, rfl⟩ := gives_pure.1 h
    obtain ⟨hadv₂, hready, hassigned⟩ := assignLocal_spec (S := ∅) (hc.later hadv) hu hafter
    refine ⟨hadv.trans (hadv₂.mono (Set.empty_subset _)), hready, fun θ r shown hs _ => ?_⟩
    obtain ⟨htree, t, ht, hsome, hnone⟩ :=
      htyped θ r (hs.before hadv₂ fun k hk => ⟨hk, Set.notMem_empty k⟩)
    exact ⟨htree, t, u.bind θ, ht, hassigned θ hs.respects, hsome, hnone⟩
  cases type with
  | none =>
    rw [checkStmt] at h
    dsimp only at h
    rw [gives_bind] at h
    obtain ⟨t, c₁, ht, h⟩ := h
    have hinferred := infers e i hc (by simp) ht
    refine tail (t := t) hinferred.advances hinferred.past
      (fun θ r hs => ⟨hinferred.typed θ r hs, _, hinferred.types_eq ?_ hs, ?_, ?_⟩) h
    · exact self_mem_span (i, e)
    · simp
    · simp
  | some a =>
    rw [checkStmt] at h
    dsimp only at h
    rw [gives_bind] at h
    obtain ⟨t, c₁, ht, h⟩ := h
    have hresolve := ht
    obtain ⟨hsame, hground⟩ := resolve_ground hc.globals ht
    subst hsame
    rw [gives_bind] at h
    obtain ⟨x, c₂, hx, h⟩ := h
    simp only [pure_bind] at h
    obtain ⟨hadv, htyped⟩ := expectType_spec hc hground.over hx
    refine tail (t := t) hadv hground.over (fun θ r hs => ?_) h
    obtain ⟨htree, u, hu, hagree⟩ := htyped θ r hs
    refine ⟨htree, u, hu, fun b hb => ⟨?_, hagree⟩, by simp⟩
    obtain rfl := Option.some.inj hb
    rw [hground.bind_eq]
    exact ⟨c₁, c₁, (hs.globals.trans hadv.globals_eq).symm, (hs.path.trans hadv.scopePath_eq).symm,
      hresolve⟩

theorem Checks.use (i : Nat) (loc : Location) (n : String) (e : Expr) :
    Checks i (.use loc n e) := by
  intro result locals c c' out hc _ h
  rw [checkStmt, gives_bind] at h
  obtain ⟨t, c₁, ht, h⟩ := h
  obtain ⟨rfl, rfl⟩ := gives_pure.1 h
  have hinferred := infers e i hc (by simp) ht
  have hready := hc.later hinferred.advances
  refine ⟨hinferred.advances, ⟨hready.tidy, hready.globals, hready.locals.bindLocal hinferred.past⟩,
    fun θ r shown hs _ => ?_⟩
  exact ⟨hinferred.typed θ r hs, _, hinferred.types_eq (self_mem_span (i, e)) hs,
    bindLocal_bind θ locals n t⟩

theorem Checks.expr (i : Nat) (loc : Location) (e : Expr) : Checks i (.expr loc e) := by
  intro result locals c c' out hc _ h
  rw [checkStmt, gives_bind] at h
  obtain ⟨t, c₁, ht, h⟩ := h
  obtain ⟨rfl, rfl⟩ := gives_pure.1 h
  have hinferred := infers e i hc (by simp) ht
  exact ⟨hinferred.advances, hc.later hinferred.advances,
    fun θ r shown hs _ => ⟨hinferred.typed θ r hs, rfl⟩⟩

/-- A condition, in front of what depends on it. -/
theorem condition_spec {e : Expr} {cond : Ty} {loc : Location} {x : Unit} {c₁ c₂ : Checker}
    (hc : c.Ready locals) (hcond : Gives (infer locals i none e) c cond c₁)
    (hx : Gives (conditionType loc cond) c₁ x c₂) :
    Advances (span (i, e)) c c₂ ∧
      ∀ θ r, Settles θ r (span (i, e)) c₂ → e.Typed r (locals.map (Frame.bind θ)) i ∧
      r.Condition i := by
  have hinferred := infers e i hc (by simp) hcond
  obtain ⟨hadv, hcondition⟩ := conditionType_spec (S := ∅) hinferred.advances.tidy hinferred.past hx
  refine ⟨hinferred.advances.trans (hadv.mono (Set.empty_subset _)), fun θ r hs => ?_⟩
  have hs₁ : Settles θ r (span (i, e)) c₁ := hs.before hadv fun k hk => ⟨hk, Set.notMem_empty k⟩
  exact ⟨hinferred.typed θ r hs₁, _, hinferred.types_eq (self_mem_span (i, e)) hs₁,
    hcondition θ hs.respects⟩

theorem Checks.ifThen {loc tloc : Location} {e : Expr} {a : List Stmt}
    (ha : ChecksAll (i + e.nodeCount) a) : Checks i (.ifThen loc e tloc a) := by
  intro result locals c c' out hc hresult h
  rw [checkStmt, gives_bind] at h
  obtain ⟨cond, c₁, hcond, h⟩ := h
  rw [gives_bind] at h
  obtain ⟨x, c₂, hx, h⟩ := h
  rw [gives_bind] at h
  obtain ⟨returned, c₃, hreturned, h⟩ := h
  obtain ⟨rfl, rfl⟩ := gives_pure.1 h
  obtain ⟨hadv, hcondition⟩ := condition_spec hc hcond hx
  obtain ⟨hadv₂, harm⟩ := ha (hc.later hadv).push (hadv.reaches.over hresult) hreturned
  have hsub₁ : span (i, e) ⊆ Set.Ico i (i + (Stmt.ifThen loc e tloc a).nodeCount) := by
    intro k
    simp only [mem_span, Set.mem_Ico, Stmt.nodeCount]
    omega
  have hsub₂ : Set.Ico (i + e.nodeCount) (i + e.nodeCount + stmtsNodeCount a) ⊆
      Set.Ico i (i + (Stmt.ifThen loc e tloc a).nodeCount) := by
    intro k
    simp only [Set.mem_Ico, Stmt.nodeCount]
    omega
  refine ⟨(hadv.mono hsub₁).trans (hadv₂.mono hsub₂), (hc.later hadv).later hadv₂,
    fun θ r shown hs hblur => ?_⟩
  obtain ⟨htree, hcond⟩ := hcondition θ r (hs.before hadv₂ fun k hk => by
    refine ⟨hsub₁ hk, ?_⟩
    simp only [mem_span, Set.mem_Ico] at hk ⊢
    omega)
  exact ⟨htree, hcond, harm θ r shown (hs.mono hsub₂) hblur, rfl⟩

theorem Checks.ifElse {loc tloc eloc : Location} {e : Expr} {a b : List Stmt}
    (ha : ChecksAll (i + e.nodeCount) a) (hb : ChecksAll (i + e.nodeCount + stmtsNodeCount a) b) :
    Checks i (.ifElse loc e tloc a eloc b) := by
  intro result locals c c' out hc hresult h
  rw [checkStmt, gives_bind] at h
  obtain ⟨cond, c₁, hcond, h⟩ := h
  rw [gives_bind] at h
  obtain ⟨x, c₂, hx, h⟩ := h
  dsimp only at h
  rw [gives_bind] at h
  obtain ⟨x₁, c₃, hx₁, h⟩ := h
  rw [gives_bind] at h
  obtain ⟨x₂, c₄, hx₂, h⟩ := h
  obtain ⟨rfl, rfl⟩ := gives_pure.1 h
  obtain ⟨hadv, hcondition⟩ := condition_spec hc hcond hx
  have hc₂ := hc.later hadv
  obtain ⟨hadv₂, harm₁⟩ := ha hc₂.push (hadv.reaches.over hresult) hx₁
  obtain ⟨hadv₃, harm₂⟩ :=
    hb (hc₂.later hadv₂).push (hadv₂.reaches.over (hadv.reaches.over hresult)) hx₂
  have hsub₁ : span (i, e) ⊆ Set.Ico i (i + (Stmt.ifElse loc e tloc a eloc b).nodeCount) := by
    intro k
    simp only [mem_span, Set.mem_Ico, Stmt.nodeCount]
    omega
  have hsub₂ : Set.Ico (i + e.nodeCount) (i + e.nodeCount + stmtsNodeCount a) ⊆
      Set.Ico i (i + (Stmt.ifElse loc e tloc a eloc b).nodeCount) := by
    intro k
    simp only [Set.mem_Ico, Stmt.nodeCount]
    omega
  have hsub₃ : Set.Ico (i + e.nodeCount + stmtsNodeCount a)
    (i + e.nodeCount + stmtsNodeCount a + stmtsNodeCount b) ⊆
      Set.Ico i (i + (Stmt.ifElse loc e tloc a eloc b).nodeCount) := by
    intro k
    simp only [Set.mem_Ico, Stmt.nodeCount]
    omega
  refine ⟨((hadv.mono hsub₁).trans (hadv₂.mono hsub₂)).trans (hadv₃.mono hsub₃),
    (hc₂.later hadv₂).later hadv₃, fun θ r shown hs hblur => ?_⟩
  have hs₃ : Settles θ r
    (span (i, e) ∪ Set.Ico (i + e.nodeCount) (i + e.nodeCount + stmtsNodeCount a)) c₃ :=
    hs.before hadv₃ fun k hk => by
      refine ⟨hk.elim (fun h => hsub₁ h) (fun h => hsub₂ h), ?_⟩
      simp only [Set.mem_union, mem_span, Set.mem_Ico] at hk ⊢
      omega
  obtain ⟨htree, hcond⟩ := hcondition θ r (hs₃.before hadv₂ fun k hk => by
    refine ⟨.inl hk, ?_⟩
    simp only [mem_span, Set.mem_Ico] at hk ⊢
    omega)
  exact ⟨htree, hcond, harm₁ θ r shown (hs₃.mono Set.subset_union_right) hblur,
    harm₂ θ r shown (hs.mono hsub₃) hblur, rfl⟩

theorem ChecksAll.cons {s : Stmt} {ss : List Stmt} (hs : Checks i s)
    (hss : ChecksAll (i + s.nodeCount) ss) : ChecksAll i (s :: ss) := by
  intro result locals c c' out hc hresult h
  rw [checkStmts, gives_bind] at h
  obtain ⟨x, c₁, hx, h⟩ := h
  dsimp only at h
  rw [gives_bind] at h
  obtain ⟨y, c₂, hy, h⟩ := h
  obtain ⟨rfl, rfl⟩ := gives_pure.1 h
  obtain ⟨hadv₁, hready, htyped₁⟩ := hs hc hresult hx
  obtain ⟨hadv₂, htyped₂⟩ := hss hready (hadv₁.reaches.over hresult) hy
  have hsub₁ : Set.Ico i (i + s.nodeCount) ⊆ Set.Ico i (i + stmtsNodeCount (s :: ss)) := by
    intro k
    simp only [Set.mem_Ico, stmtsNodeCount]
    omega
  have hsub₂ : Set.Ico (i + s.nodeCount) (i + s.nodeCount + stmtsNodeCount ss) ⊆
    Set.Ico i (i + stmtsNodeCount (s :: ss)) := by
    intro k
    simp only [Set.mem_Ico, stmtsNodeCount]
    omega
  refine ⟨(hadv₁.mono hsub₁).trans (hadv₂.mono hsub₂), fun θ r shown hset hblur =>
    ⟨_, htyped₁ θ r shown ?_ hblur, htyped₂ θ r shown (hset.mono hsub₂) hblur⟩⟩
  refine hset.before hadv₂ fun k hk => ⟨hsub₁ hk, ?_⟩
  simp only [Set.mem_Ico] at hk ⊢
  omega

/-! ### All statements -/

mutual

/-- Checked statements follow the rules. -/
theorem checks : ∀ (s : Stmt) (i : Nat), Checks i s
  | .ret loc x, i => .ret i loc x
  | .assign loc n type e, i => .assign i loc n type e
  | .use loc n e, i => .use i loc n e
  | .ifThen _ _ _ a, _ => .ifThen (checksAll a _)
  | .ifElse _ _ _ a _ b, _ => .ifElse (checksAll a _) (checksAll b _)
  | .expr loc e, i => .expr i loc e
  | .missing, _ => fun _ _ _ _ _ _ _ h => (not_gives_checkStmt_missing h).elim

theorem checksAll : ∀ (ss : List Stmt) (i : Nat), ChecksAll i ss
  | [], i => by
    intro result locals c c' out hc _ h
    rw [checkStmts] at h
    obtain ⟨rfl, rfl⟩ := gives_pure.1 h
    exact ⟨.refl hc.tidy, fun θ r shown _ _ => trivial⟩
  | s :: ss, i => .cons (checks s i) (checksAll ss _)

end

end FunRiscv
