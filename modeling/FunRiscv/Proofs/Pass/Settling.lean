import Mathlib
import FunRiscv.Proofs.Pass.Blocks
import FunRiscv.Proofs.Pass.Temporaries

/-!
# Linear programs

Hoisting leaves nothing to hoist, and it keeps what the other passes established.

* `Hoisting.Portable`: a property of expressions that survives when operands are replaced by others
  that stand for them.
* `Hoisting.Moves`: expressions become others, after assignments to temporaries.
* `Hoisting.expr_settles`: what hoisting makes of an expression: nothing is left to hoist, and
  portable properties are kept.
* `Hoisting.Still`: statements that hoisting leaves alone. `Hoisting.stmts_settle`: so are the
  statements that it gives.
-/

namespace FunRiscv.Hoisting

open FunRiscv.Expr (Stands)

/-! ### Expressions that become others -/

/-- A property of expressions that variables have, and that an expression keeps when its
children are replaced by others that stand for them. Only lambdas, which hoisting does not
enter, may lose it. -/
structure Portable (P : Expr → Prop) : Prop where
  var : ∀ loc n, P (.var loc n)
  operands : ∀ {x x' : Expr}, (∀ loc ps b, x ≠ .lambda loc ps b) → x.Congruent Stands x' →
    P x → P x'

theorem portable_etaRule : Portable fun x => etaRule x = none where
  var _ _ := rfl
  operands hx h _ := by
    cases h with
    | lambda h => exact absurd rfl (hx _ _ _)
    | atom h => assumption
    | _ => rfl

theorem portable_floatRule : Portable fun x => floatRule x = none where
  var _ _ := rfl
  operands _ h hx := Expr.floatRule_of_congruent h hx

theorem portable_soundCall : Portable Expr.SoundCall where
  var _ _ := trivial
  operands _ h hx := hx.of_congruent (h.imp fun _ _ _ h => h.form)

/-- Some expressions become others, after assignments to temporaries. In what is assigned nothing
is left to hoist. -/
structure Moves (xs : List Expr) (new : List Stmt) (xs' : List Expr) : Prop where
  linear : ∀ t ∈ new, ∃ loc n z, t = .assign loc n none z ∧ expr z = pure z
  keeps : ∀ P, Portable P → (∀ x ∈ xs, x.All P) → (∀ x ∈ xs', x.All P) ∧ StmtsAll P new
  stands : List.Forall₂ Stands xs xs'

section Moves

variable {xs xs' ys ys' : List Expr} {new more : List Stmt} {x x' : Expr}

theorem Moves.refl (xs : List Expr) : Moves xs [] xs where
  linear t ht := by cases ht
  keeps P hP hxs := ⟨hxs, fun x hx => by simp [stmtsExprs] at hx⟩
  stands := List.forall₂_same.2 fun x _ => .refl x

theorem Moves.append (h : Moves xs new xs') (h' : Moves ys more ys') :
    Moves (xs ++ ys) (new ++ more) (xs' ++ ys') where
  linear t ht := (List.mem_append.1 ht).elim (h.linear t) (h'.linear t)
  keeps P hP hxs := by
    rw [List.forall_mem_append] at hxs ⊢
    obtain ⟨hfirst, hnew⟩ := h.keeps P hP hxs.1
    obtain ⟨hsecond, hmore⟩ := h'.keeps P hP hxs.2
    exact ⟨⟨hfirst, hsecond⟩, stmtsAll_append.2 ⟨hnew, hmore⟩⟩
  stands := List.rel_append h.stands h'.stands

/-- An expression becomes another of its form when its children become others. -/
theorem Moves.node (h : Moves x.children new x'.children) (hx : ∀ loc ps b, x ≠ .lambda loc ps b)
    (hc : x.Congruent Stands x') : Moves [x] new [x'] where
  linear := h.linear
  keeps P hP hxs := by
    have hall := hxs x List.mem_cons_self
    obtain ⟨hchildren, hnew⟩ := h.keeps P hP fun y hy => hall.child hy
    exact ⟨List.forall_mem_singleton.2 (.intro (hP.operands hx hc hall.self) hchildren), hnew⟩
  stands := .cons (.of_congruent hc) .nil

/-- An operation or a call becomes a temporary, to which what became of it is assigned last. -/
theorem Moves.name (h : Moves [x] new [x']) (hcomplex : x.isComplex = true)
    (hlinear : expr x' = pure x') (loc : Location) (n : String) :
    Moves [x] (new ++ [Stmt.assign loc n none x']) [.var loc n] where
  linear t ht := by
    rcases List.mem_append.1 ht with ht | ht
    · exact h.linear t ht
    · exact ⟨loc, n, x', List.mem_singleton.1 ht, hlinear⟩
  keeps P hP hxs := by
    obtain ⟨hx', hnew⟩ := h.keeps P hP hxs
    refine ⟨List.forall_mem_singleton.2 (.atom (hP.var loc n) rfl), stmtsAll_append.2 ⟨hnew, ?_⟩⟩
    simpa [StmtsAll, stmtsExprs, Stmt.exprs] using hx' x' List.mem_cons_self
  stands := by
    refine .cons ⟨?_, False.elim⟩ .nil
    cases x with
    | binOp | call => rfl
    | _ => cases hcomplex

end Moves

/-! ### Expressions -/

/-- What becomes of an expression. -/
structure Settles (x : Expr) (s : Temporaries) (x' : Expr) (new : List Stmt) (s' : Temporaries) :
    Prop where
  emits : Emits (expr x) s x' new s'
  moves : Moves [x] new [x']
  linear : expr x' = pure x'
  complex : x'.isComplex = x.isComplex

theorem Settles.stands {x x' : Expr} {s s' : Temporaries} {new : List Stmt}
    (h : Settles x s x' new s') : x.Stands x' := by
  have hstands := h.moves.stands
  rw [List.forall₂_cons] at hstands
  exact hstands.1

/-- What becomes of an operand. -/
structure SettlesOperand (x : Expr) (s : Temporaries) (x' : Expr) (new : List Stmt)
    (s' : Temporaries) : Prop where
  emits : Emits (simple x (expr x)) s x' new s'
  moves : Moves [x] new [x']
  linear : simple x' (expr x') = pure x'

/-- What an action makes of expressions, which it leaves alone the next time. -/
structure SettlesAll (act : List Expr → Hoisting (List Expr)) (xs : List Expr) (s : Temporaries)
    (xs' : List Expr) (new : List Stmt) (s' : Temporaries) : Prop where
  emits : Emits (act xs) s xs' new s'
  moves : Moves xs new xs'
  linear : act xs' = pure xs'

/-- What becomes of named operands. -/
structure SettlesNamed (ns : List NamedArg) (s : Temporaries) (ns' : List NamedArg)
    (new : List Stmt) (s' : Temporaries) : Prop where
  emits : Emits (namedOperands ns) s ns' new s'
  moves : Moves (ns.map NamedArg.value) new (ns'.map NamedArg.value)
  linear : namedOperands ns' = pure ns'
  congruent : List.Forall₂ (NamedArg.Congruent Stands) ns ns'

variable {s s' : Temporaries} {new : List Stmt}

/-- An expression that stays as it is. -/
theorem settles_pure {x : Expr} (hx : expr x = pure x) (s : Temporaries) : Settles x s x [] s where
  emits := hx ▸ emits_pure x s
  moves := .refl [x]
  linear := hx
  complex := rfl

/-- An operation or a call is named, and everything else stays an operand. -/
theorem Settles.operand {x x' : Expr} (h : Settles x s x' new s') :
    ∃ x'' new' s'', SettlesOperand x s x'' new' s'' := by
  cases hcomplex : x.isComplex with
  | false =>
    refine ⟨x', new, s', ?_,
      h.moves, by rw [simple_of_not_complex (h.complex.trans hcomplex), h.linear]⟩
    rw [simple_of_not_complex hcomplex]
    exact h.emits
  | true =>
    obtain ⟨s'', hname⟩ := emits_name x' s'
    refine ⟨_, _, s'', simple_of_complex hcomplex _ ▸ h.emits.bind hname,
      h.moves.name hcomplex h.linear _ _, ?_⟩
    rw [simple_of_not_complex rfl, expr]

mutual

/-- Hoisting the operands of an expression leaves nothing to hoist. -/
theorem expr_settles : ∀ (x : Expr) (s : Temporaries), ∃ x' new s', Settles x s x' new s'
  | .binOp loc op l r, s => by
    obtain ⟨l₀, new₀, s₀, hl₀⟩ := expr_settles l s
    obtain ⟨l', new, s₁, hl⟩ := hl₀.operand
    obtain ⟨r₀, more₀, s₂, hr₀⟩ := expr_settles r s₁
    obtain ⟨r', more, s', hr⟩ := hr₀.operand
    refine ⟨.binOp loc op l' r', new ++ more, s', ?_, ?_, ?_, rfl⟩
    · simpa [expr_binOp] using hl.emits.bind (hr.emits.map (f := fun r => Expr.binOp loc op l' r))
    · have hmoves := hl.moves.append hr.moves
      have hstands := hmoves.stands
      simp only [List.singleton_append, List.forall₂_cons] at hstands
      exact Moves.node hmoves (fun _ _ _ => Expr.noConfusion) (.binOp hstands.1 hstands.2.1)
    · rw [expr_binOp, hl.linear, pure_bind, hr.linear, pure_bind]
  | .call loc f as ns, s => by
    obtain ⟨f₀, new₀, s₀, hf₀⟩ := expr_settles f s
    obtain ⟨f', new, s₁, hf⟩ := hf₀.operand
    obtain ⟨as', more, s₂, has⟩ := operands_settle as s₁
    obtain ⟨ns', rest, s', hns⟩ := named_settle ns s₂
    refine ⟨.call loc f' as' ns', new ++ (more ++ rest), s', ?_, ?_, ?_, rfl⟩
    · simpa [expr_call]
        using hf.emits.bind
          (has.emits.bind (hns.emits.map (f := fun ns => Expr.call loc f' as' ns)))
    · have hmoves := hf.moves.append (has.moves.append hns.moves)
      have hstands := hf.moves.stands
      rw [List.forall₂_cons] at hstands
      exact Moves.node hmoves (fun _ _ _ => Expr.noConfusion)
        (.call hstands.1 has.moves.stands hns.congruent)
    · rw [expr_call, hf.linear, pure_bind, has.linear, pure_bind, hns.linear, pure_bind]
  | .tuple loc es, s => by
    obtain ⟨es', new, s', hes⟩ := exprs_settle es s
    refine ⟨.tuple loc es', new, s', ?_, ?_, ?_, rfl⟩
    · simpa [expr_tuple] using hes.emits.map (f := fun es => Expr.tuple loc es)
    · exact Moves.node hes.moves (fun _ _ _ => Expr.noConfusion) (.tuple hes.moves.stands)
    · rw [expr_tuple, hes.linear, pure_bind]
  | .list loc es, s => by
    obtain ⟨es', new, s', hes⟩ := exprs_settle es s
    refine ⟨.list loc es', new, s', ?_, ?_, ?_, rfl⟩
    · simpa [expr_list] using hes.emits.map (f := fun es => Expr.list loc es)
    · exact Moves.node hes.moves (fun _ _ _ => Expr.noConfusion) (.list hes.moves.stands)
    · rw [expr_list, hes.linear, pure_bind]
  | .access loc x field, s => by
    obtain ⟨x', new, s', hx⟩ := expr_settles x s
    refine ⟨.access loc x' field, new, s', ?_, ?_, ?_, rfl⟩
    · simpa [expr_access] using hx.emits.map (f := fun x => Expr.access loc x field)
    · exact Moves.node hx.moves (fun _ _ _ => Expr.noConfusion) (.access hx.stands)
    · rw [expr_access, hx.linear, pure_bind]
  | .ifElse loc c t e, s => by
    obtain ⟨c', new, s', hc⟩ := expr_settles c s
    refine ⟨.ifElse loc c' t e, new, s', ?_, ?_, ?_, rfl⟩
    · simpa [expr_ifElse] using hc.emits.map (f := fun c => Expr.ifElse loc c t e)
    · have hmoves := hc.moves.append (.refl [t, e])
      rw [List.append_nil] at hmoves
      exact Moves.node hmoves (fun _ _ _ => Expr.noConfusion)
        (.ifElse hc.stands (.refl t) (.refl e))
    · rw [expr_ifElse, hc.linear, pure_bind]
  | .matchOn loc x cs, s => by
    obtain ⟨x', new, s', hx⟩ := expr_settles x s
    refine ⟨.matchOn loc x' cs, new, s', ?_, ?_, ?_, rfl⟩
    · simpa [expr_matchOn] using hx.emits.map (f := fun x => Expr.matchOn loc x cs)
    · have hmoves := hx.moves.append (.refl (cs.map Case.body))
      rw [List.append_nil] at hmoves
      have hcases : List.Forall₂ (Case.Congruent Stands) cs cs :=
        List.forall₂_same.2 fun k _ => Case.congruent_iff.2 ⟨rfl, rfl, .refl _⟩
      exact Moves.node hmoves (fun _ _ _ => Expr.noConfusion) (.matchOn hx.stands hcases)
    · rw [expr_matchOn, hx.linear, pure_bind]
  | .var .., s | .uint .., s | .int .., s | .float .., s | .str .., s | .bool .., s | .eraser _, s
  | .lambda .., s | .missing, s =>
    ⟨_, [], s, settles_pure (by rw [expr]) s⟩

theorem exprs_settle :
    ∀ (xs : List Expr) (s : Temporaries), ∃ xs' new s', SettlesAll exprs xs s xs' new s'
  | [], s => ⟨[], [], s, by rw [exprs]; exact emits_pure [] s, .refl [], by rw [exprs]⟩
  | x :: xs, s => by
    obtain ⟨x', new, s₁, hx⟩ := expr_settles x s
    obtain ⟨xs', more, s', hxs⟩ := exprs_settle xs s₁
    refine ⟨x' :: xs', new ++ more, s', ?_, hx.moves.append hxs.moves, ?_⟩
    · simpa [exprs] using hx.emits.bind (hxs.emits.map (f := fun xs => x' :: xs))
    · rw [exprs, hx.linear, pure_bind, hxs.linear, pure_bind]

theorem operands_settle :
    ∀ (xs : List Expr) (s : Temporaries), ∃ xs' new s', SettlesAll operands xs s xs' new s'
  | [], s => ⟨[], [], s, by rw [operands]; exact emits_pure [] s, .refl [], by rw [operands]⟩
  | x :: xs, s => by
    obtain ⟨x₀, new₀, s₀, hx₀⟩ := expr_settles x s
    obtain ⟨x', new, s₁, hx⟩ := hx₀.operand
    obtain ⟨xs', more, s', hxs⟩ := operands_settle xs s₁
    refine ⟨x' :: xs', new ++ more, s', ?_, hx.moves.append hxs.moves, ?_⟩
    · simpa [operands] using hx.emits.bind (hxs.emits.map (f := fun xs => x' :: xs))
    · rw [operands, hx.linear, pure_bind, hxs.linear, pure_bind]

theorem named_settle :
    ∀ (ns : List NamedArg) (s : Temporaries), ∃ ns' new s', SettlesNamed ns s ns' new s'
  | [], s => ⟨[], [], s, by rw [namedOperands]; exact emits_pure [] s, .refl
    [], by rw [namedOperands], .nil⟩
  | .mk loc n x :: ns, s => by
    obtain ⟨x₀, new₀, s₀, hx₀⟩ := expr_settles x s
    obtain ⟨x', new, s₁, hx⟩ := hx₀.operand
    obtain ⟨ns', more, s', hns⟩ := named_settle ns s₁
    have hstands := hx.moves.stands
    rw [List.forall₂_cons] at hstands
    refine ⟨.mk loc n x' :: ns', new ++ more, s', ?_, hx.moves.append hns.moves, ?_,
      .cons (.mk hstands.1) hns.congruent⟩
    · simpa [namedOperands_cons]
        using hx.emits.bind (hns.emits.map (f := fun ns => NamedArg.mk loc n x' :: ns))
    · rw [namedOperands_cons, hx.linear, pure_bind, hns.linear, pure_bind]

end

/-! ### Statements -/

/-- A statement that hoisting leaves alone. -/
def Still (t : Stmt) : Prop := stmt t = pure t

theorem placed_of_still {t : Stmt} (h : Still t) : placed t = pure [t] := by
  have hcollect : collect (pure t : Hoisting Stmt) = pure ([], t) := by
    funext s
    exact collect_run _ s
  rw [placed, h, hcollect]
  rfl

theorem stmts_of_still {ss : List Stmt} (h : ∀ t ∈ ss, Still t) : stmts ss = pure ss := by
  induction ss with
  | nil => rw [stmts]
  | cons t ss ih =>
    rw [List.forall_mem_cons] at h
    rw [stmts_cons, placed_of_still h.1, pure_bind, ih h.2]
    rfl

theorem still_assign {z : Expr} (hz : expr z = pure z) (loc : Location) (n : String)
    (ty : Option TypeExpr) : Still (.assign loc n ty z) := by
  rw [Still, stmt_leaf (fun x => .assign loc n ty x) (by rw [stmt]), hz, pure_bind]

theorem stmtsTight_of_straight {new : List Stmt} (h : Straight new) :
    StmtsTight new ∧ stmtsTerminate new = false := by
  induction new with
  | nil => exact ⟨trivial, rfl⟩
  | cons t new ih =>
    obtain ⟨loc, n, x, rfl⟩ := h _ List.mem_cons_self
    obtain ⟨htight, hterm⟩ := ih fun t ht => h t (List.mem_cons_of_mem _ ht)
    rw [StmtsTight, stmtsTerminate_cons, hterm]
    exact ⟨⟨trivial, fun h => by simp [Stmt.terminates] at h, htight⟩, by simp [Stmt.terminates]⟩

/-- What becomes of statements: hoisting leaves the result alone, portable properties are kept, and
blocks stay tight. -/
structure SettlesStmts (act : Hoisting (List Stmt)) (ss : List Stmt) (s : Temporaries)
    (ss' : List Stmt) (s' : Temporaries) : Prop where
  run : (act.run s).value = (ss', s')
  pending : s'.pending = s.pending
  still : ∀ t ∈ ss', Still t
  keeps : ∀ P, Portable P → StmtsAll P ss → StmtsAll P ss'
  tight : StmtsTight ss → StmtsTight ss'
  terminates : stmtsTerminate ss' = stmtsTerminate ss
  nil : ss' = [] ↔ ss = []

section Head

variable {x x' : Expr} {s₁ : Temporaries}

/-- A statement whose first expression is hoisted. -/
theorem Settles.head (h : Settles x { s with pending := [] } x' new s₁) {t t' : Stmt}
    (hrun : ((stmt t).run { s with pending := [] }).value = (t', s'))
    (hpending : s'.pending = s₁.pending) (hstill : Still t')
    (hkeeps : ∀ P, Portable P → StmtsAll P [t] → x.All P ∧ (x'.All P → StmtsAll P [t']))
    (htight : t.Tight → t'.Tight) (hterm : t'.terminates = t.terminates) :
    SettlesStmts (placed t) [t] s (new ++ [t']) { s' with pending := s.pending } where
  run := by rw [value_placed hrun, hpending, h.emits.pending_reverse]
  pending := rfl
  still u hu := by
    rcases List.mem_append.1 hu with hu | hu
    · obtain ⟨loc, n, z, rfl, hz⟩ := h.moves.linear u hu
      exact still_assign hz loc n none
    · obtain rfl := List.mem_singleton.1 hu
      exact hstill
  keeps P hP hall := by
    obtain ⟨hx, ht'⟩ := hkeeps P hP hall
    obtain ⟨hx', hnew⟩ := h.moves.keeps P hP (List.forall_mem_singleton.2 hx)
    exact stmtsAll_append.2 ⟨hnew, ht' (hx' x' List.mem_cons_self)⟩
  tight ht := by
    rw [StmtsTight] at ht
    obtain ⟨hnew, hnever⟩ := stmtsTight_of_straight h.emits.straight
    refine stmtsTight_append hnew ⟨htight ht.1, fun _ => rfl, trivial⟩ fun hlast => ?_
    rw [hnever] at hlast
    cases hlast
  terminates := by
    rw [stmtsTerminate_append (by simp)]
    simpa [stmtsTerminate] using hterm
  nil := by simp

end Head

/-- A statement with one expression. -/
theorem leaf_settles {x : Expr} (s : Temporaries) (make : Expr → Stmt)
    (hstmt : ∀ y, stmt (make y) = orShared (do return make (← expr y)) (make y))
    (hexprs : ∀ y, (make y).exprs = [y]) (htight : ∀ y, (make y).Tight)
    (hterm : ∀ y z, (make y).terminates = (make z).terminates) :
    ∃ ss' s', SettlesStmts (placed (make x)) [make x] s ss' s' := by
  obtain ⟨x', new, s₁, hx⟩ := expr_settles x { s with pending := [] }
  have hrun : ((stmt (make x)).run { s with pending := [] }).value = (make x', s₁) := by
    rw [stmt_leaf make (hstmt x), value_bind hx.emits.run]
    rfl
  refine ⟨_, _, hx.head hrun rfl ?_ ?_ (fun _ => htight x') (hterm _ _)⟩
  · rw [Still, stmt_leaf make (hstmt x'), hx.linear, pure_bind]
  · intro P hP hall
    simp only [StmtsAll, stmtsExprs, hexprs, List.append_nil, List.forall_mem_singleton] at hall ⊢
    exact ⟨hall, id⟩

/-- A statement that hoisting does not touch. -/
theorem still_settles {t : Stmt} (ht : Still t) (s : Temporaries) :
    ∃ ss' s', SettlesStmts (placed t) [t] s ss' s' :=
  ⟨[t], s, by rw [placed_of_still ht]; rfl, rfl, List.forall_mem_singleton.2 ht, fun _ _ h => h,
    id, rfl, Iff.rfl⟩

theorem still_ifThen {c : Expr} {t : List Stmt} (hc : expr c = pure c) (ht : ∀ u ∈ t, Still u)
    (loc tl : Location) : Still (.ifThen loc c tl t) := by
  rw [Still, stmt_ifThen, hc, pure_bind, stmts_of_still ht, pure_bind]

theorem still_ifElse {c : Expr} {t e : List Stmt} (hc : expr c = pure c) (ht : ∀ u ∈ t, Still u)
    (he : ∀ u ∈ e, Still u) (loc tl el : Location) : Still (.ifElse loc c tl t el e) := by
  rw [Still, stmt_ifElse, hc, pure_bind, stmts_of_still ht, pure_bind, stmts_of_still he, pure_bind]

mutual

theorem stmt_settles :
    ∀ (t : Stmt) (s : Temporaries), ∃ ss' s', SettlesStmts (placed t) [t] s ss' s'
  | .ret loc none, s | .missing, s => still_settles (by rw [Still, stmt]) s
  | .ret loc (some x), s =>
    leaf_settles s (fun x => .ret loc (some x)) (fun x => by rw [stmt])
      (fun x => by rw [Stmt.exprs]) (fun x => trivial)
      fun x y => by rw [Stmt.terminates, Stmt.terminates]
  | .assign loc n ty x, s =>
    leaf_settles s (fun x => .assign loc n ty x) (fun x => by rw [stmt])
      (fun x => by rw [Stmt.exprs]) (fun x => trivial)
      fun x y => by rw [Stmt.terminates, Stmt.terminates]
  | .use loc n x, s =>
    leaf_settles s (fun x => .use loc n x) (fun x => by rw [stmt]) (fun x => by rw [Stmt.exprs])
      (fun x => trivial) fun x y => by rw [Stmt.terminates, Stmt.terminates]
  | .expr loc x, s =>
    leaf_settles s (fun x => .expr loc x) (fun x => by rw [stmt]) (fun x => by rw [Stmt.exprs])
      (fun x => trivial) fun x y => by rw [Stmt.terminates, Stmt.terminates]
  | .ifThen loc c tl t, s => by
    obtain ⟨c', new, s₁, hc⟩ := expr_settles c { s with pending := [] }
    obtain ⟨t', s', ht⟩ := stmts_settle t s₁
    have hrun : ((stmt (.ifThen loc c tl t)).run { s with pending := [] }).value =
      (.ifThen loc c' tl t', s') := by
      rw [stmt_ifThen, value_bind hc.emits.run, value_bind ht.run]
      rfl
    refine ⟨_, _, hc.head hrun ht.pending (still_ifThen hc.linear ht.still loc tl) ?_ ?_ ?_⟩
    · intro P hP hall
      simp only [StmtsAll, stmtsExprs, Stmt.exprs, List.append_nil, List.forall_mem_cons] at hall ⊢
      exact ⟨hall.1, fun hc' => ⟨hc', ht.keeps P hP hall.2⟩⟩
    · intro h
      rw [Stmt.Tight] at h ⊢
      exact ht.tight h
    · rw [Stmt.terminates, Stmt.terminates]
  | .ifElse loc c tl t el e, s => by
    obtain ⟨c', new, s₁, hc⟩ := expr_settles c { s with pending := [] }
    obtain ⟨t', s₂, ht⟩ := stmts_settle t s₁
    obtain ⟨e', s', he⟩ := stmts_settle e s₂
    have hrun : ((stmt (.ifElse loc c tl t el e)).run { s with pending := [] }).value =
        (.ifElse loc c' tl t' el e', s') := by
      rw [stmt_ifElse, value_bind hc.emits.run, value_bind ht.run, value_bind he.run]
      rfl
    refine ⟨_, _, hc.head hrun (he.pending.trans ht.pending)
      (still_ifElse hc.linear ht.still he.still loc tl el) ?_ ?_ ?_⟩
    · intro P hP hall
      simp only [StmtsAll, stmtsExprs, Stmt.exprs, List.append_nil, List.forall_mem_cons,
        List.forall_mem_append] at hall ⊢
      exact ⟨hall.1, fun hc' => ⟨hc', ht.keeps P hP hall.2.1, he.keeps P hP hall.2.2⟩⟩
    · intro h
      rw [Stmt.Tight] at h ⊢
      exact ⟨ht.tight h.1, he.tight h.2⟩
    · rw [Stmt.terminates, Stmt.terminates, ht.terminates, he.terminates]

/-- Hoisting the operands of statements leaves nothing to hoist. -/
theorem stmts_settle :
    ∀ (ss : List Stmt) (s : Temporaries), ∃ ss' s', SettlesStmts (stmts ss) ss s ss' s'
  | [], s => ⟨[], s, by rw [stmts]; rfl, rfl, by simp, fun _ _ h => h, id, rfl, Iff.rfl⟩
  | t :: ss, s => by
    obtain ⟨ts, s₁, ht⟩ := stmt_settles t s
    obtain ⟨ss', s', hss⟩ := stmts_settle ss s₁
    have hts : ts ≠ [] := fun h => by simpa using ht.nil.1 h
    refine ⟨ts ++ ss', s', ?_, hss.pending.trans ht.pending,
      List.forall_mem_append.2 ⟨ht.still, hss.still⟩, ?_, ?_, ?_, by simp [hts]⟩
    · rw [stmts_cons, value_bind ht.run, value_bind hss.run]
      rfl
    · intro P hP hall
      rw [← List.singleton_append, stmtsAll_append] at hall
      exact stmtsAll_append.2 ⟨ht.keeps P hP hall.1, hss.keeps P hP hall.2⟩
    · intro htight
      rw [StmtsTight] at htight
      obtain ⟨hfirst, hlast, hrest⟩ := htight
      refine stmtsTight_append (ht.tight ⟨hfirst, fun _ => rfl, trivial⟩) (hss.tight hrest)
        fun hterm => hss.nil.2 (hlast ?_)
      rwa [ht.terminates, stmtsTerminate] at hterm
    · cases ss with
      | nil =>
        rw [hss.nil.2 rfl, List.append_nil]
        exact ht.terminates
      | cons u ss =>
        rw [stmtsTerminate_append fun h => by simpa using hss.nil.1 h, hss.terminates,
          stmtsTerminate]

end

end FunRiscv.Hoisting
