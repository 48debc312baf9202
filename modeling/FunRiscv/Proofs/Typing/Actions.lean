import Mathlib
import FunRiscv.Typing.Program
import FunRiscv.Proofs.Ty.Agreement

/-!
# What checking actions give

* `Checking.Gives`: an action succeeds with a result and leaves a checker.
* `Checking.gives_bind` and others: what the parts of an action give.
* `Checker.find?`: the symbol of a name, as a function of the checker.
-/

namespace FunRiscv

/-- The symbol of a name in some frames: as written, or else under a path. -/
def symbolIn? (frames : List Frame) (path name : String) : Option Symbol :=
  match findIn? frames name with
  | some s => some s
  | none => if path.isEmpty then none else findIn? frames (path ++ name)

/-- The symbol of a name under some local frames. -/
def Checker.find? (c : Checker) (locals : List Frame) (name : String) : Option Symbol :=
  symbolIn? (locals ++ [c.globals]) c.scopePath name

/-- A checker after the type of one more expression was recorded. -/
def Checker.record (c : Checker) (i : Nat) (t : Ty) : Checker :=
  { c with types := (i, t) :: c.types }

namespace Checking

/-! ### Actions -/

/-- An action succeeds with a result and leaves a checker. -/
def Gives {α : Type} (m : Checking α) (c : Checker) (a : α) (c' : Checker) : Prop :=
  (ExceptT.run m).run c = (.ok a, c')

variable {α β : Type} {c c' c'' : Checker}

theorem gives_bind {m : Checking α} {f : α → Checking β} {b : β} :
    Gives (m >>= f) c b c'' ↔ ∃ a c', Gives m c a c' ∧ Gives (f a) c' b c'' := by
  unfold Gives
  rw [ExceptT.run_bind, StateT.run_bind]
  rcases h : (ExceptT.run m).run c with ⟨r, c₁⟩
  cases r with
  | error e =>
    constructor
    · intro h
      cases h
    · rintro ⟨a, c', h, -⟩
      cases h
  | ok a =>
    constructor
    · exact fun hf => ⟨a, c₁, rfl, hf⟩
    · rintro ⟨a', c', h, hf⟩
      cases h
      exact hf

/-- An action whose run is known. -/
theorem gives_iff_of_run {m : Checking α} {a b : α} {d : Checker}
    (h : (ExceptT.run m).run c = (.ok a, d)) : Gives m c b c' ↔ b = a ∧ c' = d := by
  unfold Gives
  rw [h]
  constructor
  · intro h
    cases h
    exact ⟨rfl, rfl⟩
  · rintro ⟨rfl, rfl⟩
    rfl

theorem gives_pure {a b : α} : Gives (pure a) c b c' ↔ b = a ∧ c' = c := gives_iff_of_run rfl

theorem not_gives_throw {e : Traced TypeError} {a : α} : ¬Gives (throw e) c a c' := by
  intro h
  cases h

theorem not_gives_fail {loc : Location} {cause : TypeCause} {a : α} :
    ¬Gives (fail loc cause) c a c' := not_gives_throw

theorem not_gives_failWith {e : TypeError} {a : α} : ¬Gives (failWith e) c a c' := not_gives_throw

theorem gives_get {d : Checker} : Gives get c d c' ↔ d = c ∧ c' = c := gives_iff_of_run rfl

theorem gives_modify {f : Checker → Checker} {u : PUnit} : Gives (modify f) c u c' ↔ c' = f c :=
  (gives_iff_of_run rfl).trans (and_iff_right rfl)

/-- A context changes what a failure says only. -/
theorem run_inContext (label : String) (m : Checking α) (c : Checker) :
    (ExceptT.run (inContext label m)).run c =
      (((ExceptT.run m).run c).1.mapError (Traced.within label), ((ExceptT.run m).run c).2) := by
  show (ExceptT.run (ExceptT.tryCatch m fun e => throw (e.within label))).run c = _
  unfold ExceptT.tryCatch ExceptT.run ExceptT.mk
  rw [StateT.run_bind]
  rcases StateT.run m c with ⟨r, c₁⟩
  cases r <;> rfl

theorem gives_inContext {label : String} {m : Checking α} {a : α} :
    Gives (inContext label m) c a c' ↔ Gives m c a c' := by
  unfold Gives
  rw [run_inContext]
  rcases (ExceptT.run m).run c with ⟨r, c₁⟩
  cases r with
  | ok a => rfl
  | error e =>
    constructor
    · intro h
      cases h
    · intro h
      cases h

/-! ### Single steps -/

theorem gives_applied {t r : Ty} : Gives (applied t) c r c' ↔ r = c.unifier.apply t ∧ c' = c :=
  gives_iff_of_run rfl

theorem gives_fresh {t : Ty} :
    Gives fresh c t c' ↔ t = .var c.unifier.fresh.1 ∧
      c' = { c with unifier := c.unifier.fresh.2 } := gives_iff_of_run rfl

theorem gives_unify {a b : Ty} {r : Except TypeError Unit} :
    Gives (unify a b) c r c' ↔ ∃ u, Unifying.exec (Unifying.unify a b) c.unifier = (r, u) ∧
      c' = { c with unifier := u } := by
  have h : (ExceptT.run (unify a b)).run c = (.ok (Unifying.exec (Unifying.unify a b) c.unifier).1,
      { c with unifier := (Unifying.exec (Unifying.unify a b) c.unifier).2 }) := rfl
  unfold Gives
  rw [h]
  constructor
  · intro h
    cases h
    exact ⟨_, rfl, rfl⟩
  · rintro ⟨u, hu, rfl⟩
    rw [hu]

/-- A checker after two types were unified. -/
def Unified (a b : Ty) (c c' : Checker) : Prop :=
  ∃ u, Unifying.exec (Unifying.unify a b) c.unifier = (.ok (), u) ∧ c' = { c with unifier := u }

theorem gives_unify_ok {a b : Ty} : Gives (unify a b) c (.ok ()) c' ↔ Unified a b c c' :=
  gives_unify

/-- A unification before something that fails where the unification did. -/
theorem gives_unify_bind {a b : Ty} {k : Except TypeError Unit → Checking β} {x : β}
    (hk : ∀ e d y d', ¬Gives (k (.error e)) d y d') :
    Gives (unify a b >>= k) c x c' ↔ ∃ c₁, Unified a b c c₁ ∧ Gives (k (.ok ())) c₁ x c' := by
  rw [gives_bind]
  constructor
  · rintro ⟨r, c₁, hr, h⟩
    cases r with
    | error e => exact (hk _ _ _ _ h).elim
    | ok => exact ⟨c₁, gives_unify_ok.1 hr, h⟩
  · rintro ⟨c₁, hu, h⟩
    exact ⟨.ok (), c₁, gives_unify_ok.2 hu, h⟩

theorem gives_unifyAt {a b : Ty} {loc : Location} {x : Unit} :
    Gives (unifyAt a b loc) c x c' ↔ Unified a b c c' := by
  rw [unifyAt, gives_unify_bind fun _ _ _ _ => not_gives_failWith]
  constructor
  · rintro ⟨c₁, hu, h⟩
    obtain ⟨-, rfl⟩ := gives_pure.1 h
    exact hu
  · exact fun hu => ⟨c', hu, gives_pure.2 ⟨rfl, rfl⟩⟩

theorem gives_record {i : Nat} {t : Ty} {x : Unit} :
    Gives (record i t) c x c' ↔ c' = c.record i t := gives_modify

theorem gives_instantiate {k : Constructor} {t : Ty} : Gives (instantiate k) c t c' ↔
    t = (k.instantiate c.unifier).1 ∧ c' = { c with unifier := (k.instantiate c.unifier).2 } :=
  gives_iff_of_run rfl

theorem gives_find? {locals : List Frame} {name : String} {s : Option Symbol} :
    Gives (find? locals name) c s c' ↔ s = c.find? locals name ∧ c' = c := by
  refine gives_iff_of_run ?_
  unfold Checker.find? symbolIn?
  show (ExceptT.run (match findIn? (locals ++ [c.globals]) name with
    | some s => pure (some s)
    | none => pure (if c.scopePath.isEmpty then none else
      findIn? (locals ++ [c.globals]) (c.scopePath ++ name)) :
      Checking (Option Symbol))).run c = _
  cases findIn? (locals ++ [c.globals]) name <;> rfl

theorem gives_insertGlobal {name : String} {s : Symbol} {x : Unit} :
    Gives (insertGlobal name s) c x c' ↔ c' = { c with globals := c.globals.insert name s } :=
  gives_modify

theorem gives_declareName {name : String} {s : Symbol} {loc : Location} {x : Unit} :
    Gives (declareName name s loc) c x c' ↔ c.globals.find? name = none ∧
      c' = { c with globals := c.globals.insert name s } := by
  rw [declareName, gives_bind]
  constructor
  · rintro ⟨d, c₁, hd, h⟩
    obtain ⟨rfl, rfl⟩ := gives_get.1 hd
    split at h
    · exact absurd h not_gives_fail
    · next hnone => exact ⟨by simpa using hnone, gives_insertGlobal.1 h⟩
  · rintro ⟨hnone, rfl⟩
    refine ⟨c, c, gives_get.2 ⟨rfl, rfl⟩, ?_⟩
    rw [if_neg (by simp [hnone])]
    exact gives_insertGlobal.2 rfl

theorem run_tryFinally {m : Checking α} {f : Checker → Checker} {r : Except (Traced TypeError) α}
    (hr : (ExceptT.run m).run c = (r, c')) :
    (ExceptT.run (tryFinally m (modify f : Checking PUnit))).run c = (r, f c') := by
  have hm : m c = (r, c') := hr
  show (ExceptT.run (tryFinally m (modify f : Checking PUnit))) c = (r, f c')
  simp only [tryFinally, tryFinally', ExceptT.run, ExceptT.mk, Functor.map, ExceptT.map,
    StateT.bind, bind, hm]
  cases r <;> rfl

/-- Running under a scope path changes the path for the action only. -/
theorem gives_underPath {path : String} {m : Checking α} {a : α}
    (h : Gives (underPath path m) c a c') :
    ∃ c₁, Gives m { c with scopePath := path } a c₁ ∧
      c' = { c₁ with scopePath := c.scopePath } := by
  rw [underPath, gives_bind] at h
  obtain ⟨d, c₁, hd, h⟩ := h
  obtain ⟨rfl, rfl⟩ := gives_get.1 hd
  rw [gives_bind] at h
  obtain ⟨x, c₂, hm, h⟩ := h
  obtain rfl := gives_modify.1 hm
  rcases hr : (ExceptT.run m).run { c₁ with scopePath := path } with ⟨r, c₂⟩
  unfold Gives at h ⊢
  rw [run_tryFinally hr] at h
  cases h
  exact ⟨c₂, hr, rfl⟩

end Checking

end FunRiscv
