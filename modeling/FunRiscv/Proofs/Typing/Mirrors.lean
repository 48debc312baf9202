import Mathlib
import FunRiscv.Proofs.Typing.Recording
import FunRiscv.Proofs.Typing.Relocation

/-!
# Actions on top of others

An action goes the same way whether something was done before it or not: types come out the
same, with other names for fresh variables, and numbers are later. The variables may start
with another stem there.

* `Checker.atop`: a checker on top of another one.
* `Mirrors`: an action that runs alike on top of another checker, as long as the limit
  of that one allows.
* `mirrors_fresh`, `mirrors_unifyAt`, `mirrors_inferVar` and others: one for each step that holds
  no further expression.
-/

namespace FunRiscv

open Checking

theorem Ty.over_all_none {K : String → Prop} : ∀ t ∈ (Option.none : Option Ty), t.Over K := by simp

theorem Ty.over_all_some {K : String → Prop} {t : Ty} (h : t.Over K) :
    ∀ u ∈ Option.some t, u.Over K := fun _ hu => Option.some.inj hu ▸ h

/-! ### A checker on top of another -/

/-- A checker on top of another: what it did comes after what the other did, under the names and the
limit of the other, and its expressions are numbered from an offset on. -/
noncomputable def Checker.atop (base : Checker) (source : Unifier) (offset : Nat) (c : Checker) :
    Checker :=
  { base with
    unifier := base.unifier.atop source c.unifier
    types := (c.types.map fun e => (offset + e.1, e.2.bind (base.unifier.lift source))) ++
      base.types }

/-- A checker that knows the same names as another one, and has no limit. -/
structure Checker.Movable (base : Checker) (source : Unifier) (c : Checker) : Prop where
  below : base.unifier.Tidy
  unifier : base.unifier.Movable source c.unifier
  globals : ∀ n, base.globals.find? n = c.globals.find? n
  path : base.scopePath = c.scopePath
  tidy : c.globals.Tidy
  types : ∀ e ∈ c.types, e.2.Over source.Own

/-- A type over own variables, and what it is on top of a checker. -/
def Checker.Moved (base : Checker) (source : Unifier) (t t' : Ty) : Prop :=
  t.Over source.Own ∧ t' = t.bind (base.unifier.lift source)

/-- Types over own variables, and what they are on top of a checker. -/
def Checker.MovedAll (base : Checker) (source : Unifier) (ts ts' : List Ty) : Prop :=
  (∀ t ∈ ts, t.Over source.Own) ∧ ts' = ts.map (Ty.bind (base.unifier.lift source))

/-- An expected type over own variables, if there is one, and what it is on top of a checker. -/
def Checker.MovedHint (base : Checker) (source : Unifier) (t t' : Option Ty) : Prop :=
  (∀ u ∈ t, u.Over source.Own) ∧ t' = t.map (Ty.bind (base.unifier.lift source))

/-- Local frames on top of a checker. -/
noncomputable def Checker.lifted (base : Checker) (source : Unifier) (locals : List Frame) :
    List Frame :=
  locals.map (Frame.bind (base.unifier.lift source))

/-- Local variables over own variables. -/
def Unifier.Owns (source : Unifier) (locals : List Frame) : Prop :=
  AreLocal (·.Over source.Own) locals

/-- Local variables over own variables, and what they are on top of a checker. -/
def Checker.MovedFrames (base : Checker) (source : Unifier) (locals locals' : List Frame) : Prop :=
  source.Owns locals ∧ locals' = base.lifted source locals

section Atop

variable {source : Unifier} {base c : Checker} {offset : Nat} {locals : List Frame}

theorem Checker.Movable.set (hc : base.Movable source c) {u : Unifier}
    (hu : base.unifier.Movable source u) : base.Movable source { c with unifier := u } :=
  ⟨hc.below, hu, hc.globals, hc.path, hc.tidy, hc.types⟩

theorem symbolIn?_congr {G G' : Frame} (h : ∀ n, G.find? n = G'.find? n) (locals : List Frame)
    (path n : String) : symbolIn? (locals ++ [G]) path n = symbolIn? (locals ++ [G']) path n := by
  have hin : ∀ m, findIn? (locals ++ [G]) m = findIn? (locals ++ [G']) m := fun m => by
    simp only [findIn?, List.findSome?_append, List.findSome?_cons, h m]
  simp only [symbolIn?, hin]

theorem Checker.Movable.find?_atop (hc : base.Movable source c) (locals : List Frame) (n : String) :
    (base.atop source offset c).find? (base.lifted source locals) n =
      (c.find? locals n).map (Symbol.bind (base.unifier.lift source)) := by
  have hframes : (locals ++ [c.globals]).map (Frame.bind (base.unifier.lift source)) =
    base.lifted source locals ++ [c.globals] := by
    rw [List.map_append, List.map_singleton, hc.tidy.bind_eq, Checker.lifted]
  rw [Checker.find?, Checker.find?, ← symbolIn?_bind, hframes, ← hc.path]
  exact symbolIn?_congr hc.globals _ _ _

/-- Names outside all frames mean the same on top of a checker. -/
theorem Checker.Movable.find?_nil (hc : base.Movable source c) :
    (base.atop source offset c).find? [] = c.find? [] := by
  funext n
  refine (hc.find?_atop [] n).trans ?_
  cases hs : c.find? [] n with
  | none => rfl
  | some s =>
    obtain ⟨f, hf, m, hm⟩ := mem_of_symbolIn? hs
    obtain rfl : f = c.globals := by simpa using hf
    exact congrArg some (Symbol.Tidy.bind_eq _ (hc.tidy _ hm))

/-- The types in a symbol are over own variables. -/
def Symbol.OwnedBy (u : Unifier) : Symbol → Prop
  | .variable _ t => t.Over u.Own
  | s => s.Tidy

theorem Symbol.Tidy.ownedBy {u : Unifier} : ∀ {s : Symbol}, s.Tidy → s.OwnedBy u
  | .variable _ _, h => Ty.Ground.over h
  | .function .., h | .type _, h | .constructor _, h | .module .., h => h

theorem Symbol.OwnedBy.constructor? {u : Unifier} :
    ∀ {s : Symbol} {k : Constructor}, s.OwnedBy u → s.constructor? = some k → k.Tidy
  | .type _, _, h, hk => Symbol.Tidy.constructor? (s := .type _) h hk
  | .constructor _, _, h, hk => Symbol.Tidy.constructor? (s := .constructor _) h hk
  | .variable .., _, _, hk | .function .., _, _, hk
  | .module .., _, _, hk => by simp [Symbol.constructor?] at hk

theorem Checker.Movable.ownedBy (hc : base.Movable source c) (hlocals : source.Owns locals)
    {n : String} {s : Symbol} (hs : c.find? locals n = some s) : s.OwnedBy source := by
  obtain ⟨f, hf, m, hm⟩ := mem_of_symbolIn? hs
  rcases List.mem_append.1 hf with hf | hf
  · obtain ⟨t, ht, hown⟩ := hlocals f hf _ hm
    dsimp only at ht
    exact ht ▸ hown
  · rw [List.mem_singleton] at hf
    exact (hc.tidy _ (hf ▸ hm)).ownedBy

end Atop

/-! ### Actions -/

/-- An action runs alike on top of a checker, with related results, as long as the limit allows. -/
structure Mirrors {α β : Type} (source : Unifier) (base : Checker) (offset : Nat) (m : Checking α)
    (m' : Checking β) (R : α → β → Prop) : Prop where
  keeps : ∀ ⦃c : Checker⦄ ⦃a : α⦄ ⦃c' : Checker⦄, base.Movable source c → Gives m c a c' →
    base.Movable source c' ∧ c.unifier.steps ≤ c'.unifier.steps ∧ ∃ b, R a b
  forth : ∀ ⦃c : Checker⦄ ⦃a : α⦄ ⦃c' : Checker⦄, base.Movable source c → Gives m c a c' →
    (base.unifier.atop source c'.unifier).WithinLimit →
    ∃ b, R a b ∧ Gives m' (base.atop source offset c) b (base.atop source offset c')
  back : ∀ ⦃c : Checker⦄ ⦃b : β⦄ ⦃d : Checker⦄, base.Movable source c →
    (base.unifier.atop source c.unifier).WithinLimit → Gives m' (base.atop source offset c) b d →
      ∃ a c', Gives m c a c' ∧ R a b ∧ (base.unifier.atop source c'.unifier).WithinLimit ∧
        d = base.atop source offset c'

section Mirrors

variable {α β γ δ : Type} {source : Unifier} {base : Checker} {offset : Nat} {m n : Checking α}
  {m' n' : Checking β} {R : α → β → Prop} {f : α → Checking γ} {f' : β → Checking δ}
  {Q : γ → δ → Prop}

theorem Mirrors.bind (hm : Mirrors source base offset m m' R)
    (hf : ∀ a b, R a b → Mirrors source base offset (f a) (f' b) Q) :
    Mirrors source base offset (m >>= f) (m' >>= f') Q where
  keeps c x c' hc h := by
    obtain ⟨a, c₁, ha, hx⟩ := gives_bind.1 h
    obtain ⟨hc₁, hsteps, b, hab⟩ := hm.keeps hc ha
    obtain ⟨hc', hsteps', hx⟩ := (hf a b hab).keeps hc₁ hx
    exact ⟨hc', hsteps.trans hsteps', hx⟩
  forth c x c' hc h hlimit := by
    obtain ⟨a, c₁, ha, hx⟩ := gives_bind.1 h
    obtain ⟨hc₁, -, b, hab⟩ := hm.keeps hc ha
    have hlimit₁ := hlimit.before ((hf a b hab).keeps hc₁ hx).2.1
    obtain ⟨b, hab, hb⟩ := hm.forth hc ha hlimit₁
    obtain ⟨y, hxy, hy⟩ := (hf a b hab).forth hc₁ hx hlimit
    exact ⟨y, hxy, gives_bind.2 ⟨b, _, hb, hy⟩⟩
  back c y d hc hlimit h := by
    obtain ⟨b, d₁, hb, hy⟩ := gives_bind.1 h
    obtain ⟨a, c₁, ha, hab, hlimit₁, rfl⟩ := hm.back hc hlimit hb
    obtain ⟨x, c', hx, hxy, hlimit', rfl⟩ := (hf a b hab).back (hm.keeps hc ha).1 hlimit₁ hy
    exact ⟨x, c', gives_bind.2 ⟨a, c₁, ha, hx⟩, hxy, hlimit', rfl⟩

theorem Mirrors.congr (hm : Mirrors source base offset m m' R)
    (hn : ∀ c a c', Gives n c a c' ↔ Gives m c a c')
    (hn' : ∀ c b c', Gives n' c b c' ↔ Gives m' c b c') : Mirrors source base offset n n' R where
  keeps c a c' hc h := hm.keeps hc ((hn c a c').1 h)
  forth c a c' hc h hlimit := by
    obtain ⟨b, hab, hb⟩ := hm.forth hc ((hn c a c').1 h) hlimit
    exact ⟨b, hab, (hn' _ _ _).2 hb⟩
  back c b d hc hlimit h := by
    obtain ⟨a, c', ha, hab⟩ := hm.back hc hlimit ((hn' _ _ _).1 h)
    exact ⟨a, c', (hn _ _ _).2 ha, hab⟩

/-- An action that changes nothing. -/
theorem Mirrors.of_computes {r : Checker → Option α} {s : Checker → Option β}
    (hm : ∀ c, Computes m c (r c)) (hm' : ∀ c, Computes m' c (s c))
    (h : ∀ c, base.Movable source c → Option.Rel R (r c) (s (base.atop source offset c))) :
    Mirrors source base offset m m' R where
  keeps c a c' hc ha := by
    obtain ⟨rfl, hr⟩ := (hm c a c').1 ha
    have hrel := h c' hc
    rw [hr] at hrel
    generalize s (base.atop source offset c') = b? at hrel
    cases hrel with
    | some hab => exact ⟨hc, Nat.le_refl _, _, hab⟩
  forth c a c' hc ha _ := by
    obtain ⟨rfl, hr⟩ := (hm c a c').1 ha
    have hrel := h c' hc
    rw [hr] at hrel
    generalize hs : s (base.atop source offset c') = b? at hrel
    cases hrel with
    | some hab => exact ⟨_, hab, (hm' _ _ _).2 ⟨rfl, hs⟩⟩
  back c b d hc hlimit hb := by
    obtain ⟨rfl, hs⟩ := (hm' _ b d).1 hb
    have hrel := h c hc
    rw [hs] at hrel
    generalize hr : r c = a? at hrel
    cases hrel with
    | some hab => exact ⟨_, c, (hm _ _ _).2 ⟨rfl, hr⟩, hab, hlimit, rfl⟩

theorem Mirrors.pure {a : α} {b : β} (h : R a b) : Mirrors source base offset (pure a) (pure b) R :=
  .of_computes (fun _ => computes_pure a) (fun _ => computes_pure b) fun _ _ => .some h

/-- Actions that never succeed. -/
theorem Mirrors.never (hm : ∀ c a c', ¬Gives m c a c') (hm' : ∀ c b c', ¬Gives m' c b c') :
    Mirrors source base offset m m' R :=
  ⟨fun c a c' _ h => (hm c a c' h).elim, fun c a c' _ h => (hm c a c' h).elim,
    fun _ _ _ _ _ h => (hm' _ _ _ h).elim⟩

theorem mirrors_fail {loc loc' : Location} {cause cause' : TypeCause} :
    Mirrors source base offset (fail loc cause) (fail loc' cause') R :=
  .never (fun _ _ _ => not_gives_fail) fun _ _ _ => not_gives_fail

theorem mirrors_failWith {e e' : TypeError} :
    Mirrors source base offset (failWith e) (failWith e') R :=
  .never (fun _ _ _ => not_gives_failWith) fun _ _ _ => not_gives_failWith

theorem mirrors_incompatible {loc loc' : Location} {op op' : Operator} {l l' r r' : Ty} :
    Mirrors source base offset (incompatible loc op l r) (incompatible loc' op' l' r') R :=
  .never (fun _ _ _ => not_gives_incompatible) fun _ _ _ => not_gives_incompatible

/-- An action that moves the unifier only, and always in the same way. -/
theorem Mirrors.of_move {f : Unifier → α × Unifier} {g : Unifier → β × Unifier}
    (hm : ∀ c a c', Gives m c a c' ↔ a = (f c.unifier).1 ∧
      c' = { c with unifier := (f c.unifier).2 })
    (hm' : ∀ c b c', Gives m' c b c' ↔ b = (g c.unifier).1 ∧
      c' = { c with unifier := (g c.unifier).2 })
    (h : ∀ u, base.unifier.Movable source u → base.unifier.Movable source (f u).2 ∧
      (f u).2.steps = u.steps ∧ R (f u).1 (g (base.unifier.atop source u)).1 ∧
      (g (base.unifier.atop source u)).2 = base.unifier.atop source (f u).2) :
    Mirrors source base offset m m' R where
  keeps c a c' hc ha := by
    obtain ⟨rfl, rfl⟩ := (hm c a c').1 ha
    obtain ⟨hmovable, hsteps, hab, -⟩ := h c.unifier hc.unifier
    exact ⟨hc.set hmovable, hsteps.ge, _, hab⟩
  forth c a c' hc ha _ := by
    obtain ⟨rfl, rfl⟩ := (hm c a c').1 ha
    obtain ⟨-, -, hab, hatop⟩ := h c.unifier hc.unifier
    refine ⟨_, hab, (hm' _ _ _).2 ⟨rfl, ?_⟩⟩
    simp only [Checker.atop, hatop]
  back c b d hc hlimit hb := by
    obtain ⟨rfl, rfl⟩ := (hm' _ b d).1 hb
    obtain ⟨-, hsteps, hab, hatop⟩ := h c.unifier hc.unifier
    refine ⟨_, _, (hm _ _ _).2 ⟨rfl, rfl⟩, hab, hlimit.before hsteps.le, ?_⟩
    simp only [Checker.atop, hatop]

/-! ### Steps -/

variable {locals : List Frame} {t : Ty}

theorem mirrors_applied (ht : t.Over source.Own) :
    Mirrors source base offset (applied t) (applied (t.bind (base.unifier.lift source)))
      (base.Moved source) :=
  .of_computes (r := fun c => some (c.unifier.apply t))
    (s := fun c => some (c.unifier.apply (t.bind (base.unifier.lift source))))
    (fun c a c' => by rw [gives_applied, Option.some_inj, and_comm, eq_comm (a := a)])
    (fun c a c' => by rw [gives_applied, Option.some_inj, and_comm, eq_comm (a := a)])
    fun _ hc => .some ⟨hc.unifier.apply ht, Unifier.apply_atop hc.below hc.unifier ht⟩

theorem mirrors_find? (hlocals : source.Owns locals) (n : String) :
    Mirrors source base offset (find? locals n) (find? (base.lifted source locals) n)
    fun s s' => (∀ x ∈ s, x.OwnedBy source) ∧ s' = s.map (Symbol.bind (base.unifier.lift source)) :=
  .of_computes (fun _ => computes_find? _ _) (fun _ => computes_find? _ _) fun _ hc =>
    .some ⟨fun _ hx => hc.ownedBy hlocals hx, hc.find?_atop locals n⟩

theorem mirrors_globals :
    Mirrors source base offset get get fun c d =>
      c.globals.Tidy ∧ ∀ n, d.globals.find? n = c.globals.find? n :=
  .of_computes (r := some) (s := some)
    (fun c a c' => by rw [gives_get, Option.some_inj, and_comm, eq_comm (a := a)])
    (fun c a c' => by rw [gives_get, Option.some_inj, and_comm, eq_comm (a := a)])
    fun c hc => .some ⟨hc.tidy, hc.globals⟩

theorem mirrors_resolve (e : TypeExpr) :
    Mirrors source base offset (resolve [] e) (resolve [] e) fun t t' => t.Ground ∧ t' = t :=
  .of_computes (fun _ => computes_resolve _ _) (fun _ => computes_resolve _ _) fun c hc => by
    rw [hc.find?_nil]
    cases h : e.meaning? (c.find? []) [] with
    | none => exact .none
    | some t => exact .some ⟨(resolve_ground hc.tidy ((computes_resolve [] e t c).2 ⟨rfl, h⟩)).2,
      rfl⟩

theorem mirrors_fresh : Mirrors source base offset fresh fresh (base.Moved source) :=
  .of_move (f := fun u => (.var u.fresh.1, u.fresh.2)) (g := fun u => (.var u.fresh.1, u.fresh.2))
    (fun _ _ _ => gives_fresh) (fun _ _ _ => gives_fresh) fun u hu => by
      rw [Unifier.fresh_atop hu]
      exact ⟨hu.fresh, rfl, ⟨Ty.over_var.2 (Unifier.own_fresh hu), rfl⟩, rfl⟩

theorem freshFor_atop {source base : Unifier} (ps : List String) {u : Unifier}
    (hu : base.Movable source u) :
    base.Movable source (freshFor ps u).2 ∧ (freshFor ps u).2.steps = u.steps ∧
      (freshFor ps u).1.length = ps.length ∧ (∀ t ∈ (freshFor ps u).1, t.Over source.Own) ∧
      freshFor ps (base.atop source u) = ((freshFor ps u).1.map (Ty.bind (base.lift source)),
        base.atop source (freshFor ps u).2) := by
  induction ps generalizing u with
  | nil => exact ⟨hu, rfl, rfl, by simp [freshFor], rfl⟩
  | cons p ps ih =>
    obtain ⟨hmovable, hsteps, hlen, hown, hatop⟩ := ih hu.fresh
    refine ⟨hmovable, hsteps, by simp [freshFor, hlen], ?_, ?_⟩
    · exact List.forall_mem_cons.2 ⟨Ty.over_var.2 (Unifier.own_fresh hu), hown⟩
    · simp only [freshFor, Unifier.fresh_atop hu, hatop]
      rfl

theorem mirrors_instantiate {k : Constructor} (hk : k.Tidy) :
    Mirrors source base offset (instantiate k) (instantiate k) (base.Moved source) :=
  .of_move (f := k.instantiate) (g := k.instantiate) (fun _ _ _ => gives_instantiate)
    (fun _ _ _ => gives_instantiate) fun u hu => by
    obtain ⟨hmovable, hsteps, hlen, hown, hatop⟩ := freshFor_atop k.params hu
    refine ⟨hmovable, hsteps, ⟨hk.replace hlen hown, ?_⟩, ?_⟩
    · simp only [Constructor.instantiate, hatop]
      exact (hk.bind_replace hlen _).symm
    · simp only [Constructor.instantiate, hatop]

theorem mirrors_unifyAt {a b : Ty} (ha : a.Over source.Own) (hb : b.Over source.Own)
    (loc : Location) :
    Mirrors source base offset (unifyAt a b loc) (unifyAt (a.bind (base.unifier.lift source))
      (b.bind (base.unifier.lift source)) loc) fun _ _ => True where
  keeps c x c' hc h := by
    obtain ⟨u, hu, rfl⟩ := gives_unifyAt.1 h
    have hmovable :=
      Unifying.movable_unifyWithin (a.size + b.size + c.unifier.subst.size + 1) hc.unifier ha hb
    have hmoves := Unifying.moves_unify a b c.unifier
    rw [hu] at hmoves
    rw [show Unifying.exec (Unifying.unifyWithin _ a b) c.unifier = (.ok (), u) from hu] at hmovable
    exact ⟨hc.set hmovable, hmoves.steps, x, trivial⟩
  forth c x c' hc h hlimit := by
    obtain ⟨u, hu, rfl⟩ := gives_unifyAt.1 h
    have hparallel := Unifying.parallel_unify hc.below hc.unifier ha hb
    rw [hu] at hparallel
    exact ⟨x, trivial, gives_unifyAt.2 ⟨_, hparallel.forth rfl hlimit, rfl⟩⟩
  back c x d hc _ h := by
    obtain ⟨u, hu, rfl⟩ := gives_unifyAt.1 h
    have hparallel := Unifying.parallel_unify hc.below hc.unifier ha hb
    rcases hr : Unifying.exec (Unifying.unify a b) c.unifier with ⟨r, u'⟩
    rw [hr] at hparallel
    obtain ⟨rfl, hlimit⟩ := hparallel.back (congrArg Prod.fst hu)
    have hsame := hparallel.forth rfl hlimit
    rw [show Unifying.exec _ (base.unifier.atop source c.unifier) = (.ok (), u) from hu] at hsame
    refine ⟨x, _, gives_unifyAt.2 ⟨u', hr, rfl⟩, trivial, hlimit, ?_⟩
    simp only [Checker.atop, (Prod.mk.inj hsame).2]

/-- Where only the success of a unification matters. -/
theorem gives_unify_bind_unifyAt {a b : Ty} {g : Except TypeError Unit → Checking γ}
    (hg : ∀ e c x c', ¬Gives (g (.error e)) c x c') (loc : Location) {c c' : Checker} {x : γ} :
    Gives (unify a b >>= g) c x c' ↔ Gives (unifyAt a b loc >>= fun _ => g (.ok ())) c x c' := by
  rw [gives_unify_bind hg, gives_bind]
  constructor
  · rintro ⟨c₁, hu, h⟩
    exact ⟨(), c₁, gives_unifyAt.2 hu, h⟩
  · rintro ⟨_, c₁, hu, h⟩
    exact ⟨c₁, gives_unifyAt.1 hu, h⟩

theorem Mirrors.unify {a b : Ty} (ha : a.Over source.Own) (hb : b.Over source.Own)
    {g : Except TypeError Unit → Checking γ} {g' : Except TypeError Unit → Checking δ}
    (hg : ∀ e c x c', ¬Gives (g (.error e)) c x c')
    (hg' : ∀ e c x c', ¬Gives (g' (.error e)) c x c')
    (h : Mirrors source base offset (g (.ok ())) (g' (.ok ())) Q) :
    Mirrors source base offset (unify a b >>= g)
      (unify (a.bind (base.unifier.lift source)) (b.bind (base.unifier.lift source)) >>= g') Q :=
  ((mirrors_unifyAt ha hb {}).bind fun _ _ _ => h).congr
    (fun _ _ _ => gives_unify_bind_unifyAt hg {}) fun _ _ _ => gives_unify_bind_unifyAt hg' {}

theorem mirrors_record {i k : Nat} (hk : k = offset + i) (ht : t.Over source.Own) :
    Mirrors source base offset (record i t) (record k (t.bind (base.unifier.lift source)))
      fun _ _ => True where
  keeps c x c' hc h := by
    obtain rfl := gives_record.1 h
    exact ⟨⟨hc.below, hc.unifier, hc.globals, hc.path, hc.tidy,
      List.forall_mem_cons.2 ⟨ht, hc.types⟩⟩, Nat.le_refl _, x, trivial⟩
  forth c x c' hc h _ := by
    obtain rfl := gives_record.1 h
    exact ⟨x, trivial, gives_record.2 (by rw [hk]; rfl)⟩
  back c x d hc hlimit h := by
    obtain rfl := gives_record.1 h
    exact ⟨x, _, gives_record.2 rfl, trivial, hlimit, by rw [hk]; rfl⟩

/-- A type that is recorded last. -/
theorem mirrors_recorded {i k : Nat} (hk : k = offset + i) (ht : t.Over source.Own) :
    Mirrors source base offset (do
      record i t
      return t) (do
      record k (t.bind (base.unifier.lift source))
      return t.bind (base.unifier.lift source)) (base.Moved source) :=
  (mirrors_record hk ht).bind fun _ _ _ => .pure ⟨ht, rfl⟩

theorem mirrors_inferVar (hlocals : source.Owns locals) (loc : Location) (n : String) :
    Mirrors source base offset (inferVar locals loc n) (inferVar (base.lifted source locals) loc n)
      (base.Moved source) := by
  rw [inferVar, inferVar]
  refine (mirrors_find? hlocals n).bind ?_
  rintro s _ ⟨hs, rfl⟩
  rcases s with _ | s
  · refine .never (fun c t c' h => ?_) fun c t c' h => ?_ <;> dsimp only [Option.map_none] at h <;>
      split at h <;>
      obtain ⟨o, c₂, -, h⟩ := gives_bind.1 h <;> split at h <;> exact (not_gives_fail h).elim
  · have hs := hs s rfl
    cases s with
    | «variable» m t => exact .pure ⟨hs, rfl⟩
    | function m t d => exact .pure ⟨Ty.Ground.over hs, (Ty.Ground.bind_eq hs _).symm⟩
    | type t =>
      dsimp only [Option.map_some, Symbol.bind]
      cases hk : (Symbol.type t).constructor? with
      | none => exact mirrors_fail
      | some k => exact mirrors_instantiate (hs.constructor? hk)
    | constructor k => exact mirrors_instantiate hs
    | module m ms => exact mirrors_fail

theorem isVar_bind_lift (base source : Unifier) (t : Ty) :
    (t.bind (base.lift source)).isVar = t.isVar := by
  cases t <;> rfl

theorem numeric_bind_lift (base source : Unifier) (t : Ty) :
    (t.bind (base.lift source)).numeric = t.numeric := by
  cases t <;> rfl

theorem integral_bind_lift (base source : Unifier) (t : Ty) :
    (t.bind (base.lift source)).integral = t.integral := by
  cases t <;> rfl

theorem mirrors_sameOperands {l r : Ty} (hl : l.Over source.Own) (hr : r.Over source.Own)
    {test : Ty → Bool} (htest : ∀ t, test (t.bind (base.unifier.lift source)) = test t)
    (loc : Location) (op : Operator) : Mirrors source base offset (sameOperands loc op l r test)
      (sameOperands loc op (l.bind (base.unifier.lift source)) (r.bind (base.unifier.lift source))
        test) (base.Moved source) := by
  rw [sameOperands, sameOperands]
  refine .unify hl hr (fun _ _ _ _ => not_gives_incompatible)
    (fun _ _ _ _ => not_gives_incompatible) ?_
  have hlast : ∀ t t', base.Moved source t t' → Mirrors source base offset
      (if t.isVar || test t then Pure.pure t else incompatible loc op l r)
      (if t'.isVar || test t' then Pure.pure t' else
        incompatible loc op (l.bind (base.unifier.lift source)) (r.bind (base.unifier.lift source)))
      (base.Moved source) := by
    rintro t _ ⟨ht, rfl⟩
    rw [isVar_bind_lift, htest]
    split
    · exact .pure ⟨ht, rfl⟩
    · exact mirrors_incompatible
  refine (mirrors_applied hl).bind ?_
  rintro a _ ⟨ha, rfl⟩
  cases a with
  | any => exact (mirrors_applied hr).bind hlast
  | word | none | var | named | func | tuple => exact (Mirrors.pure ⟨ha, rfl⟩).bind hlast

theorem mirrors_operationType {l r : Ty} (hl : l.Over source.Own) (hr : r.Over source.Own)
    (loc : Location) (op : Operator) : Mirrors source base offset (operationType loc op l r)
      (operationType loc op (l.bind (base.unifier.lift source)) (r.bind (base.unifier.lift source)))
      (base.Moved source) := by
  have hf24 : Ty.Over source.Own .f24 := Ty.over_word _
  rw [operationType, operationType]
  cases op.kind with
  | arithmetic => exact mirrors_sameOperands hl hr (numeric_bind_lift _ _) loc op
  | bitwise => exact mirrors_sameOperands hl hr (integral_bind_lift _ _) loc op
  | comparison =>
    exact .unify hl hr (fun _ _ _ _ => not_gives_incompatible)
      (fun _ _ _ _ => not_gives_incompatible) (.pure ⟨Ty.over_word _, rfl⟩)
  | shift =>
    refine (mirrors_applied hl).bind ?_
    rintro a _ ⟨ha, rfl⟩
    refine (mirrors_applied hr).bind ?_
    rintro b _ ⟨hb, rfl⟩
    simp only [isVar_bind_lift, integral_bind_lift]
    split
    · exact .pure ⟨hl, rfl⟩
    · exact mirrors_incompatible
  | power =>
    refine Mirrors.unify hf24 hl (fun _ _ _ _ => not_gives_incompatible)
      (fun _ _ _ _ => not_gives_incompatible) ?_
    exact Mirrors.unify hf24 hr (fun _ _ _ _ => not_gives_incompatible)
      (fun _ _ _ _ => not_gives_incompatible) (.pure ⟨hf24, rfl⟩)

theorem mirrors_conditionType (ht : t.Over source.Own) (loc : Location) :
    Mirrors source base offset (conditionType loc t)
      (conditionType loc (t.bind (base.unifier.lift source))) fun _ _ => True := by
  rw [conditionType, conditionType]
  refine (mirrors_applied ht).bind ?_
  rintro u _ ⟨hu, rfl⟩
  have hu24 : u.bind (base.unifier.lift source) = .u24 ↔ u = .u24 :=
    Ty.bind_lift_inj hu (Ty.over_word _)
  have hbool : u.bind (base.unifier.lift source) = .bool ↔ u = .bool :=
    Ty.bind_lift_inj (b := .bool) hu (Ty.over_named.2 (by simp))
  have hlast : Mirrors source base offset (if u = .u24 || u = .bool then Pure.pure () else
    fail loc (.mismatch .u24 u))
      (if u.bind (base.unifier.lift source) = .u24 || u.bind (base.unifier.lift source) = .bool then
        Pure.pure ()
        else fail loc (.mismatch .u24 (u.bind (base.unifier.lift source)))) fun _ _ => True := by
    simp only [hu24, hbool]
    split
    · exact .pure trivial
    · exact mirrors_fail
  cases u with
  | any => exact .pure trivial
  | var v => exact mirrors_unifyAt (Ty.over_word _) hu loc
  | word | none | named | func | tuple => exact hlast

theorem mirrors_fieldType (ht : t.Over source.Own) (loc : Location) (field : String) :
    Mirrors source base offset (fieldType loc t field)
      (fieldType loc (t.bind (base.unifier.lift source)) field) (base.Moved source) := by
  rw [fieldType, fieldType]
  refine (mirrors_applied ht).bind ?_
  rintro u _ ⟨hu, rfl⟩
  cases u with
  | any => exact .pure ⟨hu, rfl⟩
  | tuple ts =>
    rw [Ty.over_tuple] at hu
    simp only [Ty.bind, Ty.bindList_eq_map]
    cases Number.readInt field with
    | error e => exact mirrors_fail
    | ok i =>
      by_cases hi : i < 0
      · simp only [if_pos hi]
        exact mirrors_fail
      · simp only [if_neg hi, List.getElem?_map]
        cases hget : ts[i.toNat]? with
        | none => exact mirrors_fail
        | some t => exact .pure ⟨hu t (List.mem_of_getElem? hget), rfl⟩
  | named n args =>
    rw [Ty.over_named] at hu
    simp only [Ty.bind, Ty.bindList_eq_map]
    refine mirrors_globals.bind ?_
    rintro c d ⟨htidy, hglobals⟩
    rw [hglobals]
    cases hs : c.globals.find? n with
    | none => exact mirrors_fail
    | some s =>
      cases s with
      | type s =>
        dsimp only
        rw [List.length_map]
        split
        · exact mirrors_fail
        · next hcond =>
          simp only [Bool.or_eq_true, decide_eq_true_eq, not_or, not_not, Bool.not_eq_true,
            Option.isNone_eq_false_iff] at hcond
          cases hf : s.fields.lookup field with
          | none => exact mirrors_fail
          | some f =>
            have hover : f.Over (· ∈ s.params) := by
              have hsymbol : (Symbol.type s).Tidy := htidy _ (Frame.mem_of_find? hs)
              exact hsymbol.2.1 _ (Subst.mem_of_lookup hf)
            exact .pure ⟨hover.replace hcond.2.symm hu, (hover.bind_replace hcond.2.symm _).symm⟩
      | «variable» | function | constructor | module => exact mirrors_fail
  | word | none | var | func => exact mirrors_fail

/-! ### Lambdas and callees -/

theorem mirrors_mapM_applied {t? : Option Ty} (ht : ∀ t ∈ t?, t.Over source.Own) :
    Mirrors source base offset (t?.mapM applied) ((t?.map (Ty.bind (base.unifier.lift source))).mapM
      applied) (base.MovedHint source) := by
  cases t? with
  | none => exact .pure ⟨ht, rfl⟩
  | some t =>
    have hsome : Mirrors source base offset (applied t >>= fun u => Pure.pure (some u))
        (applied (t.bind (base.unifier.lift source)) >>= fun u => Pure.pure (some u))
        (base.MovedHint source) := by
      refine (mirrors_applied (ht t rfl)).bind ?_
      rintro u _ ⟨hu, rfl⟩
      exact .pure ⟨Ty.over_all_some hu, rfl⟩
    exact hsome.congr (fun _ _ _ => Iff.rfl) fun _ _ _ => Iff.rfl

theorem mirrors_lambdaHint {expected : Option Ty} (he : ∀ t ∈ expected, t.Over source.Own) :
    Mirrors source base offset (lambdaHint expected)
      (lambdaHint (expected.map (Ty.bind (base.unifier.lift source)))) (base.MovedHint source) := by
  have hnone : base.MovedHint source none none := ⟨Ty.over_all_none, rfl⟩
  rw [lambdaHint, lambdaHint]
  refine (mirrors_mapM_applied he).bind ?_
  rintro u _ ⟨hu, rfl⟩
  cases u with
  | none => exact .pure hnone
  | some u =>
    cases u with
    | func q r => exact .pure ⟨hu, rfl⟩
    | word | any | none | var | named | tuple => exact .pure hnone

theorem mirrors_lambdaParams {hint : Option Ty} {ps : List Param}
    (hh : ∀ t ∈ hint, t.Over source.Own) :
    Mirrors source base offset (lambdaParams hint ps)
      (lambdaParams (hint.map (Ty.bind (base.unifier.lift source))) ps) (base.MovedAll source) := by
  induction ps generalizing hint with
  | nil => exact .pure ⟨by simp, rfl⟩
  | cons p ps ih =>
    have hrest : ∀ {t : Ty} {hint : Option Ty}, t.Over source.Own →
        (∀ t ∈ hint, t.Over source.Own) → Mirrors source base offset (do
          let ts ← lambdaParams hint ps
          return t :: ts) (do
          let ts ← lambdaParams (hint.map (Ty.bind (base.unifier.lift source))) ps
          return t.bind (base.unifier.lift source) :: ts) (base.MovedAll source) := by
      intro t hint ht hh
      refine (ih hh).bind ?_
      rintro ts _ ⟨hts, rfl⟩
      exact .pure ⟨List.forall_mem_cons.2 ⟨ht, hts⟩, rfl⟩
    rw [lambdaParams, lambdaParams]
    cases p.type with
    | some e =>
      simp only [pure_bind]
      refine (mirrors_resolve e).bind ?_
      rintro t _ ⟨ht, rfl⟩
      have htail := hrest (Ty.Ground.over ht) hh
      rwa [Ty.Ground.bind_eq ht] at htail
    | none =>
      have hfresh : Mirrors source base offset (do
          let t ← fresh
          let ts ← lambdaParams none ps
          return t :: ts) (do
          let t ← fresh
          let ts ← lambdaParams none ps
          return t :: ts) (base.MovedAll source) := by
        refine mirrors_fresh.bind ?_
        rintro t _ ⟨ht, rfl⟩
        exact hrest ht Ty.over_all_none
      simp only [pure_bind]
      refine (mirrors_mapM_applied hh).bind ?_
      rintro u _ ⟨hu, rfl⟩
      cases u with
      | none => exact hfresh
      | some u =>
        cases u with
        | func q r =>
          have hqr := Ty.over_func.1 (hu _ rfl)
          exact hrest hqr.1 (Ty.over_all_some hqr.2)
        | word | any | none | var | named | tuple => exact hfresh

theorem mirrors_calledFields (hlocals : source.Owns locals) (f : Expr) :
    Mirrors source base offset (calledFields locals f) (calledFields (base.lifted source locals) f)
      Eq := by
  rw [calledFields.eq_def, calledFields.eq_def]
  split
  · next n =>
    refine (mirrors_find? hlocals n).bind ?_
    rintro s _ ⟨-, rfl⟩
    cases s with
    | none => exact .pure rfl
    | some s =>
      dsimp only [Option.map_some]
      rw [Symbol.constructor?_bind]
      exact .pure rfl
  · exact .pure rfl

theorem mirrors_assignLocal (hlocals : source.Owns locals) (n : String) (ht : t.Over source.Own)
    (loc : Location) :
    Mirrors source base offset (assignLocal locals n t loc) (assignLocal (base.lifted source locals)
      n (t.bind (base.unifier.lift source)) loc) (base.MovedFrames source) := by
  rw [assignLocal, assignLocal, Checker.lifted, findIn?_bind]
  cases hs : findIn? locals n with
  | none => exact .pure ⟨hlocals.bindLocal ht, (bindLocal_bind _ _ _ _).symm⟩
  | some s =>
    cases s with
    | «variable» m old =>
      obtain ⟨f, hf, hm⟩ := mem_of_findIn? hs
      obtain ⟨u, hu, hown⟩ := hlocals f hf _ hm
      obtain rfl : old = u := (Symbol.variable.inj hu).2
      exact (mirrors_unifyAt hown ht loc).bind fun _ _ _ => .pure ⟨hlocals, rfl⟩
    | function | type | constructor | module =>
      exact .pure ⟨hlocals.bindLocal ht, (bindLocal_bind _ _ _ _).symm⟩

end Mirrors

end FunRiscv
