import Mathlib
import FunRiscv.Proofs.Typing.FunctionOrder
import FunRiscv.Proofs.Typing.Lookups

/-!
# The order of type definitions

The second round of declaration takes one definition after the other, and looks up the names in it
as the table stands by then. A type or an object looks the same from outside before and after its
turn; an alias and the constructors of a type do not: before its turn an alias is taken for a type
of its own. So the order of definitions does not matter as long as each of them comes before the
aliases and constructors that it mentions in both orders, or after them in both.

* `Symbol.face`, `TypeExpr.meaning?_congr`: what written types see of symbols.
* `Definition.members?_congr`: what a definition enters depends on what it mentions.
* `SameTurns`: what a definition mentions that looks different once it was entered comes before it
  in both orders or in neither.
* `membersOf?_perm`: definitions enter the same in all orders in which those that await
  others keep their turns.
* `check_types_perm`: types, objects, aliases and modules may come in all these orders.
-/

namespace FunRiscv

open Checking

/-! ### What written types see -/

/-- What written types see of a symbol: a type with its name, its parameters and its target,
or something else. -/
def Symbol.face : Symbol → Option (String × List String × Option Ty)
  | .type t => some (t.name, t.params, t.target?)
  | _ => none

/-- Names stand for symbols that look the same. -/
def SameFaces (find find' : String → Option Symbol) (names : List String) : Prop :=
  ∀ n ∈ names, (find n).map Symbol.face = (find' n).map Symbol.face

mutual

/-- The names that are looked up for a written type under some type parameters. -/
def TypeExpr.lookups (params : List String) : TypeExpr → List String
  | .name _ n args =>
    if args.isEmpty && params.contains n then [] else n :: typesLookups params args
  | .func _ p r => p.lookups params ++ r.lookups params
  | .tuple _ elems => typesLookups params elems
  | .missing => []

/-- The names that are looked up for written types. -/
def typesLookups (params : List String) : List TypeExpr → List String
  | [] => []
  | t :: ts => t.lookups params ++ typesLookups params ts

end

section Faces

variable {find find' : String → Option Symbol} {names ps : List String}

theorem SameFaces.mono {ms ns : List String} (h : SameFaces find find' ns) (hsub : ms ⊆ ns) :
    SameFaces find find' ms :=
  fun n hn => h n (hsub hn)

/-- The type that a name means, from the face of its symbol. -/
theorem typeNamed?_congr {s s' : Option Symbol} (h : s.map Symbol.face = s'.map Symbol.face)
    (args : List Ty) : typeNamed? s args = typeNamed? s' args := by
  -- Both symbols are types with the same face, or neither is a type.
  have hface : ∀ s : Option Symbol, typeNamed? s args = (s.bind Symbol.face).bind fun f =>
      if args.length ≠ f.2.1.length then none
      else some (f.2.2.elim (.named f.1 args) (·.replace (Ty.parameterMap f.2.1 args))) := by
    intro s
    rcases s with _ | ⟨_⟩ | ⟨_⟩ | t | ⟨_⟩ | ⟨_⟩
    case some.type =>
      rw [typeNamed?, Option.bind_some, Symbol.face, Option.bind_some]
      split
      · rfl
      · cases t.target? <;> rfl
    all_goals rfl
  have hbind : ∀ s : Option Symbol, s.bind Symbol.face = (s.map Symbol.face).bind id :=
    fun s => by cases s <;> rfl
  rw [hface, hface, hbind, hbind, h]

mutual

/-- A written type means the same where the names that are looked up for it have the same faces. -/
theorem TypeExpr.meaning?_congr :
    ∀ e : TypeExpr, SameFaces find find' (e.lookups ps) → e.meaning? find ps = e.meaning? find' ps
  | .name _ n args, h => by
    rw [TypeExpr.lookups] at h
    rw [TypeExpr.meaning?, TypeExpr.meaning?]
    split
    · rfl
    · next hlooked =>
      rw [if_neg hlooked] at h
      rw [TypeExpr.meanings?_congr args (h.mono (List.subset_cons_self _ _))]
      exact congrArg _ (funext fun ts => typeNamed?_congr (h n List.mem_cons_self) ts)
  | .func _ p r, h => by
    rw [TypeExpr.lookups] at h
    rw [TypeExpr.meaning?, TypeExpr.meaning?,
      p.meaning?_congr (h.mono (List.subset_append_left _ _)),
      r.meaning?_congr (h.mono (List.subset_append_right _ _))]
  | .tuple _ elems, h => by
    rw [TypeExpr.lookups] at h
    rw [TypeExpr.meaning?, TypeExpr.meaning?, TypeExpr.meanings?_congr elems h]
  | .missing, _ => by rw [TypeExpr.meaning?, TypeExpr.meaning?]

theorem TypeExpr.meanings?_congr : ∀ es : List TypeExpr, SameFaces find find' (typesLookups ps es) →
    TypeExpr.meanings? find ps es = TypeExpr.meanings? find' ps es
  | [], _ => by rw [TypeExpr.meanings?, TypeExpr.meanings?]
  | e :: es, h => by
    rw [typesLookups] at h
    rw [TypeExpr.meanings?, TypeExpr.meanings?,
      e.meaning?_congr (h.mono (List.subset_append_left _ _)),
      TypeExpr.meanings?_congr es (h.mono (List.subset_append_right _ _))]

end

theorem fieldMeanings?_congr {fields : List Field}
    (h : SameFaces find find' (fields.flatMap fun f => f.type.lookups ps)) :
    fieldMeanings? find ps fields = fieldMeanings? find' ps fields := by
  induction fields with
  | nil => rfl
  | cons f fields ih =>
    rw [List.flatMap_cons] at h
    have hrest := ih (h.mono (List.subset_append_right _ _))
    rw [fieldMeanings?] at hrest
    rw [fieldMeanings?, fieldMeanings?, List.mapM_cons, List.mapM_cons,
      f.type.meaning?_congr (h.mono (List.subset_append_left _ _)), hrest]
    rfl

end Faces

/-! ### What a definition mentions and enters -/

namespace Definition

/-- The names that are looked up for a definition. -/
def mentions : Definition → List String
  | .type d => d.variants.flatMap fun v => v.fields.flatMap fun f => f.type.lookups d.typeParams
  | .object d => d.fields.flatMap fun f => f.type.lookups d.typeParams
  | .alias d => d.type.lookups d.typeParams
  | .func _ | .module .. => []

/-- The constructors that a type has. -/
def constructors (path : String) : Definition → List String
  | .type d => d.variants.map fun v => path ++ d.name ++ "/" ++ v.name
  | _ => []

/-- What a definition that is no module introduces in the first round. -/
def heading (path : String) : Definition → List (String × Symbol)
  | .module .. => []
  | d => d.introduced path

/-- The names that a definition enters in the second round. -/
def entered (path : String) (d : Definition) : List String :=
  (d.heading path).map (·.1) ++ d.constructors path

/-- The names that look different once a definition was entered: an alias, and the
constructors of a type. -/
def unsettled (path : String) : Definition → List String
  | .alias d => [path ++ d.name]
  | d => d.constructors path

end Definition

/-- The names that definitions enter in the second round. -/
def enteredOf (ls : List (String × Definition)) : List String := ls.flatMap fun l => l.2.entered l.1

/-- Two tables agree on what a definition enters, and what it mentions looks the same in both. -/
structure Frame.AgreeFor (path : String) (own looked : List String) (K K' : Frame) : Prop where
  own : ∀ n ∈ own, K.find? n = K'.find? n
  faces : ∀ n ∈ looked, (K.find? n).map Symbol.face = (K'.find? n).map Symbol.face ∧
    (K.find? (path ++ n)).map Symbol.face = (K'.find? (path ++ n)).map Symbol.face

section Members

variable {path : String} {own looked : List String} {K K' K₁ : Frame}

theorem Frame.AgreeFor.insert (h : K.AgreeFor path own looked K') (m : String) (s : Symbol) :
    (K.insert m s).AgreeFor path own looked (K'.insert m s) := by
  have hfind : ∀ {α : Type} (f : Option Symbol → α) (n : String), f (K.find? n) = f (K'.find? n) →
      f ((K.insert m s).find? n) = f ((K'.insert m s).find? n) := by
    intro α f n hn
    by_cases hm : n = m
    · rw [hm, Frame.find?_insert_self, Frame.find?_insert_self]
    · rwa [Frame.find?_insert_of_ne hm, Frame.find?_insert_of_ne hm]
  exact ⟨fun n hn => hfind id n (h.own n hn),
    fun n hn => ⟨hfind _ n (h.faces n hn).1, hfind _ _ (h.faces n hn).2⟩⟩

theorem Frame.AgreeFor.sameFaces (h : K.AgreeFor path own looked K') :
    SameFaces (K.under path) (K'.under path) looked := by
  intro n hn
  obtain ⟨hwritten, hqualified⟩ := h.faces n hn
  rw [Frame.under_eq, Frame.under_eq]
  cases hK : K.find? n with
  | some s =>
    cases hK' : K'.find? n with
    | some s' => rwa [hK, hK'] at hwritten
    | none => rw [hK, hK'] at hwritten; cases hwritten
  | none =>
    cases hK' : K'.find? n with
    | some s' => rw [hK, hK'] at hwritten; cases hwritten
    | none =>
      dsimp only
      split
      · rfl
      · exact hqualified

theorem variants_congr {name : String} {ps : List String} {vs : List Variant}
    (h : K.AgreeFor path own looked K') (hown : ∀ v ∈ vs, name ++ "/" ++ v.name ∈ own)
    (hlooked : (vs.flatMap fun v => v.fields.flatMap fun f => f.type.lookups ps) ⊆ looked)
    (hK₁ : vs.foldlM (declareVariant? path name ps) K = some K₁) :
    ∃ K₁', vs.foldlM (declareVariant? path name ps) K' = some K₁' ∧
      K₁.AgreeFor path own looked K₁' := by
  induction vs generalizing K K' with
  | nil => exact ⟨K', rfl, Option.some.inj hK₁ ▸ h⟩
  | cons v vs ih =>
    rw [List.forall_mem_cons] at hown
    rw [List.flatMap_cons, List.append_subset] at hlooked
    obtain ⟨K₂, hK₂, hK₁⟩ := Option.bind_eq_some_iff.1 hK₁
    obtain ⟨fields, hfields, hK₂⟩ := Option.bind_eq_some_iff.1 hK₂
    obtain ⟨hnew, rfl⟩ := Frame.declare?_eq_some.1 hK₂
    obtain ⟨K₁', hK₁', hagree⟩ := ih (h.insert _ _) hown.2 hlooked.2 hK₁
    rw [fieldMeanings?_congr (h.sameFaces.mono hlooked.1)] at hfields
    exact ⟨K₁', Option.bind_eq_some_iff.2 ⟨_, Option.bind_eq_some_iff.2 ⟨fields, hfields,
      Frame.declare?_eq_some.2 ⟨h.own _ hown.1 ▸ hnew, rfl⟩⟩, hK₁'⟩, hagree⟩

/-- What a definition enters depends on what it mentions only. -/
theorem Definition.members?_congr {d : Definition}
    (h : K.AgreeFor path (d.entered path) d.mentions K') (hK₁ : d.members? path K = some K₁) :
    ∃ K₁', d.members? path K' = some K₁' ∧ ∀ n ∈ d.entered path, K₁.find? n = K₁'.find? n := by
  cases d with
  | func | module => exact ⟨K', rfl, Option.some.inj hK₁ ▸ h.own⟩
  | type d =>
    obtain ⟨K₂, hK₂, rfl⟩ := Option.map_eq_some_iff.1 hK₁
    obtain ⟨K₂', hK₂', hagree⟩ := variants_congr h
      (fun v hv =>
        List.mem_append_right _
          (List.mem_map_of_mem (f := fun v : Variant => path ++ d.name ++ "/" ++ v.name) hv))
      (fun _ hn => hn) hK₂
    exact ⟨_, Option.map_eq_some_iff.2 ⟨K₂', hK₂', rfl⟩, (hagree.insert _ _).own⟩
  | object d =>
    obtain ⟨fields, hfields, rfl⟩ := Option.map_eq_some_iff.1 hK₁
    rw [fieldMeanings?_congr h.sameFaces] at hfields
    exact ⟨_, Option.map_eq_some_iff.2 ⟨fields, hfields, rfl⟩, (h.insert _ _).own⟩
  | «alias» d =>
    obtain ⟨t, ht, rfl⟩ := Option.map_eq_some_iff.1 hK₁
    rw [d.type.meaning?_congr h.sameFaces] at ht
    exact ⟨_, Option.map_eq_some_iff.2 ⟨t, ht, rfl⟩, (h.insert _ _).own⟩

/-! ### Nothing else is entered -/

theorem variants_enter {name : String} {ps : List String} {vs : List Variant}
    (hK₁ : vs.foldlM (declareVariant? path name ps) K = some K₁) :
    (vs.map fun v => name ++ "/" ++ v.name).Nodup ∧
      (∀ v ∈ vs, K.find? (name ++ "/" ++ v.name) = none) ∧
      (∀ v ∈ vs, (K₁.find? (name ++ "/" ++ v.name)).isSome = true) ∧
      ∀ n, n ∉ (vs.map fun v => name ++ "/" ++ v.name) → K₁.find? n = K.find? n := by
  induction vs generalizing K with
  | nil => exact ⟨.nil, by simp, by simp, fun n _ => Option.some.inj hK₁ ▸ rfl⟩
  | cons v vs ih =>
    obtain ⟨K₂, hK₂, hK₁⟩ := Option.bind_eq_some_iff.1 hK₁
    obtain ⟨fields, -, hK₂⟩ := Option.bind_eq_some_iff.1 hK₂
    obtain ⟨hnew, rfl⟩ := Frame.declare?_eq_some.1 hK₂
    obtain ⟨hnodup, hnone, hsome, hrest⟩ := ih hK₁
    have hne : ∀ w ∈ vs, name ++ "/" ++ w.name ≠ name ++ "/" ++ v.name := fun w hw heq => by
      have h := hnone w hw
      rw [heq, Frame.find?_insert_self] at h
      cases h
    have hv : name ++ "/" ++ v.name ∉ vs.map fun v => name ++ "/" ++ v.name := fun hmem => by
      obtain ⟨w, hw, heq⟩ := List.mem_map.1 hmem
      exact hne w hw heq
    refine ⟨List.nodup_cons.2 ⟨hv, hnodup⟩, List.forall_mem_cons.2 ⟨hnew, fun w hw => ?_⟩,
      List.forall_mem_cons.2 ⟨?_, hsome⟩, fun n hn => ?_⟩
    · rw [← Frame.find?_insert_of_ne (hne w hw), hnone w hw]
    · rw [hrest _ hv, Frame.find?_insert_self]
      rfl
    · rw [List.map_cons, List.mem_cons, not_or] at hn
      rw [hrest n hn.2, Frame.find?_insert_of_ne hn.1]

/-- What a definition does to the table: its constructors are new, and only its own
names are entered. -/
structure Definition.Enters (d : Definition) (path : String) (K K₁ : Frame) : Prop where
  nodup : (d.constructors path).Nodup
  new : ∀ n ∈ d.constructors path, K.find? n = none
  known : ∀ n ∈ d.constructors path, (K₁.find? n).isSome = true
  keeps : ∀ n, (K.find? n).isSome = true → (K₁.find? n).isSome = true
  rest : ∀ n, n ∉ d.entered path → K₁.find? n = K.find? n

theorem Frame.known_insert {n : String} (h : (K.find? n).isSome = true) (m : String) (s : Symbol) :
    ((K.insert m s).find? n).isSome = true := by
  by_cases hn : n = m
  · rw [hn, Frame.find?_insert_self]
    rfl
  · rwa [Frame.find?_insert_of_ne hn]

theorem Definition.enters_insert {d : Definition} {m : String} {s : Symbol}
    (hnone : d.constructors path = []) (hm : m ∈ d.entered path) :
    d.Enters path K (K.insert m s) where
  nodup := hnone ▸ .nil
  new n hn := by rw [hnone] at hn; cases hn
  known n hn := by rw [hnone] at hn; cases hn
  keeps n hn := Frame.known_insert hn _ _
  rest n hn := Frame.find?_insert_of_ne (ne_of_mem_of_not_mem hm hn).symm _

theorem Definition.enters {d : Definition} (hK₁ : d.members? path K = some K₁) :
    d.Enters path K K₁ := by
  cases d with
  | func | module =>
    obtain rfl := Option.some.inj hK₁
    exact ⟨.nil, by simp [constructors], by simp [constructors], fun _ h => h, fun _ _ => rfl⟩
  | type d =>
    obtain ⟨K₂, hK₂, rfl⟩ := Option.map_eq_some_iff.1 hK₁
    obtain ⟨hnodup, hnew, hknown, hrest⟩ := variants_enter hK₂
    have hcons : ∀ n, n ∈ (Definition.type d).constructors path ↔
      ∃ v ∈ d.variants, path ++ d.name ++ "/" ++ v.name = n := fun n => List.mem_map
    refine ⟨hnodup, fun n hn => ?_, fun n hn => ?_, fun n hn => Frame.known_insert ?_ _ _,
      fun n hn => ?_⟩
    · obtain ⟨v, hv, rfl⟩ := (hcons n).1 hn
      exact hnew v hv
    · obtain ⟨v, hv, rfl⟩ := (hcons n).1 hn
      exact Frame.known_insert (hknown v hv) _ _
    · by_cases hmem : n ∈ (Definition.type d).constructors path
      · obtain ⟨v, hv, rfl⟩ := (hcons n).1 hmem
        exact hknown v hv
      · rwa [hrest n hmem]
    · have hn : n ∉ (path ++ d.name) :: (Definition.type d).constructors path := hn
      rw [List.mem_cons, not_or] at hn
      rw [Frame.find?_insert_of_ne hn.1, hrest n hn.2]
  | object d =>
    obtain ⟨fields, -, rfl⟩ := Option.map_eq_some_iff.1 hK₁
    exact enters_insert rfl List.mem_cons_self
  | «alias» d =>
    obtain ⟨t, -, rfl⟩ := Option.map_eq_some_iff.1 hK₁
    exact enters_insert rfl List.mem_cons_self

/-- What written types see of a definition that is no alias stays as it was introduced. -/
theorem Definition.members?_face {d : Definition} (hK₁ : d.members? path K = some K₁)
    {e : String × Symbol} (he : e ∈ d.heading path) (hsettled : e.1 ∉ d.unsettled path) :
    (K₁.find? e.1).map Symbol.face = some e.2.face := by
  cases d with
  | func | module => cases he
  | type d =>
    obtain ⟨K₂, -, rfl⟩ := Option.map_eq_some_iff.1 hK₁
    obtain rfl := List.mem_singleton.1 he
    rw [Frame.find?_insert_self]
    rfl
  | object d =>
    obtain ⟨fields, -, rfl⟩ := Option.map_eq_some_iff.1 hK₁
    obtain rfl := List.mem_singleton.1 he
    rw [Frame.find?_insert_self]
    rfl
  | «alias» d =>
    obtain rfl := List.mem_singleton.1 he
    exact (hsettled List.mem_cons_self).elim

end Members

/-! ### Definitions one after the other -/

/-- The aliases and the constructors of some definitions. -/
def unsettledOf (ls : List (String × Definition)) : List String :=
  ls.flatMap fun l => l.2.unsettled l.1

/-- The names that are looked up for a definition, as written and qualified by its module. -/
def lookedUp (l : String × Definition) : List String := l.2.mentions ++ l.2.mentions.map (l.1 ++ ·)

/-- How many definitions come before the one that enters a name. -/
def turnOf (ls : List (String × Definition)) (n : String) : Nat :=
  ls.findIdx fun l => decide (n ∈ l.2.entered l.1)

/-- An alias or a constructor that a definition mentions comes before the definition in both
orders, or in neither. -/
def SameTurns (ls ks : List (String × Definition)) : Prop :=
  ∀ l ∈ ls, ∀ n ∈ lookedUp l, n ∈ unsettledOf ls → ∀ m ∈ (l.2.heading l.1).map (·.1),
    (turnOf ls n < turnOf ls m ↔ turnOf ks n < turnOf ks m)

instance (ls ks : List (String × Definition)) : Decidable (SameTurns ls ks) :=
  inferInstanceAs
    (Decidable (∀ l ∈ ls, ∀ n ∈ lookedUp l, n ∈ unsettledOf ls →
      ∀ m ∈ (l.2.heading l.1).map (·.1), (turnOf ls n < turnOf ls m ↔ turnOf ks n < turnOf ks m)))

theorem SameTurns.symm {ls ks : List (String × Definition)} (h : SameTurns ls ks)
    (hperm : ks.Perm ls) : SameTurns ks ls :=
  fun l hl n hn hunsettled m hm =>
    (h l (hperm.mem_iff.1 hl) n hn ((hperm.flatMap_right _).mem_iff.1 hunsettled) m hm).symm

section Runs

variable {T T' F K K₁ : Frame} {ls ks done rest : List (String × Definition)}
  {l : String × Definition}

theorem membersOf?_rest (h : membersOf? ls T = some F) {n : String} (hn : n ∉ enteredOf ls) :
    F.find? n = T.find? n := by
  induction ls generalizing T with
  | nil => rw [Option.some.inj h]
  | cons l ls ih =>
    rw [enteredOf, List.flatMap_cons, List.mem_append, not_or] at hn
    obtain ⟨G, hG, h⟩ := Option.bind_eq_some_iff.1 h
    rw [ih h hn.2, (Definition.enters hG).rest n hn.1]

theorem membersOf?_new (h : membersOf? ls T = some F) (hl : l ∈ ls) {n : String}
    (hn : n ∈ l.2.constructors l.1) : T.find? n = none := by
  induction ls generalizing T with
  | nil => cases hl
  | cons k ls ih =>
    obtain ⟨G, hG, h⟩ := Option.bind_eq_some_iff.1 h
    rcases List.mem_cons.1 hl with rfl | hl
    · exact (Definition.enters hG).new n hn
    · rw [← Option.not_isSome_iff_eq_none]
      intro hknown
      have hnone := ih h hl
      rw [← Option.not_isSome_iff_eq_none] at hnone
      exact hnone ((Definition.enters hG).keeps n hknown)

theorem mem_entered {n : String} :
    n ∈ l.2.entered l.1 ↔ n ∈ (l.2.heading l.1).map (·.1) ∨ n ∈ l.2.constructors l.1 :=
  List.mem_append

/-- No two definitions enter the same name. -/
theorem enteredOf_nodup (h : membersOf? ls T = some F)
    (hheads : ((ls.flatMap fun l => l.2.heading l.1).map (·.1)).Nodup)
    (hknown : ∀ n ∈ (ls.flatMap fun l => l.2.heading l.1).map (·.1), (T.find? n).isSome = true) :
    (enteredOf ls).Nodup := by
  induction ls generalizing T with
  | nil => exact .nil
  | cons l ls ih =>
    rw [List.flatMap_cons, List.map_append] at hheads hknown
    obtain ⟨hheads₁, hheads₂, hapart⟩ := List.nodup_append'.1 hheads
    rw [List.forall_mem_append] at hknown
    obtain ⟨G, hG, h⟩ := Option.bind_eq_some_iff.1 h
    have henters := Definition.enters hG
    -- The names of later definitions are known already, so they are no new constructors; and later
    -- constructors are not yet known.
    have hnames : ∀ k ∈ ls, ∀ n ∈ (k.2.heading k.1).map (·.1),
      n ∈ (ls.flatMap fun l => l.2.heading l.1).map (·.1) := fun k hk n hn => by
      rw [List.map_flatMap]
      exact List.mem_flatMap.2 ⟨k, hk, hn⟩
    refine List.nodup_append'.2 ⟨List.nodup_append'.2 ⟨hheads₁, henters.nodup, fun n hn hn' => ?_⟩,
      ih h hheads₂ fun n hn => henters.keeps n (hknown.2 n hn), fun n hn hn' => ?_⟩
    · have hsome := hknown.1 n hn
      rw [henters.new n hn'] at hsome
      cases hsome
    · have hsome : (G.find? n).isSome = true := by
        rcases mem_entered.1 hn with hn | hn
        · exact henters.keeps n (hknown.1 n hn)
        · exact henters.known n hn
      obtain ⟨k, hk, hn'⟩ := List.mem_flatMap.1 hn'
      rcases mem_entered.1 hn' with hn' | hn'
      · rcases mem_entered.1 hn with hn | hn
        · exact hapart hn (hnames k hk n hn')
        · have hsome' := hknown.2 n (hnames k hk n hn')
          rw [henters.new n hn] at hsome'
          cases hsome'
      · rw [membersOf?_new h hk hn'] at hsome
        cases hsome

/-- A table on the way: it has the final entries of some definitions, and is as before elsewhere. -/
structure Between (done : List (String × Definition)) (T F K : Frame) : Prop where
  entered : ∀ n ∈ enteredOf done, K.find? n = F.find? n
  rest : ∀ n, n ∉ enteredOf done → K.find? n = T.find? n

theorem between_of_run (hnodup : (enteredOf (done ++ rest)).Nodup) (hK : membersOf? done T = some K)
    (hF : membersOf? rest K = some F) : Between done T F K := by
  rw [enteredOf, List.flatMap_append] at hnodup
  exact ⟨fun n hn => (membersOf?_rest hF fun hn' => (List.nodup_append'.1 hnodup).2.2 hn hn').symm,
    fun n hn => membersOf?_rest hK hn⟩

/-- A run that is split at a definition. -/
theorem exists_step (hnodup : (enteredOf ls).Nodup) (hF : membersOf? ls T = some F)
    (hsplit : ls = done ++ l :: rest) :
    ∃ K K₁, Between done T F K ∧ l.2.members? l.1 K = some K₁ ∧ Between (done ++ [l]) T F K₁ := by
  subst hsplit
  rw [membersOf?_append] at hF
  obtain ⟨K, hK, hF⟩ := Option.bind_eq_some_iff.1 hF
  obtain ⟨K₁, hK₁, hrest⟩ := Option.bind_eq_some_iff.1 hF
  refine ⟨K, K₁, between_of_run hnodup hK hF, hK₁, between_of_run ?_ ?_ hrest⟩
  · rwa [List.append_assoc]
  · rw [membersOf?_append]
    exact Option.bind_eq_some_iff.2 ⟨K, hK, Option.bind_eq_some_iff.2 ⟨K₁, hK₁, rfl⟩⟩

/-- Definitions keep their faces: what they enter for good looks as it was introduced. -/
def KeepFaces (ls : List (String × Definition)) (T F : Frame) : Prop :=
  ∀ k ∈ ls, ∀ n ∈ k.2.entered k.1, n ∉ k.2.unsettled k.1 →
    (F.find? n).map Symbol.face = (T.find? n).map Symbol.face

/-- A name that no definition unsettles looks as it did at first. -/
theorem Between.face {n : String} (hK : Between done T F K) (hfaces : KeepFaces done T F)
    (hn : n ∉ unsettledOf done) : (K.find? n).map Symbol.face = (T.find? n).map Symbol.face := by
  by_cases hmem : n ∈ enteredOf done
  · obtain ⟨k, hk, hentered⟩ := List.mem_flatMap.1 hmem
    rw [hK.entered n hmem]
    exact hfaces k hk n hentered fun hunsettled => hn (List.mem_flatMap.2 ⟨k, hk, hunsettled⟩)
  · rw [hK.rest n hmem]

/-- A name is entered by one of the first definitions exactly if its turn is among theirs. -/
theorem turnOf_append_lt {n : String} :
    turnOf (done ++ rest) n < done.length ↔ n ∈ enteredOf done := by
  have hfirst : done.findIdx (fun k => decide (n ∈ k.2.entered k.1)) < done.length ↔
    n ∈ enteredOf done := by
    simp [enteredOf, List.mem_flatMap, List.findIdx_lt_length]
  rw [turnOf, List.findIdx_append, ← hfirst]
  split
  · next h => exact iff_of_true h h
  · next h => exact iff_of_false (by omega) h

/-- The turn of a name that a definition enters and none before it. -/
theorem turnOf_append_cons {m : String} (hown : m ∈ l.2.entered l.1) (hdone : m ∉ enteredOf done) :
    turnOf (done ++ l :: rest) m = done.length := by
  have hfirst : ¬turnOf (done ++ l :: rest) m < done.length := mt turnOf_append_lt.1 hdone
  have hlast : turnOf ((done ++ [l]) ++ rest) m < (done ++ [l]).length := turnOf_append_lt.2 (by
    rw [enteredOf, List.flatMap_append, List.flatMap_singleton]
    exact List.mem_append_right _ hown)
  rw [List.append_assoc, List.singleton_append, List.length_append, List.length_singleton] at hlast
  omega

/-- A definition that mentions something introduces a name. -/
theorem exists_heading {n : String} (hn : n ∈ lookedUp l) :
    ∃ m, m ∈ (l.2.heading l.1).map (·.1) := by
  cases hd : l.2 with
  | func | module => simp [lookedUp, hd, Definition.mentions] at hn
  | type | object | «alias» => exact ⟨_, List.mem_cons_self⟩

/-- When it is the turn of a definition, the tables agree for it in both orders. -/
theorem agreeFor_of_orders {done' rest' : List (String × Definition)} {K' : Frame}
    (hperm : (done' ++ l :: rest').Perm (done ++ l :: rest))
    (hnodup : (enteredOf (done ++ l :: rest)).Nodup) (hfaces : KeepFaces (done ++ l :: rest) T F)
    (hturns : SameTurns (done ++ l :: rest) (done' ++ l :: rest')) (hK : Between done T F K)
    (hK' : Between done' T F K') : K.AgreeFor l.1 (l.2.entered l.1) l.2.mentions K' := by
  have hnodup' : (enteredOf (done' ++ l :: rest')).Nodup :=
    (hperm.flatMap_right _).nodup_iff.2 hnodup
  have hapart : ∀ {ds es : List (String × Definition)} {n : String},
    (enteredOf (ds ++ l :: es)).Nodup → n ∈ l.2.entered l.1 → n ∉ enteredOf ds := fun h hn hds => by
    rw [enteredOf, List.flatMap_append, List.flatMap_cons] at h
    exact (List.nodup_append'.1 h).2.2 hds (List.mem_append_left _ hn)
  have hunsettled : ∀ {n : String}, n ∉ unsettledOf (done ++ l :: rest) → n ∉ unsettledOf done ∧
    n ∉ unsettledOf done' := fun hn =>
    ⟨fun h => hn (by rw [unsettledOf, List.flatMap_append]; exact List.mem_append_left _ h),
      fun h => hn ((hperm.flatMap_right _).mem_iff.1
        (by rw [List.flatMap_append]; exact List.mem_append_left _ h))⟩
  have hface : ∀ n ∈ lookedUp l, (K.find? n).map Symbol.face = (K'.find? n).map Symbol.face := by
    intro n hn
    by_cases hlate : n ∈ unsettledOf (done ++ l :: rest)
    · -- Its turn was before in both orders or in neither.
      obtain ⟨m, hm⟩ := exists_heading hn
      have hown := mem_entered.2 (.inl hm)
      have hboth := hturns l (by simp) n hn hlate m hm
      rw [turnOf_append_cons hown (hapart hnodup hown),
        turnOf_append_cons hown (hapart hnodup' hown), turnOf_append_lt, turnOf_append_lt] at hboth
      by_cases hentered : n ∈ enteredOf done
      · rw [hK.entered n hentered, hK'.entered n (hboth.1 hentered)]
      · rw [hK.rest n hentered, hK'.rest n (mt hboth.2 hentered)]
    · rw [hK.face (fun k hk => hfaces k (List.mem_append_left _ hk)) (hunsettled hlate).1,
        hK'.face (fun k hk => hfaces k (hperm.mem_iff.1 (List.mem_append_left _ hk)))
          (hunsettled hlate).2]
  refine ⟨fun n hn => ?_, fun n hn => ⟨?_, ?_⟩⟩
  · rw [hK.rest n (hapart hnodup hn), hK'.rest n (hapart hnodup' hn)]
  · exact hface n (List.mem_append_left _ hn)
  · exact hface _ (List.mem_append_right _ (List.mem_map_of_mem hn))

/-- **Definitions enter the same in all orders in which they keep their turns.** -/
theorem membersOf?_perm (hperm : ks.Perm ls) (hnodup : (enteredOf ls).Nodup)
    (hfaces : KeepFaces ls T F) (hturns : SameTurns ls ks) (hF : membersOf? ls T = some F)
    (hT : ∀ n, T'.find? n = T.find? n) :
    ∃ F', membersOf? ks T' = some F' ∧ ∀ n, F'.find? n = F.find? n := by
  have hprefix : ∀ done' rest', ks = done' ++ rest' →
    ∃ K', membersOf? done' T' = some K' ∧ Between done' T F K' := by
    intro done'
    induction done' using List.reverseRecOn with
    | nil => exact fun _ _ => ⟨T', rfl, fun n hn => (List.not_mem_nil hn).elim, fun n _ => hT n⟩
    | append_singleton done' l ih =>
      intro rest' hks
      rw [List.append_assoc, List.singleton_append] at hks
      obtain ⟨K', hK', hbetween'⟩ := ih _ hks
      obtain ⟨done, rest, rfl⟩ :=
        List.append_of_mem (hperm.mem_iff.1 (hks ▸ List.mem_append_right _ List.mem_cons_self))
      obtain ⟨K, K₁, hbetween, hK₁, hbetween₁⟩ := exists_step hnodup hF rfl
      subst hks
      obtain ⟨K₁', hK₁', hsame⟩ :=
        Definition.members?_congr (agreeFor_of_orders hperm hnodup hfaces hturns hbetween hbetween')
          hK₁
      refine ⟨K₁', ?_, fun n hn => ?_, fun n hn => ?_⟩
      · rw [membersOf?_append]
        exact Option.bind_eq_some_iff.2 ⟨K', hK', Option.bind_eq_some_iff.2 ⟨K₁', hK₁', rfl⟩⟩
      · rw [enteredOf, List.flatMap_append, List.flatMap_singleton, List.mem_append] at hn
        by_cases hown : n ∈ l.2.entered l.1
        · rw [← hsame n hown]
          refine hbetween₁.entered n ?_
          rw [enteredOf, List.flatMap_append, List.flatMap_singleton]
          exact List.mem_append_right _ hown
        · rw [(Definition.enters hK₁').rest n hown]
          exact hbetween'.entered n (hn.resolve_right hown)
      · rw [enteredOf, List.flatMap_append, List.flatMap_singleton, List.mem_append, not_or] at hn
        rw [(Definition.enters hK₁').rest n hn.2]
        exact hbetween'.rest n hn.1
  obtain ⟨F', hF', hbetween⟩ := hprefix ks [] (List.append_nil _).symm
  refine ⟨F', hF', fun n => ?_⟩
  by_cases hn : n ∈ enteredOf ks
  · exact hbetween.entered n hn
  · rw [hbetween.rest n hn]
    exact (membersOf?_rest hF fun hn' => hn ((hperm.flatMap_right _).mem_iff.2 hn')).symm

end Runs

/-! ### Names of types and modules in any order -/

section Introduced

variable {T T' F G : Frame} {es fs : List (String × Symbol)} {path : String} {ds : List Definition}

theorem Frame.declareAll?_cons (e : String × Symbol) :
    G.declareAll? (e :: es) = (G.declare? e.1 e.2).bind (·.declareAll? es) := List.foldlM_cons ..

/-- Names are bound that were new, and each once. -/
theorem Frame.declareAll?_spec (h : G.declareAll? es = some T) :
    (es.map (·.1)).Nodup ∧ (∀ e ∈ es, G.find? e.1 = none) ∧ (∀ e ∈ es, T.find? e.1 = some e.2) ∧
      ∀ n, n ∉ es.map (·.1) → T.find? n = G.find? n := by
  induction es generalizing G with
  | nil => exact ⟨.nil, by simp, by simp, fun n _ => Option.some.inj h ▸ rfl⟩
  | cons e es ih =>
    rw [Frame.declareAll?_cons] at h
    obtain ⟨G₁, hG₁, h⟩ := Option.bind_eq_some_iff.1 h
    obtain ⟨hnew, rfl⟩ := Frame.declare?_eq_some.1 hG₁
    obtain ⟨hnodup, hnone, hsome, hrest⟩ := ih h
    have hne : ∀ f ∈ es, f.1 ≠ e.1 := fun f hf heq => by
      have hf := hnone f hf
      rw [heq, Frame.find?_insert_self] at hf
      cases hf
    have he : e.1 ∉ es.map (·.1) := fun hmem => by
      obtain ⟨f, hf, heq⟩ := List.mem_map.1 hmem
      exact hne f hf heq
    refine ⟨List.nodup_cons.2 ⟨he, hnodup⟩, List.forall_mem_cons.2 ⟨hnew, fun f hf => ?_⟩,
      List.forall_mem_cons.2 ⟨?_, hsome⟩, fun n hn => ?_⟩
    · rw [← Frame.find?_insert_of_ne (hne f hf), hnone f hf]
    · rw [hrest _ he, Frame.find?_insert_self]
    · rw [List.map_cons, List.mem_cons, not_or] at hn
      rw [hrest n hn.2, Frame.find?_insert_of_ne hn.1]

theorem Frame.exists_declareAll? (hnodup : (es.map (·.1)).Nodup)
    (hnew : ∀ e ∈ es, G.find? e.1 = none) : ∃ T, G.declareAll? es = some T := by
  induction es generalizing G with
  | nil => exact ⟨G, rfl⟩
  | cons e es ih =>
    rw [List.map_cons, List.nodup_cons] at hnodup
    rw [List.forall_mem_cons] at hnew
    obtain ⟨T, hT⟩ := ih (G := G.insert e.1 e.2) hnodup.2 fun f hf => by
      rw [Frame.find?_insert_of_ne (ne_of_mem_of_not_mem (List.mem_map_of_mem hf) hnodup.1),
        hnew.2 f hf]
    exact ⟨T, (Frame.declareAll?_cons e).trans
      (Option.bind_eq_some_iff.2 ⟨_, Frame.declare?_eq_some.2 ⟨hnew.1, rfl⟩, hT⟩)⟩

/-- New names may be bound in any order. -/
theorem Frame.declareAll?_perm (hperm : fs.Perm es) (h : G.declareAll? es = some T) :
    ∃ T', G.declareAll? fs = some T' ∧ ∀ n, T'.find? n = T.find? n := by
  obtain ⟨hnodup, hnew, hsome, hrest⟩ := Frame.declareAll?_spec h
  obtain ⟨T', hT'⟩ :=
    Frame.exists_declareAll? (G := G) ((hperm.map _).nodup_iff.2 hnodup) fun e he =>
      hnew e (hperm.mem_iff.1 he)
  obtain ⟨-, -, hsome', hrest'⟩ := Frame.declareAll?_spec hT'
  refine ⟨T', hT', fun n => ?_⟩
  by_cases hn : n ∈ es.map (·.1)
  · obtain ⟨e, he, rfl⟩ := List.mem_map.1 hn
    rw [hsome e he, hsome' e (hperm.mem_iff.2 he)]
  · rw [hrest n hn, hrest' n (mt (hperm.map _).mem_iff.1 hn)]

mutual

/-- What definitions that are no modules introduce is part of what all introduce. -/
theorem heading_sublist : ∀ (path : String) (ds : List Definition),
    ((leavesOf path ds).flatMap fun l => l.2.heading l.1).Sublist (introducedOf path ds)
  | path, [] => .slnil
  | path, d :: ds => by
    rw [leavesOf, introducedOf, List.flatMap_append]
    exact (heading_sublist_leaves path d).append (heading_sublist path ds)

theorem heading_sublist_leaves : ∀ (path : String) (d : Definition),
    ((d.leaves path).flatMap fun l => l.2.heading l.1).Sublist (d.introduced path)
  | path, .func d | path, .type d | path, .object d | path, .alias d => by
    rw [Definition.leaves, List.flatMap_singleton]
    exact .refl _
  | path, .module loc n defs => by
    rw [Definition.leaves, Definition.introduced]
    exact (heading_sublist _ defs).cons _

end

end Introduced

/-! ### Programs -/

section Programs

variable {p q : Program} {G G' G₀ H : Frame} {o : CheckOptions}

/-- The first two rounds do not depend on the order of definitions, as long as they
keep their turns. -/
theorem types?_perm (hperm : q.defs.Perm p.defs)
    (hturns : SameTurns (leavesOf "" p.defs) (leavesOf "" q.defs)) (h : p.types? G₀ = some H) :
    ∃ H', q.types? G₀ = some H' ∧ ∀ n, H'.find? n = H.find? n := by
  obtain ⟨T, hT, hH⟩ := Option.bind_eq_some_iff.1 h
  obtain ⟨hintroduced, -, hsome, -⟩ := Frame.declareAll?_spec hT
  have hnames : (introducedOf "" q.defs).Perm (introducedOf "" p.defs) := by
    rw [introducedOf_eq_flatMap, introducedOf_eq_flatMap]
    exact hperm.flatMap_right _
  obtain ⟨T', hT', hsame⟩ := Frame.declareAll?_perm hnames hT
  have hheads := heading_sublist "" p.defs
  have hnodup : (enteredOf (leavesOf "" p.defs)).Nodup := by
    refine enteredOf_nodup hH ((hheads.map _).nodup hintroduced) fun n hn => ?_
    obtain ⟨e, he, rfl⟩ := List.mem_map.1 ((hheads.map _).subset hn)
    rw [hsome e he]
    rfl
  have hfaces : KeepFaces (leavesOf "" p.defs) T H := by
    intro l hl n hn hsettled
    obtain ⟨done, rest, hsplit⟩ := List.append_of_mem hl
    obtain ⟨K, K₁, -, hK₁, hbetween⟩ := exists_step hnodup hH hsplit
    have hown : n ∈ (l.2.heading l.1).map (·.1) := by
      refine (mem_entered.1 hn).resolve_right fun hcons => hsettled ?_
      cases hd : l.2 with
      | «alias» d => rw [hd] at hcons; cases hcons
      | func | module | type | object => rw [hd] at hcons; exact hcons
    obtain ⟨e, he, rfl⟩ := List.mem_map.1 hown
    have hentered : e.1 ∈ enteredOf (done ++ [l]) := by
      rw [enteredOf, List.flatMap_append, List.flatMap_singleton]
      exact List.mem_append_right _ hn
    rw [← hbetween.entered _ hentered, Definition.members?_face hK₁ he hsettled,
      hsome e (hheads.subset (List.mem_flatMap.2 ⟨l, hl, he⟩))]
    rfl
  obtain ⟨H', hH', hsame'⟩ := membersOf?_perm (leavesOf_perm hperm "") hnodup hfaces hturns hH hsame
  exact ⟨H', Option.bind_eq_some_iff.2 ⟨T', hT', hH'⟩, hsame'⟩

/-- Where functions keep their order, what is accepted in one order is accepted in another, and all
that is found out is the same. -/
theorem accepted_of_signatures (hperm : q.defs.Perm p.defs)
    (hsignatures : signaturesOf "" q.defs = signaturesOf "" p.defs)
    (hturns : SameTurns (leavesOf "" p.defs) (leavesOf "" q.defs)) {c : Checker}
    (h : p.check o = (.ok (), c)) : ∃ d, q.check o = (.ok (), d) ∧ c.SameTypes p q d := by
  obtain ⟨G, hG, hrun⟩ := Program.check_eq_ok_iff.1 h
  obtain ⟨H, hH, hsigs⟩ := Option.bind_eq_some_iff.1 hG
  obtain ⟨H', hH', hsame⟩ := types?_perm hperm hturns hH
  obtain ⟨G', hG', hsame'⟩ := declareAll?_congr hsame hsigs
  have hfunctions : q.functions = p.functions := by
    rw [Program.functions, Program.functions, ← map_snd_signaturesOf, hsignatures,
      map_snd_signaturesOf]
  obtain ⟨G₁, hrun'⟩ := checkAll_congr (G := G') hrun fun n => (hsame' n).symm
  refine ⟨{ c with globals := G₁ },
    Program.check_eq_ok_iff.2 ⟨G', Option.bind_eq_some_iff.2 ⟨H', hH', hsignatures ▸ hG'⟩,
      hfunctions ▸ hrun'⟩, fun _ => rfl, fun i f hf => ⟨i, hfunctions ▸ hf, fun _ _ => rfl⟩⟩

/-- The functions of a program may change their order: each has a written result type, its
annotations mean the same where it is declared and where it is checked, and what is known beforehand
mentions no type variables but its own parameters. -/
structure Program.Orderless (p : Program) (o : CheckOptions) : Prop where
  written : ∀ f ∈ p.functions, f.func.ret.isSome = true
  steady : p.SteadyAnnotations (Checker.new o).globals
  seeds : ∀ e ∈ o.symbols, e.2.Tidy

instance (p : Program) (G₀ : Frame) : Decidable (p.SteadyAnnotations G₀) :=
  inferInstanceAs
    (Decidable (∀ H ∈ p.types? G₀, ∀ e ∈ signaturesOf "" p.defs,
      ∀ m ∈ e.2.func.meaning? (H.under e.1),
        ∀ m' ∈ e.2.func.meaning? (H.under (pathOf e.2.name)), m = m'))

theorem Program.Orderless.perm (h : p.Orderless o) (hperm : q.defs.Perm p.defs)
    (hturns : SameTurns (leavesOf "" p.defs) (leavesOf "" q.defs)) : q.Orderless o where
  written f hf := h.written f ((functionsOf_perm hperm "").mem_iff.1 hf)
  steady H hH e he m hm m' hm' := by
    obtain ⟨H', hH', hsame⟩ := types?_perm hperm.symm (hturns.symm (leavesOf_perm hperm "")) hH
    have hunder : ∀ path, H.under path = H'.under path := fun path => funext fun n => by
      rw [Frame.under_eq, Frame.under_eq, hsame, hsame]
    rw [hunder] at hm hm'
    exact h.steady H' hH' e ((signaturesOf_perm hperm "").mem_iff.1 he) m hm m' hm'
  seeds := h.seeds

/-- **Types may come in any order in which they keep their turns.** Take a program and another order
of its definitions, and let each alias and each constructor that a type, object or alias mentions
come before it in both orders or in neither. Functions keep their order, or may change it. Then both
programs are accepted or both are not, and where they are every function and every expression in it
has the same type. -/
theorem check_types_perm (hperm : q.defs.Perm p.defs)
    (hturns : SameTurns (leavesOf "" p.defs) (leavesOf "" q.defs))
    (hfunctions : signaturesOf "" q.defs = signaturesOf "" p.defs ∨ p.Orderless o) :
    (p.check o).1.isOk = (q.check o).1.isOk ∧
      ∀ c d, p.check o = (.ok (), c) → q.check o = (.ok (), d) → c.SameTypes p q d := by
  have hturns' := hturns.symm (leavesOf_perm hperm "")
  rcases hfunctions with hsignatures | hfree
  · exact same_of_accepted (fun _ => accepted_of_signatures hperm hsignatures hturns) fun _ =>
      accepted_of_signatures hperm.symm hsignatures.symm hturns'
  · have hfree' := hfree.perm hperm hturns
    exact same_of_accepted
      (fun _ => accepted_perm hperm (fun _ => types?_perm hperm hturns) hfree.written hfree.steady
        hfree.seeds) fun _ => accepted_perm hperm.symm (fun _ => types?_perm hperm.symm hturns')
      hfree'.written hfree'.steady hfree'.seeds

/-- A written type without arguments. -/
def plainName (n : String) : TypeExpr := .name {} n []

/-- A method that gives a part of its object, which it gets as an argument. -/
def partMethod (name owner part result : String) : FuncDef :=
  ⟨{}, name, [⟨{}, "x", some (plainName owner)⟩], some (plainName result),
    ⟨{}, [.ret {} (some (.access {} (.var {} "x") part))]⟩, true⟩

/-- A box has a shade and comes from somewhere, which may be another box. -/
def boxObject : Definition :=
  .object ⟨{}, "Box", [], [⟨{}, "shade", plainName "M/Tone"⟩, ⟨{}, "source", plainName "Source"⟩],
    [partMethod "hue" "Box" "shade" "Shade"]⟩

def sourceType : Definition :=
  .type ⟨{}, "Source", [], [⟨{}, "Shop", []⟩, ⟨{}, "Taken", [⟨{}, "out", plainName "Box"⟩,
    ⟨{}, "tint", plainName "Shade"⟩]⟩]⟩

def lampObject : Definition :=
  .object ⟨{}, "Lamp", [], [⟨{}, "glow", plainName "u24"⟩],
    [partMethod "light" "Lamp" "glow" "u24"]⟩

/-- A module with a type and an object that has a method. -/
def toneModule : Definition := .module {} "M" [
  .type ⟨{}, "Tone", [], [⟨{}, "Dark", []⟩, ⟨{}, "Light", [⟨{}, "by", plainName "u24"⟩]⟩]⟩,
  .object ⟨{}, "Paint", [], [⟨{}, "tone", plainName "M/Tone"⟩],
    [partMethod "tone" "M/Paint" "tone" "Shade"]⟩]

/-- Types and objects that mention each other, and an alias after them that one of them mentions. -/
def boxesProgram (first second third : Definition) : Program :=
  ⟨[], [first, second, .alias ⟨{}, "Shade", [], plainName "M/Tone"⟩, toneModule, third]⟩

/-- The type and the object mention each other, so one of them refers forward in both orders; so
does the type to the alias. -/
theorem check_types_perm_boxes :
    ∃ c d, (boxesProgram boxObject sourceType lampObject).check {} = (.ok (), c) ∧
    (boxesProgram lampObject sourceType boxObject).check {} = (.ok (), d) ∧
    c.SameTypes (boxesProgram boxObject sourceType lampObject)
      (boxesProgram lampObject sourceType boxObject) d := by
  have hends : ∀ (a b : Definition) (ds : List Definition),
    (a :: (ds ++ [b])).Perm (b :: (ds ++ [a])) := fun a b ds =>
    ((List.perm_append_singleton b ds).cons a).trans
      ((List.Perm.swap b a ds).trans ((List.perm_append_singleton a ds).symm.cons b))
  have hperm : (boxesProgram lampObject sourceType boxObject).defs.Perm
    (boxesProgram boxObject sourceType lampObject).defs :=
    hends lampObject boxObject [_, _, _]
  obtain ⟨hsame, htypes⟩ := check_types_perm (o := {}) hperm (by decide +kernel)
    (.inr ⟨by decide, by decide +kernel, by simp⟩)
  have haccepted : ((boxesProgram boxObject sourceType lampObject).check {}).1.isOk = true := by
    decide +kernel
  exact ⟨_, _, check_eq_of_isOk haccepted, check_eq_of_isOk (hsame ▸ haccepted),
    htypes _ _ (check_eq_of_isOk haccepted) (check_eq_of_isOk (hsame ▸ haccepted))⟩

/-- An alias of an alias, and a function that uses it. -/
def aliasesProgram (first second : Definition) : Program := ⟨[], [first, second,
  .func ⟨{}, "f", [⟨{}, "x", some (plainName "A")⟩], some (plainName "u24"),
    ⟨{}, [.ret {} (some (.var {} "x"))]⟩, true⟩]⟩

/-- An alias that is not yet entered is taken for a type of its own: the order of two aliases
decides whether a program is accepted. -/
theorem alias_order_decides_acceptance : ∃ a b : Definition,
    ((aliasesProgram a b).check {}).1.isOk = false ∧
      ((aliasesProgram b a).check {}).1.isOk = true :=
  ⟨.alias ⟨{}, "A", [], plainName "B"⟩,
    .alias ⟨{}, "B", [], plainName "u24"⟩, by decide +kernel, by decide +kernel⟩

/-- An object with a method. -/
def objectWith (name method : String) (body : Expr) : Definition :=
  .object ⟨{}, name, [], [⟨{}, "a", plainName "u24"⟩],
    [⟨{}, method, [], none, ⟨{}, [.ret {} (some body)]⟩, true⟩]⟩

/-- Two objects, one with a method that calls a method of the other. -/
def callingObjects : Program :=
  ⟨[], [objectWith "A" "m" (.uint {} 1), objectWith "B" "n" (.call {} (.var {} "A/m") [] [])]⟩

/-- Methods are checked in the order of their objects, and a method without a written result type is
dynamic until then. -/
theorem object_order_decides_result :
    ∃ p q : Program, ∃ c d, q.defs.Perm p.defs ∧ (∀ e ∈ p.defs, ∃ b, e = .object b) ∧
      p.check {} = (.ok (), c) ∧ q.check {} = (.ok (), d) ∧ c.funcType? "B/n" = some (.word .u24) ∧
      d.funcType? "B/n" = some .any := by
  refine ⟨callingObjects, { callingObjects with defs := callingObjects.defs.reverse }, _, _,
    List.reverse_perm _, ?_, check_eq_of_isOk (by decide +kernel),
    check_eq_of_isOk (by decide +kernel), by decide +kernel, by decide +kernel⟩
  simp [callingObjects, objectWith]

end Programs

end FunRiscv
