import Mathlib
import FunRiscv.Proofs.Surface.Written

/-!
# Reading types and parameters back

* `TypeExpr.ReadsBack`: what is written for a type reads as that type, on its own and as the
  parameter of a function type.
* `TypeExpr.readsBack`: so it is for every legible type.
* `reads_param`, `reads_params`: parameters.
-/

namespace FunRiscv

open Reading

/-! ### Types -/

/-- What may follow a type. -/
def TypeEnd (tail : List UInt8) : Prop := stops [.less, .arrow] tail = true

/-- What is written for a type reads as that type, and so does what is written for it
as a parameter. -/
structure TypeExpr.ReadsBack (src : Source) (t : TypeExpr) : Prop where
  starts : Starts t.print
  whole : ∀ n good, ReadsItem src (nested src n .type) TypeExpr.print TypeEnd n good
    (fun t u => u.bare = t.bare) t
  atom : ∀ n good bl tail, AllBlank bl → stops [.less] tail = true →
    (bl ++ (t.enclose t.print ++ tail)).length ≤ n →
    Reads src (typeAtom src (nested src n)) (bl ++ (t.enclose t.print ++ tail)) tail good fun u =>
      u.bare = t.bare

namespace TypeExpr

variable {src : Source}

/-- A type that is read as an atom reads back. -/
theorem ReadsBack.of_atom {t : TypeExpr} (hclosed : t.enclose t.print = t.print)
    (hstarts : Starts t.print) (hatom : ∀ n good bl tail, AllBlank bl → stops [.less] tail = true →
      (bl ++ (t.print ++ tail)).length ≤ n →
      Reads src (typeAtom src (nested src n)) (bl ++ (t.print ++ tail)) tail good fun u =>
        u.bare = t.bare) :
    t.ReadsBack src := by
  refine ⟨hstarts, ?_, by rwa [hclosed]⟩
  intro n good bl tail hbl htail hn
  obtain ⟨n, rfl⟩ : ∃ m, n = m + 1 := ⟨n - 1, by omega⟩
  show Reads src (typeExpr src (nested src n)) _ _ _ _
  refine (reads_tokenStart ((hstarts.append tail).solid_skipped hbl)).bind fun s _ => ?_
  refine (hatom n good bl tail hbl (stops_mono htail (by simp)) (by omega)).bind fun u hu => ?_
  exact Reads.punct_else (solid_of_stops htail) (nextPunct_ne_of_stops htail (by simp))
    (Reads.pure hu)

theorem readsBack_name (l : Location) {n : String} (hn : IsName n) :
    (TypeExpr.name l n []).ReadsBack src := by
  refine .of_atom rfl hn.1.starts fun m good bl tail hbl htail _ => ?_
  have hword := hn.1.nextWord hbl (wordRun_of_stops htail)
  refine (reads_tokenStart hword.1).bind fun s _ =>
    Reads.punct_else hword.1 (hword.nextPunct_ne _) ?_
  refine ((reads_name hword hn.2).inContext _).bind ?_
  rintro _ rfl
  refine Reads.punct_else (solid_of_stops htail) (nextPunct_ne_of_stops htail (by simp)) ?_
  refine (Reads.pure rfl).bind ?_
  rintro _ rfl
  exact (reads_locationFrom s).bind fun _ _ => Reads.pure rfl

theorem readsBack_application (l : Location) {n : String} {t : TypeExpr} {ts : List TypeExpr}
    (hn : IsName n) (hargs : ∀ u ∈ t :: ts, u.ReadsBack src) :
    (TypeExpr.name l n (t :: ts)).ReadsBack src := by
  refine .of_atom rfl (hn.1.starts.append _) fun m good bl tail hbl htail hm => ?_
  have htext : (TypeExpr.name l n (t :: ts)).print ++ tail =
      Text.bytesOf n ++
        0x3c :: ([] ++ (commaJoin ((t :: ts).map TypeExpr.print) ++ 0x3e :: tail)) := by
    simp [TypeExpr.print]
  rw [htext] at hm ⊢
  refine Reads.of_length fun hsize => ?_
  have hword :=
    hn.1.nextWord hbl
      (show wordRun (0x3c :: ([] ++ (commaJoin ((t :: ts).map TypeExpr.print) ++ 0x3e :: tail))) =
        [] from rfl)
  refine (reads_tokenStart hword.1).bind fun s _ =>
    Reads.punct_else hword.1 (hword.nextPunct_ne _) ?_
  refine ((reads_name hword hn.2).inContext _).bind ?_
  rintro _ rfl
  have hstarts : Starts ([] ++ (commaJoin ((t :: ts).map TypeExpr.print) ++ 0x3e :: tail)) := by
    rw [List.map_cons, commaJoin_cons_append]
    exact (hargs t (by simp)).starts.append _
  have hend : stops [.less, .arrow, .comma] (0x3e :: tail) = true := stops_cons (by decide) tail
  refine Reads.punct_then (next_less hstarts) ?_
  simp only [List.length_append, List.length_cons, List.length_nil] at hm hsize
  refine (reads_commaList (fun u hu => (hargs u hu).whole m good)
    (fun r => stops_cons (by decide) r) (stops_mono hend (by simp)) rfl
    (nextPunct_ne_of_stops hend (by simp)) (by simp) allBlank_nil ?_ ?_).bind fun us hus => ?_
  · simp only [List.length_append, List.length_cons, List.length_nil]
    omega
  · simp only [List.length_append, List.length_cons, List.length_nil, rounds]
    omega
  refine (reads_closeAngle rfl).bind fun _ _ => (Reads.pure rfl).bind ?_
  rintro _ rfl
  refine (reads_locationFrom s).bind fun _ _ => Reads.pure ?_
  simp only [TypeExpr.bare, typesBare_eq_map, map_eq_of_forall₂ hus]

/-- Types between parentheses: a single one is itself, others make a tuple. -/
theorem reads_parenthesised {ts : List TypeExpr} {m : Nat} {good : Prop} {bl tail : List UInt8}
    {P : TypeExpr → Prop} (hstarts : ∀ u ∈ ts, Starts u.print)
    (hts : ∀ u ∈ ts, ReadsItem src (nested src m .type) TypeExpr.print TypeEnd m good
      (fun t u => u.bare = t.bare) u)
    (hbl : AllBlank bl)
    (hm : (bl ++ 0x28 :: ([] ++ (commaJoin (ts.map TypeExpr.print) ++ 0x29 :: tail))).length ≤ m)
    (hsingle : ∀ t u, ts = [t] → u.bare = t.bare → P u)
    (htuple : ∀ l us, ts.length ≠ 1 → us.map TypeExpr.bare = ts.map TypeExpr.bare →
      P (.tuple l us)) :
    Reads src (typeAtom src (nested src m))
      (bl ++ 0x28 :: ([] ++ (commaJoin (ts.map TypeExpr.print) ++ 0x29 :: tail))) tail good P := by
  refine Reads.of_length fun hsize => ?_
  have hopen : Next .openParen
      (bl ++ 0x28 :: ([] ++ (commaJoin (ts.map TypeExpr.print) ++ 0x29 :: tail)))
      ([] ++ (commaJoin (ts.map TypeExpr.print) ++ 0x29 :: tail)) := Next.append ⟨rfl, rfl, rfl⟩ hbl
  refine (reads_tokenStart hopen.1).bind fun s _ => Reads.punct_then hopen ?_
  simp only [List.length_append, List.length_cons, List.length_nil] at hm hsize
  cases ts with
  | nil =>
    refine Reads.punct_then ⟨rfl, rfl, rfl⟩ ((Reads.pure rfl).bind ?_)
    rintro _ rfl
    exact (reads_locationFrom s).bind fun l _ => Reads.pure (htuple l [] (by simp) rfl)
  | cons t ts =>
    have hfirst : Starts (commaJoin ((t :: ts).map TypeExpr.print) ++ 0x29 :: tail) := by
      rw [List.map_cons, commaJoin_cons_append]
      exact (hstarts t (by simp)).append _
    refine Reads.punct_else (hfirst.solid_skipped allBlank_nil)
      (hfirst.nextPunct_ne allBlank_nil (by decide)) ?_
    have hend : stops [.less, .arrow, .comma] (0x29 :: tail) = true := stops_cons (by decide) tail
    refine (reads_commaList hts (fun r => stops_cons (by decide) r) (stops_mono hend (by simp)) rfl
      (nextPunct_ne_of_stops hend (by simp)) (by simp) allBlank_nil ?_ ?_).bind fun us hus => ?_
    · simp only [List.length_append, List.length_cons, List.length_nil]
      omega
    · simp only [List.length_append, List.length_cons, List.length_nil, rounds]
      omega
    refine (reads_expect ⟨rfl, rfl, rfl⟩).bind fun _ _ => (Reads.pure rfl).bind ?_
    rintro _ rfl
    match us, hus with
    | [u], hus =>
      cases hus with
      | cons hu hnil =>
        cases hnil
        exact Reads.pure (hsingle t u rfl hu)
    | u :: v :: us, hus =>
      refine (reads_locationFrom s).bind fun l _ =>
        Reads.pure (htuple l _ ?_ (map_eq_of_forall₂ hus))
      rw [hus.length_eq]
      simp

theorem readsBack_tuple (l : Location) {ts : List TypeExpr} (hlen : ts.length ≠ 1)
    (hts : ∀ u ∈ ts, u.ReadsBack src) : (TypeExpr.tuple l ts).ReadsBack src := by
  refine .of_atom rfl rfl fun m good bl tail hbl htail hm => ?_
  have htext : (TypeExpr.tuple l ts).print ++ tail =
    0x28 :: ([] ++ (commaJoin (ts.map TypeExpr.print) ++ 0x29 :: tail)) := by
    simp [TypeExpr.print]
  rw [htext] at hm ⊢
  refine reads_parenthesised (fun u hu => (hts u hu).starts) (fun u hu => (hts u hu).whole m good)
    hbl hm (fun t u ht _ => absurd (by rw [ht]; rfl) hlen) fun l us _ hus => ?_
  simp only [TypeExpr.bare, typesBare_eq_map, hus]

theorem readsBack_func (l : Location) {p r : TypeExpr} (hp : p.ReadsBack src)
    (hr : r.ReadsBack src) : (TypeExpr.func l p r).ReadsBack src := by
  have hpstarts : Starts (p.enclose p.print) := by
    cases p <;> first | rfl | exact hp.starts
  have hwhole : ∀ n good, ReadsItem src (nested src n .type) TypeExpr.print TypeEnd n good
      (fun t u => u.bare = t.bare) (TypeExpr.func l p r) := by
    intro n good bl tail hbl htail hn
    obtain ⟨n, rfl⟩ : ∃ m, n = m + 1 := ⟨n - 1, by omega⟩
    have htext : (TypeExpr.func l p r).print ++ tail =
        p.enclose p.print ++ 0x20 :: 0x2d :: 0x3e :: ([0x20] ++ (r.print ++ tail)) := by
      simp [TypeExpr.print]
    rw [htext] at hn ⊢
    show Reads src (typeExpr src (nested src n)) _ _ _ _
    refine (reads_tokenStart ((hpstarts.append _).solid_skipped hbl)).bind fun s _ => ?_
    refine (hp.atom n good bl _ hbl rfl (by omega)).bind fun u hu =>
      Reads.punct_then ⟨rfl, rfl, rfl⟩ ?_
    simp only [List.length_append, List.length_cons, List.length_nil] at hn
    refine ((hr.whole n good [0x20] tail allBlank_blank htail ?_).inContext _).bind fun v hv => ?_
    · simp only [List.length_append, List.length_cons, List.length_nil]
      omega
    refine (reads_locationFrom s).bind fun _ _ => Reads.pure ?_
    simp only [TypeExpr.bare, hu, hv]
  refine ⟨hpstarts.append _, hwhole, fun n good bl tail hbl htail hn => ?_⟩
  have htext : (TypeExpr.func l p r).enclose (TypeExpr.func l p r).print ++ tail =
      0x28 :: ([] ++ (commaJoin ([TypeExpr.func l p r].map TypeExpr.print) ++ 0x29 :: tail)) := by
    simp [TypeExpr.enclose, commaJoin]
  rw [htext] at hn ⊢
  refine reads_parenthesised ?_ ?_ hbl hn ?_ ?_
  · intro u hu
    rw [List.mem_singleton.1 hu]
    exact hpstarts.append _
  · intro u hu
    rw [List.mem_singleton.1 hu]
    exact hwhole n good
  · rintro t u ht hu
    rw [hu, (List.cons.inj ht).1]
  · exact fun _ _ h _ => absurd rfl h

/-- What is written for a legible type reads as that type. -/
theorem readsBack (src : Source) {t : TypeExpr} (h : t.Legible) : t.ReadsBack src := by
  induction t using TypeExpr.inductionOn with
  | hname l n args ih =>
    obtain ⟨hn, hargs⟩ := h
    cases args with
    | nil => exact readsBack_name l hn
    | cons t ts =>
      exact readsBack_application l hn fun u hu => ih u hu ((typesLegible_iff _).1 hargs u hu)
  | hfunc l p r ihp ihr => exact readsBack_func l (ihp h.1) (ihr h.2)
  | htuple l ts ih =>
    exact readsBack_tuple l h.1 fun u hu => ih u hu ((typesLegible_iff _).1 h.2 u hu)
  | hmissing => exact absurd h id

end TypeExpr

/-! ### Annotations and parameters -/

/-- What may follow a parameter. -/
def ParamEnd (tail : List UInt8) : Prop := stops [.less, .arrow, .colon] tail = true

section Params

variable {src : Source} {m : Nat} {good : Prop}

/-- A type after a token, or no such token. -/
theorem reads_optionalType {α : Type} {tok : Punct} {lead tail stop : List UInt8}
    {type : Option TypeExpr} {read : Reading TypeExpr} {rest : Option TypeExpr → Reading α}
    {P : α → Prop}
    (hlead : ∀ r, Next tok (lead ++ 0x20 :: r) ([0x20] ++ r)) (htail : stops [tok] tail = true)
    (hread : ∀ t, type = some t → Reads src read ([0x20] ++ (t.print ++ tail)) tail good fun u =>
      u.bare = t.bare)
    (hrest : ∀ u, u.map TypeExpr.bare = type.map TypeExpr.bare → Reads src (rest u) tail
      stop good P) :
    Reads src (punct src tok >>= fun b => if b = true then (some <$> read) >>= rest else
      pure none >>= rest)
      (optionalTypePrint lead type ++ tail) stop good P := by
  cases type with
  | none =>
    refine Reads.punct_else (solid_of_stops htail) (nextPunct_ne_of_stops htail (by simp)) ?_
    refine (Reads.pure rfl).bind ?_
    rintro _ rfl
    exact hrest none rfl
  | some t =>
    have htext : optionalTypePrint lead (some t) ++ tail = lead ++ 0x20 :: (t.print ++ tail) := by
      simp [optionalTypePrint]
    rw [htext]
    refine Reads.punct_then (hlead _) (Reads.bind (P := fun u => u.map TypeExpr.bare = some t.bare)
      ?_ hrest)
    exact Reads.map ((hread t rfl).mono id fun u hu => congrArg some hu)

/-- The bytes after a name that may be annotated carry no word on. -/
theorem wordRun_annotated (type : Option TypeExpr) {tail : List UInt8} (h : wordRun tail = []) :
    wordRun (optionalTypePrint [0x3a] type ++ tail) = [] := by
  cases type with
  | none => exact h
  | some t => rfl

theorem Param.starts {p : Param} (h : p.Legible) : Starts p.print := h.1.1.starts.append _

theorem reads_param {p : Param} (h : p.Legible) :
    ReadsItem src (param src (nested src m)) Param.print ParamEnd m good
      (fun p q => q.bare = p.bare) p := by
  intro bl tail hbl htail hm
  have htext : p.print ++ tail =
    Text.bytesOf p.name ++ (optionalTypePrint [0x3a] p.type ++ tail) := by simp [Param.print]
  rw [htext] at hm ⊢
  have hword := h.1.1.nextWord hbl (wordRun_annotated p.type (wordRun_of_stops htail))
  refine (reads_tokenStart hword.1).bind fun s _ => ?_
  refine ((reads_name hword h.1.2).inContext _).bind ?_
  rintro _ rfl
  refine reads_optionalType (fun r => ⟨rfl, rfl, rfl⟩) (stops_mono htail (by simp)) (fun t ht => ?_)
    fun u hu => ?_
  · refine ((TypeExpr.readsBack src (h.2 t ht)).whole m good [0x20] tail allBlank_blank
      (stops_mono htail (by simp)) ?_).inContext _
    have := List.length_pos_of_ne_nil h.1.1.starts.ne_nil
    simp only [ht, optionalTypePrint, List.length_append, List.length_cons, List.length_nil] at hm ⊢
    omega
  refine (reads_locationFrom s).bind fun _ _ => Reads.pure ?_
  simp only [Param.bare, hu]

/-- Parameters between parentheses. -/
theorem reads_params {ps : List Param} (h : ∀ p ∈ ps, p.Legible) {tail : List UInt8}
    (hm : (0x28 :: (commaJoin (ps.map Param.print) ++ 0x29 :: tail)).length ≤ m) :
    Reads src (params src (nested src m)) (0x28 :: (commaJoin (ps.map Param.print) ++ 0x29 :: tail))
      tail good (fun qs => qs.map Param.bare = ps.map Param.bare) := by
  refine Reads.of_length fun hsize => (reads_expect ⟨rfl, rfl, rfl⟩).bind fun _ _ => ?_
  simp only [List.length_append, List.length_cons] at hm hsize
  cases ps with
  | nil => exact Reads.punct_then ⟨rfl, rfl, rfl⟩ (Reads.pure rfl)
  | cons p ps =>
    have hfirst : Starts (commaJoin ((p :: ps).map Param.print) ++ 0x29 :: tail) := by
      rw [List.map_cons, commaJoin_cons_append]
      exact (Param.starts (h p (by simp))).append _
    refine Reads.punct_else (hfirst.solid_skipped allBlank_nil)
      (hfirst.nextPunct_ne allBlank_nil (by decide)) ?_
    have hend : stops [.less, .arrow, .colon, .comma] (0x29 :: tail) = true :=
      stops_cons (by decide) tail
    refine (reads_commaList (fun q hq => reads_param (h q hq)) (fun r => stops_cons (by decide) r)
      (stops_mono hend (by simp)) rfl (nextPunct_ne_of_stops hend (by simp)) (by simp) allBlank_nil
      ?_ ?_).bind
      fun qs hqs => ?_
    · simp only [List.length_append, List.length_cons, List.length_nil]
      omega
    · simp only [List.length_append, List.length_cons, List.length_nil, rounds]
      omega
    refine (reads_expect ⟨rfl, rfl, rfl⟩).bind fun _ _ => Reads.pure ?_
    exact map_eq_of_forall₂ hqs

end Params

end FunRiscv
