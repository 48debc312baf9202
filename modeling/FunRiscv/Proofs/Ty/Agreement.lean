import Mathlib
import FunRiscv.Proofs.Ty.Nesting

/-!
# Agreement of types

The dynamic type agrees with every type, so the unifier makes types equal only up to it.

* `Ty.Blurs`: the second type is the first with some of its parts replaced by the dynamic type.
* `Ty.Agrees`: two types are blurs of one type.  It is reflexive and symmetric but not transitive.
* `Ty.Agrees.bind`: agreement survives every substitution, even two different ones that agree.
* `Unifying.agrees_of_unify`: what was unified agrees under everything that makes the bindings true.
-/

namespace FunRiscv

namespace Ty

/-! ### Blurring -/

mutual

/-- The second type is the first with some of its parts replaced by the dynamic type. -/
def Blurs (t : Ty) : Ty → Prop
  | any => True
  | word w => t = word w
  | none => t = none
  | var v => t = var v
  | named n us => ∃ ts, t = named n ts ∧ BlursAll ts us
  | func q s => ∃ p r, t = func p r ∧ Blurs p q ∧ Blurs r s
  | tuple us => ∃ ts, t = tuple ts ∧ BlursAll ts us

/-- The types of the second list are those of the first with some parts replaced. -/
def BlursAll (ts : List Ty) : List Ty → Prop
  | [] => ts = []
  | u :: us => ∃ t rest, ts = t :: rest ∧ Blurs t u ∧ BlursAll rest us

end

/-- Two types are equal up to replacing parts of either by the dynamic type: both are
blurs of one type. -/
def Agrees (a b : Ty) : Prop := ∃ c, Blurs c a ∧ Blurs c b

theorem blursAll_iff {ts us : List Ty} : BlursAll ts us ↔ List.Forall₂ Blurs ts us := by
  induction us generalizing ts with
  | nil => simp [BlursAll]
  | cons u us ih =>
    rw [BlursAll, List.forall₂_cons_right_iff]
    constructor
    · rintro ⟨t, rest, rfl, ht, hrest⟩
      exact ⟨t, rest, ht, ih.1 hrest, rfl⟩
    · rintro ⟨t, rest, ht, hrest, rfl⟩
      exact ⟨t, rest, rfl, ht, ih.2 hrest⟩

theorem blurs_refl (t : Ty) : Blurs t t := by
  induction t using Ty.induction with
  | word | any | none | var => simp [Blurs]
  | named n args ih | tuple args ih =>
    simp only [Blurs]
    exact ⟨args, rfl, blursAll_iff.2 (List.forall₂_same.2 ih)⟩
  | func p r ihp ihr =>
    simp only [Blurs]
    exact ⟨p, r, rfl, ihp, ihr⟩

/-- Blurring survives substitution. -/
theorem Blurs.bind {f g : String → Ty} (hfg : ∀ v, Blurs (f v) (g v)) {t u : Ty} (h : Blurs t u) :
    Blurs (t.bind f) (u.bind g) := by
  have all : ∀ us : List Ty, (∀ u ∈ us, ∀ t, Blurs t u → Blurs (t.bind f) (u.bind g)) → ∀ ts,
      BlursAll ts us → BlursAll (ts.map (Ty.bind f)) (us.map (Ty.bind g)) := by
    intro us ih ts hts
    rw [blursAll_iff] at hts ⊢
    rw [List.forall₂_map_left_iff, List.forall₂_map_right_iff]
    induction hts with
    | nil => exact .nil
    | @cons t u ts us ht _ ihs =>
      exact .cons (ih u (by simp) t ht) (ihs fun u hu => ih u (by simp [hu]))
  induction u using Ty.induction generalizing t with
  | any => simp [Ty.bind, Blurs]
  | word | none =>
    obtain rfl := h
    simp [Ty.bind, Blurs]
  | var v =>
    obtain rfl := h
    exact hfg v
  | named n us ih | tuple us ih =>
    obtain ⟨ts, rfl, hts⟩ := h
    simp only [Ty.bind, bindList_eq_map, Blurs]
    exact ⟨_, rfl, all us (fun u hu t => ih u hu) ts hts⟩
  | func q s ihq ihs =>
    obtain ⟨p, r, rfl, hp, hr⟩ := h
    simp only [Ty.bind, Blurs]
    exact ⟨_, _, rfl, ihq hp, ihs hr⟩

theorem Blurs.trans {a b c : Ty} (hab : Blurs a b) (hbc : Blurs b c) : Blurs a c := by
  have all : ∀ cs : List Ty, (∀ c ∈ cs, ∀ a b, Blurs a b → Blurs b c → Blurs a c) → ∀ as bs,
      BlursAll as bs → BlursAll bs cs → BlursAll as cs := by
    intro cs ih as bs has hbs
    rw [blursAll_iff] at has hbs ⊢
    induction hbs generalizing as with
    | nil => exact has
    | @cons b c bs cs hb _ ihs =>
      obtain ⟨a, as, ha, hrest, rfl⟩ := List.forall₂_cons_right_iff.1 has
      exact .cons (ih c (by simp) a b ha hb) (ihs (fun c hc => ih c (by simp [hc])) as hrest)
  induction c using Ty.induction generalizing a b with
  | any => trivial
  | word | none | var =>
    obtain rfl := hbc
    exact hab
  | named n cs ih | tuple cs ih =>
    obtain ⟨bs, rfl, hbs⟩ := hbc
    obtain ⟨as, rfl, has⟩ := hab
    exact ⟨as, rfl, all cs (fun c hc a b => ih c hc) as bs has hbs⟩
  | func q s ihq ihs =>
    obtain ⟨p, r, rfl, hp, hr⟩ := hbc
    obtain ⟨p', r', rfl, hp', hr'⟩ := hab
    exact ⟨p', r', rfl, ihq hp' hp, ihs hr' hr⟩

/-! ### Agreement -/

theorem Agrees.refl (t : Ty) : Agrees t t := ⟨t, blurs_refl t, blurs_refl t⟩

theorem Agrees.symm {a b : Ty} (h : Agrees a b) : Agrees b a := by
  obtain ⟨c, ha, hb⟩ := h
  exact ⟨c, hb, ha⟩

theorem agrees_any_left (t : Ty) : Agrees any t := ⟨t, trivial, blurs_refl t⟩

theorem agrees_any_right (t : Ty) : Agrees t any := ⟨t, blurs_refl t, trivial⟩

/-- Agreement survives blurring, on either side. -/
theorem Agrees.blur {a b c : Ty} (h : Agrees a b) (hbc : Blurs b c) : Agrees a c := by
  obtain ⟨d, hda, hdb⟩ := h
  exact ⟨d, hda, hdb.trans hbc⟩

/-- Types that agree still do when their variables get types that agree. -/
theorem Agrees.bind {f g : String → Ty} (hfg : ∀ v, Agrees (f v) (g v)) {a b : Ty}
    (h : Agrees a b) : Agrees (a.bind f) (b.bind g) := by
  obtain ⟨c, ha, hb⟩ := h
  choose k hf hg using hfg
  exact ⟨c.bind k, ha.bind hf, hb.bind hg⟩

/-- Lists of types that agree are blurs of one list. -/
theorem exists_blurs_of_agrees {as bs : List Ty} (h : List.Forall₂ Agrees as bs) :
    ∃ cs, BlursAll cs as ∧ BlursAll cs bs := by
  induction h with
  | nil => exact ⟨[], rfl, rfl⟩
  | @cons a b as bs hab _ ih =>
    obtain ⟨c, ha, hb⟩ := hab
    obtain ⟨cs, has, hbs⟩ := ih
    exact ⟨c :: cs, ⟨c, cs, rfl, ha, has⟩, ⟨c, cs, rfl, hb, hbs⟩⟩

/-- Function types agree if their parts do. -/
theorem agrees_func_iff {p r q s : Ty} :
    Agrees (func p r) (func q s) ↔ Agrees p q ∧ Agrees r s := by
  constructor
  · rintro ⟨_, ⟨c, d, rfl, hcp, hdr⟩, ⟨_, _, ⟨rfl, rfl⟩, hcq, hds⟩⟩
    exact ⟨⟨c, hcp, hcq⟩, ⟨d, hdr, hds⟩⟩
  · rintro ⟨⟨c, hcp, hcq⟩, ⟨d, hdr, hds⟩⟩
    exact ⟨func c d, ⟨c, d, rfl, hcp, hdr⟩, ⟨c, d, rfl, hcq, hds⟩⟩

/-- Types with the same head agree if their children do. -/
theorem agrees_of_children {a b : Ty} (h : a.sameHead b = true)
    (hc : List.Forall₂ Agrees a.children b.children) : Agrees a b := by
  obtain ⟨cs, ha, hb⟩ := exists_blurs_of_agrees hc
  cases a with
  | word | any | none | var =>
    have heq := (eq_iff_children_of_sameHead h).2 (List.forall₂_nil_left_iff.1 hc).symm
    exact heq ▸ Agrees.refl _
  | named n as =>
    cases b with
    | named m bs =>
      obtain ⟨rfl, -⟩ : n = m ∧ as.length = bs.length := by simpa [sameHead] using h
      exact ⟨named n cs, ⟨cs, rfl, ha⟩, ⟨cs, rfl, hb⟩⟩
    | word | any | none | var | func | tuple => simp [sameHead] at h
  | func p r =>
    cases b with
    | func q s =>
      simp only [children, List.forall₂_cons, List.Forall₂.nil, and_true] at hc
      exact agrees_func_iff.2 hc
    | word | any | none | var | named | tuple => simp [sameHead] at h
  | tuple as =>
    cases b with
    | tuple bs => exact ⟨tuple cs, ⟨cs, rfl, ha⟩, ⟨cs, rfl, hb⟩⟩
    | word | any | none | var | named | func => simp [sameHead] at h

theorem sameHead_bind_of_ne_var {f : String → Ty} {a b : Ty} (ha : ∀ v, a ≠ var v)
    (h : a.sameHead b = true) : (a.bind f).sameHead (b.bind f) = true := by
  cases a <;> cases b <;> simp_all [bind, sameHead]

end Ty

/-! ### What was unified agrees -/

namespace Unifying

/-- Types agree under everything that makes the bindings of a later unifier true. -/
def AgreeAfter (u : Unifier) (a b : Ty) : Prop :=
  ∀ f, Subst.Respects f u.subst → Ty.Agrees (a.bind f) (b.bind f)

theorem AgreeAfter.later {u u' : Unifier} {a b : Ty} (h : AgreeAfter u a b) (hg : u.Grows u') :
    AgreeAfter u' a b :=
  fun f hf => h f (hg.coherent.triangular.respects_of_suffix hg.suffix hf)

theorem agree_forPairs {act : Ty → Ty → Unifying Unit}
    (hgrows : ∀ a b (u : Unifier), u.Coherent → u.Grows (exec (act a b) u).2)
    (hact : ∀ a b (u u' : Unifier), u.Coherent → exec (act a b) u = (.ok (), u') →
      AgreeAfter u' a b) :
    ∀ (as bs : List Ty) (u u' : Unifier), as.length = bs.length → u.Coherent →
      exec (forPairs act as bs) u = (.ok (), u') → List.Forall₂ (AgreeAfter u') as bs
  | [], [], _, _, _, _, _ => .nil
  | [], _ :: _, _, _, hlen, _, _ | _ :: _, [], _, _, hlen, _, _ => by simp at hlen
  | a :: as, b :: bs, u, u', hlen, hu, hrun => by
    rw [forPairs, exec_bind] at hrun
    have hab := hgrows a b u hu
    rcases hr : exec (act a b) u with ⟨_ | _, u₁⟩
    · simp [hr] at hrun
    · rw [hr] at hab hrun
      dsimp only at hab hrun
      have hrest := grows_forPairs hgrows as bs u₁ hab.coherent
      rw [hrun] at hrest
      exact .cons ((hact a b u u₁ hu hr).later hrest)
        (agree_forPairs hgrows hact as bs u₁ u' (by simpa using hlen) hab.coherent hrun)

theorem agrees_of_unifyWithin (fuel : Nat) (a b : Ty) (u u' : Unifier) (hu : u.Coherent)
    (hrun : exec (unifyWithin fuel a b) u = (.ok (), u')) : AgreeAfter u' a b := by
  induction fuel generalizing a b u u' with
  | zero =>
    rw [unifyWithin, exec_fail] at hrun
    simp at hrun
  | succ fuel ih =>
    intro f hf
    have hgrows := grows_unifyWithin (fuel + 1) a b u hu
    rw [hrun] at hgrows
    have hfu := hgrows.coherent.triangular.respects_of_suffix hgrows.suffix hf
    rw [← hfu.bind_apply hu.triangular a, ← hfu.bind_apply hu.triangular b]
    show Ty.Agrees ((u.apply a).bind f) ((u.apply b).bind f)
    have ho := exec_unifyWithin fuel a b u
    rw [hrun] at ho
    generalize u.apply a = a' at ho
    generalize u.apply b = b' at ho
    generalize hr : (Except.ok (), u') = r at ho
    cases ho with
    | limited | cyclic | clash => simp at hr
    | same v ha hb =>
      rw [ha, hb]
      exact .refl _
    | bound v t hv hab hocc =>
      have hu' : u' = { u.tick with subst := u.subst.insert v t } := (Prod.mk.inj hr).2
      have hbound : f v = t.bind f := by
        refine hf v t ?_
        rw [hu']
        exact Subst.lookup_cons_self v t _
      rcases hab with ⟨ha, hb⟩ | ⟨ha, hb⟩
      · rw [ha, hb, ← hbound]
        exact .refl _
      · rw [ha, hb, ← hbound]
        exact .refl _
    | dynamic hab =>
      rcases hab with rfl | rfl
      · exact Ty.agrees_any_left _
      · exact Ty.agrees_any_right _
    | pairs ha hb hhead =>
      by_cases hvar : ∃ v, a' = .var v
      · obtain ⟨v, rfl⟩ := hvar
        obtain rfl : b' = .var v := by
          cases b' <;> simp_all [Ty.sameHead]
        exact .refl _
      · have hne : ∀ v, a' ≠ .var v := fun v h => hvar ⟨v, h⟩
        have hne' : ∀ v, b' ≠ .var v := by
          rintro v rfl
          cases a' <;> simp_all [Ty.sameHead]
        have hpairs := agree_forPairs (grows_unifyWithin fuel) (fun a b u u' => ih a b u u') _ _ _ _
          (Ty.length_children_of_sameHead hhead) hu.grows_tick.coherent hr.symm
        refine Ty.agrees_of_children (Ty.sameHead_bind_of_ne_var hne hhead) ?_
        rw [Ty.children_bind_of_ne_var hne, Ty.children_bind_of_ne_var hne',
          List.forall₂_map_left_iff, List.forall₂_map_right_iff]
        exact hpairs.imp fun _ _ h => h f hf

/-- What was unified agrees under everything that makes the bindings true, now and later. -/
theorem agrees_of_unify {a b : Ty} {u u' : Unifier} (hu : u.Coherent)
    (hrun : exec (unify a b) u = (.ok (), u')) : AgreeAfter u' a b := by
  refine agrees_of_unifyWithin (a.size + b.size + u.subst.size + 1) a b u u' hu ?_
  rw [← hrun]
  rfl

end Unifying

end FunRiscv
