import Mathlib
import FunRiscv.Alloc.LiveRange

/-!
# Ranges that conflict

Two live ranges conflict unless one of them ends where the other starts, or before. With distinct
starts, ranges conflict pairwise exactly if the one that starts last starts inside all others
(`LiveRange.crowded_succ_iff`).

Ranges are visited in the order in which they start, and of those that do not fit the one that ends
last is dropped. What is kept so is the best choice in a strong sense: at every place at least as
many of the kept ranges have ended as of any other choice that fits.

* `LiveRange.Crowded`: some number of ranges conflict pairwise.
* `LiveRange.Best`: the invariant.  `LiveRange.Best.keep` and `LiveRange.Best.drop`: its two steps.
* `LiveRange.Best.isLeast`: no other choice drops fewer ranges.
-/

namespace FunRiscv.LiveRange

/-- Two ranges conflict unless one of them ends where the other starts, or before. -/
def Conflicts (v w : LiveRange) : Prop := ¬(v.stop ≤ w.start ∨ w.stop ≤ v.start)

instance : DecidableRel Conflicts :=
  fun v w => inferInstanceAs (Decidable (¬(v.stop ≤ w.start ∨ w.stop ≤ v.start)))

/-- Among the ranges are `n` that conflict pairwise. -/
def Crowded (n : Nat) (s : Finset LiveRange) : Prop :=
  ∃ crowd ⊆ s, crowd.card = n ∧ (crowd : Set LiveRange).Pairwise Conflicts

theorem Crowded.mono {n : Nat} {s t : Finset LiveRange} (h : Crowded n s) (hst : s ⊆ t) :
    Crowded n t := by
  obtain ⟨crowd, hsub, hcard, hpair⟩ := h
  exact ⟨crowd, hsub.trans hst, hcard, hpair⟩

/-- The ranges that a range starts inside of. -/
def around (s : Finset LiveRange) (w : LiveRange) : Finset LiveRange :=
  {v ∈ s | v.start < w.start ∧ w.start < v.stop}

/-- Ranges with distinct starts, none of which ends before its start. -/
structure Proper (s : Finset LiveRange) : Prop where
  starts : ∀ v ∈ s, ∀ w ∈ s, v.start = w.start → v = w
  forward : ∀ v ∈ s, v.start ≤ v.stop

theorem Proper.subset {s t : Finset LiveRange} (h : Proper t) (hst : s ⊆ t) : Proper s where
  starts v hv w hw := h.starts v (hst hv) w (hst hw)
  forward v hv := h.forward v (hst hv)

variable {n : Nat} {s : Finset LiveRange}

/-- Ranges conflict pairwise if the one that starts last starts inside all others. -/
theorem crowded_succ_iff (hs : Proper s) : Crowded (n + 1) s ↔ ∃ w ∈ s, n ≤ (around s w).card := by
  constructor
  · rintro ⟨crowd, hsub, hcard, hpair⟩
    have hne : crowd.Nonempty := Finset.card_pos.1 (by omega)
    obtain ⟨w, hw, hlast⟩ := crowd.exists_max_image (·.start) hne
    refine ⟨w, hsub hw, ?_⟩
    have hinside : crowd.erase w ⊆ around s w := by
      intro v hv
      obtain ⟨hvw, hv⟩ := Finset.mem_erase.1 hv
      have hstart : v.start ≠ w.start := fun h => hvw (hs.starts v (hsub hv) w (hsub hw) h)
      have hconflict := hpair hv hw hvw
      have hle := hlast v hv
      simp only [Conflicts, not_or, Nat.not_le] at hconflict
      exact Finset.mem_filter.2 ⟨hsub hv, by omega, hconflict.1⟩
    have := Finset.card_le_card hinside
    rw [Finset.card_erase_of_mem hw] at this
    omega
  · rintro ⟨w, hw, hcard⟩
    obtain ⟨inside, hsub, hinside⟩ := Finset.exists_subset_card_eq hcard
    have haround : ∀ v ∈ inside, v.start < w.start ∧ w.start < v.stop :=
      fun v hv => (Finset.mem_filter.1 (hsub hv)).2
    have hfresh : w ∉ inside := fun hmem => absurd (haround w hmem).1 (Nat.lt_irrefl _)
    have hforward := hs.forward w hw
    refine ⟨insert w inside, Finset.insert_subset hw (hsub.trans (Finset.filter_subset _ _)),
      ?_, ?_⟩
    · rw [Finset.card_insert_of_notMem hfresh, hinside]
    · intro v hv u hu hne
      rw [Finset.coe_insert, Set.mem_insert_iff, Finset.mem_coe] at hv hu
      simp only [Conflicts, not_or, Nat.not_le]
      rcases hv with rfl | hv <;> rcases hu with rfl | hu
      · exact absurd rfl hne
      · have := haround u hu
        omega
      · have := haround v hv
        omega
      · have := haround v hv
        have := haround u hu
        omega

/-! ### The best choice -/

/-- How many of the ranges have ended at a place. -/
def ended (s : Finset LiveRange) (place : Nat) : Nat := {v ∈ s | v.stop ≤ place}.card

/-- The ranges that have not ended at a place. -/
def alive (s : Finset LiveRange) (place : Nat) : Finset LiveRange := {v ∈ s | place < v.stop}

theorem ended_add_card_alive (s : Finset LiveRange) (place : Nat) :
    ended s place + (alive s place).card = s.card := by
  simp only [ended, alive, ← Nat.not_le]
  exact Finset.card_filter_add_card_filter_not _

theorem ended_le_card (s : Finset LiveRange) (place : Nat) : ended s place ≤ s.card :=
  Finset.card_filter_le _ _

theorem ended_eq_card {place : Nat} (h : ∀ v ∈ s, v.stop ≤ place) : ended s place = s.card := by
  rw [ended, Finset.filter_true_of_mem h]

theorem ended_insert {w : LiveRange} (hw : w ∉ s) (place : Nat) :
    ended (insert w s) place = ended s place + if w.stop ≤ place then 1 else 0 := by
  unfold ended
  rw [Finset.filter_insert]
  split
  · rw [Finset.card_insert_of_notMem fun h => hw (Finset.mem_of_mem_filter w h)]
  · rfl

theorem ended_le_erase (s : Finset LiveRange) (w : LiveRange) (place : Nat) :
    ended s place ≤ ended (s.erase w) place + if w.stop ≤ place then 1 else 0 := by
  rw [← ended_insert (Finset.notMem_erase w s)]
  exact Finset.card_le_card (Finset.filter_subset_filter _ (Finset.insert_erase_subset w s))

/-- The kept ranges fit: no more than `n` of them conflict pairwise. Of the ranges of no other
choice that fits have more ended, at any place. -/
structure Best (n : Nat) (done kept : Finset LiveRange) : Prop where
  subset : kept ⊆ done
  fits : ¬Crowded (n + 1) kept
  leads : ∀ s ⊆ done, ¬Crowded (n + 1) s → ∀ place, ended s place ≤ ended kept place

theorem best_empty (n : Nat) : Best n ∅ ∅ where
  subset := Finset.Subset.refl _
  fits := by
    rintro ⟨crowd, hsub, hcard, -⟩
    rw [Finset.subset_empty.1 hsub] at hcard
    simp at hcard
  leads := fun s hs _ place => by rw [Finset.subset_empty.1 hs]

/-- No other choice that fits keeps more ranges. -/
theorem Best.card_le {done kept : Finset LiveRange} (h : Best n done kept) (hs : s ⊆ done)
    (hfits : ¬Crowded (n + 1) s) : s.card ≤ kept.card := by
  -- A place where all ranges have ended.
  have hlast : ∀ v ∈ s, v.stop ≤ s.sup (·.stop) := fun v hv => Finset.le_sup (f := (·.stop)) hv
  calc
    s.card = ended s (s.sup (·.stop)) := (ended_eq_card hlast).symm
    _ ≤ ended kept (s.sup (·.stop)) := h.leads s hs hfits _
    _ ≤ kept.card := ended_le_card kept _

/-- The ranges visited so far, the kept ones among them, and the next range to visit. -/
structure Visit (n : Nat) (done kept : Finset LiveRange) (w : LiveRange) : Prop where
  best : Best n done kept
  proper : Proper (insert w done)
  later : ∀ v ∈ done, v.start < w.start

namespace Visit

variable {done kept : Finset LiveRange} {w : LiveRange}

theorem not_mem (h : Visit n done kept w) : w ∉ done :=
  fun hmem => absurd (h.later w hmem) (Nat.lt_irrefl _)

theorem forward (h : Visit n done kept w) : w.start ≤ w.stop :=
  h.proper.forward w (Finset.mem_insert_self w done)

theorem kept_subset (h : Visit n done kept w) : kept ⊆ insert w done :=
  h.best.subset.trans (Finset.subset_insert w done)

/-- The new range starts inside those of a choice that have not ended. -/
theorem around_eq (h : Visit n done kept w) (hs : s ⊆ insert w done) :
    around s w = alive (s.erase w) w.start := by
  ext v
  simp only [around, alive, Finset.mem_filter, Finset.mem_erase]
  constructor
  · rintro ⟨hv, hstart, hstop⟩
    exact ⟨⟨fun heq => absurd (heq ▸ hstart) (Nat.lt_irrefl _), hv⟩, hstop⟩
  · rintro ⟨⟨hne, hv⟩, hstop⟩
    exact ⟨hv, h.later v ((Finset.mem_insert.1 (hs hv)).resolve_left hne), hstop⟩

/-- A choice among the kept ranges and the new one fits if the new one fits into it. -/
theorem fits (h : Visit n done kept w) (hs : s ⊆ insert w kept)
    (hw : w ∈ s → (alive (s.erase w) w.start).card < n) : ¬Crowded (n + 1) s := by
  have hsub : s ⊆ insert w done := hs.trans (Finset.insert_subset_insert w h.best.subset)
  rw [crowded_succ_iff (h.proper.subset hsub)]
  rintro ⟨u, hu, hcard⟩
  rcases Finset.mem_insert.1 (hs hu) with rfl | hkept
  · rw [h.around_eq hsub] at hcard
    exact absurd hcard (Nat.not_le.2 (hw hu))
  · refine h.best.fits ((crowded_succ_iff (h.proper.subset h.kept_subset)).2 ⟨u, hkept,
      hcard.trans (Finset.card_le_card ?_)⟩)
    intro v hv
    obtain ⟨hv, hstart, hstop⟩ := Finset.mem_filter.1 hv
    have hlater := h.later u (h.best.subset hkept)
    refine Finset.mem_filter.2 ⟨(Finset.mem_insert.1 (hs hv)).resolve_left ?_, hstart, hstop⟩
    rintro rfl
    omega

/-- No choice that fits is ahead of the kept ranges with the new one. -/
theorem ended_le (h : Visit n done kept w) (hs : s ⊆ insert w done) (hfits : ¬Crowded (n + 1) s)
    (place : Nat) : ended s place ≤ ended (insert w kept) place := by
  have hold := h.best.leads (s.erase w) (Finset.subset_insert_iff.1 hs)
    (fun hc => hfits (hc.mono (Finset.erase_subset w s))) place
  rw [ended_insert (fun hmem => h.not_mem (h.best.subset hmem))]
  exact (ended_le_erase s w place).trans (Nat.add_le_add_right hold _)

/-- If fewer than `n` kept ranges have not ended, the new one fits. -/
theorem keep (h : Visit n done kept w) (hroom : (alive kept w.start).card < n) :
    Best n (insert w done) (insert w kept) where
  subset := Finset.insert_subset_insert w h.best.subset
  fits := by
    refine h.fits (Finset.Subset.refl _) fun _ => ?_
    rwa [Finset.erase_insert fun hmem => h.not_mem (h.best.subset hmem)]
  leads := fun _ hs hfits => h.ended_le hs hfits

/-- If `n` kept ranges have not ended, no choice that fits keeps more ranges. -/
theorem card_le (h : Visit n done kept w) (hfull : (alive kept w.start).card = n)
    (hs : s ⊆ insert w done) (hfits : ¬Crowded (n + 1) s) : s.card ≤ kept.card := by
  have hold : s.erase w ⊆ done := Finset.subset_insert_iff.1 hs
  have hfits' : ¬Crowded (n + 1) (s.erase w) := fun hc => hfits (hc.mono (Finset.erase_subset w s))
  by_cases hw : w ∈ s
  · have hinside : (alive (s.erase w) w.start).card < n := by
      rw [← h.around_eq hs]
      by_contra hge
      exact hfits ((crowded_succ_iff (h.proper.subset hs)).2 ⟨w, hw, Nat.not_lt.1 hge⟩)
    have hlead := h.best.leads (s.erase w) hold hfits' w.start
    have hsplit := ended_add_card_alive (s.erase w) w.start
    have hsplit' := ended_add_card_alive kept w.start
    have hcard := Finset.card_erase_add_one hw
    omega
  · rw [← Finset.erase_eq_of_notMem hw]
    exact h.best.card_le hold hfits'

/-- If `n` kept ranges have not ended, one that ends last among them and the new one is dropped. -/
theorem drop (h : Visit n done kept w) (hfull : (alive kept w.start).card = n) {x : LiveRange}
    (hx : x ∈ insert w (alive kept w.start))
    (hlast : ∀ v ∈ insert w (alive kept w.start), v.stop ≤ x.stop) :
    Best n (insert w done) ((insert w kept).erase x) where
  subset := (Finset.erase_subset x _).trans (Finset.insert_subset_insert w h.best.subset)
  fits := by
    refine h.fits (Finset.erase_subset x _) fun hw => ?_
    -- The new range is kept, so an old one is dropped, and one less is left that has not ended.
    have hxw : x ≠ w := (Finset.ne_of_mem_erase hw).symm
    have hxkept := (Finset.mem_insert.1 hx).resolve_left hxw
    have hsub : alive (((insert w kept).erase x).erase w) w.start ⊆
      (alive kept w.start).erase x := by
      intro v hv
      simp only [alive, Finset.mem_filter, Finset.mem_erase, Finset.mem_insert] at hv ⊢
      tauto
    have hcard := Finset.card_le_card hsub
    have herase := Finset.card_erase_add_one hxkept
    omega
  leads := by
    intro s hs hfits place
    rcases Nat.lt_or_ge place x.stop with hbefore | hafter
    · -- The dropped range would not have ended yet.
      have hsame : ended ((insert w kept).erase x) place = ended (insert w kept) place := by
        unfold ended
        congr 1
        ext v
        simp only [Finset.mem_filter, Finset.mem_erase]
        refine ⟨fun hv => ⟨hv.1.2, hv.2⟩, fun hv => ⟨⟨?_, hv.1⟩, hv.2⟩⟩
        rintro rfl
        omega
      rw [hsame]
      exact h.ended_le hs hfits place
    · -- All kept ranges have ended.
      have hmem : x ∈ insert w kept := Finset.insert_subset_insert w (Finset.filter_subset _ _) hx
      have hcard : ((insert w kept).erase x).card = kept.card := by
        rw [Finset.card_erase_of_mem hmem,
          Finset.card_insert_of_notMem fun hmem => h.not_mem (h.best.subset hmem)]
        rfl
      have hended : ∀ v ∈ (insert w kept).erase x, v.stop ≤ place := by
        intro v hv
        have hw := hlast w (Finset.mem_insert_self w _)
        rcases Finset.mem_insert.1 (Finset.mem_of_mem_erase hv) with rfl | hv
        · omega
        · by_cases halive : w.start < v.stop
          · have := hlast v (Finset.mem_insert_of_mem (Finset.mem_filter.2 ⟨hv, halive⟩))
            omega
          · have := h.forward
            omega
      calc
        ended s place ≤ s.card := ended_le_card s place
        _ ≤ kept.card := h.card_le hfull hs hfits
        _ = ended ((insert w kept).erase x) place := by rw [ended_eq_card hended, hcard]

end Visit

/-- The kept ranges are all but the least number whose removal leaves a choice that fits. -/
theorem Best.isLeast {done kept : Finset LiveRange} (h : Best n done kept) :
    IsLeast {m | ∃ removed ⊆ done, removed.card = m ∧ ¬Crowded (n + 1) (done \ removed)}
      (done.card - kept.card) := by
  constructor
  · refine ⟨done \ kept, Finset.sdiff_subset, Finset.card_sdiff_of_subset h.subset, ?_⟩
    rw [Finset.sdiff_sdiff_eq_self h.subset]
    exact h.fits
  · rintro m ⟨removed, hsub, rfl, hfits⟩
    have hle := h.card_le Finset.sdiff_subset hfits
    rw [Finset.card_sdiff_of_subset hsub] at hle
    omega

end FunRiscv.LiveRange
