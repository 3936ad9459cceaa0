import AdaptiveQF.Canonical
import Mathlib.Data.Set.Card

/-! What `run_end`, `block_offset` and `find_first_empty_slot` return on a layout. -/
namespace AdaptiveQF
open RunLayout

def Contents.lastSlot (A : Contents) (a : Nat) : Nat := start A.lens a + A.lens a - 1

/-- `r` is the end of the last run that begins at or before bucket `b`, or `b` itself. -/
structure IsRunEnd (qf : QF) (A : Contents) (b r : Nat) : Prop where
  occupied : ∀ a, a ≤ b → isOccupied qf a = true →
    (∀ c, a < c → c ≤ b → isOccupied qf c = false) → r = max b (A.lastSlot a)
  none : (∀ a, a ≤ b → isOccupied qf a = false) → r = b

def Contents.spilled (A : Contents) (j : Nat) : Set Nat :=
  {s | 64*j ≤ s ∧ ∃ a, a < 64*j ∧ Owns A.lens a s}

section
variable {qf : QF} {A : Contents}

theorem IsRunEnd.unique {b r r' : Nat} (h : IsRunEnd qf A b r) (h' : IsRunEnd qf A b r') :
    r = r' := by
  by_cases hnone : ∀ a, a ≤ b → isOccupied qf a = false
  · rw [h.none hnone, h'.none hnone]
  · -- the greatest occupied bucket
    have hex : ∃ k, k ≤ b ∧ isOccupied qf (b - k) = true := by
      push Not at hnone
      obtain ⟨a, ha, ho⟩ := hnone
      refine ⟨b - a, by omega, ?_⟩
      rw [Nat.sub_sub_self ha]
      simpa using ho
    obtain ⟨hk, ho⟩ := Nat.find_spec hex
    have hlast : ∀ c, b - Nat.find hex < c → c ≤ b → isOccupied qf c = false := by
      intro c h1 h2
      have hmin := Nat.find_min hex (m := b - c) (by omega)
      rw [Nat.sub_sub_self h2] at hmin
      simpa using fun hc => hmin ⟨by omega, hc⟩
    rw [h.occupied _ (by omega) ho hlast, h'.occupied _ (by omega) ho hlast]

theorem Layout.isOccupied_iff (h : Layout qf A) (b : Nat) :
    isOccupied qf b = true ↔ 0 < A.lens b := by
  have hocc : isOccupied qf b = decide (A b ≠ []) := h.occupied b
  rw [hocc, decide_eq_true_eq, Contents.lens_pos]

theorem Layout.isOccupied_false (h : Layout qf A) {b : Nat} (hb : isOccupied qf b = false) :
    A.lens b = 0 := by
  have hn := (h.isOccupied_iff b).not.mp (by simp [hb])
  omega

theorem Layout.isRunEnd (h : Layout qf A) (b : Nat) : IsRunEnd qf A b (start A.lens (b+1) - 1) := by
  constructor
  · intro a hab hocc hlast
    have hpos := (h.isOccupied_iff a).mp hocc
    have hends : ends A.lens (b+1) = start A.lens a + A.lens a := by
      rw [ends_eq_of_gap (a := a+1) (by omega)
        fun c h1 h2 => h.isOccupied_false (hlast c (by omega) (by omega))]
      exact ends_succ_of_pos hpos
    have hst : start A.lens (b+1) = max (b+1) (start A.lens a + A.lens a) := by
      rw [← hends]
      rfl
    unfold Contents.lastSlot
    omega
  · intro hnone
    have hends : ends A.lens (b+1) = 0 := by
      rw [ends_eq_of_gap (a := 0) (by omega)
        fun c _ hc => h.isOccupied_false (hnone c (by omega))]
      rfl
    have hst : start A.lens (b+1) = max (b+1) (ends A.lens (b+1)) := rfl
    omega

theorem Contents.ncard_spilled (A : Contents) (j : Nat) :
    (A.spilled j).ncard = spill A.lens (64*j) := by
  have hset : A.spilled j = ↑(Finset.Ico (64*j) (64*j + spill A.lens (64*j))) := by
    ext s
    rw [Finset.coe_Ico, Set.mem_Ico, mem_spill]
    rfl
  rw [hset, Set.ncard_coe_finset, Nat.card_Ico, Nat.add_sub_cancel_left]

end

/-! `run_end` and `block_offset`, also where block offsets are saturated. Behind the last item of a
run that ends with the last block, they read a bit that no block of the filter holds. -/

structure Twin (qf q : QF) (A : Contents) : Prop where
  layout : Layout q A
  metadata : q.metadata = qf.metadata
  blocks : ∀ j < qf.metadata.nblocks, getBlock q j = getBlock qf j

/-- The blocks of the filter are a layout of `A`. The memory behind them holds anything. -/
def LaidOut (qf : QF) (A : Contents) : Prop := ∃ q, Twin qf q A

def QF.endSlot (qf : QF) : Nat := 64 * qf.metadata.nblocks

/-- The runs up to bucket `b` end with the last block, and the bit behind it is read and set. It is
not read if the block of `b` has no run up to `b` and knows its offset. -/
structure RunEndStrays (qf : QF) (A : Contents) (b : Nat) : Prop where
  bit : isExtensionOrCounter qf qf.endSlot = true
  ends : ends A.lens (b+1) = qf.endSlot
  reads : (∃ a, 64*(b/64) ≤ a ∧ a ≤ b ∧ A a ≠ []) ∨ 255 ≤ qf.endSlot - 64*(b/64)

structure OffsetStrays (qf : QF) (A : Contents) (j : Nat) : Prop where
  bit : isExtensionOrCounter qf qf.endSlot = true
  ends : ends A.lens (64*j) = qf.endSlot
  saturated : 255 ≤ qf.endSlot - 64*j

section
variable {qf q : QF} {A : Contents} {n i m p b j fuel block ignore rank : Nat}

theorem le_selectRunend (h : selectRunend q fuel block ignore rank = some p) : 64*block ≤ p := by
  induction fuel generalizing block ignore rank with
  | zero => cases h
  | succ fuel ih =>
    simp only [selectRunend] at h
    split at h
    · have := ih h
      omega
    · have := Option.some.inj h
      omega

theorem selectRunend_agree (hg : ∀ j < n, getBlock q j = getBlock qf j)
    (h : selectRunend q fuel block ignore rank = some p) (hp : p < 64*n) :
    selectRunend qf fuel block ignore rank = some p := by
  induction fuel generalizing block ignore rank with
  | zero => cases h
  | succ fuel ih =>
    have hle := le_selectRunend h
    have hword : runendWord qf block = runendWord q block := by
      rw [runendWord, runendWord, hg block (by omega)]
    simp only [selectRunend] at h ⊢
    rw [hword]
    split at h
    · next hnone =>
      rw [if_pos hnone]
      exact ih h
    · next hsome =>
      rw [if_neg hsome]
      exact h

/-- The skip over extensions stops at the same slot as in the other filter, or goes on behind it. -/
theorem skipExtensions_agree (h : skipExtensions q fuel i = some m)
    (hbits : ∀ s < m, extensionBit q s = extensionBit qf s) :
    (extensionBit qf m = false → skipExtensions qf fuel i = some m) ∧
      (extensionBit qf m = true → ∀ k, skipExtensions qf fuel i = some k → m < k) := by
  induction fuel generalizing i with
  | zero => cases h
  | succ fuel ih =>
    have hle := le_skipExtensions h
    simp only [skipExtensions] at h ⊢
    by_cases hext : isExtensionOrCounter q i = true
    · rw [if_pos hext] at h
      have hlt : i + 1 ≤ m := le_skipExtensions h
      have hext2 : isExtensionOrCounter qf i = true := (hbits i (by omega)).symm.trans hext
      rw [if_pos hext2]
      exact ih h
    · rw [if_neg hext] at h
      obtain rfl := Option.some.inj h
      refine ⟨fun hbit => if_neg (by simp [isExtensionOrCounter, hbit]), fun hbit k hk => ?_⟩
      rw [if_pos (show isExtensionOrCounter qf i = true from hbit)] at hk
      exact le_skipExtensions hk

theorem offsetStrays_iff (hsat : 255 ≤ ends A.lens (64*j) - 64*j) : OffsetStrays qf A j ↔
    isExtensionOrCounter qf qf.endSlot = true ∧ ends A.lens (64*j) = qf.endSlot := by
  constructor
  · exact fun hs => ⟨hs.bit, hs.ends⟩
  · rintro ⟨hbit, hends⟩
    exact ⟨hbit, hends, by rw [← hends]; exact hsat⟩

/-- No run begins in the block: its own offset decides. -/
theorem blockOffset_of_gap (hsat : ¬ (getBlock qf (j+1)).offset < 255)
    (hr : bitrank (getBlock qf ((64*j + 63)/64)).occupieds ((64*j + 63) % 64) = 0) :
    blockOffset qf (j+1) = (blockOffset qf j).map fun off => off - 64 := by
  rw [blockOffset, if_neg hsat]
  cases blockOffset qf j with
  | none => rfl
  | some off =>
    simp only [runEndFrom_of_gap hr, Option.bind_eq_bind, Option.bind_some, Option.map_some,
      Option.some.injEq]
    omega

theorem le_runEndFrom {off r : Nat} (h : runEndFrom qf off b = some r) : b ≤ r := by
  by_cases hr : bitrank (getBlock qf (b/64)).occupieds (b % 64) = 0
  · rw [runEndFrom_of_gap hr, Option.some.injEq] at h
    omega
  · simp only [runEndFrom, if_neg hr, Option.bind_eq_bind, Option.bind_eq_some_iff] at h
    obtain ⟨_, -, next, -, h⟩ := h
    split at h <;> have := Option.some.inj h <;> omega

theorem blockOffset_of_run {off r : Nat} (hsat : ¬ (getBlock qf (j+1)).offset < 255)
    (hoff : blockOffset qf j = some off) (hr : 64*(j+1) ≤ r) :
    blockOffset qf (j+1) = some (r - 64*(j+1)) ↔ runEndFrom qf off (64*j + 63) = some (r - 1) := by
  rw [blockOffset, if_neg hsat, hoff, Option.bind_eq_bind, Option.bind_some]
  cases hend : runEndFrom qf off (64*j + 63) with
  | none => simp
  | some r' =>
    have hle := le_runEndFrom hend
    simp only [Option.bind_some, Option.some.injEq]
    omega

namespace Twin

theorem extensionBit_eq (h : Twin qf q A) {s : Nat} (hs : s < qf.endSlot) :
    extensionBit q s = extensionBit qf s := by
  unfold QF.endSlot at hs
  rw [extensionBit, extensionBit, h.blocks (s/64) (by omega)]

theorem row (h : Twin qf q A) : Row q A.runs := h.layout.row

theorem ends_le (h : Twin qf q A) (b : Nat) : ends A.lens b ≤ qf.endSlot := by
  have hle := h.row.ends_le b
  have hblocks := h.row.blocks
  rw [Contents.lens_runs] at hle
  rw [h.metadata] at hblocks
  exact hle.trans hblocks

/-- The rank of the bucket among the occupied ones of its block says whether there is a run. -/
theorem rank_iff (h : Twin qf q A) (b : Nat) :
    bitrank (getBlock q (b/64)).occupieds (b % 64) ≠ 0 ↔
      ∃ a, 64*(b/64) ≤ a ∧ a ≤ b ∧ A a ≠ [] := by
  have hrank := h.row.bitrank_occupieds b
  rw [Contents.lens_runs] at hrank
  constructor
  · intro hr
    obtain ⟨a, h1, h2, hpos, -⟩ := @exists_last_pos A.lens (64*(b/64)) b (by omega) (by omega)
    exact ⟨a, h1, h2, Contents.lens_pos.mp hpos⟩
  · rintro ⟨a, h1, h2, hA⟩ hr
    have hzero := @gap_of_count_eq A.lens (64*(b/64)) (b+1) (by omega) a h1 (by omega)
    have hpos := Contents.lens_pos.mpr hA
    omega

theorem ends_of_gap (h : Twin qf q A) (hr : bitrank (getBlock q (b/64)).occupieds (b % 64) = 0) :
    ends A.lens (b+1) = ends A.lens (64*(b/64)) := by
  refine ends_eq_of_gap (by omega) fun d h1 h2 => ?_
  by_contra hd
  refine (h.rank_iff b).mpr ⟨d, h1, by omega, ?_⟩ hr
  exact Contents.lens_pos.mp (by omega)

theorem ends_of_run (h : Twin qf q A) (hr : bitrank (getBlock q (b/64)).occupieds (b % 64) ≠ 0) :
    ends A.lens (64*(b/64)) < ends A.lens (b+1) := by
  obtain ⟨a, h1, h2, hA⟩ := (h.rank_iff b).mp hr
  have hpos := Contents.lens_pos.mpr hA
  have hend := ends_succ_of_pos hpos
  have hlow := @ends_mono A.lens _ _ h1
  have hhigh := @ends_mono A.lens (a+1) (b+1) (by omega)
  unfold start at hend
  omega

theorem runEndFrom_iff (h : Twin qf q A) (hb : b < qf.endSlot)
    (hr : bitrank (getBlock q (b/64)).occupieds (b % 64) ≠ 0) :
    runEndFrom qf (spill A.lens (64*(b/64))) b = some (start A.lens (b+1) - 1) ↔
      ¬ (isExtensionOrCounter qf qf.endSlot = true ∧ ends A.lens (b+1) = qf.endSlot) := by
  have hfuel : q.fuel = qf.fuel := by rw [QF.fuel, QF.fuel, h.metadata]
  have hblock := h.blocks (b/64) (by unfold QF.endSlot at hb; omega)
  have hle := h.ends_le (b+1)
  have hst : start A.lens (b+1) = max (b+1) (ends A.lens (b+1)) := rfl
  obtain ⟨p, hsel, hskip⟩ := h.row.runEnd_loops b hr
  rw [Contents.lens_runs, hfuel] at hsel hskip
  have hp := le_skipExtensions hskip
  obtain ⟨hstop, hgo⟩ := skipExtensions_agree hskip
    fun s hs => h.extensionBit_eq (hs.trans_le hle)
  have hsel2 := selectRunend_agree h.blocks hsel (by unfold QF.endSlot at hle; omega)
  rw [hblock] at hr hsel2
  rw [runEndFrom_of_run hr hsel2]
  -- the bit behind the end of the runs is set in no block
  have hclear : ends A.lens (b+1) < qf.endSlot → extensionBit qf (ends A.lens (b+1)) = false := by
    intro hlt
    rw [← h.extensionBit_eq hlt]
    have hself : _ → ∀ k, skipExtensions q _ _ = some k → _ :=
      (skipExtensions_agree hskip fun _ _ => rfl).2
    by_contra hset
    exact absurd (hself (by simpa using hset) _ hskip) (Nat.lt_irrefl _)
  constructor
  · rintro hend ⟨hbit, heq⟩
    obtain ⟨k, hk, hret⟩ := Option.map_eq_some_iff.mp hend
    have hlt := hgo (by rw [heq]; exact hbit) k hk
    omega
  · intro hno
    have hbit : extensionBit qf (ends A.lens (b+1)) = false := by
      by_cases heq : ends A.lens (b+1) = qf.endSlot
      · have hset : ¬ isExtensionOrCounter qf qf.endSlot = true := fun hset => hno ⟨hset, heq⟩
        rw [heq]
        simpa [isExtensionOrCounter] using hset
      · exact hclear (by omega)
    rw [hstop hbit, Option.map_some, hst]
    congr 1
    omega

theorem offset_eq (h : Twin qf q A) (hj : j < qf.metadata.nblocks) :
    (getBlock qf j).offset = min 255 (spill A.lens (64*j)) := by
  have hoff := h.layout.offsets j
  rw [Contents.lens_runs] at hoff
  rw [← h.blocks j hj]
  exact hoff

theorem blockOffset_iff (h : Twin qf q A) (hj : j < qf.metadata.nblocks) :
    blockOffset qf j = some (spill A.lens (64*j)) ↔ ¬ OffsetStrays qf A j := by
  have hoff := h.offset_eq hj
  induction j with
  | zero =>
    have hzero : spill A.lens (64*0) = 0 := rfl
    rw [hzero] at hoff ⊢
    refine iff_of_true (by simp [blockOffset, hoff]) fun hs => ?_
    have hend : 0 = qf.endSlot := hs.ends
    have := hs.saturated
    omega
  | succ j ih =>
    have hspill : spill A.lens (64*(j+1)) = ends A.lens (64*(j+1)) - 64*(j+1) := rfl
    have hb : (64*j + 63) / 64 = j := by omega
    have h64 : 64*j + 63 + 1 = 64*(j+1) := by omega
    by_cases hsat : (getBlock qf (j+1)).offset < 255
    · -- the stored offset is right
      rw [blockOffset, if_pos hsat, hoff, Nat.min_eq_right (by omega)]
      refine iff_of_true rfl fun hs => ?_
      have hsaturated := hs.saturated
      rw [← hs.ends] at hsaturated
      omega
    · have hbefore := ih (by omega) (h.offset_eq (by omega))
      rw [offsetStrays_iff (by omega)]
      by_cases hr : bitrank (getBlock q ((64*j + 63)/64)).occupieds ((64*j + 63) % 64) = 0
      · have hgap := h.ends_of_gap hr
        rw [hb, h64] at hgap
        have hspill2 : spill A.lens (64*j) = ends A.lens (64*j) - 64*j := rfl
        rw [h.blocks _ (by omega)] at hr
        rw [blockOffset_of_gap hsat hr, hgap, ← offsetStrays_iff (by omega)]
        refine Iff.trans ?_ hbefore
        cases blockOffset qf j with
        | none => simp
        | some off =>
          simp only [Option.map_some, Option.some.injEq]
          omega
      · have hrun := h.ends_of_run hr
        have hle := h.ends_le (64*(j+1))
        rw [hb, h64] at hrun
        have hright := hbefore.mpr fun hs => absurd hs.ends (by omega)
        have hlast := h.runEndFrom_iff (b := 64*j + 63) (by unfold QF.endSlot; omega) hr
        rw [hb, h64] at hlast
        have hstart := @start_eq_add_spill A.lens (64*(j+1))
        rw [← hlast, ← blockOffset_of_run hsat hright (le_start _), hstart, Nat.add_sub_cancel_left]

theorem runEnd_iff (h : Twin qf q A) (hb : b < qf.endSlot) :
    runEnd qf b = some (start A.lens (b+1) - 1) ↔ ¬ RunEndStrays qf A b := by
  have hj : b/64 < qf.metadata.nblocks := by
    unfold QF.endSlot at hb
    omega
  have hoff := h.blockOffset_iff hj
  have hspill : spill A.lens (64*(b/64)) = ends A.lens (64*(b/64)) - 64*(b/64) := rfl
  have hst : start A.lens (b+1) = max (b+1) (ends A.lens (b+1)) := rfl
  unfold runEnd
  by_cases hr : bitrank (getBlock q (b/64)).occupieds (b % 64) = 0
  · have hgap := h.ends_of_gap hr
    have hstrays : RunEndStrays qf A b ↔ OffsetStrays qf A (b/64) := by
      constructor
      · intro hs
        refine ⟨hs.bit, hgap ▸ hs.ends, hs.reads.resolve_left fun hrun => ?_⟩
        exact (h.rank_iff b).mpr hrun hr
      · exact fun hs => ⟨hs.bit, hgap.trans hs.ends, .inr hs.saturated⟩
    rw [hstrays]
    rw [h.blocks _ hj] at hr
    simp only [Option.bind_eq_bind, runEndFrom_of_gap hr]
    by_cases hs : OffsetStrays qf A (b/64)
    · have hwrong := mt hoff.mp (not_not.mpr hs)
      have hends := hs.ends
      have hsat := hs.saturated
      refine iff_of_false (fun hend => ?_) (not_not.mpr hs)
      cases hval : blockOffset qf (b/64) with
      | none => simp [hval] at hend
      | some off =>
        rw [hval, Option.bind_some, Option.some.injEq] at hend
        rw [hval, Option.some.injEq] at hwrong
        omega
    · rw [hoff.mpr hs]
      simp only [Option.bind_some, Option.some.injEq]
      exact iff_of_true (by omega) hs
  · have hrun := h.ends_of_run hr
    have hle := h.ends_le (b+1)
    have hright := hoff.mpr fun hs => absurd hs.ends (by omega)
    have hbucket := (h.rank_iff b).mp hr
    rw [hright, Option.bind_eq_bind, Option.bind_some, h.runEndFrom_iff hb hr]
    exact not_congr ⟨fun hs => ⟨hs.1, hs.2, .inl hbucket⟩, fun hs => ⟨hs.bit, hs.ends⟩⟩

theorem isRunEnd_iff (h : Twin qf q A) (hb : b < qf.endSlot) {r : Nat} :
    IsRunEnd qf A b r ↔ r = start A.lens (b+1) - 1 := by
  have hocc : ∀ a ≤ b, isOccupied qf a = isOccupied q a := by
    intro a ha
    unfold QF.endSlot at hb
    rw [isOccupied, isOccupied, occupiedBit, occupiedBit, h.blocks (a/64) (by omega)]
  have hend := h.layout.isRunEnd b
  have hown : IsRunEnd qf A b (start A.lens (b+1) - 1) := by
    refine ⟨fun a ha ho hlast => hend.occupied a ha (hocc a ha ▸ ho) fun c h1 h2 => ?_,
      fun hnone => hend.none fun a ha => hocc a ha ▸ hnone a ha⟩
    rw [← hocc c h2]
    exact hlast c h1 h2
  constructor
  · exact fun hr => hr.unique hown
  · rintro rfl
    exact hown

end Twin

/-- `run_end` and `block_offset` are exact, but where they read a bit behind the last block. -/
theorem run_end_exact_iff (h : LaidOut qf A) :
    (∀ b < qf.endSlot,
      (∃ r, runEnd qf b = some r ∧ IsRunEnd qf A b r) ↔ ¬ RunEndStrays qf A b) ∧
      ∀ j < qf.metadata.nblocks,
        blockOffset qf j = some (A.spilled j).ncard ↔ ¬ OffsetStrays qf A j := by
  obtain ⟨q, ht⟩ := h
  refine ⟨fun b hb => ?_, fun j hj => by rw [A.ncard_spilled, ht.blockOffset_iff hj]⟩
  rw [← ht.runEnd_iff hb]
  constructor
  · rintro ⟨r, hr, hend⟩
    rwa [(ht.isRunEnd_iff hb).mp hend] at hr
  · exact fun hr => ⟨_, hr, (ht.isRunEnd_iff hb).mpr rfl⟩

end

section
variable {qf : QF} {A : Contents}

structure IsJump (A : Contents) (s : Nat) (t : Int) : Prop where
  nonneg : 0 ≤ t
  used : ∀ e, s ≤ e → (e : Int) < s + t → Used A.lens e

theorem Layout.isJump (h : Layout qf A) (s : Nat) : IsJump A s (offsetLowerBound qf s) := by
  have hb := h.row.offsetLowerBound_spec h.offsets s
  refine ⟨hb.nonneg, fun e hs he => ?_⟩
  by_contra hu
  rw [← Contents.lens_runs] at hu
  have := hb.le e hs hu
  omega

/-- `find_first_empty_slot` finds the first slot that no item uses. -/
theorem find_first_empty_slot_exact (h : Layout qf A) (start : Nat)
    (he : ∃ e, start ≤ e ∧ e < qf.xnslots ∧ ¬ Used A.lens e) :
    (∃ e, findFirstEmptySlot qf start = some e ∧
      IsLeast {s | start ≤ s ∧ ¬ Used A.lens s} e) ∧
      ∀ s, IsJump A s (offsetLowerBound qf s) := by
  obtain ⟨u, hu1, hu2, hu3⟩ := he
  obtain ⟨e, hfirst, -⟩ := exists_firstUnused (fun c => h.outside_lens) start
  have hrun : FirstUnused (RunLayout.lens A.runs) start e := by
    rw [Contents.lens_runs]
    exact hfirst
  refine ⟨⟨e, h.row.findFirstEmptySlot_eq h.offsets hrun (by omega), ⟨hfirst.le, hfirst.unused⟩,
    fun s hs => ?_⟩, h.isJump⟩
  by_contra hlt
  exact hs.2 (hfirst.used s hs.1 (by omega))

end

/-! A counter of 330 slots reaches over several blocks, whose offsets are saturated. -/

def longItem (n : Nat) : Item := ⟨1, [], List.replicate n 1⟩

theorem longItem_len (n : Nat) : (longItem n).len = 1 + n := by
  simp [longItem, Item.len]

theorem longItem_bounded (n : Nat) : (longItem n).Bounded 2 where
  rem := show 1 < 2^2 by decide
  ext v hv := by cases hv
  cnt v hv := by
    rw [List.eq_of_mem_replicate hv]
    decide

def longContents : Contents := Contents.single 0 (longItem 330)

def longMetadata : QFMetadata := QFMetadata.init 8 2 416

def longFilter : QF := QF.ofContents longMetadata longContents

theorem longFilter_layout : Layout longFilter longContents := by
  have hfits : (longItem 330).Fits longMetadata := show 8 + 2 * 0 < 64 by decide
  have hroom : 0 + (longItem 330).len ≤ longMetadata.xnslots := by
    rw [longItem_len]
    decide
  have hgeo : Geometry longMetadata :=
    Geometry.init (by decide) (by decide) (by decide) (by decide) (by decide)
  exact ((Contents.single_fits (by decide) hroom (longItem_bounded 330) hfits).wf hgeo).toLayout

theorem ends_longContents {n : Nat} (hn : 0 < n) : ends longContents.lens n = 331 := by
  have hlens : longContents.lens = Function.update (fun _ => 0) 0 331 := by
    rw [longContents, Contents.single, Contents.lens_update, Contents.lens_empty, itemsLen_cons,
      longItem_len]
    rfl
  rw [hlens, ends_single (by decide), if_neg (by omega)]

theorem run_end_exact_iff_saturated : blockOffsetField longFilter 1 = 255 ∧
    (∃ r, runEnd longFilter 70 = some r ∧ IsRunEnd longFilter longContents 70 r) ∧
      blockOffset longFilter 1 = some (longContents.spilled 1).ncard := by
  have hspill : spill longContents.lens (64*1) = 267 := by
    rw [spill, ends_longContents (by decide)]
  have hend : longFilter.endSlot = 448 := rfl
  have hexact := run_end_exact_iff ⟨longFilter, longFilter_layout, rfl, fun _ _ => rfl⟩
  refine ⟨?_, (hexact.1 70 (by decide)).mpr fun hs => ?_, (hexact.2 1 (by decide)).mpr fun hs => ?_⟩
  · show min 255 (spill longContents.lens (64*1)) = 255
    rw [hspill]
    rfl
  · have hlast := hs.ends
    rw [ends_longContents (by decide), hend] at hlast
    exact absurd hlast (by decide)
  · have hlast := hs.ends
    rw [ends_longContents (by decide), hend] at hlast
    exact absurd hlast (by decide)

/-! 1024 slots, and in the array of 21 blocks 321 items of the last bucket. -/

def lastContents : Contents := Function.update Contents.empty 1023 (crowd 0 321)

def lastMetadata : QFMetadata := QFMetadata.init 10 9 1344

/-- The bit behind the last block is set. -/
def lastFilter : QF := orExtension (QF.ofContents lastMetadata lastContents) 1344

theorem lastFilter_laidOut : LaidOut lastFilter lastContents := by
  have hgeo : Geometry lastMetadata :=
    Geometry.init (by decide) (by decide) (by decide) (by decide) (by decide)
  have hfits : lastContents.Fits lastMetadata :=
    crowd_fits (by decide) (by decide) (by decide) (by decide) (by decide)
  refine ⟨_, (hfits.wf hgeo).toLayout, rfl, fun j hj => ?_⟩
  have hlt : j < 21 := hj
  have hne : j ≠ 1344/64 := by omega
  simp [lastFilter, orExtension, QF.modifyBlock, getBlock, hne]

theorem ends_lastContents {n : Nat} (hn : 1023 < n) : ends lastContents.lens n = 1344 := by
  rw [lastContents, Contents.lens_update, Contents.lens_empty, itemsLen_crowd,
    ends_single (by decide), if_neg (by omega)]

theorem run_end_reads_behind : LaidOut lastFilter lastContents ∧
    1023 < lastFilter.metadata.nslots ∧
    ¬ ∃ r, runEnd lastFilter 1023 = some r ∧ IsRunEnd lastFilter lastContents 1023 r := by
  have hlaid := lastFilter_laidOut
  refine ⟨hlaid, by decide, fun ⟨r, hr, hend⟩ => ?_⟩
  obtain ⟨q, ht⟩ := id hlaid
  have hlast : 1023 < lastFilter.endSlot := by decide
  rw [(ht.isRunEnd_iff hlast).mp hend] at hr
  refine (ht.runEnd_iff hlast).mp hr ⟨?_, ends_lastContents (by decide), .inl
    ⟨1023, by decide, Nat.le_refl _, ?_⟩⟩
  · have hview := view_orExtension (QF.ofContents lastMetadata lastContents) 1344
    have hcell : (lastFilter.view.cell 1344).extension = true := by
      rw [lastFilter, hview]
      simp [View.setExtension]
    have hend : lastFilter.endSlot = 1344 := by decide
    have hbit : ∀ (qf : QF) (i : Nat), isExtensionOrCounter qf i = (qf.view.cell i).extension :=
      fun _ _ => rfl
    rw [hend, hbit, hcell]
  · rw [lastContents, Function.update_self]
    decide

theorem find_first_empty_slot_exact_saturated :
    (∃ e, findFirstEmptySlot longFilter 5 = some e ∧
      IsLeast {s | 5 ≤ s ∧ ¬ Used longContents.lens s} e) ∧
      ∀ s, IsJump longContents s (offsetLowerBound longFilter s) := by
  refine find_first_empty_slot_exact longFilter_layout 5 ⟨340, by decide, by decide, ?_⟩
  rintro ⟨a, ho⟩
  have hlt := ho.lt_of_zero fun c => longFilter_layout.outside_lens
  rw [ends_longContents (by decide)] at hlt
  exact absurd hlt (by decide)

end AdaptiveQF
