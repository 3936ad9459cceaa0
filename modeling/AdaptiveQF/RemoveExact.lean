import AdaptiveQF.Canonical
import AdaptiveQF.Remove

/-! When remove_replace_slots_and_shift_remainders_and_runends_and_offsets leaves the layout of the
items that are left. The loop over the offsets decides it. -/
namespace AdaptiveQF
open RunLayout

def removeReplaceSlotsRet (qf : QF) (onlyItemInRun : Bool)
    (bucketIndex overwriteIndex oldLength : Nat) : Option (Int × QF) :=
  (removeReplaceSlots qf onlyItemInRun bucketIndex overwriteIndex oldLength).map
    fun qf => (toInt oldLength, qf)

def Restores (qf : QF) (A : Contents) (b : Nat) (l1 : List Item) (it : Item) (l2 : List Item)
    (res : Option (Int × QF)) : Prop :=
  ∃ qf', res = some ((it.len : Int), qf') ∧ qf.SameFrame qf' ∧
    Layout qf' (Function.update A b (l1 ++ l2))

section
variable {qf qf' : QF} {runs : Nat → List Cell} {A : Contents} {b : Nat} {l1 l2 : List Item}
  {it : Item}

/-- The offsets that the loop has behind it stay as they are. -/
theorem repairOffsets_keeps {fuel j : Nat} (h : repairOffsets fuel j qf = some qf') {i : Nat}
    (hi : i ≤ j) : qf'.view.offset i = qf.view.offset i := by
  induction fuel generalizing j qf with
  | zero => exact absurd h (Option.some_ne_none _).symm
  | succ fuel ih =>
    simp only [repairOffsets, Option.bind_eq_bind, Option.bind_eq_some_iff] at h
    obtain ⟨runend, -, h⟩ := h
    generalize (if runend / 64 = j then 0 else runend - (64*j + 63)) = v at h
    split at h
    · exact absurd h (Option.some_ne_none _).symm
    · split at h
      · obtain rfl : qf = qf' := Option.some.inj h
        rfl
      · rw [ih h (by omega), view_setOffset, View.setOffset]
        simp only
        exact Function.update_of_ne (by omega) ..

/-- The runs have ended where the array does. -/
theorem Row.spill_end (h : Row qf runs) : spill (lens runs) (64 * qf.metadata.nblocks) = 0 := by
  have hend := h.ends_le (64 * qf.metadata.nblocks)
  have hblocks := h.blocks
  unfold spill
  omega

/-- Where the buckets spill over by 255 slots or more, and less than before, a later offset is no
longer right. -/
theorem Row.offset_stale (h : Row qf runs) {old : Nat → Nat} {i : Nat}
    (hi : i ≤ qf.metadata.nblocks) (hsame : ∀ c, 64*i ≤ c → lens runs c = old c)
    (hsat : 255 ≤ spill (lens runs) (64*i)) (hlt : spill (lens runs) (64*i) < spill old (64*i)) :
    ∃ k, i < k ∧ min 255 (spill (lens runs) (64*k)) ≠ min 255 (spill old (64*k)) := by
  by_contra hno
  -- the difference never goes away, nor does the spill
  have hon : ∀ d, 255 ≤ spill (lens runs) (64*(i+d)) ∧
      spill (lens runs) (64*(i+d)) < spill old (64*(i+d)) := by
    intro d
    induction d with
    | zero => exact ⟨hsat, hlt⟩
    | succ d ih =>
      obtain ⟨h1, h2⟩ := ih
      obtain ⟨h3, -⟩ := spill_lt_of_lt h2 (fun c hc => hsame c (by omega))
        (show 64 ≤ spill (lens runs) (64*(i+d)) by omega)
      have hk : 64*(i+d) + 64 = 64*(i+(d+1)) := by omega
      rw [hk] at h3
      have hright : min 255 (spill (lens runs) (64*(i+(d+1)))) =
          min 255 (spill old (64*(i+(d+1)))) := by
        by_contra hne
        exact hno ⟨i+(d+1), by omega, hne⟩
      omega
  have hlast := (hon (qf.metadata.nblocks - i)).1
  have hend := h.spill_end
  rw [show i + (qf.metadata.nblocks - i) = qf.metadata.nblocks by omega] at hlast
  omega

/-- If all offsets are right after the loop, it went as `OffsetsReach` says. -/
theorem Row.repairOffsets_reach (h : Row qf runs) {old : Nat → Nat} {fuel j : Nat}
    (hle : ∀ c, lens runs c ≤ old c) (hsame : ∀ c, 64*(j+1) ≤ c → lens runs c = old c)
    (hto : OffsetsTo qf runs j)
    (hoff : ∀ i, j < i → qf.view.offset i = min 255 (spill old (64*i)))
    (hcall : repairOffsets fuel j qf = some qf') (hright : Offsets qf' runs) :
    ∃ J, j < J ∧ J < qf.metadata.nblocks ∧ spill (lens runs) (64*J) = spill old (64*J) ∧
      spill old (64*J) ≤ 255 ∧ ∀ i, j < i → i < J → spill (lens runs) (64*i) < 255 ∨
        255 < spill (lens runs) (64*i) ∧ spill (lens runs) (64*i) % 256 = 255 := by
  induction fuel generalizing j qf with
  | zero => exact absurd hcall (Option.some_ne_none _).symm
  | succ fuel ih =>
    rw [h.repairOffsets_succ hto, hoff (j+1) (by omega)] at hcall
    obtain ⟨n, hn⟩ : ∃ n, n = spill (lens runs) (64*(j+1)) := ⟨_, rfl⟩
    have hmono := spill_le_of_le hle (64*(j+1))
    rw [← hn] at hcall hmono
    by_cases hlast : j + 1 ≥ qf.metadata.nblocks
    · rw [if_pos hlast] at hcall
      exact absurd hcall (Option.some_ne_none _).symm
    rw [if_neg hlast] at hcall
    by_cases hdone : min 255 (spill old (64*(j+1))) = n
    · rw [if_pos hdone] at hcall
      obtain rfl : qf = qf' := Option.some.inj hcall
      refine ⟨j+1, by omega, by omega, ?_, ?_, fun i h1 h2 => by omega⟩
      all_goals
        by_contra hne
        obtain ⟨k, hk, hstale⟩ := h.offset_stale (i := j+1) (by omega) hsame (by omega)
          (show _ < spill old _ by omega)
        exact hstale (by rw [← hright k, hoff k (by omega)])
    · rw [if_neg hdone] at hcall
      have hrow := h.setOffset (j+1) (n % 256)
      have hview := view_setOffset qf (j+1) (n % 256)
      have hset : ∀ i, (AdaptiveQF.setOffset qf (j+1) (n % 256)).view.offset i =
          if i = j + 1 then n % 256 else qf.view.offset i := by
        intro i
        rw [hview]
        exact Function.update_apply ..
      have hkept := repairOffsets_keeps hcall (Nat.le_refl (j+1))
      rw [hright (j+1), hset, if_pos rfl, ← hn] at hkept
      obtain ⟨J, hJ1, hJ2, hJ3, hJ4, hJ5⟩ := ih hrow (fun c hc => hsame c (by omega))
        (fun i hi => by
          rw [hset]
          by_cases hij : i = j + 1
          · rw [if_pos hij, hij, ← hn]
            exact hkept.symm
          · rw [if_neg hij]
            exact hto i (by omega))
        (fun i hi => by
          rw [hset, if_neg (by omega)]
          exact hoff i (by omega)) hcall
      refine ⟨J, by omega, hJ2, hJ3, hJ4, fun i h1 h2 => ?_⟩
      by_cases hij : i = j + 1
      · rw [hij, ← hn]
        omega
      · exact hJ5 i (by omega) h2

theorem Layout.reach_of_restores (h : Layout qf A) (hb : A b = l1 ++ it :: l2)
    (hres : Restores qf A b l1 it l2 (removeReplaceSlotsRet qf (l1.isEmpty && l2.isEmpty) b
      (A.pos b l1) it.len)) :
    it.len < 2^31 ∧ OffsetsReach qf b A.lens (Contents.lens (Function.update A b (l1 ++ l2))) := by
  obtain ⟨qf', hcall, -, hlay⟩ := hres
  obtain ⟨q, hq, hf, hrow, -, hoff⟩ := h.removeReplaceSlots_repair hb
  rw [removeReplaceSlotsRet, hq, Option.map_eq_some_iff] at hcall
  obtain ⟨q', hrepair, heq⟩ := hcall
  obtain ⟨hlen, rfl⟩ := Prod.mk.inj heq
  have hlens : RunLayout.lens (Function.update A.runs b (runCells (l1 ++ l2))) =
      Contents.lens (Function.update A b (l1 ++ l2)) := by
    rw [← Contents.runs_update, Contents.lens_runs]
  have hother : ∀ c, c ≠ b →
      RunLayout.lens (Function.update A.runs b (runCells (l1 ++ l2))) c = A.lens c := by
    intro c hc
    rw [lens_update_of_ne _ _ hc, Contents.lens_runs]
  have hle : ∀ c, RunLayout.lens (Function.update A.runs b (runCells (l1 ++ l2))) c ≤ A.lens c := by
    rw [hlens]
    exact Contents.lens_remove_le hb
  have hreach := hrow.repairOffsets_reach (j := b / 64) hle (fun c hc => hother c (by omega))
    (fun i hi => by rw [hoff, spill_congr_of_lt fun c hc => hother c (by omega)])
    (fun i _ => hoff i) hrepair (by rw [← Contents.runs_update]; exact hlay.offsets)
  rw [hlens, hf.metadata] at hreach
  exact ⟨toInt_eq_iff.mp hlen, hreach⟩

/-- The call for an item restores the layout if and only if the loop over the offsets gets them
right. An `int` tells the length. -/
theorem remove_replace_slots_iff (h : Layout qf A) (hb : A b = l1 ++ it :: l2) :
    Restores qf A b l1 it l2 (removeReplaceSlotsRet qf (l1.isEmpty && l2.isEmpty) b
        (A.pos b l1) it.len) ↔
      it.len < 2^31 ∧
        OffsetsReach qf b A.lens (Contents.lens (Function.update A b (l1 ++ l2))) := by
  refine ⟨h.reach_of_restores hb, ?_⟩
  rintro ⟨hlen, hreach⟩
  obtain ⟨qf', hcall, hf, hlay⟩ := h.removeReplaceSlots_eq hb hreach
  refine ⟨qf', ?_, hf, hlay⟩
  rw [removeReplaceSlotsRet, hcall, Option.map_some, toInt_of_lt hlen]

end

/-! Small filters. -/

theorem remove_replace_slots_iff_pair :
    Restores (QF.ofContents (QFMetadata.init 6 2 144) (crowdContents 0 2)) (crowdContents 0 2) 0
      [] ⟨0, [], []⟩ (crowd 1 1)
      (removeReplaceSlotsRet (QF.ofContents (QFMetadata.init 6 2 144) (crowdContents 0 2)) false 0
        ((crowdContents 0 2).pos 0 []) 1) := by
  have hwf := (crowdContents_fits (m := QFMetadata.init 6 2 144) (n := 2) (by decide) (by decide)
    (by decide) (by decide) (by decide)).wf
    (Geometry.init (by decide) (by decide) (by decide) (by decide) (by decide))
  refine (remove_replace_slots_iff hwf.toLayout (crowdContents_split 0 1)).mpr ⟨by decide, 1, ?_⟩
  rw [crowdContents_remove, spill_crowdContents (by omega) (by omega),
    spill_crowdContents (by omega) (by omega)]
  exact ⟨by decide, by decide, by decide, by decide, fun i h1 h2 => by omega⟩

def crowdFilter : QF := QF.ofContents (QFMetadata.init 9 9 738) (crowdContents 0 400)

theorem crowdFilter_wf : WF crowdFilter (crowdContents 0 400) :=
  (crowdContents_fits (by decide) (by decide) (by decide) (by decide) (by decide)).wf
    (Geometry.init (by decide) (by decide) (by decide) (by decide) (by decide))

/-- Without the first item, 335 slots behind block 0 are taken. Its offset becomes 335 % 256. -/
theorem remove_wraps_offset : WF crowdFilter (crowdContents 0 400) ∧
    crowdContents 0 400 0 = [] ++ ⟨0, [], []⟩ :: crowd 1 399 ∧
    ¬ Restores crowdFilter (crowdContents 0 400) 0 [] ⟨0, [], []⟩ (crowd 1 399)
      (removeReplaceSlotsRet crowdFilter false 0 0 1) := by
  refine ⟨crowdFilter_wf, crowdContents_split 0 399, fun hres => ?_⟩
  have hpos : (crowdContents 0 400).pos 0 [] = 0 := by
    rw [Contents.pos, lens_crowdContents]
    rfl
  have hempty : ((([] : List Item)).isEmpty && (crowd 1 399).isEmpty) = false := by decide
  obtain ⟨-, J, hJ1, -, hJ2, -, hJ3⟩ := crowdFilter_wf.toLayout.reach_of_restores
    (crowdContents_split 0 399) (by rw [hpos, hempty]; exact hres)
  rw [crowdContents_remove] at hJ2 hJ3
  have hJ : 0 < J := by omega
  rw [spill_crowdContents (by omega) (by omega), spill_crowdContents (by omega) (by omega)] at hJ2
  have hone := hJ3 1 (by omega)
  rw [spill_crowdContents (by omega) (by omega)] at hone
  omega

end AdaptiveQF
