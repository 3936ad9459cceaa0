import AdaptiveQF.Init
import AdaptiveQF.Walk

/-! qf_resize_malloc: the filter is to be written again into one with more slots. -/
namespace AdaptiveQF
open RunLayout

def QF.keyBits (qf : QF) : Nat := qf.qbits + qf.bits

/-- The variables of the loop. `last_index` is absent while it is -1. -/
structure ResizeState where
  qf : QF
  newQf : QF
  currentRun : Nat
  currentIndex : Nat
  lastIndex : Option Nat

def ResizeState.openRun (s : ResizeState) (run : Nat) : ResizeState :=
  let newQf := match s.lastIndex with
    | some i => orRunend s.newQf i
    | none => s.newQf
  { s with
    newQf := orOccupied newQf run
    currentRun := run
    currentIndex := if s.currentIndex < run then run else s.currentIndex }

/-- The loop over the items of the old filter. It does not move the iterator, and puts the items
into the old filter. -/
def resizeLoop (qfi : QFi) (it : QFiItem) : Nat → ResizeState → Option ResizeState
  | 0, _ => none
  | fuel+1, s =>
    if qfiEnd s.qf qfi then some s
    else do
      let s := if qfi.run ≠ s.currentRun then s.openRun qfi.run else s
      let (qf, next) ← mergeInsert s.qf s.currentIndex s.currentRun it.rem it.ext it.extLen it.count
      resizeLoop qfi it fuel
        { s with qf := qf, currentIndex := next, lastIndex := some s.currentIndex }

/-- `blocks` is the memory that `malloc` returns, `qfi` what the iterator holds before. -/
def qfResizeMalloc (blocks : Nat → QFBlock) (qfi : QFi) (qf : QF) (nslots : Nat) :
    Option (Int × QF) :=
  if qf.metadata.nslots > nslots then some (0, qf)
  else do
    let newQf ← qfInit qf.metadata.keyHash nslots qf.keyBits blocks
    let newQf := if qf.autoResize then { newQf with autoResize := true } else newQf
    let (_, qfi) ← qfIteratorFromPosition qf qfi 0
    let (_, it) ← qfiGetHash qf qfi
    let newQf := if qfi.run = 0 then orOccupied newQf 0 else newQf
    let s ← resizeLoop qfi it (qf.xnslots+1) ⟨qf, newQf, 0, 0, none⟩
    some (1, s.newQf)

section
variable {qf : QF} {A : Contents}

theorem Layout.iterator_start (h : Layout qf A) (qfi : QFi) :
    ∃ ret qfi', qfIteratorFromPosition qf qfi 0 = some (ret, qfi') ∧
      (qfiEnd qf qfi' = true ↔ ∀ b, A b = []) := by
  have hpos : 0 < qf.metadata.nslots := by
    rw [h.geometry.nslots]
    exact Nat.two_pow_pos _
  obtain ⟨ret, qfi', hcall, hat⟩ := h.iteratorFromPosition_at hpos (fun _ => Nat.zero_le _) qfi
  refine ⟨ret, qfi', hcall, (hat.qfiEnd_iff h).trans ⟨fun hgap b => hgap b ?_, fun hA b _ => hA b⟩⟩
  rw [Nat.mul_zero, ite_self]
  exact Nat.zero_le b

/-! The resizing. -/

theorem resizeLoop_none (qfi : QFi) (it : QFiItem) {fuel : Nat} {s : ResizeState}
    (h : qfiEnd s.qf qfi = false) : resizeLoop qfi it fuel s = none := by
  induction fuel generalizing s with
  | zero => rfl
  | succ fuel ih =>
    obtain ⟨s0, hs0⟩ : ∃ s0, s0 = if qfi.run ≠ s.currentRun then s.openRun qfi.run else s :=
      ⟨_, rfl⟩
    have hqf : s0.qf = s.qf := by
      rw [hs0]
      split <;> rfl
    unfold resizeLoop
    rw [if_neg (by rw [h]; decide)]
    simp only [← hs0, Option.bind_eq_bind]
    cases hins :
      mergeInsert s0.qf s0.currentIndex s0.currentRun it.rem it.ext it.extLen it.count with
    | none => rfl
    | some r =>
      obtain ⟨qf1, next⟩ := r
      have hm := (mergeInsert_marks hins).metadata
      rw [Option.bind_some]
      apply ih
      have hx : qf1.xnslots = s.qf.xnslots := by
        unfold QF.xnslots
        rw [hm, hqf]
      simpa only [qfiEnd, hx] using h

/-- The call comes back, and a filter that was resized still answers for every hash that was
answered before, with no smaller a count. -/
def ResizePreserves (blocks : Nat → QFBlock) (qfi : QFi) (qf : QF) (nslots : Nat) : Prop :=
  ∃ ret qf', qfResizeMalloc blocks qfi qf nslots = some (ret, qf') ∧
    (ret = 1 → ∀ hash < 2^64, ∀ count hit,
      qfQuery qf hash QF_KEY_IS_HASH = some (count, some hit) →
        ∃ count' hit', qfQuery qf' hash QF_KEY_IS_HASH = some (count', some hit') ∧ count ≤ count')

theorem resize_preserves_iff (h : WF qf A) {q : Nat} (hq : qf.metadata.nslots ≤ 2^q)
    (blocks : Nat → QFBlock) (qfi : QFi) : ResizePreserves blocks qfi qf (2^q) ↔
      (∀ b, A b = []) ∧ q + 2 ≤ qf.keyBits := by
  have hinit := qfInit_isSome qf.metadata.keyHash q qf.keyBits blocks
  have hsize : ¬ qf.metadata.nslots > 2^q := by omega
  constructor
  · rintro ⟨ret, qf', hcall, -⟩
    unfold qfResizeMalloc at hcall
    rw [if_neg hsize] at hcall
    simp only [Option.bind_eq_bind, Option.bind_eq_some_iff, Prod.exists] at hcall
    obtain ⟨newQf, h1, _, qfi', h2, _, it, h3, s, h4, _⟩ := hcall
    rw [h1] at hinit
    refine ⟨?_, of_decide_eq_true hinit.symm⟩
    obtain ⟨_, q, hiter, hend⟩ := h.toLayout.iterator_start qfi
    rw [hiter] at h2
    obtain ⟨-, rfl⟩ := Prod.mk.inj (Option.some.inj h2)
    rw [← hend]
    by_contra hgo
    rw [resizeLoop_none q it (eq_false_of_ne_true hgo)] at h4
    exact absurd h4 (Option.some_ne_none _).symm
  · rintro ⟨hA, hbits⟩
    rw [decide_eq_true hbits] at hinit
    obtain ⟨newQf, hnew⟩ := Option.isSome_iff_exists.mp hinit
    obtain ⟨ret, qfi', hiter, hempty⟩ := h.toLayout.iterator_start qfi
    have hend := hempty.mpr hA
    have hloop : ∀ s : ResizeState, s.qf = qf → resizeLoop qfi' ⟨0, 0, 0, 0⟩ (qf.xnslots+1) s =
        some s := by
      intro s hs
      unfold resizeLoop
      rw [hs, if_pos hend]
    have hget : qfiGetHash qf qfi' = some (QFI_INVALID, ⟨0, 0, 0, 0⟩) := by
      unfold qfiGetHash
      rw [if_pos hend]
    have hmalloc : ∃ qf', qfResizeMalloc blocks qfi qf (2^q) = some (1, qf') := by
      unfold qfResizeMalloc
      rw [if_neg hsize]
      simp only [hnew, hiter, hget, Option.bind_eq_bind, Option.bind_some]
      rw [hloop _ rfl]
      exact ⟨_, rfl⟩
    obtain ⟨qf', hcall⟩ := hmalloc
    refine ⟨1, qf', hcall, ?_⟩
    intro _ hash _ count hit hquery
    have hocc : isOccupied qf (hashBucketIndex qf hash) = false := by
      rw [show isOccupied qf (hashBucketIndex qf hash) =
        decide (A (hashBucketIndex qf hash) ≠ []) from h.occupied _]
      simp [hA]
    simp [qfQuery, keyToHash, hasFlag, QF_KEY_IS_HASH, scanBucket, hocc] at hquery

end

/-! From 8 slots to 16. -/

def resizeMetadata : QFMetadata := QFMetadata.init 3 3 36

theorem resizeMetadata_geometry : Geometry resizeMetadata :=
  Geometry.init (by decide) (by decide) (by decide) (by decide) (by decide)

def resizeContents : Contents := Contents.single 1 ⟨2, [], []⟩

def resizeFilter : QF := QF.ofContents resizeMetadata resizeContents

theorem resizeFilter_wf : WF resizeFilter resizeContents := by
  refine Contents.Fits.wf ?_ resizeMetadata_geometry
  exact Contents.single_fits (by decide) (by decide) ⟨by decide, by decide, by decide⟩
    (show 3 + 3 * 0 < 64 by decide)

theorem resize_preserves_iff_single :
    ResizePreserves (fun _ => QFBlock.zero) ⟨0, 0⟩ (QF.zero resizeMetadata) (2^4) ∧
      ¬ ResizePreserves (fun _ => QFBlock.zero) ⟨0, 0⟩ resizeFilter (2^4) := by
  constructor
  · exact (resize_preserves_iff (QF.zeroed_init resizeMetadata_geometry).wf (by decide) _ _).mpr
      ⟨fun _ => rfl, by decide⟩
  · rw [resize_preserves_iff resizeFilter_wf (by decide)]
    rintro ⟨hempty, -⟩
    exact absurd (hempty 1) (by decide)

/-- With an item in the filter, here that of hash 10, the call does not come back. -/
theorem resize_hangs : WF resizeFilter resizeContents ∧
    (∃ count hit, qfQuery resizeFilter 10 QF_KEY_IS_HASH = some (count, some hit)) ∧
    qfResizeMalloc (fun _ => QFBlock.zero) ⟨0, 0⟩ resizeFilter (2^4) = none ∧
    ¬ ResizePreserves (fun _ => QFBlock.zero) ⟨0, 0⟩ resizeFilter (2^4) := by
  have hquery : qfQuery resizeFilter 10 QF_KEY_IS_HASH = some (1, some ⟨1, 10, 6⟩) := by
    decide +kernel
  have hnone : qfResizeMalloc (fun _ => QFBlock.zero) ⟨0, 0⟩ resizeFilter (2^4) = none := by
    rw [← Option.isNone_iff_eq_none]
    decide +kernel
  refine ⟨resizeFilter_wf, ⟨_, _, hquery⟩, hnone, ?_⟩
  rintro ⟨ret, qf', hcall, -⟩
  rw [hnone] at hcall
  exact absurd hcall (Option.some_ne_none _).symm

end AdaptiveQF
