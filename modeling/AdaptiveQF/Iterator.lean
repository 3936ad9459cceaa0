import AdaptiveQF.Query
import Mathlib.Algebra.Order.BigOperators.Group.Finset

/-! The iterator over the items of a filter, and `_merge_insert`, which writes items one behind the
other into an empty filter. -/
namespace AdaptiveQF
open RunLayout

def QFI_INVALID : Int := -5

structure QFi where
  run : Nat
  current : Nat
deriving DecidableEq

def nextOccupiedBlock (qf : QF) : Nat → Nat → Nat → Nat × Nat
  | 0, blockIndex, idx => (blockIndex, idx)
  | n+1, blockIndex, idx =>
    if idx = 64 ∧ blockIndex < qf.metadata.nblocks then
      nextOccupiedBlock qf n (blockIndex+1) (bitselect (getBlock qf (blockIndex+1)).occupieds 0)
    else (blockIndex, idx)

/-- `qfi` is what the caller's struct holds. The block that is looked at first is the one with the
number of the slot `position`, not the one the slot is in. It may lie outside the array. -/
def qfIteratorFromPosition (qf : QF) (qfi : QFi) (position : Nat) : Option (Int × QFi) :=
  if position = 2^64 - 1 then some (QFI_INVALID, { qfi with current := 2^64 - 1 })
  else if qf.metadata.nslots ≤ position then none
  else if isOccupied qf position = false ∧ qf.metadata.nblocks < position then none
  else do
    let (blockIndex, idx) := nextOccupiedBlock qf qf.metadata.nblocks position
      (bitselect (getBlock qf position).occupieds 0)
    let position := if isOccupied qf position then position else blockIndex * 64 + idx
    let start ← runStart qf position
    let current := if start < position then position else start
    some (if current ≥ qf.metadata.nslots then QFI_INVALID else current, ⟨position, current⟩)

def qfiEnd (qf : QF) (qfi : QFi) : Bool := qfi.current ≥ qf.xnslots

structure QFiItem where
  rem : Nat
  ext : Nat
  extLen : Nat
  count : Nat
deriving DecidableEq

def qfiGetHash (qf : QF) (qfi : QFi) : Option (Int × QFiItem) :=
  if qfiEnd qf qfi then some (QFI_INVALID, ⟨0, 0, 0, 0⟩)
  else do
    let info ← getSlotInfo qf qfi.current
    let rem ← getSlot qf qfi.current
    some (0, ⟨rem, info.ext, info.extSlots, info.count⟩)

def qfiNext (qf : QF) (qfi : QFi) : Option (Int × QFi) :=
  if qfiEnd qf qfi then some (QFI_INVALID, qfi)
  else do
    let current ← skipExtensions qf qf.fuel (qfi.current+1)
    if qfiEnd qf ⟨qfi.run, current⟩ then some (QFI_INVALID, ⟨qfi.run, current⟩)
    else if !isRunend qf qfi.current then some (0, ⟨qfi.run, current⟩)
    else
      let blockIndex := qfi.run / 64
      let rank := bitrank (getBlock qf blockIndex).occupieds (qfi.run % 64)
      let (blockIndex, nextRun) := nextOccupiedBlock qf qf.metadata.nblocks blockIndex
        (bitselect (getBlock qf blockIndex).occupieds rank)
      if blockIndex = qf.metadata.nblocks then some (QFI_INVALID, ⟨qf.xnslots, qf.xnslots⟩)
      else
        let run := blockIndex * 64 + nextRun
        some (0, ⟨run, if current < run then run else current⟩)

/-! `_merge_insert`. -/

def putExtensions : Nat → QF → Nat → Nat → Option (QF × Nat)
  | 0, qf, current, _ => some (qf, current)
  | n+1, qf, current, ext => do
    let qf ← setSlot qf current (ext &&& bitmask qf.bits)
    putExtensions n (orExtension qf current) (current+1) (shr64 ext qf.bits)

def putCounts : Nat → QF → Nat → Nat → Option (QF × Nat)
  | 0, _, _, _ => none
  | fuel+1, qf, current, count =>
    if count > 0 then do
      let qf ← setSlot qf current (count &&& bitmask qf.bits)
      putCounts fuel (orRunend (orExtension qf current) current) (current+1) (shr64 count qf.bits)
    else some (qf, current)

def bumpOffset (qf : QF) (j : Nat) : QF := setOffset qf j ((blockOffsetField qf j + 1) % 256)

def bumpOtherBlocks (bucketBlock : Nat) : Nat → Nat → QF → QF
  | 0, _, qf => qf
  | n+1, i, qf =>
    bumpOtherBlocks bucketBlock n (i+1)
      (if i / 64 ≠ bucketBlock then bumpOffset qf (i / 64) else qf)

/-- The block offsets for an item in the slots from `index` to `current`. The loop variable is an
`int`: a negative one is larger than any slot. -/
def mergeOffsets (index current run : Nat) (qf : QF) : Option QF :=
  if (current - 1) / 64 = run / 64 ∨ toInt index < 0 then some qf
  else if current > intMax then none
  else some (bumpOtherBlocks (run / 64) (current - (toInt index).toNat) (toInt index).toNat qf)

def mergeInsert (qf : QF) (index run rem ext extLen count : Nat) : Option (QF × Nat) := do
  let qf ← setSlot qf index rem
  let (qf, current) ← putExtensions extLen qf (index+1) ext
  let (qf, current) ← putCounts 65 qf current (if count > 1 then count else 0)
  let qf ← mergeOffsets index current run qf
  some (qf, current)

/-! What writing leaves alone. -/

structure QF.Marks (qf qf' : QF) : Prop where
  metadata : qf'.metadata = qf.metadata
  occupied : ∀ b, isOccupied qf b = true → isOccupied qf' b = true

section
variable {qf qf' : QF} {i v : Nat}

namespace QF.Marks

theorem refl (qf : QF) : qf.Marks qf := ⟨rfl, fun _ h => h⟩

theorem trans {q1 q2 q3 : QF} (h1 : q1.Marks q2) (h2 : q2.Marks q3) : q1.Marks q3 :=
  ⟨h2.metadata.trans h1.metadata, fun b hb => h2.occupied b (h1.occupied b hb)⟩

theorem of_view (hm : qf'.metadata = qf.metadata) (ho : qf'.view.occupied = qf.view.occupied) :
    qf.Marks qf' :=
  ⟨hm, fun b hb => (congrFun ho b).trans hb⟩

theorem setSlot (h : AdaptiveQF.setSlot qf i v = some qf') : qf.Marks qf' := by
  unfold AdaptiveQF.setSlot at h
  split at h
  · obtain rfl := Option.some.inj h
    exact of_view rfl (by rw [view_putSlot]; rfl)
  · exact absurd h (Option.some_ne_none _).symm

theorem orExtension (qf : QF) (i : Nat) : qf.Marks (AdaptiveQF.orExtension qf i) :=
  of_view rfl (by rw [view_orExtension]; rfl)

theorem orRunend (qf : QF) (i : Nat) : qf.Marks (AdaptiveQF.orRunend qf i) :=
  of_view rfl (by rw [view_orRunend]; rfl)

theorem setOffset (qf : QF) (j v : Nat) : qf.Marks (AdaptiveQF.setOffset qf j v) :=
  of_view rfl (by rw [view_setOffset]; rfl)

theorem orOccupied (qf : QF) (i : Nat) : qf.Marks (AdaptiveQF.orOccupied qf i) := by
  have hview : (AdaptiveQF.orOccupied qf i).view.occupied =
      Function.update qf.view.occupied i true :=
    congrArg View.occupied (view_orOccupied qf i)
  refine ⟨rfl, fun b hb => ?_⟩
  have hb2 := congrFun hview b
  by_cases hbi : b = i
  · subst hbi
    rw [Function.update_self] at hb2
    exact hb2
  · rw [Function.update_of_ne hbi] at hb2
    exact hb2.trans hb

end QF.Marks

theorem isOccupied_orOccupied (qf : QF) (i : Nat) : isOccupied (orOccupied qf i) i = true := by
  have hview : (orOccupied qf i).view.occupied = Function.update qf.view.occupied i true :=
    congrArg View.occupied (view_orOccupied qf i)
  exact (congrFun hview i).trans (Function.update_self ..)

theorem putExtensions_marks {n current ext next : Nat}
    (h : putExtensions n qf current ext = some (qf', next)) : qf.Marks qf' := by
  induction n generalizing qf current ext with
  | zero =>
    simp only [putExtensions, Option.some.injEq, Prod.mk.injEq] at h
    rw [← h.1]
    exact .refl qf
  | succ n ih =>
    simp only [putExtensions, Option.bind_eq_bind, Option.bind_eq_some_iff] at h
    obtain ⟨q1, h1, h2⟩ := h
    exact ((QF.Marks.setSlot h1).trans (.orExtension q1 current)).trans (ih h2)

theorem putCounts_marks {fuel current count next : Nat}
    (h : putCounts fuel qf current count = some (qf', next)) : qf.Marks qf' := by
  induction fuel generalizing qf current count with
  | zero => exact absurd h (Option.some_ne_none _).symm
  | succ fuel ih =>
    unfold putCounts at h
    split at h
    · simp only [Option.bind_eq_bind, Option.bind_eq_some_iff] at h
      obtain ⟨q1, h1, h2⟩ := h
      have hbits := ((QF.Marks.orExtension q1 current).trans (.orRunend _ current)).trans (ih h2)
      exact (QF.Marks.setSlot h1).trans hbits
    · simp only [Option.some.injEq, Prod.mk.injEq] at h
      rw [← h.1]
      exact .refl qf

theorem bumpOtherBlocks_marks (bucketBlock n i : Nat) (qf : QF) :
    qf.Marks (bumpOtherBlocks bucketBlock n i qf) := by
  induction n generalizing i qf with
  | zero => exact .refl qf
  | succ n ih =>
    refine .trans ?_ (ih ..)
    split
    · exact .setOffset ..
    · exact .refl qf

theorem mergeOffsets_marks {index current run : Nat}
    (h : mergeOffsets index current run qf = some qf') :
    qf.Marks qf' := by
  unfold mergeOffsets at h
  split at h
  · rw [← Option.some.inj h]
    exact .refl qf
  · split at h
    · exact absurd h (Option.some_ne_none _).symm
    · rw [← Option.some.inj h]
      exact bumpOtherBlocks_marks ..

theorem mergeInsert_marks {index run rem ext extLen count next : Nat}
    (h : mergeInsert qf index run rem ext extLen count = some (qf', next)) : qf.Marks qf' := by
  unfold mergeInsert at h
  simp only [Option.bind_eq_bind, Option.bind_eq_some_iff, Prod.exists, Option.some.injEq,
    Prod.mk.injEq] at h
  obtain ⟨q1, h1, q2, n2, h2, q3, n3, h3, q4, h4, rfl, rfl⟩ := h
  have hitem := (QF.Marks.setSlot h1).trans (putExtensions_marks h2)
  exact (hitem.trans (putCounts_marks h3)).trans (mergeOffsets_marks h4)

end

/-! How many slots are used. -/

def Contents.usedSlots (A : Contents) (n : Nat) : Nat := ∑ b ∈ Finset.range n, A.lens b

theorem Layout.usedSlots_pos {qf : QF} {A : Contents} (h : Layout qf A) {b : Nat}
    (hb : isOccupied qf b = true) : 0 < A.usedSlots qf.metadata.nslots := by
  have hne : A b ≠ [] := of_decide_eq_true ((h.occupied b).symm.trans hb)
  have hlt : b < qf.metadata.nslots := by
    by_contra hc
    exact hne (h.outside b (by omega))
  exact (Contents.lens_pos.mpr hne).trans_le
    (Finset.single_le_sum_of_canonicallyOrdered (Finset.mem_range.mpr hlt))

end AdaptiveQF
