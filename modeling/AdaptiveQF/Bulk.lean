import AdaptiveQF.Canonical
import AdaptiveQF.Iterator

/-! qf_bulk_insert: a sorted list of hashes is written into an empty filter. Each item waits for the
next one, to learn how far it has to be extended. -/
namespace AdaptiveQF
open RunLayout

/-! `qf_hash_cmp`. -/

def hashCmpLoop (qf : QF) : Nat → Nat → Nat → Option Int
  | 0, _, _ => none
  | fuel+1, temp1, temp2 =>
    if temp1 ≠ 0 ∧ temp2 ≠ 0 then
      let temp1 := shr64 temp1 qf.bits
      let temp2 := shr64 temp2 qf.bits
      if temp1 &&& bitmask qf.bits = temp2 &&& bitmask qf.bits then hashCmpLoop qf fuel temp1 temp2
      else if temp1 &&& bitmask qf.bits > temp2 &&& bitmask qf.bits then some 1
      else some (-1)
    else if temp1 = 0 then some (-1)
    else some 1

def qfHashCmp (qf : QF) (hash1 hash2 : Nat) : Option Int :=
  let bucket1 := hashBucketIndex qf hash1
  let bucket2 := hashBucketIndex qf hash2
  if hash1 = hash2 then some 0
  else if bucket1 = bucket2 then
    if hashRemainder qf hash1 = hashRemainder qf hash2 then
      hashCmpLoop qf 65 (shr64 hash1 qf.qbits) (shr64 hash2 qf.qbits)
    else if hashRemainder qf hash1 > hashRemainder qf hash2 then some 1
    else some (-1)
  else if bucket1 > bucket2 then some 1
  else some (-1)

def SortedByCmp (qf : QF) (keys : List Nat) : Prop :=
  keys.IsChain fun x y => qfHashCmp qf x y = some (-1) ∨ qfHashCmp qf x y = some 0

/-! `bulk_insert_sort_hashes`. -/

def reverseExt : Nat → Nat → Nat → Nat → Option (Nat × Nat)
  | 0, _, _, _ => none
  | fuel+1, ext, tempExt, tempExtLen =>
    if tempExt > 0 then
      reverseExt fuel (shl64 ext 1 ||| (tempExt &&& 1)) (shr64 tempExt 1) (tempExtLen+1)
    else some (ext, tempExtLen)

/-- What is stored for `keys[i]`. A shift by a negative number is undefined. -/
def rearrangeHash (qf : QF) (key : Nat) : Option Nat := do
  let extBits := 64 - qf.qbits - qf.bits
  let rem := hashRemainder qf key
  let run := hashBucketIndex qf key
  let (ext, tempExtLen) ← reverseExt 65 0 (shr64 key (qf.qbits + qf.bits)) 0
  if extBits < tempExtLen then none
  else some (shl64 ext (extBits - tempExtLen) ||| shl64 rem extBits |||
    shl64 run (extBits + qf.bits))

/-- The list afterwards. It is rearranged hash by hash and not sorted. -/
def bulkInsertSortHashes (qf : QF) (keys : List Nat) : Option (List Nat) :=
  keys.mapM (rearrangeHash qf)

/-! `qf_bulk_insert`. -/

/-- The extension slots needed to tell two extensions apart, counted from `nextExtLen` on. -/
def bulkExtLen (qf : QF) : Nat → Nat → Nat → Nat → Option Nat
  | 0, _, _, _ => none
  | fuel+1, nextExtLen, tempCurr, tempNext =>
    if tempCurr &&& bitmask qf.bits = tempNext &&& bitmask qf.bits then
      bulkExtLen qf fuel (nextExtLen+1) (shr64 tempCurr qf.bits) (shr64 tempNext qf.bits)
    else some nextExtLen

structure BulkState where
  qf : QF
  currentIndex : Nat
  currentRun : Nat
  currentRem : Nat
  currentExt : Nat
  currentExtLen : Nat
  currentCount : Nat

namespace BulkState

def write (s : BulkState) (key nextRun extLen nextExtLen : Nat) : Option BulkState := do
  let (qf, currentIndex) ←
    mergeInsert s.qf s.currentIndex s.currentRun s.currentRem s.currentExt extLen s.currentCount
  some {
    qf := qf
    currentIndex := currentIndex
    currentRun := nextRun
    currentRem := hashRemainder qf key
    currentExt := shr64 key (qf.qbits + qf.bits)
    currentExtLen := nextExtLen
    currentCount := 1 }

def skipTo (s : BulkState) (run : Nat) : BulkState :=
  { s with currentIndex := if s.currentIndex < run then run else s.currentIndex }

/-- One turn of the loop, for `keys[i] = key` and `keys[i-1] = prev`. The mask of the bucket is
computed as an `int`. -/
def step (prev key : Nat) (s : BulkState) : Option BulkState :=
  if s.qf.qbits > 30 then none
  else
    let nextRun := hashBucketIndex s.qf key
    if nextRun ≠ s.currentRun then do
      let qf := orOccupied (orRunend s.qf s.currentIndex) nextRun
      let s ← { s with qf := qf }.write key nextRun s.currentExtLen 0
      some (s.skipTo nextRun)
    else if hashRemainder s.qf key = s.currentRem then
      if key = prev then some { s with currentCount := s.currentCount + 1 }
      else do
        let nextExtLen ← bulkExtLen s.qf 65 1 s.currentExt (shr64 key (s.qf.qbits + s.qf.bits))
        s.write key nextRun (if nextExtLen > s.currentExtLen then nextExtLen else s.currentExtLen)
          nextExtLen
    else do
      let s ← s.write key nextRun s.currentExtLen 0
      some (s.skipTo nextRun)

def loop (prev : Nat) : List Nat → BulkState → Option BulkState
  | [], s => some s
  | key :: keys, s => do
    let s ← s.step prev key
    loop key keys s

def start (qf : QF) (key : Nat) : BulkState :=
  let run := hashBucketIndex qf key
  { qf := orOccupied qf run
    currentIndex := run
    currentRun := run
    currentRem := hashRemainder qf key
    currentExt := shr64 key (qf.qbits + qf.bits)
    currentExtLen := 0
    currentCount := 1 }

def finish (s : BulkState) : Option QF := do
  let (qf, _) ← mergeInsert (orRunend s.qf s.currentIndex) s.currentIndex s.currentRun s.currentRem
    s.currentExt s.currentExtLen s.currentCount
  some qf

end BulkState

/-- `nslots * 0.95 > nkeys` is computed in floating point in the source. -/
def qfBulkInsert (qf : QF) : List Nat → Option QF
  | [] => none
  | key :: keys =>
    if qf.metadata.noccupiedSlots ≠ 0 then none
    else if 19 * qf.metadata.nslots ≤ 20 * (keys.length + 1) then none
    else do
      let s ← BulkState.loop key keys (.start qf key)
      s.finish

/-! A bulk insertion marks buckets and counts nothing. -/

namespace BulkState

variable {s s' : BulkState} {qf' : QF}

theorem write_marks {key nextRun extLen nextExtLen : Nat}
    (h : s.write key nextRun extLen nextExtLen = some s') : s.qf.Marks s'.qf := by
  simp only [write, Option.bind_eq_bind, Option.bind_eq_some_iff, Prod.exists,
    Option.some.injEq] at h
  obtain ⟨qf, n, h1, rfl⟩ := h
  exact mergeInsert_marks h1

theorem step_marks {prev key : Nat} (h : s.step prev key = some s') : s.qf.Marks s'.qf := by
  unfold step at h
  split at h
  case isTrue => exact absurd h (Option.some_ne_none _).symm
  simp only at h
  split at h
  · simp only [Option.bind_eq_bind, Option.bind_eq_some_iff, Option.some.injEq] at h
    obtain ⟨s1, h1, rfl⟩ := h
    have hopen := (QF.Marks.orRunend s.qf s.currentIndex).trans
      (.orOccupied _ (hashBucketIndex s.qf key))
    have hwrite := write_marks h1
    exact hopen.trans hwrite
  · split at h
    · split at h
      · rw [← Option.some.inj h]
        exact .refl _
      · simp only [Option.bind_eq_bind, Option.bind_eq_some_iff] at h
        obtain ⟨n, _, h1⟩ := h
        exact write_marks h1
    · simp only [Option.bind_eq_bind, Option.bind_eq_some_iff, Option.some.injEq] at h
      obtain ⟨s1, h1, rfl⟩ := h
      have hwrite := write_marks h1
      exact hwrite

theorem loop_marks {prev : Nat} {keys : List Nat} (h : loop prev keys s = some s') :
    s.qf.Marks s'.qf := by
  induction keys generalizing prev s with
  | nil =>
    rw [← Option.some.inj h]
    exact .refl _
  | cons key keys ih =>
    simp only [loop, Option.bind_eq_bind, Option.bind_eq_some_iff] at h
    obtain ⟨s1, h1, h2⟩ := h
    exact (step_marks h1).trans (ih h2)

theorem finish_marks (h : s.finish = some qf') : s.qf.Marks qf' := by
  simp only [finish, Option.bind_eq_bind, Option.bind_eq_some_iff, Prod.exists,
    Option.some.injEq] at h
  obtain ⟨qf, n, h1, rfl⟩ := h
  exact (QF.Marks.orRunend ..).trans (mergeInsert_marks h1)

end BulkState

section
variable {qf qf' : QF} {keys : List Nat}

theorem qfBulkInsert_marks (h : qfBulkInsert qf keys = some qf') :
    qf'.metadata = qf.metadata ∧ ∃ b, isOccupied qf' b = true := by
  cases keys with
  | nil => exact absurd h (Option.some_ne_none _).symm
  | cons key keys =>
    rw [qfBulkInsert] at h
    split at h
    case isTrue => exact absurd h (Option.some_ne_none _).symm
    split at h
    case isTrue => exact absurd h (Option.some_ne_none _).symm
    simp only [Option.bind_eq_bind, Option.bind_eq_some_iff] at h
    obtain ⟨s, h1, h2⟩ := h
    have hrest : (orOccupied qf (hashBucketIndex qf key)).Marks qf' :=
      (BulkState.loop_marks h1).trans (BulkState.finish_marks h2)
    exact ⟨((QF.Marks.orOccupied ..).trans hrest).metadata, hashBucketIndex qf key,
      hrest.occupied _ (isOccupied_orOccupied ..)⟩

/-- The call comes back with a well-formed filter in which every hash has its multiplicity as its
count, and has counted the slots. -/
def BulkInserts (qf : QF) (keys : List Nat) : Prop :=
  ∃ qf' A, qfBulkInsert qf keys = some qf' ∧ WF qf' A ∧
    (∀ key ∈ keys, ∃ hit, qfQuery qf' key QF_KEY_IS_HASH = some (keys.count key, some hit)) ∧
    qf'.metadata.noccupiedSlots = A.usedSlots qf'.metadata.nslots

theorem bulk_insert_uncounted (h : qf.Zeroed) (keys : List Nat) : ¬ BulkInserts qf keys := by
  rintro ⟨qf', A, hcall, hwf, _, hcount⟩
  obtain ⟨hm, b, hb⟩ := qfBulkInsert_marks hcall
  have hpos := hwf.toLayout.usedSlots_pos hb
  rw [hm, h.noccupiedSlots] at hcount
  rw [hm] at hpos
  omega

end

/-! 8 slots of 2 bits. -/

def bulkFilter : QF := QF.zero (QFMetadata.init 3 2 36)

theorem bulkFilter_zeroed : bulkFilter.Zeroed :=
  QF.zeroed_init (Geometry.init (by decide) (by decide) (by decide) (by decide) (by decide))

theorem bulk_insert_uncounted_small : ¬ BulkInserts bulkFilter [4, 4, 9] :=
  bulk_insert_uncounted bulkFilter_zeroed [4, 4, 9]

/-- A key twice and another one take three slots, and `noccupied_slots` stays 0. -/
theorem bulk_insert_uncounted_twice : bulkFilter.Zeroed ∧ SortedByCmp bulkFilter [4, 4, 9] ∧
    (∃ qf' ∈ qfBulkInsert bulkFilter [4, 4, 9], qf'.metadata.noccupiedSlots = 0 ∧
      getSlot qf' 1 = some 0 ∧ isCounter qf' 2 = true ∧ getSlot qf' 3 = some 1 ∧
        isOccupied qf' 1 = true) ∧
    ¬ BulkInserts bulkFilter [4, 4, 9] := by
  have hrun : ∃ qf' ∈ qfBulkInsert bulkFilter [4, 4, 9], qf'.metadata.noccupiedSlots = 0 ∧
      getSlot qf' 1 = some 0 ∧ isCounter qf' 2 = true ∧ getSlot qf' 3 = some 1 ∧
        isOccupied qf' 1 = true := by
    obtain ⟨qf', hq⟩ : ∃ qf', qfBulkInsert bulkFilter [4, 4, 9] = some qf' :=
      Option.isSome_iff_exists.mp (by decide +kernel)
    have hall : ∀ qf' ∈ qfBulkInsert bulkFilter [4, 4, 9], qf'.metadata.noccupiedSlots = 0 ∧
        getSlot qf' 1 = some 0 ∧ isCounter qf' 2 = true ∧ getSlot qf' 3 = some 1 ∧
          isOccupied qf' 1 = true := by
      decide +kernel
    exact ⟨qf', hq, hall qf' hq⟩
  have hsorted : SortedByCmp bulkFilter [4, 4, 9] := by
    unfold SortedByCmp
    decide
  refine ⟨bulkFilter_zeroed, hsorted, hrun, ?_⟩
  rintro ⟨qf', A, hcall, hwf, _, hcount⟩
  obtain ⟨q, hq, h0, _, _, _, hocc⟩ := hrun
  obtain rfl : q = qf' := Option.some.inj (hq.symm.trans hcall)
  have hpos := hwf.toLayout.usedSlots_pos hocc
  omega

end AdaptiveQF
