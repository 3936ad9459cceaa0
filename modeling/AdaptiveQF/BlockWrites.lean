import AdaptiveQF.BlockReads
import AdaptiveQF.WriteSet

/-! The blocks that the insert and adapt functions look up. With room in front of
slot `m` they look up none behind it. -/
namespace AdaptiveQF
open RunLayout

def openSlotBlocks (qf : QF) (targetIndex insertIndex emptySlotIndex : Nat) : List Nat :=
  shiftRemaindersBlocks qf insertIndex emptySlotIndex ++ slotBlocks qf insertIndex ++
    if emptySlotIndex = 0 then []
    else shiftRunendsBlocks insertIndex (emptySlotIndex-1) 1 ++
      List.range' (targetIndex/64+1) (emptySlotIndex/64 - targetIndex/64)

def insertOneSlotBlocks (qf : QF) (targetIndex insertIndex : Nat) : List Nat :=
  findFirstEmptySlotBlocks qf insertIndex ++
    (findFirstEmptySlot qf insertIndex).elim [] fun emptySlotIndex =>
      if emptySlotIndex ≥ qf.xnslots then []
      else openSlotBlocks qf targetIndex insertIndex emptySlotIndex

def adaptSlotBlocks (qf : QF) (bucket slotIndex emptySlotIndex countLen : Nat) : List Nat :=
  (if countLen = 0 then openSlotBlocks qf bucket slotIndex emptySlotIndex
    else slotBlocks qf slotIndex) ++ [slotIndex/64]

def adaptLoopBlocks (index bucket : Nat) : Nat → QF → Nat → Nat → Nat → Nat → Nat → List Nat
  | 0, _, _, _, _, _, _ => []
  | fuel+1, qf, slotsUsed, extBits, countLen, hash, otherHash =>
    let hash := shr64 hash qf.bits
    let otherHash := shr64 otherHash qf.bits
    let digit := hash &&& bitmask qf.bits
    findFirstEmptySlotBlocks qf (index + slotsUsed) ++
      (findFirstEmptySlot qf (index + slotsUsed)).elim [] fun emptySlotIndex =>
        if emptySlotIndex ≥ qf.xnslots then []
        else adaptSlotBlocks qf bucket (index + slotsUsed) emptySlotIndex countLen ++
          (adaptSlot qf bucket (index + slotsUsed) emptySlotIndex countLen digit).elim [] fun qf' =>
            let extBits := extBits + qf.bits
            if digit = otherHash &&& bitmask qf.bits ∧ extBits + qf.qbits + qf.bits < 64 then
              adaptLoopBlocks index bucket fuel qf' (slotsUsed+1) extBits 0 hash otherHash
            else []

def adaptBlocks (qf : QF) (index bucket hash otherHash : Nat) : List Nat :=
  getSlotInfoBlocks qf index ++ (getSlotInfo qf index).elim [] fun info =>
    slotBlocks qf index ++ (getSlot qf index).elim [] fun slot =>
      if info.countSlots ≤ 1 ∧ minirunId qf hash = slot ||| shl64 bucket qf.bits then
        let extBits := qf.bits * info.extSlots
        adaptLoopBlocks index bucket 64 qf (info.extSlots + 1) extBits info.countSlots
          (shr64 hash (extBits + qf.qbits)) (shr64 otherHash (extBits + qf.qbits))
      else []

def qfAdaptBlocks (qf : QF) (index key otherKey flags : Nat) : List Nat :=
  let hash := keyToHash qf key flags
  let otherHash := keyToHash qf otherKey flags
  if hash = otherHash then [] else adaptBlocks qf index (rangeBucket qf hash) hash otherHash

def adaptScanBlocks (qf : QF) (remainder minirunRank : Nat) : Nat → Nat → Nat → List Nat
  | 0, _, _ => []
  | fuel+1, currentIndex, rank => slotBlocks qf currentIndex ++
    (getSlot qf currentIndex).elim [] fun slot =>
      if slot < remainder then skipExtensionsBlocks qf qf.fuel (currentIndex+1) ++
        (skipExtensions qf qf.fuel (currentIndex+1)).elim [] fun next =>
          if next < qf.xnslots then adaptScanBlocks qf remainder minirunRank fuel next rank else []
      else if slot = remainder then getSlotInfoBlocks qf currentIndex ++
        (getSlotInfo qf currentIndex).elim [] fun info =>
          if rank = minirunRank then []
          else currentIndex/64 :: if isRunend qf currentIndex then []
            else if currentIndex + (info.countSlots + info.extSlots + 1) < qf.xnslots then
              adaptScanBlocks qf remainder minirunRank fuel
                (currentIndex + (info.countSlots + info.extSlots + 1)) (rank+1)
            else []
      else []

def qfAdaptUsingLlTableBlocks (qf : QF) (origKey fpKey minirunRank flags : Nat) : List Nat :=
  let hash := keyToHash qf fpKey flags
  let bucket := hashBucketIndex qf hash
  bucket/64 :: if !isOccupied qf bucket then []
    else runStartBlocks qf bucket ++ (runStart qf bucket).elim [] fun start =>
      adaptScanBlocks qf (hashRemainder qf hash) minirunRank qf.fuel start 0 ++
        (adaptScan qf (hashRemainder qf hash) minirunRank qf.fuel start 0).elim [] fun place =>
          place.elim [] fun index => qfAdaptBlocks qf index origKey fpKey flags

/-! One slot. -/

def Contents.RoomTo (A : Contents) (qf : QF) (x m k : Nat) : Prop :=
  m < qf.xnslots → k ≤ RunLayout.free A.lens x m

section
variable {qf qf' : QF} {A : Contents} {b m n k x e t s : Nat} {l1 l2 : List Item} {it it2 : Item}

theorem Contents.RoomTo.mono (h : A.RoomTo qf x m n) (hk : k ≤ n) : A.RoomTo qf x m k :=
  fun hm => hk.trans (h hm)

theorem Contents.RoomTo.behind (h : A.RoomTo qf x m k) (hk : 0 < k) (hxt : x ≤ t)
    (hu : ∀ s, x ≤ s → s < t → Used A.lens s) : A.RoomTo qf t m k := by
  intro hlt
  have hfree := h hlt
  obtain ⟨e, he, hem⟩ := free_pos_iff.mp (hk.trans_le hfree)
  have hte : t ≤ e := by
    by_contra hcon
    exact he.unused (hu e he.le (by omega))
  rwa [← free_eq_of_used hxt (hte.trans hem.le) hu]

theorem Contents.RoomTo.item (h : A.RoomTo qf (A.pos b l1) m k) (hb : A b = l1 ++ it :: l2)
    (hk : 0 < k) (hn : n ≤ it.len) : A.RoomTo qf (A.pos b l1 + n) m k := by
  refine h.behind hk (Nat.le_add_right ..) fun s h1 h2 => ⟨b, ?_⟩
  have hlen : A.lens b = itemsLen l1 + (it.len + itemsLen l2) := by simp [Contents.lens, hb]
  unfold Contents.pos at h1 h2
  unfold Owns
  omega

theorem Contents.RoomTo.found (h : A.RoomTo qf x m 1) (he : FirstUnused A.lens x e)
    (hex : e < qf.xnslots) : e + 1 ≤ m := by
  by_cases hlt : m < qf.xnslots
  · obtain ⟨e', he', hem⟩ := free_pos_iff.mp (h hlt)
    rw [he.unique he']
    exact hem
  · omega

/-- What the loop of `adapt` needs to stay in front of slot `m` with `ds` digits to append to an
item at slot `x`. The first digit goes into the counter slot if there is one. -/
def Contents.AdaptsTo (A : Contents) (qf : QF) (x m : Nat) (it : Item) (ds : List Nat) : Prop :=
  m < qf.xnslots → 0 < A.free qf x ∧ ds.length ≤ RunLayout.free A.lens x m + it.cnt.length

end

end AdaptiveQF
