import AdaptiveQF.Query

/-! The blocks that the functions without stores look up: for each call of
`get_block` its index, and no loop looks further than to where it stops. -/
namespace AdaptiveQF
open RunLayout

def slotBlocks (qf : QF) (index : Nat) : List Nat := if index < qf.xnslots then [index/64] else []

def skipExtensionsBlocks (qf : QF) : Nat → Nat → List Nat
  | 0, _ => []
  | fuel+1, i =>
    i/64 :: if isExtensionOrCounter qf i then skipExtensionsBlocks qf fuel (i+1) else []

def selectRunendBlocks (qf : QF) : Nat → Nat → Nat → Nat → List Nat
  | 0, _, _, _ => []
  | fuel+1, block, ignore, rank =>
    block :: if bitselectv (runendWord qf block) ignore rank = 64 then
      selectRunendBlocks qf fuel (block+1) 0 (rank - popcntv (runendWord qf block) ignore)
    else []

def runEndFromBlocks (qf : QF) (bucketBlocksOffset hashBucketIndex : Nat) : List Nat :=
  let bucketBlockIndex := hashBucketIndex / 64
  let bucketIntrablockRank :=
    bitrank (getBlock qf bucketBlockIndex).occupieds (hashBucketIndex % 64)
  let block := bucketBlockIndex + bucketBlocksOffset / 64
  let ignore := bucketBlocksOffset % 64
  bucketBlockIndex :: if bucketIntrablockRank = 0 then []
    else selectRunendBlocks qf qf.fuel block ignore (bucketIntrablockRank - 1) ++
      (selectRunend qf qf.fuel block ignore (bucketIntrablockRank - 1)).elim [] fun runendIndex =>
        skipExtensionsBlocks qf qf.fuel (runendIndex+1)

def blockOffsetBlocks (qf : QF) : Nat → List Nat
  | 0 => [0]
  | j+1 => (j+1) :: if (getBlock qf (j+1)).offset < 255 then []
    else blockOffsetBlocks qf j ++
      (blockOffset qf j).elim [] fun off => runEndFromBlocks qf off (64*j + 63)

def runEndBlocks (qf : QF) (hashBucketIndex : Nat) : List Nat :=
  blockOffsetBlocks qf (hashBucketIndex / 64) ++
    (blockOffset qf (hashBucketIndex / 64)).elim [] fun off =>
      runEndFromBlocks qf off hashBucketIndex

def runStartBlocks (qf : QF) (bucket : Nat) : List Nat :=
  if bucket = 0 then [] else runEndBlocks qf (bucket-1)

def findFirstEmptySlotLoopBlocks (qf : QF) : Nat → Nat → List Nat
  | 0, _ => []
  | fuel+1, start => skipExtensionsBlocks qf qf.fuel start ++
    (skipExtensions qf qf.fuel start).elim [] fun i =>
      i/64 :: if offsetLowerBound qf i > 0 then
        findFirstEmptySlotLoopBlocks qf fuel (i + (offsetLowerBound qf i).toNat) else []

def findFirstEmptySlotBlocks (qf : QF) (start : Nat) : List Nat :=
  findFirstEmptySlotLoopBlocks qf qf.fuel start

/-- An `int` past the largest one is negative, and far behind the array as an index. -/
def packSlotsBlocks (qf : QF) (p : QF → Nat → Bool) : Nat → Nat → List Nat
  | 0, _ => []
  | fuel+1, curr =>
    if curr > intMax then [((BitVec.ofNat 32 curr).signExtend 64).toNat / 64]
    else curr/64 :: if p qf curr then packSlotsBlocks qf p fuel (curr+1) else []

def getSlotInfoBlocks (qf : QF) (index : Nat) : List Nat :=
  index/64 :: if isExtensionOrCounter qf index then []
    else packSlotsBlocks qf isExtension qf.fuel (index+1) ++
      (packSlots qf isExtension (index+1) qf.fuel (index+1) 0).elim [] fun r =>
        packSlotsBlocks qf isCounter qf.fuel r.2

def scanRunBlocks (qf : QF) (hash : Nat) : Nat → Nat → List Nat
  | 0, _ => []
  | fuel+1, currentIndex => slotBlocks qf currentIndex ++
    (getSlot qf currentIndex).elim [] fun slot =>
      if slot = hashRemainder qf hash then getSlotInfoBlocks qf currentIndex ++
        (getSlotInfo qf currentIndex).elim [] fun info =>
          if hashExtension qf hash info.extSlots = info.ext then []
          else currentIndex/64 :: if isRunend qf currentIndex then []
            else if currentIndex + 1 + (info.extSlots + info.countSlots) < qf.xnslots then
              scanRunBlocks qf hash fuel (currentIndex + 1 + (info.extSlots + info.countSlots))
            else []
      else currentIndex/64 :: if isRunend qf currentIndex then []
        else skipExtensionsBlocks qf qf.fuel (currentIndex+1) ++
          (skipExtensions qf qf.fuel (currentIndex+1)).elim [] fun next =>
            if next < qf.xnslots then scanRunBlocks qf hash fuel next else []

def scanBucketBlocks (qf : QF) (hash : Nat) : List Nat :=
  let bucket := hashBucketIndex qf hash
  bucket/64 :: if !isOccupied qf bucket then []
    else runStartBlocks qf bucket ++ (runStart qf bucket).elim [] fun runstartIndex =>
      scanRunBlocks qf hash qf.fuel (max runstartIndex bucket)

/-! Where they stop. -/

def UpTo (s : Nat) (blocks : List Nat) : Prop := ∀ j ∈ blocks, 64*j ≤ s

section
variable {qf : QF} {s t i n fuel : Nat} {blocks blocks' : List Nat}

theorem UpTo.mono (h : UpTo s blocks) (hst : s ≤ t) : UpTo t blocks :=
  fun j hj => (h j hj).trans hst

end

/-! The query functions. -/

def EndIn (m : QFMetadata) (h s p : Nat) (l : List Item) : Prop :=
  ∀ k1 it k2, l = k1 ++ it :: k2 → it.rem = m.remainder h → (∀ x ∈ k1, ¬ x.Matches m h) →
    p + itemsLen k1 + it.len ≤ s

section
variable {qf : QF} {A : Contents} {b hash s p : Nat} {l1 l2 : List Item} {it : Item}

theorem EndIn.tail {m : QFMetadata} {l : List Item} (hn : EndIn m hash s p (it :: l))
    (hm : ¬ it.Matches m hash) : EndIn m hash s (p + it.len) l := by
  intro k1 x k2 hs hr hk
  have := hn (it :: k1) x k2 (by rw [hs]; rfl) hr (by
    intro y hy
    cases hy with
    | head => exact hm
    | tail _ hy => exact hk y hy)
  simp only [itemsLen_cons] at this
  omega

end

end AdaptiveQF
