import AdaptiveQF.BlockWrites
import AdaptiveQF.Invariant

/-! The blocks that insert_and_extend looks up, for one more of an item and for a
second item. -/
namespace AdaptiveQF
open RunLayout

def putCountersBlocks (first : Nat) : Nat → QF → Nat → Nat → List Nat
  | 0, _, _, _ => []
  | n+1, qf, i, newCount => slotBlocks qf (add64 first i) ++
    (setSlot qf (add64 first i) (newCount &&& bitmask qf.bits)).elim [] fun qf' =>
      putCountersBlocks first n qf' (i+1) (shr64 newCount qf.bits)

def pushCountersBlocks (bucket : Nat) : Nat → QF → Nat → Nat → List Nat
  | 0, _, _, _ => []
  | fuel+1, qf, slot, newCount =>
    if newCount > 0 then insertOneSlotBlocks qf bucket slot ++
      (insertOneSlot qf bucket slot (newCount &&& bitmask qf.bits)).elim [] fun r =>
        slot/64 :: pushCountersBlocks bucket fuel (orRunend (orExtension r.2 slot) slot).countSlot
          (slot+1) (shr64 newCount qf.bits)
    else []

def extendSameBlocks (qf : QF) (index hash count : Nat) : List Nat :=
  getSlotInfoBlocks qf index ++ (getSlotInfo qf index).elim [] fun info =>
    putCountersBlocks (add64 (index+1) info.ext) info.countSlots qf 0 (add64 info.count count) ++
      (putCounters (add64 (index+1) info.ext) info.countSlots qf 0
        (add64 info.count count)).elim [] fun r =>
          pushCountersBlocks (hashBucketIndex r.2 hash) 65 r.2
            (index+1+info.extSlots+info.countSlots) r.1

def secondBlocks (qf : QF) (index hash count otherHash flags : Nat) : List Nat :=
  adaptBlocks qf index (rangeBucket qf hash) hash otherHash ++
    (adapt qf index (rangeBucket qf hash) hash otherHash).elim [] fun r =>
      if count > 1 then extendSameBlocks (r.2.2.countItem 1) index
        (keyToHash (r.2.2.countItem 1) hash flags) (count-1) else []

def extendOtherBlocks (qf : QF) (index hash count otherHash flags : Nat) : List Nat :=
  adaptBlocks qf index (rangeBucket qf hash) otherHash hash ++
    (adapt qf index (rangeBucket qf hash) otherHash hash).elim [] fun r1 =>
      insertOneSlotBlocks r1.2.2 (hashBucketIndex r1.2.2 hash) index ++
        (insertOneSlot r1.2.2 (hashBucketIndex r1.2.2 hash) index
          (hashRemainder r1.2.2 hash)).elim [] fun r2 =>
            secondBlocks r2.2 index hash count otherHash flags

def insertAndExtendBlocks (qf : QF) (index key count otherKey flags : Nat) : List Nat :=
  let hash := keyToHash qf key flags
  let otherHash := keyToHash qf otherKey flags
  if minirunId qf hash ≠ minirunId qf otherHash then []
  else if hash = otherHash then extendSameBlocks qf index hash count
  else extendOtherBlocks qf index hash count otherHash flags

/-! Counters. -/

section
variable {qf : QF} {A : Contents} {b m n hash count : Nat} {l1 l2 : List Item} {it : Item}

end

/-! insert_and_extend with two different items. -/

section
variable {qf : QF} {A : Contents} {b m hash other count : Nat} {l1 l2 : List Item} {it : Item}

end

end AdaptiveQF
