import AdaptiveQF.BlockCounters

/-! The blocks that the insert functions look up: the search for the place, the new
item, and the count of the minirun. -/
namespace AdaptiveQF
open RunLayout

def insertScanBlocks (qf : QF) (hash : Nat) (force : Bool) : Nat → Nat → List Nat
  | 0, _ => []
  | fuel+1, currentIndex => slotBlocks qf currentIndex ++
    (getSlot qf currentIndex).elim [] fun slot =>
      if slot > hashRemainder qf hash then []
      else if slot = hashRemainder qf hash then
        if force then []
        else getSlotInfoBlocks qf currentIndex ++
          (getSlotInfo qf currentIndex).elim [] fun info =>
            if info.ext = hashExtension qf hash info.extSlots then []
            else currentIndex/64 :: if isRunend qf currentIndex then []
              else if currentIndex + (info.countSlots + info.extSlots + 1) < qf.xnslots then
                insertScanBlocks qf hash force fuel
                  (currentIndex + (info.countSlots + info.extSlots + 1))
              else []
      else currentIndex/64 :: skipExtensionsBlocks qf qf.fuel (currentIndex+1) ++
        if isRunend qf currentIndex then []
        else (skipExtensions qf qf.fuel (currentIndex+1)).elim [] fun next =>
          if next < qf.xnslots then insertScanBlocks qf hash force fuel next else []

def llScanBlocks (qf : QF) (remainder : Nat) : Nat → Nat → List Nat
  | 0, _ => []
  | fuel+1, currentIndex => slotBlocks qf currentIndex ++
    (getSlot qf currentIndex).elim [] fun slot =>
      if slot ≥ remainder then []
      else currentIndex/64 :: skipExtensionsBlocks qf qf.fuel (currentIndex+1) ++
        if isRunend qf currentIndex then []
        else (skipExtensions qf qf.fuel (currentIndex+1)).elim [] fun next =>
          if next < qf.xnslots then llScanBlocks qf remainder fuel next else []

def countMinirunBlocks (qf : QF) (remainder : Nat) : Nat → Nat → Nat → List Nat
  | 0, _, _ => []
  | fuel+1, tempIndex, tempRemainder =>
    if tempRemainder = remainder then tempIndex/64 :: if isRunend qf tempIndex then []
      else skipExtensionsBlocks qf qf.fuel tempIndex ++
        (skipExtensions qf qf.fuel tempIndex).elim [] fun next => slotBlocks qf (next+1) ++
          (getSlot qf (next+1)).elim [] fun slot => countMinirunBlocks qf remainder fuel
            (next+1) slot
    else []

def minirunRankBlocks (qf : QF) (remainder : Nat) : Placement → List Nat
  | .inRun _ currentIndex false => (getSlot qf currentIndex).elim [] fun slot =>
    if slot = remainder then countMinirunBlocks qf remainder qf.fuel currentIndex slot else []
  | _ => []

def locateBlocks (qf : QF) (bucket : Nat) (scanBlocks : Nat → List Nat) : List Nat :=
  runEndBlocks qf bucket ++ (runEnd qf bucket).elim [] fun runendIndex =>
    bucket/64 :: if mightBeEmpty qf bucket && runendIndex == bucket then []
      else runStartBlocks qf bucket ++ (runStart qf bucket).elim [] fun runstartIndex =>
        if !isOccupied qf bucket then []
        else runstartIndex/64 :: if isExtensionOrCounter qf runstartIndex then []
          else scanBlocks runstartIndex

def putItemBlocks (qf : QF) (bucket remainder : Nat) : Placement → List Nat
  | .home => slotBlocks qf bucket
  | .first index => insertOneSlotBlocks qf bucket index ++
    (insertOneSlot qf bucket index remainder).elim [] fun _ => [index/64, bucket/64]
  | .inRun insertIndex currentIndex wasRunend => insertOneSlotBlocks qf bucket insertIndex ++
    (insertOneSlot qf bucket insertIndex remainder).elim [] fun _ =>
      if wasRunend then [insertIndex/64, currentIndex/64] else []
  | .matched _ _ => []
  | .endOfFilter _ => []

def storeBlocks (qf : QF) (hash n count : Nat) (place : Placement) : List Nat :=
  putItemBlocks qf (insertBucket qf hash) (hashRemainder qf hash) place ++
    (putItem qf (insertBucket qf hash) (hashRemainder qf hash) n place).elim [] fun qf' =>
      match place with
      | .matched _ _ => []
      | .endOfFilter _ => []
      | place => if count > 1 then
          extendSameBlocks qf' (countIndex (insertBucket qf hash) place) hash (count-1) else []

def insertWorkBlocks (qf : QF) (hash count flags : Nat) : List Nat :=
  locateBlocks qf (insertBucket qf hash) (fun runstartIndex =>
    insertScanBlocks qf hash (hasFlag flags QF_TRY_ONCE_LOCK) qf.fuel runstartIndex) ++
      (locateInsert qf hash flags).elim [] (storeBlocks qf hash 1 count)

def insertUsingLlTableWorkBlocks (qf : QF) (hash count : Nat) : List Nat :=
  locateBlocks qf (insertBucket qf hash) (fun runstartIndex =>
    llScanBlocks qf (hashRemainder qf hash) qf.fuel runstartIndex) ++
      (locateLl qf hash).elim [] fun place =>
        minirunRankBlocks qf (hashRemainder qf hash) place ++
          (minirunRank qf (hashRemainder qf hash) place).elim [] fun _ =>
            storeBlocks qf hash count count place

def qfInsertRetBlocks (qf : QF) (key count flags : Nat) : List Nat :=
  if full qf || count == 0 then [] else insertWorkBlocks qf (keyToHash qf key flags) count flags

def qfInsertUsingLlTableBlocks (qf : QF) (key count flags : Nat) : List Nat :=
  if full qf || count == 0 then []
  else insertUsingLlTableWorkBlocks qf (keyToHash qf key flags) count

/-! The search for the place. -/

section
variable {qf : QF} {A : Contents} {b m r hash : Nat} {l1 l2 : List Item} {it : Item}

end

/-! The new item. -/

section
variable {qf : QF} {A : Contents} {b m n r hash count : Nat} {l1 l2 : List Item} {it : Item}
  {p : Placement}

end

/-! The rank loop, and the calls. -/

section
variable {qf : QF} {A : Contents} {b m r hash count flags : Nat} {l1 l2 : List Item} {it : Item}

end

end AdaptiveQF
