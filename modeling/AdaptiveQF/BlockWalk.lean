import AdaptiveQF.BlockReads
import AdaptiveQF.Visit

/-! The blocks that an iteration over the whole filter looks up. -/
namespace AdaptiveQF
open RunLayout

/-- The loop that looks for the next block with an occupied bucket moves on before it reads. -/
def nextOccupiedBlocks (qf : QF) : Nat → Nat → Nat → List Nat
  | 0, _, _ => []
  | n+1, blockIndex, idx =>
    if idx = 64 ∧ blockIndex < qf.metadata.nblocks then (blockIndex+1) ::
      nextOccupiedBlocks qf n (blockIndex+1) (bitselect (getBlock qf (blockIndex+1)).occupieds 0)
    else []

def qfIteratorFromPositionBlocks (qf : QF) (position : Nat) : List Nat :=
  let next := nextOccupiedBlock qf qf.metadata.nblocks position
    (bitselect (getBlock qf position).occupieds 0)
  position/64 :: if isOccupied qf position then runStartBlocks qf position
    else position :: nextOccupiedBlocks qf qf.metadata.nblocks position
      (bitselect (getBlock qf position).occupieds 0) ++ runStartBlocks qf (next.1 * 64 + next.2)

def qfiNextBlocks (qf : QF) (qfi : QFi) : List Nat :=
  if qfiEnd qf qfi then []
  else qfi.current/64 :: skipExtensionsBlocks qf qf.fuel (qfi.current+1) ++
    (skipExtensions qf qf.fuel (qfi.current+1)).elim [] fun current =>
      if qfiEnd qf ⟨qfi.run, current⟩ then []
      else if !isRunend qf qfi.current then []
      else qfi.run/64 :: nextOccupiedBlocks qf qf.metadata.nblocks (qfi.run/64)
        (bitselect (getBlock qf (qfi.run/64)).occupieds
          (bitrank (getBlock qf (qfi.run/64)).occupieds (qfi.run % 64)))

def qfiWalkBlocks (qf : QF) : Nat → QFi → List Nat
  | 0, _ => []
  | fuel+1, qfi => if qfiEnd qf qfi then []
    else qfiNextBlocks qf qfi ++ (qfiNext qf qfi).elim [] fun r => qfiWalkBlocks qf fuel r.2

def iterateBlocks (qf : QF) : List Nat :=
  qfIteratorFromPositionBlocks qf 0 ++ (qfIteratorFromPosition qf ⟨0, 0⟩ 0).elim [] fun r =>
    qfiWalkBlocks qf qf.fuel r.2

def InArray (qf : QF) (blocks : List Nat) : Prop := ∀ j ∈ blocks, j < qf.metadata.nblocks

instance (qf : QF) (blocks : List Nat) : Decidable (InArray qf blocks) :=
  inferInstanceAs (Decidable (∀ j ∈ blocks, j < qf.metadata.nblocks))

section
variable {qf : QF} {s i n j idx fuel : Nat} {blocks blocks' : List Nat}

theorem UpTo.inArray (h : UpTo s blocks) (hs : s < 64 * qf.metadata.nblocks) :
    InArray qf blocks := by
  intro j hj
  have := h j hj
  omega

end

/-! The walk. -/

section
variable {qf : QF} {A : Contents} {p c b n fuel : Nat} {l1 l2 : List Item} {it next : Item}

end

end AdaptiveQF
