import AdaptiveQF.BlockInserts
import AdaptiveQF.BlockWalk
import AdaptiveQF.Checks
import AdaptiveQF.Init

/-! Which operations look up no block behind the array, in the states that runs reach. -/
namespace AdaptiveQF
open RunLayout

inductive Operation
  | query (key flags : Nat)
  | insertRet (key count flags : Nat)
  | insertUsingLlTable (key count flags : Nat)
  | insertAndExtend (index key count otherKey flags : Nat)
  | adapt (index key otherKey flags : Nat)
  | adaptUsingLlTable (origKey fpKey minirunRank flags : Nat)
  | iterate

def Operation.blocks : Operation → QF → List Nat
  | .query key flags, qf => scanBucketBlocks qf (keyToHash qf key flags)
  | .insertRet key count flags, qf => qfInsertRetBlocks qf key count flags
  | .insertUsingLlTable key count flags, qf => qfInsertUsingLlTableBlocks qf key count flags
  | .insertAndExtend index key count otherKey flags, qf =>
    insertAndExtendBlocks qf index key count otherKey flags
  | .adapt index key otherKey flags, qf => qfAdaptBlocks qf index key otherKey flags
  | .adaptUsingLlTable origKey fpKey minirunRank flags, qf =>
    qfAdaptUsingLlTableBlocks qf origKey fpKey minirunRank flags
  | .iterate, qf => iterateBlocks qf

/-- The slot behind the array if its block is in the array too, and the last slot otherwise. -/
def QF.lastSlot (qf : QF) : Nat := min qf.xnslots (64 * qf.metadata.nblocks - 1)

section
variable {qf : QF} {A : Contents}

end

end AdaptiveQF
