import AdaptiveQF.Canonical
import AdaptiveQF.Query
import Mathlib.Data.Nat.Sqrt

/-! `qf_init`: a filter in a buffer that may hold anything. -/
namespace AdaptiveQF
open RunLayout

/-- The source adds the root in floating point. Below 2^59 slots that makes no difference to the
number of blocks. -/
def initXnslots (nslots : Nat) : Nat := nslots + Nat.sqrt (100*nslots)

def initNblocks (nslots : Nat) : Nat := (initXnslots nslots + 63) / 64

def shl128 (x n : Nat) : Nat := (x <<< (n % 128)) % 2^128

def initMetadata (keyHash : Nat → Nat) (nslots keyBits : Nat) : QFMetadata where
  keyHash := keyHash
  nslots := nslots
  xnslots := initXnslots nslots
  bitsPerSlot := keyBits - Nat.log2 nslots
  quotientBits := Nat.log2 nslots
  range := shl128 nslots (keyBits - Nat.log2 nslots)
  nblocks := initNblocks nslots
  nelts := 0
  ndistinctElts := 0
  noccupiedSlots := 0

/-- `qf_init` on a buffer that is large enough and holds the blocks `buffer`. It does not clear
them. -/
def qfInit (keyHash : Nat → Nat) (nslots keyBits : Nat) (buffer : Nat → QFBlock) : Option QF :=
  if nslots ≠ 2^Nat.log2 nslots then none
  else if keyBits < Nat.log2 nslots + 2 then none
  else some {
    metadata := initMetadata keyHash nslots keyBits
    autoResize := false
    locks := fun _ => false
    blocks := fun j => if j < initNblocks nslots then buffer j else QFBlock.zero }

structure QFBlock.Clear (b : QFBlock) : Prop where
  offset : b.offset = 0
  occupieds : b.occupieds = 0#64
  runends : b.runends = 0#64
  extensions : b.extensions = 0#64

instance (b : QFBlock) : Decidable b.Clear :=
  decidable_of_iff (b.offset = 0 ∧ b.occupieds = 0#64 ∧ b.runends = 0#64 ∧ b.extensions = 0#64)
    ⟨fun h => ⟨h.1, h.2.1, h.2.2.1, h.2.2.2⟩,
      fun h => ⟨h.offset, h.occupieds, h.runends, h.extensions⟩⟩

structure QF.IsNew (qf : QF) (nslots keyBits : Nat) : Prop where
  row : Row qf Contents.empty.runs
  offsets : Offsets qf Contents.empty.runs
  negative : ∀ hash, qfQuery qf hash QF_KEY_IS_HASH = some (0, none)
  noccupiedSlots : qf.metadata.noccupiedSlots = 0
  slots : qf.metadata.nslots = nslots
  quotient : 2^qf.qbits = nslots
  bits : qf.bits = keyBits - qf.qbits
  range : qf.metadata.range = 2^keyBits
  blocks : qf.xnslots ≤ 64 * qf.metadata.nblocks
  xnslots : nslots ≤ qf.xnslots

section
variable {qf : QF} {j : Nat}

theorem bits_eq_zero {f : Nat → BitVec 64} (h : ∀ i, (f (i/64)).getLsbD (i%64) = false)
    (j : Nat) : f j = 0#64 := by
  apply BitVec.eq_of_getLsbD_eq
  intro k hk
  have hbit := h (64*j + k)
  have hdiv : (64*j + k) / 64 = j := by omega
  have hmod : (64*j + k) % 64 = k := by omega
  rw [hdiv, hmod] at hbit
  rw [hbit, BitVec.getLsbD_zero]

theorem not_used_empty (s : Nat) : ¬ Used (RunLayout.lens Contents.empty.runs) s := by
  rintro ⟨b, hb⟩
  rw [Contents.lens_runs, Contents.lens_empty] at hb
  exact absurd hb.2 (by simpa using hb.1)

/-- The empty layout is one of clear blocks. -/
theorem empty_iff_clear : Row qf Contents.empty.runs ∧ Offsets qf Contents.empty.runs ↔
    qf.xnslots ≤ 64 * qf.metadata.nblocks ∧ ∀ j, (qf.blocks j).Clear := by
  have hspill : ∀ j, spill (RunLayout.lens Contents.empty.runs) (64*j) = 0 := by
    intro j
    rw [Contents.lens_runs, Contents.lens_empty, spill, ends_zero, Nat.zero_sub]
  constructor
  · rintro ⟨hrow, hoff⟩
    have hblank := fun s => hrow.holds.blank s (not_used_empty s)
    refine ⟨hrow.blocks, fun j => ⟨?_, ?_, ?_, ?_⟩⟩
    · have hj := hoff j
      rwa [hspill] at hj
    · exact bits_eq_zero (f := fun j => (qf.blocks j).occupieds) hrow.occupied j
    · exact bits_eq_zero (f := fun j => (qf.blocks j).runends) (fun i => (hblank i).1) j
    · exact bits_eq_zero (f := fun j => (qf.blocks j).extensions) (fun i => (hblank i).2) j
  · rintro ⟨hblocks, hclear⟩
    refine ⟨⟨⟨fun b k a ha => ?_, fun s _ => ⟨?_, ?_⟩⟩, fun b => ?_, fun b hb => ?_, fun _ _ => ?_,
      ?_, hblocks⟩, fun j => ?_⟩
    · simp [Contents.runs, runCells] at ha
    · simp [QF.view, runendBit, getBlock, (hclear _).runends]
    · simp [QF.view, extensionBit, getBlock, (hclear _).extensions]
    · simp [QF.view, occupiedBit, getBlock, (hclear _).occupieds, Contents.lens_runs,
        Contents.lens_empty]
    · simp [Contents.lens_runs, Contents.lens_empty] at hb
    · rw [Contents.lens_runs, Contents.lens_empty]
    · rw [Contents.lens_runs, Contents.lens_empty, ends_zero]
      exact Nat.zero_le _
    · rw [hspill]
      exact (hclear j).offset

end

section
variable {keyHash : Nat → Nat} {q keyBits : Nat} {buffer : Nat → QFBlock} {qf : QF}

theorem qfInit_isSome (keyHash : Nat → Nat) (q keyBits : Nat) (buffer : Nat → QFBlock) :
    (qfInit keyHash (2^q) keyBits buffer).isSome = decide (q + 2 ≤ keyBits) := by
  unfold qfInit
  simp only [Nat.log2_two_pow]
  rw [if_neg (by simp)]
  by_cases h : keyBits < q + 2
  · rw [if_pos h, decide_eq_false (by omega)]
    rfl
  · rw [if_neg h, decide_eq_true (by omega)]
    rfl

theorem qfInit_fields {nslots : Nat} (h : qfInit keyHash nslots keyBits buffer = some qf) :
    qf.metadata = initMetadata keyHash nslots keyBits ∧ qf.autoResize = false ∧
      qf.locks = (fun _ => false) ∧
      qf.blocks = fun j => if j < initNblocks nslots then buffer j else QFBlock.zero := by
  simp only [qfInit, Option.ite_none_left_eq_some, Option.some.injEq] at h
  obtain ⟨-, -, rfl⟩ := h
  exact ⟨rfl, rfl, rfl, rfl⟩

theorem init_blocks (nslots : Nat) : initXnslots nslots ≤ 64 * initNblocks nslots := by
  unfold initNblocks
  omega

theorem qfInit_clear_iff {nslots : Nat} (h : qfInit keyHash nslots keyBits buffer = some qf) :
    (∀ j, (qf.blocks j).Clear) ↔ ∀ j < initNblocks nslots, (buffer j).Clear := by
  rw [(qfInit_fields h).2.2.2]
  refine forall_congr' fun j => ?_
  by_cases hj : j < initNblocks nslots
  · simp [hj]
  · simp only [hj, false_implies, iff_true]
    exact ⟨rfl, rfl, rfl, rfl⟩

theorem query_clear (h : ∀ j, (qf.blocks j).Clear) (hash : Nat) :
    qfQuery qf hash QF_KEY_IS_HASH = some (0, none) := by
  have hocc : isOccupied qf (hashBucketIndex qf hash) = false := by
    simp [isOccupied, occupiedBit, getBlock, (h _).occupieds]
  simp [qfQuery, keyToHash, hasFlag, QF_KEY_IS_HASH, scanBucket, hocc]

theorem initMetadata_range (hbits : q + 2 ≤ keyBits) :
    (initMetadata keyHash (2^q) keyBits).range = 2^keyBits ↔ keyBits < 128 := by
  have hpow : 2^q * 2^(keyBits - q) = 2^keyBits := by
    rw [← pow_add]
    congr 1
    omega
  simp only [initMetadata, Nat.log2_two_pow]
  constructor
  · intro h
    have hlt : shl128 (2^q) (keyBits - q) < 2^128 := Nat.mod_lt _ (by decide)
    rw [h] at hlt
    exact (Nat.pow_lt_pow_iff_right (by decide)).mp hlt
  · intro h
    rw [shl128, Nat.mod_eq_of_lt (by omega : keyBits - q < 128), Nat.shiftLeft_eq, hpow]
    exact Nat.mod_eq_of_lt (Nat.pow_lt_pow_right (by decide) h)

/-- A new filter is empty if and only if the buffer had no item in it, and `range` can hold
`2^key_bits`. -/
theorem init_empty_iff (keyHash : Nat → Nat) (buffer : Nat → QFBlock) (hbits : q + 2 ≤ keyBits) :
    (∃ qf, qfInit keyHash (2^q) keyBits buffer = some qf ∧ qf.IsNew (2^q) keyBits) ↔
      keyBits < 128 ∧ ∀ j < initNblocks (2^q), (buffer j).Clear := by
  constructor
  · rintro ⟨qf, hcall, h⟩
    have hm := (qfInit_fields hcall).1
    refine ⟨?_, (qfInit_clear_iff hcall).mp (empty_iff_clear.mp ⟨h.row, h.offsets⟩).2⟩
    rw [← initMetadata_range hbits, ← hm]
    exact h.range
  · rintro ⟨hlt, hclear⟩
    obtain ⟨qf, hcall⟩ : ∃ qf, qfInit keyHash (2^q) keyBits buffer = some qf := by
      apply Option.isSome_iff_exists.mp
      rw [qfInit_isSome, decide_eq_true hbits]
    have hm := (qfInit_fields hcall).1
    have hclear' := (qfInit_clear_iff hcall).mpr hclear
    have hblocks : qf.xnslots ≤ 64 * qf.metadata.nblocks := by
      unfold QF.xnslots
      rw [hm]
      exact init_blocks (2^q)
    obtain ⟨hrow, hoff⟩ := empty_iff_clear.mpr ⟨hblocks, hclear'⟩
    have hquot : qf.qbits = q := by
      unfold QF.qbits
      rw [hm]
      exact Nat.log2_two_pow
    refine ⟨qf, hcall, hrow, hoff, query_clear hclear', by rw [hm]; rfl, by rw [hm]; rfl,
      by rw [hquot], ?_, ?_, hblocks, ?_⟩
    · unfold QF.qbits QF.bits
      rw [hm]
      rfl
    · rw [hm]
      exact (initMetadata_range hbits).mpr hlt
    · unfold QF.xnslots
      rw [hm]
      exact Nat.le_add_right ..

theorem initMetadata_geometry (hbits : q + 2 ≤ keyBits) (hlt : keyBits < 64)
    (hw : keyBits - q ≤ 56) : Geometry (initMetadata keyHash (2^q) keyBits) := by
  have hlog : Nat.log2 (2^q) = q := Nat.log2_two_pow
  have hpow : 2^q * 2^(keyBits - q) = 2^keyBits := by
    rw [← pow_add]
    congr 1
    omega
  have hsize : (2:Nat)^q ≤ 2^61 := Nat.pow_le_pow_right (by decide) (by omega)
  have hroot : Nat.sqrt (100*2^q) < 2^35 := by
    rw [Nat.sqrt_lt']
    omega
  refine ⟨?_, ?_, ?_, ?_, ?_, Nat.le_add_right .., ?_, rfl⟩
  · simp only [initMetadata, hlog]
  · simp only [initMetadata, hlog]
    omega
  · simpa only [initMetadata, hlog] using hw
  · simp only [initMetadata, hlog]
    omega
  · rw [(initMetadata_range hbits).mpr (by omega)]
    simp only [initMetadata, hlog, hpow]
  · show 2^q + Nat.sqrt (100*2^q) < 2^64
    omega

theorem qfInit_wf (hcall : qfInit keyHash (2^q) keyBits buffer = some qf)
    (hclear : ∀ j < initNblocks (2^q), (buffer j).Clear) (hbits : q + 2 ≤ keyBits)
    (hlt : keyBits < 64) (hw : keyBits - q ≤ 56) : WF qf Contents.empty := by
  have hm := (qfInit_fields hcall).1
  have hblocks : qf.xnslots ≤ 64 * qf.metadata.nblocks := by
    unfold QF.xnslots
    rw [hm]
    exact init_blocks (2^q)
  obtain ⟨hrow, hoff⟩ := empty_iff_clear.mpr ⟨hblocks, (qfInit_clear_iff hcall).mpr hclear⟩
  refine ⟨⟨hm ▸ initMetadata_geometry hbits hlt hw, hrow.holds, fun b => ?_, hoff, fun _ _ => rfl,
    ?_, by simp, by simp⟩, by simp⟩
  · rw [hrow.occupied b, Contents.lens_runs, Contents.lens_empty]
    simp
  · rw [Contents.extent, Contents.lens_empty, ends_zero]
    exact Nat.zero_le _

end

/-- The blocks that an earlier filter left behind: bucket 0 is in use. -/
def usedBuffer : Nat → QFBlock := fun _ => ⟨0, 1#64, 1#64, 0#64, fun _ => 0⟩

/-- All slots hold something, but no bit says so. -/
def staleBuffer : Nat → QFBlock := fun j => ⟨0, 0#64, 0#64, 0#64, fun k => (64*j + k + 1) % 4⟩

theorem init_empty_iff_stale :
    ∃ qf, qfInit id (2^3) 70 staleBuffer = some qf ∧ qf.IsNew (2^3) 70 :=
  (init_empty_iff id staleBuffer (by decide)).mpr ⟨by decide, fun _ _ => ⟨rfl, rfl, rfl, rfl⟩⟩

theorem init_finds_old_item :
    (∃ qf ∈ qfInit id 8 5 usedBuffer,
      qfQuery qf 0 QF_KEY_IS_HASH = some (1, some ⟨0, 0, 5⟩)) ∧
    ¬ ∃ qf, qfInit id 8 5 usedBuffer = some qf ∧ qf.IsNew 8 5 := by
  obtain ⟨qf, hq⟩ : ∃ qf, qfInit id 8 5 usedBuffer = some qf :=
    Option.isSome_iff_exists.mp (by decide +kernel)
  have hall : ∀ qf ∈ qfInit id 8 5 usedBuffer,
      qfQuery qf 0 QF_KEY_IS_HASH = some (1, some ⟨0, 0, 5⟩) := by
    decide +kernel
  refine ⟨⟨qf, hq, hall qf hq⟩, ?_⟩
  rintro ⟨qf', hcall, hnew⟩
  have hfound := hall qf' hcall
  rw [hnew.negative 0] at hfound
  exact absurd hfound (by decide)

end AdaptiveQF
