import AdaptiveQF.Shift
import AdaptiveQF.Lib.Bytes
import AdaptiveQF.Lib.WordShift

/-! The blocks as they lie in memory: one byte of offset, three words of metadata
bits, and 64 slots of `bits_per_slot` bits without a gap between them. -/
namespace AdaptiveQF
open Bytes RunLayout WordShift

/-- The blocks from address 0 on. Words at the end of the last block reach into the memory behind
it. -/
structure PackedQF where
  bitsPerSlot : Nat
  xnslots : Nat
  memory : Memory

namespace PackedQF

def stride (q : PackedQF) : Nat := 25 + 64 * q.bitsPerSlot / 8

def getBlock (q : PackedQF) (blockIndex : Nat) : Nat := blockIndex * q.stride

def load (q : PackedQF) (address : Nat) : BitVec 64 := readWord q.memory address

def store (q : PackedQF) (address : Nat) (w : BitVec 64) : PackedQF :=
  { q with memory := writeWord q.memory address w }

/-! The words of block `j`, and word `i` of the slots. -/

def offset (q : PackedQF) (j : Nat) : Nat := (q.memory (q.getBlock j)).toNat
def occupiedsWord (q : PackedQF) (j : Nat) : Nat := q.getBlock j + 1
def runendsWord (q : PackedQF) (j : Nat) : Nat := q.getBlock j + 9
def extensionsWord (q : PackedQF) (j : Nat) : Nat := q.getBlock j + 17
def remainderWord (q : PackedQF) (i : Nat) : Nat :=
  q.getBlock (i / q.bitsPerSlot) + (25 + 8 * (i % q.bitsPerSlot))

def occupiedBit (q : PackedQF) (index : Nat) : Bool :=
  (q.load (q.occupiedsWord (index / 64))).getLsbD (index % 64)
def runendBit (q : PackedQF) (index : Nat) : Bool :=
  (q.load (q.runendsWord (index / 64))).getLsbD (index % 64)
def extensionBit (q : PackedQF) (index : Nat) : Bool :=
  (q.load (q.extensionsWord (index / 64))).getLsbD (index % 64)

def slotAddress (q : PackedQF) (index : Nat) : Nat :=
  q.getBlock (index / 64) + (25 + index % 64 * q.bitsPerSlot / 8)

def slotShift (q : PackedQF) (index : Nat) : Nat := index % 64 * q.bitsPerSlot % 8

def slotValue (q : PackedQF) (index : Nat) : Nat :=
  (q.load (q.slotAddress index) >>> q.slotShift index &&&
    BitVec.ofNat 64 (bitmask q.bitsPerSlot)).toNat

def getSlot (q : PackedQF) (index : Nat) : Option Nat :=
  if index > q.xnslots then some (2^64 - 1)
  else if index < q.xnslots then some (q.slotValue index) else none

def putSlot (q : PackedQF) (index value : Nat) : PackedQF :=
  let t := q.load (q.slotAddress index)
  let mask := BitVec.ofNat 64 (bitmask q.bitsPerSlot) <<< q.slotShift index
  let v := BitVec.ofNat 64 value <<< q.slotShift index
  q.store (q.slotAddress index) (t &&& ~~~mask ||| v)

def setSlot (q : PackedQF) (index value : Nat) : Option PackedQF :=
  if index < q.xnslots then some (q.putSlot index value) else none

def shiftWordAt (q : PackedQF) (address : Nat) (a : BitVec 64) (bstart bend amount : Nat) :
    PackedQF :=
  q.store address (shiftIntoB a (q.load address) bstart bend amount)

def shiftRemainder (word bend : Nat) (q : PackedQF) : PackedQF :=
  q.shiftWordAt (q.remainderWord word) (q.load (q.remainderWord (word-1))) 0 bend q.bitsPerSlot

def shiftRemainderFirst (bstart word bend : Nat) (q : PackedQF) : PackedQF :=
  q.shiftWordAt (q.remainderWord word) 0#64 bstart bend q.bitsPerSlot

def shiftRemainders (q : PackedQF) (startIndex emptyIndex : Nat) : PackedQF :=
  let lastWord := (emptyIndex+1) * q.bitsPerSlot / 64
  let firstWord := startIndex * q.bitsPerSlot / 64
  let bend := (emptyIndex+1) * q.bitsPerSlot % 64
  let bstart := startIndex * q.bitsPerSlot % 64
  shiftWords shiftRemainder (shiftRemainderFirst bstart) firstWord (lastWord - firstWord) bend q

def shiftBoth (distance word bend : Nat) (q : PackedQF) : PackedQF :=
  let q := q.shiftWordAt (q.runendsWord word) (q.load (q.runendsWord (word-1))) 0 bend distance
  q.shiftWordAt (q.extensionsWord word) (q.load (q.extensionsWord (word-1))) 0 bend distance

def shiftBothFirst (bstart distance word bend : Nat) (q : PackedQF) : PackedQF :=
  let q := q.shiftWordAt (q.runendsWord word) 0#64 bstart bend distance
  q.shiftWordAt (q.extensionsWord word) 0#64 bstart bend distance

def shiftRunends (q : PackedQF) (first last distance : Nat) : Option PackedQF :=
  if last < q.xnslots ∧ distance < 64 then
    some (shiftWords (shiftBoth distance) (shiftBothFirst (first % 64) distance) (first / 64)
      ((last+distance+1) / 64 - first / 64) ((last+distance+1) % 64) q)
  else none

def openSlot (q : PackedQF) (insertIndex emptySlotIndex value : Nat) : Option PackedQF := do
  let q ← (q.shiftRemainders insertIndex emptySlotIndex).setSlot insertIndex value
  q.shiftRunends insertIndex (emptySlotIndex-1) 1

def view (q : PackedQF) : View where
  cell s := ⟨q.slotValue s, q.runendBit s, q.extensionBit s⟩
  occupied := q.occupiedBit
  offset := q.offset

def HasBits (w : Nat) (q : PackedQF) : Prop := q.bitsPerSlot = w

def blockBit (q : PackedQF) (j c : Nat) : Bool := bit q.memory (8 * q.getBlock j + c)

section
variable {q : PackedQF} {j k o c i p s t w : Nat}

theorem eight_stride (q : PackedQF) : 8 * q.stride = 200 + 64 * q.bitsPerSlot := by
  unfold stride
  omega

theorem load_getLsbD (hk : k < 64) :
    (q.load (q.getBlock j + o)).getLsbD k = q.blockBit j (8*o + k) := by
  rw [load, getLsbD_readWord hk, blockBit, Nat.mul_add, Nat.add_assoc]

/-- Addresses in different blocks are different. -/
theorem block_ext {a b : Nat} (hc : c < 8 * q.stride) (hk : k < 8 * q.stride)
    (h : 8 * q.getBlock a + c = 8 * q.getBlock b + k) : a = b ∧ c = k := by
  have hpos : 0 < 8 * q.stride := by omega
  have hblock : ∀ x y, 8 * q.getBlock x + y = y + x * (8 * q.stride) := by
    intro x y
    rw [getBlock, Nat.mul_left_comm, Nat.add_comm]
  rw [hblock, hblock] at h
  have hdiv := congrArg (· / (8 * q.stride)) h
  have hmod := congrArg (· % (8 * q.stride)) h
  simp only [Nat.add_mul_div_right _ _ hpos, Nat.add_mul_mod_self_right, Nat.div_eq_of_lt hc,
    Nat.div_eq_of_lt hk, Nat.mod_eq_of_lt hc, Nat.mod_eq_of_lt hk, Nat.zero_add] at hdiv hmod
  exact ⟨hdiv, hmod⟩

/-- A store changes its own bits. -/
theorem store_blockBit (ho : 8*o + 64 ≤ 8 * q.stride) (hc : c < 8 * q.stride) (w : BitVec 64) :
    (q.store (q.getBlock j + o) w).blockBit i c =
      if i = j ∧ 8*o ≤ c ∧ c < 8*o + 64 then w.getLsbD (c - 8*o) else q.blockBit i c := by
  have hword : 8 * (q.getBlock j + o) = 8 * q.getBlock j + 8*o := Nat.mul_add ..
  have hbit : (q.store (q.getBlock j + o) w).blockBit i c =
      bit (writeWord q.memory (q.getBlock j + o) w) (8 * q.getBlock i + c) := rfl
  rw [hbit, bit_writeWord, hword]
  by_cases hin : i = j ∧ 8*o ≤ c ∧ c < 8*o + 64
  · obtain ⟨rfl, h1, h2⟩ := hin
    have hk : 8 * q.getBlock i + c - (8 * q.getBlock i + 8*o) = c - 8*o := by omega
    rw [if_pos (by omega), if_pos ⟨rfl, h1, h2⟩, hk]
  · rw [if_neg hin, if_neg]
    · rfl
    · intro hrange
      obtain ⟨k, hk⟩ := Nat.exists_eq_add_of_le hrange.1
      have hlt : 8*o + k < 8 * q.stride := by omega
      have heq : 8 * q.getBlock i + c = 8 * q.getBlock j + (8*o + k) := by omega
      obtain ⟨hij, hck⟩ := block_ext hc hlt heq
      exact hin ⟨hij, by omega, by omega⟩

/-! Shifting a word, for any amount. -/

theorem getLsbD_shiftIntoB_amount {a b : BitVec 64} {bstart bend d : Nat} (h1 : bstart < 64)
    (h2 : bstart ≤ bend) (h3 : bend ≤ 64) (hd : 0 < d) (hd2 : d < 64) (hk : k < 64) :
    (shiftIntoB a b bstart bend d).getLsbD k =
      if bstart ≤ k ∧ k < bend then
        if k < bstart + d then decide (bstart = 0) && a.getLsbD (64 - d + k)
        else b.getLsbD (k - d)
      else b.getLsbD k := by
  have hmask : ∀ i, i < 64 → (BitVec.ofNat 64 (bitmask (bend - bstart)) <<< bstart).getLsbD i =
      (decide (bstart ≤ i) && decide (i < bend)) := by
    intro i hi
    rw [BitVec.getLsbD_shiftLeft]
    by_cases hbi : bstart ≤ i
    · rw [getLsbD_bitmask (by omega) (by omega)]
      have hdec : decide (i - bstart < bend - bstart) = decide (i < bend) :=
        decide_eq_decide.mpr (by omega)
      simp [hi, hbi, hdec]
    · simp [hbi]
  have ha : (if bstart = 0 then a >>> (64 - d) else 0#64).getLsbD k =
      (decide (bstart = 0) && a.getLsbD (64 - d + k)) := by
    by_cases h0 : bstart = 0 <;> simp [h0]
  unfold shiftIntoB
  generalize BitVec.ofNat 64 (bitmask (bend - bstart)) <<< bstart = m at hmask ⊢
  simp only [BitVec.getLsbD_or, BitVec.getLsbD_and, BitVec.getLsbD_not, hmask k hk, ha,
    BitVec.getLsbD_shiftLeft]
  by_cases hin : bstart ≤ k ∧ k < bend
  · rw [if_pos hin]
    by_cases hgap : k < bstart + d
    · -- the bit below lies in front of the mask
      have hlow : (!decide (k < d) && (m.getLsbD (k - d) && b.getLsbD (k - d))) = false := by
        by_cases hkd : k < d
        · simp [hkd]
        · rw [hmask (k - d) (by omega), decide_eq_false (by omega : ¬ bstart ≤ k - d)]
          simp
      rw [if_pos hgap]
      simp [hin.1, hin.2, hk, hlow]
    · have hcarry : (decide (bstart = 0) && a.getLsbD (64 - d + k)) = false := by
        rw [BitVec.getLsbD_of_ge _ _ (by omega), Bool.and_false]
      have hm : m.getLsbD (k - d) = true := by
        rw [hmask (k - d) (by omega), decide_eq_true (by omega : bstart ≤ k - d),
          decide_eq_true (by omega : k - d < bend)]
        rfl
      have hkd : ¬ k < d := by omega
      rw [if_neg hgap, hcarry]
      simp [hin.1, hin.2, hk, hm, hkd]
  · rw [if_neg hin]
    have hout : (decide (bstart ≤ k) && decide (k < bend)) = false := by
      simpa using hin
    rw [hout]
    simp [hk]

end

/-! Rows of words, with where their words lie: word `i` at byte `place i` of block `block i`. -/

structure WordRow (w : Nat) where
  block : Nat → Nat
  place : Nat → Nat
  fits : ∀ i, 8 * place i + 64 ≤ 200 + 64*w
  apart : ∀ i k, i ≠ k → block i = block k → place i + 8 ≤ place k ∨ place k + 8 ≤ place i

def fieldRow (w field : Nat) (h : 8 * field + 64 ≤ 200) : WordRow w where
  block i := i
  place _ := field
  fits _ := by omega
  apart i k hne heq := absurd heq hne

def remainderRow (w : Nat) (hw : 0 < w) : WordRow w where
  block i := i / w
  place i := 25 + 8 * (i % w)
  fits i := by
    have := Nat.mod_lt i hw
    omega
  apart i k hne heq := by
    have hmod : i % w ≠ k % w := by
      intro hmod
      have hi := Nat.div_add_mod i w
      have hk := Nat.div_add_mod k w
      rw [heq, hmod] at hi
      exact hne (hi.symm.trans hk)
    omega

namespace WordRow
variable {w : Nat}

def address (r : WordRow w) (q : PackedQF) (i : Nat) : Nat := q.getBlock (r.block i) + r.place i

def bit (r : WordRow w) (q : PackedQF) (p : Nat) : Bool :=
  q.blockBit (r.block (p/64)) (8 * r.place (p/64) + p % 64)

def Disjoint (r r' : WordRow w) : Prop :=
  ∀ i k, r.block i = r'.block k → r.place i + 8 ≤ r'.place k ∨ r'.place k + 8 ≤ r.place i

def shiftAt (r : WordRow w) (bstart d j bend : Nat) (a : PackedQF → BitVec 64) (q : PackedQF) :
    PackedQF :=
  q.shiftWordAt (r.address q j) (a q) bstart bend d

variable {r r' : WordRow w} {q : PackedQF} {i k p d bstart bend : Nat}

theorem load_getLsbD (hk : k < 64) : (q.load (r.address q i)).getLsbD k = r.bit q (64*i + k) := by
  have hdiv : (64*i + k) / 64 = i := by omega
  have hmod : (64*i + k) % 64 = k := by omega
  rw [address, PackedQF.load_getLsbD hk, bit, hdiv, hmod]

theorem bit_store (hq : q.HasBits w) (x : BitVec 64) :
    r.bit (q.store (r.address q i) x) p = if p/64 = i then x.getLsbD (p % 64) else r.bit q p := by
  have hfits := r.fits i
  have hfit := r.fits (p/64)
  have hstride := q.eight_stride
  rw [hq] at hstride
  have hmod : p % 64 < 64 := Nat.mod_lt p (by decide)
  rw [bit, address, store_blockBit (by omega) (by omega)]
  by_cases hi : p/64 = i
  · have hsub : 8 * r.place i + p % 64 - 8 * r.place i = p % 64 := Nat.add_sub_cancel_left ..
    rw [hi, if_pos ⟨rfl, by omega, by omega⟩, if_pos rfl, hsub]
  · have hout : ¬ (r.block (p/64) = r.block i ∧ 8 * r.place i ≤ 8 * r.place (p/64) + p % 64 ∧
        8 * r.place (p/64) + p % 64 < 8 * r.place i + 64) := by
      rintro ⟨hb, h1, h2⟩
      have := r.apart _ _ hi hb
      omega
    rw [if_neg hout, if_neg hi, bit]

theorem bit_store_disjoint (hd : Disjoint r r') (hq : q.HasBits w) (x : BitVec 64) :
    r.bit (q.store (r'.address q i) x) p = r.bit q p := by
  have hfits := r'.fits i
  have hfit := r.fits (p/64)
  have hstride := q.eight_stride
  rw [hq] at hstride
  have hmod : p % 64 < 64 := Nat.mod_lt p (by decide)
  have hout : ¬ (r.block (p/64) = r'.block i ∧ 8 * r'.place i ≤ 8 * r.place (p/64) + p % 64 ∧
      8 * r.place (p/64) + p % 64 < 8 * r'.place i + 64) := by
    rintro ⟨hb, h1, h2⟩
    have := hd _ _ hb
    omega
  rw [bit, address, store_blockBit (by omega) (by omega), if_neg hout, bit]

/-- The step for one word of a row, with the word below or without one. -/
theorem moves (r : WordRow w) (hd : 0 < d) (hd2 : d < 64) (hb : bstart < 64) :
    Moves (HasBits w) r.bit d bstart
      (fun j bend => r.shiftAt 0 d j bend fun q => q.load (r.address q (j-1)))
      (fun j bend => r.shiftAt bstart d j bend fun _ => 0#64) where
  inner q hq j bend hbend p := by
    have hmod : p % 64 < 64 := Nat.mod_lt p (by decide)
    simp only [shiftAt, shiftWordAt, bit_store hq, Nat.add_sub_cancel]
    by_cases hword : p/64 = j+1
    · rw [if_pos hword, getLsbD_shiftIntoB_amount (by decide) (Nat.zero_le _) hbend hd hd2 hmod]
      by_cases hin : p % 64 < bend
      · have hrange : 64*(j+1) ≤ p ∧ p < 64*(j+1) + bend := by omega
        rw [if_pos ⟨Nat.zero_le _, hin⟩, if_pos hrange]
        by_cases hgap : p % 64 < 0 + d
        · have hbelow : 64*j + (64 - d + p % 64) = p - d := by omega
          rw [if_pos hgap, load_getLsbD (by omega), hbelow]
          rfl
        · have hsame : 64*(j+1) + (p % 64 - d) = p - d := by omega
          rw [if_neg hgap, load_getLsbD (by omega), hsame]
      · have hsame : 64*(j+1) + p % 64 = p := by omega
        rw [if_neg (by omega), if_neg (by omega), load_getLsbD hmod, hsame]
    · rw [if_neg hword, if_neg (by omega)]
  last q hq j bend hstart hbend p := by
    have hmod : p % 64 < 64 := Nat.mod_lt p (by decide)
    simp only [shiftAt, shiftWordAt, bit_store hq]
    by_cases hword : p/64 = j
    · rw [if_pos hword, getLsbD_shiftIntoB_amount hb hstart hbend hd hd2 hmod]
      by_cases hin : bstart ≤ p % 64 ∧ p % 64 < bend
      · have hrange : 64*j + bstart ≤ p ∧ p < 64*j + bend := by omega
        rw [if_pos hin, if_pos hrange]
        by_cases hgap : p % 64 < bstart + d
        · rw [if_pos hgap, if_pos (by omega)]
          simp
        · have hsame : 64*j + (p % 64 - d) = p - d := by omega
          rw [if_neg hgap, if_neg (by omega), load_getLsbD (by omega), hsame]
      · have hsame : 64*j + p % 64 = p := by omega
        rw [if_neg hin, if_neg (by omega), load_getLsbD hmod, hsame]
    · rw [if_neg hword, if_neg (by omega)]

end WordRow

/-! Slots. Slot `s` holds the bits from `s*w` on of the row of slots. -/

section
variable {q : PackedQF} {i j c s t w : Nat}

theorem slot_div_mod (hw : 0 < w) (ht : t < w) :
    (s*w + t) / (64*w) = s/64 ∧ (s*w + t) % (64*w) = s % 64 * w + t := by
  have hs : s*w = s/64 * (64*w) + s % 64 * w := by
    rw [← Nat.mul_assoc, ← Nat.add_mul, Nat.mul_comm (s/64), Nat.div_add_mod]
  have hlt : s % 64 * w + t < 64*w := by
    have hrow : s % 64 * w ≤ 63 * w := Nat.mul_le_mul_right w (by omega)
    omega
  have hpos : 0 < 64*w := by omega
  have heq : s*w + t = s % 64 * w + t + s/64 * (64*w) := by omega
  rw [heq, Nat.add_mul_div_right _ _ hpos, Nat.add_mul_mod_self_right, Nat.div_eq_of_lt hlt,
    Nat.mod_eq_of_lt hlt, Nat.zero_add]
  exact ⟨rfl, rfl⟩

theorem remainderRow_bit (hw : 0 < w) (p : Nat) : (remainderRow w hw).bit q p =
    q.blockBit (p / (64*w)) (200 + p % (64*w)) := by
  have hplace : 8 * (25 + 8 * (p/64 % w)) + p % 64 = 200 + p % (64*w) := by
    rw [Nat.mod_mul]
    omega
  show q.blockBit (p/64/w) (8 * (25 + 8 * (p/64 % w)) + p % 64) = _
  rw [hplace, Nat.div_div_eq_div_mul]

theorem slot_bit (hw : 0 < w) (ht : t < w) : (remainderRow w hw).bit q (s*w + t) =
    q.blockBit (s/64) (200 + s % 64 * w + t) := by
  obtain ⟨hdiv, hmod⟩ := slot_div_mod (s := s) hw ht
  rw [remainderRow_bit, hdiv, hmod, Nat.add_assoc]

/-- The word at the address of a slot begins `slotShift` bits in front of it. -/
theorem slotAddress_bit (q : PackedQF) (s : Nat) :
    8 * q.slotAddress s + q.slotShift s = 8 * q.getBlock (s/64) +
      (200 + s % 64 * q.bitsPerSlot) := by
  unfold slotAddress slotShift
  omega

theorem slotShift_lt (q : PackedQF) (s : Nat) : q.slotShift s < 8 := Nat.mod_lt _ (by decide)

theorem testBit_slotValue (hq : q.HasBits w) (hw : 0 < w) (hw2 : w ≤ 56) (s t : Nat) :
    (q.slotValue s).testBit t = (decide (t < w) && (remainderRow w hw).bit q (s*w + t)) := by
  have hbits : q.bitsPerSlot = w := hq
  have hshift := q.slotShift_lt s
  unfold slotValue
  rw [BitVec.testBit_toNat, BitVec.getLsbD_and, BitVec.getLsbD_ushiftRight]
  by_cases ht : t < w
  · have haddr := q.slotAddress_bit s
    have hsum : 8 * q.slotAddress s + (q.slotShift s + t) =
        8 * q.getBlock (s/64) + (200 + s % 64 * w + t) := by
      rw [hbits] at haddr
      omega
    rw [load, getLsbD_readWord (by omega), hsum, getLsbD_bitmask (by omega) (by omega), hbits,
      slot_bit hw ht, blockBit]
    simp [ht]
  · by_cases h64 : t < 64
    · rw [getLsbD_bitmask (by omega) h64, hbits]
      simp [ht]
    · rw [BitVec.getLsbD_of_ge (BitVec.ofNat 64 _) t (by omega)]
      simp [ht]

/-- The word that `set_slot` writes. -/
theorem putSlot_word (hw : w ≤ 56) {v sh k : Nat} (hv : v < 2^w) (hsh : sh < 8) (hk : k < 64)
    (x : BitVec 64) :
    (x &&& ~~~(BitVec.ofNat 64 (bitmask w) <<< sh) ||| BitVec.ofNat 64 v <<< sh).getLsbD k =
      if sh ≤ k ∧ k < sh + w then v.testBit (k - sh) else x.getLsbD k := by
  simp only [BitVec.getLsbD_or, BitVec.getLsbD_and, BitVec.getLsbD_not, BitVec.getLsbD_shiftLeft]
  by_cases hlow : k < sh
  · have hout : ¬ (sh ≤ k ∧ k < sh + w) := by omega
    rw [if_neg hout]
    simp [hlow, hk]
  · rw [getLsbD_bitmask (by omega) (by omega), BitVec.getLsbD_ofNat]
    by_cases hin : k < sh + w
    · have hmask : k - sh < w := by omega
      have hsub : k - sh < 64 := by omega
      rw [if_pos ⟨by omega, hin⟩]
      simp [hlow, hk, hmask, hsub]
    · have hmask : ¬ k - sh < w := by omega
      have hbit : v.testBit (k - sh) = false :=
        Nat.testBit_lt_two_pow (hv.trans_le (Nat.pow_le_pow_right (by decide) (by omega)))
      rw [if_neg (by omega), hbit]
      simp [hk, hmask]

/-- `set_slot` changes the bits of its slot and no other bit of any block. -/
theorem putSlot_blockBit (hq : q.HasBits w) (hw : w ≤ 56) {v : Nat} (hv : v < 2^w)
    (hc : c < 8 * q.stride) :
    (q.putSlot s v).blockBit j c =
      if j = s/64 ∧ 200 + s % 64 * w ≤ c ∧ c < 200 + s % 64 * w + w then
        v.testBit (c - (200 + s % 64 * w)) else q.blockBit j c := by
  have haddr := q.slotAddress_bit s
  have hshift := q.slotShift_lt s
  have hstride := q.eight_stride
  have hrow : s % 64 * w ≤ 63 * w := Nat.mul_le_mul_right w (by omega)
  have hbit : (q.putSlot s v).blockBit j c = bit (writeWord q.memory (q.slotAddress s)
      (q.load (q.slotAddress s) &&& ~~~(BitVec.ofNat 64 (bitmask w) <<< q.slotShift s) |||
        BitVec.ofNat 64 v <<< q.slotShift s)) (8 * q.getBlock j + c) := by
    rw [← hq]
    rfl
  rw [hq] at haddr hstride
  rw [hbit, bit_writeWord]
  by_cases hin : j = s/64 ∧ 200 + s % 64 * w ≤ c ∧ c < 200 + s % 64 * w + w
  · obtain ⟨rfl, h1, h2⟩ := hin
    have hsub : 8 * q.getBlock (s/64) + c - 8 * q.slotAddress s - q.slotShift s =
        c - (200 + s % 64 * w) := by omega
    rw [if_pos (by omega), if_pos ⟨rfl, h1, h2⟩, putSlot_word hw hv hshift (by omega),
      if_pos (by omega), hsub]
  · rw [if_neg hin]
    split
    next hword =>
      have hback : 8 * q.slotAddress s + (8 * q.getBlock j + c - 8 * q.slotAddress s) =
          8 * q.getBlock j + c := by omega
      have hout : ¬ (q.slotShift s ≤ 8 * q.getBlock j + c - 8 * q.slotAddress s ∧
          8 * q.getBlock j + c - 8 * q.slotAddress s < q.slotShift s + w) := by
        rintro ⟨h1, h2⟩
        obtain ⟨m, hm⟩ := Nat.exists_eq_add_of_le h1
        have heq : 8 * q.getBlock j + c = 8 * q.getBlock (s/64) + (200 + s % 64 * w + m) := by omega
        obtain ⟨hj, hcm⟩ := block_ext hc (by omega) heq
        exact hin ⟨hj, by omega, by omega⟩
      rw [putSlot_word hw hv hshift (by omega), if_neg hout, load, getLsbD_readWord (by omega),
        hback, blockBit]
    next => rfl

end

/-! What the three calls do to the bits of the blocks. -/

section
variable {q : PackedQF} {i e j c o s t v w : Nat}

theorem mul_add_le {a b : Nat} (w : Nat) (h : a < b) : a*w + w ≤ b*w := by
  rw [← Nat.succ_mul]
  exact Nat.mul_le_mul_right w h

theorem putSlot_slot_bit (hq : q.HasBits w) (hw : 0 < w) (hw2 : w ≤ 56) (hv : v < 2^w)
    (ht : t < w) : (remainderRow w hw).bit (q.putSlot i v) (s*w + t) =
      if s = i then v.testBit t else (remainderRow w hw).bit q (s*w + t) := by
  have hrow : s % 64 * w ≤ 63 * w := Nat.mul_le_mul_right w (by omega)
  have hstride := q.eight_stride
  rw [hq] at hstride
  rw [slot_bit hw ht, slot_bit hw ht, putSlot_blockBit hq hw2 hv (by omega)]
  by_cases hs : s = i
  · have hsub : 200 + i % 64 * w + t - (200 + i % 64 * w) = t := Nat.add_sub_cancel_left ..
    rw [hs, if_pos rfl, if_pos ⟨rfl, by omega, by omega⟩, hsub]
  · have hout : ¬ (s/64 = i/64 ∧ 200 + i % 64 * w ≤ 200 + s % 64 * w + t ∧
        200 + s % 64 * w + t < 200 + i % 64 * w + w) := by
      rintro ⟨hdiv, h1, h2⟩
      rcases Nat.lt_trichotomy (s % 64) (i % 64) with hlt | heq | hgt
      · have := mul_add_le w hlt
        omega
      · omega
      · have := mul_add_le w hgt
        omega
    rw [if_neg hout, if_neg hs]

theorem shiftRemainders_eq (hq : q.HasBits w) (hw : 0 < w) : q.shiftRemainders i e =
    shiftWords
      (fun word bend => (remainderRow w hw).shiftAt 0 w word bend
        fun q => q.load ((remainderRow w hw).address q (word-1)))
      (fun word bend => (remainderRow w hw).shiftAt (i*w % 64) w word bend fun _ => 0#64)
      (i*w/64) ((e+1)*w/64 - i*w/64) ((e+1)*w % 64) q := by
  have hbits : q.bitsPerSlot = w := hq
  have hkeep : Keeps (HasBits w) shiftRemainder := fun s hs j bend => hs
  simp only [shiftRemainders, hbits]
  refine shiftWords_congr (fun s hs j bend => ?_) (fun s hs j bend => ?_) hkeep hq
  · have hs' : s.bitsPerSlot = w := hs
    rw [shiftRemainder, remainderWord, remainderWord, hs']
    rfl
  · have hs' : s.bitsPerSlot = w := hs
    rw [shiftRemainderFirst, remainderWord, hs']
    rfl

theorem shiftRemainders_slot_bit (hq : q.HasBits w) (hw : 0 < w) (hw2 : w ≤ 56)
    (hie : i ≤ e) (hs : s ≠ i) (ht : t < w) :
    (remainderRow w hw).bit (q.shiftRemainders i e) (s*w + t) =
      (remainderRow w hw).bit q ((if i < s ∧ s ≤ e then s - 1 else s)*w + t) := by
  have hlo : i*w = 64*(i*w/64) + i*w % 64 := by omega
  have hle : i*w ≤ (e+1)*w := Nat.mul_le_mul_right w (by omega)
  have hdiv : i*w/64 ≤ (e+1)*w/64 := Nat.div_le_div_right hle
  have hhi : (e+1)*w = 64*(i*w/64 + ((e+1)*w/64 - i*w/64)) + (e+1)*w % 64 := by omega
  have hmod : i*w % 64 < 64 := Nat.mod_lt _ (by decide)
  have hbend : (e+1)*w % 64 ≤ 64 := Nat.le_of_lt (Nat.mod_lt _ (by decide))
  rw [shiftRemainders_eq hq hw, ((remainderRow w hw).moves hw (by omega) hmod).shiftWords hmod hbend
    hlo hhi hle (fun s hs j bend => hs) hq]
  rcases Nat.lt_trichotomy s i with hlt | heq | hgt
  · have hfront := mul_add_le w hlt
    rw [if_neg (by omega), if_neg (by omega)]
  · exact absurd heq hs
  · have hbehind := mul_add_le w hgt
    by_cases hse : s ≤ e
    · have hin := mul_add_le w (show s < e + 1 by omega)
      have hsub : s*w + t - w = (s-1)*w + t := by
        obtain ⟨r, rfl⟩ := Nat.exists_eq_add_of_lt hgt
        rw [Nat.add_sub_cancel, Nat.succ_mul]
        omega
      rw [if_pos (by omega), if_neg (by omega), if_pos ⟨hgt, hse⟩, hsub]
    · have hmore : (e+1)*w ≤ s*w := Nat.mul_le_mul_right w (by omega)
      rw [if_neg (by omega), if_neg (by omega)]

theorem shiftWordAt_frame (hq : q.HasBits w) (ho : 8*o + 64 ≤ 200 + 64*w) (hc : c < 200 + 64*w)
    (hout : c < 8*o ∨ 8*o + 64 ≤ c) (a : BitVec 64) (bstart bend d : Nat) :
    (q.shiftWordAt (q.getBlock i + o) a bstart bend d).blockBit j c = q.blockBit j c := by
  have hstride := q.eight_stride
  rw [hq] at hstride
  rw [shiftWordAt, store_blockBit (by omega) (by omega), if_neg (by omega)]

theorem WordRow.shiftAt_frame (r : WordRow w) (hq : q.HasBits w) (hc : c < 200 + 64*w) {k : Nat}
    (hout : c < 8 * r.place k ∨ 8 * r.place k + 64 ≤ c) (bstart d bend : Nat)
    (a : PackedQF → BitVec 64) :
    (r.shiftAt bstart d k bend a q).blockBit j c = q.blockBit j c :=
  shiftWordAt_frame hq (r.fits k) hc hout (a q) bstart bend d

theorem shiftRemainders_blockBit (hq : q.HasBits w) (hw : 0 < w) (hc : c < 200) :
    (q.shiftRemainders i e).blockBit j c = q.blockBit j c := by
  have hplace : ∀ k, c < 8 * (remainderRow w hw).place k := by
    intro k
    show c < 8 * (25 + 8 * (k % w))
    omega
  have hinner : Frames (HasBits w) (fun q => q.blockBit j c) (fun word bend =>
      (remainderRow w hw).shiftAt 0 w word bend
        fun q => q.load ((remainderRow w hw).address q (word-1))) :=
    fun s hs k bend => (remainderRow w hw).shiftAt_frame hs (by omega) (.inl (hplace k)) _ _ _ _
  have hlast : Frames (HasBits w) (fun q => q.blockBit j c) (fun word bend =>
      (remainderRow w hw).shiftAt (i*w % 64) w word bend fun _ => 0#64) :=
    fun s hs k bend => (remainderRow w hw).shiftAt_frame hs (by omega) (.inl (hplace k)) _ _ _ _
  rw [shiftRemainders_eq hq hw]
  exact hinner.shiftWords hlast (fun s hs k bend => hs) hq

/-! Runends and extensions. -/

theorem WordRow.disjoint_frames {r r' : WordRow w} (h : WordRow.Disjoint r r') (bstart d : Nat)
    (a : Nat → PackedQF → BitVec 64) :
    Frames (HasBits w) r.bit fun word bend => r'.shiftAt bstart d word bend (a word) :=
  fun _ hs _ _ => funext fun _ => WordRow.bit_store_disjoint h hs _

def runendsRow (w : Nat) : WordRow w := fieldRow w 9 (by decide)

def extensionsRow (w : Nat) : WordRow w := fieldRow w 17 (by decide)

theorem fields_disjoint (w : Nat) : (runendsRow w).Disjoint (extensionsRow w) :=
  fun _ _ _ => .inl (show 9 + 8 ≤ 17 by decide)

theorem fields_disjoint' (w : Nat) : (extensionsRow w).Disjoint (runendsRow w) :=
  fun _ _ _ => .inr (show 9 + 8 ≤ 17 by decide)

theorem runendsRow_moves (w : Nat) {d bstart : Nat} (hd : 0 < d) (hd2 : d < 64) (hb : bstart < 64) :
    Moves (HasBits w) (runendsRow w).bit d bstart (shiftBoth d) (shiftBothFirst bstart d) :=
  ((runendsRow w).moves hd hd2 hb).andThen
    (WordRow.disjoint_frames (fields_disjoint w) 0 d
      fun word q => q.load ((extensionsRow w).address q (word-1)))
    (WordRow.disjoint_frames (fields_disjoint w) bstart d fun _ _ => 0#64)
    (fun _ hs _ _ => hs) (fun _ hs _ _ => hs)

theorem extensionsRow_moves (w : Nat) {d bstart : Nat} (hd : 0 < d) (hd2 : d < 64)
    (hb : bstart < 64) :
    Moves (HasBits w) (extensionsRow w).bit d bstart (shiftBoth d) (shiftBothFirst bstart d) :=
  ((extensionsRow w).moves hd hd2 hb).after
    (WordRow.disjoint_frames (fields_disjoint' w) 0 d
      fun word q => q.load ((runendsRow w).address q (word-1)))
    (WordRow.disjoint_frames (fields_disjoint' w) bstart d fun _ _ => 0#64)
    (fun _ hs _ _ => hs) (fun _ hs _ _ => hs)

def shiftedRunends (q : PackedQF) (i e : Nat) : PackedQF :=
  shiftWords (shiftBoth 1) (shiftBothFirst (i % 64) 1) (i/64) ((e+1)/64 - i/64) ((e+1) % 64) q

theorem shiftRunends_eq (he : 1 ≤ e) (hx : e < q.xnslots) :
    q.shiftRunends i (e-1) 1 = some (q.shiftedRunends i e) := by
  have hend : e - 1 + 1 + 1 = e + 1 := by omega
  rw [shiftRunends, if_pos ⟨by omega, by decide⟩, hend]
  rfl

theorem shiftedRunends_bit {row : PackedQF → Nat → Bool} (hq : q.HasBits w) (hie : i ≤ e)
    (h : Moves (HasBits w) row 1 (i % 64) (shiftBoth 1) (shiftBothFirst (i % 64) 1)) (s : Nat) :
    row (q.shiftedRunends i e) s =
      if s = i then false else row q (if i < s ∧ s ≤ e then s - 1 else s) := by
  have hlo : i = 64*(i/64) + i % 64 := by omega
  have hhi : e + 1 = 64*(i/64 + ((e+1)/64 - i/64)) + (e+1) % 64 := by omega
  rw [shiftedRunends, h.shiftWords (by omega) (by omega) hlo hhi (by omega) (fun _ hs _ _ => hs) hq]
  by_cases hs : s = i
  · rw [if_pos (by omega), if_pos (by omega), if_pos hs]
  · by_cases hin : i < s ∧ s ≤ e
    · rw [if_pos (by omega), if_neg (by omega), if_neg hs, if_pos hin]
    · rw [if_neg (by omega), if_neg hs, if_neg hin]

theorem shiftedRunends_blockBit (hq : q.HasBits w) (hc : c < 200 + 64*w) (hout : c < 72 ∨ 200 ≤ c) :
    (q.shiftedRunends i e).blockBit j c = q.blockBit j c := by
  have hframe : ∀ (s : PackedQF), s.HasBits w → ∀ k bstart bend a b,
      ((s.shiftWordAt (s.runendsWord k) a bstart bend 1).shiftWordAt
        (s.extensionsWord k) b bstart bend 1).blockBit j c = s.blockBit j c := by
    intro s hs k bstart bend a b
    have hrun := shiftWordAt_frame (i := k) (j := j) (o := 9) hs (by omega) hc (by omega) a bstart
      bend 1
    have hs' : (s.shiftWordAt (s.runendsWord k) a bstart bend 1).HasBits w := hs
    exact (shiftWordAt_frame (i := k) (o := 17) hs' (by omega) hc (by omega) b bstart bend 1).trans
      hrun
  have hboth : Frames (HasBits w) (fun q => q.blockBit j c) (shiftBoth 1) :=
    fun s hs k bend => hframe s hs k 0 bend _ _
  have hfirst : Frames (HasBits w) (fun q => q.blockBit j c) (shiftBothFirst (i % 64) 1) :=
    fun s hs k bend => hframe s hs k (i % 64) bend _ _
  rw [shiftedRunends]
  exact hboth.shiftWords hfirst (fun _ hs _ _ => hs) hq

/-! The cells. -/

theorem runendBit_eq (q : PackedQF) (w s : Nat) : q.runendBit s = (runendsRow w).bit q s :=
  load_getLsbD (Nat.mod_lt s (by decide))

theorem extensionBit_eq (q : PackedQF) (w s : Nat) : q.extensionBit s = (extensionsRow w).bit q s :=
  load_getLsbD (Nat.mod_lt s (by decide))

theorem occupiedBit_eq (q : PackedQF) (s : Nat) :
    q.occupiedBit s = q.blockBit (s/64) (8 + s % 64) :=
  load_getLsbD (Nat.mod_lt s (by decide))

theorem offset_eq {q' : PackedQF} (hs : q'.stride = q.stride)
    (h : ∀ k, k < 8 → q'.blockBit j k = q.blockBit j k) : q'.offset j = q.offset j := by
  have hblock : q'.getBlock j = q.getBlock j := by rw [getBlock, hs, getBlock]
  unfold offset
  rw [hblock]
  congr 1
  apply BitVec.eq_of_getLsbD_eq
  intro k hk
  have hbit := h k hk
  have hdiv : (8 * q.getBlock j + k) / 8 = q.getBlock j := by omega
  have hmod : (8 * q.getBlock j + k) % 8 = k := by omega
  rwa [blockBit, blockBit, hblock, bit, bit, hdiv, hmod] at hbit

def geometry (q : PackedQF) : Nat × Nat := (q.bitsPerSlot, q.xnslots)

theorem shiftRemainders_geometry (q : PackedQF) (i e : Nat) :
    (q.shiftRemainders i e).geometry = q.geometry := by
  have hinner : Frames (fun _ => True) geometry shiftRemainder := fun _ _ _ _ => rfl
  have hlast : ∀ b, Frames (fun _ => True) geometry (shiftRemainderFirst b) := fun _ _ _ _ _ => rfl
  exact hinner.shiftWords (hlast _) (fun _ hs _ _ => hs) True.intro

theorem shiftedRunends_geometry (q : PackedQF) (i e : Nat) :
    (q.shiftedRunends i e).geometry = q.geometry := by
  have hinner : Frames (fun _ => True) geometry (shiftBoth 1) := fun _ _ _ _ => rfl
  have hlast : ∀ b, Frames (fun _ => True) geometry (shiftBothFirst b 1) := fun _ _ _ _ _ => rfl
  exact hinner.shiftWords (hlast _) (fun _ hs _ _ => hs) True.intro

theorem shiftRemainders_hasBits (hq : q.HasBits w) (i e : Nat) :
    (q.shiftRemainders i e).HasBits w :=
  (congrArg Prod.fst (q.shiftRemainders_geometry i e)).trans hq

def opened (q : PackedQF) (i e v : Nat) : PackedQF :=
  ((q.shiftRemainders i e).putSlot i v).shiftedRunends i e

theorem openSlot_eq (hie : i ≤ e) (he : 1 ≤ e) (hx : e < q.xnslots) :
    q.openSlot i e v = some (q.opened i e v) := by
  have hrem : (q.shiftRemainders i e).xnslots = q.xnslots :=
    congrArg Prod.snd (q.shiftRemainders_geometry i e)
  have hput : ((q.shiftRemainders i e).putSlot i v).xnslots = q.xnslots := hrem
  rw [openSlot, setSlot, if_pos (by omega)]
  exact shiftRunends_eq he (by omega)

theorem opened_geometry (q : PackedQF) (i e v : Nat) : (q.opened i e v).geometry = q.geometry :=
  (shiftedRunends_geometry _ i e).trans (shiftRemainders_geometry q i e)

/-- Bits in front of the slots, except runends and extensions, stay as they are. -/
theorem opened_blockBit (hq : q.HasBits w) (hw : 0 < w) (hw2 : w ≤ 56) (hv : v < 2^w)
    (hc : c < 72) : (q.opened i e v).blockBit j c = q.blockBit j c := by
  have hrem := shiftRemainders_hasBits hq i e
  have hput : ((q.shiftRemainders i e).putSlot i v).HasBits w := hrem
  have hstride := (q.shiftRemainders i e).eight_stride
  rw [opened, shiftedRunends_blockBit hput (by omega) (.inl hc),
    putSlot_blockBit hrem hw2 hv (by omega), if_neg (by omega),
    shiftRemainders_blockBit hq hw (by omega)]

def source (i e s : Nat) : Nat := if i < s ∧ s ≤ e then s - 1 else s

theorem opened_slot_bit (hq : q.HasBits w) (hw : 0 < w) (hw2 : w ≤ 56) (hie : i ≤ e)
    (hv : v < 2^w) (ht : t < w) (s : Nat) :
    (remainderRow w hw).bit (q.opened i e v) (s*w + t) =
      if s = i then v.testBit t else (remainderRow w hw).bit q (source i e s * w + t) := by
  have hrem := shiftRemainders_hasBits hq i e
  have hput : ((q.shiftRemainders i e).putSlot i v).HasBits w := hrem
  have hrow : s % 64 * w ≤ 63 * w := Nat.mul_le_mul_right w (by omega)
  have hlast : (remainderRow w hw).bit (q.opened i e v) (s*w + t) =
      (remainderRow w hw).bit ((q.shiftRemainders i e).putSlot i v) (s*w + t) := by
    rw [opened, slot_bit hw ht, slot_bit hw ht,
      shiftedRunends_blockBit hput (by omega) (.inr (by omega))]
  rw [hlast, putSlot_slot_bit hrem hw hw2 hv ht]
  by_cases hs : s = i
  · rw [if_pos hs, if_pos hs]
  · rw [if_neg hs, if_neg hs, shiftRemainders_slot_bit hq hw hw2 hie hs ht, source]

theorem opened_slotValue (hq : q.HasBits w) (hw : 0 < w) (hw2 : w ≤ 56) (hie : i ≤ e)
    (hv : v < 2^w) (s : Nat) :
    (q.opened i e v).slotValue s = if s = i then v else q.slotValue (source i e s) := by
  have hopen : (q.opened i e v).HasBits w := (congrArg Prod.fst (q.opened_geometry i e v)).trans hq
  apply Nat.eq_of_testBit_eq
  intro t
  rw [testBit_slotValue hopen hw hw2]
  by_cases ht : t < w
  · rw [opened_slot_bit hq hw hw2 hie hv ht]
    split
    · simp [ht]
    · rw [testBit_slotValue hq hw hw2]
  · rw [decide_eq_false ht, Bool.false_and]
    split
    · exact (Nat.testBit_lt_two_pow
        (hv.trans_le (Nat.pow_le_pow_right (by decide) (by omega)))).symm
    · rw [testBit_slotValue hq hw hw2, decide_eq_false ht, Bool.false_and]

/-- The bits of a field of the blocks are moved by the last call alone. -/
theorem opened_field (hq : q.HasBits w) (hw : 0 < w) (hw2 : w ≤ 56) (hie : i ≤ e) (hv : v < 2^w)
    {field : Nat} (hf : 8 * field + 64 ≤ 200)
    (h : Moves (HasBits w) (fieldRow w field hf).bit 1 (i % 64) (shiftBoth 1)
      (shiftBothFirst (i % 64) 1)) (s : Nat) :
    (fieldRow w field hf).bit (q.opened i e v) s =
      if s = i then false else (fieldRow w field hf).bit q (source i e s) := by
  have hrem := shiftRemainders_hasBits hq i e
  have hput : ((q.shiftRemainders i e).putSlot i v).HasBits w := hrem
  have hstride := (q.shiftRemainders i e).eight_stride
  rw [opened, shiftedRunends_bit hput hie h]
  by_cases hs : s = i
  · rw [if_pos hs, if_pos hs]
  · have hmod := Nat.mod_lt (source i e s) (show 64 > 0 by decide)
    rw [if_neg hs, if_neg hs, ← source]
    show PackedQF.blockBit _ _ (8*field + source i e s % 64) =
      q.blockBit _ (8*field + source i e s % 64)
    rw [putSlot_blockBit hrem hw2 hv (by omega), if_neg (by omega),
      shiftRemainders_blockBit hq hw (by omega)]

/-- The three calls insert one cell into the row. -/
theorem opened_view (hw : 0 < q.bitsPerSlot) (hw2 : q.bitsPerSlot ≤ 56) (hie : i ≤ e)
    (hv : v < 2^q.bitsPerSlot) : (q.opened i e v).view =
      { q.view with cell := shiftIn q.view.cell i e ⟨v, false, false⟩ } := by
  have hq : q.HasBits q.bitsPerSlot := rfl
  have hmod : i % 64 < 64 := Nat.mod_lt i (by decide)
  have hgeo := congrArg Prod.fst (q.opened_geometry i e v)
  have hstride : (q.opened i e v).stride = q.stride := by
    unfold stride
    exact congrArg (25 + 64 * · / 8) hgeo
  have hrun := opened_field hq hw hw2 hie hv (by decide)
    (runendsRow_moves q.bitsPerSlot (by decide) (by decide) hmod)
  have hext := opened_field hq hw hw2 hie hv (by decide)
    (extensionsRow_moves q.bitsPerSlot (by decide) (by decide) hmod)
  refine View.ext (funext fun s => ?_) (funext fun s => ?_) (funext fun j => ?_)
  · have hcell : (q.opened i e v).view.cell s = if s = i then ⟨v, false, false⟩ else
        q.view.cell (source i e s) := by
      simp only [view, opened_slotValue hq hw hw2 hie hv, runendBit_eq _ q.bitsPerSlot,
        extensionBit_eq _ q.bitsPerSlot]
      rw [runendsRow, extensionsRow, hrun s, hext s]
      split <;> rfl
    rw [hcell, source]
    show _ = shiftIn q.view.cell i e ⟨v, false, false⟩ s
    unfold shiftIn
    split
    · rfl
    · split <;> rfl
  · show (q.opened i e v).occupiedBit s = q.occupiedBit s
    rw [occupiedBit_eq, occupiedBit_eq, opened_blockBit hq hw hw2 hv (by omega)]
  · exact offset_eq hstride fun k hk => opened_blockBit hq hw hw2 hv (by omega)

end

end PackedQF

structure PackedQF.Stores (q : PackedQF) (qf : QF) : Prop where
  bits : q.bitsPerSlot = qf.bits
  xnslots : q.xnslots = qf.xnslots
  view : q.view = qf.view

/-- One bit of a slot has a new place: bits from `i` to `e` are moved up by one, bit `i` is
cleared. -/
structure BitInserted (old new : Nat → Bool) (i e : Nat) : Prop where
  cleared : new i = false
  moved : ∀ s, i ≤ s → s < e → new (s+1) = old s
  others : ∀ s, s < i ∨ e < s → new s = old s

section
variable {q : PackedQF} {qf : QF} {i e v : Nat}

theorem cells_inserted {c : Nat → Cell} {d : Cell} : shiftIn c i e d i = d ∧
    (∀ s, i ≤ s → s < e → shiftIn c i e d (s+1) = c s) ∧
      ∀ s, s < i ∨ e < s → i ≤ e → shiftIn c i e d s = c s := by
  refine ⟨by simp [shiftIn], fun s h1 h2 => ?_, fun s hs hie => ?_⟩
  · rw [shiftIn, if_neg (by omega), if_pos (by omega), Nat.add_sub_cancel]
  · rw [shiftIn, if_neg (by omega), if_neg (by omega)]

/-- The packed shift inserts a slot, a runend bit and an extension bit, and changes nothing else. -/
theorem packed_shift_inserts (hw : 2 ≤ q.bitsPerSlot) (hw2 : q.bitsPerSlot ≤ 56) (hie : i ≤ e)
    (he : 1 ≤ e) (hx : e < q.xnslots) (hv : v < 2^q.bitsPerSlot) :
    ∃ q', q.openSlot i e v = some q' ∧ q'.getSlot i = some v ∧
      (∀ s, i ≤ s → s < e → q'.getSlot (s+1) = q.getSlot s) ∧
      (∀ s, s < i ∨ e < s → q'.getSlot s = q.getSlot s) ∧
      BitInserted q.runendBit q'.runendBit i e ∧ BitInserted q.extensionBit q'.extensionBit i e ∧
      (∀ s, q'.occupiedBit s = q.occupiedBit s) ∧ ∀ j, q'.offset j = q.offset j := by
  have hview := PackedQF.opened_view (show 0 < q.bitsPerSlot by omega) hw2 hie hv
  have hgeo : (q.opened i e v).xnslots = q.xnslots := congrArg Prod.snd (q.opened_geometry i e v)
  have hcell : ∀ s, (q.opened i e v).view.cell s = shiftIn q.view.cell i e ⟨v, false, false⟩ s :=
    fun s => congrArg (fun w => View.cell w s) hview
  obtain ⟨hself, hmoved, hothers⟩ := @cells_inserted i e q.view.cell ⟨v, false, false⟩
  have hi := (hcell i).trans hself
  have hm := fun s h1 h2 => (hcell (s+1)).trans (hmoved s h1 h2)
  have ho := fun s hs => (hcell s).trans (hothers s hs hie)
  refine ⟨_, PackedQF.openSlot_eq hie he hx, ?_, fun s h1 h2 => ?_, fun s hs => ?_,
    ⟨congrArg Cell.runend hi, fun s h1 h2 => congrArg Cell.runend (hm s h1 h2),
      fun s hs => congrArg Cell.runend (ho s hs)⟩,
    ⟨congrArg Cell.extension hi, fun s h1 h2 => congrArg Cell.extension (hm s h1 h2),
      fun s hs => congrArg Cell.extension (ho s hs)⟩,
    fun s => congrArg (fun w => View.occupied w s) hview,
    fun j => congrArg (fun w => View.offset w j) hview⟩
  · have hval : (q.opened i e v).slotValue i = v := congrArg Cell.value hi
    rw [PackedQF.getSlot, hgeo, if_neg (by omega), if_pos (by omega), hval]
  · have hval : (q.opened i e v).slotValue (s+1) = q.slotValue s := congrArg Cell.value (hm s h1 h2)
    rw [PackedQF.getSlot, PackedQF.getSlot, hgeo, if_neg (by omega), if_pos (by omega),
      if_neg (by omega), if_pos (by omega), hval]
  · have hval : (q.opened i e v).slotValue s = q.slotValue s := congrArg Cell.value (ho s hs)
    rw [PackedQF.getSlot, PackedQF.getSlot, hgeo, hval]

theorem packed_shift_inserts_small :
    ∃ q', (PackedQF.mk 5 192 fun _ => 0#8).openSlot 61 130 21 = some q' ∧
      q'.getSlot 61 = some 21 ∧ q'.getSlot 64 = (PackedQF.mk 5 192 fun _ => 0#8).getSlot 63 := by
  obtain ⟨q', hopen, hself, hmoved, -⟩ :=
    @packed_shift_inserts (PackedQF.mk 5 192 fun _ => 0#8) 61 130 21 (by decide) (by decide)
      (by decide) (by decide) (by decide) (by decide)
  exact ⟨q', hopen, hself, hmoved 63 (by decide) (by decide)⟩

/-- The insertion into the packed blocks refines that into the filter, the offsets apart. -/
theorem PackedQF.Stores.openSlot (h : q.Stores qf) (hw : 0 < qf.bits) (hw2 : qf.bits ≤ 56)
    (hie : i ≤ e) (he : 0 < e) (hx : e < qf.xnslots) (hv : v < 2^qf.bits) (t : Nat) :
    ∃ q' qf', q.openSlot i e v = some q' ∧ AdaptiveQF.openSlot qf t i e v = some qf' ∧
      q'.bitsPerSlot = qf'.bits ∧ q'.xnslots = qf'.xnslots ∧ q'.view.cell = qf'.view.cell ∧
        q'.view.occupied = qf'.view.occupied := by
  obtain ⟨qf', hopen, hframe, hview⟩ := openSlot_view qf t v hie he hx
  rw [← h.xnslots] at hx
  rw [← h.bits] at hw hw2 hv
  have hpacked := PackedQF.opened_view hw hw2 hie hv
  have hgeo := q.opened_geometry i e v
  refine ⟨_, qf', PackedQF.openSlot_eq hie he hx, hopen, ?_, ?_, ?_, ?_⟩
  · have hbits : qf'.bits = qf.bits := congrArg QFMetadata.bitsPerSlot hframe.metadata
    rw [hbits, ← h.bits]
    exact congrArg Prod.fst hgeo
  · have hxnslots : qf'.xnslots = qf.xnslots := congrArg QFMetadata.xnslots hframe.metadata
    rw [hxnslots, ← h.xnslots]
    exact congrArg Prod.snd hgeo
  · rw [hpacked, hview, h.view]
  · rw [hpacked, hview, h.view]

end

end AdaptiveQF
