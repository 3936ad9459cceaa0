import AdaptiveQF.Search

/-! Making room: shift_remainders, shift_runends and insert_one_slot. Together
they insert one cell into the row. -/
namespace AdaptiveQF
open RunLayout

def shiftIntoB (a b : BitVec 64) (bstart bend amount : Nat) : BitVec 64 :=
  let aComponent := if bstart = 0 then a >>> (64 - amount) else 0#64
  let bShiftedMask := BitVec.ofNat 64 (bitmask (bend - bstart)) <<< bstart
  let bShifted := ((bShiftedMask &&& b) <<< amount) &&& bShiftedMask
  let bMask := ~~~bShiftedMask
  (aComponent &&& bShiftedMask) ||| bShifted ||| (b &&& bMask)

/-- The slots from `start` on move up by one, from the last slot down. Slot `start` is left zero,
as `shift_into_b` leaves the bits it shifts away from. -/
def shiftRemaindersFrom (qf : QF) (start : Nat) : Nat → QF
  | 0 => putSlot qf start 0
  | n+1 => shiftRemaindersFrom (putSlot qf (start+n+1) (slotValue qf (start+n))) start n

def shiftRemainders (qf : QF) (startIndex emptyIndex : Nat) : QF :=
  shiftRemaindersFrom qf startIndex (emptyIndex - startIndex)

def shiftWord (qf : QF) (j : Nat) (ra ea : BitVec 64) (bstart bend distance : Nat) : QF :=
  qf.modifyBlock j fun b =>
    { b with
      runends := shiftIntoB ra b.runends bstart bend distance
      extensions := shiftIntoB ea b.extensions bstart bend distance }

def shiftRunendsFrom (qf : QF) (firstWord bstart distance : Nat) : Nat → Nat → QF
  | 0, bend => shiftWord qf firstWord 0#64 0#64 bstart bend distance
  | n+1, bend =>
    let prev := getBlock qf (firstWord+n)
    shiftRunendsFrom (shiftWord qf (firstWord+n+1) prev.runends prev.extensions 0 bend distance)
      firstWord bstart distance n 64

def shiftRunends (qf : QF) (first last distance : Nat) : Option QF :=
  if last < qf.xnslots ∧ distance < 64 then
    some (shiftRunendsFrom qf (first/64) (first%64) distance
      ((last+distance+1)/64 - first/64) ((last+distance+1)%64))
  else none

/-- The blocks of the words that `shift_remainders` stores, from that of `startIndex` to the one
behind `emptyIndex`. Word `i` is in block `i / bits_per_slot`. -/
def shiftRemaindersBlocks (qf : QF) (startIndex emptyIndex : Nat) : List Nat :=
  let lastWord := (emptyIndex+1) * qf.bits / 64
  let firstWord := startIndex * qf.bits / 64
  (List.range' firstWord (lastWord + 1 - firstWord)).map (· / qf.bits)

def shiftRunendsBlocks (first last distance : Nat) : List Nat :=
  List.range' (first/64) ((last+distance+1)/64 + 1 - first/64)

def bumpOffsets (qf : QF) (j : Nat) : Nat → QF
  | 0 => qf
  | n+1 =>
    let o := (getBlock qf j).offset
    bumpOffsets (if o < 255 then setOffset qf j (o+1) else qf) (j+1) n

/-- The part that `insert_one_slot` and `adapt` share, once the empty slot is known. At empty slot 0
the last index to shift wraps around and fails the assertion of `shift_runends`. -/
def openSlot (qf : QF) (targetIndex insertIndex emptySlotIndex value : Nat) : Option QF := do
  let qf ← setSlot (shiftRemainders qf insertIndex emptySlotIndex) insertIndex value
  if emptySlotIndex = 0 then none
  else do
    let qf ← shiftRunends qf insertIndex (emptySlotIndex-1) 1
    some (bumpOffsets qf (targetIndex/64+1) (emptySlotIndex/64 - targetIndex/64))

def noSpace : Int := -1

def insertOneSlot (qf : QF) (targetIndex insertIndex value : Nat) : Option (Int × QF) := do
  let emptySlotIndex ← findFirstEmptySlot qf insertIndex
  if emptySlotIndex ≥ qf.xnslots then some (noSpace, qf)
  else do
    let qf ← openSlot qf targetIndex insertIndex emptySlotIndex value
    some (1, qf)

/-! The blocks of the words. -/

theorem mem_shiftRunendsBlocks {first last distance j : Nat} :
    j ∈ shiftRunendsBlocks first last distance ↔ first/64 ≤ j ∧ j ≤ (last+distance+1)/64 := by
  simp only [shiftRunendsBlocks, List.mem_range'_1]
  omega

theorem mem_shiftRemaindersBlocks {qf : QF} {x e j : Nat} (hw : 0 < qf.bits) (h : x ≤ e + 1) :
    j ∈ shiftRemaindersBlocks qf x e ↔ x/64 ≤ j ∧ j ≤ (e+1)/64 := by
  have hblock : ∀ i, i * qf.bits / 64 / qf.bits = i/64 := fun i => by
    rw [Nat.div_div_eq_div_mul, Nat.mul_div_mul_right _ _ hw]
  have hwords : x * qf.bits / 64 ≤ (e+1) * qf.bits / 64 :=
    Nat.div_le_div_right (Nat.mul_le_mul_right _ h)
  simp only [shiftRemaindersBlocks, List.mem_map, List.mem_range'_1]
  constructor
  · rintro ⟨word, ⟨hlow, hhigh⟩, rfl⟩
    rw [← hblock x, ← hblock (e+1)]
    exact ⟨Nat.div_le_div_right hlow, Nat.div_le_div_right (by omega)⟩
  · rintro ⟨hlow, hhigh⟩
    -- the first word of the block, or the first word of all
    refine ⟨max (x * qf.bits / 64) (j * qf.bits), ?_, ?_⟩
    · have hlast : j * qf.bits ≤ (e+1) * qf.bits / 64 := by
        rw [Nat.le_div_iff_mul_le (by decide), Nat.mul_right_comm]
        exact Nat.mul_le_mul_right _ (by omega)
      omega
    · have hself : j * qf.bits / qf.bits = j := Nat.mul_div_cancel _ hw
      rcases Nat.le_total (x * qf.bits / 64) (j * qf.bits) with hle | hle
      · rw [Nat.max_eq_right hle, hself]
      · rw [Nat.max_eq_left hle, hblock]
        have hback := Nat.div_le_div_right (c := qf.bits) hle
        rw [hself, hblock] at hback
        omega

/-! One word. -/

theorem getLsbD_shiftIntoB {a b : BitVec 64} {bstart bend k : Nat} (h1 : bstart < 64)
    (h2 : bstart ≤ bend) (h3 : bend ≤ 64) (hk : k < 64) :
    (shiftIntoB a b bstart bend 1).getLsbD k =
      if bstart ≤ k ∧ k < bend then
        if k = bstart then decide (k = 0) && a.getLsbD 63 else b.getLsbD (k-1)
      else b.getLsbD k := by
  have hmask : ∀ i, i < 64 → (BitVec.ofNat 64 (bitmask (bend - bstart)) <<< bstart).getLsbD i =
      (decide (bstart ≤ i) && decide (i < bend)) := by
    intro i hi
    rw [BitVec.getLsbD_shiftLeft]
    by_cases hbi : bstart ≤ i
    · rw [getLsbD_bitmask (by omega) (by omega)]
      have hd : decide (i - bstart < bend - bstart) = decide (i < bend) :=
        decide_eq_decide.mpr (by omega)
      simp [hi, hbi, hd]
    · simp [hbi]
  unfold shiftIntoB
  generalize BitVec.ofNat 64 (bitmask (bend - bstart)) <<< bstart = m at hmask ⊢
  simp only [BitVec.getLsbD_or, BitVec.getLsbD_and, BitVec.getLsbD_not, hmask k hk,
    BitVec.getLsbD_shiftLeft]
  by_cases hin : bstart ≤ k ∧ k < bend
  · rw [if_pos hin]
    by_cases hs : k = bstart
    · rw [if_pos hs]
      by_cases h0 : k = 0
      · have hb0 : bstart = 0 := by omega
        have hbe : 0 < bend := by omega
        simp [h0, hb0, hbe]
      · have hm := hmask (k-1) (by omega)
        have hb0 : bstart ≠ 0 := by omega
        have hkm : ¬ bstart ≤ k - 1 := by omega
        simp [h0, hb0, hin.1, hin.2, hm, hkm, hk]
    · rw [if_neg hs]
      have hm := hmask (k-1) (by omega)
      have hkm : bstart ≤ k - 1 := by omega
      have hkb : k - 1 < bend := by omega
      have hk0 : ¬ k < 1 := by omega
      by_cases h0 : bstart = 0
      · have ha : (a >>> (64 - 1)).getLsbD k = false := by
          rw [BitVec.getLsbD_ushiftRight, BitVec.getLsbD_of_ge _ _ (by omega)]
        rw [if_pos h0, ha, hm]
        simp [hin.1, hin.2, hkm, hkb, hk, hk0]
      · rw [if_neg h0, hm]
        simp [hin.1, hin.2, hkm, hkb, hk, hk0]
  · rw [if_neg hin]
    have : (decide (bstart ≤ k) && decide (k < bend)) = false := by
      simpa using hin
    rw [this]
    simp [hk]

/-! The row. -/

def shiftValues (c : Nat → Cell) (x e : Nat) : Nat → Cell := fun s =>
  { c s with value :=
      if s = x then 0 else if x < s ∧ s ≤ e then (c (s-1)).value else (c s).value }

def shiftBits (c : Nat → Cell) (x e : Nat) : Nat → Cell := fun s =>
  if s = x then ⟨(c s).value, false, false⟩
  else if x < s ∧ s ≤ e then ⟨(c s).value, (c (s-1)).runend, (c (s-1)).extension⟩ else c s

/-- The three steps of an insertion, on cells. -/
theorem shiftIn_eq (c : Nat → Cell) (x e v : Nat) :
    shiftBits (Function.update (shiftValues c x e) x { shiftValues c x e x with value := v }) x e =
      shiftIn c x e ⟨v, false, false⟩ := by
  funext s
  unfold shiftBits shiftIn
  by_cases hs : s = x
  · simp [hs]
  · rw [if_neg hs, if_neg hs]
    by_cases hin : x < s ∧ s ≤ e
    · rw [if_pos hin, if_pos hin, Function.update_of_ne hs]
      by_cases hs1 : s - 1 = x
      · simp [hs1, shiftValues, hs, hin]
      · rw [Function.update_of_ne hs1]
        simp [shiftValues, hs, hin]
    · rw [if_neg hin, if_neg hin, Function.update_of_ne hs]
      unfold shiftValues
      rw [if_neg hs, if_neg hin]

theorem view_shiftRemaindersFrom (qf : QF) (x n : Nat) : (shiftRemaindersFrom qf x n).view =
    { qf.view with cell := shiftValues qf.view.cell x (x+n) } := by
  induction n generalizing qf with
  | zero =>
    unfold shiftRemaindersFrom
    rw [view_putSlot]
    refine View.ext (funext fun s => ?_) rfl rfl
    by_cases hs : s = x
    · simp [View.setValue, shiftValues, hs]
    · have : ¬ (x < s ∧ s ≤ x) := by omega
      simp [View.setValue, shiftValues, hs, this]
  | succ n ih =>
    unfold shiftRemaindersFrom
    rw [ih, view_putSlot]
    have hv : slotValue qf (x+n) = (qf.view.cell (x+n)).value := rfl
    refine View.ext (funext fun s => ?_) rfl rfl
    simp only [View.setValue, shiftValues, hv]
    by_cases hs : s = x+n+1
    · subst hs
      have h1 : ¬ (x < x+n+1 ∧ x+n+1 ≤ x+n) := by omega
      have h2 : x < x+n+1 ∧ x+n+1 ≤ x+(n+1) := by omega
      have h3 : x+n+1 ≠ x := by omega
      rw [if_neg h3, if_neg h3, if_neg h1, if_pos h2, Function.update_self]
      rfl
    · rw [Function.update_of_ne hs]
      by_cases hx : s = x
      · rw [if_pos hx, if_pos hx]
      · rw [if_neg hx, if_neg hx]
        by_cases h : x < s ∧ s ≤ x+n
        · rw [if_pos h, if_pos (by omega), Function.update_of_ne (by omega)]
        · rw [if_neg h, if_neg (by omega)]

theorem view_shiftWord (qf : QF) (j : Nat) (ra ea : BitVec 64) {bstart bend : Nat}
    (h1 : bstart < 64) (h2 : bstart ≤ bend) (h3 : bend ≤ 64) (s : Nat) :
    (shiftWord qf j ra ea bstart bend 1).view.cell s =
      if 64*j + bstart ≤ s ∧ s < 64*j + bend then
        if s = 64*j + bstart then
          ⟨(qf.view.cell s).value, decide (bstart = 0) && ra.getLsbD 63,
            decide (bstart = 0) && ea.getLsbD 63⟩
        else ⟨(qf.view.cell s).value, (qf.view.cell (s-1)).runend, (qf.view.cell (s-1)).extension⟩
      else qf.view.cell s := by
  rw [shiftWord, view_modifyBlock]
  have hsb : s = 64*(s/64) + s%64 := by omega
  by_cases hj : s / 64 = j
  · subst hj
    have hk := Nat.mod_lt s (by omega : 64 > 0)
    have hr := getLsbD_shiftIntoB (a := ra) (b := (getBlock qf (s/64)).runends) h1 h2 h3 hk
    have hx := getLsbD_shiftIntoB (a := ea) (b := (getBlock qf (s/64)).extensions) h1 h2 h3 hk
    simp only [if_true, hr, hx]
    by_cases hin : bstart ≤ s % 64 ∧ s % 64 < bend
    · have hin' : 64*(s/64) + bstart ≤ s ∧ s < 64*(s/64) + bend := by omega
      by_cases he : s % 64 = bstart
      · have he' : s = 64*(s/64) + bstart := by omega
        rw [if_pos hin, if_pos hin, if_pos hin', if_pos he, if_pos he, if_pos he', he]
        simp [QF.view, slotValue, he]
      · have he' : s ≠ 64*(s/64) + bstart := by omega
        have hd : (s-1) / 64 = s / 64 := by omega
        have hm : (s-1) % 64 = s % 64 - 1 := by omega
        rw [if_pos hin, if_pos hin, if_pos hin', if_neg he, if_neg he, if_neg he']
        simp only [QF.view, slotValue, runendBit, extensionBit, hd, hm]
    · have hin' : ¬ (64*(s/64) + bstart ≤ s ∧ s < 64*(s/64) + bend) := by omega
      rw [if_neg hin, if_neg hin, if_neg hin']
      rfl
  · have hin' : ¬ (64*j + bstart ≤ s ∧ s < 64*j + bend) := by omega
    simp only [if_neg hj, if_neg hin']

theorem view_shiftWord_frame (qf : QF) (j : Nat) (ra ea : BitVec 64) (bstart bend d : Nat) :
    (shiftWord qf j ra ea bstart bend d).view.occupied = qf.view.occupied ∧
      (shiftWord qf j ra ea bstart bend d).view.offset = qf.view.offset := by
  rw [shiftWord, view_modifyBlock]
  refine ⟨funext fun s => ?_, funext fun s => ?_⟩
  · simp only [QF.view, occupiedBit]
    split <;> simp [*]
  · simp only [QF.view, blockOffsetField]
    split <;> simp [*]

theorem view_shiftRunendsFrom (qf : QF) {fw bstart n bend x e : Nat} (h1 : bstart < 64)
    (h2 : bend ≤ 64) (hx : x = 64*fw + bstart) (he : e + 1 = 64*(fw+n) + bend) (hxe : x ≤ e) :
    (shiftRunendsFrom qf fw bstart 1 n bend).view =
      { qf.view with cell := shiftBits qf.view.cell x e } := by
  induction n generalizing qf bend e with
  | zero =>
    unfold shiftRunendsFrom
    obtain ⟨ho, hf⟩ := view_shiftWord_frame qf fw 0#64 0#64 bstart bend 1
    refine View.ext (funext fun s => ?_) ho hf
    rw [view_shiftWord qf fw 0#64 0#64 h1 (by omega) h2]
    simp only [shiftBits]
    by_cases hs : s = x
    · rw [if_pos (by omega), if_pos (by omega), if_pos hs]
      simp
    · by_cases hin : x < s ∧ s ≤ e
      · rw [if_pos (by omega), if_neg (by omega), if_neg hs, if_pos hin]
      · rw [if_neg (by omega), if_neg hs, if_neg hin]
  | succ n ih =>
    unfold shiftRunendsFrom
    simp only
    rw [ih _ (e := 64*(fw+n) + 63) (Nat.le_refl 64) (by omega) (by omega)]
    obtain ⟨ho, hf⟩ := view_shiftWord_frame qf (fw+n+1) (getBlock qf (fw+n)).runends
      (getBlock qf (fw+n)).extensions 0 bend 1
    refine View.ext (funext fun s => ?_) ho hf
    have hw := view_shiftWord qf (fw+n+1) (getBlock qf (fw+n)).runends
      (getBlock qf (fw+n)).extensions (by omega : 0 < 64) (Nat.zero_le bend) h2
    have hlast : ∀ t, t ≤ 64*(fw+n) + 63 → (shiftWord qf (fw+n+1) (getBlock qf (fw+n)).runends
        (getBlock qf (fw+n)).extensions 0 bend 1).view.cell t = qf.view.cell t := by
      intro t ht
      rw [hw, if_neg (by omega)]
    simp only [shiftBits]
    by_cases hs : s = x
    · rw [if_pos hs, if_pos hs, hlast s (by omega)]
    · rw [if_neg hs, if_neg hs]
      by_cases hlo : x < s ∧ s ≤ 64*(fw+n) + 63
      · rw [if_pos hlo, if_pos (by omega), hlast s (by omega), hlast (s-1) (by omega)]
      · rw [if_neg hlo, hw]
        by_cases hin : x < s ∧ s ≤ e
        · rw [if_pos (by omega), if_pos hin]
          by_cases hst : s = 64*(fw+n+1) + 0
          · -- the first bit of a word comes from bit 63 of the word below
            have hd : (s-1) / 64 = fw+n := by omega
            have hm : (s-1) % 64 = 63 := by omega
            rw [if_pos hst]
            simp [QF.view, runendBit, extensionBit, hd, hm]
          · rw [if_neg hst]
        · rw [if_neg (by omega), if_neg hin]

def bump (o : Nat) : Nat := if o < 255 then o + 1 else o

theorem view_bumpOffsets (qf : QF) (j n : Nat) : (bumpOffsets qf j n).view =
    { qf.view with offset := fun k =>
        if j ≤ k ∧ k < j+n then bump (qf.view.offset k) else qf.view.offset k } := by
  induction n generalizing qf j with
  | zero =>
    refine View.ext rfl rfl (funext fun k => ?_)
    have hk : ¬ (j ≤ k ∧ k < j + 0) := by omega
    simp only [if_neg hk]
    rfl
  | succ n ih =>
    have hstep : bumpOffsets qf j (n+1) =
        bumpOffsets (if (getBlock qf j).offset < 255 then setOffset qf j ((getBlock qf j).offset+1)
          else qf) (j+1) n := rfl
    have hv : (if (getBlock qf j).offset < 255 then setOffset qf j ((getBlock qf j).offset+1)
        else qf).view = qf.view.setOffset j (bump (qf.view.offset j)) := by
      have ho : (getBlock qf j).offset = qf.view.offset j := rfl
      rw [ho, bump]
      split
      · rw [view_setOffset]
      · refine View.ext rfl rfl ?_
        exact (Function.update_eq_self j qf.view.offset).symm
    rw [hstep, ih, hv]
    refine View.ext rfl rfl (funext fun k => ?_)
    simp only [View.setOffset]
    by_cases hk : k = j
    · subst hk
      have h1 : ¬ (k + 1 ≤ k ∧ k < k + 1 + n) := by omega
      have h2 : k ≤ k ∧ k < k + (n + 1) := by omega
      rw [if_neg h1, if_pos h2, Function.update_self]
    · rw [Function.update_of_ne hk]
      by_cases h : j ≤ k ∧ k < j + (n+1)
      · rw [if_pos h, if_pos (by omega)]
      · rw [if_neg h, if_neg (by omega)]

theorem sameFrame_shiftRemaindersFrom (qf : QF) (x n : Nat) :
    qf.SameFrame (shiftRemaindersFrom qf x n) := by
  induction n generalizing qf with
  | zero => exact ⟨rfl, rfl, rfl⟩
  | succ n ih => exact (QF.SameFrame.mk rfl rfl rfl : qf.SameFrame (putSlot qf _ _)).trans (ih _)

theorem sameFrame_shiftRunendsFrom (qf : QF) (fw bstart d n bend : Nat) :
    qf.SameFrame (shiftRunendsFrom qf fw bstart d n bend) := by
  induction n generalizing qf bend with
  | zero => exact ⟨rfl, rfl, rfl⟩
  | succ n ih =>
    exact (QF.SameFrame.mk rfl rfl rfl : qf.SameFrame (shiftWord qf _ _ _ _ _ _)).trans (ih _ _)

theorem sameFrame_bumpOffsets (qf : QF) (j n : Nat) : qf.SameFrame (bumpOffsets qf j n) := by
  induction n generalizing qf j with
  | zero => exact ⟨rfl, rfl, rfl⟩
  | succ n ih =>
    unfold bumpOffsets
    simp only
    split
    · exact (QF.SameFrame.mk rfl rfl rfl : qf.SameFrame (setOffset qf _ _)).trans (ih _ _)
    · exact ih _ _

/-- The cells from `x` to `e` and the offsets behind the target bucket change, and nothing else. -/
theorem openSlot_view (qf : QF) (t : Nat) {x e : Nat} (v : Nat) (hxe : x ≤ e) (he0 : 0 < e)
    (hx : e < qf.xnslots) : ∃ qf', openSlot qf t x e v = some qf' ∧ qf.SameFrame qf' ∧
      qf'.view = ⟨shiftIn qf.view.cell x e ⟨v, false, false⟩, qf.view.occupied, fun k =>
        if t/64+1 ≤ k ∧ k < t/64+1 + (e/64 - t/64) then bump (qf.view.offset k)
        else qf.view.offset k⟩ := by
  have hf1 := sameFrame_shiftRemaindersFrom qf x (e-x)
  have hx1 : (shiftRemainders qf x e).xnslots = qf.xnslots :=
    congrArg QFMetadata.xnslots hf1.metadata
  have hset : setSlot (shiftRemainders qf x e) x v =
      some (putSlot (shiftRemainders qf x e) x v) := by
    unfold setSlot
    rw [hx1, if_pos (by omega)]
  have hruns : shiftRunends (putSlot (shiftRemainders qf x e) x v) x (e-1) 1 =
      some (shiftRunendsFrom (putSlot (shiftRemainders qf x e) x v) (x/64) (x%64) 1
        ((e+1)/64 - x/64) ((e+1)%64)) := by
    have hx2 : (putSlot (shiftRemainders qf x e) x v).xnslots = qf.xnslots := hx1
    have hee : e - 1 + 1 + 1 = e + 1 := by omega
    unfold shiftRunends
    rw [hx2, if_pos (by omega), hee]
  have hview : (shiftRunendsFrom (putSlot (shiftRemainders qf x e) x v) (x/64) (x%64) 1
      ((e+1)/64 - x/64) ((e+1)%64)).view =
        { qf.view with cell := shiftIn qf.view.cell x e ⟨v, false, false⟩ } := by
    rw [view_shiftRunendsFrom _ (x := x) (e := e) (by omega) (by omega) (by omega) (by omega) hxe,
      view_putSlot, shiftRemainders, view_shiftRemaindersFrom]
    have hxe' : x + (e - x) = e := by omega
    rw [hxe']
    refine View.ext ?_ rfl rfl
    exact shiftIn_eq qf.view.cell x e v
  refine ⟨bumpOffsets (shiftRunendsFrom (putSlot (shiftRemainders qf x e) x v) (x/64) (x%64) 1
    ((e+1)/64 - x/64) ((e+1)%64)) (t/64+1) (e/64 - t/64), ?_, ?_, ?_⟩
  · unfold openSlot
    simp only [hset, Option.bind_eq_bind, Option.bind_some, if_neg (by omega : ¬ e = 0), hruns]
  · have hput : (shiftRemainders qf x e).SameFrame (putSlot (shiftRemainders qf x e) x v) :=
      ⟨rfl, rfl, rfl⟩
    exact ((hf1.trans hput).trans (sameFrame_shiftRunendsFrom _ _ _ _ _ _)).trans
      (sameFrame_bumpOffsets _ _ _)
  · rw [view_bumpOffsets, hview]

theorem openSlot_eq {qf : QF} {runs : Nat → List Cell} {t e v : Nat} {l1 l2 : List Cell}
    (hh : Holds Blank runs qf.view.cell) (ho : Offsets qf runs) (hr : runs t = l1 ++ l2)
    (he : FirstUnused (lens runs) (start (lens runs) t + l1.length) e) (he0 : 0 < e)
    (hx : e < qf.xnslots) :
    ∃ qf', openSlot qf t (start (lens runs) t + l1.length) e v = some qf' ∧ qf.SameFrame qf' ∧
      qf'.view.occupied = qf.view.occupied ∧
      Holds Blank (Function.update runs t (l1 ++ ⟨v, false, false⟩ :: l2)) qf'.view.cell ∧
      Offsets qf' (Function.update runs t (l1 ++ ⟨v, false, false⟩ :: l2)) := by
  obtain ⟨x, hxdef⟩ : ∃ x, x = start (lens runs) t + l1.length := ⟨_, rfl⟩
  rw [← hxdef] at he ⊢
  obtain ⟨qf', hopen, hframe, hview⟩ := openSlot_view qf t v he.le he0 hx
  have hlt : lens runs t = l1.length + l2.length := by simp [lens, hr]
  have hts : t ≤ start (lens runs) t := le_start t
  refine ⟨qf', hopen, hframe, ?_⟩
  rw [hview]
  refine ⟨rfl, hh.insert hr _ hxdef he, fun j => ?_⟩
  rw [hview, lens_update_insert _ hr]
  simp only
  have hj := ho j
  by_cases ht : t < 64*j
  · rw [spill_grow (by omega) (by omega) he ht]
    by_cases hje : 64*j ≤ e
    · rw [if_pos hje, if_pos (by omega), bump]
      split <;> omega
    · rw [if_neg hje, if_neg (by omega)]
      exact hj
  · rw [spill_grow_of_le (by omega), if_neg (by omega)]
    exact hj

/-- `insert_one_slot` inserts a base cell into the run of its target bucket. -/
theorem insertOneSlot_eq {qf : QF} {runs : Nat → List Cell} {t e v : Nat} {l1 l2 : List Cell}
    (hw : Row qf runs) (ho : Offsets qf runs) (hr : runs t = l1 ++ l2)
    (he : FirstUnused (lens runs) (start (lens runs) t + l1.length) e) (he0 : 0 < e)
    (hx : e < qf.xnslots) :
    ∃ qf', insertOneSlot qf t (start (lens runs) t + l1.length) v = some (1, qf') ∧
      qf.SameFrame qf' ∧ qf'.view.occupied = qf.view.occupied ∧
      Holds Blank (Function.update runs t (l1 ++ ⟨v, false, false⟩ :: l2)) qf'.view.cell ∧
      Offsets qf' (Function.update runs t (l1 ++ ⟨v, false, false⟩ :: l2)) := by
  obtain ⟨qf', h1, h2⟩ := openSlot_eq (v := v) hw.holds ho hr he he0 hx
  refine ⟨qf', ?_, h2⟩
  unfold insertOneSlot
  simp only [hw.findFirstEmptySlot_eq ho he (by have := he.le; omega), Option.bind_eq_bind,
    Option.bind_some, if_neg (by omega : ¬ e ≥ qf.xnslots), h1]

theorem insertOneSlot_below {qf qf' : QF} {t x v s : Nat} {r : Int} (hword : qf.xnslots < 2^64)
    (h : insertOneSlot qf t x v = some (r, qf')) (hs : s < x) :
    qf'.view.cell s = qf.view.cell s := by
  simp only [insertOneSlot, Option.bind_eq_bind, Option.bind_eq_some_iff] at h
  obtain ⟨e, he, h⟩ := h
  split at h
  · cases h
    rfl
  · have hxe := le_findFirstEmptySlot hword he (by omega)
    obtain ⟨q, hopen, -, hview⟩ := openSlot_view qf t v hxe (by omega) (by omega)
    rw [hopen, Option.bind_some] at h
    cases h
    rw [hview]
    exact (if_neg (by omega)).trans (if_neg (by omega))

end AdaptiveQF
