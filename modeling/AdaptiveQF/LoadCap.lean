import AdaptiveQF.Frame
import AdaptiveQF.Variants
import AdaptiveQF.Invariant
import Mathlib.Algebra.Order.Floor.Div

/-! How far adaptations can fill a filter. The three classes that look at the load stay
below a bound; HybridSkiQF does not look at it. -/
namespace AdaptiveQF

def QF.Narrow (qf : QF) : Prop := ∀ i, slotValue qf i < 2^qf.bits

structure QF.Grows (n : Nat) (qf qf' : QF) : Prop where
  keeps : qf.Keeps qf'
  narrow : qf.Narrow → qf'.Narrow
  occupied : qf'.metadata.noccupiedSlots ≤ qf.metadata.noccupiedSlots + n

namespace QF.Grows

variable {qf a b c : QF} {n k : Nat}

theorem refl (n : Nat) (qf : QF) : qf.Grows n qf := ⟨.refl qf, id, Nat.le_add_right _ _⟩

theorem trans (h1 : a.Grows n b) (h2 : b.Grows k c) : a.Grows (n+k) c where
  keeps := h1.keeps.trans h2.keeps
  narrow := h2.narrow ∘ h1.narrow
  occupied := by
    have := h1.occupied
    have := h2.occupied
    omega

theorem mono (h : a.Grows n b) (hn : n ≤ k) : a.Grows k b :=
  ⟨h.keeps, h.narrow, h.occupied.trans (by omega)⟩

theorem of_slots {f : QFBlock → QFBlock} (hf : ∀ b, (f b).slots = b.slots) (qf : QF) (j : Nat) :
    qf.Grows 0 (qf.modifyBlock j f) where
  keeps := modifyBlock_keeps ..
  narrow h i := by
    have hslot : slotValue (qf.modifyBlock j f) i = slotValue qf i := by
      unfold slotValue
      rw [getBlock_modifyBlock]
      split
      next hj => rw [hf, hj]
      next => rfl
    rw [hslot]
    exact h i
  occupied := Nat.le_refl _

theorem putSlot {v : Nat} (hv : v < 2^qf.bits) (i : Nat) : qf.Grows 0 (putSlot qf i v) where
  keeps := modifyBlock_keeps ..
  narrow h k := by
    have hcell := congrArg (fun w => (w.cell k).value) (view_putSlot qf i v)
    have hslot : slotValue (AdaptiveQF.putSlot qf i v) k = if k = i then v else slotValue qf k := by
      refine hcell.trans ?_
      simp only [View.setValue, Function.update_apply]
      split <;> rfl
    rw [hslot]
    split
    · exact hv
    · exact h k
  occupied := Nat.le_refl _

theorem countSlot (qf : QF) : qf.Grows 1 qf.countSlot where
  keeps := .setCounts ..
  narrow := id
  occupied := Nat.mod_le ..

theorem countItem (qf : QF) (n : Nat) : qf.Grows 1 (qf.countItem n) where
  keeps := .setCounts ..
  narrow := id
  occupied := Nat.mod_le ..

theorem countElts (qf : QF) (n : Nat) : qf.Grows 0 (qf.countElts n) where
  keeps := .setCounts ..
  narrow := id
  occupied := Nat.le_refl _

end QF.Grows

section
variable {qf qf' : QF}

theorem and_bitmask_lt (hg : Geometry qf.metadata) (x : Nat) :
    x &&& bitmask qf.bits < 2^qf.bits := by
  have hbits : qf.bits ≤ 56 := hg.slotBits
  rw [and_bitmask x (by omega)]
  exact Nat.mod_lt _ (Nat.two_pow_pos _)

theorem QF.Keeps.geometry (h : qf.Keeps qf') (hg : Geometry qf.metadata) :
    Geometry qf'.metadata := by
  obtain ⟨x, y, z, h⟩ := h
  rw [h.metadata]
  exact hg.setCounts x y z

theorem setSlot_grows {i v : Nat} (hv : v < 2^qf.bits) (h : setSlot qf i v = some qf') :
    qf.Grows 0 qf' := by
  unfold setSlot at h
  split at h
  · rw [← Option.some.inj h]
    exact .putSlot hv i
  · cases h

theorem shiftRemaindersFrom_grows (qf : QF) (start n : Nat) :
    qf.Grows 0 (shiftRemaindersFrom qf start n) := by
  induction n generalizing qf with
  | zero => exact .putSlot (Nat.two_pow_pos _) start
  | succ n ih =>
    have hput : qf.Grows 0 (putSlot qf (start+n+1) (slotValue qf (start+n))) := {
      keeps := modifyBlock_keeps ..
      narrow := fun h => (QF.Grows.putSlot (h _) _).narrow h
      occupied := Nat.le_refl _ }
    exact hput.trans (ih _)

theorem shiftWord_grows (qf : QF) (j : Nat) (ra ea : BitVec 64) (bstart bend distance : Nat) :
    qf.Grows 0 (shiftWord qf j ra ea bstart bend distance) := .of_slots (by intro; rfl) ..

theorem setOffset_grows (qf : QF) (j v : Nat) : qf.Grows 0 (setOffset qf j v) :=
  .of_slots (by intro; rfl) ..

theorem shiftRunendsFrom_grows (qf : QF) (firstWord bstart distance n bend : Nat) :
    qf.Grows 0 (shiftRunendsFrom qf firstWord bstart distance n bend) := by
  induction n generalizing qf bend with
  | zero => exact shiftWord_grows ..
  | succ n ih => exact (shiftWord_grows ..).trans (ih ..)

theorem bumpOffsets_grows (qf : QF) (j n : Nat) : qf.Grows 0 (bumpOffsets qf j n) := by
  induction n generalizing qf j with
  | zero => exact .refl 0 qf
  | succ n ih =>
    unfold bumpOffsets
    dsimp only
    split
    · exact (setOffset_grows ..).trans (ih ..)
    · exact ih ..

theorem openSlot_grows {target insert empty v : Nat} (hv : v < 2^qf.bits)
    (h : openSlot qf target insert empty v = some qf') : qf.Grows 0 qf' := by
  simp only [openSlot, Option.bind_eq_bind, Option.bind_eq_some_iff] at h
  obtain ⟨q1, h1, h⟩ := h
  have hshift : qf.Grows 0 (shiftRemainders qf insert empty) := shiftRemaindersFrom_grows ..
  have hv1 : v < 2^(shiftRemainders qf insert empty).bits := by
    rw [hshift.keeps.bits]
    exact hv
  have hset := hshift.trans (setSlot_grows hv1 h1)
  split at h
  · cases h
  · simp only [shiftRunends, Option.bind_eq_some_iff, Option.ite_none_right_eq_some,
      Option.some.injEq] at h
    obtain ⟨_, ⟨-, rfl⟩, rfl⟩ := h
    exact (hset.trans (shiftRunendsFrom_grows ..)).trans (bumpOffsets_grows ..)

theorem insertOneSlot_grows {target insert v : Nat} {r : Int} (hv : v < 2^qf.bits)
    (h : insertOneSlot qf target insert v = some (r, qf')) : qf.Grows 0 qf' := by
  simp only [insertOneSlot, Option.bind_eq_bind, Option.bind_eq_some_iff] at h
  obtain ⟨e, -, h⟩ := h
  split at h
  · cases h
    exact .refl 0 _
  · simp only [Option.bind_eq_some_iff, Option.some.injEq, Prod.mk.injEq] at h
    obtain ⟨q1, h1, -, rfl⟩ := h
    exact openSlot_grows hv h1

/-! An adaptation. -/

theorem adaptSlot_grows {bucket slot empty countLen digit : Nat} (hv : digit < 2^qf.bits)
    (h : adaptSlot qf bucket slot empty countLen digit = some qf') : qf.Grows 1 qf' := by
  unfold adaptSlot at h
  split at h
  · simp only [Option.bind_eq_bind, Option.bind_eq_some_iff, Option.some.injEq] at h
    obtain ⟨q1, h1, rfl⟩ := h
    have hbit : q1.Grows 0 (orExtension q1 slot) := .of_slots (by intro; rfl) ..
    exact ((openSlot_grows hv h1).trans hbit).trans (.countSlot _)
  · simp only [Option.bind_eq_bind, Option.bind_eq_some_iff] at h
    obtain ⟨q1, h1, h⟩ := h
    split at h
    · cases h
    · split at h
      · cases h
      · rw [← Option.some.inj h]
        have hbit : q1.Grows 0 (xorRunend q1 slot) := .of_slots (by intro; rfl) ..
        exact ((setSlot_grows hv h1).trans hbit).mono (by omega)

/-- As many slots as it takes the fingerprint to reach 64 bits, and always one. -/
theorem adaptLoop_grows (hg : Geometry qf.metadata)
    {index bucket fuel slotsUsed extBits countLen hash otherHash rh rh' n : Nat} {r : Int}
    (hn : 64 ≤ n * qf.bits + extBits + qf.qbits + qf.bits) (hpos : 0 < n)
    (h : adaptLoop index bucket fuel qf slotsUsed extBits countLen hash otherHash rh =
      some (r, rh', qf')) : qf.Grows n qf' := by
  induction fuel generalizing qf slotsUsed extBits countLen hash otherHash rh n with
  | zero => cases h
  | succ fuel ih =>
    simp only [adaptLoop, Option.bind_eq_bind, Option.bind_eq_some_iff] at h
    obtain ⟨e, -, h⟩ := h
    split at h
    · cases h
      exact .refl n _
    · simp only [Option.bind_eq_some_iff] at h
      obtain ⟨q1, h1, h⟩ := h
      have hslot := adaptSlot_grows (and_bitmask_lt hg _) h1
      have hbits := hslot.keeps.bits
      have hqbits := hslot.keeps.qbits
      obtain ⟨n, rfl⟩ : ∃ k, n = k + 1 := ⟨n-1, by omega⟩
      split at h
      next hmore =>
        have hn1 : 64 ≤ n * q1.bits + (extBits + qf.bits) + q1.qbits + q1.bits := by
          rw [hbits, hqbits]
          linarith [Nat.succ_mul n qf.bits]
        have hpos1 : 0 < n := by
          rcases Nat.eq_zero_or_pos n with rfl | hp
          · rw [hbits, hqbits] at hn1
            omega
          · exact hp
        exact (hslot.trans (ih (hslot.keeps.geometry hg) hn1 hpos1 h)).mono (by omega)
      next =>
        cases h
        exact hslot.mono (by omega)

def adaptSlots (m : QFMetadata) : Nat := (64 - m.quotientBits - m.bitsPerSlot) ⌈/⌉ m.bitsPerSlot

theorem adaptSlots_spec {m : QFMetadata} (hg : Geometry m) :
    0 < adaptSlots m ∧
      64 ≤ adaptSlots m * m.bitsPerSlot + m.quotientBits + m.bitsPerSlot := by
  have hbits := hg.bits
  have hhash := hg.hashBits
  have hle : 64 - m.quotientBits - m.bitsPerSlot ≤ m.bitsPerSlot • adaptSlots m :=
    (ceilDiv_le_iff_le_smul (by omega)).mp (Nat.le_refl _)
  rw [smul_eq_mul, Nat.mul_comm] at hle
  refine ⟨Nat.pos_of_ne_zero fun h0 => ?_, by omega⟩
  rw [h0] at hle
  omega

theorem adapt_grows (hg : Geometry qf.metadata) {index bucket hash otherHash rh : Nat} {r : Int}
    (h : adapt qf index bucket hash otherHash = some (r, rh, qf')) :
    qf.Grows (adaptSlots qf.metadata) qf' := by
  simp only [adapt, Option.bind_eq_bind, Option.bind_eq_some_iff] at h
  obtain ⟨info, -, slot, -, h⟩ := h
  obtain ⟨hpos, hmax⟩ := adaptSlots_spec hg
  have hmax : 64 ≤ adaptSlots qf.metadata * qf.bits + qf.qbits + qf.bits := hmax
  split at h
  · exact adaptLoop_grows hg (by omega) hpos h
  · cases h

theorem qfAdapt_grows (hg : Geometry qf.metadata) {index key otherKey rh rh' flags : Nat} {r : Int}
    (h : qfAdapt qf index key otherKey rh flags = some (r, rh', qf')) :
    qf.Grows (adaptSlots qf.metadata) qf' := by
  unfold qfAdapt at h
  dsimp only at h
  split at h
  · cases h
    exact .refl _ _
  · exact adapt_grows hg h

theorem qfAdaptUsingLlTable_grows (hg : Geometry qf.metadata)
    {origKey fpKey minirunRank flags : Nat} {r : Int}
    (h : qfAdaptUsingLlTable qf origKey fpKey minirunRank flags = some (r, qf')) :
    qf.Grows (adaptSlots qf.metadata) qf' := by
  unfold qfAdaptUsingLlTable at h
  dsimp only at h
  split at h
  · cases h
    exact .refl _ _
  · simp only [Option.bind_eq_bind, Option.bind_eq_some_iff] at h
    obtain ⟨start, -, found, -, h⟩ := h
    cases found with
    | none =>
      cases h
      exact .refl _ _
    | some index =>
      simp only [Option.bind_eq_some_iff, Prod.exists, Option.some.injEq, Prod.mk.injEq] at h
      obtain ⟨_, _, q, hq, -, rfl⟩ := h
      exact qfAdapt_grows hg hq

/-! An increment of a count. -/

theorem shl64_digit_lt {w : Nat} (hw : 0 < w) {v : Nat} (hv : v < 2^w) (k : Nat) :
    shl64 v (k*w) < 2^((k+1)*w) := by
  by_cases hk : k * w < 64
  · rw [shl64, Nat.mod_eq_of_lt hk, Nat.shiftLeft_eq]
    calc v * 2^(k*w) % 2^64 ≤ v * 2^(k*w) := Nat.mod_le _ _
      _ < 2^w * 2^(k*w) := Nat.mul_lt_mul_of_pos_right hv (Nat.two_pow_pos _)
      _ = 2^((k+1)*w) := by rw [← pow_add, Nat.succ_mul, Nat.add_comm]
  · calc shl64 v (k*w) < 2^64 := Nat.mod_lt _ (Nat.two_pow_pos _)
      _ ≤ 2^((k+1)*w) := Nat.pow_le_pow_right (by omega) (by rw [Nat.succ_mul]; omega)

/-- What is packed is as long as its slots say, where they are slots of the array. -/
theorem packSlots_lt (hg : Geometry qf.metadata) (hn : qf.Narrow) {p : QF → Nat → Bool}
    {index fuel curr acc v stop : Nat} (hi : index ≤ curr) (hc : curr ≤ qf.xnslots)
    (hacc : acc < 2^((curr - index) * qf.bits))
    (h : packSlots qf p index fuel curr acc = some (v, stop)) :
    v < 2^((stop - index) * qf.bits) := by
  induction fuel generalizing curr acc with
  | zero => cases h
  | succ fuel ih =>
    unfold packSlots at h
    split at h
    · cases h
    · split at h
      · simp only [Option.bind_eq_bind, Option.bind_eq_some_iff] at h
        obtain ⟨slot, hslot, h⟩ := h
        rw [getSlot, if_neg (by omega), Option.ite_none_right_eq_some, Option.some.injEq] at hslot
        obtain ⟨hlt, rfl⟩ := hslot
        have hstep : curr + 1 - index = curr - index + 1 := by omega
        have hmono : 2^((curr - index) * qf.bits) ≤ 2^((curr + 1 - index) * qf.bits) :=
          Nat.pow_le_pow_right (by omega) (Nat.mul_le_mul_right _ (by omega))
        have hor : acc ||| shl64 (slotValue qf curr) ((curr - index) * qf.bits) <
            2^((curr + 1 - index) * qf.bits) := by
          apply Nat.or_lt_two_pow (hacc.trans_le hmono)
          rw [hstep]
          exact shl64_digit_lt (Nat.lt_of_lt_of_le (by omega) hg.bits) (hn curr) _
        exact ih (by omega) hlt hor h
      · cases h
        exact hacc

theorem packSlots_ones {p : QF → Nat → Bool} {index fuel curr v stop : Nat}
    (h : packSlots qf p index fuel curr (2^64 - 1) = some (v, stop)) : v = 2^64 - 1 := by
  induction fuel generalizing curr with
  | zero => cases h
  | succ fuel ih =>
    unfold packSlots at h
    split at h
    · cases h
    · split at h
      · simp only [Option.bind_eq_bind, Option.bind_eq_some_iff] at h
        obtain ⟨slot, -, h⟩ := h
        have hlt : shl64 slot ((curr - index) * qf.bits) < 2^64 := Nat.mod_lt _ (by decide)
        have hor : 2^64 - 1 ||| shl64 slot ((curr - index) * qf.bits) = 2^64 - 1 := by
          have h1 : _ ||| _ < 2^64 := Nat.or_lt_two_pow (by decide : 2^64 - 1 < 2^64) hlt
          have h2 := Nat.left_le_or (n := 2^64 - 1) (m := shl64 slot ((curr - index) * qf.bits))
          omega
        rw [hor] at h
        exact ih h
      · cases h
        rfl

/-- The count with one more still fits in the counter slots, or just does not. -/
theorem getSlotInfo_count (hg : Geometry qf.metadata) (hn : qf.Narrow) {index : Nat}
    {info : SlotInfo} (h : getSlotInfo qf index = some info) :
    add64 info.count 1 / 2^(info.countSlots * qf.bits) < 2^qf.bits := by
  have hbits : 2 ≤ qf.bits := hg.bits
  have hfour : 2^2 ≤ 2^qf.bits := Nat.pow_le_pow_right (by omega) hbits
  simp only [getSlotInfo, Option.ite_none_left_eq_some, Option.bind_eq_bind,
    Option.bind_eq_some_iff, Prod.exists, Option.some.injEq] at h
  obtain ⟨-, ext, curr, -, digits, stop, hpack, rfl⟩ := h
  dsimp only
  cases hc : isCounter qf curr with
  | false =>
    have hle : add64 1 1 / 2^((stop - curr) * qf.bits) ≤ add64 1 1 := Nat.div_le_self _ _
    have htwo : add64 1 1 = 2 := by decide
    simp only [Bool.false_eq_true, if_false]
    omega
  | true =>
    rw [if_pos rfl]
    by_cases hin : curr ≤ qf.xnslots
    · have hlt := packSlots_lt hg hn (Nat.le_refl curr) hin (by simp) hpack
      have hle : add64 digits 1 ≤ 2^((stop - curr) * qf.bits) := (Nat.mod_le _ _).trans hlt
      have hone : add64 digits 1 / 2^((stop - curr) * qf.bits) ≤ 1 :=
        Nat.div_le_of_le_mul (by omega)
      omega
    · have hones : digits = 2^64 - 1 := by
        generalize qf.fuel = fuel at hpack
        cases fuel with
        | zero => cases hpack
        | succ fuel =>
          have hfirst : (0 : Nat) ||| shl64 (2^64 - 1) ((curr - curr) * qf.bits) = 2^64 - 1 := by
            rw [Nat.sub_self, Nat.zero_mul]
            decide
          unfold packSlots at hpack
          split at hpack
          · cases hpack
          · rw [getSlot, if_pos (by omega)] at hpack
            simp only [Option.bind_eq_bind, Option.bind_some, hfirst] at hpack
            exact packSlots_ones hpack
      have hzero : add64 (2^64 - 1) 1 = 0 := by decide
      rw [hones, hzero, Nat.zero_div]
      omega

theorem putCounters_grows (hg : Geometry qf.metadata) {first n i newCount left : Nat}
    (h : putCounters first n qf i newCount = some (left, qf')) :
    qf.Grows 0 qf' ∧ left = newCount / 2^(n * qf.bits) := by
  induction n generalizing qf i newCount with
  | zero =>
    cases h
    exact ⟨.refl 0 _, by simp⟩
  | succ n ih =>
    simp only [putCounters, Option.bind_eq_bind, Option.bind_eq_some_iff] at h
    obtain ⟨q1, h1, h⟩ := h
    have hset := setSlot_grows (and_bitmask_lt hg _) h1
    obtain ⟨hgrow, hleft⟩ := ih (hset.keeps.geometry hg) h
    have hbits : qf.bits < 64 := Nat.lt_of_le_of_lt hg.slotBits (by decide)
    refine ⟨hset.trans hgrow, ?_⟩
    rw [hleft, hset.keeps.bits, shr64_eq _ hbits, Nat.div_div_eq_div_mul, ← pow_add, Nat.succ_mul,
      Nat.add_comm]

/-- A rest of one digit takes at most one new slot. -/
theorem pushCounters_grows (hg : Geometry qf.metadata) {bucket fuel slot newCount : Nat}
    (hc : newCount < 2^qf.bits) (h : pushCounters bucket fuel qf slot newCount = some qf') :
    qf.Grows 1 qf' := by
  have hnone : ∀ {fuel slot : Nat} {q : QF}, pushCounters bucket fuel q slot 0 = some qf' →
      q = qf' := by
    intro fuel slot q h
    cases fuel with
    | zero => cases h
    | succ fuel => exact Option.some.inj h
  cases fuel with
  | zero => cases h
  | succ fuel =>
    unfold pushCounters at h
    split at h
    · simp only [Option.bind_eq_bind, Option.bind_eq_some_iff, Prod.exists] at h
      obtain ⟨_, q1, h1, h⟩ := h
      have hbits : qf.bits < 64 := Nat.lt_of_le_of_lt hg.slotBits (by decide)
      rw [shr64_eq _ hbits, Nat.div_eq_of_lt hc] at h
      have hext : q1.Grows 0 (orExtension q1 slot) := .of_slots (by intro; rfl) ..
      have hrun : (orExtension q1 slot).Grows 0 (orRunend (orExtension q1 slot) slot) :=
        .of_slots (by intro; rfl) ..
      rw [← hnone h]
      exact (((insertOneSlot_grows (and_bitmask_lt hg _) h1).trans hext).trans hrun).trans
        (.countSlot _)
    · rw [← Option.some.inj h]
      exact .refl 1 _

theorem extendSame_grows (hg : Geometry qf.metadata) (hn : qf.Narrow) {index hash : Nat}
    (h : extendSame qf index hash 1 = some qf') : qf.Grows 1 qf' := by
  simp only [extendSame, Option.bind_eq_bind, Option.bind_eq_some_iff, Prod.exists,
    Option.some.injEq] at h
  obtain ⟨info, hinfo, left, q1, h1, q2, h2, rfl⟩ := h
  obtain ⟨hput, hleft⟩ := putCounters_grows hg h1
  have hlt : left < 2^q1.bits := by
    rw [hleft, hput.keeps.bits]
    exact getSlotInfo_count hg hn hinfo
  exact (hput.trans (pushCounters_grows (hput.keeps.geometry hg) hlt h2)).trans (.countElts _ _)

theorem insertAndExtend_grows (hg : Geometry qf.metadata) (hn : qf.Narrow)
    {index key rh roh flags : Nat} {ret : ExtendRet}
    (h : insertAndExtend qf index key 1 key rh roh flags = some (ret, qf')) : qf.Grows 1 qf' := by
  have hwork : ∀ {r : ExtendRet} {q : QF}, (extendSame qf index (keyToHash qf key flags) 1).bind
      (fun q => some ((⟨0, rh, roh⟩ : ExtendRet), q)) = some (r, q) →
        extendSame qf index (keyToHash qf key flags) 1 = some q := by
    intro r q hw
    obtain ⟨q1, h1, h2⟩ := Option.bind_eq_some_iff.mp hw
    cases h2
    exact h1
  simp only [insertAndExtend, ne_eq, not_true, if_false, if_true] at h
  cases withLock_cases (fun r q hw => (extendSame_keeps (hwork hw)).locks) h with
  | inl hdone => exact extendSame_grows hg hn (hwork hdone)
  | inr hnot =>
    rw [hnot]
    exact .refl 1 qf

/-! The load of the filter. -/

theorem putItem_grows {bucket remainder n : Nat} {place : Placement}
    (hr : remainder < 2^qf.bits) (h : putItem qf bucket remainder n place = some qf') :
    qf.Grows 1 qf' := by
  have hor : ∀ q i, QF.Grows 0 q (orRunend q i) := fun q i => .of_slots (by intro; rfl) ..
  have hxor : ∀ q i, QF.Grows 0 q (xorRunend q i) := fun q i => .of_slots (by intro; rfl) ..
  have hocc : ∀ q i, QF.Grows 0 q (orOccupied q i) := fun q i => .of_slots (by intro; rfl) ..
  cases place with
  | home =>
    simp only [putItem, Option.bind_eq_bind, Option.bind_eq_some_iff, Option.some.injEq] at h
    obtain ⟨q1, h1, rfl⟩ := h
    exact (((setSlot_grows hr h1).trans (hor _ _)).trans (hocc _ _)).trans (.countItem _ _)
  | first index =>
    simp only [putItem, Option.bind_eq_bind, Option.bind_eq_some_iff, Prod.exists,
      Option.some.injEq] at h
    obtain ⟨_, q1, h1, rfl⟩ := h
    exact (((insertOneSlot_grows hr h1).trans (hor _ _)).trans (hocc _ _)).trans (.countItem _ _)
  | inRun insertIndex currentIndex wasRunend =>
    simp only [putItem, Option.bind_eq_bind, Option.bind_eq_some_iff, Prod.exists,
      Option.some.injEq] at h
    obtain ⟨_, q1, h1, rfl⟩ := h
    cases wasRunend with
    | false => exact (insertOneSlot_grows hr h1).trans (.countItem _ _)
    | true =>
      exact (((insertOneSlot_grows hr h1).trans (hor _ _)).trans (hxor _ _)).trans (.countItem _ _)
  | matched _ _ =>
    cases h
    exact .refl 1 _
  | endOfFilter _ =>
    cases h
    exact .refl 1 _

theorem insertUsingLlTableWork_grows (hg : Geometry qf.metadata) {result : InsertResult}
    {r : Int × InsertResult} (h : insertUsingLlTableWork result 1 qf = some (r, qf')) :
    qf.Grows 1 qf' := by
  simp only [insertUsingLlTableWork, Option.bind_eq_bind, Option.bind_eq_some_iff,
    Prod.exists] at h
  obtain ⟨place, -, rank, existed, -, q1, h1, h⟩ := h
  have hput := putItem_grows (and_bitmask_lt hg _) h1
  have hrest : q1 = qf' := by
    cases place <;> cases h <;> rfl
  rw [← hrest]
  exact hput

end

/-! The classes. -/

inductive FilterClass
  | adaptiveQF
  | skiQF
  | coinFlip
  | hybridSkiQF
deriving DecidableEq

/-- A call, with what the caller's struct and the uninitialised variables hold, and with how the
coin falls. -/
inductive FilterCall
  | query (queryKey minirunRank hashIndex : Nat) (result : QFilterQueryResult)
  | adapt (queryKey : Nat) (result : QFilterQueryResult) (origKey : Nat) (coinFlip : Bool)

namespace AdaptiveFilter
variable {M : Type}

def step (rm : ReverseMap M) (config : QFilterConfig) (c : FilterClass) :
    FilterCall → AdaptiveFilter M → Option (AdaptiveFilter M)
  | .query queryKey minirunRank hashIndex result, f =>
    if c = .hybridSkiQF then (hybridSkiQFQueryFilter f queryKey result).map (·.2)
    else (queryFilter f.qf queryKey minirunRank hashIndex result).map fun _ => f
  | .adapt queryKey result origKey coinFlip, f =>
    match c with
    | .adaptiveQF => (adaptiveQFAdapt rm config f queryKey result origKey).map (·.2)
    | .skiQF => (skiQFAdapt rm config f queryKey result origKey).map (·.2)
    | .coinFlip => (coinFlipAdapt rm config coinFlip f queryKey result origKey).map (·.2)
    | .hybridSkiQF => (hybridSkiQFAdapt rm f queryKey result origKey).map (·.2)

/-- HybridSkiQF, which does not look at the load, does not decide to adapt a filter that is full. -/
def Capped (config : QFilterConfig) (c : FilterClass) : FilterCall → AdaptiveFilter M → Prop
  | .query _ _ _ _, _ => True
  | .adapt queryKey _ _ _, f => c = .hybridSkiQF →
    (f.window.falsePositive queryKey (f.qf.qbits + f.qf.bits)).exceeded = true →
      f.qf.metadata.noccupiedSlots < config.fullPoint

/-- The call changes the filter only if it is not full. -/
def RespectsCap (rm : ReverseMap M) (config : QFilterConfig) (c : FilterClass) (call : FilterCall)
    (f : AdaptiveFilter M) : Prop :=
  ∀ f', step rm config c call f = some f' → f'.qf ≠ f.qf →
    f.qf.metadata.noccupiedSlots < config.fullPoint

variable {rm : ReverseMap M} {config : QFilterConfig} {c : FilterClass} {f f' : AdaptiveFilter M}

theorem fetchAndAdapt_grows (hg : Geometry f.qf.metadata) {queryKey origKey : Nat}
    {result : QFilterQueryResult} {r : Int}
    (h : fetchAndAdapt rm f queryKey result origKey = some (r, f')) :
    f.qf.Grows (adaptSlots f.qf.metadata) f'.qf := by
  unfold fetchAndAdapt at h
  dsimp only at h
  split at h
  · cases h
    exact .refl _ _
  · simp only [Option.bind_eq_bind, Option.bind_eq_some_iff, Prod.exists, Option.some.injEq,
      Prod.mk.injEq] at h
    obtain ⟨_, q, hq, -, rfl⟩ := h
    exact qfAdaptUsingLlTable_grows hg hq

theorem step_grows (hg : Geometry f.qf.metadata) (hn : f.qf.Narrow) {call : FilterCall}
    (hc : Capped config c call f) (h : step rm config c call f = some f') :
    f'.qf = f.qf ∨ f.qf.metadata.noccupiedSlots < config.fullPoint ∧
      f.qf.Grows (adaptSlots f.qf.metadata) f'.qf := by
  cases call with
  | query queryKey minirunRank hashIndex result =>
    left
    dsimp only [step] at h
    split at h
    · simp only [hybridSkiQFQueryFilter, Option.map_eq_some_iff, Option.bind_eq_bind,
        Option.bind_eq_some_iff, Prod.exists, Option.some.injEq] at h
      obtain ⟨_, _, ⟨_, -, hf⟩, rfl⟩ := h
      rw [← (Prod.mk.inj hf).2]
      split <;> rfl
    · obtain ⟨_, -, rfl⟩ := Option.map_eq_some_iff.mp h
      rfl
  | adapt queryKey result origKey coinFlip =>
    cases c with
    | adaptiveQF =>
      obtain ⟨⟨r, g⟩, hcall, rfl⟩ := Option.map_eq_some_iff.mp h
      unfold adaptiveQFAdapt at hcall
      split at hcall
      · cases hcall
        exact .inl rfl
      next hnot => exact .inr ⟨by omega, fetchAndAdapt_grows hg hcall⟩
    | skiQF =>
      obtain ⟨⟨r, g⟩, hcall, rfl⟩ := Option.map_eq_some_iff.mp h
      unfold skiQFAdapt at hcall
      split at hcall
      · cases hcall
        exact .inl rfl
      next hnot =>
        refine .inr ⟨by omega, ?_⟩
        split at hcall
        · simp only [Option.bind_eq_bind, Option.bind_eq_some_iff, Prod.exists, Option.some.injEq,
            Prod.mk.injEq] at hcall
          obtain ⟨_, q, hq, -, rfl⟩ := hcall
          exact (insertAndExtend_grows hg hn hq).mono (adaptSlots_spec hg).1
        · exact fetchAndAdapt_grows hg hcall
    | coinFlip =>
      obtain ⟨⟨r, g⟩, hcall, rfl⟩ := Option.map_eq_some_iff.mp h
      unfold coinFlipAdapt at hcall
      split at hcall
      · cases hcall
        exact .inl rfl
      next hnot =>
        split at hcall
        · exact .inr ⟨by omega, fetchAndAdapt_grows hg hcall⟩
        · cases hcall
          exact .inl rfl
    | hybridSkiQF =>
      obtain ⟨⟨r, g⟩, hcall, rfl⟩ := Option.map_eq_some_iff.mp h
      unfold hybridSkiQFAdapt at hcall
      dsimp only at hcall
      split at hcall
      next hexceeded =>
        simp only [Option.bind_eq_bind, Option.bind_eq_some_iff, Prod.exists, Option.some.injEq,
          Prod.mk.injEq] at hcall
        obtain ⟨_, q, hq, -, rfl⟩ := hcall
        exact .inr ⟨hc rfl hexceeded, qfAdaptUsingLlTable_grows hg hq⟩
      next =>
        cases hcall
        exact .inl rfl

end AdaptiveFilter

/-! From the load on. -/

section
variable {qf qf' : QF} {M : Type} {rm : ReverseMap M} {resize : QF → Nat → Option (Int × QF)}

theorem QF.Zeroed.narrow (h : qf.Zeroed) : qf.Narrow := fun i => by
  have hzero : slotValue qf i = 0 := by
    rw [slotValue, getBlock, h.blocks]
    rfl
  rw [hzero]
  exact Nat.two_pow_pos _

theorem qfInsertUsingLlTable_grows (hg : Geometry qf.metadata) (ha : qf.autoResize = false)
    {key flags : Nat} {result : InsertResult} {r : Int × InsertResult}
    (h : qfInsertUsingLlTable resize qf key 1 result flags = some (r, qf')) : qf.Grows 1 qf' := by
  simp only [qfInsertUsingLlTable, Option.bind_eq_bind, Option.bind_eq_some_iff, Prod.exists] at h
  obtain ⟨ok, q, hload, h⟩ := h
  have hq : q = qf := by
    unfold checkLoad at hload
    rw [ha] at hload
    split at hload <;> cases hload <;> rfl
  rw [hq] at h
  split at h
  · cases h
    exact .refl 1 _
  · simp only [one_ne_zero, if_false] at h
    cases withLock_cases (fun _ _ hw => (insertUsingLlTableWork_keeps hw).locks) h with
    | inl hdone => exact insertUsingLlTableWork_grows hg hdone
    | inr hnot =>
      rw [hnot]
      exact .refl 1 qf

theorem bulkLoad_narrow {numKeys : Nat} {result : InsertResult} {keys : List Nat} {m m' : M}
    {r : Int} (hg : Geometry qf.metadata) (hn : qf.Narrow) (ha : qf.autoResize = false)
    (h : bulkLoad rm resize numKeys result keys qf m = some (r, qf', m')) :
    Geometry qf'.metadata ∧ qf'.Narrow := by
  induction keys generalizing qf m with
  | nil =>
    unfold bulkLoad at h
    split at h
    · cases h
    · cases h
      exact ⟨hg, hn⟩
  | cons key keys ih =>
    unfold bulkLoad at h
    split at h
    · simp only [Option.bind_eq_bind, Option.bind_eq_some_iff, Prod.exists] at h
      obtain ⟨ret, inserted, q, hins, h⟩ := h
      have hgrow := qfInsertUsingLlTable_grows hg ha hins
      have hg1 := hgrow.keeps.geometry hg
      have hn1 := hgrow.narrow hn
      split at h
      · cases h
        exact ⟨hg1, hn1⟩
      · split at h
        · cases h
          exact ⟨hg1, hn1⟩
        · exact ih hg1 hn1 (hgrow.keeps.autoResize.trans ha) h
    · cases h
      exact ⟨hg, hn⟩

structure UnderCap (config : QFilterConfig) (qf : QF) (f : AdaptiveFilter M) : Prop where
  keeps : qf.Keeps f.qf
  narrow : f.qf.Narrow
  occupied : f.qf.metadata.noccupiedSlots ≤
    max (config.fullPoint - 1 + adaptSlots qf.metadata) qf.metadata.noccupiedSlots

open AdaptiveFilter

variable {config : QFilterConfig} {c : FilterClass}

theorem UnderCap.step {f f' : AdaptiveFilter M} (h : UnderCap config qf f)
    (hg : Geometry qf.metadata) {call : FilterCall} (hc : Capped config c call f)
    (hs : step rm config c call f = some f') : UnderCap config qf f' := by
  cases step_grows (h.keeps.geometry hg) h.narrow hc hs with
  | inl hsame =>
    constructor
    · rw [hsame]
      exact h.keeps
    · rw [hsame]
      exact h.narrow
    · rw [hsame]
      exact h.occupied
  | inr hgrow =>
    obtain ⟨hfull, hgrow⟩ := hgrow
    have hslots : adaptSlots f.qf.metadata = adaptSlots qf.metadata := by
      have hbits : f.qf.metadata.bitsPerSlot = qf.metadata.bitsPerSlot := h.keeps.bits
      have hqbits : f.qf.metadata.quotientBits = qf.metadata.quotientBits := h.keeps.qbits
      rw [adaptSlots, hbits, hqbits, adaptSlots]
    have hocc := hgrow.occupied
    rw [hslots] at hocc
    exact ⟨h.keeps.trans hgrow.keeps, hgrow.narrow h.narrow, le_max_of_le_left (by omega)⟩

/-- Over any run behind a load whose steps are capped: a filter that is full stays as it is, and the
load stays below the cap or what it was. -/
theorem load_cap_over_runs {qf0 : QF} (h : qf0.Zeroed) {keys : List Nat} {result : InsertResult}
    {m0 m : M} (hload : bulkLoad rm resize keys.length result keys qf0 m0 = some (0, qf, m))
    {calls : List FilterCall}
    (hc : Runs.Along (Capped config c) (step rm config c) calls ⟨qf, m, .start⟩) :
    Runs.Along (RespectsCap rm config c) (step rm config c) calls ⟨qf, m, .start⟩ ∧
      ∀ f, Runs.run (step rm config c) calls ⟨qf, m, .start⟩ = some f →
        f.qf.metadata.noccupiedSlots ≤
          max (config.fullPoint - 1 + adaptSlots qf.metadata) qf.metadata.noccupiedSlots := by
  obtain ⟨hg, hn⟩ := bulkLoad_narrow h.geometry h.narrow h.autoResize hload
  have hstep : ∀ call (f f' : AdaptiveFilter M), UnderCap config qf f → Capped config c call f →
      step rm config c call f = some f' → UnderCap config qf f' :=
    fun _ _ _ hu hcap hs => hu.step hg hcap hs
  have hstart : UnderCap config qf (⟨qf, m, .start⟩ : AdaptiveFilter M) :=
    ⟨.refl qf, hn, le_max_right _ _⟩
  constructor
  · refine Runs.along_of_invariant hstep (fun call f hu hcap f' hs hne => ?_) hstart hc
    cases step_grows (hu.keeps.geometry hg) hu.narrow hcap hs with
    | inl hsame => exact absurd hsame hne
    | inr hgrow => exact hgrow.1
  · intro f hrun
    exact (Runs.invariant_of_run hstep hstart hc hrun).occupied

end

open AdaptiveFilter

/-! HybridSkiQF with a cap of one slot and one key. At the end of the first window the same false
positive makes it adapt. -/

def zeroMap : ReverseMap Unit := ⟨fun m _ _ _ => (0, m), id, fun _ _ _ _ => (0, 0)⟩

def capConfig : QFilterConfig := ⟨2, 1⟩

def loadedZero : Option (Int × QF × Unit) :=
  bulkLoad zeroMap noResize 1 ⟨0, 0, 0, false⟩ [0] smallFilter ()

def repeatedResult : QFilterQueryResult := ⟨1, 0, 0, 32, 0⟩

def repeatedQuery : FilterCall := .query 32 0 0 ⟨0, 0, 0, 0, 0⟩
def repeatedAdapt : FilterCall := .adapt 32 repeatedResult 0 false

/-- Behind `n` false positives for one key. -/
def repeatedWindow (key : Nat) : Nat → RepeatWindow
  | 0 => .start
  | n+1 => { RepeatWindow.start with
      repeatDetectorFilter := fun i => i ∈ RepeatWindow.repeatHashes key
      windowProgress := n + 1
      windowRepeatFPs := n }

theorem repeatedWindow_falsePositive {key n hashBits : Nat} (hn : n + 1 < windowSize) :
    (repeatedWindow key n).falsePositive key hashBits = repeatedWindow key (n+1) := by
  have hsize : windowSize < 2^64 := by decide
  have hadd : add64 n 1 = n + 1 := Nat.mod_eq_of_lt (by omega)
  have hroll : ∀ w : RepeatWindow, w.windowProgress = n + 1 → w.roll hashBits = w := by
    intro w hw
    unfold RepeatWindow.roll
    rw [if_neg (by omega)]
  cases n with
  | zero =>
    have hnew : RepeatWindow.start.isRepeated key = false := rfl
    unfold RepeatWindow.falsePositive
    simp only [repeatedWindow, hnew, Bool.false_eq_true, if_false]
    rw [hroll _ hadd]
    simp [RepeatWindow.start, hadd]
  | succ n =>
    have hold : (repeatedWindow key (n+1)).isRepeated key = true := by
      simp [RepeatWindow.isRepeated, repeatedWindow]
    have hcount : add64 n 1 = n + 1 := Nat.mod_eq_of_lt (by omega)
    unfold RepeatWindow.falsePositive
    rw [if_pos hold, hroll _ hadd]
    simp [repeatedWindow, hadd, hcount]

theorem repeatedWindow_exceeded {key n : Nat} (hn : n + 1 = windowSize) (hashBits : Nat) :
    ((repeatedWindow key n).falsePositive key hashBits).exceeded = true := by
  have hsize : windowSize = 1000000 := rfl
  obtain ⟨n, rfl⟩ : ∃ k, n = k + 1 := ⟨n-1, by omega⟩
  have hold : (repeatedWindow key (n+1)).isRepeated key = true := by
    simp [RepeatWindow.isRepeated, repeatedWindow]
  have hcount : add64 n 1 = n + 1 := Nat.mod_eq_of_lt (by omega)
  have hadd : add64 (n+1) 1 = windowSize := (Nat.mod_eq_of_lt (by omega)).trans hn
  have hroll : ∀ w : RepeatWindow, w.windowProgress = windowSize →
      (w.roll hashBits).avgRepeatFPsPerWindow =
        movingAverage w.avgRepeatFPsPerWindow w.windowRepeatFPs := by
    intro w hw
    rw [RepeatWindow.roll, if_pos hw]
  unfold RepeatWindow.falsePositive RepeatWindow.exceeded
  rw [if_pos hold, hroll _ hadd, Bool.or_eq_true, decide_eq_true_eq]
  left
  simp only [repeatedWindow, RepeatWindow.start, hcount]
  obtain rfl : n = 999998 := by omega
  decide +kernel

theorem repeatedWindow_quiet (key n : Nat) : (repeatedWindow key n).exceeded = false := by
  have hquiet : RepeatWindow.start.exceeded = false := by decide +kernel
  cases n <;> exact hquiet

theorem loadedZero_spec : ∃ qf, loadedZero = some (0, qf, ()) ∧ qf.metadata.noccupiedSlots = 1 ∧
    (∃ r ∈ qfQueryUsingLlTableWithExtLen qf 32 0 QF_KEY_IS_HASH, r = ⟨0, 32, 0⟩) ∧
    ∃ r ∈ qfAdaptUsingLlTable qf 0 32 0 QF_KEY_IS_HASH, r.2.metadata.noccupiedSlots = 2 := by
  have hall : ∃ x ∈ loadedZero, x.1 = 0 ∧ x.2.1.metadata.noccupiedSlots = 1 ∧
      (∃ r ∈ qfQueryUsingLlTableWithExtLen x.2.1 32 0 QF_KEY_IS_HASH, r = ⟨0, 32, 0⟩) ∧
      ∃ r ∈ qfAdaptUsingLlTable x.2.1 0 32 0 QF_KEY_IS_HASH,
        r.2.metadata.noccupiedSlots = 2 := by decide +kernel
  obtain ⟨⟨_, qf, _⟩, hload, rfl, hspec⟩ := hall
  exact ⟨qf, hload, hspec⟩

theorem repeatedRun {qf : QF} (hq : qfQueryUsingLlTableWithExtLen qf 32 0 QF_KEY_IS_HASH =
    some ⟨0, 32, 0⟩) {n : Nat} (hn : n < windowSize) :
    Runs.run (step zeroMap capConfig .hybridSkiQF)
      (List.replicate n [repeatedQuery, repeatedAdapt]).flatten ⟨qf, (), .start⟩ =
        some ⟨qf, (), repeatedWindow 32 n⟩ := by
  induction n with
  | zero => rfl
  | succ n ih =>
    have hquery : step zeroMap capConfig .hybridSkiQF repeatedQuery ⟨qf, (), repeatedWindow 32 n⟩ =
        some ⟨qf, (), repeatedWindow 32 n⟩ := by
      simp [step, repeatedQuery, hybridSkiQFQueryFilter, hq]
    have hadapt : step zeroMap capConfig .hybridSkiQF repeatedAdapt ⟨qf, (), repeatedWindow 32 n⟩ =
        some ⟨qf, (), repeatedWindow 32 (n+1)⟩ := by
      simp [step, repeatedAdapt, hybridSkiQFAdapt, repeatedWindow_falsePositive hn,
        repeatedWindow_quiet]
    rw [List.replicate_succ', List.flatten_append, Runs.run_append, ih (by omega),
      Option.bind_some, List.flatten_singleton, Runs.run_cons hquery, Runs.run_cons hadapt,
      Runs.run_nil]

theorem load_cap_ignored : ∃ qf, loadedZero = some (0, qf, ()) ∧
    qf.metadata.noccupiedSlots ≤ capConfig.fullPoint ∧
    ¬ Runs.Along (RespectsCap zeroMap capConfig .hybridSkiQF)
      (step zeroMap capConfig .hybridSkiQF)
      (List.replicate windowSize [repeatedQuery, repeatedAdapt]).flatten ⟨qf, (), .start⟩ := by
  obtain ⟨qf, hload, hocc, ⟨r, hq, rfl⟩, ⟨r2, hadapt, hocc2⟩⟩ := loadedZero_spec
  refine ⟨qf, hload, hocc.le, fun h => ?_⟩
  obtain ⟨n, hn⟩ : ∃ n, n + 1 = windowSize := ⟨windowSize - 1, by decide⟩
  have hwords : (List.replicate windowSize [repeatedQuery, repeatedAdapt]).flatten =
      (List.replicate n [repeatedQuery, repeatedAdapt]).flatten ++
        [repeatedQuery, repeatedAdapt] := by
    rw [← hn, List.replicate_succ', List.flatten_append, List.flatten_singleton]
  rw [hwords] at h
  have hlast := (Runs.along_append h).2 _ (repeatedRun hq (by omega))
  have hquery : step zeroMap capConfig .hybridSkiQF repeatedQuery ⟨qf, (), repeatedWindow 32 n⟩ =
      some ⟨qf, (), repeatedWindow 32 n⟩ := by
    simp [step, repeatedQuery, hybridSkiQFQueryFilter, Option.mem_def.mp hq]
  have hex : ((repeatedWindow 32 n).falsePositive 32 _).exceeded = true :=
    repeatedWindow_exceeded hn (qf.qbits + qf.bits)
  have hcall : ∃ w, step zeroMap capConfig .hybridSkiQF repeatedAdapt
      ⟨qf, (), repeatedWindow 32 n⟩ = some ⟨r2.2, (), w⟩ := by
    have hrank : toWord repeatedResult.minirunRank = 0 := rfl
    obtain ⟨w, hw⟩ : ∃ w, w = (repeatedWindow 32 n).falsePositive 32 (qf.qbits + qf.bits) :=
      ⟨_, rfl⟩
    refine ⟨{ w with numAdapts := add64 w.numAdapts 1 }, ?_⟩
    rw [← hw] at hex
    simp only [step, repeatedAdapt, hybridSkiQFAdapt, ← hw, hex, if_true, zeroMap, hrank,
      Option.mem_def.mp hadapt, Option.bind_eq_bind, Option.bind_some, Option.map_some]
  obtain ⟨w, hcall⟩ := hcall
  have hne : r2.2 ≠ qf := by
    rintro heq
    rw [heq, hocc] at hocc2
    omega
  have hcap := (hlast.2 _ hquery).1 _ hcall hne
  exact absurd hcap (by rw [hocc]; decide)

theorem load_cap_over_runs_small : ∃ qf, loadedZero = some (0, qf, ()) ∧
    Runs.Along (RespectsCap zeroMap ⟨2, 2⟩ .adaptiveQF) (step zeroMap ⟨2, 2⟩ .adaptiveQF)
      [repeatedQuery, repeatedAdapt] ⟨qf, (), .start⟩ ∧
    ∀ f,
      Runs.run (step zeroMap ⟨2, 2⟩ .adaptiveQF) [repeatedQuery, repeatedAdapt] ⟨qf, (), .start⟩ =
      some f → f.qf.metadata.noccupiedSlots ≤
        max (2 - 1 + adaptSlots qf.metadata) qf.metadata.noccupiedSlots := by
  obtain ⟨qf, hload, -⟩ := loadedZero_spec
  have hload2 : bulkLoad zeroMap noResize [0].length ⟨0, 0, 0, false⟩ [0] smallFilter () =
      some (0, qf, ()) := hload
  have hcapped : Runs.Along (Capped ⟨2, 2⟩ .adaptiveQF) (step zeroMap ⟨2, 2⟩ .adaptiveQF)
      [repeatedQuery, repeatedAdapt] ⟨qf, (), .start⟩ :=
    ⟨trivial, fun _ _ => ⟨fun h => absurd h (by decide), fun _ _ => trivial⟩⟩
  exact ⟨qf, hload, load_cap_over_runs smallFilter_zeroed hload2 hcapped⟩

end AdaptiveQF
