import AdaptiveQF.Bulk

/-! The order in which `qf_hash_cmp` puts hashes. -/
namespace AdaptiveQF
open Digits

/-- The slots of a hash: quotient, remainder, and its extension from the lowest slot upwards. -/
def QFMetadata.hashSlots (m : QFMetadata) (hash : Nat) : List Nat :=
  m.bucket hash :: m.remainder hash :: m.extension hash 64

def slotsCmp (x y : List Nat) : Int := if x < y then -1 else if y < x then 1 else 0

section
variable {x y z : List Nat}

theorem slotsCmp_of_lt (h : x < y) : slotsCmp x y = -1 := if_pos h

theorem slotsCmp_of_gt (h : y < x) : slotsCmp x y = 1 := by
  rw [slotsCmp, if_neg h.asymm, if_pos h]

theorem slotsCmp_eq_zero : slotsCmp x y = 0 ↔ x = y := by
  rcases lt_trichotomy x y with h | h | h
  · simp [slotsCmp_of_lt h, h.ne]
  · simp [slotsCmp, h]
  · simp [slotsCmp_of_gt h, h.ne']

theorem slotsCmp_neg : slotsCmp x y < 0 ↔ x < y := by
  rcases lt_trichotomy x y with h | h | h
  · simp [slotsCmp_of_lt h, h]
  · simp [slotsCmp, h]
  · simp [slotsCmp_of_gt h, h.asymm]

theorem slotsCmp_swap (x y : List Nat) : slotsCmp y x = -slotsCmp x y := by
  rcases lt_trichotomy x y with h | h | h
  · rw [slotsCmp_of_lt h, slotsCmp_of_gt h]
    rfl
  · rw [h, slotsCmp_eq_zero.mpr rfl]
    rfl
  · rw [slotsCmp_of_lt h, slotsCmp_of_gt h]

theorem slotsCmp_cons (a : Nat) (x y : List Nat) : slotsCmp (a :: x) (a :: y) = slotsCmp x y := by
  simp [slotsCmp]

theorem slotsCmp_cons_of_ne {a b : Nat} (h : a ≠ b) :
    slotsCmp (a :: x) (b :: y) = if a > b then 1 else -1 := by
  split
  · next hab => exact slotsCmp_of_gt (List.cons_lt_cons_iff.mpr (.inl hab))
  · exact slotsCmp_of_lt (List.cons_lt_cons_iff.mpr (.inl (by omega)))

end

section
variable {qf : QF} {a b c : Nat}

theorem hashCmpLoop_eq (hw : 0 < qf.bits) (hw' : qf.bits < 64) {fuel n temp1 temp2 : Nat}
    (hfuel : n < fuel) (h1 : temp1 / 2^qf.bits < 2^(qf.bits*n))
    (h2 : temp2 / 2^qf.bits < 2^(qf.bits*n)) (hne : temp1 / 2^qf.bits ≠ temp2 / 2^qf.bits) :
    hashCmpLoop qf fuel temp1 temp2 = some (slotsCmp (low qf.bits n (temp1 / 2^qf.bits))
      (low qf.bits n (temp2 / 2^qf.bits))) := by
  induction n generalizing fuel temp1 temp2 with
  | zero =>
    simp only [Nat.mul_zero, pow_zero, Nat.lt_one_iff] at h1 h2
    omega
  | succ n ih =>
    obtain ⟨fuel, rfl⟩ : ∃ f, fuel = f + 1 := ⟨fuel - 1, by omega⟩
    rw [hashCmpLoop]
    by_cases hboth : temp1 ≠ 0 ∧ temp2 ≠ 0
    · rw [if_pos hboth]
      simp only [shr64_eq _ hw', and_bitmask _ (by omega : qf.bits ≤ 64)]
      generalize temp1 / 2^qf.bits = x at h1 hne ⊢
      generalize temp2 / 2^qf.bits = y at h2 hne ⊢
      have hrest : ∀ {z : Nat}, z < 2^(qf.bits*(n+1)) → z / 2^qf.bits < 2^(qf.bits*n) := by
        intro z hz
        rw [Nat.mul_succ, Nat.add_comm, pow_add] at hz
        exact Nat.div_lt_of_lt_mul hz
      have hsplit : ∀ z : Nat, 2^qf.bits * (z / 2^qf.bits) + z % 2^qf.bits = z :=
        fun z => Nat.div_add_mod z _
      rw [low_cons, low_cons]
      by_cases hlow : x % 2^qf.bits = y % 2^qf.bits
      · rw [if_pos hlow, hlow, slotsCmp_cons]
        apply ih (by omega) (hrest h1) (hrest h2)
        intro hhigh
        exact hne (by rw [← hsplit x, ← hsplit y, hlow, hhigh])
      · rw [if_neg hlow, slotsCmp_cons_of_ne hlow]
        split <;> rfl
    · rw [if_neg hboth]
      by_cases hzero : temp1 = 0
      · -- The first hash is over, and the second one goes on.
        rw [if_pos hzero, hzero, Nat.zero_div]
        rw [hzero, Nat.zero_div] at hne
        rw [slotsCmp_of_lt (low_zero_lt h2 (Ne.symm hne))]
      · rw [if_neg hzero]
        have hzero2 : temp2 = 0 := by
          by_contra h
          exact hboth ⟨hzero, h⟩
        rw [hzero2, Nat.zero_div] at hne ⊢
        rw [slotsCmp_of_gt (low_zero_lt h1 hne)]

/-- A hash is its quotient, its remainder and its extension. -/
theorem QFMetadata.hash_eq (m : QFMetadata) (hash : Nat) :
    hash = m.remainder hash + 2^m.bitsPerSlot *
      (m.bucket hash + 2^m.quotientBits * (hash / 2^(m.quotientBits + m.bitsPerSlot))) := by
  have hpow : 2^(m.quotientBits + m.bitsPerSlot) = 2^m.bitsPerSlot * 2^m.quotientBits := by
    rw [Nat.add_comm, pow_add]
  rw [QFMetadata.remainder, QFMetadata.bucket, hpow, ← Nat.div_div_eq_div_mul, Nat.mod_add_div,
    Nat.mod_add_div]

theorem extension_lt {m : QFMetadata} (hw : 0 < m.bitsPerSlot) (ha : a < 2^64) :
    a / 2^(m.quotientBits + m.bitsPerSlot) < 2^(m.bitsPerSlot*64) :=
  calc a / 2^(m.quotientBits + m.bitsPerSlot)
      ≤ a := Nat.div_le_self ..
    _ < 2^64 := ha
    _ ≤ 2^(m.bitsPerSlot*64) := Nat.pow_le_pow_right (by omega) (by omega)

theorem QFMetadata.hashSlots_inj {m : QFMetadata} (hw : 0 < m.bitsPerSlot) (ha : a < 2^64)
    (hb : b < 2^64) : m.hashSlots a = m.hashSlots b ↔ a = b := by
  constructor
  · intro h
    simp only [hashSlots, List.cons.injEq] at h
    obtain ⟨hbucket, hrem, hext⟩ := h
    have hhigh := low_inj (extension_lt hw ha) (extension_lt hw hb) hext
    rw [m.hash_eq a, m.hash_eq b, hbucket, hrem, hhigh]
  · exact congrArg _

theorem QF.hashRemainder_eq (hq : qf.qbits + qf.bits < 64) (hash : Nat) :
    hashRemainder qf hash = qf.metadata.remainder hash := and_bitmask hash (by omega)

theorem QF.hashBucketIndex_eq (hq : qf.qbits + qf.bits < 64) (hash : Nat) :
    hashBucketIndex qf hash = qf.metadata.bucket hash := by
  unfold hashBucketIndex
  rw [and_bitmask _ (by omega), shr64_eq _ (by omega)]
  rfl

theorem qfHashCmp_eq (hw : 0 < qf.bits) (hq : qf.qbits + qf.bits < 64) (ha : a < 2^64)
    (hb : b < 2^64) :
    qfHashCmp qf a b = some (slotsCmp (qf.metadata.hashSlots a) (qf.metadata.hashSlots b)) := by
  have hshift : ∀ h, shr64 h qf.qbits / 2^qf.bits = h / 2^(qf.qbits + qf.bits) := by
    intro h
    rw [shr64_eq _ (by omega), Nat.div_div_eq_div_mul, pow_add]
  simp only [qfHashCmp, QF.hashRemainder_eq hq, QF.hashBucketIndex_eq hq]
  by_cases hab : a = b
  · rw [if_pos hab, slotsCmp_eq_zero.mpr (congrArg _ hab)]
  rw [if_neg hab]
  have hkey := (QFMetadata.hashSlots_inj hw ha hb).not.mpr hab
  unfold QFMetadata.hashSlots at hkey ⊢
  by_cases hbk : qf.metadata.bucket a = qf.metadata.bucket b
  · rw [if_pos hbk, hbk, slotsCmp_cons]
    by_cases hr : qf.metadata.remainder a = qf.metadata.remainder b
    · rw [if_pos hr, hr, slotsCmp_cons]
      have hext : a / 2^(qf.qbits + qf.bits) ≠ b / 2^(qf.qbits + qf.bits) := by
        intro he
        apply hab
        rw [qf.metadata.hash_eq a, qf.metadata.hash_eq b, hbk, hr]
        rw [he]
      rw [hashCmpLoop_eq hw (by omega) (by omega : 64 < 65), hshift, hshift]
      · rfl
      · rw [hshift]
        exact extension_lt hw ha
      · rw [hshift]
        exact extension_lt hw hb
      · rwa [hshift, hshift]
    · rw [if_neg hr, slotsCmp_cons_of_ne hr]
      split <;> rfl
  · rw [if_neg hbk, slotsCmp_cons_of_ne hbk]
    split <;> rfl

/-- `qf_hash_cmp` terminates and is a strict total order: the lexicographic one on the slots. -/
theorem hash_cmp_lexicographic (hw : 0 < qf.bits) (hq : qf.qbits + qf.bits < 64)
    (ha : a < 2^64) (hb : b < 2^64) (hc : c < 2^64) :
    ∃ ab ba bc ac : Int, qfHashCmp qf a b = some ab ∧ qfHashCmp qf b a = some ba ∧
      qfHashCmp qf b c = some bc ∧ qfHashCmp qf a c = some ac ∧
      (ab = 0 ↔ a = b) ∧ ba = -ab ∧ (ab < 0 → bc < 0 → ac < 0) ∧
      (ab < 0 ↔ qf.metadata.hashSlots a < qf.metadata.hashSlots b) := by
  refine ⟨_, _, _, _, qfHashCmp_eq hw hq ha hb, qfHashCmp_eq hw hq hb ha, qfHashCmp_eq hw hq hb hc,
    qfHashCmp_eq hw hq ha hc, ?_, slotsCmp_swap .., ?_, slotsCmp_neg⟩
  · rw [slotsCmp_eq_zero, QFMetadata.hashSlots_inj hw ha hb]
  · rw [slotsCmp_neg, slotsCmp_neg, slotsCmp_neg]
    exact lt_trans

theorem hash_cmp_lexicographic_small : ∃ ab ba bc ac : Int,
    qfHashCmp bulkFilter 4 36 = some ab ∧ qfHashCmp bulkFilter 36 4 = some ba ∧
      qfHashCmp bulkFilter 36 9 = some bc ∧ qfHashCmp bulkFilter 4 9 = some ac ∧
      (ab = 0 ↔ 4 = 36) ∧ ba = -ab ∧ (ab < 0 → bc < 0 → ac < 0) ∧
      (ab < 0 ↔ bulkFilter.metadata.hashSlots 4 < bulkFilter.metadata.hashSlots 36) :=
  hash_cmp_lexicographic (by decide) (by decide) (by decide) (by decide) (by decide)

end

end AdaptiveQF
