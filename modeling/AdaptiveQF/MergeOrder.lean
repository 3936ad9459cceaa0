import AdaptiveQF.Build
import AdaptiveQF.Calls
import AdaptiveQF.Merge
import AdaptiveQF.Visit
import Mathlib.Data.Prod.Lex
import Mathlib.Order.Compare

/-! The order in which `_finger_cmp` puts items, and the items that a merge writes. -/
namespace AdaptiveQF
open Digits

/-- Bucket, remainder, extension from the lowest slot upwards, and the length of the extension. -/
def fingerKey (w : Nat) (e : Nat × Item) : List Nat ×ₗ Nat :=
  toLex (e.1 :: e.2.rem :: low w 64 (e.2.packedExt w), e.2.ext.length)

section
variable {w b n x y : Nat}

theorem compares_cons {o : Ordering} {l1 l2 : List Nat} (h : o.Compares l1 l2) (a : Nat) :
    o.Compares (a :: l1) (a :: l2) := by
  cases o with
  | lt => exact List.cons_lt_cons_iff.mpr (.inr ⟨rfl, h⟩)
  | eq => exact congrArg (a :: ·) h
  | gt => exact List.cons_lt_cons_iff.mpr (.inr ⟨rfl, h⟩)

theorem extCmp_compares (hw : 0 < w) (hw' : w < 64) (hx : x < 2^(w*n)) (hy : y < 2^(w*n)) :
    ∃ o, extCmp w (n+1) x y = some o ∧ o.Compares (low w n x) (low w n y) := by
  induction n generalizing x y with
  | zero =>
    rw [Nat.mul_zero, pow_zero] at hx hy
    obtain rfl : x = 0 := by omega
    obtain rfl : y = 0 := by omega
    exact ⟨.eq, rfl, rfl⟩
  | succ n ih =>
    rw [extCmp, low_cons, low_cons, and_bitmask _ (by omega), and_bitmask _ (by omega),
      shr64_eq _ hw', shr64_eq _ hw']
    have hrest : ∀ {z : Nat}, z < 2^(w*(n+1)) → z / 2^w < 2^(w*n) := by
      intro z hz
      rw [Nat.mul_succ, Nat.add_comm, pow_add] at hz
      exact Nat.div_lt_of_lt_mul hz
    by_cases heq : x = y
    · subst heq
      exact ⟨.eq, if_pos rfl, rfl⟩
    · rw [if_neg heq]
      rcases Nat.lt_trichotomy (x % 2^w) (y % 2^w) with h | h | h
      · exact ⟨.lt, if_pos h, List.cons_lt_cons_iff.mpr (.inl h)⟩
      · obtain ⟨o, hcall, ho⟩ := ih (hrest hx) (hrest hy)
        refine ⟨o, ?_, h ▸ compares_cons ho _⟩
        simp only [h, lt_irrefl, if_false, hcall]
      · refine ⟨.gt, ?_, List.cons_lt_cons_iff.mpr (.inl h)⟩
        simp only [h, if_neg h.asymm, if_true]

theorem fingerCmp_compares {it jt : Item} (hw : 0 < w) (hw' : w < 64)
    (hx : it.packedExt w < 2^64) (hy : jt.packedExt w < 2^64) (b : Nat) :
    ∃ o, fingerCmp w (it.entry w) (jt.entry w) = some o ∧
      o.Compares (fingerKey w (b, it)) (fingerKey w (b, jt)) := by
  have hpow : 2^64 ≤ 2^(w*64) := Nat.pow_le_pow_right (by omega) (Nat.le_mul_of_pos_left 64 hw)
  obtain ⟨o, hcall, ho⟩ := extCmp_compares hw hw' (hx.trans_le hpow) (hy.trans_le hpow)
  have hrem : ∀ {i j : Item}, i.rem < j.rem → fingerKey w (b, i) < fingerKey w (b, j) := by
    intro i j h
    exact Prod.Lex.toLex_lt_toLex.mpr (.inl (List.cons_lt_cons_iff.mpr
      (.inr ⟨rfl, List.cons_lt_cons_iff.mpr (.inl h)⟩)))
  unfold fingerCmp
  rcases Nat.lt_trichotomy it.rem jt.rem with h | h | h
  · exact ⟨.lt, if_pos h, hrem h⟩
  · have hlist := compares_cons (compares_cons ho it.rem) b
    refine ⟨if o = .eq then compare it.ext.length jt.ext.length else o, ?_, ?_⟩
    · simp only [Item.entry, h, lt_irrefl, if_false, hcall, Option.bind_eq_bind, Option.bind_some]
    · unfold fingerKey
      rw [← h]
      cases o with
      | lt => exact Prod.Lex.toLex_lt_toLex.mpr (.inl hlist)
      | gt => exact Prod.Lex.toLex_lt_toLex.mpr (.inl hlist)
      | eq =>
        rw [if_pos rfl]
        rcases Nat.lt_trichotomy it.ext.length jt.ext.length with hl | hl | hl
        · rw [Nat.compare_eq_lt.mpr hl]
          exact Prod.Lex.toLex_lt_toLex.mpr (.inr ⟨hlist, hl⟩)
        · rw [Nat.compare_eq_eq.mpr hl]
          exact congrArg toLex (Prod.ext hlist hl)
        · rw [Nat.compare_eq_gt.mpr hl]
          exact Prod.Lex.toLex_lt_toLex.mpr (.inr ⟨hlist.symm, hl⟩)
  · refine ⟨.gt, ?_, hrem h⟩
    simp only [Item.entry, h, if_neg h.asymm, if_true]

def Item.SameFinger (it jt : Item) : Prop := it.rem = jt.rem ∧ it.ext = jt.ext

instance (it jt : Item) : Decidable (it.SameFinger jt) :=
  inferInstanceAs (Decidable (_ ∧ _))

structure Item.Stored (m : QFMetadata) (it : Item) : Prop where
  bounded : it.Bounded m.bitsPerSlot
  fits : it.Fits m
  counts : it.Counts m.bitsPerSlot

section
variable {m : QFMetadata} {it jt : Item} {c : Nat}

theorem Item.Stored.packedExt_eq (h : it.Stored m) (hw : 0 < m.bitsPerSlot) :
    it.packedExt m.bitsPerSlot = number m.bitsPerSlot it.ext :=
  Item.packedExt_eq hw h.bounded h.fits

theorem Item.Stored.packedExt_lt (h : it.Stored m) (hw : 0 < m.bitsPerSlot) :
    it.packedExt m.bitsPerSlot < 2^64 := by
  have hfit : m.quotientBits + m.bitsPerSlot * it.ext.length < 64 := h.fits
  rw [h.packedExt_eq hw]
  exact (number_lt hw h.bounded.ext).trans_le (Nat.pow_le_pow_right (by omega) (by omega))

/-- The key of an item is its bucket and its fingerprint. -/
theorem fingerKey_inj (h : it.Stored m) (h' : jt.Stored m) (hw : 0 < m.bitsPerSlot) :
    fingerKey m.bitsPerSlot (b, it) = fingerKey m.bitsPerSlot (c, jt) ↔
      b = c ∧ it.SameFinger jt := by
  have hpow : 2^64 ≤ 2^(m.bitsPerSlot*64) :=
    Nat.pow_le_pow_right (by omega) (Nat.le_mul_of_pos_left 64 hw)
  constructor
  · intro heq
    obtain ⟨hlist, hlen⟩ := Prod.mk.inj heq
    obtain ⟨hb, hrest⟩ := List.cons.inj hlist
    obtain ⟨hrem, hlow⟩ := List.cons.inj hrest
    have hpacked := low_inj ((h.packedExt_lt hw).trans_le hpow) ((h'.packedExt_lt hw).trans_le hpow)
      hlow
    rw [h.packedExt_eq hw, h'.packedExt_eq hw] at hpacked
    exact ⟨hb, hrem, number_inj hw hlen h.bounded.ext h'.bounded.ext hpacked⟩
  · rintro ⟨rfl, hrem, hext⟩
    simp only [fingerKey, Item.packedExt, hrem, hext]

/-- `_merge_insert` writes an item as it has been read, with the digits of its count. -/
theorem Item.Stored.builtItem_eq (h : it.Stored m) (hw : 0 < m.bitsPerSlot) (c : Nat) :
    builtItem m.bitsPerSlot it.rem (it.packedExt m.bitsPerSlot) it.ext.length c =
      it.withCounter (counterOf m.bitsPerSlot c) := by
  have hlow : low m.bitsPerSlot it.ext.length (it.packedExt m.bitsPerSlot) = it.ext := by
    rw [h.packedExt_eq hw]
    exact ((eq_low_iff hw h.bounded.ext).mp
      (Nat.mod_eq_of_lt (number_lt hw h.bounded.ext))).symm
  rw [builtItem, hlow]
  rfl

end

/-! What becomes of one item and of two. -/

def mergedOne (w : Nat) (e : Nat × Item) : Nat × Item :=
  (e.1, e.2.withCounter (counterOf w (e.2.count w)))

def mergedTwo (w : Nat) (e f : Nat × Item) : Nat × Item :=
  (e.1, e.2.withCounter (counterOf w ((e.2.count w + f.2.count w) % 2^64)))

theorem fingerKey_mergedOne (w : Nat) (e : Nat × Item) :
    fingerKey w (mergedOne w e) = fingerKey w e := rfl

theorem fingerKey_mergedTwo (w : Nat) (e f : Nat × Item) :
    fingerKey w (mergedTwo w e f) = fingerKey w e := rfl

theorem Item.len_withCounter (it : Item) (cnt : List Nat) :
    (it.withCounter cnt).len = 1 + it.ext.length + cnt.length := rfl

theorem Item.Counts.length_counterOf {it : Item} (h : it.Counts w) (hw : 0 < w) :
    (counterOf w (it.count w)).length ≤ it.cnt.length := by
  rcases h with h | ⟨c, h0, hc, h⟩
  · have hone : it.count w = 1 := if_pos h
    rw [hone, counterOf, if_pos rfl]
    exact Nat.zero_le _
  · have hcount := Item.count_withCounter_digits hw h0 hc it
    rw [← h] at hcount
    have hself : it.count w = c := hcount
    rw [hself, counterOf, h]
    split
    · exact Nat.zero_le _
    · exact le_refl _

/-- A count is no larger than its slots allow. -/
theorem Item.Counts.count_le {it : Item} (h : it.Counts w) (hw : 0 < w) :
    it.count w ≤ (2^w)^it.cnt.length := by
  rcases h with h | ⟨c, h0, hc, h⟩
  · have hone : it.count w = 1 := if_pos h
    rw [hone, h, List.length_nil, pow_zero]
  · have hcount := Item.count_withCounter_digits hw h0 hc it
    rw [← h] at hcount
    have hself : it.count w = c := hcount
    rw [hself, h]
    exact (Nat.lt_base_pow_length_digits (Nat.one_lt_two_pow (by omega))).le

theorem length_counterOf_add {it jt : Item} (h : it.Counts w) (h' : jt.Counts w) (hw : 2 ≤ w) :
    (counterOf w ((it.count w + jt.count w) % 2^64)).length ≤
      it.cnt.length + jt.cnt.length + 1 := by
  have hbase : 2 < 2^w := (show 2 < 2^2 by decide).trans_le (Nat.pow_le_pow_right (by omega) hw)
  have hsum : (it.count w + jt.count w) % 2^64 < (2^w)^(it.cnt.length + jt.cnt.length + 1) := by
    have hx := (h.count_le (by omega)).trans
      (Nat.pow_le_pow_right (by omega) (Nat.le_add_right it.cnt.length jt.cnt.length))
    have hy := (h'.count_le (by omega)).trans
      (Nat.pow_le_pow_right (by omega) (Nat.le_add_left jt.cnt.length it.cnt.length))
    calc (it.count w + jt.count w) % 2^64
        ≤ it.count w + jt.count w := Nat.mod_le ..
      _ ≤ (2^w)^(it.cnt.length + jt.cnt.length) * 2 := by omega
      _ < (2^w)^(it.cnt.length + jt.cnt.length) * 2^w := by
        exact Nat.mul_lt_mul_of_pos_left hbase (by positivity)
      _ = (2^w)^(it.cnt.length + jt.cnt.length + 1) := (pow_succ ..).symm
  rw [counterOf]
  split
  · exact Nat.zero_le _
  · exact (Nat.digits_length_le_iff (by omega) _).mpr hsum

theorem len_mergedOne {e : Nat × Item} (h : e.2.Counts w) (hw : 0 < w) :
    (mergedOne w e).2.len ≤ e.2.len := by
  have := h.length_counterOf hw
  rw [mergedOne, Item.len_withCounter, Item.len]
  omega

theorem len_mergedTwo {e f : Nat × Item} (h : e.2.Counts w) (h' : f.2.Counts w) (hw : 2 ≤ w) :
    (mergedTwo w e f).2.len ≤ e.2.len + f.2.len := by
  have := length_counterOf_add h h' hw
  rw [mergedTwo, Item.len_withCounter, Item.len, Item.len]
  omega

end

end AdaptiveQF
