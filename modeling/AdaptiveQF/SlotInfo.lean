import AdaptiveQF.Items

/-! get_slot_info, and what it reads off an item. -/
namespace AdaptiveQF
open RunLayout

structure SlotInfo where
  ext : Nat
  extSlots : Nat
  count : Nat
  countSlots : Nat
deriving DecidableEq

/-- One of the two loops of `get_slot_info`: it packs the slots with flag `p` from `index` on. The
loop variable is an `int`: past the largest `int` it no longer is the index of a slot. -/
def packSlots (qf : QF) (p : QF → Nat → Bool) (index : Nat) : Nat → Nat → Nat → Option (Nat × Nat)
  | 0, _, _ => none
  | fuel+1, curr, acc =>
    if curr > intMax then none
    else if p qf curr then do
      let slot ← getSlot qf curr
      packSlots qf p index fuel (curr+1) (acc ||| shl64 slot ((curr - index) * qf.bits))
    else some (acc, curr)

def getSlotInfo (qf : QF) (index : Nat) : Option SlotInfo :=
  if isExtensionOrCounter qf index then none
  else do
    let (ext, curr) ← packSlots qf isExtension (index+1) qf.fuel (index+1) 0
    let (digits, stop) ← packSlots qf isCounter curr qf.fuel curr 0
    some {
      ext := ext
      extSlots := curr - (index+1)
      count := if isCounter qf curr then digits else 1
      countSlots := stop - curr }

def packFrom (w i acc : Nat) : List Nat → Nat
  | [] => acc
  | v :: l => packFrom w (i+1) (acc ||| shl64 v (i*w)) l

namespace Item

def packedExt (w : Nat) (it : Item) : Nat := packFrom w 0 0 it.ext

def count (w : Nat) (it : Item) : Nat := if it.cnt = [] then 1 else packFrom w 0 0 it.cnt

def info (w : Nat) (it : Item) : SlotInfo :=
  ⟨it.packedExt w, it.ext.length, it.count w, it.cnt.length⟩

end Item

theorem packFrom_eq {w : Nat} {l1 l2 : List Nat} (hw : 0 < w)
    (h1 : ∀ v ∈ l1, v < 2^w) (h2 : ∀ v ∈ l2, v < 2^w) (hl : w * ((l1 ++ l2).length - 1) < 64)
    (hn : Digits.number w (l1 ++ l2) < 2^64) :
    packFrom w l1.length (Digits.number w l1) l2 = Digits.number w (l1 ++ l2) := by
  induction l2 generalizing l1 with
  | nil => simp [packFrom]
  | cons v l2 ih =>
    have hlen : w * ((l1 ++ v :: l2).length - 1) = w * l1.length + w * l2.length := by
      have hsub : (l1 ++ v :: l2).length - 1 = l1.length + l2.length := by simp
      rw [hsub]
      ring
    have hcat : l1 ++ v :: l2 = (l1 ++ [v]) ++ l2 := by simp
    have hlen1 : (l1 ++ [v]).length = l1.length + 1 := by simp
    have hpart : Digits.number w (l1 ++ [v]) ≤ Digits.number w (l1 ++ v :: l2) := by
      rw [hcat, Digits.number, Digits.number, @Nat.ofDigits_append _ (l1 ++ [v])]
      exact Nat.le_add_right _ _
    rw [Digits.number_concat] at hpart
    have hshift : shl64 v (l1.length * w) = v <<< (w * l1.length) := by
      rw [Nat.mul_comm l1.length w, shl64_eq (by omega), Nat.shiftLeft_eq]
      omega
    rw [packFrom, hshift, Digits.or_shiftLeft (Digits.number_lt hw h1), ← Digits.number_concat,
      ← hlen1, hcat]
    apply ih
    · intro u hu
      rcases List.mem_append.mp hu with h | h
      · exact h1 u h
      · rw [List.mem_singleton.mp h]
        exact h2 v (by simp)
    · exact fun u hu => h2 u (by simp [hu])
    · rw [← hcat]
      exact hl
    · rw [← hcat]
      exact hn

theorem Item.packedExt_eq {m : QFMetadata} {it : Item} (hw : 0 < m.bitsPerSlot)
    (hb : it.Bounded m.bitsPerSlot) (hf : it.Fits m) :
    it.packedExt m.bitsPerSlot = Digits.number m.bitsPerSlot it.ext := by
  unfold Item.Fits at hf
  have hle : m.bitsPerSlot * (it.ext.length - 1) ≤ m.bitsPerSlot * it.ext.length :=
    Nat.mul_le_mul_left _ (Nat.sub_le _ _)
  have hlt := Digits.number_lt hw hb.ext
  have hpow : 2^(m.bitsPerSlot * it.ext.length) ≤ 2^64 :=
    Nat.pow_le_pow_right (by omega) (by omega)
  exact @packFrom_eq m.bitsPerSlot [] it.ext hw (by simp) hb.ext (by simpa using by omega)
    (by simpa using by omega)

/-- The counter slots of a count hold it. -/
theorem packFrom_digits {w n : Nat} (hw : 0 < w) (hn : n < 2^64) :
    packFrom w 0 0 (Nat.digits (2^w) n) = n := by
  have hbase : 1 < 2^w := Nat.one_lt_two_pow (by omega)
  have hnumber : Digits.number w (Nat.digits (2^w) n) = n := Nat.ofDigits_digits _ _
  have hpack := @packFrom_eq w [] (Nat.digits (2^w) n) hw (by simp)
    (fun v hv => Nat.digits_lt_base hbase hv) ?_ ?_
  · exact hpack.trans hnumber
  · -- the highest digit is not 0
    rw [List.nil_append]
    rcases Nat.eq_zero_or_pos n with rfl | hpos
    · simp
    · have hlog := Nat.pow_log_le_self (2^w) (x := n) (by omega)
      rw [← pow_mul] at hlog
      rw [Nat.length_digits _ _ hbase (by omega), Nat.add_sub_cancel]
      exact (Nat.pow_lt_pow_iff_right (by omega)).mp (hlog.trans_lt hn)
  · rw [List.nil_append, hnumber]
    exact hn

theorem packSlots_eq {qf : QF} {p : QF → Nat → Bool} {index : Nat} {l : List Nat}
    (acc curr fuel : Nat)
    (hslot : ∀ i v, l[i]? = some v → p qf (curr+i) = true ∧ slotValue qf (curr+i) = v)
    (hstop : p qf (curr + l.length) = false) (hfit : curr + l.length ≤ qf.xnslots)
    (hi : index ≤ curr) (hf : l.length < fuel) :
    packSlots qf p index fuel curr acc =
      if curr + l.length ≤ intMax then
        some (packFrom qf.bits (curr - index) acc l, curr + l.length)
      else none := by
  induction l generalizing curr fuel acc with
  | nil =>
    obtain ⟨fuel, rfl⟩ : ∃ n, fuel = n + 1 := ⟨fuel - 1, by simp at hf; omega⟩
    simp only [List.length_nil, Nat.add_zero] at hstop ⊢
    unfold packSlots
    rw [hstop]
    by_cases h : curr ≤ intMax
    · rw [if_neg (by omega), if_pos h]
      rfl
    · rw [if_pos (by omega), if_neg h]
  | cons v l ih =>
    obtain ⟨fuel, rfl⟩ : ∃ n, fuel = n + 1 := ⟨fuel - 1, by simp at hf; omega⟩
    obtain ⟨hp, hv⟩ := hslot 0 v rfl
    rw [Nat.add_zero] at hp hv
    simp only [List.length_cons] at hstop hfit hf ⊢
    unfold packSlots
    by_cases h : curr ≤ intMax
    · have hget : getSlot qf curr = some v := by
        unfold getSlot
        rw [if_neg (by omega), if_pos (by omega), hv]
      have hnext := ih (acc ||| shl64 v ((curr - index) * qf.bits)) (curr+1) fuel (fun i u hu => by
          have := hslot (i+1) u (by simpa using hu)
          rw [Nat.add_assoc, Nat.add_comm 1 i]
          exact this) (by
          rw [Nat.add_assoc, Nat.add_comm 1]
          exact hstop) (by omega) (by omega) (by omega)
      have hsum : curr + 1 + l.length = curr + (l.length + 1) := by omega
      have hsub : curr + 1 - index = curr - index + 1 := by omega
      rw [if_neg (by omega), if_pos hp]
      simp only [hget, Option.bind_eq_bind, Option.bind_some, hnext, hsum, hsub, packFrom]
    · rw [if_pos (by omega), if_neg (by omega)]

/-- `get_slot_info` decodes an item, up to the range of its `int` loop variable. -/
theorem ItemAt.getSlotInfo_eq {qf : QF} {p : Nat} {it : Item} {last : Bool}
    (h : ItemAt qf p it last) (hblocks : qf.xnslots ≤ 64 * qf.metadata.nblocks) :
    getSlotInfo qf p = if p + it.len < 2^31 then some (it.info qf.bits) else none := by
  have hbase := h.base
  simp only [QF.view, Item.baseCell, Cell.mk.injEq] at hbase
  have hfit := h.fits
  have hlen : it.len = 1 + it.ext.length + it.cnt.length := rfl
  have hstop := h.stop
  simp only [QF.view] at hstop
  -- behind the extensions comes a counter slot or the end of the item
  have hext := @packSlots_eq qf isExtension (p+1) it.ext 0 (p+1) qf.fuel (fun i v hv => by
      have hc := h.ext i v hv
      simp only [QF.view, Item.extCell, Cell.mk.injEq] at hc
      simp [isExtension, hc]) (by
      cases hcnt : it.cnt with
      | nil =>
        have he : p + it.len = p + 1 + it.ext.length := by
          simp [hlen, hcnt]
          omega
        rw [he] at hstop
        simp [isExtension, hstop]
      | cons v l =>
        have hc := h.cnt 0 v (by simp [hcnt])
        simp only [QF.view, Item.cntCell, Cell.mk.injEq, Nat.add_zero] at hc
        simp [isExtension, hc]) (by omega) (Nat.le_refl _) (by unfold QF.fuel; omega)
  have hcnt := @packSlots_eq qf isCounter (p+1+it.ext.length) it.cnt 0 (p+1+it.ext.length)
    qf.fuel (fun i v hv => by
      have hc := h.cnt i v hv
      simp only [QF.view, Item.cntCell, Cell.mk.injEq] at hc
      simp [isCounter, hc]) (by
      have he : p + it.len = p + 1 + it.ext.length + it.cnt.length := by omega
      rw [he] at hstop
      simp [isCounter, hstop]) (by omega) (Nat.le_refl _) (by unfold QF.fuel; omega)
  have hisc : isCounter qf (p+1+it.ext.length) = !it.cnt.isEmpty := by
    cases hcnt : it.cnt with
    | nil =>
      have he : p + it.len = p + 1 + it.ext.length := by
        simp [hlen, hcnt]
        omega
      rw [he] at hstop
      simp [isCounter, hstop]
    | cons v l =>
      have hc := h.cnt 0 v (by simp [hcnt])
      simp only [QF.view, Item.cntCell, Cell.mk.injEq, Nat.add_zero] at hc
      simp [isCounter, hc]
  unfold getSlotInfo
  simp only [isExtensionOrCounter, hbase.2.2, Bool.false_eq_true, if_false, hext]
  by_cases hsmall : p + it.len < 2^31
  · have h1 : p + 1 + it.ext.length ≤ intMax := by unfold intMax; omega
    have h2 : p + 1 + it.ext.length + it.cnt.length ≤ intMax := by unfold intMax; omega
    simp only [if_pos h1, Option.bind_eq_bind, Option.bind_some, hcnt, if_pos h2, if_pos hsmall,
      hisc, Nat.sub_self, Nat.add_sub_cancel_left]
    simp only [Item.info, Item.packedExt, Item.count, Bool.not_eq_true',
      List.isEmpty_eq_false_iff]
    by_cases hn : it.cnt = []
    · simp [hn]
    · simp [hn]
  · rw [if_neg hsmall]
    by_cases h1 : p + 1 + it.ext.length ≤ intMax
    · have h2 : ¬ p + 1 + it.ext.length + it.cnt.length ≤ intMax := by unfold intMax; omega
      simp only [if_pos h1, Option.bind_eq_bind, Option.bind_some, hcnt, if_neg h2,
        Option.bind_none]
    · simp only [if_neg h1, Option.bind_eq_bind, Option.bind_none]

end AdaptiveQF
