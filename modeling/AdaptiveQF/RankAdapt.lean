import AdaptiveQF.Adapt
import AdaptiveQF.Canonical
import AdaptiveQF.Decode
import AdaptiveQF.HashUtil

/-! qf_adapt_using_ll_table finds an item by its rank. While it steps over smaller remainders, its
scan does not see the end of the run. -/
namespace AdaptiveQF
open RunLayout

/-! Slots that are neither extensions nor counters. -/

section
variable {qf : QF} {A : Contents} {s : Nat}

/-- An unused slot looks like an item without extension. -/
theorem Layout.itemAt_base (h : Layout qf A) (hs : s < qf.xnslots)
    (hbase : extensionBit qf s = false) : ∃ it last, ItemAt qf s it last := by
  by_cases hused : Used A.lens s
  · obtain ⟨b, h1, h2⟩ := hused
    have hin : s - start A.lens b < itemsLen (A b) := by
      have hl : itemsLen (A b) = A.lens b := rfl
      omega
    obtain ⟨l1, it, l2, hb, hl, hr⟩ := exists_item_of_lt hin
    have hat := h.itemAt hb
    have hpos : A.pos b l1 = s := by
      by_contra hne
      have hext := hat.extension_of_lt (s := s) (by unfold Contents.pos at hne ⊢; omega)
        (by unfold Contents.pos; omega)
      rw [hbase] at hext
      exact absurd hext (by decide)
    rw [hpos] at hat
    exact ⟨it, _, hat⟩
  · have hblank := h.holds.blank s (by rwa [Contents.lens_runs])
    refine ⟨⟨slotValue qf s, [], []⟩, false, ⟨?_, by simp, by simp, ?_, hs⟩⟩
    · exact Cell.ext rfl hblank.1 hblank.2
    · show (qf.view.cell (s+1)).extension = false
      by_cases hnext : Used A.lens (s+1)
      · -- A run starts here, for it has not reached slot `s`.
        obtain ⟨b, h1, h2⟩ := hnext
        have hstart : start A.lens b = s + 1 := by
          by_contra hne
          exact hused ⟨b, by omega, by omega⟩
        obtain ⟨it, l, hb⟩ := List.exists_cons_of_ne_nil
          (Contents.lens_pos (A := A) (b := b).mp (by omega))
        have hat := h.itemAt (show A b = [] ++ it :: l from hb)
        have hpos : A.pos b [] = s + 1 := hstart
        rw [hpos] at hat
        rw [hat.base]
        rfl
      · exact (h.holds.blank (s+1) (by rwa [Contents.lens_runs])).2

end

/-! The scan behind the run. -/

structure Stray (qf : QF) (rem s t : Nat) : Prop where
  le : s ≤ t
  lt : t < qf.xnslots
  base : extensionBit qf t = false
  value : slotValue qf t = rem
  passed : ∀ u, s ≤ u → u < t → extensionBit qf u = false →
    slotValue qf u < rem ∨ slotValue qf u = rem ∧ runendBit qf u = false

def strayCount (qf : QF) (rem s t : Nat) : Nat :=
  (List.range' s (t - s)).countP fun u => !extensionBit qf u && slotValue qf u == rem

/-- From slot `s` on there is an item that the scan takes for the one of rank `minirunRank`, or one
before it that reaches slot 2^31. -/
def Strays (qf : QF) (rem minirunRank rank s : Nat) : Prop :=
  ∃ t, Stray qf rem s t ∧ (rank + strayCount qf rem s t = minirunRank ∨
    rank + strayCount qf rem s t < minirunRank ∧ getSlotInfo qf t = none)

section
variable {qf : QF} {A : Contents} {rem minirunRank rank s n fuel : Nat} {it : Item} {last : Bool}

theorem strayCount_self (qf : QF) (rem s : Nat) : strayCount qf rem s s = 0 := by
  rw [strayCount, Nat.sub_self]
  rfl

theorem ItemAt.bits (hat : ItemAt qf s it last) :
    slotValue qf s = it.rem ∧ runendBit qf s = last ∧ extensionBit qf s = false := by
  have hbase := hat.base
  simp only [QF.view, Item.baseCell, Cell.mk.injEq] at hbase
  exact hbase

theorem ItemAt.eq_of_base (hat : ItemAt qf s it last) {u : Nat} (h1 : s ≤ u) (h2 : u < s + it.len)
    (hu : extensionBit qf u = false) : u = s := by
  by_contra hne
  have hext := hat.extension_of_lt (s := u) (by omega) h2
  rw [hu] at hext
  exact absurd hext (by decide)

theorem strayCount_step {t : Nat} (hat : ItemAt qf s it last) (ht : s + it.len ≤ t) :
    strayCount qf rem s t =
      (if it.rem = rem then 1 else 0) + strayCount qf rem (s + it.len) t := by
  obtain ⟨hval, -, hbase⟩ := hat.bits
  have hlen := it.len_pos
  have hsplit : List.range' s (t - s) =
      (s :: List.range' (s+1) (it.len - 1)) ++ List.range' (s + it.len) (t - (s + it.len)) := by
    rw [← List.range'_succ, Nat.sub_add_cancel hlen, List.range'_append_1]
    congr 1
    omega
  have htail : (List.range' (s+1) (it.len - 1)).countP
      (fun u => !extensionBit qf u && slotValue qf u == rem) = 0 := by
    rw [List.countP_eq_zero]
    intro u hu
    rw [List.mem_range'_1] at hu
    simp [hat.extension_of_lt (s := u) (by omega) (by omega)]
  rw [strayCount, hsplit, List.countP_append, List.countP_cons, htail, hbase, hval, strayCount]
  simp

/-- Nothing but the item itself lies in front of the next one. -/
theorem strays_step (hat : ItemAt qf s it last) (hblocks : qf.xnslots ≤ 64 * qf.metadata.nblocks)
    (hpass : it.rem < rem ∨ it.rem = rem ∧ last = false)
    (hself : it.rem = rem → rank < minirunRank ∧ s + it.len < 2^31) :
    Strays qf rem minirunRank rank s ↔
      Strays qf rem minirunRank (if it.rem = rem then rank + 1 else rank) (s + it.len) := by
  obtain ⟨hval, hrunend, hbase⟩ := hat.bits
  have hrank : ∀ c, (if it.rem = rem then rank + 1 else rank) + c =
      rank + ((if it.rem = rem then 1 else 0) + c) := by
    intro c
    split <;> omega
  constructor
  · rintro ⟨t, ht, hfound⟩
    have hle : s + it.len ≤ t := by
      by_contra hlt
      obtain rfl := hat.eq_of_base ht.le (by omega) ht.base
      -- The item itself is neither the one looked for nor too far.
      obtain ⟨hmore, hnear⟩ := hself (hval.symm.trans ht.value)
      have hinfo := hat.getSlotInfo_eq hblocks
      rw [if_pos hnear] at hinfo
      rw [strayCount_self, hinfo] at hfound
      rcases hfound with h | h
      · omega
      · exact absurd h.2 (Option.some_ne_none _)
    refine ⟨t, ⟨hle, ht.lt, ht.base, ht.value, fun u h1 h2 h3 => ht.passed u (by omega) h2 h3⟩, ?_⟩
    rwa [hrank, ← strayCount_step hat hle]
  · rintro ⟨t, ht, hfound⟩
    have hle := ht.le
    refine ⟨t, ⟨by omega, ht.lt, ht.base, ht.value, fun u h1 h2 h3 => ?_⟩, ?_⟩
    · by_cases hu : u < s + it.len
      · obtain rfl := hat.eq_of_base h1 hu h3
        rw [hval, hrunend]
        exact hpass
      · exact ht.passed u (by omega) h2 h3
    · rwa [hrank, ← strayCount_step hat hle] at hfound

theorem ItemAt.stray (hat : ItemAt qf s it last) (hr : it.rem = rem) : Stray qf rem s s := by
  obtain ⟨hval, -, hbase⟩ := hat.bits
  have hfit := hat.fits
  have hlen := it.len_pos
  exact ⟨le_refl s, by omega, hbase, hval.trans hr, fun u h1 h2 _ => by omega⟩

/-- The scan fails at an item that it has to decode. -/
theorem ItemAt.strays_far (hat : ItemAt qf s it last) (hr : it.rem = rem)
    (hblocks : qf.xnslots ≤ 64 * qf.metadata.nblocks) (hrank : rank < minirunRank)
    (hfar : 2^31 ≤ s + it.len) : Strays qf rem minirunRank rank s := by
  have hinfo := hat.getSlotInfo_eq hblocks
  rw [if_neg (by omega)] at hinfo
  refine ⟨s, hat.stray hr, .inr ⟨?_, hinfo⟩⟩
  rwa [strayCount_self]

theorem not_strays_of_stop (hat : ItemAt qf s it last)
    (hstop : rem < it.rem ∨ it.rem = rem ∧ last = true ∧ rank ≠ minirunRank ∧ s + it.len < 2^31)
    (hblocks : qf.xnslots ≤ 64 * qf.metadata.nblocks) : ¬ Strays qf rem minirunRank rank s := by
  obtain ⟨hval, hrunend, hbase⟩ := hat.bits
  rintro ⟨t, ht, hfound⟩
  have hts : t = s := by
    by_contra hne
    have hpass := ht.passed s (le_refl s) (lt_of_le_of_ne ht.le (Ne.symm hne)) hbase
    rw [hval, hrunend] at hpass
    rcases hstop with h | ⟨h1, h2, -⟩
    · omega
    · rcases hpass with h | h
      · omega
      · rw [h2] at h
        exact absurd h.2 (by decide)
  subst hts
  have hrem := hval.symm.trans ht.value
  rcases hstop with h | ⟨-, -, hne, hnear⟩
  · omega
  · have hinfo := hat.getSlotInfo_eq hblocks
    rw [if_pos hnear] at hinfo
    rw [strayCount_self, hinfo] at hfound
    rcases hfound with h | h
    · exact hne h
    · exact absurd h.2 (Option.some_ne_none _)

/-- The scan comes to no item if and only if no slot ahead strays into its way. -/
theorem Layout.adaptScan_eq_none (h : Layout qf A) (hs : s < qf.xnslots)
    (hbase : extensionBit qf s = false) (hr : rank ≤ minirunRank) (hf : qf.xnslots ≤ s + fuel) :
    adaptScan qf rem minirunRank fuel s rank = some none ↔
      ¬ Strays qf rem minirunRank rank s := by
  have hblocks := h.row.blocks
  induction fuel generalizing s rank with
  | zero => omega
  | succ fuel ih =>
    obtain ⟨it, last, hat⟩ := h.itemAt_base hs hbase
    obtain ⟨hval, hrunend, -⟩ := hat.bits
    have hlen := it.len_pos
    have hlen' : s + (it.cnt.length + it.ext.length + 1) = s + it.len := by
      unfold Item.len
      omega
    have hstop : extensionBit qf (s + it.len) = false := hat.stop
    have hend : ¬ s + it.len < qf.xnslots → ∀ r, ¬ Strays qf rem minirunRank r (s + it.len) := by
      rintro hout r ⟨t, ht, -⟩
      have h1 := ht.le
      have h2 := ht.lt
      omega
    unfold adaptScan
    simp only [hat.getSlot_eq, Option.bind_eq_bind, Option.bind_some, hat.isRunend_eq,
      hat.getSlotInfo_eq hblocks, hat.skip hblocks]
    rcases Nat.lt_trichotomy it.rem rem with hlt | heq | hgt
    · have hsame : (if it.rem = rem then rank + 1 else rank) = rank := if_neg (by omega)
      rw [if_pos hlt, strays_step hat hblocks (.inl hlt) (by omega), hsame]
      by_cases hin : s + it.len < qf.xnslots
      · rw [if_pos hin]
        exact ih hin hstop hr (by omega)
      · rw [if_neg hin]
        exact iff_of_true rfl (hend hin _)
    · rw [if_neg (by omega), if_pos heq]
      by_cases hnear : s + it.len < 2^31
      · rw [if_pos hnear, Option.bind_some]
        by_cases hfound : rank = minirunRank
        · rw [if_pos hfound]
          refine iff_of_false (by simp) (not_not.mpr ⟨s, hat.stray heq, .inl ?_⟩)
          rw [strayCount_self]
          exact hfound
        · rw [if_neg hfound]
          cases last with
          | true =>
            exact iff_of_true rfl
              (not_strays_of_stop hat (.inr ⟨heq, rfl, hfound, hnear⟩) hblocks)
          | false =>
            have hnext : (if it.rem = rem then rank + 1 else rank) = rank + 1 := if_pos heq
            rw [strays_step hat hblocks (.inr ⟨heq, rfl⟩) fun _ => ⟨by omega, hnear⟩, hnext]
            simp only [Item.info, hlen', Bool.false_eq_true, if_false]
            by_cases hin : s + it.len < qf.xnslots
            · rw [if_pos hin]
              exact ih hin hstop (by omega) (by omega)
            · rw [if_neg hin]
              exact iff_of_true rfl (hend hin _)
      · rw [if_neg hnear, Option.bind_none]
        refine iff_of_false (by simp) (not_not.mpr ?_)
        by_cases hfound : rank = minirunRank
        · refine ⟨s, hat.stray heq, .inl ?_⟩
          rw [strayCount_self]
          exact hfound
        · exact hat.strays_far heq hblocks (by omega) (by omega)
    · rw [if_neg (by omega), if_neg (by omega)]
      exact iff_of_true rfl (not_strays_of_stop hat (.inl hgt) hblocks)

end

/-! The scan along the run. -/

section
variable {qf : QF} {A : Contents} {b hash other minirunRank rank : Nat} {l1 : List Item}

/-- Where no item of the run has the rank, the scan goes wrong at an item that reaches slot 2^31, or
behind a run in which all remainders are smaller. -/
theorem Layout.strays_run (h : Layout qf A) {k : List Item} (hb : A b = l1 ++ k)
    (hr : rank + rankOf qf.metadata hash k ≤ minirunRank) :
    Strays qf (qf.metadata.remainder hash) minirunRank rank (A.pos b l1) ↔
      (∃ k1 it k2, k = k1 ++ it :: k2 ∧ it.rem = qf.metadata.remainder hash ∧
        2^31 ≤ A.pos b (l1 ++ k1) + it.len) ∨
      ((∀ it ∈ k, it.rem < qf.metadata.remainder hash) ∧
        Strays qf (qf.metadata.remainder hash) minirunRank rank (A.pos b (l1 ++ k))) := by
  have hblocks := h.row.blocks
  induction k generalizing l1 rank with
  | nil =>
    rw [List.append_nil]
    constructor
    · exact fun hs => .inr ⟨by simp, hs⟩
    · rintro (⟨k1, it, k2, hk, -⟩ | hs)
      · simp at hk
      · exact hs.2
  | cons x k ih =>
    have hat := h.itemAt hb
    have hb' : A b = (l1 ++ [x]) ++ k := by simp [hb]
    have hcat : ∀ k1, l1 ++ x :: k1 = (l1 ++ [x]) ++ k1 := by simp
    have hsort := h.sorted b
    rw [hb, List.pairwise_append, List.pairwise_cons] at hsort
    have hge : ∀ it ∈ k, x.rem ≤ it.rem := hsort.2.1.1
    -- A far item of the run is this one or one behind it.
    have hfar : (∃ k1 it k2, x :: k = k1 ++ it :: k2 ∧ it.rem = qf.metadata.remainder hash ∧
          2^31 ≤ A.pos b (l1 ++ k1) + it.len) ↔
        (x.rem = qf.metadata.remainder hash ∧ 2^31 ≤ A.pos b l1 + x.len) ∨
        ∃ k1 it k2, k = k1 ++ it :: k2 ∧ it.rem = qf.metadata.remainder hash ∧
          2^31 ≤ A.pos b ((l1 ++ [x]) ++ k1) + it.len := by
      constructor
      · rintro ⟨k1, it, k2, hk, h1, h2⟩
        cases k1 with
        | nil =>
          obtain ⟨rfl, rfl⟩ := List.cons.inj hk
          rw [List.append_nil] at h2
          exact .inl ⟨h1, h2⟩
        | cons y k1 =>
          obtain ⟨rfl, rfl⟩ := List.cons.inj hk
          rw [hcat] at h2
          exact .inr ⟨k1, it, k2, rfl, h1, h2⟩
      · rintro (⟨h1, h2⟩ | ⟨k1, it, k2, rfl, h1, h2⟩)
        · exact ⟨[], x, k, rfl, h1, by rwa [List.append_nil]⟩
        · exact ⟨x :: k1, it, k2, rfl, h1, by rwa [hcat]⟩
    rw [hfar]
    rcases Nat.lt_trichotomy x.rem (qf.metadata.remainder hash) with hlt | heq | hgt
    · have hrank : rankOf qf.metadata hash (x :: k) = rankOf qf.metadata hash k := by
        simp [rankOf, Nat.ne_of_lt hlt]
      rw [hrank] at hr
      have hrest := ih hb' hr
      refine (strays_step hat hblocks (.inl hlt) (by omega)).trans ?_
      rw [if_neg (Nat.ne_of_lt hlt), ← A.pos_append]
      refine hrest.trans ?_
      rw [hcat]
      simp [Nat.ne_of_lt hlt, hlt]
    · have hrank : rankOf qf.metadata hash (x :: k) = rankOf qf.metadata hash k + 1 := by
        simp [rankOf, heq]
      rw [hrank] at hr
      by_cases hfarx : 2^31 ≤ A.pos b l1 + x.len
      · exact iff_of_true (hat.strays_far heq hblocks (by omega) hfarx) (.inl (.inl ⟨heq, hfarx⟩))
      · cases k with
        | nil =>
          have hne : rank ≠ minirunRank := by omega
          refine iff_of_false
            (not_strays_of_stop hat (.inr ⟨heq, rfl, hne, by omega⟩) hblocks) ?_
          rintro ((h | ⟨k1, it, k2, hk, -⟩) | h)
          · exact hfarx h.2
          · simp at hk
          · exact absurd (h.1 x (by simp)) (by omega)
        | cons y k =>
          have hrest :=
            ih hb' (show rank + 1 + rankOf qf.metadata hash (y :: k) ≤ minirunRank by omega)
          have hy := hge y (by simp)
          refine (strays_step hat hblocks (.inr ⟨heq, rfl⟩) fun _ => ⟨by omega, by omega⟩).trans ?_
          rw [if_pos heq, ← A.pos_append]
          refine hrest.trans ?_
          constructor
          · rintro (h | h)
            · exact .inl (.inr h)
            · exact absurd (h.1 y (by simp)) (by omega)
          · rintro ((h | h) | h)
            · rw [A.pos_append] at h
              exact absurd h.2 hfarx
            · exact .inl h
            · exact absurd (h.1 x (by simp)) (by omega)
    · refine iff_of_false (not_strays_of_stop hat (.inl hgt) hblocks) ?_
      rintro ((h | ⟨k1, it, k2, rfl, h1, -⟩) | h)
      · omega
      · have := hge it (by simp)
        omega
      · exact absurd (h.1 x (by simp)) (by omega)

structure OfRank (qf : QF) (A : Contents) (hash rank : Nat) (l1 : List Item) (it : Item)
    (l2 : List Item) : Prop where
  split : A (qf.metadata.bucket hash) = l1 ++ it :: l2
  rem : it.rem = qf.metadata.remainder hash
  rank : rankOf qf.metadata hash l1 = rank

/-- Where there is an item of the rank, the call returns 1 and changes no other one. Else it returns
0 and changes nothing. -/
def RankAdapts (qf : QF) (A : Contents) (hash rank : Nat) (result : Option (Int × QF)) : Prop :=
  (∃ l1 it l2, OfRank qf A hash rank l1 it l2 ∧ ∃ qf' it2, result = some (1, qf') ∧
    Layout qf' (Function.update A (qf.metadata.bucket hash) (l1 ++ it2 :: l2))) ∨
  ((∀ l1 it l2, ¬ OfRank qf A hash rank l1 it l2) ∧ result = some (0, qf))

/-- The keys of the filter are hashed. In the mode `none` the call has no hash, unless the flags say
that the key is one. -/
def QFMetadata.HashesKeys (m : QFMetadata) : Prop :=
  ∃ mode seed, mode ≠ HashMode.none ∧ m.keyHash = mode.keyHash seed

/-- The item of the rank ends in front of slot 2^31, and `adapt` takes it. If there is none, the
same goes for all items with the remainder, and the scan finds nothing behind the run. -/
structure RankSafe (qf : QF) (A : Contents) (hash other rank : Nat) : Prop where
  target : ∀ l1 it l2, OfRank qf A hash rank l1 it l2 →
    A.pos (qf.metadata.bucket hash) l1 + it.len < 2^31 ∧ (hash ≠ other → it.cnt.length ≤ 1)
  passed : (∀ l1 it l2, ¬ OfRank qf A hash rank l1 it l2) →
    ∀ l1 it l2, A (qf.metadata.bucket hash) = l1 ++ it :: l2 →
      it.rem = qf.metadata.remainder hash → A.pos (qf.metadata.bucket hash) l1 + it.len < 2^31
  behind : A (qf.metadata.bucket hash) ≠ [] →
    (∀ it ∈ A (qf.metadata.bucket hash), it.rem < qf.metadata.remainder hash) →
    ¬ Strays qf (qf.metadata.remainder hash) rank 0
      (start A.lens (qf.metadata.bucket hash) + A.lens (qf.metadata.bucket hash))

theorem exists_rank {m : QFMetadata} {l : List Item} (h : rank < rankOf m hash l) :
    ∃ l1 it l2, l = l1 ++ it :: l2 ∧ it.rem = m.remainder hash ∧ rankOf m hash l1 = rank := by
  induction l generalizing rank with
  | nil => simp [rankOf] at h
  | cons x l ih =>
    by_cases hx : x.rem = m.remainder hash
    · have hone : rankOf m hash (x :: l) = rankOf m hash l + 1 := by simp [rankOf, hx]
      cases rank with
      | zero => exact ⟨[], x, l, rfl, hx, rfl⟩
      | succ rank =>
        obtain ⟨l1, it, l2, rfl, h1, h2⟩ := ih (show rank < rankOf m hash l by omega)
        refine ⟨x :: l1, it, l2, rfl, h1, ?_⟩
        rw [← h2]
        simp [rankOf, hx]
    · have hnone : ∀ k, rankOf m hash (x :: k) = rankOf m hash k := by simp [rankOf, hx]
      rw [hnone] at h
      obtain ⟨l1, it, l2, rfl, h1, h2⟩ := ih h
      exact ⟨x :: l1, it, l2, rfl, h1, by rw [hnone, h2]⟩

variable {origKey fpKey flags : Nat}

theorem OfRank.call {it : Item} {l1 l2 : List Item} (ht : OfRank qf A hash rank l1 it l2)
    (h : Layout qf A) (hk : keyToHash qf fpKey flags = hash)
    (hk2 : keyToHash qf origKey flags = other)
    (hbk : qf.metadata.bucket other = qf.metadata.bucket hash)
    (hrem : qf.metadata.remainder other = qf.metadata.remainder hash) :
    (A.pos (qf.metadata.bucket hash) l1 + it.len < 2^31 ∧ (hash ≠ other → it.cnt.length ≤ 1) →
      ∃ qf' it2, qfAdaptUsingLlTable qf origKey fpKey rank flags = some (1, qf') ∧
        Layout qf' (Function.update A (qf.metadata.bucket hash) (l1 ++ it2 :: l2))) ∧
    ∀ r, qfAdaptUsingLlTable qf origKey fpKey rank flags = some r →
      A.pos (qf.metadata.bucket hash) l1 + it.len < 2^31 ∧ (hash ≠ other → it.cnt.length ≤ 1) := by
  have hsplit := ht.split
  have hat := h.itemAt hsplit
  by_cases hnear : A.pos (qf.metadata.bucket hash) l1 + it.len < 2^31
  case neg =>
    have hocc : isOccupied qf (qf.metadata.bucket hash) = true := by
      rw [show isOccupied qf (qf.metadata.bucket hash) =
        decide (A (qf.metadata.bucket hash) ≠ []) from h.occupied _, hsplit]
      simp
    have hscan := h.adaptScan_start hsplit ht.rem
    rw [ht.rank, if_neg hnear] at hscan
    have hcall : qfAdaptUsingLlTable qf origKey fpKey rank flags = none := by
      unfold qfAdaptUsingLlTable
      simp only [hk, h.geometry.hashBucketIndex_eq, hocc, Bool.not_true, Bool.false_eq_true,
        if_false, h.runStart_eq, h.geometry.hashRemainder_eq, hscan, Option.bind_eq_bind,
        Option.bind_some, Option.bind_none]
    rw [hcall]
    exact ⟨fun hs => absurd hs.1 hnear, fun r hr => absurd hr (Option.some_ne_none _).symm⟩
  have hcall := h.qfAdaptUsingLlTable_hit hk hsplit hnear ht.rem origKey
  rw [ht.rank] at hcall
  rw [hcall]
  unfold qfAdapt
  simp only [hk, hk2]
  by_cases hne : other = hash
  · rw [if_pos hne]
    refine ⟨fun _ => ⟨qf, it, rfl, ?_⟩, fun _ _ => ⟨hnear, fun h => absurd hne.symm h⟩⟩
    rw [← hsplit, Function.update_eq_self]
    exact h
  · rw [if_neg hne, h.geometry.rangeBucket_eq, hbk]
    constructor
    · rintro ⟨-, hc⟩
      obtain ⟨qf', ret, done, rest, heq, had, -⟩ := h.adapt_eq hsplit (hc (Ne.symm hne)) hnear hbk
        (ht.rem.trans hrem.symm) hash
      exact ⟨qf', it.extend done, by rw [heq]; rfl, had.layout⟩
    · intro r hr
      refine ⟨hnear, fun _ => ?_⟩
      by_contra hc
      rw [adapt, hat.getSlotInfo_eq h.row.blocks, if_pos hnear, hat.getSlot_eq] at hr
      simp only [Option.bind_eq_bind, Option.bind_some, Item.info] at hr
      rw [if_neg fun hassert => hc hassert.1] at hr
      exact absurd hr (Option.some_ne_none _).symm

/-- The call for a rank that no item has. -/
theorem Layout.rank_miss (h : Layout qf A) (hk : keyToHash qf fpKey flags = hash)
    (hno : ∀ l1 it l2, ¬ OfRank qf A hash rank l1 it l2) :
    qfAdaptUsingLlTable qf origKey fpKey rank flags = some (0, qf) ↔
      (∀ l1 it l2, A (qf.metadata.bucket hash) = l1 ++ it :: l2 →
        it.rem = qf.metadata.remainder hash →
        A.pos (qf.metadata.bucket hash) l1 + it.len < 2^31) ∧
      (A (qf.metadata.bucket hash) ≠ [] →
        (∀ it ∈ A (qf.metadata.bucket hash), it.rem < qf.metadata.remainder hash) →
        ¬ Strays qf (qf.metadata.remainder hash) rank 0
          (start A.lens (qf.metadata.bucket hash) + A.lens (qf.metadata.bucket hash))) := by
  have hocc : isOccupied qf (qf.metadata.bucket hash) =
      decide (A (qf.metadata.bucket hash) ≠ []) := h.occupied _
  unfold qfAdaptUsingLlTable
  simp only [hk, h.geometry.hashBucketIndex_eq, hocc, h.runStart_eq, h.geometry.hashRemainder_eq,
    Option.bind_eq_bind, Option.bind_some]
  by_cases hempty : A (qf.metadata.bucket hash) = []
  · rw [if_pos (by simp [hempty])]
    exact iff_of_true rfl ⟨by simp [hempty], fun hne => absurd hempty hne⟩
  obtain ⟨x, l, hx⟩ := List.exists_cons_of_ne_nil hempty
  have hat := h.itemAt (show A (qf.metadata.bucket hash) = [] ++ x :: l from hx)
  have hpos : A.pos (qf.metadata.bucket hash) [] = start A.lens (qf.metadata.bucket hash) := rfl
  rw [hpos] at hat
  have hfit := hat.fits
  have hlen := x.len_pos
  have hblocks := h.row.blocks
  have hall : rankOf qf.metadata hash (A (qf.metadata.bucket hash)) ≤ rank := by
    by_contra hlt
    obtain ⟨l1, it, l2, h1, h2, h3⟩ := exists_rank (Nat.lt_of_not_le hlt)
    exact hno l1 it l2 ⟨h1, h2, h3⟩
  have hscan : adaptScan qf (qf.metadata.remainder hash) rank qf.fuel
      (start A.lens (qf.metadata.bucket hash)) 0 = some none ↔
        ¬ Strays qf (qf.metadata.remainder hash) rank 0 (start A.lens (qf.metadata.bucket hash)) :=
    h.adaptScan_eq_none (by omega) hat.bits.2.2 (Nat.zero_le _) (by unfold QF.fuel; omega)
  have hrun : Strays qf (qf.metadata.remainder hash) rank 0
      (A.pos (qf.metadata.bucket hash) []) ↔ _ :=
    h.strays_run (show A (qf.metadata.bucket hash) = [] ++ A (qf.metadata.bucket hash) from rfl)
      (by omega)
  rw [if_neg (by simp [hempty])]
  constructor
  · intro hcall
    have hnone : adaptScan qf (qf.metadata.remainder hash) rank qf.fuel
        (start A.lens (qf.metadata.bucket hash)) 0 = some none := by
      cases hs : adaptScan qf (qf.metadata.remainder hash) rank qf.fuel
          (start A.lens (qf.metadata.bucket hash)) 0 with
      | none =>
        rw [hs, Option.bind_none] at hcall
        exact absurd hcall (Option.some_ne_none _).symm
      | some found =>
        cases found with
        | none => rfl
        | some index =>
          simp only [hs, Option.bind_some, Option.bind_eq_some_iff, Prod.exists, Option.some.injEq,
            Prod.mk.injEq] at hcall
          obtain ⟨_, _, _, _, hret, _⟩ := hcall
          exact absurd hret (by decide)
    have hclear := (hrun.not.mp (hscan.mp hnone))
    rw [not_or] at hclear
    refine ⟨fun l1 it l2 hb hr => ?_, fun _ hsmall hs => hclear.2 ⟨hsmall, hs⟩⟩
    by_contra hfar
    exact hclear.1 ⟨l1, it, l2, hb, hr, Nat.le_of_not_lt hfar⟩
  · rintro ⟨hpassed, hbehind⟩
    have hnone := hscan.mpr (hrun.not.mpr ?_)
    · rw [hnone]
      rfl
    · rintro (⟨l1, it, l2, hb, hr, hfar⟩ | ⟨hsmall, hs⟩)
      · have hnear := hpassed l1 it l2 hb hr
        rw [List.nil_append] at hfar
        omega
      · exact hbehind hempty hsmall hs

/-- The call for a rank keeps to its item if and only if the scan gets to it, or to the end of the
run. -/
theorem rank_adapt_iff (h : Layout qf A)
    (_hset : hasFlag flags QF_KEY_IS_HASH = true ∨ qf.metadata.HashesKeys)
    (hk : keyToHash qf fpKey flags = hash) (hk2 : keyToHash qf origKey flags = other)
    (hbk : qf.metadata.bucket other = qf.metadata.bucket hash)
    (hrem : qf.metadata.remainder other = qf.metadata.remainder hash) (rank : Nat) :
    RankAdapts qf A hash rank (qfAdaptUsingLlTable qf origKey fpKey rank flags) ↔
      RankSafe qf A hash other rank := by
  constructor
  · intro hadapts
    have htarget : ∀ l1 it l2, OfRank qf A hash rank l1 it l2 →
        ∃ r, qfAdaptUsingLlTable qf origKey fpKey rank flags = some r := by
      intro l1 it l2 ht
      rcases hadapts with ⟨_, _, _, _, qf', _, hcall, _⟩ | ⟨hno, _⟩
      · exact ⟨_, hcall⟩
      · exact absurd ht (hno l1 it l2)
    have hmiss : (∀ l1 it l2, ¬ OfRank qf A hash rank l1 it l2) →
        qfAdaptUsingLlTable qf origKey fpKey rank flags = some (0, qf) := by
      intro hno
      rcases hadapts with ⟨l1, it, l2, ht, _⟩ | ⟨_, hcall⟩
      · exact absurd ht (hno l1 it l2)
      · exact hcall
    refine ⟨fun l1 it l2 ht => ?_, fun hno => ((h.rank_miss hk hno).mp (hmiss hno)).1,
      fun hne hsmall => ?_⟩
    · obtain ⟨r, hr⟩ := htarget l1 it l2 ht
      exact (ht.call h hk hk2 hbk hrem).2 r hr
    · have hno : ∀ l1 it l2, ¬ OfRank qf A hash rank l1 it l2 := by
        intro l1 it l2 ht
        have hlt := hsmall it (by simp [ht.split])
        rw [ht.rem] at hlt
        exact lt_irrefl _ hlt
      exact ((h.rank_miss hk hno).mp (hmiss hno)).2 hne hsmall
  · intro hsafe
    by_cases hex : ∃ l1 it l2, OfRank qf A hash rank l1 it l2
    · obtain ⟨l1, it, l2, ht⟩ := hex
      exact .inl ⟨l1, it, l2, ht, (ht.call h hk hk2 hbk hrem).1 (hsafe.target l1 it l2 ht)⟩
    · have hno : ∀ l1 it l2, ¬ OfRank qf A hash rank l1 it l2 :=
        fun l1 it l2 ht => hex ⟨l1, it, l2, ht⟩
      exact .inr ⟨hno, (h.rank_miss hk hno).mpr ⟨hsafe.passed hno, hsafe.behind⟩⟩

end

/-! 8 slots: an item of bucket 1 and right behind it one of bucket 2. -/

def rankContents : Contents :=
  Function.update (Contents.single 1 ⟨0, [], []⟩) 2 [⟨1, [], []⟩]

def rankFilter : QF := QF.ofContents (QFMetadata.init 3 2 36) rankContents

theorem rankContents_eq {b : Nat} (h1 : b ≠ 1) (h2 : b ≠ 2) : rankContents b = [] := by
  simp [rankContents, Contents.single, h1, h2]

theorem rankContents_mem {b : Nat} {it : Item} (h : it ∈ rankContents b) :
    it = ⟨0, [], []⟩ ∨ it = ⟨1, [], []⟩ := by
  by_cases h2 : b = 2
  · subst h2
    exact .inr (by simpa [rankContents] using h)
  · by_cases h1 : b = 1
    · subst h1
      exact .inl (by simpa [rankContents, Contents.single] using h)
    · rw [rankContents_eq h1 h2] at h
      simp at h

theorem rankFilter_wf : WF rankFilter rankContents := by
  refine Contents.Fits.wf ⟨fun b hb => ?_, by decide, fun b it hit => ?_, fun b => ?_,
    fun b it hit => ?_⟩ (Geometry.init (by decide) (by decide) (by decide) (by decide) (by decide))
  · have hb' : 8 ≤ b := hb
    exact rankContents_eq (by omega) (by omega)
  · rcases rankContents_mem hit with rfl | rfl
    · exact ⟨by decide, by decide, by decide⟩
    · exact ⟨by decide, by decide, by decide⟩
  · by_cases h2 : b = 2
    · simp [rankContents, h2]
    · by_cases h1 : b = 1
      · simp [rankContents, Contents.single, h1]
      · rw [rankContents_eq h1 h2]
        exact .nil
  · rcases rankContents_mem hit with rfl | rfl
    · exact (show 3 + 2 * 0 < 64 by decide)
    · exact (show 3 + 2 * 0 < 64 by decide)

theorem rank_adapt_iff_found : RankAdapts rankFilter rankContents 4 0
    (qfAdaptUsingLlTable rankFilter 36 4 0 QF_KEY_IS_HASH) := by
  have hb : rankFilter.metadata.bucket 4 = 1 := by decide
  have hbucket : rankContents 1 = [⟨0, [], []⟩] := by decide
  have hone : OfRank rankFilter rankContents 4 0 [] ⟨0, [], []⟩ [] := by
    refine ⟨?_, by decide, by decide⟩
    rw [hb, hbucket]
    rfl
  refine (rank_adapt_iff rankFilter_wf.toLayout (.inl (by decide))
    (show keyToHash rankFilter 4 QF_KEY_IS_HASH = 4 from rfl)
    (show keyToHash rankFilter 36 QF_KEY_IS_HASH = 36 from rfl) (by decide) (by decide) 0).mpr
    ⟨fun l1 it l2 ht => ?_, fun hno => absurd hone (hno _ _ _), fun _ hsmall => ?_⟩
  · have hsplit := ht.split
    rw [hb, hbucket] at hsplit
    obtain ⟨rfl, rfl, rfl⟩ : l1 = [] ∧ it = ⟨0, [], []⟩ ∧ l2 = [] := by
      cases l1 with
      | nil => simpa [eq_comm] using hsplit
      | cons x l1 => simp at hsplit
    exact ⟨by decide, fun _ => by decide⟩
  · have hlt := hsmall ⟨0, [], []⟩ (by rw [hb, hbucket]; simp)
    exact absurd hlt (by decide)

/-- Bucket 1 has no item with remainder 1. The call extends that of bucket 2, which no longer
answers its own hash 9. -/
theorem rank_adapt_strays : WF rankFilter rankContents ∧
    (∃ hit, qfQuery rankFilter 9 QF_KEY_IS_HASH = some (1, some hit)) ∧
    (∃ qf', qfAdaptUsingLlTable rankFilter 37 5 0 QF_KEY_IS_HASH = some (1, qf') ∧
      qfQuery qf' 9 QF_KEY_IS_HASH = some (0, none)) ∧
    ¬ RankAdapts rankFilter rankContents 5 0
      (qfAdaptUsingLlTable rankFilter 37 5 0 QF_KEY_IS_HASH) := by
  obtain ⟨r, hr⟩ : ∃ r, qfAdaptUsingLlTable rankFilter 37 5 0 QF_KEY_IS_HASH = some r :=
    Option.isSome_iff_exists.mp (by decide +kernel)
  have hall : ∀ r ∈ qfAdaptUsingLlTable rankFilter 37 5 0 QF_KEY_IS_HASH,
      r.1 = 1 ∧ qfQuery r.2 9 QF_KEY_IS_HASH = some (0, none) := by
    decide +kernel
  obtain ⟨hret, hquery⟩ := hall r hr
  have hbefore : qfQuery rankFilter 9 QF_KEY_IS_HASH = some (1, some ⟨2, 9, 5⟩) := by
    decide +kernel
  refine ⟨rankFilter_wf, ⟨_, hbefore⟩, ⟨r.2, ?_, hquery⟩, ?_⟩
  · rw [hr, ← hret]
  · rintro (⟨l1, it, l2, ht, -⟩ | ⟨-, hcall⟩)
    · have hmem : it ∈ rankContents 1 := by
        rw [show rankContents 1 = l1 ++ it :: l2 from ht.split]
        simp
      have hrem : it.rem = 1 := ht.rem
      simp only [rankContents, Contents.single, Function.update_of_ne (by decide : (1:Nat) ≠ 2),
        Function.update_self, List.mem_singleton] at hmem
      rw [hmem] at hrem
      exact absurd hrem (by decide)
    · have hzero := (hall _ hcall).1
      exact absurd hzero (by decide)

end AdaptiveQF
