import AdaptiveQF.Checks

/-! What a call has done when it reports that it ran out of space, and when it does not. -/
namespace AdaptiveQF
open RunLayout

def Unchanged (A : Contents) (qf qf' : QF) : Prop := Layout qf' A ∧ qf'.metadata = qf.metadata

def Found (qf : QF) (key flags : Nat) : Prop :=
  ∃ c hit, 0 < c ∧ qfQuery qf key flags = some (c, some hit)

def Stored (qf : QF) (A : Contents) (hash count : Nat) (qf' : QF) : Prop :=
  ∃ l1 it l2, A (qf.metadata.bucket hash) = l1 ++ l2 ∧ it.Matches qf.metadata hash ∧
    it.count qf.bits = count ∧
    Layout qf' (Function.update A (qf.metadata.bucket hash) (l1 ++ it :: l2))

/-- The item has more digits of the hash, up to the first one that the other hash has not. -/
structure Extended (qf : QF) (hash other : Nat) (it it' : Item) : Prop where
  rem : it'.rem = it.rem
  count : it'.count qf.bits = it.count qf.bits
  ext : ∃ d, Digging qf.metadata hash other it.ext.length d ∧ it'.ext = it.ext ++ d

def Call.Done : Call → QF → Contents → Int → QF → Prop
  | .insertRet key count _ flags, qf, A, r, qf' => r = 0 ∧ Unchanged A qf qf' ∨
    r = 1 ∧ Stored qf A (keyToHash qf key flags) count qf' ∧ Found qf' key flags
  | .insertUsingLlTable key count _ flags, qf, A, _, qf' =>
    Stored qf A (keyToHash qf key flags) count qf' ∧ Found qf' key flags
  | .insertAndExtend index key count otherKey _ _ flags, qf, A, _, qf' => Found qf' key flags ∧
    ∃ l1 it l2, ItemOf qf A (keyToHash qf key flags) index l1 it l2 ∧
      if keyToHash qf key flags = keyToHash qf otherKey flags then
        ∃ it', it'.rem = it.rem ∧ it'.ext = it.ext ∧
          it'.count qf.bits = it.count qf.bits + count ∧
          Layout qf' (Function.update A (qf.metadata.bucket (keyToHash qf key flags))
            (l1 ++ it' :: l2))
      else ∃ x it', x.Matches qf.metadata (keyToHash qf key flags) ∧ x.count qf.bits = count ∧
        Extended qf (keyToHash qf otherKey flags) (keyToHash qf key flags) it it' ∧
        Layout qf' (Function.update A (qf.metadata.bucket (keyToHash qf key flags))
          (l1 ++ x :: it' :: l2))
  | .adapt index key otherKey _ flags, qf, A, _, qf' =>
    if keyToHash qf key flags = keyToHash qf otherKey flags then Unchanged A qf qf'
    else ∃ l1 it it' l2, ItemOf qf A (keyToHash qf key flags) index l1 it l2 ∧
      Extended qf (keyToHash qf key flags) (keyToHash qf otherKey flags) it it' ∧
      Layout qf' (Function.update A (qf.metadata.bucket (keyToHash qf key flags))
        (l1 ++ it' :: l2))
  | .adaptUsingLlTable _ _ _ _, _, _, _, _ => True
  | .remove _ _ _, _, _, _, _ => True

/-- Nothing is changed if the call reports that it ran out of space, and all is done if not. -/
def Call.AllOrNothing (resize : QF → Nat → Option (Int × QF)) (c : Call) (qf : QF) : Prop :=
  ∃ r qf', c.exec resize qf = some (r, qf') ∧ ∀ A, Layout qf A →
    (r = noSpace → Unchanged A qf qf') ∧ (r ≠ noSpace → c.Done qf A r qf')

def Call.RoomOrNone : Call → QF → Prop
  | .adapt index key otherKey _ flags, qf => ∀ A l1 it l2,
    ItemOf qf A (keyToHash qf key flags) index l1 it l2 →
      A.free qf index = 0 ∨ (qf.wantedDigits (keyToHash qf key flags)
        (keyToHash qf otherKey flags) it.ext.length).length ≤ A.free qf index
  | c, qf => c.HasRoom qf

/-- The run into which an insertion goes ends in front of slot 2^31, also with the new slots, and an
item of the same hash as the inserted one matches it. -/
def Call.Readable : Call → QF → Prop
  | .insertRet key count _ flags, qf => full qf = false → ∀ A, Layout qf A →
    A.runEnd (qf.metadata.bucket (keyToHash qf key flags)) +
      (1 + (counterOf qf.bits count).length) < 2^31
  | .insertUsingLlTable key count _ flags, qf => full qf = false → ∀ A, Layout qf A →
    A.runEnd (qf.metadata.bucket (keyToHash qf key flags)) +
      (1 + (counterOf qf.bits count).length) < 2^31
  | .insertAndExtend index key count otherKey _ _ flags, qf => ∀ A l1 it l2,
    ItemOf qf A (keyToHash qf key flags) index l1 it l2 →
      (keyToHash qf key flags = keyToHash qf otherKey flags →
        it.Matches qf.metadata (keyToHash qf key flags) ∧
        A.runEnd (qf.metadata.bucket (keyToHash qf key flags)) +
          it.newSlots qf.bits count < 2^31) ∧
      (keyToHash qf key flags ≠ keyToHash qf otherKey flags →
        A.runEnd (qf.metadata.bucket (keyToHash qf key flags)) +
          ((qf.wantedDigits (keyToHash qf otherKey flags) (keyToHash qf key flags)
            it.ext.length).length + 1 +
          (qf.wantedDigits (keyToHash qf key flags) (keyToHash qf otherKey flags) 0).length +
            (counterOf qf.bits count).length) < 2^31)
  | _, _ => True

theorem Call.Checks.allOrNothing {c : Call} {qf : QF} {A : Contents} (hc : c.Checks A qf)
    (h : Layout qf A) : c.Legal qf ∧ c.RoomOrNone qf ∧ c.Sound qf ∧ c.Readable qf := by
  obtain ⟨hl, hr, hs⟩ := hc.ok h
  suffices hall : c.RoomOrNone qf ∧ c.Readable qf from ⟨hl, hall.1, hs, hall.2⟩
  cases c with
  | insertRet key count out flags =>
    refine ⟨hr, fun _ B hB => ?_⟩
    obtain rfl := h.unique hB
    exact hc.2.1
  | insertUsingLlTable key count result flags =>
    refine ⟨hr, fun _ B hB => ?_⟩
    obtain rfl := h.unique hB
    exact hc.2.2.1
  | insertAndExtend index key count otherKey retHash retOtherHash flags =>
    refine ⟨hr, fun B l1 it l2 hst => ?_⟩
    obtain rfl := h.unique hst.layout
    obtain ⟨-, hsame, hother⟩ := hc.2.2 l1 it l2 hst.split hst.rem hst.index_eq
    exact ⟨fun he => (hsame he).2.2.2, fun hne => (hother hne).2.2.2.2⟩
  | adapt index key otherKey retHash flags =>
    refine ⟨fun B l1 it l2 hst => ?_, trivial⟩
    obtain rfl := h.unique hst.layout
    exact (hc.2 l1 it l2 hst.split hst.rem hst.index_eq).2.2
  | adaptUsingLlTable origKey fpKey minirunRank flags => exact ⟨hr, trivial⟩
  | remove key out flags => exact ⟨hr, trivial⟩

section
variable {qf qf' : QF} {A : Contents} {hash other count key flags : Nat}
  {l1 l2 old new : List Item} {it : Item}

theorem near_of_runEnd (m : QFMetadata) (A : Contents) (hash : Nat)
    (h : A.runEnd (m.bucket hash) < 2^31) : Near m A hash := by
  intro k1 it k2 hsplit _ _
  have hlen : A.lens (m.bucket hash) = itemsLen k1 + (it.len + itemsLen k2) := by
    rw [Contents.lens, hsplit, itemsLen_append, itemsLen_cons]
  unfold Contents.runEnd at h
  omega

theorem Tidy.found (h : Tidy qf A) (hk : keyToHash qf key flags = hash)
    (hmem : it ∈ A (qf.metadata.bucket hash)) (hm : it.Matches qf.metadata hash)
    (hend : A.runEnd (qf.metadata.bucket hash) < 2^31) : Found qf key flags := by
  have hn := near_of_runEnd qf.metadata A hash hend
  rcases firstMatch_or_none qf.metadata hash (A (qf.metadata.bucket hash)) with
    ⟨k1, x, k2, hf⟩ | hno
  · have hx : x ∈ A (qf.metadata.bucket hash) := by rw [hf.split]; simp
    have hquery : qfQuery qf key flags = some (x.count qf.bits, some
        ⟨A.pos (qf.metadata.bucket hash) k1,
          minirunId qf hash ||| shl64 (x.packedExt qf.bits) (qf.qbits + qf.bits),
          qf.bits * x.ext.length + qf.qbits + qf.bits⟩) := by
      unfold qfQuery
      simp only [hk, h.scanBucket_hit hn hf, Option.bind_eq_bind, Option.bind_some]
      rfl
    exact ⟨_, _, (h.counts _ x hx).count_pos h.bits_pos, hquery⟩
  · exact absurd hm (hno it hmem)

theorem Swapped.found (h : Swapped qf A (qf.metadata.bucket hash) l1 old new l2 qf')
    (hk : keyToHash qf key flags = hash) (hmem : it ∈ new) (hm : it.Matches qf.metadata hash)
    {k : Nat} (hlen : itemsLen new = itemsLen old + k)
    (hend : A.runEnd (qf.metadata.bucket hash) + k < 2^31) : Found qf' key flags := by
  have hb : qf'.metadata.bucket = qf.metadata.bucket := h.keeps.bucket
  have hkey : keyToHash qf' key flags = hash := by rw [h.keeps.keyToHash, hk]
  refine h.tidy.found hkey ?_ (h.keeps.matches_iff.mpr hm) ?_
  · rw [hb, Function.update_self]
    simp [hmem]
  · have hstart := A.pos_update (qf.metadata.bucket hash) (l1 ++ new ++ l2) []
    unfold Contents.pos at hstart
    rw [itemsLen_nil, Nat.add_zero, Nat.add_zero] at hstart
    have hold : A.lens (qf.metadata.bucket hash) = itemsLen l1 + itemsLen old + itemsLen l2 := by
      rw [Contents.lens, h.split, itemsLen_append, itemsLen_append]
    rw [hb, Contents.runEnd, hstart, Contents.lens, Function.update_self, itemsLen_append,
      itemsLen_append]
    unfold Contents.runEnd at hend
    omega

/-! The steps. -/

theorem newItem_matches (qf : QF) (hash count : Nat) :
    (newItem qf hash count).Matches qf.metadata hash := ⟨rfl, rfl⟩

theorem Swapped.stored (h : Swapped qf A (qf.metadata.bucket hash) l1 [] [newItem qf hash count] l2
    qf') (hw : 0 < qf.bits) (h0 : 0 < count) (hc : count < 2^64) : Stored qf A hash count qf' := by
  have hlay := h.tidy.toLayout
  rw [List.append_assoc, List.singleton_append] at hlay
  exact ⟨l1, newItem qf hash count, l2, by simpa using h.split, newItem_matches qf hash count,
    Item.count_counterOf hw h0 hc _, hlay⟩

theorem len_newItem (qf : QF) (hash count : Nat) :
    itemsLen [newItem qf hash count] = itemsLen [] + (1 + (counterOf qf.bits count).length) := by
  simp [newItem, Item.withCounter, Item.len, Item.fresh]

/-- A larger count takes the new slots. -/
theorem len_counted {w : Nat} (hw : 0 < w) (hc : it.Counts w) :
    itemsLen [it.withCounter (Nat.digits (2^w) (it.count w + count))] =
      itemsLen [it] + it.newSlots w count := by
  rw [← hc.addCount_eq hw]
  simp only [itemsLen_cons, itemsLen_nil, Item.addCount, Item.withCounter, Item.len,
    List.length_append, Digits.length_low, Item.newSlots]
  omega

theorem len_pair (hc : it.cnt = []) {r : Nat} {d1 d2 cnt : List Nat} :
    itemsLen [((Item.fresh r).extend d1).withCounter cnt, it.extend d2] =
      itemsLen [it] + (d2.length + 1 + d1.length + cnt.length) := by
  simp only [itemsLen_cons, itemsLen_nil, Item.withCounter, Item.len, Item.extend_ext,
    it.extend_plain hc d2, hc, Item.fresh, List.length_append, List.length_nil]
  omega

theorem Extended.of_digits (hg : Geometry qf.metadata) (hc : it.cnt = [])
    (hlen : qf.metadata.fingerprintLen it.ext.length < 64) :
    Extended qf hash other it (it.extend (qf.wantedDigits hash other it.ext.length)) := by
  have hone : it.count qf.bits = 1 := if_pos hc
  exact ⟨it.extend_rem _, (Item.count_extend hc _ _).trans hone.symm,
    _, hg.wantedDigits_spec hash other hlen, it.extend_ext _⟩

theorem extended_fresh_matches (hg : Geometry qf.metadata) (cnt : List Nat) :
    (((Item.fresh (qf.metadata.remainder hash)).extend
      (qf.wantedDigits hash other 0)).withCounter cnt).Matches qf.metadata hash := by
  have hdigits := (hg.wantedDigits_spec hash other hg.room).digits
  rw [Nat.zero_add] at hdigits
  refine ⟨Item.extend_rem _ _, ?_⟩
  have hext : (((Item.fresh (qf.metadata.remainder hash)).extend
      (qf.wantedDigits hash other 0)).withCounter cnt).ext = qf.wantedDigits hash other 0 :=
    Item.extend_ext _ _
  rw [hext]
  exact hdigits

theorem Tidy.call (h : Tidy qf A) (resize : QF → Nat → Option (Int × QF)) (c : Call)
    (hl : c.Legal qf) (hr : c.RoomOrNone qf) (hs : c.Sound qf) (ha : c.Readable qf) :
    ∃ r qf', c.exec resize qf = some (r, qf') ∧ (∃ A', Tidy qf' A') ∧
      (r = noSpace → Unchanged A qf qf') ∧ (r ≠ noSpace → c.Done qf A r qf') := by
  cases c with
  | insertRet key count out flags =>
    obtain ⟨h0, hc⟩ := hl
    obtain ⟨r, out', qf', hcall, hcase⟩ := h.insertRet rfl h0 hc
      (fun hf => (hs hf A h.toLayout).1) (fun hf l1 l2 p hp hpl =>
        ⟨hr hf A l1 l2 p h.toLayout hp hpl, (hs hf A h.toLayout).2 l1 l2 p hp hpl⟩) resize out
    refine ⟨r, qf', by simp [Call.exec, hcall], ?_⟩
    rcases hcase with ⟨rfl, hret⟩ | ⟨hf, rfl, -, l1, l2, hsw⟩
    · exact ⟨⟨A, h⟩, fun _ => ⟨h.toLayout, rfl⟩,
        fun hne => .inl ⟨hret.resolve_left fun hfull => hne hfull.1, h.toLayout, rfl⟩⟩
    · refine ⟨⟨_, hsw.tidy⟩, fun hc => absurd hc (by decide), fun _ => .inr ⟨rfl, ?_, ?_⟩⟩
      · exact hsw.stored h.bits_pos h0 hc
      · exact hsw.found rfl (List.mem_singleton.mpr rfl) (newItem_matches _ _ _)
          (len_newItem _ _ _) (ha hf A h.toLayout)
  | insertUsingLlTable key count result flags =>
    obtain ⟨h0, hc⟩ := hl
    obtain ⟨r, result', qf', hcall, hcase⟩ := h.insertUsingLlTable rfl h0 hc
      (fun hf => (hs hf A h.toLayout).1) (fun hf l1 l2 p hp hpl =>
        ⟨hr hf A l1 l2 p h.toLayout hp hpl, (hs hf A h.toLayout).2 l1 l2 p hp hpl⟩) resize result
    refine ⟨r, qf', by simp [Call.exec, hcall], ?_⟩
    rcases hcase with ⟨rfl, rfl, -⟩ | ⟨hf, rfl, -, l1, l2, hsw⟩
    · exact ⟨⟨A, h⟩, fun _ => ⟨h.toLayout, rfl⟩, fun hne => absurd rfl hne⟩
    · refine ⟨⟨_, hsw.tidy⟩, fun hc => absurd hc (by decide), fun _ => ⟨?_, ?_⟩⟩
      · exact hsw.stored h.bits_pos h0 hc
      · exact hsw.found rfl (List.mem_singleton.mpr rfl) (newItem_matches _ _ _)
          (len_newItem _ _ _) (ha hf A h.toLayout)
  | insertAndExtend index key count otherKey retHash retOtherHash flags =>
    obtain ⟨⟨h0, hc⟩, hid, B, l1, it, l2, hst, hlen⟩ := hl
    obtain rfl := h.toLayout.unique hst.layout
    obtain ⟨hnear, hsame, hother⟩ := hs _ _ _ _ hst
    obtain ⟨hroom, hroom2⟩ := hr _ _ _ _ hst
    obtain ⟨hread, hread2⟩ := ha _ _ _ _ hst
    by_cases heq : keyToHash qf key flags = keyToHash qf otherKey flags
    · obtain ⟨hcnt, hfits⟩ := hsame heq
      obtain ⟨hm, hend⟩ := hread heq
      obtain ⟨qf', hcall, -, hsw⟩ := h.insertAndExtend_same rfl heq.symm hst hnear hcnt h0
        hfits (hroom heq) retHash retOtherHash
      have hlay := hsw.tidy.toLayout
      rw [List.append_assoc, List.singleton_append] at hlay
      refine ⟨0, qf', by simp [Call.exec, hcall], ⟨_, hsw.tidy⟩, fun hc => absurd hc (by decide),
        fun _ => ⟨?_, l1, it, l2, hst, ?_⟩⟩
      · exact hsw.found rfl (List.mem_singleton.mpr rfl) hm
          (len_counted h.bits_pos (h.counts _ it (by rw [hst.split]; simp))) hend
      · rw [if_pos heq]
        exact ⟨it.withCounter (Nat.digits (2^qf.bits) (it.count qf.bits + count)), rfl, rfl,
          Item.count_withCounter_digits h.bits_pos (by omega) hfits it, hlay⟩
    · obtain ⟨hcnt, hrest⟩ := hother heq
      obtain ⟨ret, qf', hcall, hret, -, hsw⟩ := h.insertAndExtend_other rfl rfl heq hid hst hnear
        hcnt (hlen heq) h0 hc hrest (hroom2 heq) retHash retOtherHash
      have hlay := hsw.tidy.toLayout
      rw [List.append_assoc] at hlay
      refine ⟨ret.ret, qf', by simp [Call.exec, hcall], ⟨_, hsw.tidy⟩, fun hno => ?_,
        fun _ => ⟨?_, l1, it, l2, hst, ?_⟩⟩
      · rw [hno] at hret
        exact absurd hret (by decide)
      · exact hsw.found rfl List.mem_cons_self (extended_fresh_matches h.geometry _)
          (len_pair hcnt) (hread2 heq)
      · rw [if_neg heq]
        exact ⟨_, _, extended_fresh_matches h.geometry _, Item.count_counterOf h.bits_pos h0 hc _,
          .of_digits h.geometry hcnt (hlen heq), hlay⟩
  | adapt index key otherKey retHash flags =>
    obtain ⟨B, l1, it, l2, hst, hlen⟩ := hl
    obtain rfl := h.toLayout.unique hst.layout
    obtain ⟨hnear, hcnt⟩ := hs _ _ _ _ hst
    obtain ⟨r, rh, qf', hcall, hcase⟩ := h.adapt rfl rfl hst hlen hnear hcnt retHash
    refine ⟨r, qf', by simp [Call.exec, hcall], ?_⟩
    rcases hcase with ⟨heq, rfl, rfl⟩ | ⟨hne, done, rest, hgrew⟩
    · refine ⟨⟨A, h⟩, fun hc => absurd hc (by decide), fun _ => ?_⟩
      rw [Call.Done, if_pos heq]
      exact ⟨h.toLayout, rfl⟩
    · have hlay := hgrew.swapped.tidy.toLayout
      rw [List.append_assoc, List.singleton_append] at hlay
      refine ⟨⟨_, hgrew.swapped.tidy⟩, fun hno => ?_, fun hdone => ?_⟩
      · have hrest : rest ≠ [] := by
          rintro rfl
          have hret := hgrew.ret_eq
          rw [hno, if_pos rfl] at hret
          cases hret
        -- there was no empty slot at all
        have hfree := (hr _ _ _ _ hst).resolve_right fun hle => hrest (hgrew.room hle)
        obtain ⟨rfl, hframe⟩ := hgrew.stuck hfree
        have hsame : l1 ++ it.extend [] :: l2 = A (qf.metadata.bucket (keyToHash qf key flags)) :=
          hst.split.symm
        rw [hsame, Function.update_eq_self] at hlay
        exact ⟨hlay, hframe.metadata⟩
      · have hrest : rest = [] := by
          by_contra hrest
          exact hdone (by rw [hgrew.ret_eq, if_neg hrest])
        have hall := hgrew.digits
        rw [hrest, List.append_nil] at hall
        rw [← hall] at hlay
        rw [Call.Done, if_neg hne]
        exact ⟨l1, it, _, l2, hst, .of_digits h.geometry (hcnt hne) (hlen hne), hlay⟩
  | adaptUsingLlTable origKey fpKey minirunRank flags =>
    obtain ⟨hid, B, l1, it, l2, hst, rfl, hlen⟩ := hl
    obtain rfl := h.toLayout.unique hst.layout
    obtain ⟨hnear, hcnt⟩ := hs _ _ _ _ hst rfl
    obtain ⟨qf', hcall, -, hcase⟩ := h.adaptUsingLlTable rfl rfl hid hst hlen hnear hcnt
    refine ⟨1, qf', hcall, ?_, fun hc => absurd hc (by decide), fun _ => trivial⟩
    rcases hcase with rfl | ⟨-, done, hsw⟩
    · exact ⟨A, h⟩
    · exact ⟨_, hsw.tidy⟩
  | remove key out flags =>
    obtain ⟨r, out', qf', hcall, hcase⟩ := h.remove rfl (hs A h.toLayout) out
    refine ⟨r, qf', by simp [Call.exec, hcall], ?_⟩
    rcases hcase with ⟨rfl, rfl⟩ | ⟨l1, it, l2, rfl, -, -, hsw⟩
    · exact ⟨⟨A, h⟩, fun hc => absurd hc (by decide), fun _ => trivial⟩
    · refine ⟨⟨_, hsw.tidy⟩, fun hc => ?_, fun _ => trivial⟩
      have hpos : (0 : Int) ≤ (it.len : Int) := Int.natCast_nonneg _
      rw [hc] at hpos
      exact absurd hpos (by decide)

end

/-- In every run every call does all or nothing, if it has room for all or none for the least. -/
theorem all_or_nothing {qf : QF} (h : qf.Zeroed) (resize : QF → Nat → Option (Int × QF))
    {calls : List Call} (hcalls : Runs.Along
      (fun c qf => c.Legal qf ∧ c.RoomOrNone qf ∧ c.Sound qf ∧ c.Readable qf) (Call.step resize)
        calls qf) :
    Runs.Along (Call.AllOrNothing resize) (Call.step resize) calls qf := by
  have hstep : ∀ (c : Call) (q q' : QF), (∃ A, Tidy q A) →
      (c.Legal q ∧ c.RoomOrNone q ∧ c.Sound q ∧ c.Readable q) →
        c.step resize q = some q' → ∃ A, Tidy q' A := by
    rintro c q q' ⟨A, hA⟩ ⟨hl, hr, hs, ha⟩ hq
    obtain ⟨r, q2, hexec, htidy, -⟩ := hA.call resize c hl hr hs ha
    obtain rfl : q2 = q' := by simpa [Call.step, hexec] using hq
    exact htidy
  refine Runs.along_of_invariant hstep ?_ ⟨_, h.tidy⟩ hcalls
  rintro c q ⟨A, hA⟩ ⟨hl, hr, hs, ha⟩
  obtain ⟨r, q2, hexec, -, hno, hdone⟩ := hA.call resize c hl hr hs ha
  refine ⟨r, q2, hexec, fun B hB => ?_⟩
  obtain rfl := hA.toLayout.unique hB
  exact ⟨hno, hdone⟩

/-! An item in the last bucket, which the next insertion pushes to the last slot. -/

def pushedItems : List (List Item) :=
  List.replicate 7 [] ++ [[⟨0, [], List.replicate 26 0 ++ [1]⟩, ⟨1, [], []⟩]]

def pushedRun : List (Call × List (List Item)) :=
  [(HashCall.insert 29 1, []),
    (HashCall.insert 28 (4^26), List.replicate 7 [] ++ [[⟨1, [], []⟩]]),
    (HashCall.adapt 35 29 61, pushedItems), (HashCall.insert 0 1, pushedItems)]

/-- There is no slot for the extension, and the filter counts as full. -/
theorem all_or_nothing_pushed : Runs.Along (Call.AllOrNothing noResize) (Call.step noResize)
      (pushedRun.map Prod.fst) smallFilter ∧
    ∃ q, Runs.run (Call.step noResize) ((pushedRun.take 2).map Prod.fst) smallFilter = some q ∧
      ((HashCall.adapt 35 29 61).exec noResize q).map Prod.fst = some noSpace ∧
      ((HashCall.insert 0 1).exec noResize q).map Prod.fst = some noSpace := by
  have hok := smallFilter_zeroed.tidy.along_checked (fun c q A h hc => hc.allOrNothing h)
    (show Runs.Along ShowsChecked (fun op => op.1.step noResize) pushedRun smallFilter by
      decide +kernel)
  have hsome : (Runs.run (Call.step noResize) ((pushedRun.take 2).map Prod.fst)
      smallFilter).isSome := by decide +kernel
  have hfacts : ∀ q ∈ Runs.run (Call.step noResize) ((pushedRun.take 2).map Prod.fst) smallFilter,
      ((HashCall.adapt 35 29 61).exec noResize q).map Prod.fst = some noSpace ∧
      ((HashCall.insert 0 1).exec noResize q).map Prod.fst = some noSpace := by decide +kernel
  obtain ⟨q, hq⟩ := Option.isSome_iff_exists.mp hsome
  exact ⟨all_or_nothing smallFilter_zeroed noResize hok, q, hq, hfacts q hq⟩

/-! An extension that would take the item to the end of the hash. It is 30 slots long, and there are
28 behind the item. -/

def lastBucket : Call := HashCall.insert 28 1

def longExtension : Call := HashCall.adapt 7 28 (28 + 2^63)

def lastBucketItems : List (List Item) := List.replicate 7 [] ++ [[⟨0, [], []⟩]]

/-- The extension is reported to have run out of space, and 28 slots of it are in the filter. -/
theorem all_or_nothing_fails : smallFilter.Zeroed ∧
    Runs.Along Call.Legal (Call.step noResize) [lastBucket, longExtension] smallFilter ∧
    ¬ Runs.Along (Call.AllOrNothing noResize) (Call.step noResize) [lastBucket, longExtension]
      smallFilter := by
  have hempty := smallFilter_zeroed.tidy
  have hchecks : lastBucket.Checks Contents.empty smallFilter := by decide +kernel
  obtain ⟨hl, hr, hs⟩ := hchecks.ok hempty.toLayout
  obtain ⟨q, hq, A, hA⟩ := hempty.step noResize lastBucket hl hr hs
  have hfacts : ∀ q ∈ lastBucket.step noResize smallFilter,
      lastBucketItems.length ≤ q.metadata.nslots ∧ (Contents.ofList lastBucketItems).Shown q ∧
      q.metadata.bucket 28 = 7 ∧ q.metadata.remainder 28 = 0 ∧ q.metadata.fingerprintLen 0 < 64 ∧
      ∀ r ∈ longExtension.exec noResize q, r.1 = noSpace ∧
        r.2.metadata.noccupiedSlots ≠ q.metadata.noccupiedSlots := by decide +kernel
  obtain ⟨hlen, hshown, hb, hr, hroom, hexec⟩ := hfacts q hq
  obtain rfl := hA.toLayout.eq_ofList hlen hshown
  have hst : ItemOf q (Contents.ofList lastBucketItems) 28 7 [] ⟨0, [], []⟩ [] := by
    refine ⟨⟨hA.toLayout, ?_, hr.symm⟩, ?_⟩
    · rw [hb]
      rfl
    · rw [hb]
      decide
  refine ⟨smallFilter_zeroed, ⟨hl, fun q2 hq2 => ?_⟩, fun hall => ?_⟩
  · obtain rfl := Option.some.inj (hq.symm.trans hq2)
    exact ⟨⟨_, _, _, _, hst, fun _ => hroom⟩, fun _ _ => trivial⟩
  · obtain ⟨⟨r, qf', hcall, hdone⟩, -⟩ := hall.2 q hq
    obtain ⟨hno, hslots⟩ := hexec _ hcall
    have hsame := ((hdone _ hA.toLayout).1 hno).2
    exact hslots (congrArg QFMetadata.noccupiedSlots hsame)

end AdaptiveQF
