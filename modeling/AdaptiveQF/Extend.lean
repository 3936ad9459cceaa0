import AdaptiveQF.CellPut

/-! insert_and_extend: one more of an item, or a second item that the fingerprint
of the first one matches. -/
namespace AdaptiveQF
open RunLayout

/-- The loop over the counter slots the item already has. It writes from `first + i` on, and returns
what is left of `new_count`. -/
def putCounters (first : Nat) : Nat → QF → Nat → Nat → Option (Nat × QF)
  | 0, qf, _, newCount => some (newCount, qf)
  | n+1, qf, i, newCount => do
    let qf' ← setSlot qf (add64 first i) (newCount &&& bitmask qf.bits)
    putCounters first n qf' (i+1) (shr64 newCount qf.bits)

/-- The loop that inserts new counter slots, from `slot` on. Whether there was space is not
asked. -/
def pushCounters (bucket : Nat) : Nat → QF → Nat → Nat → Option QF
  | 0, _, _, _ => none
  | fuel+1, qf, slot, newCount =>
    if newCount > 0 then do
      let (_, qf') ← insertOneSlot qf bucket slot (newCount &&& bitmask qf.bits)
      pushCounters bucket fuel (orRunend (orExtension qf' slot) slot).countSlot (slot+1)
        (shr64 newCount qf.bits)
    else some qf

/-- The same item again. The counter slots are looked for behind as many slots as the packed
extension `ext` says as a number, not behind the `ext_len` slots it takes. -/
def extendSame (qf : QF) (index hash count : Nat) : Option QF := do
  let info ← getSlotInfo qf index
  let (newCount, qf) ← putCounters (add64 (index+1) info.ext) info.countSlots qf 0
    (add64 info.count count)
  let qf ← pushCounters (hashBucketIndex qf hash) 65 qf (index+1+info.extSlots+info.countSlots)
    newCount
  some (qf.countElts count)

structure ExtendRet where
  ret : Int
  hash : Nat
  otherHash : Nat
deriving DecidableEq

def extendOther (qf : QF) (index hash count otherHash flags : Nat) :
    Option (ExtendRet × QF) := do
  let (extendedLen, retOtherHash, qf) ← adapt qf index (rangeBucket qf hash) otherHash hash
  let (_, qf) ← insertOneSlot qf (hashBucketIndex qf hash) index (hashRemainder qf hash)
  let (_, retHash, qf) ← adapt qf index (rangeBucket qf hash) hash otherHash
  let qf := qf.countItem 1
  let qf ← if count > 1 then extendSame qf index (keyToHash qf hash flags) (count-1) else some qf
  some (⟨extendedLen, retHash, retOtherHash⟩, qf)

/-- `retHash` and `retOtherHash` are what the out-parameters hold before the call. In the recursive
call for `count > 1` the key is the hash, and is hashed again unless `flags` say it is one. -/
def insertAndExtend (qf : QF) (index key count otherKey retHash retOtherHash flags : Nat) :
    Option (ExtendRet × QF) :=
  withLock qf index false flags ⟨couldntLock, retHash, retOtherHash⟩ fun qf =>
    let hash := keyToHash qf key flags
    let otherHash := keyToHash qf otherKey flags
    if minirunId qf hash ≠ minirunId qf otherHash then none
    else if hash = otherHash then do
      let qf ← extendSame qf index hash count
      some (⟨0, retHash, retOtherHash⟩, qf)
    else extendOther qf index hash count otherHash flags

/-! Counters. -/

def Item.withCounter (it : Item) (cnt : List Nat) : Item := ⟨it.rem, it.ext, cnt⟩

theorem Item.cells_withCounter_concat (it : Item) (v : Nat) (last : Bool) :
    (it.withCounter (it.cnt ++ [v])).cells last = it.cells last ++ [Item.cntCell v] := by
  simp [Item.cells, Item.tail, Item.withCounter, Item.baseCell]

theorem Item.Bounded.withCounter {w : Nat} {it : Item} (h : it.Bounded w) {cnt : List Nat}
    (hc : ∀ v ∈ cnt, v < 2^w) : (it.withCounter cnt).Bounded w := ⟨h.rem, h.ext, hc⟩

section
variable {qf : QF} {A : Contents} {b : Nat} {l1 l2 : List Item} {it : Item}

theorem Layout.pushCounter (h : Layout qf A) (hb : A b = l1 ++ it :: l2) {v : Nat}
    (hv : v < 2^qf.bits) (hs : qf.FindsSpace (A.pos b l1 + it.len)) :
    ∃ qf1, insertOneSlot qf b (A.pos b l1 + it.len) v = some (1, qf1) ∧
      qf.countSlot.SameFrame (orRunend (orExtension qf1 (A.pos b l1 + it.len))
        (A.pos b l1 + it.len)).countSlot ∧
      Layout (orRunend (orExtension qf1 (A.pos b l1 + it.len)) (A.pos b l1 + it.len)).countSlot
        (Function.update A b (l1 ++ it.withCounter (it.cnt ++ [v]) :: l2)) := by
  have hne : A b ≠ [] := by simp [hb]
  have hrun : A.runs b = (initCells l1 ++ it.cells l2.isEmpty) ++ runCells l2 := by
    rw [Contents.runs, hb, runCells_split]
  have hnew : runCells (l1 ++ it.withCounter (it.cnt ++ [v]) :: l2) =
      (initCells l1 ++ it.cells l2.isEmpty) ++ Item.cntCell v :: runCells l2 := by
    rw [runCells_split, Item.cells_withCounter_concat]
    simp
  have hpos : A.pos b l1 + it.len =
      start A.lens b + (initCells l1 ++ it.cells l2.isEmpty).length := by
    simp [Contents.pos, Nat.add_assoc]
  have hlen : itemsLen (l1 ++ it.withCounter (it.cnt ++ [v]) :: l2) = A.lens b + 1 := by
    simp only [Contents.lens, hb, itemsLen_append, itemsLen_cons, Item.withCounter, Item.len,
      List.length_append, List.length_cons, List.length_nil]
    omega
  obtain ⟨x, hx⟩ : ∃ x, x = A.pos b l1 + it.len := ⟨_, rfl⟩
  rw [← hx] at hpos hs ⊢
  obtain ⟨qf1, hp⟩ := h.putCell hrun (used_of_pos (Contents.lens_pos.mpr hne)) (h.bucket_lt hb)
    hpos v hs
  obtain ⟨hat, hmod⟩ := hp.modify hpos (Item.cntCell v)
  have hview : (orRunend (orExtension qf1 x) x).view =
      ⟨Function.update qf1.view.cell x (Item.cntCell v), qf1.view.occupied, qf1.view.offset⟩ := by
    rw [view_orRunend, View.setRunend, view_orExtension, View.setExtension]
    simp [hat, Item.cntCell]
  have hf1 : qf1.SameFrame (orRunend (orExtension qf1 x) x) := ⟨rfl, rfl, rfl⟩
  have hbd := h.bounded b it (by simp [hb])
  have hlay : Layout (orRunend (orExtension qf1 x) x)
      (Function.update A b (l1 ++ it.withCounter (it.cnt ++ [v]) :: l2)) := by
    apply hp.finish h hrun (h.bucket_lt hb) hpos hf1 _ _ _ hlen
    · refine h.bounded_replace hb (hbd.withCounter fun u hu => ?_)
      rcases List.mem_append.mp hu with hu | hu
      · exact hbd.cnt u hu
      · rw [List.mem_singleton.mp hu]
        exact hv
    · have hsort := h.sorted b
      have hr : (it.withCounter (it.cnt ++ [v])).rem = it.rem := rfl
      rw [hb] at hsort
      exact sorted_replace hr hsort
    · rw [hview, hnew]
      exact hmod
    · rw [hview, hp.occupied, h.occupied_self hne]
    · rw [hview]
  exact ⟨qf1, hp.done, (hp.frame.trans hf1).countSlot, hlay.setCounts _ _ _⟩

theorem Layout.pushCounters_eq (h : Layout qf A) (hb : A b = l1 ++ it :: l2) {fuel n : Nat}
    (hn : n < 2^fuel) (hs : (Nat.digits (2^qf.bits) n).length ≤ A.free qf (A.pos b l1)) :
    ∃ qf' k, pushCounters b (fuel+1) qf (A.pos b l1 + it.len) n = some qf' ∧
      (QF.countSlot^[k] qf).SameFrame qf' ∧ Layout qf' (Function.update A b
        (l1 ++ it.withCounter (it.cnt ++ Nat.digits (2^qf.bits) n) :: l2)) := by
  induction fuel generalizing qf A it n with
  | zero =>
    have hn0 : n = 0 := by omega
    subst hn0
    refine ⟨qf, 0, rfl, QF.SameFrame.refl qf, ?_⟩
    have hsame : it.withCounter (it.cnt ++ Nat.digits (2^qf.bits) 0) = it := by
      simp [Item.withCounter]
    rw [hsame, ← hb, Function.update_eq_self]
    exact h
  | succ fuel ih =>
    have hw := h.geometry.bits
    have hw2 := h.geometry.slotBits
    by_cases hn0 : n = 0
    · subst hn0
      refine ⟨qf, 0, rfl, QF.SameFrame.refl qf, ?_⟩
      have hsame : it.withCounter (it.cnt ++ Nat.digits (2^qf.bits) 0) = it := by
        simp [Item.withCounter]
      rw [hsame, ← hb, Function.update_eq_self]
      exact h
    · have hpos : n > 0 := by omega
      have hdig : n &&& bitmask qf.bits = n % 2^qf.bits :=
        and_bitmask n (by unfold QF.bits; omega)
      have hshr : shr64 n qf.bits = n / 2^qf.bits := shr64_eq n (by unfold QF.bits; omega)
      have hbase : 1 < 2^qf.bits := Nat.one_lt_two_pow (by unfold QF.bits; omega)
      have hend := (h.pos_add_len_le hb).trans h.fits
      rw [Nat.digits_def' hbase hpos, List.length_cons] at hs
      have hspace : qf.FindsSpace (A.pos b l1 + it.len) := by
        rw [h.findsSpace_iff hend, ← h.free_item hb (Nat.le_refl _)]
        omega
      obtain ⟨qf1, hone, hf1, hlay⟩ := h.pushCounter hb (v := n % 2^qf.bits)
        (Nat.mod_lt _ (Nat.two_pow_pos _)) hspace
      obtain ⟨x, hx⟩ : ∃ x, x = A.pos b l1 + it.len := ⟨_, rfl⟩
      rw [← hx] at hone hf1 hlay ⊢
      obtain ⟨qf2, hqf2⟩ : ∃ q, q = (orRunend (orExtension qf1 x) x).countSlot := ⟨_, rfl⟩
      rw [← hqf2] at hf1 hlay
      obtain ⟨it2, hit2⟩ : ∃ i, i = it.withCounter (it.cnt ++ [n % 2^qf.bits]) := ⟨_, rfl⟩
      rw [← hit2] at hlay
      have hlen : it2.len = it.len + 1 := by
        rw [hit2]
        simp only [Item.withCounter, Item.len, List.length_append, List.length_singleton]
        omega
      have hk2 : qf.Keeps qf2 := (QF.Keeps.setCounts ..).trans (.of_sameFrame hf1)
      have hfree := h.free_replace hb hlay hk2 hlen
      have hbits : qf2.bits = qf.bits :=
        (congrArg QFMetadata.bitsPerSlot hf1.metadata).trans rfl
      have hx2 : Contents.pos (Function.update A b (l1 ++ it2 :: l2)) b l1 + it2.len = x + 1 := by
        rw [Contents.pos_update, hx, hlen]
        omega
      have hlt : n / 2^qf.bits < 2^fuel := by
        have h4 : 2 ≤ 2^qf.bits := Nat.le_self_pow (by unfold QF.bits; omega) 2
        calc n / 2^qf.bits ≤ n / 2 := Nat.div_le_div_left h4 (by omega)
          _ < 2^fuel := by
            rw [Nat.div_lt_iff_lt_mul (by omega), ← pow_succ]
            exact hn
      obtain ⟨qf', k, hrec, hfr, hlay2⟩ := ih hlay (Function.update_self ..) hlt
        (by rw [Contents.pos_update, hbits]; omega)
      rw [hx2] at hrec
      have hdigits : it2.withCounter (it2.cnt ++ Nat.digits (2^qf2.bits) (n / 2^qf.bits)) =
          it.withCounter (it.cnt ++ Nat.digits (2^qf.bits) n) := by
        rw [hbits, Nat.digits_def' hbase hpos, hit2]
        simp [Item.withCounter]
      rw [Function.update_idem, hdigits] at hlay2
      refine ⟨qf', k+1, ?_, ?_, hlay2⟩
      · unfold pushCounters
        rw [if_pos hpos, hdig, hone, hshr]
        simp only [Option.bind_eq_bind, Option.bind_some, ← hqf2]
        exact hrec
      · have hiter : ∀ k, (QF.countSlot^[k] qf.countSlot).SameFrame (QF.countSlot^[k] qf2) := by
          intro k
          induction k with
          | zero => exact hf1
          | succ k ihk =>
            rw [Function.iterate_succ_apply', Function.iterate_succ_apply']
            exact ihk.countSlot
        exact (hiter k).trans hfr

theorem Layout.putCounter (h : Layout qf A) {d1 d2 : List Nat} {c v : Nat}
    (hb : A b = l1 ++ it.withCounter (d1 ++ c :: d2) :: l2) (hv : v < 2^qf.bits) :
    ∃ qf', setSlot qf (A.pos b l1 + 1 + it.ext.length + d1.length) v = some qf' ∧
      qf.Keeps qf' ∧
      Layout qf' (Function.update A b (l1 ++ it.withCounter (d1 ++ v :: d2) :: l2)) := by
  have hlens := Contents.lens_runs A
  have hcells : ∀ u, runCells (l1 ++ it.withCounter (d1 ++ u :: d2) :: l2) =
      (initCells l1 ++ it.baseCell l2.isEmpty :: (it.ext.map Item.extCell ++
        d1.map Item.cntCell)) ++ Item.cntCell u :: (d2.map Item.cntCell ++ runCells l2) := by
    intro u
    simp [runCells_split, Item.cells, Item.tail, Item.withCounter, Item.baseCell]
  have hrun : A.runs b = (initCells l1 ++ it.baseCell l2.isEmpty :: (it.ext.map Item.extCell ++
      d1.map Item.cntCell)) ++ Item.cntCell c :: (d2.map Item.cntCell ++ runCells l2) := by
    rw [Contents.runs, hb]
    exact hcells c
  have hx : A.pos b l1 + 1 + it.ext.length + d1.length = start (RunLayout.lens A.runs) b +
      (initCells l1 ++ it.baseCell l2.isEmpty :: (it.ext.map Item.extCell ++
        d1.map Item.cntCell)).length := by
    rw [hlens, Contents.pos]
    simp
    omega
  have hend := h.pos_add_len_le hb
  have hfit := h.fits
  have hlen : (it.withCounter (d1 ++ c :: d2)).len =
      1 + it.ext.length + (d1.length + (d2.length + 1)) := by
    simp [Item.len, Item.withCounter]
  obtain ⟨x, hxdef⟩ : ∃ x, x = A.pos b l1 + 1 + it.ext.length + d1.length := ⟨_, rfl⟩
  rw [← hxdef] at hx ⊢
  have hat := h.holds.at hrun
  have hmod := h.holds.modify hrun (Item.cntCell v)
  rw [← hx] at hat hmod
  rw [← hcells v] at hmod
  have hset : setSlot qf x v = some (putSlot qf x v) := by
    unfold setSlot
    rw [if_pos (by omega)]
  have hview : (putSlot qf x v).view.cell =
      Function.update qf.view.cell x (Item.cntCell v) := by
    rw [view_putSlot]
    simp [View.setValue, hat, Item.cntCell]
  have hframe : qf.SameFrame (putSlot qf x v) := ⟨rfl, rfl, rfl⟩
  refine ⟨putSlot qf x v, hset, .of_sameFrame hframe, ?_⟩
  have hbd := h.bounded b _ (by rw [hb]; exact List.mem_append_right _ List.mem_cons_self)
  have hs := h.sorted b
  rw [hb] at hs
  apply h.replace_same hframe (by rw [hb]; simp)
  · simp [Contents.lens, hb, Item.len, Item.withCounter]
  · rw [hview]
    exact hmod
  · rw [view_putSlot, View.setValue]
  · rw [view_putSlot, View.setValue]
  · refine h.bounded_replace hb ⟨hbd.rem, hbd.ext, fun u hu => ?_⟩
    rcases List.mem_append.mp hu with hu | hu
    · exact hbd.cnt u (List.mem_append_left _ hu)
    · rcases List.mem_cons.mp hu with rfl | hu
      · exact hv
      · exact hbd.cnt u (List.mem_append_right _ (List.mem_cons_of_mem _ hu))
  · have hr : (it.withCounter (d1 ++ v :: d2)).rem = (it.withCounter (d1 ++ c :: d2)).rem := rfl
    exact sorted_replace hr hs

theorem Layout.putCounters_eq (h : Layout qf A) {d1 d2 : List Nat}
    (hb : A b = l1 ++ it.withCounter (d1 ++ d2) :: l2) (hlt : qf.xnslots < 2^64) (n : Nat) :
    ∃ qf', putCounters (A.pos b l1 + 1 + it.ext.length) d2.length qf d1.length n =
        some (n / 2^(qf.bits * d2.length), qf') ∧ qf.Keeps qf' ∧ Layout qf' (Function.update A b
          (l1 ++ it.withCounter (d1 ++ Digits.low qf.bits d2.length n) :: l2)) := by
  induction d2 generalizing qf A d1 n with
  | nil =>
    refine ⟨qf, by simp [putCounters], .refl qf, ?_⟩
    have hlow : Digits.low qf.bits ([] : List Nat).length n = [] := rfl
    rw [hlow, ← hb, Function.update_eq_self]
    exact h
  | cons c d2 ih =>
    have hw := h.geometry.bits
    have hw2 := h.geometry.slotBits
    have hend := h.pos_add_len_le hb
    have hfit := h.fits
    have hlen : (it.withCounter (d1 ++ c :: d2)).len =
        1 + it.ext.length + (d1.length + (d2.length + 1)) := by
      simp [Item.len, Item.withCounter]
    have hadd : add64 (A.pos b l1 + 1 + it.ext.length) d1.length =
        A.pos b l1 + 1 + it.ext.length + d1.length := Nat.mod_eq_of_lt (by omega)
    have hdig : n &&& bitmask qf.bits = n % 2^qf.bits :=
      and_bitmask n (by unfold QF.bits; omega)
    have hshr : shr64 n qf.bits = n / 2^qf.bits := shr64_eq n (by unfold QF.bits; omega)
    obtain ⟨qf1, hset, hk, hlay⟩ := h.putCounter hb (v := n % 2^qf.bits)
      (Nat.mod_lt _ (Nat.two_pow_pos _))
    have hcat : d1 ++ n % 2^qf.bits :: d2 = (d1 ++ [n % 2^qf.bits]) ++ d2 := by simp
    rw [hcat] at hlay
    obtain ⟨qf2, hrec, hk2, hlay2⟩ := ih hlay (Function.update_self ..)
      (by rw [hk.xnslots]; exact hlt) (n / 2^qf.bits)
    rw [Contents.pos_update, List.length_append, List.length_singleton, hk.bits] at hrec
    rw [Function.update_idem, hk.bits, List.append_assoc, List.singleton_append,
      ← Digits.low_cons] at hlay2
    refine ⟨qf2, ?_, hk.trans hk2, hlay2⟩
    have hp : qf.bits * (d2.length + 1) = qf.bits + qf.bits * d2.length := by ring
    rw [List.length_cons, putCounters, hadd, hdig, hset, hshr, hp, pow_add,
      ← Nat.div_div_eq_div_mul]
    exact hrec

def Item.addCount (w n : Nat) (it : Item) : Item :=
  it.withCounter (Digits.low w it.cnt.length (it.count w + n) ++
    Nat.digits (2^w) ((it.count w + n) / 2^(w * it.cnt.length)))

def Item.newSlots (w n : Nat) (it : Item) : Nat :=
  (Nat.digits (2^w) ((it.count w + n) / 2^(w * it.cnt.length))).length

/-- The index of the counter slots is right if there are none, or the packed extension happens to be
its own number of slots. -/
theorem Layout.putCounters_item (h : Layout qf A) (hb : A b = l1 ++ it :: l2)
    (hc : it.cnt = [] ∨ it.packedExt qf.bits = it.ext.length) (n : Nat) :
    ∃ qf', putCounters (add64 (A.pos b l1 + 1) (it.packedExt qf.bits)) it.cnt.length qf 0 n =
        some (n / 2^(qf.bits * it.cnt.length), qf') ∧ qf.Keeps qf' ∧ Layout qf' (Function.update A b
          (l1 ++ it.withCounter (Digits.low qf.bits it.cnt.length n) :: l2)) := by
  have hword := h.geometry.word
  cases hc with
  | inl hc =>
    refine ⟨qf, by simp [hc, putCounters], .refl qf, ?_⟩
    have hsame : it.withCounter (Digits.low qf.bits it.cnt.length n) = it := by
      cases it with
      | mk r e c =>
        obtain rfl : c = [] := hc
        rfl
    rw [hsame, ← hb, Function.update_eq_self]
    exact h
  | inr hc =>
    have hidx : add64 (A.pos b l1 + 1) (it.packedExt qf.bits) =
        A.pos b l1 + 1 + it.ext.length := by
      have hend := (h.pos_add_len_le hb).trans h.fits
      unfold Item.len QF.xnslots at hend
      rw [hc]
      exact Nat.mod_eq_of_lt (by omega)
    have hb2 : A b = l1 ++ it.withCounter ([] ++ it.cnt) :: l2 := hb
    rw [hidx]
    exact h.putCounters_eq hb2 hword n

theorem Layout.extendSame_eq (h : Layout qf A) (hb : A b = l1 ++ it :: l2)
    (hs : A.pos b l1 + it.len < 2^31) (hc : it.cnt = [] ∨ it.packedExt qf.bits = it.ext.length)
    (hash count : Nat) (hbk : qf.metadata.bucket hash = b)
    (hlt : it.count qf.bits + count < 2^64)
    (hspace : it.newSlots qf.bits count ≤ A.free qf (A.pos b l1)) :
    ∃ qf', extendSame qf (A.pos b l1) hash count = some qf' ∧ qf.Keeps qf' ∧
      Layout qf' (Function.update A b (l1 ++ it.addCount qf.bits count :: l2)) := by
  have hat := h.itemAt hb
  have hinfo := hat.getSlotInfo_eq h.row.blocks
  rw [if_pos hs] at hinfo
  have hcount : add64 (it.count qf.bits) count = it.count qf.bits + count :=
    Nat.mod_eq_of_lt hlt
  obtain ⟨qf1, hput1, hk1, hlay1⟩ := h.putCounters_item hb hc (it.count qf.bits + count)
  obtain ⟨it1, hit1⟩ : ∃ x, x = it.withCounter
    (Digits.low qf.bits it.cnt.length (it.count qf.bits + count)) := ⟨_, rfl⟩
  rw [← hit1] at hlay1
  have hlen1 : it1.len = it.len := by
    rw [hit1]
    simp [Item.len, Item.withCounter]
  have hpos1 : Contents.pos (Function.update A b (l1 ++ it1 :: l2)) b l1 + it1.len =
      A.pos b l1 + 1 + it.ext.length + it.cnt.length := by
    rw [Contents.pos_update, hlen1]
    unfold Item.len
    omega
  have hfree := h.free_replace (k := 0) hb hlay1 hk1 hlen1
  have hdiv : (it.count qf.bits + count) / 2^(qf.bits * it.cnt.length) < 2^64 :=
    (Nat.div_le_self _ _).trans_lt hlt
  unfold Item.newSlots at hspace
  obtain ⟨qf2, k, hpush, hfr, hlay2⟩ := hlay1.pushCounters_eq (Function.update_self ..) hdiv
    (by rw [Contents.pos_update, hk1.bits]; omega)
  rw [hpos1] at hpush
  rw [Function.update_idem, hk1.bits] at hlay2
  have hit2 : it1.withCounter (it1.cnt ++ Nat.digits (2^qf.bits)
      ((it.count qf.bits + count) / 2^(qf.bits * it.cnt.length))) =
        it.addCount qf.bits count := by
    rw [hit1]
    rfl
  rw [hit2] at hlay2
  have hk2 : qf1.Keeps qf2 := ((QF.KeepsTally.countSlots qf1 k).trans (.of_sameFrame hfr)).keeps
  refine ⟨qf2.countElts count, ?_, (hk1.trans hk2).trans (.setCounts _ _ _ _),
    hlay2.setCounts _ _ _⟩
  unfold extendSame
  simp only [hinfo, Item.info, hcount, Option.bind_eq_bind, Option.bind_some, hput1,
    hk1.hashBucketIndex, h.geometry.hashBucketIndex_eq, hbk, hpush]

/-! The second item. -/

theorem extendOther_of_steps (hg : Geometry qf.metadata) {hash other index : Nat} {r1 n r3 : Int}
    {retOther ret : Nat} {qf1 qf2 qf3 : QF} (hbk : qf.metadata.bucket hash = b)
    (h1 : adapt qf index b other hash = some (r1, retOther, qf1)) (k1 : qf.Keeps qf1)
    (h2 : insertOneSlot qf1 b index (qf.metadata.remainder hash) = some (n, qf2))
    (k2 : qf1.Keeps qf2) (h3 : adapt qf2 index b hash other = some (r3, ret, qf3))
    (k3 : qf2.Keeps qf3) (count flags : Nat) :
    extendOther qf index hash count other flags = (if count > 1 then
      extendSame (qf3.countItem 1) index (keyToHash qf hash flags) (count-1)
        else some (qf3.countItem 1)).map fun q => (⟨r1, ret, retOther⟩, q) := by
  have hr : rangeBucket qf hash = b := by rw [hg.rangeBucket_eq, hbk]
  have hr2 : rangeBucket qf2 hash = b := by
    rw [rangeBucket, (k1.trans k2).range, (k1.trans k2).bits]
    exact hr
  have hb1 : hashBucketIndex qf1 hash = b := by
    rw [k1.hashBucketIndex, hg.hashBucketIndex_eq, hbk]
  have hrem : hashRemainder qf1 hash = qf.metadata.remainder hash := by
    rw [k1.hashRemainder, hg.hashRemainder_eq]
  have hkey : keyToHash (qf3.countItem 1) hash flags = keyToHash qf hash flags :=
    (((k1.trans k2).trans k3).trans (.setCounts _ _ _ _)).keyToHash hash flags
  unfold extendOther
  simp only [hr, h1, hb1, hrem, h2, hr2, h3, hkey, Option.bind_eq_bind, Option.bind_some]
  by_cases hc : count > 1
  · rw [if_pos hc, if_pos hc, Option.map_eq_bind]
    rfl
  · rw [if_neg hc, if_neg hc]
    rfl

theorem sorted_duplicate {x : Item} (hr : x.rem = it.rem)
    (h : (l1 ++ it :: l2).Pairwise fun x y => x.rem ≤ y.rem) :
    (l1 ++ x :: it :: l2).Pairwise fun x y => x.rem ≤ y.rem := by
  have hsplit := List.pairwise_append.mp h
  apply sorted_insert h
  · intro y hy
    rw [hr]
    exact hsplit.2.2 y hy it (by simp)
  · intro y hy
    rw [hr]
    rcases List.mem_cons.mp hy with rfl | hy
    · exact Nat.le_refl _
    · exact (List.pairwise_cons.mp hsplit.2.1).1 y hy

def ExtendInserts (qf : QF) (index hash other : Nat) : Prop :=
  ∀ r x qf1, adapt qf index (qf.metadata.bucket hash) other hash = some (r, x, qf1) →
    qf1.FindsSpace index

theorem Layout.extendInserts (h : Layout qf A) (hb : A b = l1 ++ it :: l2)
    (hc : it.cnt.length ≤ 1) (hs : A.pos b l1 + it.len < 2^31) {hash other : Nat}
    (hbk : qf.metadata.bucket hash = b) (hbk2 : qf.metadata.bucket other = b)
    (hr2 : it.rem = qf.metadata.remainder other)
    (hfree : (qf.wantedDigits other hash it.ext.length).length < A.free qf (A.pos b l1)) :
    ExtendInserts qf (A.pos b l1) hash other := by
  obtain ⟨qf1, r1, done, rest, h1, had, -⟩ := h.adapt_eq hb hc hs hbk2 hr2 hash
  intro r x q hq
  rw [hbk] at hq
  obtain ⟨-, -, rfl⟩ := (Prod.mk.injEq ..).mp (Option.some.inj (hq.symm.trans h1))
  have hrest := had.rest_eq_nil h hb hc hfree.le
  have hgrow := had.free_le h hb hc
  have hend := (had.layout.pos_add_len_le (Function.update_self ..)).trans had.layout.fits
  rw [Contents.pos_update] at hend
  rw [had.layout.findsSpace_iff (by omega)]
  rw [had.split, hrest, List.append_nil] at hfree
  omega

structure Paired (qf : QF) (A : Contents) (b : Nat) (l1 : List Item) (it : Item) (l2 : List Item)
    (hash other : Nat) (q : QF) (ret : Int) (d1 r1 d2 r2 : List Nat) : Prop where
  tally : qf.KeepsTally q
  layout : Layout q (Function.update A b (l1 ++
    (Item.fresh (qf.metadata.remainder hash)).extend d1 :: it.extend d2 :: l2))
  old : qf.wantedDigits other hash it.ext.length = d2 ++ r2
  new : qf.wantedDigits hash other 0 = d1 ++ r1
  ret_eq : ret = if r2 = [] then
    ((qf.bits * it.ext.length + qf.qbits + qf.bits + qf.bits * d2.length : Nat) : Int) else noSpace
  room : (d2 ++ r2).length + 1 + (d1 ++ r1).length ≤ A.free qf (A.pos b l1) → r1 = [] ∧ r2 = []

theorem Layout.extendOther_eq (h : Layout qf A) (hb : A b = l1 ++ it :: l2)
    (hc : it.cnt.length ≤ 1) (hs : A.pos b l1 + it.len < 2^31) {hash other : Nat}
    (hbk : qf.metadata.bucket hash = b) (hbk2 : qf.metadata.bucket other = b)
    (hr : it.rem = qf.metadata.remainder hash) (hr2 : it.rem = qf.metadata.remainder other)
    (hspace : ExtendInserts qf (A.pos b l1) hash other) :
    ∃ q ret rh roh d1 r1 d2 r2, (∀ count flags, extendOther qf (A.pos b l1) hash count other flags =
        (if count > 1 then
          extendSame (q.countItem 1) (A.pos b l1) (keyToHash qf hash flags) (count-1)
        else some (q.countItem 1)).map fun q => (⟨ret, rh, roh⟩, q)) ∧
      Paired qf A b l1 it l2 hash other q ret d1 r1 d2 r2 := by
  obtain ⟨qf1, ret1, d2, rest, h1, had1, hret⟩ := h.adapt_eq hb hc hs hbk2 hr2 hash
  have k1 := had1.keeps
  have hspace1 := hspace _ _ _ (by rw [hbk]; exact h1)
  have hrem : (it.extend d2).rem = qf.metadata.remainder hash := (it.extend_rem d2).trans hr
  have hb1 : Function.update A b (l1 ++ it.extend d2 :: l2) b = l1 ++ it.extend d2 :: l2 :=
    Function.update_self ..
  have hsort := had1.layout.sorted_append hb1
  obtain ⟨qf2, h2, hf2, hlay2⟩ := had1.layout.insertBetween hb1 (qf.metadata.remainder hash)
    (by rw [k1.bits]; exact Geometry.remainder_lt qf hash)
    (by rw [Contents.pos_update]; exact hspace1) (sorted_duplicate hrem.symm hsort)
  rw [Contents.pos_update] at h2
  rw [Function.update_idem] at hlay2
  have k2 : qf1.Keeps qf2 := .of_sameFrame hf2
  have k12 := k1.trans k2
  obtain ⟨qf3, ret3, d1, rest3, h3, had3, _⟩ := hlay2.adapt_eq (Function.update_self ..)
    (by simp [Item.fresh]) (by rw [Contents.pos_update, Item.len_fresh]; have := it.len_pos; omega)
    (by rw [k12.bucket]; exact hbk) (by rw [k12.remainder]; rfl) other
  rw [Contents.pos_update] at h3
  have hlay3 := had3.layout
  rw [Function.update_idem] at hlay3
  have k3 := had3.keeps
  refine ⟨qf3, ret1, _, _, d1, rest3, d2, rest,
    extendOther_of_steps h.geometry hbk h1 k1 h2 k2 h3 k3, ?_, hlay3, had1.split, ?_, hret, ?_⟩
  · exact (had1.tally.trans (.of_sameFrame hf2)).trans had3.tally
  · have hsplit := had3.split
    rw [k12.wantedDigits] at hsplit
    exact hsplit
  · intro hfree
    have hgrow := had1.free_le h hb hc
    have hend := (had1.layout.pos_add_len_le hb1).trans had1.layout.fits
    have hone := had1.layout.free_insert (x := Item.fresh (qf.metadata.remainder hash)) hb1
      (had1.layout.bucket_lt hb1) (by omega) k2.xnslots (by rw [Function.update_idem]; exact hlay2)
    have hrest := had1.rest_eq_nil h hb hc (by rw [had1.split]; omega)
    refine ⟨had3.rest_eq_nil hlay2 (Function.update_self ..) (by simp [Item.fresh]) ?_, hrest⟩
    rw [had3.split, Contents.pos_update]
    rw [Contents.pos_update, Function.update_idem, Item.len_fresh] at hone
    rw [hrest, List.append_nil] at hfree
    omega

theorem Paired.wf {hash other : Nat} {q : QF} {ret : Int} {d1 r1 d2 r2 : List Nat}
    (hp : Paired qf A b l1 it l2 hash other q ret d1 r1 d2 r2) (h : WF qf A)
    (hb : A b = l1 ++ it :: l2) (hroom : qf.metadata.fingerprintLen it.ext.length < 64) :
    WF q (Function.update A b (l1 ++
      (Item.fresh (qf.metadata.remainder hash)).extend d1 :: it.extend d2 :: l2)) := by
  have hold := h.geometry.wantedDigits_spec other hash hroom
  have hnew := h.geometry.wantedDigits_spec hash other h.geometry.room
  rw [hp.old] at hold
  rw [hp.new] at hnew
  refine h.replace hp.tally.keeps hp.layout fun x hx => ?_
  simp only [List.mem_append, List.mem_cons] at hx
  rcases hx with hx | rfl | rfl | hx
  · exact h.fingerprint b x (by simp [hb, hx])
  · rw [Item.Fits, Item.extend_ext, List.length_append]
    exact hnew.fits_left
  · rw [Item.Fits, Item.extend_ext, List.length_append]
    exact hold.fits_left
  · exact h.fingerprint b x (by simp [hb, hx])

end

/-! The lengths agree. -/

section
variable {m : QFMetadata} {h g n : Nat} {ds : List Nat}

/-- Both items of a pair grow to the first digit in which their hashes differ. -/
theorem Digging.length_eq {k : Nat} {es : List Nat} (hd : Digging m h g n ds)
    (he : Digging m g h k es) (hn : m.extension h n = m.extension g n)
    (hk : m.extension h k = m.extension g k) : n + ds.length = k + es.length := by
  have hp1 := hd.pos
  have hp2 := he.pos
  have hf1 := hd.fits
  have hf2 := he.fits
  rcases Nat.lt_trichotomy (n + ds.length) (k + es.length) with hlt | heq | hlt
  · have hmul := Nat.mul_le_mul_left m.bitsPerSlot (by omega : n + ds.length + 1 ≤ k + es.length)
    rcases hd.last with hl | hl
    · refine absurd ?_ hl
      by_cases hj : n + ds.length - 1 < k
      · exact QFMetadata.digit_of_extension hk hj
      · exact (he.same _ (by omega) (by omega)).symm
    · rw [Nat.mul_add, Nat.mul_one] at hmul
      omega
  · exact heq
  · have hmul := Nat.mul_le_mul_left m.bitsPerSlot (by omega : k + es.length + 1 ≤ n + ds.length)
    rcases he.last with hl | hl
    · refine absurd ?_ hl
      by_cases hj : k + es.length - 1 < n
      · exact (QFMetadata.digit_of_extension hn hj).symm
      · exact (hd.same _ (by omega) (by omega)).symm
    · rw [Nat.mul_add, Nat.mul_one] at hmul
      omega

end

end AdaptiveQF
