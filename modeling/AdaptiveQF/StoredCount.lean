import AdaptiveQF.Canonical
import AdaptiveQF.Calls
import AdaptiveQF.Frame

/-! The count of a new item. It is added at the home slot of an empty bucket, also where the item is
not there. -/
namespace AdaptiveQF
open RunLayout

def StoredPlain (qf : QF) (A : Contents) (hash count : Nat) (qf' : QF) : Prop :=
  ∃ l1 it l2, A (qf.metadata.bucket hash) = l1 ++ l2 ∧ it.rem = qf.metadata.remainder hash ∧
    it.ext = [] ∧ it.count qf.bits = count ∧
    Layout qf' (Function.update A (qf.metadata.bucket hash) (l1 ++ it :: l2))

def HomeTaken (A : Contents) (b : Nat) : Prop := A b = [] ∧ Used A.lens b

/-! What a count changes at any slot. -/

section
variable {qf qf' : QF}

/-- The counter slots that are there get new values only. -/
theorem putCounters_extension {first n i newCount left : Nat}
    (h : putCounters first n qf i newCount = some (left, qf')) (s : Nat) :
    extensionBit qf' s = extensionBit qf s := by
  induction n generalizing qf i newCount with
  | zero =>
    cases h
    rfl
  | succ n ih =>
    simp only [putCounters, Option.bind_eq_bind, Option.bind_eq_some_iff] at h
    obtain ⟨q1, h1, h⟩ := h
    rw [ih h]
    unfold setSlot at h1
    split at h1
    · cases h1
      have hview : (putSlot qf (add64 first i) (newCount &&& bitmask qf.bits)).view.cell s =
          (qf.view.setValue (add64 first i) (newCount &&& bitmask qf.bits)).cell s := by
        rw [view_putSlot]
      refine (congrArg Cell.extension hview).trans ?_
      simp only [View.setValue]
      by_cases hs : s = add64 first i
      · rw [hs, Function.update_self]
        rfl
      · rw [Function.update_of_ne hs]
        rfl
    · cases h1

theorem pushCounters_below {bucket fuel slot newCount s : Nat} (hword : qf.xnslots < 2^64)
    (h : pushCounters bucket fuel qf slot newCount = some qf') (hs : s < slot) :
    qf'.view.cell s = qf.view.cell s := by
  induction fuel generalizing qf slot newCount with
  | zero => cases h
  | succ fuel ih =>
    unfold pushCounters at h
    split at h
    · simp only [Option.bind_eq_bind, Option.bind_eq_some_iff, Prod.exists] at h
      obtain ⟨_, q1, h1, h⟩ := h
      have hx1 : q1.xnslots = qf.xnslots :=
        congrArg QFMetadata.xnslots (insertOneSlot_frame h1).metadata
      have hx : (orRunend (orExtension q1 slot) slot).countSlot.xnslots = qf.xnslots := hx1
      rw [ih (by rw [hx]; exact hword) h (by omega), QF.view_countSlot, view_orRunend,
        view_orExtension, ← insertOneSlot_below hword h1 hs]
      have hne : s ≠ slot := by omega
      simp [View.setRunend, View.setExtension, hne]
    · cases h
      rfl

theorem pushCounters_first {bucket fuel slot newCount : Nat} (hword : qf.xnslots < 2^64)
    (hn : 0 < newCount) (h : pushCounters bucket fuel qf slot newCount = some qf') :
    extensionBit qf' slot = true := by
  cases fuel with
  | zero => cases h
  | succ fuel =>
    unfold pushCounters at h
    rw [if_pos hn] at h
    simp only [Option.bind_eq_bind, Option.bind_eq_some_iff, Prod.exists] at h
    obtain ⟨_, q1, h1, h⟩ := h
    have hx1 : q1.xnslots = qf.xnslots :=
      congrArg QFMetadata.xnslots (insertOneSlot_frame h1).metadata
    have hx : (orRunend (orExtension q1 slot) slot).countSlot.xnslots = qf.xnslots := hx1
    have hbelow := pushCounters_below (by rw [hx]; exact hword) h (Nat.lt_succ_self slot)
    have hext : extensionBit qf' slot = (qf'.view.cell slot).extension := rfl
    rw [hext, hbelow, QF.view_countSlot, view_orRunend, view_orExtension]
    simp [View.setRunend, View.setExtension]

/-- A count that is added either makes the slot behind an item a counter slot, or no slot at all. -/
theorem extendSame_extension {index hash count : Nat} {info : SlotInfo}
    (hword : qf.xnslots < 2^64) (hinfo : getSlotInfo qf index = some info)
    (h : extendSame qf index hash count = some qf') :
    extensionBit qf' (index + 1 + info.extSlots + info.countSlots) = true ∨
      ∀ s, extensionBit qf' s = extensionBit qf s := by
  simp only [extendSame, hinfo, Option.bind_eq_bind, Option.bind_some, Option.bind_eq_some_iff,
    Prod.exists, Option.some.injEq] at h
  obtain ⟨left, q1, h1, q2, h2, rfl⟩ := h
  have hx : q1.xnslots = qf.xnslots := congrArg QFMetadata.xnslots (putCounters_frame h1).metadata
  by_cases hleft : 0 < left
  · have hfirst := pushCounters_first (by rw [hx]; exact hword) hleft h2
    exact .inl hfirst
  · right
    intro s
    unfold pushCounters at h2
    rw [if_neg hleft] at h2
    cases h2
    have hsame := putCounters_extension h1 s
    exact hsame

end

section
variable {qf qf' : QF} {A : Contents} {b hash count flags : Nat} {l1 l2 : List Item} {it : Item}

/-! An empty bucket with a taken home slot. -/

/-- The count does not get to the new item: with it slot `start A.lens b + 1` would be an
extension. -/
theorem count_misplaced {q1 q2 : QF} (hb : A b = []) (hu : Used A.lens b)
    {rem : Nat} (h1 : Layout q1 (Function.update A b [Item.fresh rem])) {n : Nat}
    (hcall : extendSame q1 b hash n = some q2) (hlen : 2 ≤ it.len) :
    ¬ Layout q2 (Function.update A b [it]) := by
  intro h2
  obtain ⟨a, ha1, ha2⟩ := hu
  have hab : a < b := by
    have hle := (show Owns A.lens a b from ⟨ha1, ha2⟩).bucket_le
    refine lt_of_le_of_ne hle ?_
    rintro rfl
    simp [Contents.lens, hb] at ha2
    omega
  have hlens : A.lens a = itemsLen (A a) := rfl
  obtain ⟨k1, x, k2, hx, hk1, hk2⟩ :=
    exists_item_of_lt (l := A a) (s := b - start A.lens a) (by omega)
  have hne : a ≠ b := by omega
  have hat1 := h1.itemAt ((Function.update_of_ne hne ..).trans hx)
  have hat2 := h2.itemAt ((Function.update_of_ne hne ..).trans hx)
  rw [Contents.pos_update_of_lt A hab] at hat1 hat2
  have hone : ∀ y : Item, Function.update A b [y] b = [] ++ y :: [] :=
    fun y => Function.update_self ..
  have hnew1 := h1.itemAt (hone _)
  have hnew2 := h2.itemAt (hone _)
  rw [Contents.pos_update] at hnew1 hnew2
  have hpos : A.pos a k1 = start A.lens a + itemsLen k1 := rfl
  -- the source reads the item at the home slot
  obtain ⟨info, hinfo, -⟩ := Option.bind_eq_some_iff.mp hcall
  have hbase : extensionBit q1 b = false := by
    by_contra hc
    rw [Bool.not_eq_false] at hc
    rw [getSlotInfo, isExtensionOrCounter, if_pos hc] at hinfo
    cases hinfo
  have hhome : b = A.pos a k1 := by
    by_contra hne
    have hext := hat1.extension_of_lt (s := b) (by omega) (by omega)
    rw [hbase] at hext
    cases hext
  rw [hhome, hat1.getSlotInfo_eq h1.row.blocks] at hinfo
  split at hinfo
  · cases hinfo
    have hread := hat1.getSlotInfo_eq h1.row.blocks
    rw [if_pos ‹_›, ← hhome] at hread
    rcases extendSame_extension h1.geometry.word hread hcall with hext | hsame
    · have hstop : extensionBit q2 (A.pos a k1 + x.len) = false := hat2.stop
      rw [show b + 1 + (x.info q1.bits).extSlots + (x.info q1.bits).countSlots =
        A.pos a k1 + x.len by simp only [Item.info, Item.len]; omega, hstop] at hext
      cases hext
    · have hstop : extensionBit q1 (A.pos b [] + 1) = false := hnew1.stop
      have hext := hnew2.extension_of_lt (s := A.pos b [] + 1) (by omega) (by omega)
      rw [hsame, hstop] at hext
      cases hext
  · cases hinfo

theorem two_le_len {w : Nat} (hcount : 2 ≤ it.count w) : 2 ≤ it.len := by
  have hcnt : it.cnt ≠ [] := by
    intro hc
    rw [Item.count, if_pos hc] at hcount
    omega
  have := List.length_pos_iff.mpr hcnt
  unfold Item.len
  omega

/-! A call that returns has decoded what it had to. -/

/-- The scan of `insert` fails where it cannot decode an item of the remainder. -/
theorem Layout.insertScan_near (h : Layout qf A) (hb : A b = l1 ++ l2) {fuel : Nat}
    {last : Option SlotInfo} {p : Placement}
    (hscan : insertScan qf hash false fuel (A.pos b l1) last = some p) :
    CodeNearIn qf hash (A.pos b l1) l2 := by
  induction l2 generalizing l1 fuel last with
  | nil =>
    intro k1 x k2 hs
    simp at hs
  | cons it l2 ih =>
    intro k1 x k2 hs hr hk
    cases fuel with
    | zero => cases hscan
    | succ fuel =>
      have hat := h.itemAt hb
      have hcat : A b = (l1 ++ [it]) ++ l2 := by simp [hb]
      have hrem : hashRemainder qf hash = qf.metadata.remainder hash :=
        h.geometry.hashRemainder_eq hash
      have hlen : A.pos b l1 + (it.cnt.length + it.ext.length + 1) = A.pos b l1 + it.len := by
        unfold Item.len
        omega
      unfold insertScan at hscan
      simp only [hat.getSlot_eq, Option.bind_eq_bind, Option.bind_some, hat.isRunend_eq,
        hat.skip h.row.blocks, hrem, hat.getSlotInfo_eq h.row.blocks, Bool.false_eq_true,
        if_false] at hscan
      cases k1 with
      | nil =>
        simp only [List.nil_append, List.cons.injEq] at hs
        obtain ⟨rfl, rfl⟩ := hs
        rw [if_neg (by omega), if_pos hr] at hscan
        rw [itemsLen_nil, Nat.add_zero]
        by_contra hfar
        rw [if_neg hfar] at hscan
        cases hscan
      | cons y k1 =>
        simp only [List.cons_append, List.cons.injEq] at hs
        obtain ⟨rfl, hs⟩ := hs
        have hne : l2 ≠ [] := by simp [hs]
        have hno := hk it List.mem_cons_self
        have hle : it.rem ≤ x.rem :=
          (List.pairwise_cons.mp (List.pairwise_append.mp (h.sorted_append hb)).2.1).1 x
            (by simp [hs])
        have hnext : ∃ last,
          insertScan qf hash false fuel (A.pos b (l1 ++ [it])) last = some p := by
          rw [A.pos_append]
          rw [if_neg (by omega)] at hscan
          by_cases heq : it.rem = qf.metadata.remainder hash
          · rw [if_pos heq] at hscan
            split at hscan
            · simp only [Option.bind_some, Item.info, hlen] at hscan
              rw [if_neg fun hm => hno ⟨heq, hm⟩, if_neg (by simpa using hne),
                if_pos (h.next_lt hb hne)] at hscan
              exact ⟨_, hscan⟩
            · cases hscan
          · rw [if_neg heq, if_neg (by simpa using hne), if_pos (h.next_lt hb hne)] at hscan
            exact ⟨_, hscan⟩
        obtain ⟨last', hscan'⟩ := hnext
        have hrest := ih hcat hscan' k1 x k2 hs hr fun z hz => hk z (List.mem_cons_of_mem _ hz)
        rw [A.pos_append] at hrest
        rw [itemsLen_cons]
        omega

theorem Layout.locateInsert_near (h : Layout qf A) {p : Placement}
    (hp : locateInsert qf hash flags = some p) (hf : hasFlag flags QF_TRY_ONCE_LOCK = false) :
    CodeNear qf A hash := by
  unfold locateInsert at hp
  rw [h.geometry.insertBucket_eq] at hp
  by_cases hb : A (qf.metadata.bucket hash) = []
  · intro k1 x k2 hs
    rw [hb] at hs
    simp at hs
  · rw [h.locate_used (used_of_pos (Contents.lens_pos.mpr hb)), if_neg hb, hf] at hp
    exact h.insertScan_near (List.nil_append _).symm hp

theorem Layout.free_run (h : Layout qf A) (hlt : b < qf.metadata.nslots) (hb : A b = l1 ++ l2) :
    A.free qf (A.pos b l1) = A.free qf (start A.lens b) := by
  have hrun := h.run_le hlt
  have hlen : A.lens b = itemsLen l1 + itemsLen l2 := by simp [Contents.lens, hb]
  refine (free_eq_of_used (by unfold Contents.pos; omega) (by unfold Contents.pos; omega)
    fun s h1 h2 => ⟨b, h1, ?_⟩).symm
  unfold Contents.pos at h2
  omega

theorem Places.stores_iff {p : Placement} (hp : Places qf A hash l1 l2 p) (h : Layout qf A)
    (h2 : 2 ≤ count) (hc : count < 2^64)
    (hroom : (counterOf qf.bits count).length <
      A.free qf (start A.lens (qf.metadata.bucket hash))) {n : Nat} {q1 q2 : QF}
    (hput : putItem qf (insertBucket qf hash) (hashRemainder qf hash) n p = some q1)
    (hext : extendSame q1 (countIndex (insertBucket qf hash) p) hash (count-1) = some q2) :
    StoredPlain qf A hash count q2 ↔ ¬ HomeTaken A (qf.metadata.bucket hash) := by
  have hlt := h.geometry.bucket_lt hash
  have hsplit := hp.placed.split
  have hspace := hroom
  rw [← h.free_run hlt hsplit] at hspace
  have hend : A.pos (qf.metadata.bucket hash) l1 ≤ qf.xnslots := by
    have hrun := h.run_le hlt
    have hlen : A.lens (qf.metadata.bucket hash) = itemsLen l1 + itemsLen l2 := by
      simp [Contents.lens, hsplit]
    unfold Contents.pos
    omega
  obtain ⟨q, hq, -, hins⟩ := hp.put h n fun x hx => by
    rw [hp.placed.probe_eq hx, h.findsSpace_iff hend]
    omega
  obtain rfl := Option.some.inj (hq.symm.trans hput)
  by_cases hfirst : ∃ i, p = .first i
  · obtain ⟨i, rfl⟩ := hfirst
    obtain ⟨hu, hb⟩ := hp.placed.of_first
    refine iff_of_false ?_ (not_not.mpr ⟨hb, hu⟩)
    rintro ⟨k1, it, k2, hk, -, -, hcount, hlay⟩
    rw [hb] at hk hsplit
    obtain ⟨rfl, rfl⟩ := List.append_eq_nil_iff.mp hk.symm
    obtain ⟨rfl, rfl⟩ := List.append_eq_nil_iff.mp hsplit.symm
    have hindex : countIndex (insertBucket qf hash) (.first i) = insertBucket qf hash := rfl
    rw [hindex, h.geometry.insertBucket_eq] at hext
    exact count_misplaced hb hu hins.layout hext (two_le_len (by rw [hcount]; exact h2)) hlay
  · have hnot : ∀ i, p ≠ .first i := fun i hi => hfirst ⟨i, hi⟩
    refine iff_of_true ?_ fun htaken => ?_
    · have hlow : A.pos (qf.metadata.bucket hash) l1 + 1 < 2^31 := by
        by_contra hfar
        have hat := hins.layout.itemAt (Function.update_self ..)
        have hinfo := hat.getSlotInfo_eq hins.layout.row.blocks
        rw [Contents.pos_update, Item.len_fresh, if_neg hfar] at hinfo
        rw [h.geometry.insertBucket_eq, hp.placed.countIndex_eq hnot, extendSame, hinfo] at hext
        cases hext
      obtain ⟨q1, q3, hput', hext', -, hlay⟩ := hp.putCount h n (by omega) hc hspace
        fun _ => ⟨hnot, hlow⟩
      obtain rfl := Option.some.inj (hq.symm.trans hput')
      rw [if_pos (by omega), hext] at hext'
      obtain rfl := Option.some.inj hext'
      have hw := h.geometry.bits
      exact ⟨l1, _, l2, hsplit, rfl, rfl,
        Item.count_counterOf (by unfold QF.bits; omega) (by omega) hc _, hlay⟩
    · have hplaced := hp.placed
      cases hplaced with
      | home hu => exact hu htaken.2
      | first hu hb => exact hnot _ rfl
      | between hb =>
        rw [htaken.1] at hb
        simp at hb
      | behind hb =>
        rw [htaken.1] at hb
        simp at hb

theorem Layout.insertWork_stores_iff (h : Layout qf A) (h2 : 2 ≤ count) (hc : count < 2^64)
    (hroom : (counterOf qf.bits count).length <
      A.free qf (start A.lens (qf.metadata.bucket hash))) {out out' : InsertOut}
    (hw : insertWork hash count out flags qf = some ((1, out'), qf')) :
    StoredPlain qf A hash count qf' ↔ ¬ HomeTaken A (qf.metadata.bucket hash) := by
  simp only [insertWork, Option.bind_eq_bind, Option.bind_eq_some_iff] at hw
  obtain ⟨p, hp, q1, hput, hw⟩ := hw
  obtain ⟨p', hp', hcase⟩ := h.locateInsert_eq flags (h.locateInsert_near hp)
  obtain rfl := Option.some.inj (hp.symm.trans hp')
  rcases hcase with ⟨l1, it, l2, -, -, -, rfl⟩ | ⟨l1, l2, hpl, -⟩
  · cases hw
  · have hmany : count > 1 := by omega
    have hplaced := hpl.placed
    cases hplaced <;>
    · simp only [if_pos hmany, Option.bind_eq_some_iff] at hw
      obtain ⟨q2, hext, hw⟩ := hw
      cases hw
      exact hpl.stores_iff h h2 hc hroom hput hext

theorem Layout.insertUsingLlTableWork_stores_iff {result result' : InsertResult} (h : Layout qf A)
    (h2 : 2 ≤ count) (hc : count < 2^64) (hroom : (counterOf qf.bits count).length <
      A.free qf (start A.lens (qf.metadata.bucket result.hash)))
    (hw : insertUsingLlTableWork result count qf = some ((0, result'), qf')) :
    StoredPlain qf A result.hash count qf' ↔ ¬ HomeTaken A (qf.metadata.bucket result.hash) := by
  simp only [insertUsingLlTableWork, Option.bind_eq_bind, Option.bind_eq_some_iff,
    Prod.exists] at hw
  obtain ⟨p, hp, rank, existed, -, q1, hput, hw⟩ := hw
  obtain ⟨l1, l2, p', hp', hpl, -⟩ := h.locateLl_eq result.hash
  obtain rfl := Option.some.inj (hp.symm.trans hp')
  have hhash : (if existed then { result with minirunRank := rank, minirunExisted := true }
      else result).hash = result.hash := by
    cases existed <;> rfl
  rw [hhash] at hput hw
  have hmany : count > 1 := by omega
  have hplaced := hpl.placed
  cases hplaced <;>
  · simp only [if_pos hmany, Option.bind_eq_some_iff] at hw
    obtain ⟨q2, hext, hw⟩ := hw
    cases hw
    exact hpl.stores_iff h h2 hc hroom hput hext

end

/-! The calls. -/

section
variable {qf : QF} {A : Contents} {hash key count flags : Nat}

/-- A call that reports a new item with a count has stored it, or its bucket was empty with the home
slot taken. -/
theorem insert_stores_count_iff (h : WF qf A) (hi : qf.Idle) (hk : keyToHash qf key flags = hash)
    (h2 : 2 ≤ count) (hc : count < 2^64)
    (hroom : (counterOf qf.bits count).length <
      A.free qf (start A.lens (qf.metadata.bucket hash)))
    (resize : QF → Nat → Option (Int × QF)) :
    (∀ out out' qf', qfInsertRet resize qf key count out flags = some ((1, out'), qf') →
      (StoredPlain qf A hash count qf' ↔ ¬ HomeTaken A (qf.metadata.bucket hash))) ∧
    ∀ result result' qf',
      qfInsertUsingLlTable resize qf key count result flags = some ((0, result'), qf') →
        (StoredPlain qf A hash count qf' ↔ ¬ HomeTaken A (qf.metadata.bucket hash)) := by
  have hcheck := checkLoad_idle hi resize
  have hne : count ≠ 0 := by omega
  constructor
  · intro out out' qf' hcall
    simp only [qfInsertRet, hcheck, Option.bind_eq_bind, Option.bind_some, if_neg hne, hk] at hcall
    split at hcall
    · cases hcall
    · rw [insert, withLock_idle hi _ _ _ _ fun _ _ hw => (insertWork_keeps hw).locks] at hcall
      exact h.insertWork_stores_iff h2 hc hroom hcall
  · intro result result' qf' hcall
    simp only [qfInsertUsingLlTable, hcheck, Option.bind_eq_bind, Option.bind_some, if_neg hne,
      hk] at hcall
    split at hcall
    · cases hcall
    · rw [insertUsingLlTable,
        withLock_idle hi _ _ _ _ fun _ _ hw => (insertUsingLlTableWork_keeps hw).locks] at hcall
      exact h.insertUsingLlTableWork_stores_iff h2 hc hroom hcall

end

/-! 8 slots: two items of bucket 0, one of them in the home slot of bucket 1. -/

def takenHome : QF := QF.ofContents (QFMetadata.init 3 2 36) (crowdContents 0 2)

theorem takenHome_wf : WF takenHome (crowdContents 0 2) :=
  (crowdContents_fits (by decide) (by decide) (by decide) (by decide) (by decide)).wf
    (Geometry.init (by decide) (by decide) (by decide) (by decide) (by decide))

theorem takenHome_free : 1 < (crowdContents 0 2).free takenHome
    (start (crowdContents 0 2).lens (takenHome.metadata.bucket 8)) := by
  have hstart : start (crowdContents 0 2).lens (takenHome.metadata.bucket 8) = 2 := by
    rw [lens_crowdContents]
    decide
  have hsum : ∑ c ∈ Finset.range takenHome.xnslots, (crowdContents 0 2).lens c = 2 := by
    rw [lens_crowdContents]
    decide
  have hxn : takenHome.xnslots = 36 := rfl
  have hle := takenHome_wf.le_free (show 2 ≤ takenHome.xnslots by decide)
  rw [hsum, hxn] at hle
  rw [hstart]
  omega

theorem insert_stores_count_iff_free :
    (∀ out out' qf', qfInsertRet noResize takenHome 8 3 out QF_KEY_IS_HASH =
        some ((1, out'), qf') → (StoredPlain takenHome (crowdContents 0 2) 8 3 qf' ↔
          ¬ HomeTaken (crowdContents 0 2) (takenHome.metadata.bucket 8))) ∧
    ∀ result result' qf', qfInsertUsingLlTable noResize takenHome 8 3 result QF_KEY_IS_HASH =
        some ((0, result'), qf') → (StoredPlain takenHome (crowdContents 0 2) 8 3 qf' ↔
          ¬ HomeTaken (crowdContents 0 2) (takenHome.metadata.bucket 8)) :=
  insert_stores_count_iff takenHome_wf ⟨rfl, rfl⟩
    (show keyToHash takenHome 8 QF_KEY_IS_HASH = 8 from rfl) (by decide) (by decide)
    (by rw [show (counterOf takenHome.bits 3).length = 1 by decide]; exact takenHome_free) noResize

/-- The count 3 for hash 4 goes to hash 1, whose item is in the home slot. -/
theorem insert_count_goes_home : WF takenHome (crowdContents 0 2) ∧ takenHome.Idle ∧
    ∃ out' qf', qfInsertRet noResize takenHome 4 3 ⟨0, 0, 0⟩ QF_KEY_IS_HASH =
        some ((1, out'), qf') ∧
      (∃ hit, qfQuery qf' 4 QF_KEY_IS_HASH = some (1, hit)) ∧
      (∃ hit, qfQuery qf' 1 QF_KEY_IS_HASH = some (3, hit)) ∧
      ¬ StoredPlain takenHome (crowdContents 0 2) 4 3 qf' := by
  obtain ⟨⟨⟨ret, out'⟩, qf'⟩, hcall⟩ : ∃ r, qfInsertRet noResize takenHome 4 3 ⟨0, 0, 0⟩
      QF_KEY_IS_HASH = some r := Option.isSome_iff_exists.mp (by decide +kernel)
  have hall : ∀ r ∈ qfInsertRet noResize takenHome 4 3 ⟨0, 0, 0⟩ QF_KEY_IS_HASH,
      r.1.1 = 1 ∧ (qfQuery r.2 4 QF_KEY_IS_HASH).map (·.1) = some 1 ∧
        (qfQuery r.2 1 QF_KEY_IS_HASH).map (·.1) = some 3 ∧
          extensionBit r.2 2 = true := by decide +kernel
  obtain ⟨hret, h4, h1, hext⟩ := hall _ hcall
  obtain rfl : ret = 1 := hret
  obtain ⟨⟨_, hit4⟩, hq4, rfl⟩ := Option.map_eq_some_iff.mp h4
  obtain ⟨⟨_, hit1⟩, hq1, rfl⟩ := Option.map_eq_some_iff.mp h1
  refine ⟨takenHome_wf, ⟨rfl, rfl⟩, out', qf', hcall, ⟨hit4, hq4⟩, ⟨hit1, hq1⟩, ?_⟩
  rintro ⟨l1, it, l2, hb, -, -, -, hlay⟩
  have hbk : takenHome.metadata.bucket 4 = 1 := by decide
  have hnil : crowdContents 0 2 1 = [] := rfl
  rw [hbk] at hb hlay
  obtain ⟨rfl, rfl⟩ := List.append_eq_nil_iff.mp (hb.symm.trans hnil)
  have hat := hlay.itemAt (Function.update_self ..)
  have hpos : (crowdContents 0 2).pos 1 [] = 2 := by
    rw [Contents.pos, lens_crowdContents]
    decide
  rw [Contents.pos_update, hpos] at hat
  have hbase : extensionBit qf' 2 = false := congrArg Cell.extension hat.base
  rw [hext] at hbase
  cases hbase

end AdaptiveQF
