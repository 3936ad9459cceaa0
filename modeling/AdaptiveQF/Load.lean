import AdaptiveQF.LoadCap
import AdaptiveQF.Monotone
import AdaptiveQF.ReverseMap

/-! What bulkLoad leaves in the filter and in the reverse map. -/
namespace AdaptiveQF
open RunLayout

def loadStep (resize : QF → Nat → Option (Int × QF)) (result : InsertResult) (key : Nat) (qf : QF) :
    Option QF :=
  (qfInsertUsingLlTable resize qf key 1 result (QF_NO_LOCK ||| QF_KEY_IS_HASH)).map Prod.snd

def LoadFindsSpace (resize : QF → Nat → Option (Int × QF)) (result : InsertResult) (keys : List Nat)
    (qf : QF) : Prop :=
  Runs.Along (fun key qf => LlFindsSpace qf key) (loadStep resize result) keys qf

def minirunKeys (qf : QF) (keys : List Nat) (id : Nat) : List Nat :=
  keys.filter fun key => minirunId qf key = id

def mapInserts (qf : QF) (keys : List Nat) : List MapInsert :=
  keys.foldl (fun l key =>
    l ++ [⟨minirunId qf key, (keysOf l (minirunId qf key)).length, key⟩]) []

/-- Ranks fit into a `uint8_t` and above the id of a minirun. -/
def MinirunsFit (qf : QF) (keys : List Nat) : Prop :=
  ∀ id, (minirunKeys qf keys id).length ≤ 2^8 ∧
    (minirunKeys qf keys id).length ≤ 2^(64 - (qf.qbits + qf.bits))

structure Loading (qf0 : QF) (keys : List Nat) (qf : QF) (A : Contents) : Prop where
  regular : Regular qf A
  keeps : qf0.Keeps qf
  short : ∀ b, ∀ it ∈ A b, it.ext = []
  counts : ∀ y, rankOf qf0.metadata y (A (qf0.metadata.bucket y)) =
    (minirunKeys qf0 keys (minirunId qf0 y)).length
  occupied : qf.metadata.noccupiedSlots ≤ keys.length

section
variable {qf0 qf : QF} {A : Contents} {keys : List Nat} {key id : Nat}

theorem mapInserts_concat (qf : QF) (keys : List Nat) (key : Nat) : mapInserts qf (keys ++ [key]) =
    mapInserts qf keys ++ [⟨minirunId qf key,
      (keysOf (mapInserts qf keys) (minirunId qf key)).length, key⟩] := by
  simp [mapInserts, List.foldl_append]

theorem minirunKeys_concat (qf : QF) (keys : List Nat) (key id : Nat) :
    minirunKeys qf (keys ++ [key]) id =
      minirunKeys qf keys id ++ if minirunId qf key = id then [key] else [] := by
  by_cases h : minirunId qf key = id <;> simp [minirunKeys, h]

theorem keysOf_mapInserts (qf : QF) (keys : List Nat) (id : Nat) :
    keysOf (mapInserts qf keys) id = minirunKeys qf keys id := by
  induction keys using List.reverseRecOn with
  | nil => rfl
  | append_singleton keys key ih => rw [mapInserts_concat, keysOf_concat, minirunKeys_concat, ih]

theorem MinirunsFit.loadRanks (hg : Geometry qf.metadata) (h : MinirunsFit qf keys)
    (hkeys : ∀ key ∈ keys, key < 2^64) : LoadRanks (qf.qbits + qf.bits) (mapInserts qf keys) := by
  induction keys using List.reverseRecOn with
  | nil => exact ⟨Runs.each_nil, by simp [mapInserts]⟩
  | append_singleton keys key ih =>
    have hfront : MinirunsFit qf keys := fun id => by
      have hid := h id
      rw [minirunKeys_concat, List.length_append] at hid
      omega
    have hlast := h (minirunId qf key)
    rw [minirunKeys_concat, if_pos rfl, List.length_append, List.length_singleton] at hlast
    rw [mapInserts_concat, loadRanks_concat]
    refine ⟨ih hfront fun k hk => hkeys k (by simp [hk]), rfl, ?_, ?_, ?_, hkeys key (by simp)⟩
    · rw [hg.minirunId_eq]
      exact Nat.mod_lt _ (Nat.two_pow_pos _)
    · simp only [keysOf_mapInserts]
      omega
    · simp only [keysOf_mapInserts]
      omega

theorem QF.Zeroed.loading (h : qf.Zeroed) : Loading qf [] qf Contents.empty :=
  ⟨h.regular, .refl qf, by simp, fun _ => rfl, h.noccupiedSlots.le⟩

/-- Fresh items can be counted. -/
theorem Loading.reads (h : Loading qf0 keys qf A) (r b : Nat) : RankReads r (A b) := by
  have hlen : ∀ it ∈ A b, it.len = 1 := fun it hit => by
    simp [Item.len, h.short b it hit, h.regular.plain b it hit]
  unfold RankReads
  generalize A b = l at hlen
  induction l with
  | nil => exact .nil
  | cons x l ih =>
    cases l with
    | nil => exact .singleton _
    | cons y l =>
      exact .cons_cons (fun _ => .inl (hlen x (by simp))) (ih fun it hit => hlen it (by simp [hit]))

theorem Contents.rankOf_insert_eq (hg : Geometry qf.metadata) {hash : Nat} {l1 l2 : List Item}
    (hb : A (qf.metadata.bucket hash) = l1 ++ l2) (y : Nat) :
    rankOf qf.metadata y (A.insert qf.metadata hash l1 l2 (qf.metadata.bucket y)) =
      rankOf qf.metadata y (A (qf.metadata.bucket y)) +
        if minirunId qf hash = minirunId qf y then 1 else 0 := by
  by_cases hbucket : qf.metadata.bucket y = qf.metadata.bucket hash
  · rw [hbucket, Contents.insert, Function.update_self, hb]
    by_cases hr : qf.metadata.remainder hash = qf.metadata.remainder y
    · rw [if_pos (hg.minirunId_eq_iff.mpr ⟨hbucket.symm, hr⟩)]
      simp [rankOf, Item.fresh, hr]
      omega
    · rw [if_neg fun hc => hr (hg.minirunId_eq_iff.mp hc).2]
      simp [rankOf, Item.fresh, hr]
  · rw [Contents.insert, Function.update_of_ne hbucket,
      if_neg fun hc => hbucket (hg.minirunId_eq_iff.mp hc).1.symm, Nat.add_zero]

theorem Loading.insert (hg : Geometry qf0.metadata) (h : Loading qf0 keys qf A)
    (resize : QF → Nat → Option (Int × QF)) (hs : LlFindsSpace qf key)
    {result inserted : InsertResult}
    {ret : Int} {qf' : QF} (hcall : qfInsertUsingLlTable resize qf key 1 result
      (QF_NO_LOCK ||| QF_KEY_IS_HASH) = some ((ret, inserted), qf')) (hret : ¬ ret < 0) :
    inserted.minirunId = minirunId qf0 key ∧
      inserted.minirunRank = (minirunKeys qf0 keys (minirunId qf0 key)).length ∧
      ∃ A', Loading qf0 (keys ++ [key]) qf' A' := by
  have hk := h.keeps
  cases hf : full qf with
  | true =>
    rw [qfInsertUsingLlTable_full resize h.regular.idle hf] at hcall
    cases hcall
    exact absurd (by decide) hret
  | false =>
    have hhash : keyToHash qf key (QF_NO_LOCK ||| QF_KEY_IS_HASH) = key :=
      keyToHash_of_isHash qf key (by decide)
    obtain ⟨q, l1, l2, hins, hkeeps, hsplit, hreg⟩ :=
      h.regular.insertReported resize hhash hs (h.reads _ _) hf result
    rw [hins] at hcall
    cases hcall
    have hgrow := qfInsertUsingLlTable_grows (hk.geometry hg) h.regular.idle.autoResize hins
    have hcount := fun y => Contents.rankOf_insert_eq (hk.geometry hg) hsplit y
    simp only [hk.rankOf, hk.bucket, hk.minirunId] at hcount
    have hranks : rankOf qf.metadata key (A (qf.metadata.bucket key)) =
        (minirunKeys qf0 keys (minirunId qf0 key)).length := by
      rw [hk.rankOf, hk.bucket, h.counts]
    refine ⟨hk.minirunId key, hranks, _, hreg, hk.trans hkeeps, fun b it hit => ?_, fun y => ?_, ?_⟩
    · unfold Contents.insert at hit
      by_cases hb : b = qf.metadata.bucket key
      · subst hb
        rw [Function.update_self] at hit
        cases List.mem_append.mp hit with
        | inl hmem => exact h.short _ it (by rw [hsplit]; exact List.mem_append_left _ hmem)
        | inr hmem =>
          cases List.mem_cons.mp hmem with
          | inl heq => rw [heq]; rfl
          | inr hmem => exact h.short _ it (by rw [hsplit]; exact List.mem_append_right _ hmem)
      · rw [Function.update_of_ne hb] at hit
        exact h.short b it hit
    · rw [hcount, h.counts, minirunKeys_concat, List.length_append]
      split <;> rfl
    · have hocc := hgrow.occupied
      have hle := h.occupied
      rw [List.length_append, List.length_singleton]
      omega

end

/-! The whole load. -/

section
variable {M : Type} {rm : ReverseMap M} {m m0 m' : M} {qf0 qf qf' : QF} {A : Contents}
  {resize : QF → Nat → Option (Int × QF)} {result : InsertResult}

theorem Loading.bulkLoad (hg : Geometry qf0.metadata) {done keys : List Nat}
    (h : Loading qf0 done qf A) (hm : m = rm.load m0 (mapInserts qf0 done))
    (hspace : LoadFindsSpace resize result keys qf)
    (hcall : AdaptiveQF.bulkLoad rm resize (done ++ keys).length result keys qf m =
      some (0, qf', m')) :
    (∃ A', Loading qf0 (done ++ keys) qf' A') ∧
      m' = rm.commitFingerprints (rm.load m0 (mapInserts qf0 (done ++ keys))) := by
  induction keys generalizing done qf A m with
  | nil =>
    have hnot : ¬ qf.metadata.noccupiedSlots < (done ++ []).length := by
      intro hlt
      rw [AdaptiveQF.bulkLoad, if_pos hlt] at hcall
      cases hcall
    rw [AdaptiveQF.bulkLoad, if_neg hnot] at hcall
    cases hcall
    rw [List.append_nil, hm]
    exact ⟨⟨A, h⟩, rfl⟩
  | cons key keys ih =>
    have hlt : qf.metadata.noccupiedSlots < (done ++ key :: keys).length := by
      have hle := h.occupied
      rw [List.length_append, List.length_cons]
      omega
    rw [AdaptiveQF.bulkLoad, if_pos hlt] at hcall
    simp only [Option.bind_eq_bind, Option.bind_eq_some_iff, Prod.exists] at hcall
    obtain ⟨ret, inserted, q, hins, hcall⟩ := hcall
    have hret : ¬ ret < 0 := by
      intro hneg
      rw [if_pos hneg] at hcall
      cases hcall
    rw [if_neg hret] at hcall
    obtain ⟨hid, hrank, A', hload⟩ := h.insert hg resize hspace.1 hins hret
    have hret2 :
        ¬ (rm.insertFingerprint m inserted.minirunId (toInt inserted.minirunRank) key).1 < 0 := by
      intro hneg
      rw [if_pos hneg] at hcall
      cases hcall
    rw [if_neg hret2] at hcall
    have hstep : loadStep resize result key qf = some q := by rw [loadStep, hins]; rfl
    have happ : done ++ key :: keys = (done ++ [key]) ++ keys := by simp
    rw [happ] at hcall ⊢
    refine ih hload ?_ (hspace.2 q hstep) hcall
    rw [mapInserts_concat, ReverseMap.load_concat, ← hm, hid, hrank, keysOf_mapInserts]

end

/-! Which key stands at which rank is a matter of choice, the items of a minirun being alike. -/

def orderTable (m : QFMetadata) (order : Nat → List Nat) : Table := fun b =>
  (List.range (2^m.bitsPerSlot)).flatMap fun r =>
    (order (b * 2^m.bitsPerSlot + r)).map fun key => ⟨key, key, 0, []⟩

/-- A sorted list is known by how often each number is in it. -/
theorem eq_flatMap_count {n : Nat} {l : List Nat} (hs : l.Pairwise (· ≤ ·)) (hl : ∀ a ∈ l, a < n) :
    l = (List.range n).flatMap fun r => List.replicate (l.count r) r := by
  have hcount : ∀ a k : Nat,
      ((List.range k).flatMap fun r => List.replicate (l.count r) r).count a =
      if a < k then l.count a else 0 := by
    intro a k
    induction k with
    | zero => simp
    | succ k ih =>
      rw [List.range_succ, List.flatMap_append, List.count_append, ih, List.flatMap_singleton,
        List.count_replicate]
      by_cases hak : a = k
      · subst hak
        simp
      · by_cases hlt : a < k
        · simp [hlt, Nat.lt_succ_of_lt hlt, Ne.symm hak]
        · have hnot : ¬ a < k + 1 := by omega
          simp [hlt, hnot, Ne.symm hak]
  have hperm : l.Perm ((List.range n).flatMap fun r => List.replicate (l.count r) r) := by
    refine List.perm_iff_count.mpr fun a => ?_
    rw [hcount]
    split
    · rfl
    next hna => exact List.count_eq_zero_of_not_mem fun hmem => hna (hl a hmem)
  have hsorted : ((List.range n).flatMap fun r => List.replicate (l.count r) r).Pairwise
      (· ≤ ·) := by
    rw [List.pairwise_flatMap]
    refine ⟨fun r _ => List.pairwise_replicate.mpr (.inr (Nat.le_refl r)), ?_⟩
    refine List.pairwise_lt_range.imp fun hab x hx y hy => ?_
    rw [List.eq_of_mem_replicate hx, List.eq_of_mem_replicate hy]
    exact hab.le
  exact hperm.eq_of_pairwise (fun a b _ _ h1 h2 => Nat.le_antisymm h1 h2) hs hsorted

theorem flatMap_range_single {α : Type*} {n r : Nat} (hr : r < n) (l : List α) :
    ((List.range n).flatMap fun k => if k = r then l else []) = l := by
  induction n with
  | zero => omega
  | succ n ih =>
    rw [List.range_succ, List.flatMap_append, List.flatMap_singleton]
    by_cases hrn : r < n
    · rw [ih hrn, if_neg (by omega), List.append_nil]
    · obtain rfl : r = n := by omega
      have hnil : ((List.range r).flatMap fun k => if k = r then l else []) = [] := by
        refine List.flatMap_eq_nil_iff.mpr fun k hk => ?_
        rw [if_neg (List.mem_range.mp hk).ne]
      rw [hnil, if_pos rfl, List.nil_append]

section
variable {qf0 qf : QF} {A : Contents} {keys : List Nat} {order : Nat → List Nat}

theorem Geometry.minirunId_sum (hg : Geometry qf0.metadata) (y : Nat) : minirunId qf0 y =
    qf0.metadata.bucket y * 2^qf0.metadata.bitsPerSlot + qf0.metadata.remainder y := by
  rw [hg.minirunId_eq, Nat.add_comm qf0.qbits, pow_add, Nat.mod_mul, Nat.add_comm, Nat.mul_comm]
  rfl

theorem Geometry.of_id (hg : Geometry qf0.metadata) {b r : Nat} (hb : b < qf0.metadata.nslots)
    (hr : r < 2^qf0.metadata.bitsPerSlot) :
    qf0.metadata.bucket (b * 2^qf0.metadata.bitsPerSlot + r) = b ∧
      qf0.metadata.remainder (b * 2^qf0.metadata.bitsPerSlot + r) = r := by
  rw [hg.nslots] at hb
  have hpos := Nat.two_pow_pos qf0.metadata.bitsPerSlot
  constructor
  · rw [QFMetadata.bucket, Nat.mul_comm, Nat.mul_add_div hpos, Nat.div_eq_of_lt hr, Nat.add_zero,
      Nat.mod_eq_of_lt hb]
  · rw [QFMetadata.remainder, Nat.mul_comm, Nat.mul_add_mod, Nat.mod_eq_of_lt hr]

theorem Geometry.bucket_of_minirunId (hg : Geometry qf0.metadata) {y b r : Nat}
    (hr : r < 2^qf0.metadata.bitsPerSlot)
    (h : minirunId qf0 y = b * 2^qf0.metadata.bitsPerSlot + r) :
    qf0.metadata.bucket y = b ∧ qf0.metadata.remainder y = r := by
  have hrem : qf0.metadata.remainder y < 2^qf0.metadata.bitsPerSlot :=
    Nat.mod_lt _ (Nat.two_pow_pos _)
  have hpos := Nat.two_pow_pos qf0.metadata.bitsPerSlot
  rw [hg.minirunId_sum] at h
  have hq : ∀ c s, s < 2^qf0.metadata.bitsPerSlot →
      (c * 2^qf0.metadata.bitsPerSlot + s) / 2^qf0.metadata.bitsPerSlot = c := by
    intro c s hs
    rw [Nat.mul_comm, Nat.mul_add_div hpos, Nat.div_eq_of_lt hs, Nat.add_zero]
  have hb := congrArg (· / 2^qf0.metadata.bitsPerSlot) h
  simp only [hq _ _ hrem, hq _ _ hr] at hb
  rw [hb] at h
  exact ⟨hb, by omega⟩

theorem mem_orderTable {m : QFMetadata} {b : Nat} {e : Entry} : e ∈ orderTable m order b ↔
    ∃ r < 2^m.bitsPerSlot, ∃ key ∈ order (b * 2^m.bitsPerSlot + r), e = ⟨key, key, 0, []⟩ := by
  simp only [orderTable, List.mem_flatMap, List.mem_range, List.mem_map, eq_comm]

theorem mem_orderTable_key (hg : Geometry qf0.metadata)
    (hperm : ∀ id, (order id).Perm (minirunKeys qf0 keys id)) {b : Nat} {e : Entry}
    (he : e ∈ orderTable qf0.metadata order b) :
    e.hash ∈ keys ∧ qf0.metadata.bucket e.hash = b ∧ e = ⟨e.hash, e.hash, 0, []⟩ := by
  obtain ⟨r, hr, key, hkey, rfl⟩ := mem_orderTable.mp he
  obtain ⟨hmem, hid⟩ := List.mem_filter.mp ((hperm _).mem_iff.mp hkey)
  exact ⟨hmem, (hg.bucket_of_minirunId hr (of_decide_eq_true hid)).1, rfl⟩

/-- The contents of a loaded filter are those of the table. -/
theorem Loading.contents_eq (hg : Geometry qf0.metadata) (h : Loading qf0 keys qf A)
    (hperm : ∀ id, (order id).Perm (minirunKeys qf0 keys id)) :
    (orderTable qf0.metadata order).contents qf0.metadata = A := by
  funext b
  have hbits : qf.bits = qf0.metadata.bitsPerSlot := h.keeps.bits
  have hfresh : A b = ((A b).map Item.rem).map Item.fresh := by
    rw [List.map_map]
    refine ((List.map_congr_left fun it hit => ?_).trans (List.map_id _)).symm
    have hext := h.short b it hit
    have hcnt := h.regular.plain b it hit
    cases it
    cases hext
    cases hcnt
    rfl
  have hsorted : ((A b).map Item.rem).Pairwise (· ≤ ·) :=
    List.pairwise_map.mpr (h.regular.layout.sorted b)
  have hlt : ∀ r ∈ (A b).map Item.rem, r < 2^qf0.metadata.bitsPerSlot := by
    intro r hr
    obtain ⟨it, hit, rfl⟩ := List.mem_map.mp hr
    rw [← hbits]
    exact (h.regular.layout.bounded b it hit).rem
  have hcount : ∀ r < 2^qf0.metadata.bitsPerSlot, ((A b).map Item.rem).count r =
      (order (b * 2^qf0.metadata.bitsPerSlot + r)).length := by
    intro r hr
    rw [(hperm _).length_eq]
    by_cases hb : b < qf0.metadata.nslots
    · obtain ⟨hbucket, hrem⟩ := hg.of_id hb hr
      have hcounts := h.counts (b * 2^qf0.metadata.bitsPerSlot + r)
      rw [hg.minirunId_sum, hbucket, hrem] at hcounts
      rw [← hcounts, List.count, List.countP_map]
      refine List.countP_congr fun it _ => ?_
      simp [hrem]
    · have hout : A b = [] := h.regular.layout.outside b (by
        have hn : qf.metadata.nslots = qf0.metadata.nslots := h.keeps.nslots
        omega)
      have hnone : minirunKeys qf0 keys (b * 2^qf0.metadata.bitsPerSlot + r) = [] := by
        refine List.filter_eq_nil_iff.mpr fun key _ hid => hb ?_
        rw [← (hg.bucket_of_minirunId hr (of_decide_eq_true hid)).1]
        exact hg.bucket_lt key
      rw [hout, hnone]
      rfl
  have hitems : ∀ r < 2^qf0.metadata.bitsPerSlot,
      ((order (b * 2^qf0.metadata.bitsPerSlot + r)).map fun key => (⟨key, key, 0, []⟩ : Entry)).map
        (Entry.item qf0.metadata) = List.replicate (((A b).map Item.rem).count r)
          (Item.fresh r) := by
    intro r hr
    rw [hcount r hr, List.eq_replicate_iff, List.length_map, List.length_map]
    refine ⟨rfl, fun it hit => ?_⟩
    rw [List.map_map] at hit
    obtain ⟨key, hkey, rfl⟩ := List.mem_map.mp hit
    obtain ⟨-, hid⟩ := List.mem_filter.mp ((hperm _).mem_iff.mp hkey)
    obtain ⟨-, hrem⟩ := hg.bucket_of_minirunId hr (of_decide_eq_true hid)
    simp only [Function.comp_apply, Entry.item, hrem]
    rfl
  calc (orderTable qf0.metadata order).contents qf0.metadata b
      = (List.range (2^qf0.metadata.bitsPerSlot)).flatMap fun r =>
          List.replicate (((A b).map Item.rem).count r) (Item.fresh r) := by
        rw [Table.contents, orderTable, List.map_flatMap]
        exact List.flatMap_congr fun r hr => hitems r (List.mem_range.mp hr)
    _ = ((A b).map Item.rem).map Item.fresh := by
        conv_rhs => rw [eq_flatMap_count hsorted hlt, List.map_flatMap]
        simp only [List.map_replicate]
    _ = A b := hfresh.symm

/-- The filter behind a load stores its keys, in any order within the miniruns. -/
theorem Loading.represents (hg : Geometry qf0.metadata) (h : Loading qf0 keys qf A)
    (hkeys : ∀ key ∈ keys, key < 2^64)
    (hperm : ∀ id, (order id).Perm (minirunKeys qf0 keys id)) :
    Represents qf (orderTable qf0.metadata order) where
  layout := by
    rw [h.keeps.contents, h.contents_eq hg hperm]
    exact h.regular.layout
  idle := h.regular.idle
  valid b e he := by
    obtain ⟨hmem, hb, heq⟩ := mem_orderTable_key hg hperm he
    refine h.keeps.valid_iff.mpr ⟨hb, hkeys _ hmem, ?_⟩
    have hbits := hg.hashBits
    rw [heq]
    simp only
    omega

theorem hashAt_orderTable (hg : Geometry qf0.metadata)
    (hperm : ∀ id, (order id).Perm (minirunKeys qf0 keys id)) (y rank : Nat) :
    (orderTable qf0.metadata order).hashAt qf0.metadata y rank =
      (order (minirunId qf0 y))[rank]? := by
  have hr : qf0.metadata.remainder y < 2^qf0.metadata.bitsPerSlot :=
    Nat.mod_lt _ (Nat.two_pow_pos _)
  have hpiece : ∀ r < 2^qf0.metadata.bitsPerSlot,
      (((order (qf0.metadata.bucket y * 2^qf0.metadata.bitsPerSlot + r)).map fun key =>
        (⟨key, key, 0, []⟩ : Entry)).map Entry.hash).filter
          (fun g => qf0.metadata.remainder g = qf0.metadata.remainder y) =
        if r = qf0.metadata.remainder y then order (minirunId qf0 y) else [] := by
    intro r hr
    rw [List.map_map]
    have hid : (order (qf0.metadata.bucket y * 2^qf0.metadata.bitsPerSlot + r)).map
        (Entry.hash ∘ fun key => (⟨key, key, 0, []⟩ : Entry)) =
          order (qf0.metadata.bucket y * 2^qf0.metadata.bitsPerSlot + r) := List.map_id _
    have hrem : ∀ key ∈ order (qf0.metadata.bucket y * 2^qf0.metadata.bitsPerSlot + r),
        qf0.metadata.remainder key = r := by
      intro key hkey
      obtain ⟨-, hid⟩ := List.mem_filter.mp ((hperm _).mem_iff.mp hkey)
      exact (hg.bucket_of_minirunId hr (of_decide_eq_true hid)).2
    rw [hid]
    split
    next heq =>
      rw [heq, ← hg.minirunId_sum] at hrem ⊢
      exact List.filter_eq_self.mpr fun key hkey => decide_eq_true (hrem key hkey)
    next hne =>
      refine List.filter_eq_nil_iff.mpr fun key hkey => ?_
      rw [hrem key hkey]
      simpa using hne
  rw [Table.hashAt, orderTable, List.map_flatMap, List.filter_flatMap,
    List.flatMap_congr fun r hr => hpiece r (List.mem_range.mp hr), flatMap_range_single hr]

end

end AdaptiveQF
