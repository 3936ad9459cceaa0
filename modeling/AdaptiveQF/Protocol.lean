import AdaptiveQF.Lib.Runs
import AdaptiveQF.Remove
import AdaptiveQF.Table

/-! The protocol around qf_insert_ret: what its calls do to the table of keys behind
the filter, and the invariant they keep. -/
namespace AdaptiveQF
open RunLayout

structure InsertRoom (qf : QF) (T : Table) (hash count : Nat) : Prop where
  load : full qf = false
  slots : (counterOf qf.bits count).length < (T.contents qf.metadata).free qf
    (T.pos qf.metadata (qf.metadata.bucket hash) (T.before qf.metadata hash))

instance (qf : QF) (T : Table) (hash count : Nat) : Decidable (InsertRoom qf T hash count) :=
  decidable_of_iff (full qf = false ∧ (counterOf qf.bits count).length <
      (T.contents qf.metadata).free qf
        (T.pos qf.metadata (qf.metadata.bucket hash) (T.before qf.metadata hash)))
    ⟨fun h => ⟨h.1, h.2⟩, fun h => ⟨h.1, h.2⟩⟩

section
variable {qf : QF} {T : Table} {b key hash count flags : Nat} {e : Entry} {t1 t2 : List Entry}

theorem Represents.codeNear (h : Represents qf T)
    (hn : Near qf.metadata (T.contents qf.metadata) hash) :
    CodeNear qf (T.contents qf.metadata) hash := h.wf.codeNear hn

theorem qfInsertRet_idle (hi : qf.Idle) (hk : keyToHash qf key flags = hash) (hc : 0 < count)
    (hl : full qf = false) (resize : QF → Nat → Option (Int × QF)) (out : InsertOut) :
    qfInsertRet resize qf key count out flags = insert qf hash count out flags := by
  have hne : count ≠ 0 := by omega
  simp [qfInsertRet, checkLoad_idle hi, hl, hk, hne]

theorem Represents.insertRet_hit (h : Represents qf T) (hk : keyToHash qf key flags = hash)
    (hn : Near qf.metadata (T.contents qf.metadata) hash)
    (hf : FirstEntry qf.metadata hash (T (qf.metadata.bucket hash)) t1 e t2)
    (hflag : hasFlag flags QF_TRY_ONCE_LOCK = false) (hl : full qf = false) (hc : 0 < count)
    (resize : QF → Nat → Option (Int × QF)) (out : InsertOut) :
    ∃ out', qfInsertRet resize qf key count out flags = some ((0, out'), qf) ∧
      out'.index = T.pos qf.metadata (qf.metadata.bucket hash) t1 := by
  obtain ⟨p, hp, hcase⟩ := h.layout.locateInsert_eq flags fun _ => h.codeNear hn
  have hmem : e.item qf.metadata ∈ T.contents qf.metadata (qf.metadata.bucket hash) := by
    rw [Represents.split_contents hf.split]
    simp
  rcases hcase with ⟨l1, it, l2, hsplit, hm, hfirst, rfl⟩ | ⟨l1, l2, _, hno⟩
  · have hcode : ∀ x ∈ T.contents qf.metadata (qf.metadata.bucket hash),
        (CodeMatches qf hash x ↔ x.Matches qf.metadata hash) := fun x hx => h.wf.codeMatches_iff hx
    have hf2 : FirstMatch qf.metadata hash (T.contents qf.metadata (qf.metadata.bucket hash))
        l1 it l2 := by
      refine ⟨hsplit, (hcode it (by rw [hsplit]; simp)).mp hm, fun x hx hc => ?_⟩
      exact hfirst x hx ((hcode x (by rw [hsplit]; simp [hx])).mpr hc)
    obtain ⟨rfl, rfl, rfl⟩ := hf2.unique hf.firstMatch
    have hins := insert_eq h.idle count out flags (insertWork_matched hp count out) rfl
    exact ⟨_, (qfInsertRet_idle h.idle hk hc hl resize out).trans hins, rfl⟩
  · exact absurd ((h.wf.codeMatches_iff hmem).mpr hf.hit) ((hno hflag).1 _ hmem)

theorem Represents.insertRet_place (h : Represents qf T)
    (hn : hasFlag flags QF_TRY_ONCE_LOCK = false →
      Near qf.metadata (T.contents qf.metadata) hash)
    (hm : ∀ x ∈ T (qf.metadata.bucket hash), ¬ x.Matches qf.metadata hash)
    (hflag : hasFlag flags QF_TRY_ONCE_LOCK = false ∨
      ∀ x ∈ T (qf.metadata.bucket hash),
        qf.metadata.remainder x.hash ≠ qf.metadata.remainder hash) :
    ∃ p, locateInsert qf hash flags = some p ∧ Places qf (T.contents qf.metadata) hash
      ((T.before qf.metadata hash).map (Entry.item qf.metadata))
      ((T.behind qf.metadata hash).map (Entry.item qf.metadata)) p := by
  obtain ⟨p, hp, hcase⟩ := h.layout.locateInsert_eq flags fun hf => h.codeNear (hn hf)
  refine ⟨p, hp, ?_⟩
  rcases hcase with ⟨l1, it, l2, hsplit, hmatch, _, _⟩ | ⟨l1, l2, hpl, hno⟩
  · have hmem : it ∈ T.contents qf.metadata (qf.metadata.bucket hash) := by rw [hsplit]; simp
    exact absurd ((h.wf.codeMatches_iff hmem).mp hmatch) (not_matches_items hm it hmem)
  · obtain ⟨t1, t2, hT, rfl, rfl⟩ := List.map_eq_append_iff.mp hpl.placed.split
    have hupper : ∀ x ∈ t2, qf.metadata.remainder hash < qf.metadata.remainder x.hash := by
      intro x hx
      have hle := hpl.upper _ (List.mem_map_of_mem hx)
      rcases hflag with hflag | hflag
      · exact (hno hflag).2 _ (List.mem_map_of_mem hx)
      · exact lt_of_le_of_ne hle (hflag x (by rw [hT]; simp [hx])).symm
    obtain ⟨h1, h2⟩ := Table.before_eq hT
      (fun x hx => hpl.lower _ (List.mem_map_of_mem hx)) hupper
    rw [h1, h2]
    exact hpl

theorem Represents.insertRet_miss (h : Represents qf T) (hk : keyToHash qf key flags = hash)
    (hh : hash < 2^64)
    (hn : hasFlag flags QF_TRY_ONCE_LOCK = false →
      Near qf.metadata (T.contents qf.metadata) hash)
    (hm : ∀ x ∈ T (qf.metadata.bucket hash), ¬ x.Matches qf.metadata hash)
    (hflag : hasFlag flags QF_TRY_ONCE_LOCK = false ∨
      ∀ x ∈ T (qf.metadata.bucket hash), qf.metadata.remainder x.hash ≠ qf.metadata.remainder hash)
    (hroom : InsertRoom qf T hash count) (hc : 0 < count) (hc2 : count < 2^64)
    (hcount : 1 < count →
      (T (qf.metadata.bucket hash) = [] →
        ¬ Used (T.contents qf.metadata).lens (qf.metadata.bucket hash)) ∧
      T.pos qf.metadata (qf.metadata.bucket hash) (T.before qf.metadata hash) + 1 < 2^31)
    (resize : QF → Nat → Option (Int × QF)) (out : InsertOut) :
    ∃ qf' len, qfInsertRet resize qf key count out flags =
        some ((1, ⟨out.index, qf.metadata.fingerprint hash 0, len⟩), qf') ∧
      (count = 1 ∨ T (qf.metadata.bucket hash) = [] →
        len = (qf.metadata.fingerprintLen 0 : Int)) ∧ qf.Keeps qf' ∧
      Represents qf' (T.add qf.metadata ⟨key, hash, 0, counterOf qf.bits count⟩) := by
  obtain ⟨p, hp, hpl⟩ := h.insertRet_place hn hm hflag
  have hsplit := T.before_append_behind qf.metadata hash
  have hprint : minirunId qf hash = qf.metadata.fingerprint hash 0 :=
    h.layout.geometry.minirunId_eq hash
  have hlen : ((qf.qbits + qf.bits : Nat) : Int) = (qf.metadata.fingerprintLen 0 : Int) := by
    unfold QFMetadata.fingerprintLen QF.qbits QF.bits
    rw [Nat.mul_zero, Nat.zero_add]
  have hcall := qfInsertRet_idle h.idle hk hc hroom.load resize out
  rw [hcall, ← hprint]
  have hcountable : 1 < count → Countable qf (T.contents qf.metadata) hash
      ((T.before qf.metadata hash).map (Entry.item qf.metadata)) p := by
    intro hgt
    obtain ⟨hfree, hlow⟩ := hcount hgt
    refine ⟨?_, hlow⟩
    rintro i rfl
    obtain ⟨hu, hb⟩ := hpl.placed.of_first
    exact hfree (List.map_eq_nil_iff.mp hb) hu
  obtain ⟨qf', len, h1, h2, hk2, hlay⟩ :=
    h.layout.insertWork_new hp hpl hc hc2 hroom.slots hcountable out
  have hins := insert_eq h.idle count out flags h1 hk2.locks
  refine ⟨qf', len, hins, fun hor => ?_, hk2, h.insert key hk2 hh hsplit.symm _ hlay⟩
  rw [← hlen]
  exact h2 (hor.imp_right List.map_eq_nil_iff.mpr)

def ExtendRoom (qf : QF) (T : Table) (b : Nat) (t1 : List Entry) (e : Entry) (hash count : Nat) :
    Prop :=
  2 * (1 + qf.metadata.grown e.hash hash 64 e.slots) + (counterOf qf.bits count).length ≤
    (e.item qf.metadata).len + (T.contents qf.metadata).free qf (T.pos qf.metadata b t1)

instance (qf : QF) (T : Table) (b : Nat) (t1 : List Entry) (e : Entry) (hash count : Nat) :
    Decidable (ExtendRoom qf T b t1 e hash count) := inferInstanceAs (Decidable (_ ≤ _))

theorem Entry.len_grow {e : Entry} {n : Nat} (h : e.slots < n) (m : QFMetadata) :
    ((e.grow n).item m).len = 1 + n := by
  rw [Entry.grow_item h, QFMetadata.item, Item.len, QFMetadata.length_extension]
  rfl

theorem Entry.grow_fresh {n : Nat} (h : 0 < n) :
    (Entry.mk key hash 0 []).grow n = ⟨key, hash, n, []⟩ := by
  rw [grow, if_neg (by simp only; omega)]

/-- With as many slots each, one entry matches the other's hash where the other matches its hash. -/
theorem Entry.matches_comm {m : QFMetadata} {x y : Entry} (h : x.slots = y.slots) :
    x.Matches m y.hash ↔ y.Matches m x.hash := by
  rw [matches_iff, matches_iff, h]
  exact ⟨fun h => ⟨h.1.symm, h.2.symm⟩, fun h => ⟨h.1.symm, h.2.symm⟩⟩

theorem QF.Keeps.pos {qf' : QF} (hk : qf.Keeps qf') (T : Table) (b : Nat) (t1 : List Entry) :
    T.pos qf'.metadata b t1 = T.pos qf.metadata b t1 := by
  rw [Table.pos, hk.contents, hk.item]
  rfl

theorem QF.Keeps.digging {qf' : QF} {x y n : Nat} {ds : List Nat} (hk : qf.Keeps qf')
    (hd : Digging qf'.metadata x y n ds) : Digging qf.metadata x y n ds := by
  obtain ⟨_, _, _, hf⟩ := hk
  rw [hf.metadata] at hd
  exact ⟨hd.pos, hd.digits, hd.fits, hd.same, hd.last⟩

theorem QF.Keeps.fingerprint {qf' : QF} (hk : qf.Keeps qf') :
    qf'.metadata.fingerprint = qf.metadata.fingerprint := by
  obtain ⟨_, _, _, hf⟩ := hk
  rw [hf.metadata]
  rfl

theorem QF.Keeps.fingerprintLen {qf' : QF} (hk : qf.Keeps qf') :
    qf'.metadata.fingerprintLen = qf.metadata.fingerprintLen := by
  obtain ⟨_, _, _, hf⟩ := hk
  rw [hf.metadata]
  rfl

theorem Represents.setCounts (h : Represents qf T) (x y z : Nat) :
    Represents (qf.setCounts x y z) T := by
  have hk := QF.Keeps.setCounts qf x y z
  refine ⟨?_, hk.idle h.idle, fun c e he => hk.valid_iff.mpr (h.valid c e he)⟩
  rw [hk.contents]
  exact h.layout.setCounts x y z

theorem Represents.insertFront (h : Represents qf T) (hT : T b = t1 ++ e :: t2) (hh : hash < 2^64)
    (hbk : qf.metadata.bucket hash = b)
    (hrem : qf.metadata.remainder e.hash = qf.metadata.remainder hash) (key : Nat)
    (hspace : 0 < (T.contents qf.metadata).free qf (T.pos qf.metadata b t1)) :
    ∃ qf', insertOneSlot qf b (T.pos qf.metadata b t1) (qf.metadata.remainder hash) =
        some (1, qf') ∧ qf.Keeps qf' ∧
      Represents qf' (Function.update T b (t1 ++ ⟨key, hash, 0, []⟩ :: e :: t2)) ∧
      (T.contents qf.metadata).free qf (T.pos qf.metadata b t1) =
        (Table.contents (Function.update T b (t1 ++ ⟨key, hash, 0, []⟩ :: e :: t2))
          qf'.metadata).free qf' (T.pos qf.metadata b t1) + 1 := by
  have hsplit := Represents.split_contents hT qf.metadata
  have hend := (h.layout.pos_add_len_le hsplit).trans h.layout.fits
  have hfits : T.pos qf.metadata b t1 ≤ qf.xnslots := by
    unfold Table.pos
    omega
  obtain ⟨qf', hcall, hf, hlay⟩ := h.layout.insertBetween hsplit (qf.metadata.remainder hash)
    (Geometry.remainder_lt qf hash) ((h.layout.findsSpace_iff hfits).mpr hspace)
    (sorted_duplicate (x := Item.fresh (qf.metadata.remainder hash)) hrem.symm
      (h.layout.sorted_append hsplit))
  have hk : qf.Keeps qf' := .of_sameFrame hf
  have hfree := h.layout.free_insert hsplit (h.layout.bucket_lt hsplit) hfits hk.xnslots hlay
  have hrep := h.insert key hk hh (hbk ▸ hT) [] (by rw [hbk]; exact hlay)
  have hcontents : Function.update (T.contents qf.metadata) b (t1.map (Entry.item qf.metadata) ++
      Item.fresh (qf.metadata.remainder hash) :: e.item qf.metadata ::
        t2.map (Entry.item qf.metadata)) =
      Table.contents (Function.update T b (t1 ++ ⟨key, hash, 0, []⟩ :: e :: t2)) qf'.metadata := by
    rw [Represents.contents_update hk, List.map_append]
    rfl
  rw [hbk] at hrep
  rw [hcontents, Item.len_fresh] at hfree
  exact ⟨qf', hcall, hk, hrep, hfree⟩

/-- The steps of `insert_and_extend` for two hashes that match one item. Both entries are extended
to the same number of slots, and a counter for the new one comes last. -/
theorem Represents.extendOther_eq (h : Represents qf T) (hT : T b = t1 ++ e :: t2)
    (hc : e.cnt.length ≤ 1) (hs : T.pos qf.metadata b t1 + (e.item qf.metadata).len < 2^31)
    (hh : hash < 2^64) (hne : e.hash ≠ hash) (hbk : qf.metadata.bucket hash = b)
    (hm : e.Matches qf.metadata hash) (key flags : Nat) {n : Nat}
    (hn : n = qf.metadata.grown e.hash hash 64 e.slots)
    (hspace : 2 * (1 + n) ≤ (e.item qf.metadata).len +
      (T.contents qf.metadata).free qf (T.pos qf.metadata b t1)) :
    ∃ qf', (∀ count, extendOther qf (T.pos qf.metadata b t1) hash count e.hash flags =
        (if count > 1 then
          extendSame qf' (T.pos qf.metadata b t1) (keyToHash qf hash flags) (count-1)
          else some qf').map fun q => (⟨(qf.metadata.fingerprintLen n : Int),
            qf.metadata.fingerprint hash n, qf.metadata.fingerprint e.hash n⟩, q)) ∧
      qf.Keeps qf' ∧
      Represents qf' (Function.update T b (t1 ++ ⟨key, hash, n, []⟩ :: e.grow n :: t2)) ∧
      (e.item qf.metadata).len + (T.contents qf.metadata).free qf (T.pos qf.metadata b t1) =
        2 * (1 + n) +
          (Table.contents (Function.update T b (t1 ++ ⟨key, hash, n, []⟩ :: e.grow n :: t2))
            qf'.metadata).free qf' (T.pos qf.metadata b t1) ∧
      e.slots < n ∧ ¬ (e.grow n).Matches qf.metadata hash := by
  obtain ⟨index, hindex⟩ : ∃ x, x = T.pos qf.metadata b t1 := ⟨_, rfl⟩
  have he : e ∈ T b := by simp [hT]
  have hv := h.valid b e he
  have hroom := h.room he hm hh hne hbk
  have hg := h.layout.geometry
  have hwant := hg.wantedDigits_spec e.hash hash hroom
  have hwantlen : e.slots + (qf.wantedDigits e.hash hash e.slots).length = n := by
    rw [hn]
    exact hg.length_wantedDigits hroom
  have hwantpos := hwant.pos
  have hitemlen : (e.item qf.metadata).len = 1 + e.slots + e.cnt.length := by
    rw [Item.len, Entry.item, QFMetadata.length_extension]
  -- the old item is extended
  obtain ⟨qf1, r1, rh1, n1, h1, hg1⟩ := h.adapt hT hc hs hroom hash
  have hfree1 := hg1.free_eq h hT hc
  have hp1 := hg1.parted (hg1.done (by omega) (by omega)) hh hne hbk
  rw [Entry.len_grow hp1.longer] at hfree1
  rw [← hindex] at h1 hspace hfree1 ⊢
  obtain rfl : n1 = n := hp1.grown.trans hn.symm
  have k1 := hg1.keeps
  have hpos : ∀ l, Table.pos (Function.update T b l) qf1.metadata b t1 = index := fun l => by
    rw [Table.pos_update, k1.pos, hindex]
  -- the new one is put in front of it
  have hrem : qf.metadata.remainder e.hash = qf.metadata.remainder hash :=
    (Entry.matches_iff.mp hm).1
  obtain ⟨qf2, h2, k2, hrep2, hfree2⟩ := hg1.represents.insertFront (b := b)
    (show _ = t1 ++ e.grow n1 :: t2 from Function.update_self ..) hh (by rw [k1.bucket, hbk])
    (by rw [Entry.grow_hash, k1.remainder, hrem]) key (by rw [hpos]; omega)
  rw [hpos, k1.remainder] at h2
  rw [hpos] at hfree2
  rw [Function.update_idem] at hrep2 hfree2
  -- and extended as well
  have k12 := k1.trans k2
  have hlen2 : ((Entry.mk key hash 0 []).item qf2.metadata).len = 1 := rfl
  have hpos2 : Table.pos (Function.update T b (t1 ++ ⟨key, hash, 0, []⟩ :: e.grow n1 :: t2))
      qf2.metadata b t1 = index := by
    rw [Table.pos_update, k12.pos, hindex]
  have hitem := (e.item qf.metadata).len_pos
  have hroom3 : qf2.metadata.fingerprintLen 0 < 64 := by
    have hw : qf2.metadata.bitsPerSlot = qf.metadata.bitsPerSlot := k12.bits
    have hq : qf2.metadata.quotientBits = qf.metadata.quotientBits := k12.qbits
    have := hg.hashBits
    unfold QFMetadata.fingerprintLen
    omega
  have hT3 : Function.update T b (t1 ++ ⟨key, hash, 0, []⟩ :: e.grow n1 :: t2) b =
      t1 ++ ⟨key, hash, 0, []⟩ :: e.grow n1 :: t2 := Function.update_self ..
  obtain ⟨qf3, r3, rh3, n3, h3, hg3⟩ :=
    hrep2.adapt hT3 (by simp) (by rw [hpos2, hlen2]; omega) hroom3 e.hash
  have hfree3 := hg3.free_eq hrep2 hT3 (by simp)
  have hdone3 := hg3.done
  rw [hpos2] at h3 hfree3 hdone3
  rw [k12.wantedDigits] at hdone3
  rw [hlen2] at hfree3
  simp only [List.length_nil, Nat.add_zero] at hdone3
  -- by as many slots as the old one has now
  have hwant2 := hg.wantedDigits_spec hash e.hash hg.room
  have hlen := hwant.length_eq hwant2 (Entry.matches_iff.mp hm).2 rfl
  have hp3 := hg3.parted (hdone3 (by omega) (by omega)) hv.word hne.symm
    (by rw [k12.bucket]; exact hv.bucket)
  obtain ⟨es, hes, hns⟩ := hp3.digging
  replace hes : Digging qf2.metadata hash e.hash 0 es := hes
  replace hns : n3 = 0 + es.length := hns
  obtain rfl : n3 = n1 := by
    have := hwant2.length_unique (k12.digging hes)
    omega
  have hfull := hg3.represents
  rw [Entry.len_grow hp3.longer] at hfree3
  rw [Function.update_idem, Entry.grow_fresh (Nat.zero_lt_of_lt hp1.longer)] at hfull hfree3
  have hsteps := extendOther_of_steps hg hbk h1 k1 h2 k2 h3 hg3.keeps
  refine ⟨qf3.countItem 1, fun count => ?_, (k12.trans hg3.keeps).trans (.setCounts _ _ _ _),
    hfull.setCounts _ _ _, ?_, hp1.longer, hp1.apart⟩
  · rw [hsteps count flags, hp1.ret_eq, hp1.retHash_eq, hp3.retHash_eq, k12.fingerprint]
  · have hsame : (Table.contents
        (Function.update T b (t1 ++ ⟨key, hash, n3, []⟩ :: e.grow n3 :: t2))
        (qf3.countItem 1).metadata).free (qf3.countItem 1) index =
        (Table.contents (Function.update T b (t1 ++ ⟨key, hash, n3, []⟩ :: e.grow n3 :: t2))
          qf3.metadata).free qf3 index := rfl
    omega

theorem Represents.insertAndExtend (h : Represents qf T) (hT : T b = t1 ++ e :: t2)
    (hc : e.cnt.length ≤ 1) (hs : T.pos qf.metadata b t1 + (e.item qf.metadata).len < 2^31)
    (hk : keyToHash qf key flags = hash) (hk2 : keyToHash qf e.key flags = e.hash)
    (hh : hash < 2^64) (hne : e.hash ≠ hash) (hbk : qf.metadata.bucket hash = b)
    (hm : e.Matches qf.metadata hash)
    (hroom : ExtendRoom qf T b t1 e hash count) (hc1 : 0 < count)
    (hc2 : count < 2^64) {n : Nat} (hn : n = qf.metadata.grown e.hash hash 64 e.slots)
    (hcount : 1 < count → qf.metadata.bucket (keyToHash qf hash flags) = b ∧
      T.pos qf.metadata b t1 + 1 + n < 2^31) (retHash retOtherHash : Nat) :
    ∃ qf', insertAndExtend qf (T.pos qf.metadata b t1) key count e.key retHash retOtherHash flags =
        some (⟨(qf.metadata.fingerprintLen n : Int), qf.metadata.fingerprint hash n,
          qf.metadata.fingerprint e.hash n⟩, qf') ∧ qf.Keeps qf' ∧
      Represents qf' (Function.update T b
        (t1 ++ ⟨key, hash, n, counterOf qf.bits count⟩ :: e.grow n :: t2)) ∧
      e.slots < n ∧ ¬ (e.grow n).Matches qf.metadata hash := by
  unfold ExtendRoom at hroom
  obtain ⟨q1, hcall, k1, hr1, hfree, hlt, hapart⟩ :=
    h.extendOther_eq hT hc hs hh hne hbk hm key flags hn (by rw [hn]; omega)
  obtain ⟨index, hindex⟩ : ∃ x, x = T.pos qf.metadata b t1 := ⟨_, rfl⟩
  rw [← hindex] at hcall hroom hcount hfree ⊢
  have hv := h.valid b e (by simp [hT])
  have hid : minirunId qf hash = minirunId qf e.hash :=
    h.layout.geometry.minirunId_eq_iff.mpr
      ⟨hbk.trans hv.bucket.symm, (Entry.matches_iff.mp hm).1.symm⟩
  have hwork : ∀ out qf', extendOther qf index hash count e.hash flags = some (out, qf') →
      qf.Keeps qf' →
        AdaptiveQF.insertAndExtend qf index key count e.key retHash retOtherHash flags =
        some (out, qf') := by
    intro out qf' hext hkeep
    apply withLock_eq h.idle _ _ _ _ _ hkeep.locks
    simp only [hk, hk2, hid, ne_eq, not_true, if_false, hne.symm, hext]
  by_cases hone : count = 1
  · refine ⟨q1, hwork _ _ ?_ k1, k1, ?_, hlt, hapart⟩
    · rw [hcall, if_neg (by omega)]
      rfl
    · rw [counterOf, if_pos hone]
      exact hr1
  · have hgt : 1 < count := by omega
    obtain ⟨hbk2, hlow⟩ := hcount hgt
    have hT1 : Function.update T b (t1 ++ ⟨key, hash, n, []⟩ :: e.grow n :: t2) b =
      t1 ++ ⟨key, hash, n, []⟩ :: e.grow n :: t2 := Function.update_self ..
    have hpos1 : Table.pos (Function.update T b (t1 ++ ⟨key, hash, n, []⟩ :: e.grow n :: t2))
        q1.metadata b t1 = index := by
      rw [Table.pos_update, k1.pos, hindex]
    unfold Table.pos at hpos1
    have hlen : ((Entry.mk key hash n []).item q1.metadata).len = 1 + n := by
      simp [Entry.item, Item.len]
    have hplain : ((Entry.mk key hash n []).item q1.metadata).cnt = [] := rfl
    have hcnt1 : ((Entry.mk key hash n []).item q1.metadata).count q1.bits = 1 := if_pos hplain
    have hsum : 1 + (count - 1) = count := by omega
    have hnew : ((Entry.mk key hash n []).item q1.metadata).newSlots q1.bits (count-1) =
        (counterOf qf.bits count).length := by
      rw [Item.newSlots, hcnt1, hsum, hplain, k1.bits, counterOf, if_neg hone, List.length_nil,
        Nat.mul_zero, pow_zero, Nat.div_one]
    obtain ⟨q2, h2, k2, hlay2⟩ := hr1.layout.extendSame_eq (Represents.split_contents hT1 _)
      (by rw [hpos1, hlen]; omega) (.inl hplain) (keyToHash qf hash flags)
      (count-1) (by rw [k1.bucket]; exact hbk2) (by rw [hcnt1]; omega)
      (by rw [hpos1, hnew]; omega)
    rw [hpos1] at h2
    have k12 := k1.trans k2
    refine ⟨q2, hwork _ _ ?_ k12, k12, ?_, hlt, hapart⟩
    · rw [hcall, if_pos hgt, h2]
      rfl
    · have hrep := hr1.replace (l := t1 ++ ⟨key, hash, n, Nat.digits (2^q1.bits) count⟩ ::
        e.grow n :: t2) k2 (b := b) (by
          rw [Item.addCount_plain hplain, hsum] at hlay2
          rw [List.map_append, List.map_cons]
          exact hlay2) (by
          intro x hx
          have hvalid := hr1.valid b
          rw [hT1] at hvalid
          rcases List.mem_append.mp hx with hx | hx
          · exact hvalid x (by simp [hx])
          · rcases List.mem_cons.mp hx with rfl | hx
            · have hnew := hvalid ⟨key, hash, n, []⟩ (by simp)
              exact ⟨hnew.bucket, hnew.word, hnew.fits⟩
            · exact hvalid x
                (by simp only [List.mem_append, List.mem_cons]; right; right; simpa using hx))
      rw [Function.update_idem, k1.bits] at hrep
      rw [counterOf, if_neg hone]
      exact hrep

end

end AdaptiveQF
