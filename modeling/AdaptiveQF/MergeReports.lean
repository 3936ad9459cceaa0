import AdaptiveQF.MergeResult
import AdaptiveQF.Session

/-! Which fingerprints of two filters a merge puts together and reports. -/
namespace AdaptiveQF
open RunLayout Meld Outcome Digits

/-- The runs of a bucket show the same larger fingerprints in front of the two items with the
fingerprint of `it`. -/
def SameFront (w b : Nat) (it : Item) (a1 b1 : List Item) : Prop :=
  skyline (fingerKey w (b, it)) (a1.map fun x => fingerKey w (b, x)) =
    skyline (fingerKey w (b, it)) (b1.map fun x => fingerKey w (b, x))

instance (w b : Nat) (it : Item) (a1 b1 : List Item) : Decidable (SameFront w b it a1 b1) :=
  inferInstanceAs (Decidable (_ = _))

def Contents.countOf (A : Contents) (w b : Nat) (it : Item) : Nat :=
  ((A b).map fun x => if x.SameFinger it then x.count w else 0).sum

structure MergeTables (qfa qfb qfc : QF) (T : Bool → Table) : Prop where
  represents : ∀ x, Represents (mergeInputs qfa qfb x) (T x)
  first : ∀ x, (T x).OwnFirst (mergeInputs qfa qfb x).metadata
  setting : MergeSetting (mergeInputs qfa qfb)
    (fun x => (T x).contents (mergeInputs qfa qfb x).metadata) qfc

section
variable {w b n : Nat} {A : Contents} {it jt : Item} {l1 l2 : List Item}

theorem Item.SameFinger.key_eq (h : it.SameFinger jt) (w b : Nat) :
    fingerKey w (b, it) = fingerKey w (b, jt) := by
  simp only [fingerKey, Item.packedExt, h.1, h.2]

theorem Contents.itemsFrom_split (hb : A b = l1 ++ it :: l2) (hn : b < n) :
    ∃ l, A.itemsFrom n 0 = (l ++ l1.map (Prod.mk b)) ++
      (b, it) :: (l2.map (Prod.mk b) ++ A.itemsFrom n (b+1)) ∧ ∀ e ∈ l, e.1 < b := by
  refine ⟨(List.range' 0 b).flatMap fun c => (A c).map (Prod.mk c), ?_, fun e he => ?_⟩
  · have hrange : List.range' 0 n = List.range' 0 b ++ List.range' b (n - b) := by
      have happ := @List.range'_append_1 0 b (n - b)
      rw [Nat.zero_add, Nat.add_sub_cancel' hn.le] at happ
      exact happ.symm
    have hstep := A.itemsFrom_step hn
    rw [hb] at hstep
    unfold itemsFrom at hstep ⊢
    rw [Nat.sub_zero, hrange, List.flatMap_append, hstep]
    simp
  · obtain ⟨c, hc, hmem⟩ := List.mem_flatMap.mp he
    obtain ⟨x, -, rfl⟩ := List.mem_map.mp hmem
    have := List.mem_range'_1.mp hc
    exact (by omega : c < b)

/-- Items of smaller buckets are in no one's way. -/
theorem skyline_items {l : List (Nat × Item)} (hl : ∀ e ∈ l, e.1 < b) (it : Item) (l1 : List Item) :
    skyline (fingerKey w (b, it)) ((l ++ l1.map (Prod.mk b)).map (fingerKey w)) =
      skyline (fingerKey w (b, it)) (l1.map fun x => fingerKey w (b, x)) := by
  induction l with
  | nil =>
    rw [List.nil_append, List.map_map]
    rfl
  | cons e l ih =>
    have hlt : fingerKey w e < fingerKey w (b, it) :=
      key_lt_of_fst_lt (hl e List.mem_cons_self)
    rw [List.cons_append, List.map_cons, skyline_cons_of_le (hlt.le.trans (le_top ..))]
    exact ih fun f hf => hl f (.tail _ hf)

end

namespace MergeTables

variable {qfa qfb qfc : QF} {T : Bool → Table} {x : Bool} {b c : Nat} {e f : Entry}
  {a1 a2 b1 b2 : List Entry}

def items (qfa qfb : QF) (T : Bool → Table) (x : Bool) : List (Nat × Item) :=
  mergeItems (mergeInputs qfa qfb) (fun x => (T x).contents (mergeInputs qfa qfb x).metadata) x

variable (h : MergeTables qfa qfb qfc T)
include h

theorem item_eq (x : Bool) (e : Entry) :
    e.item (mergeInputs qfa qfb x).metadata = e.item qfc.metadata := by
  have hw : (mergeInputs qfa qfb x).metadata.bitsPerSlot = qfc.metadata.bitsPerSlot :=
    h.setting.bits x
  have hq : (mergeInputs qfa qfb x).metadata.quotientBits = qfc.metadata.quotientBits :=
    h.setting.qbits x
  simp only [Entry.item, QFMetadata.remainder, QFMetadata.extension, hw, hq]

theorem mem_items {it : Item} :
    (b, it) ∈ items qfa qfb T x ↔ ∃ e ∈ T x b, it = e.item qfc.metadata := by
  rw [items, h.setting.mem_items, Table.contents, List.mem_map]
  constructor
  · rintro ⟨e, he, rfl⟩
    exact ⟨e, he, h.item_eq x e⟩
  · rintro ⟨e, he, rfl⟩
    exact ⟨e, he, h.item_eq x e⟩

theorem stored (he : e ∈ T x b) : (e.item qfc.metadata).Stored qfc.metadata :=
  h.setting.stored (h.mem_items.mpr ⟨e, he, rfl⟩)

theorem key_inj (he : e ∈ T x b) {y : Bool} (hf : f ∈ T y c) :
    fingerKey qfc.bits (b, e.item qfc.metadata) = fingerKey qfc.bits (c, f.item qfc.metadata) ↔
      b = c ∧ (e.item qfc.metadata).SameFinger (f.item qfc.metadata) := by
  have hw := h.setting.bits_ge
  exact fingerKey_inj (h.stored he) (h.stored hf) (by exact (by omega : 0 < qfc.bits))

theorem matches_iff (x : Bool) (e : Entry) (y : Nat) :
    e.Matches (mergeInputs qfa qfb x).metadata y ↔ e.Matches qfc.metadata y := by
  have hw : (mergeInputs qfa qfb x).metadata.bitsPerSlot = qfc.metadata.bitsPerSlot :=
    h.setting.bits x
  have hq : (mergeInputs qfa qfb x).metadata.quotientBits = qfc.metadata.quotientBits :=
    h.setting.qbits x
  simp only [Entry.matches_iff, QFMetadata.remainder, QFMetadata.extension, hw, hq]

theorem nodup (x : Bool) : ((items qfa qfb T x).map (fingerKey qfc.bits)).Nodup := by
  unfold items mergeItems Contents.itemsFrom List.Nodup
  rw [List.pairwise_map, List.pairwise_flatMap]
  constructor
  · intro b _
    simp only [Table.contents, List.pairwise_map]
    refine (h.first x b).imp_of_mem fun {e f} he hf hno heq => hno ?_
    rw [h.item_eq, h.item_eq, h.key_inj he hf] at heq
    obtain ⟨-, hrem, hext⟩ := heq
    have hext' : qfc.metadata.extension e.hash e.slots = qfc.metadata.extension f.hash f.slots :=
      hext
    have hslots := congrArg List.length hext'
    rw [QFMetadata.length_extension, QFMetadata.length_extension] at hslots
    rw [h.matches_iff, Entry.matches_iff]
    exact ⟨hrem, by rw [hext', hslots]⟩
  · refine (List.pairwise_lt_range' (s := 0) _).imp fun {b c} hbc e he f hf heq => ?_
    obtain ⟨x1, -, rfl⟩ := List.mem_map.mp he
    obtain ⟨x2, -, rfl⟩ := List.mem_map.mp hf
    have := fst_eq_of_key heq
    exact absurd this (by exact (by omega : b ≠ c))

theorem valid (he : e ∈ T x b) : e.Valid qfc.metadata b := by
  obtain ⟨hb, hh, hfit⟩ := (h.represents x).valid b e he
  have hw : (mergeInputs qfa qfb x).metadata.bitsPerSlot = qfc.metadata.bitsPerSlot :=
    h.setting.bits x
  have hq : (mergeInputs qfa qfb x).metadata.quotientBits = qfc.metadata.quotientBits :=
    h.setting.qbits x
  rw [hw, hq] at hfit
  refine ⟨?_, hh, hfit⟩
  rw [← hb, QFMetadata.bucket, QFMetadata.bucket, hw, hq]

/-- What is reported of an item is the fingerprint of its hash and its length. -/
theorem reported_eq (he : e ∈ T x b) : reported qfc (b, e.item qfc.metadata) =
    (qfc.metadata.fingerprint e.hash e.slots, qfc.metadata.fingerprintLen e.slots) := by
  have hgeo := h.setting.zeroed.geometry
  have hst := h.stored he
  obtain ⟨hb, hh, -⟩ := h.valid he
  have hfp := hgeo.fingerprint_eq hh hst.bounded hst.fits (e.matches_self qfc.metadata)
  have hlen : (e.item qfc.metadata).ext.length = e.slots := QFMetadata.length_extension ..
  rw [hlen, hgeo.minirunId_eq] at hfp
  have hsum := hgeo.hashBits
  have hbucket : b < 2^qfc.qbits := hb ▸ Nat.mod_lt _ (Nat.two_pow_pos _)
  have hlt : b * 2^qfc.bits < 2^64 := by
    calc b * 2^qfc.bits < 2^qfc.qbits * 2^qfc.bits :=
          Nat.mul_lt_mul_of_pos_right hbucket (Nat.two_pow_pos _)
      _ = 2^(qfc.qbits + qfc.bits) := (pow_add ..).symm
      _ ≤ 2^64 := Nat.pow_le_pow_right (by omega) (by exact hsum.le)
  have hlow : (e.item qfc.metadata).rem ||| shl64 b qfc.bits =
      e.hash % 2^(qfc.qbits + qfc.bits) := by
    have hmod : e.hash % 2^(qfc.qbits + qfc.bits) = e.hash % (2^qfc.bits * 2^qfc.qbits) := by
      rw [← pow_add, Nat.add_comm]
    rw [shl64_eq (by exact (by omega : qfc.metadata.bitsPerSlot < 64)) hlt, ← Nat.shiftLeft_eq,
      or_shiftLeft hst.bounded.rem, hmod, Nat.mod_mul, Nat.mul_comm b, ← hb]
    rfl
  refine Prod.ext ?_ ?_
  · show (e.item qfc.metadata).rem ||| shl64 b qfc.bits ||| _ = _
    rw [hlow]
    exact hfp
  · show (e.item qfc.metadata).ext.length * qfc.bits + qfc.qbits + qfc.bits = _
    rw [hlen, Nat.mul_comm]
    rfl

/-- No other item is reported in the same way. -/
theorem reported_inj (he : e ∈ T x b) {y : Bool} (hf : f ∈ T y c)
    (heq : reported qfc (b, e.item qfc.metadata) = reported qfc (c, f.item qfc.metadata)) :
    b = c ∧ (e.item qfc.metadata).SameFinger (f.item qfc.metadata) := by
  have hw := h.setting.bits_ge
  rw [h.reported_eq he, h.reported_eq hf] at heq
  obtain ⟨hhash, hlen⟩ := Prod.mk.inj heq
  have hslots : e.slots = f.slots := by
    unfold QFMetadata.fingerprintLen at hlen
    exact Nat.eq_of_mul_eq_mul_left (show 0 < qfc.metadata.bitsPerSlot by
      exact (by omega : 0 < qfc.bits)) (by omega)
  rw [hslots, QFMetadata.fingerprint_eq_iff] at hhash
  obtain ⟨hb, hrem, hext⟩ := hhash
  refine ⟨?_, hrem, ?_⟩
  · rw [← (h.valid he).bucket, ← (h.valid hf).bucket, hb]
  · show qfc.metadata.extension e.hash e.slots = qfc.metadata.extension f.hash f.slots
    rw [hslots, hext]

theorem unique (he : e ∈ T x b) {z : Nat × Item} (hz : z ∈ items qfa qfb T x)
    (hk : fingerKey qfc.bits z = fingerKey qfc.bits (b, e.item qfc.metadata)) :
    z = (b, e.item qfc.metadata) :=
  List.inj_on_of_nodup_map (h.nodup x) hz (h.mem_items.mpr ⟨e, he, rfl⟩) hk

theorem items_split {t1 t2 : List Entry} (hT : T x b = t1 ++ e :: t2) : ∃ l l2,
    items qfa qfb T x = (l ++ (t1.map (Entry.item qfc.metadata)).map (Prod.mk b)) ++
      (b, e.item qfc.metadata) :: l2 ∧ ∀ g ∈ l, g.1 < b := by
  have hitem : Entry.item (mergeInputs qfa qfb x).metadata = Entry.item qfc.metadata :=
    funext (h.item_eq x)
  have hsplit : (T x).contents (mergeInputs qfa qfb x).metadata b =
      t1.map (Entry.item qfc.metadata) ++ e.item qfc.metadata ::
        t2.map (Entry.item qfc.metadata) := by
    rw [Represents.split_contents hT, hitem]
  have hlt := (h.setting.wf x).toLayout.bucket_lt hsplit
  obtain ⟨l, hl, hless⟩ := Contents.itemsFrom_split hsplit hlt
  exact ⟨l, _, hl, hless⟩

/-- Two items of one fingerprint meet if and only if their runs agree in front of them. -/
theorem mem_paired_iff (ha : T false b = a1 ++ e :: a2) (hb : T true b = b1 ++ f :: b2)
    (hsame : (e.item qfc.metadata).SameFinger (f.item qfc.metadata)) :
    ((b, e.item qfc.metadata), (b, f.item qfc.metadata)) ∈ paired qfc.bits (items qfa qfb T) ↔
      SameFront qfc.bits b (e.item qfc.metadata) (a1.map (Entry.item qfc.metadata))
        (b1.map (Entry.item qfc.metadata)) := by
  obtain ⟨la, ta, hla, hlessa⟩ := h.items_split ha
  obtain ⟨lb, tb, hlb, hlessb⟩ := h.items_split hb
  rw [paired, mem_met_iff (h.nodup false) (h.nodup true) hla hlb (hsame.key_eq qfc.bits b),
    skyline_items hlessa, skyline_items hlessb]
  rfl

/-- A reported fingerprint is that of a pair that has met. -/
theorem mem_reported_iff (ha : e ∈ T false b) (hb : f ∈ T true b)
    (hsame : (e.item qfc.metadata).SameFinger (f.item qfc.metadata)) :
    (qfc.metadata.fingerprint e.hash e.slots, qfc.metadata.fingerprintLen e.slots) ∈
        (paired qfc.bits (items qfa qfb T)).map (fun p => reported qfc p.1) ↔
      ((b, e.item qfc.metadata), (b, f.item qfc.metadata)) ∈
        paired qfc.bits (items qfa qfb T) := by
  rw [← h.reported_eq ha]
  constructor
  · intro hmem
    obtain ⟨⟨⟨c, it⟩, ⟨d, jt⟩⟩, hp, heq⟩ := List.mem_map.mp hmem
    obtain ⟨h1, h2, hk⟩ := mem_met hp
    obtain ⟨e', he', rfl⟩ := h.mem_items.mp h1
    obtain ⟨f', hf', rfl⟩ := h.mem_items.mp h2
    obtain ⟨rfl, hfinger⟩ := h.reported_inj he' ha heq
    obtain ⟨rfl, hfinger'⟩ := (h.key_inj he' hf').mp hk
    have hself := h.unique ha h1 (hfinger.key_eq qfc.bits c)
    have hself' := h.unique hb h2
      ((hk.symm.trans (hfinger.key_eq qfc.bits c)).trans (hsame.key_eq qfc.bits c))
    rw [← hself, ← hself']
    exact hp
  · exact fun hmem => List.mem_map.mpr ⟨_, hmem, rfl⟩

theorem countP_gather (he : e ∈ T x b) :
    (gather (melded qfc.bits (items qfa qfb T)) b).countP
        (fun z => z.SameFinger (e.item qfc.metadata)) =
      ((melded qfc.bits (items qfa qfb T)).map (fingerKey qfc.bits)).count
        (fingerKey qfc.bits (b, e.item qfc.metadata)) := by
  rw [gather, List.countP_map, List.countP_filter, List.count, List.countP_map]
  refine List.countP_congr fun z hz => ?_
  -- the item of an entry that has become this one
  obtain ⟨y, c, g, hg, h1, h2⟩ : ∃ y c g, g ∈ T y c ∧ z.1 = c ∧
      z.2.SameFinger (g.item qfc.metadata) := by
    rcases mem_meld hz with ⟨⟨c, it⟩, hm, rfl⟩ | ⟨⟨c, it⟩, hm, -, -, -, rfl⟩
    · rcases List.mem_append.mp hm with hm | hm
      · obtain ⟨g, hg, rfl⟩ := h.mem_items.mp hm
        exact ⟨false, c, g, hg, rfl, rfl, rfl⟩
      · obtain ⟨g, hg, rfl⟩ := h.mem_items.mp hm
        exact ⟨true, c, g, hg, rfl, rfl, rfl⟩
    · obtain ⟨g, hg, rfl⟩ := h.mem_items.mp hm
      exact ⟨false, c, g, hg, rfl, rfl, rfl⟩
  have hkey : fingerKey qfc.bits z = fingerKey qfc.bits (c, g.item qfc.metadata) := by
    rw [← h1]
    exact h2.key_eq qfc.bits z.1
  have hiff := h.key_inj hg he
  simp only [Function.comp_apply, Bool.and_eq_true, decide_eq_true_eq, beq_iff_eq, hkey, hiff, h1,
    Item.SameFinger, h2.1, h2.2]
  tauto

/-- The two items of a fingerprint become one if they have met. -/
theorem countP_melded (ha : e ∈ T false b) (hb : f ∈ T true b)
    (hsame : (e.item qfc.metadata).SameFinger (f.item qfc.metadata)) :
    (gather (melded qfc.bits (items qfa qfb T)) b).countP
        (fun z => z.SameFinger (e.item qfc.metadata)) =
      if ((b, e.item qfc.metadata), (b, f.item qfc.metadata)) ∈
        paired qfc.bits (items qfa qfb T) then 1 else 2 := by
  have hk := hsame.key_eq qfc.bits b
  have hcount : ((melded qfc.bits (items qfa qfb T)).map (fingerKey qfc.bits)).count
        (fingerKey qfc.bits (b, e.item qfc.metadata)) +
      (((met (fingerKey qfc.bits) (items qfa qfb T false) (items qfa qfb T true)).map Prod.fst).map
        (fingerKey qfc.bits)).count (fingerKey qfc.bits (b, e.item qfc.metadata)) =
      ((items qfa qfb T false).map (fingerKey qfc.bits)).count
          (fingerKey qfc.bits (b, e.item qfc.metadata)) +
        ((items qfa qfb T true).map (fingerKey qfc.bits)).count
          (fingerKey qfc.bits (b, e.item qfc.metadata)) :=
    countP_meld (fingerKey_mergedOne qfc.bits) (fingerKey_mergedTwo qfc.bits) _
  have hma := List.mem_map_of_mem (f := fingerKey qfc.bits) (h.mem_items.mpr ⟨e, ha, rfl⟩)
  have hmb := List.mem_map_of_mem (f := fingerKey qfc.bits) (h.mem_items.mpr ⟨f, hb, rfl⟩)
  rw [← hk] at hmb
  have hnd : (((met (fingerKey qfc.bits) (items qfa qfb T false) (items qfa qfb T true)).map
      Prod.fst).map (fingerKey qfc.bits)).Nodup :=
    (h.nodup false).sublist ((met_fst_sublist ..).map _)
  rw [List.count_eq_one_of_mem (h.nodup false) hma, List.count_eq_one_of_mem (h.nodup true) hmb]
    at hcount
  rw [h.countP_gather ha]
  by_cases hmet : ((b, e.item qfc.metadata), (b, f.item qfc.metadata)) ∈
      paired qfc.bits (items qfa qfb T)
  · have hin := List.mem_map_of_mem (f := fingerKey qfc.bits)
      (List.mem_map_of_mem (f := Prod.fst) hmet)
    have hcm := List.count_eq_one_of_mem hnd hin
    rw [if_pos hmet]
    exact Nat.add_right_cancel (hcount.trans (by rw [hcm]))
  · have hout : fingerKey qfc.bits (b, e.item qfc.metadata) ∉
        ((met (fingerKey qfc.bits) (items qfa qfb T false) (items qfa qfb T true)).map
          Prod.fst).map (fingerKey qfc.bits) := by
      intro hin
      obtain ⟨u, hu, hku⟩ := List.mem_map.mp hin
      obtain ⟨⟨v, z⟩, hp, rfl⟩ := List.mem_map.mp hu
      obtain ⟨h1, h2, hvz⟩ := mem_met hp
      have hv := h.unique ha h1 hku
      have hz := h.unique hb h2 ((hvz.symm.trans hku).trans hk)
      rw [hv, hz] at hp
      exact hmet hp
    rw [List.count_eq_zero_of_not_mem hout] at hcount
    rw [if_neg hmet]
    exact hcount

end MergeTables

section
variable {qfa qfb qfc qf' : QF} {coll : List (Nat × Nat)} {qfi : QFi}

theorem mergeable_of_merge {r : QF × List (Nat × Nat)}
    (h : qfMergeRet qfa qfb qfc qfi true = some r) :
    Mergeable qfa qfb qfc := by
  by_contra hm
  rw [qfMergeRet, if_neg hm] at h
  exact absurd h (Option.some_ne_none _).symm

/-- A merge loses and invents no count, whether or not items have met, if no sum of two counts is
too large for a word. -/
theorem merge_keeps_counts {D : Bool → Contents} (hs : MergeSetting (mergeInputs qfa qfb) D qfc)
    (hne : ∃ x b, D x b ≠ []) (hmerge : qfMergeRet qfa qfb qfc qfi true = some (qf', coll))
    (hsum : ∀ p ∈ paired qfc.bits (mergeItems (mergeInputs qfa qfb) D),
      p.1.2.count qfc.bits + p.2.2.count qfc.bits < 2^64) :
    ∃ C, Laid qf' C ∧ ∀ b it, C.countOf qfc.bits b it =
      (D false).countOf qfc.bits b it + (D true).countOf qfc.bits b it := by
  have hitems : ∃ x, mergeItems (mergeInputs qfa qfb) D x ≠ [] := by
    obtain ⟨x, b, hb⟩ := hne
    obtain ⟨it, hit⟩ := List.exists_mem_of_ne_nil _ hb
    exact ⟨x, List.ne_nil_of_mem (hs.mem_items.mpr hit)⟩
  obtain ⟨-, hlaid, -⟩ :=
    (qfMergeRet_delivers hs (mergeable_of_merge hmerge) hitems qfi).post _ hmerge
  refine ⟨_, hlaid, fun b it => ?_⟩
  have hw := hs.bits_ge
  have hw' : 0 < qfc.metadata.bitsPerSlot := by exact (by omega : 0 < qfc.bits)
  have hgather : ∀ x, gather (mergeItems (mergeInputs qfa qfb) D x) = D x :=
    fun x => gather_itemsFrom (hs.wf x).outside
  rw [← hgather false, ← hgather true]
  unfold Contents.countOf
  rw [sum_gather, sum_gather, sum_gather]
  refine sum_meld_eq (fun e he => ?_) fun p hp => ?_
  · have he' : ∃ x, e ∈ mergeItems (mergeInputs qfa qfb) D x :=
      (List.mem_append.mp he).elim (fun he => ⟨false, he⟩) fun he => ⟨true, he⟩
    obtain ⟨x, he'⟩ := he'
    have hcount : (mergedOne qfc.bits e).2.count qfc.bits = e.2.count qfc.bits :=
      Item.count_counterOf hw' ((hs.stored he').counts.count_pos hw') (hs.count_lt he') e.2
    rw [hcount]
    rfl
  · obtain ⟨ha, hb, hk⟩ := mem_met hp
    have hsa := hs.stored ha
    have hsb := hs.stored hb
    have hless := hsum p hp
    obtain ⟨hfst, hfinger⟩ := (fingerKey_inj (b := p.1.1) (c := p.2.1) hsa hsb hw').mp hk
    have hcount : (mergedTwo qfc.bits p.1 p.2).2.count qfc.bits =
        p.1.2.count qfc.bits + p.2.2.count qfc.bits := by
      rw [mergedTwo, Nat.mod_eq_of_lt hless]
      exact Item.count_counterOf hw' (Nat.add_pos_left (hsa.counts.count_pos hw') _) hless p.1.2
    have hiff : p.2.2.SameFinger it ↔ p.1.2.SameFinger it := by
      unfold Item.SameFinger
      rw [hfinger.1, hfinger.2]
    rw [hcount, ← hfst, if_congr hiff rfl rfl]
    show (if p.1.1 = b then if p.1.2.SameFinger it then _ else 0 else 0) = _
    by_cases hbucket : p.1.1 = b
    · by_cases hf : p.1.2.SameFinger it
      · simp only [if_pos hbucket, if_pos hf]
      · simp only [if_pos hbucket, if_neg hf]
    · simp only [if_neg hbucket]

/-- A fingerprint that both filters store becomes one item and is reported if and only if the two
runs show the same larger fingerprints in front of it. Otherwise there are two items with it. -/
theorem merge_meets {T : Bool → Table} (h : MergeTables qfa qfb qfc T)
    (hmerge : qfMergeRet qfa qfb qfc qfi true = some (qf', coll)) {b : Nat} {e f : Entry}
    {a1 a2 b1 b2 : List Entry} (ha : T false b = a1 ++ e :: a2) (hb : T true b = b1 ++ f :: b2)
    (hsame : (e.item qfc.metadata).SameFinger (f.item qfc.metadata)) :
    ∃ C, Laid qf' C ∧
      (C b).countP (fun z => z.SameFinger (e.item qfc.metadata)) =
        (if SameFront qfc.bits b (e.item qfc.metadata) (a1.map (Entry.item qfc.metadata))
          (b1.map (Entry.item qfc.metadata)) then 1 else 2) ∧
      ((qfc.metadata.fingerprint e.hash e.slots, qfc.metadata.fingerprintLen e.slots) ∈ coll ↔
        SameFront qfc.bits b (e.item qfc.metadata) (a1.map (Entry.item qfc.metadata))
          (b1.map (Entry.item qfc.metadata))) := by
  have hae : e ∈ T false b := by rw [ha]; simp
  have hbf : f ∈ T true b := by rw [hb]; simp
  have hitems : ∃ x, MergeTables.items qfa qfb T x ≠ [] :=
    ⟨false, List.ne_nil_of_mem (h.mem_items.mpr ⟨e, hae, rfl⟩)⟩
  obtain ⟨-, hlaid, hcoll⟩ :=
    (qfMergeRet_delivers h.setting (mergeable_of_merge hmerge) hitems qfi).post _ hmerge
  have hmeet := h.mem_paired_iff ha hb hsame
  refine ⟨_, hlaid, ?_, ?_⟩
  · rw [← if_congr hmeet rfl rfl]
    exact h.countP_melded hae hbf hsame
  · have hcoll' : coll = _ := hcoll
    rw [hcoll', ← hmeet]
    exact h.mem_reported_iff hae hbf hsame

end

/-! Two filters of 8 slots of 2 bits that store the hashes 32 and 64 in a different order. -/

def meetTable (x : Bool) : Table := Function.update Table.empty 0
  (bif x then [⟨32, 32, 1, []⟩, ⟨64, 64, 1, []⟩] else [⟨64, 64, 1, []⟩, ⟨32, 32, 1, []⟩])

def meetFilter (x : Bool) : QF := QF.ofContents mergeMetadata ((meetTable x).contents mergeMetadata)

theorem meetTable_mem {x : Bool} {b : Nat} {e : Entry} (he : e ∈ meetTable x b) :
    b = 0 ∧ (e = ⟨32, 32, 1, []⟩ ∨ e = ⟨64, 64, 1, []⟩) := by
  by_cases hb : b = 0
  · subst hb
    cases x with
    | false => simpa [meetTable, or_comm] using he
    | true => simpa [meetTable] using he
  · simp [meetTable, hb, Table.empty] at he

theorem meetFilter_represents (x : Bool) : Represents (meetFilter x) (meetTable x) := by
  refine Table.bucket_represents mergeMetadata_geometry (by decide) (fun e he => ?_)
    (by cases x <;> simp) ?_ (by cases x <;> decide)
  · have hmem : e ∈ meetTable x 0 := by
      rw [meetTable, Function.update_self]
      exact he
    rcases (meetTable_mem hmem).2 with rfl | rfl
    · exact ⟨⟨rfl, by decide, by decide⟩, rfl⟩
    · exact ⟨⟨rfl, by decide, by decide⟩, rfl⟩
  · cases x <;> decide

theorem meetTable_tables :
    MergeTables (meetFilter false) (meetFilter true) mergeEmpty meetTable := by
  have hinput : ∀ x, mergeInputs (meetFilter false) (meetFilter true) x = meetFilter x := by
    intro x
    cases x <;> rfl
  have hfirst : ∀ x b, (meetTable x b).Pairwise fun e f => ¬ e.Matches mergeMetadata f.hash := by
    intro x b
    by_cases hb : b = 0
    · subst hb
      rw [meetTable, Function.update_self]
      cases x <;> decide
    · rw [meetTable, Function.update_of_ne hb]
      exact .nil
  refine ⟨fun x => ?_, fun x => ?_, fun x => ?_, fun x => ?_, fun x b it hit => ?_,
    mergeEmpty_zeroed, fun x => ?_, fun x => ?_, ?_⟩
  · rw [hinput]
    exact meetFilter_represents x
  · rw [hinput]
    exact hfirst x
  · rw [hinput]
    exact (meetFilter_represents x).wf
  · rw [hinput]
    refine (meetFilter_represents x).wf.toLayout.runsOn ?_ 0
    cases x <;> decide
  · obtain ⟨e, he, rfl⟩ := List.mem_map.mp hit
    rcases (meetTable_mem he).2 with rfl | rfl <;> exact .inl rfl
  · rw [hinput]
    rfl
  · rw [hinput]
    rfl
  · have hlens : Contents.lens (fun b => (meetTable false).contents mergeMetadata b ++
        (meetTable true).contents mergeMetadata b) = Function.update (fun _ => 0) 0 8 := by
      funext b
      by_cases hb : b = 0
      · subst hb
        decide
      · simp [Contents.lens, Table.contents, meetTable, hb, Table.empty]
    show ends (Contents.lens fun b => (meetTable false).contents mergeMetadata b ++
        (meetTable true).contents mergeMetadata b) _ ≤ _
    rw [hlens, ends_single (by decide)]
    decide

theorem meetFilter_merges : ∃ r,
    qfMergeRet (meetFilter false) (meetFilter true) mergeEmpty ⟨0, 0⟩ true = some r :=
  Option.isSome_iff_exists.mp (by decide +kernel)

/-- Hash 32 stands behind hash 64 in one filter and in front of it in the other: it is left twice
and not reported, and hash 64 is reported. -/
theorem merge_meets_small : ∃ qf' coll,
    qfMergeRet (meetFilter false) (meetFilter true) mergeEmpty ⟨0, 0⟩ true = some (qf', coll) ∧
    (∃ C, Laid qf' C ∧ (C 0).countP (fun z => z.SameFinger ⟨0, [1], []⟩) = 2 ∧
      ((32, 7) ∈ coll ↔ False)) ∧
    ∃ C, Laid qf' C ∧ (C 0).countP (fun z => z.SameFinger ⟨0, [2], []⟩) = 1 ∧
      ((64, 7) ∈ coll ↔ True) := by
  obtain ⟨⟨qf', coll⟩, hmerge⟩ := meetFilter_merges
  obtain ⟨C, hlaid, hcount, hcoll⟩ := merge_meets meetTable_tables hmerge
    (show meetTable false 0 = [⟨64, 64, 1, []⟩] ++ ⟨32, 32, 1, []⟩ :: [] from rfl)
    (show meetTable true 0 = [] ++ ⟨32, 32, 1, []⟩ :: [⟨64, 64, 1, []⟩] from rfl) ⟨rfl, rfl⟩
  obtain ⟨C2, hlaid2, hcount2, hcoll2⟩ := merge_meets meetTable_tables hmerge
    (show meetTable false 0 = [] ++ ⟨64, 64, 1, []⟩ :: [⟨32, 32, 1, []⟩] from rfl)
    (show meetTable true 0 = [⟨32, 32, 1, []⟩] ++ ⟨64, 64, 1, []⟩ :: [] from rfl) ⟨rfl, rfl⟩
  exact ⟨qf', coll, hmerge, ⟨C, hlaid, hcount.trans (by decide), hcoll.trans (by decide)⟩,
    C2, hlaid2, hcount2.trans (by decide), hcoll2.trans (by decide)⟩

theorem merge_keeps_counts_small : ∃ qf' coll C,
    qfMergeRet (meetFilter false) (meetFilter true) mergeEmpty ⟨0, 0⟩ true = some (qf', coll) ∧
      Laid qf' C ∧ C.countOf 2 0 ⟨0, [1], []⟩ = 2 := by
  obtain ⟨⟨qf', coll⟩, hmerge⟩ := meetFilter_merges
  have hone : ∀ x, ∀ e ∈ MergeTables.items (meetFilter false) (meetFilter true) meetTable x,
      e.2.count 2 = 1 := by
    rintro x ⟨b, it⟩ he
    obtain ⟨f, hf, rfl⟩ := meetTable_tables.mem_items.mp he
    rcases (meetTable_mem hf).2 with rfl | rfl <;> rfl
  obtain ⟨C, hlaid, hcount⟩ := merge_keeps_counts meetTable_tables.setting
    ⟨false, 0, by decide⟩ hmerge fun p hp => by
      obtain ⟨ha, hb, -⟩ := mem_met hp
      have h1 : p.1.2.count 2 = 1 := hone false p.1 ha
      have h2 : p.2.2.count 2 = 1 := hone true p.2 hb
      show p.1.2.count 2 + p.2.2.count 2 < 2^64
      omega
  exact ⟨qf', coll, C, hmerge, hlaid, (hcount 0 ⟨0, [1], []⟩).trans (by decide)⟩

end AdaptiveQF
