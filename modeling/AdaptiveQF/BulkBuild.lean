import AdaptiveQF.Build
import AdaptiveQF.BulkFingerprints

/-! What `qf_bulk_insert` builds from a sorted list of hashes: the layout of their items. -/
namespace AdaptiveQF
open RunLayout Digits

/-! The calls of `_merge_insert` fill the buckets one after the other. -/

def MergeCall.item (w : Nat) (c : MergeCall) : Item := builtItem w c.rem c.ext c.extLen c.count

def Contents.put (w : Nat) (A : Contents) (c : MergeCall) : Contents :=
  Function.update A c.run (A c.run ++ [c.item w])

def Contents.putAll (w : Nat) (A : Contents) (calls : List MergeCall) : Contents :=
  calls.foldl (Contents.put w) A

section
variable {qf q0 : QF} {A C : Contents} {w : Nat} {c : MergeCall} {calls : List MergeCall}

theorem Contents.put_self (w : Nat) (A : Contents) (c : MergeCall) :
    put w A c c.run = A c.run ++ [c.item w] := Function.update_self ..

theorem Contents.put_of_ne (w : Nat) (A : Contents) {b : Nat} (h : b ≠ c.run) :
    put w A c b = A b := Function.update_of_ne h ..

theorem Contents.put_ne_nil (w : Nat) (A : Contents) (c : MergeCall) (b : Nat) :
    put w A c b ≠ [] ↔ A b ≠ [] ∨ b = c.run := by
  by_cases hb : b = c.run
  · subst hb
    simp [put_self]
  · rw [put_of_ne _ _ hb]
    simp [hb]

theorem Contents.putAll_apply (w : Nat) (A : Contents) (calls : List MergeCall) (b : Nat) :
    putAll w A calls b = A b ++ (calls.filter fun c => c.run = b).map (MergeCall.item w) := by
  induction calls generalizing A with
  | nil => simp [putAll]
  | cons c calls ih =>
    have hcons : putAll w A (c :: calls) = putAll w (put w A c) calls := rfl
    rw [hcons, ih]
    by_cases hb : c.run = b
    · subst hb
      rw [put_self]
      simp
    · rw [put_of_ne _ _ (Ne.symm hb)]
      simp [hb]

theorem Contents.lens_le_putAll (w : Nat) (A : Contents) (calls : List MergeCall) (b : Nat) :
    A.lens b ≤ (putAll w A calls).lens b := by
  rw [lens, lens, putAll_apply, itemsLen_append]
  omega

theorem Building.putCall {last : Bool} (hb : Building qf A c.run (initCells (A c.run)))
    (hq : Readied qf (A.pos c.run (A c.run)) last q0) (hcount : c.count < 2^64)
    (hx : qf.xnslots < 2^31) (hfit : C.Fits qf.metadata)
    (hle : ∀ b, (Contents.put qf.bits A c).lens b ≤ C.lens b) :
    ∃ q1, mergeInsert q0 (A.pos c.run (A c.run)) c.run c.rem c.ext c.extLen c.count =
        some (q1, Contents.pos (A.put qf.bits c) c.run (A.put qf.bits c c.run)) ∧
      qf.SameFrame q1 ∧ q1.view.occupied = q0.view.occupied ∧
      Building q1 (A.put qf.bits c) c.run (initCells (A c.run) ++ (c.item qf.bits).cells last) := by
  have hmeta : q0.metadata = qf.metadata := hq.frame.metadata
  have hne : A.put qf.bits c c.run ≠ [] := by simp [Contents.put_self]
  have hend := Contents.end_le hfit.outside hfit.extent hle hne
  have hpos : Contents.pos (A.put qf.bits c) c.run (A.put qf.bits c c.run) =
      A.pos c.run (A c.run ++ [c.item qf.bits]) := by
    rw [Contents.put_self, Contents.put, Contents.pos_update]
  rw [hpos] at hend ⊢
  exact hb.put hx hq hcount rfl hend

/-- The calls of a list that is sorted by bucket build the layout of their items. -/
theorem placeCalls_wf (hb : Building qf A c.run (initCells (A c.run)))
    (hocc : ∀ x, qf.view.occupied x = decide (A x ≠ [] ∨ x = c.run))
    (hsorted : ((c :: calls).map MergeCall.run).Pairwise (· ≤ ·))
    (hcount : ∀ d ∈ c :: calls, d.count < 2^64) (hx : qf.xnslots < 2^31)
    (hC : C = A.putAll qf.bits (c :: calls)) (hfit : C.Fits qf.metadata)
    (hspill : ∀ j, spill C.lens (64*j) ≤ 64) :
    ∃ qf', placeCalls qf (A.pos c.run (A c.run)) (c :: calls) = some qf' ∧ qf.SameFrame qf' ∧
      WF qf' C := by
  induction calls generalizing qf A c with
  | nil =>
    have hCA : C = A.put qf.bits c := hC
    obtain ⟨q1, hput, hf, hocc1, h1⟩ := hb.putCall (Readied.orRunend qf _) (hcount c (by simp)) hx
      hfit fun b => by rw [hCA]
    refine ⟨q1, ?_, hf, ?_⟩
    · rw [placeCalls, hput]
      rfl
    · rw [hCA] at hfit hspill ⊢
      refine h1.wf ?_ ?_ (fun x => ?_) hspill
      · rw [Contents.put_self, runCells_concat]
      · rw [hf.metadata]
        exact hfit
      · have hmark : (orRunend qf (A.pos c.run (A c.run))).view.occupied = qf.view.occupied := by
          rw [view_orRunend]
          rfl
        rw [hocc1, hmark, hocc]
        exact decide_eq_decide.mpr (Contents.put_ne_nil ..).symm
  | cons next calls ih =>
    have hCA : C = (A.put qf.bits c).putAll qf.bits (next :: calls) := hC
    have hle : ∀ b, (A.put qf.bits c).lens b ≤ C.lens b := by
      intro b
      rw [hCA]
      exact Contents.lens_le_putAll ..
    rw [List.map_cons, List.pairwise_cons] at hsorted
    have hrun : c.run ≤ next.run := hsorted.1 _ (by simp)
    have hrest : ∀ d ∈ next :: calls, d.count < 2^64 := fun d hd => hcount d (.tail _ hd)
    -- the state behind the call, for the calls that are left
    have hgo : ∀ {q1 : QF}, qf.SameFrame q1 →
        Building q1 (A.put qf.bits c) next.run (initCells (A.put qf.bits c next.run)) →
        (∀ x, q1.view.occupied x = decide (A.put qf.bits c x ≠ [] ∨ x = next.run)) →
        ∃ qf', placeCalls q1 (Contents.pos (A.put qf.bits c) next.run (A.put qf.bits c next.run))
          (next :: calls) = some qf' ∧ qf.SameFrame qf' ∧ WF qf' C := by
      intro q1 hf h1 hocc1
      have hk := QF.Keeps.of_sameFrame hf
      obtain ⟨qf', hplace, hf', hwf⟩ := ih h1 hocc1 hsorted.2 hrest (by rw [hk.xnslots]; exact hx)
        (by rw [hk.bits]; exact hCA) (by rw [hf.metadata]; exact hfit)
      exact ⟨qf', hplace, hf.trans hf', hwf⟩
    rw [placeCalls, Option.bind_eq_bind]
    by_cases hne : next.run = c.run
    · obtain ⟨q1, hput, hf, hocc1, h1⟩ :=
        hb.putCall (Readied.refl (hb.written.blank (Nat.le_refl _)))
        (hcount c (by simp)) hx hfit hle
      rw [← initCells_concat, ← Contents.put_self, ← hne] at h1
      have hindex : next.run ≤ Contents.pos (A.put qf.bits c) c.run (A.put qf.bits c c.run) := by
        rw [hne]
        exact (le_start c.run).trans (Nat.le_add_right ..)
      obtain ⟨qf', hplace, hdone⟩ := hgo hf h1 fun x => by
        rw [hocc1, hocc, hne]
        apply decide_eq_decide.mpr
        rw [Contents.put_ne_nil]
        tauto
      refine ⟨qf', ?_, hdone⟩
      rw [if_neg (not_not.mpr hne), hput, Option.bind_some]
      simp only [if_neg (not_lt.mpr hindex), ite_self]
      rw [hne] at hplace
      exact hplace
    · obtain ⟨q1, hput, hf, hocc1, h1⟩ := hb.putCall
        ((Readied.orRunend qf _).orOccupied next.run) (hcount c (by simp)) hx hfit hle
      rw [← runCells_concat, ← Contents.put_self] at h1
      have hlt : c.run < next.run := lt_of_le_of_ne hrun (Ne.symm hne)
      have hnext := h1.next rfl hlt
      have hempty := h1.last _ hlt
      have hindex := h1.written.pos_next hlt
      have hinit : initCells (A.put qf.bits c next.run) = [] := by
        rw [hempty]
        rfl
      rw [← hinit] at hnext
      obtain ⟨qf', hplace, hdone⟩ := hgo hf hnext fun x => by
        have hmark : (orOccupied (orRunend qf (A.pos c.run (A c.run))) next.run).view.occupied =
            Function.update qf.view.occupied next.run true := by
          rw [view_orOccupied, view_orRunend]
          rfl
        rw [hocc1, hmark]
        by_cases hx : x = next.run
        · rw [hx, Function.update_self]
          simp
        · rw [Function.update_of_ne hx, hocc]
          apply decide_eq_decide.mpr
          rw [Contents.put_ne_nil]
          tauto
      refine ⟨qf', ?_, hdone⟩
      have hother : ¬ (next.run = c.run ∧ next.rem = c.rem) := fun h => hne h.1
      rw [if_pos hne, hput, Option.bind_some]
      simp only [if_neg hother]
      rw [hindex] at hplace
      have hmax : (if Contents.pos (A.put qf.bits c) c.run (A.put qf.bits c c.run) < next.run
          then next.run else Contents.pos (A.put qf.bits c) c.run (A.put qf.bits c c.run)) =
          max next.run (Contents.pos (A.put qf.bits c) c.run (A.put qf.bits c c.run)) := by
        split <;> omega
      rw [hmax]
      exact hplace

end

/-! The contents that a list of hashes stands for. -/

namespace QFMetadata

def apartLen (m : QFMetadata) (hashes : List Nat) (hash : Nat) : Nat :=
  ((List.range 65).find? fun n =>
    hashes.all fun other => decide (other = hash ∨ ¬ m.Agree n hash other)).getD 64

def hashCall (m : QFMetadata) (hashes : List Nat) (hash : Nat) : MergeCall where
  run := m.bucket hash
  rem := m.remainder hash
  ext := hash / 2^(m.quotientBits + m.bitsPerSlot)
  extLen := m.apartLen hashes hash
  count := hashes.count hash

end QFMetadata

def hashContents (m : QFMetadata) (hashes : List Nat) : Contents := fun b =>
  (hashes.dedup.filter fun hash => m.bucket hash = b).map fun hash =>
    (m.hashCall hashes hash).item m.bitsPerSlot

section
variable {m : QFMetadata} {hashes : List Nat} {hash x y n : Nat}

theorem QFMetadata.Agree.of_le {k : Nat} (h : m.Agree n x y) (hk : k ≤ n) : m.Agree k x y :=
  ⟨h.1, h.2.1, low_mono hk h.2.2⟩

/-- Hashes that agree as far as they go are the same. -/
theorem QFMetadata.Agree.eq (h : m.Agree n x y) (hx : x < 2^64) (hy : y < 2^64)
    (hn : 64 ≤ m.quotientBits + m.bitsPerSlot + m.bitsPerSlot*n) : x = y := by
  have hsmall : ∀ z, z < 2^64 → z / 2^(m.quotientBits + m.bitsPerSlot) < 2^(m.bitsPerSlot*n) := by
    intro z hz
    apply Nat.div_lt_of_lt_mul
    rw [← pow_add]
    exact hz.trans_le (Nat.pow_le_pow_right (by omega) hn)
  have hhigh := low_inj (hsmall x hx) (hsmall y hy) h.2.2
  rw [m.hash_eq x, m.hash_eq y, h.1, h.2.1, hhigh]

theorem apartLen_spec (hw : 0 < m.bitsPerSlot) (hlt : ∀ other ∈ hashes, other < 2^64)
    (hh : hash < 2^64) :
    (∀ other ∈ hashes, other ≠ hash → ¬ m.Agree (m.apartLen hashes hash) hash other) ∧
      Needs m hash 0 (m.apartLen hashes hash) hashes := by
  obtain ⟨n, hn⟩ : ∃ n, (List.range 65).find? (fun n =>
      hashes.all fun other => decide (other = hash ∨ ¬ m.Agree n hash other)) = some n := by
    by_contra hc
    have hnone := List.find?_range_eq_none.mp (Option.eq_none_iff_forall_not_mem.mpr
      fun n hn => hc ⟨n, hn⟩) 64 (by omega)
    simp only [Bool.not_eq_true', List.all_eq_false, decide_eq_true_eq, not_or, not_not] at hnone
    obtain ⟨other, hmem, hne, hagree⟩ := hnone
    refine hne (hagree.eq hh (hlt other hmem) ?_).symm
    have hmul : 64 ≤ m.bitsPerSlot*64 := Nat.le_mul_of_pos_left 64 hw
    omega
  have hlen : m.apartLen hashes hash = n := by
    rw [QFMetadata.apartLen, hn]
    rfl
  obtain ⟨h1, _, h2⟩ := List.find?_range_eq_some.mp hn
  simp only [List.all_eq_true, decide_eq_true_eq] at h1
  rw [hlen]
  refine ⟨fun other hmem hne => (h1 other hmem).resolve_left hne, fun k _ hk => ?_⟩
  have hk2 := h2 k hk
  simp only [Bool.not_eq_true', List.all_eq_false, decide_eq_true_eq, not_or, not_not] at hk2
  exact hk2

theorem apartLen_eq (hw : 0 < m.bitsPerSlot) (hlt : ∀ other ∈ hashes, other < 2^64)
    (hh : hash < 2^64) (hapart : ∀ other ∈ hashes, other ≠ hash → ¬ m.Agree n hash other)
    (hneed : Needs m hash 0 n hashes) : m.apartLen hashes hash = n := by
  obtain ⟨h1, h2⟩ := apartLen_spec hw hlt hh
  rcases Nat.lt_trichotomy (m.apartLen hashes hash) n with hl | hl | hl
  · obtain ⟨other, hmem, hne, hagree⟩ := hneed _ (Nat.zero_le _) hl
    exact absurd hagree (h1 other hmem hne)
  · exact hl
  · obtain ⟨other, hmem, hne, hagree⟩ := h2 _ (Nat.zero_le _) hl
    exact absurd hagree (hapart other hmem hne)

/-- Fingerprints are no longer than hashes. -/
theorem apartLen_fits (hw : 0 < m.bitsPerSlot) (hq : m.quotientBits + m.bitsPerSlot < 64)
    (hlt : ∀ other ∈ hashes, other < 2^64) (hh : hash < 2^64) :
    m.quotientBits + m.bitsPerSlot * m.apartLen hashes hash < 64 := by
  obtain ⟨_, hneed⟩ := apartLen_spec hw hlt hh
  rcases Nat.eq_zero_or_pos (m.apartLen hashes hash) with h0 | hpos
  · rw [h0]
    omega
  · obtain ⟨k, hk⟩ : ∃ k, m.apartLen hashes hash = k + 1 := ⟨_, (Nat.sub_add_cancel hpos).symm⟩
    obtain ⟨other, hmem, hne, hagree⟩ := hneed k (Nat.zero_le _) (by omega)
    by_contra hc
    refine hne (hagree.eq hh (hlt other hmem) ?_).symm
    rw [hk, Nat.mul_succ] at hc
    omega

theorem length_ext_hashCall (m : QFMetadata) (hashes : List Nat) (hash : Nat) :
    ((m.hashCall hashes hash).item m.bitsPerSlot).ext.length = m.apartLen hashes hash :=
  length_low ..

/-! A sorted list. -/

theorem hashSlots_lt_iff : m.hashSlots x < m.hashSlots y ↔ m.bucket x < m.bucket y ∨
    m.bucket x = m.bucket y ∧ (m.remainder x < m.remainder y ∨
      m.remainder x = m.remainder y ∧ m.extension x 64 < m.extension y 64) := by
  rw [QFMetadata.hashSlots, QFMetadata.hashSlots, List.cons_lt_cons_iff, List.cons_lt_cons_iff]

theorem dedup_sorted (hw : 0 < m.bitsPerSlot) (hlt : ∀ other ∈ hashes, other < 2^64)
    (hsorted : (hashes.map m.hashSlots).Pairwise (· ≤ ·)) :
    hashes.dedup.Pairwise fun x y => m.hashSlots x < m.hashSlots y := by
  have hle := (List.pairwise_map.mp hsorted).sublist (List.dedup_sublist hashes)
  have hboth := List.pairwise_and_iff.mpr ⟨hle, List.nodup_dedup hashes⟩
  refine hboth.imp_of_mem fun hx hy h => lt_of_le_of_ne h.1 fun heq => h.2 ?_
  exact (QFMetadata.hashSlots_inj hw (hlt _ (List.mem_dedup.mp hx))
    (hlt _ (List.mem_dedup.mp hy))).mp heq

theorem exists_hash_of_mem {b : Nat} {it : Item} (h : it ∈ hashContents m hashes b) :
    ∃ hash ∈ hashes, m.bucket hash = b ∧ it = (m.hashCall hashes hash).item m.bitsPerSlot := by
  obtain ⟨hash, hf, rfl⟩ := List.mem_map.mp h
  rw [List.mem_filter, List.mem_dedup, decide_eq_true_eq] at hf
  exact ⟨hash, hf.1, hf.2, rfl⟩

theorem hashContents_outside (hg : Geometry m) (hashes : List Nat) (b : Nat) (hb : m.nslots ≤ b) :
    hashContents m hashes b = [] := by
  by_contra hne
  obtain ⟨it, hit⟩ := List.exists_mem_of_ne_nil _ hne
  obtain ⟨hash, _, hbucket, _⟩ := exists_hash_of_mem hit
  have hlt := hg.bucket_lt hash
  omega

/-- What a list of hashes stands for fits, if there is room. -/
theorem hashContents_fits (hg : Geometry m) (hlt : ∀ other ∈ hashes, other < 2^64)
    (hsorted : (hashes.map m.hashSlots).Pairwise (· ≤ ·))
    (hroom : (hashContents m hashes).extent m.nslots ≤ m.xnslots) :
    (hashContents m hashes).Fits m := by
  have hw : 0 < m.bitsPerSlot := Nat.lt_of_lt_of_le (by omega) hg.bits
  refine ⟨hashContents_outside hg hashes, hroom,
    fun b it hit => ?_, fun b => ?_, fun b it hit => ?_⟩
  · obtain ⟨hash, hh, _, rfl⟩ := exists_hash_of_mem hit
    refine ⟨Nat.mod_lt _ (Nat.two_pow_pos _), fun v hv => lt_of_mem_low hv, fun v hv => ?_⟩
    have hv2 : v ∈ counterOf m.bitsPerSlot (hashes.count hash) := hv
    rw [counterOf_eq_digits] at hv2
    exact Nat.digits_lt_base (Nat.one_lt_two_pow (by omega)) hv2
  · rw [hashContents, List.pairwise_map]
    refine ((dedup_sorted hw hlt hsorted).sublist List.filter_sublist).imp_of_mem
      fun hx hy hslots => ?_
    rw [List.mem_filter, decide_eq_true_eq] at hx hy
    rw [hashSlots_lt_iff, hx.2, hy.2] at hslots
    show m.remainder _ ≤ m.remainder _
    omega
  · obtain ⟨hash, hh, _, rfl⟩ := exists_hash_of_mem hit
    rw [Item.Fits, length_ext_hashCall]
    exact apartLen_fits hw hg.hashBits hlt (hlt _ hh)

end

section
variable {qf : QF} {keys : List Nat} (hw : 0 < qf.bits) (hq : qf.qbits + qf.bits < 64)
  (hq' : qf.qbits ≤ 30) (hne : keys ≠ []) (hlt : ∀ hash ∈ keys, hash < 2^64)
  (hsorted : SortedByCmp qf keys)
include hw hq hq' hne hlt hsorted

theorem bulkInsertCalls_eq :
    bulkInsertCalls qf keys = some (keys.dedup.map (qf.metadata.hashCall keys)) := by
  obtain ⟨pairs, hcall, hslots, hmem, hof⟩ := bulkInsertCalls_pairs hw hq hq' hne hlt hsorted
  have hstrict : (pairs.map Prod.fst).Pairwise
      fun x y => qf.metadata.hashSlots x < qf.metadata.hashSlots y := by
    rw [List.pairwise_map] at hslots ⊢
    exact hslots
  have hnodup : (pairs.map Prod.fst).Nodup := hstrict.imp fun h heq => by
    rw [heq] at h
    exact lt_irrefl _ h
  have hperm : (pairs.map Prod.fst).Perm keys.dedup := by
    rw [List.perm_ext_iff_of_nodup hnodup (List.nodup_dedup keys)]
    intro hash
    rw [List.mem_dedup, hmem]
  have hfst : pairs.map Prod.fst = keys.dedup :=
    hperm.eq_of_pairwise (fun x y _ _ h1 h2 => absurd h1 (lt_asymm h2)) hstrict
      (dedup_sorted hw hlt (hsorted.slots hw hq hlt))
  rw [hcall, ← hfst, List.map_map]
  congr 1
  apply List.map_congr_left
  intro p hp
  have hkey : p.1 ∈ keys := (hmem p.1).mpr (List.mem_map_of_mem hp)
  have h := hof p hp
  have hlen : qf.metadata.apartLen keys p.1 = p.2.extLen := by
    refine apartLen_eq hw hlt (hlt _ hkey) (fun other ho hother hagree => ?_) h.needed
    exact h.apart other ho hother ((h.for_hash.slots_isPrefixOf_iff hq).mpr hagree)
  rw [h.for_hash.1, Function.comp_apply, QFMetadata.hashCall, hlen, h.count]
  simp only [MergeCall.ofHash, QF.hashRemainder_eq hq, QF.hashBucketIndex_eq hq, shr64_eq _ hq]

/-- `qf_bulk_insert` of a sorted list builds the layout of the items of its hashes. -/
theorem bulk_insert_builds (hz : qf.Zeroed) (hx : qf.xnslots < 2^31)
    (hcount : 20 * keys.length < 19 * qf.metadata.nslots)
    (hroom : (hashContents qf.metadata keys).extent qf.metadata.nslots ≤ qf.xnslots)
    (hspill : ∀ j, spill (hashContents qf.metadata keys).lens (64*j) ≤ 64) :
    ∃ qf', qfBulkInsert qf keys = some qf' ∧ qf.SameFrame qf' ∧
      WF qf' (hashContents qf.metadata keys) := by
  have hslots := hsorted.slots hw hq hlt
  rw [qfBulkInsert_eq hz.noccupiedSlots hcount, bulkInsertCalls_eq hw hq hq' hne hlt hsorted,
    Option.bind_some]
  obtain ⟨c, calls, hcalls⟩ : ∃ c calls,
      keys.dedup.map (qf.metadata.hashCall keys) = c :: calls := by
    obtain ⟨key, hkey⟩ := List.exists_mem_of_ne_nil keys hne
    apply List.exists_cons_of_ne_nil
    intro hnil
    rw [List.map_eq_nil_iff] at hnil
    have hd := List.mem_dedup.mpr hkey
    rw [hnil] at hd
    exact absurd hd List.not_mem_nil
  have hC : hashContents qf.metadata keys =
      Contents.empty.putAll qf.bits (c :: calls) := by
    funext b
    rw [Contents.putAll_apply, ← hcalls, List.filter_map, List.map_map]
    rfl
  have hsorted' : ((c :: calls).map MergeCall.run).Pairwise (· ≤ ·) := by
    rw [← hcalls, List.map_map, List.pairwise_map]
    refine (dedup_sorted hw hlt hslots).imp fun h => ?_
    rw [hashSlots_lt_iff] at h
    show qf.metadata.bucket _ ≤ qf.metadata.bucket _
    omega
  have hcounts : ∀ d ∈ c :: calls, d.count < 2^64 := by
    intro d hd
    rw [← hcalls] at hd
    obtain ⟨hash, _, rfl⟩ := List.mem_map.mp hd
    have hle : keys.count hash ≤ keys.length := List.count_le_length
    have hns := hz.geometry.xnslots
    show keys.count hash < 2^64
    unfold QF.xnslots at hx
    omega
  have hstart : Contents.empty.pos c.run (Contents.empty c.run) = c.run := by
    rw [Contents.pos, Contents.lens_empty, start, ends_zero]
    exact Nat.max_eq_left (Nat.zero_le _)
  have hocc : ∀ x, (orOccupied qf c.run).view.occupied x =
      decide (Contents.empty x ≠ [] ∨ x = c.run) := by
    intro x
    rw [view_orOccupied]
    show Function.update qf.view.occupied c.run true x = _
    by_cases hxc : x = c.run
    · rw [hxc, Function.update_self]
      simp
    · rw [Function.update_of_ne hxc, hz.wf.occupied x]
      simp [hxc]
  obtain ⟨qf', hplace, hf, hwf⟩ := placeCalls_wf ((hz.building c.run).orOccupied c.run) hocc
    hsorted' hcounts hx hC (hashContents_fits hz.geometry hlt hslots hroom) hspill
  have hmark : qf.SameFrame (orOccupied qf c.run) := ⟨rfl, rfl, rfl⟩
  rw [hstart] at hplace
  rw [hcalls]
  exact ⟨qf', hplace, hmark.trans hf, hwf⟩

end

end AdaptiveQF
