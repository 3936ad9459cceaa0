import AdaptiveQF.BulkBuild
import AdaptiveQF.Init
import AdaptiveQF.Merge

/-! `bulk_insert_sort_hashes` moves the fields of a hash to other places than those in which
`qf_bulk_insert` looks for them. -/
namespace AdaptiveQF
open RunLayout Digits

/-- The quotient in the highest bits, the remainder below it, and the extension in reverse order. -/
def QFMetadata.rearranged (m : QFMetadata) (key : Nat) : Nat :=
  reversed (64 - m.quotientBits - m.bitsPerSlot) (key / 2^(m.quotientBits + m.bitsPerSlot)) +
    m.remainder key * 2^(64 - m.quotientBits - m.bitsPerSlot) +
    m.bucket key * 2^(64 - m.quotientBits)

section
variable {qf : QF} {keys : List Nat} {key : Nat}

theorem reverseExt_eq {fuel n : Nat} (ext temp len : Nat) (hfuel : n < fuel) (ht : temp < 2^n)
    (he : ext < 2^len) (hl : len + n < 64) : ∃ e l, reverseExt fuel ext temp len = some (e, l) ∧
      l ≤ len + n ∧ e * 2^(len + n - l) = ext * 2^n + reversed n temp := by
  induction n generalizing fuel ext temp len with
  | zero =>
    obtain ⟨fuel, rfl⟩ : ∃ f, fuel = f + 1 := ⟨fuel - 1, by omega⟩
    refine ⟨ext, len, ?_, Nat.le_refl _, ?_⟩
    · rw [reverseExt, if_neg (by omega)]
    · rw [Nat.add_zero, Nat.sub_self]
      rfl
  | succ n ih =>
    obtain ⟨fuel, rfl⟩ : ∃ f, fuel = f + 1 := ⟨fuel - 1, by omega⟩
    rw [reverseExt]
    rcases Nat.eq_zero_or_pos temp with rfl | hpos
    · refine ⟨ext, len, if_neg (by omega), by omega, ?_⟩
      rw [reversed_zero_right, Nat.add_sub_cancel_left]
      rfl
    · have hpow : 2^(len+1) ≤ 2^63 := Nat.pow_le_pow_right (by omega) (by omega)
      rw [pow_succ] at hpow
      have hbit : shl64 ext 1 ||| (temp &&& 1) = temp % 2 + ext * 2 := by
        rw [shl64_eq (by omega) (by omega), Nat.and_one_is_mod, Nat.or_comm, ← Nat.shiftLeft_eq,
          or_shiftLeft (k := 1) (by omega), Nat.shiftLeft_eq]
      have hhalf : temp / 2 < 2^n := by
        rw [pow_succ] at ht
        omega
      obtain ⟨e, l, hcall, hle, hval⟩ := ih (temp % 2 + ext * 2) (temp / 2) (len + 1)
        (Nat.lt_of_succ_lt_succ hfuel) hhalf (by rw [pow_succ]; omega) (by omega)
      refine ⟨e, l, ?_, by omega, ?_⟩
      · rw [if_pos hpos, hbit, shr64_eq _ (by omega)]
        exact hcall
      · have hlen : len + (n+1) - l = len + 1 + n - l := by omega
        rw [hlen, hval, reversed_succ, pow_succ]
        ring

theorem rearrangeHash_eq (hw : 0 < qf.bits) (hq : qf.qbits + qf.bits < 64) (hkey : key < 2^64) :
    rearrangeHash qf key = some (qf.metadata.rearranged key) := by
  obtain ⟨k, hk⟩ : ∃ k, 64 - qf.qbits - qf.bits = k := ⟨_, rfl⟩
  have hext : shr64 key (qf.qbits + qf.bits) < 2^k := by
    rw [shr64_eq _ hq]
    apply Nat.div_lt_of_lt_mul
    rw [← pow_add]
    exact hkey.trans_le (Nat.pow_le_pow_right (by omega) (by omega))
  obtain ⟨e, l, hcall, hle, hval⟩ := reverseExt_eq 0 _ 0 (by omega : k < 65) hext Nat.one_pos
    (by omega)
  rw [Nat.zero_mul, Nat.zero_add, Nat.zero_add] at hval
  have hrev := reversed_lt k (shr64 key (qf.qbits + qf.bits))
  have hrem : qf.metadata.remainder key < 2^qf.bits := Nat.mod_lt _ (Nat.two_pow_pos _)
  have hrun : qf.metadata.bucket key < 2^qf.qbits := Nat.mod_lt _ (Nat.two_pow_pos _)
  have hk64 : 2^k * 2^qf.bits * 2^qf.qbits = 2^64 := by
    rw [← pow_add, ← pow_add]
    congr 1
    omega
  -- Each field lies above the ones in front of it.
  have hshift1 : shl64 e (k - l) = reversed k (shr64 key (qf.qbits + qf.bits)) := by
    rw [shl64_eq (by omega), hval]
    rw [hval]
    exact hrev.trans_le (Nat.pow_le_pow_right (by omega) (by omega))
  have hshift2 : shl64 (qf.metadata.remainder key) k = qf.metadata.remainder key <<< k := by
    rw [Nat.shiftLeft_eq]
    apply shl64_eq (by omega)
    calc qf.metadata.remainder key * 2^k
        < 2^qf.bits * 2^k := Nat.mul_lt_mul_of_pos_right hrem (Nat.two_pow_pos k)
      _ = 2^(qf.bits + k) := (pow_add ..).symm
      _ ≤ 2^64 := Nat.pow_le_pow_right (by omega) (by omega)
  have hshift3 : shl64 (qf.metadata.bucket key) (k + qf.bits) =
      qf.metadata.bucket key <<< (k + qf.bits) := by
    rw [Nat.shiftLeft_eq]
    rcases Nat.eq_zero_or_pos qf.qbits with h0 | hpos
    · -- a shift by 64 bits, of 0
      rw [h0, pow_zero, Nat.lt_one_iff] at hrun
      rw [hrun, Nat.zero_mul, shl64, Nat.zero_shiftLeft]
      rfl
    · apply shl64_eq (by omega)
      calc qf.metadata.bucket key * 2^(k + qf.bits)
          < 2^qf.qbits * 2^(k + qf.bits) := Nat.mul_lt_mul_of_pos_right hrun (Nat.two_pow_pos _)
        _ = 2^(qf.qbits + (k + qf.bits)) := (pow_add ..).symm
        _ ≤ 2^64 := Nat.pow_le_pow_right (by omega) (by omega)
  have hlow : reversed k (shr64 key (qf.qbits + qf.bits)) + qf.metadata.remainder key * 2^k <
      2^(k + qf.bits) :=
    calc reversed k (shr64 key (qf.qbits + qf.bits)) + qf.metadata.remainder key * 2^k
        < 2^k + qf.metadata.remainder key * 2^k := Nat.add_lt_add_right hrev _
      _ = (qf.metadata.remainder key + 1) * 2^k := by ring
      _ ≤ 2^qf.bits * 2^k := Nat.mul_le_mul_right _ hrem
      _ = 2^(k + qf.bits) := by rw [Nat.add_comm, pow_add]
  have htop : k + qf.bits = 64 - qf.qbits := by omega
  unfold rearrangeHash
  simp only [hcall, hk, QF.hashRemainder_eq hq, QF.hashBucketIndex_eq hq, Option.bind_eq_bind,
    Option.bind_some]
  rw [if_neg (by omega), hshift1, hshift2, hshift3, or_shiftLeft hrev, or_shiftLeft hlow, htop,
    shr64_eq _ hq, ← hk]
  rfl

theorem bulkInsertSortHashes_eq (hw : 0 < qf.bits) (hq : qf.qbits + qf.bits < 64)
    (hlt : ∀ key ∈ keys, key < 2^64) :
    bulkInsertSortHashes qf keys = some (keys.map qf.metadata.rearranged) := by
  induction keys with
  | nil => rfl
  | cons key keys ih =>
    have hrest := ih fun k hk => hlt k (.tail _ hk)
    unfold bulkInsertSortHashes at hrest ⊢
    rw [List.mapM_cons, rearrangeHash_eq hw hq (hlt key (.head _)), hrest]
    rfl

theorem rearranged_lt {m : QFMetadata} (hq : m.quotientBits + m.bitsPerSlot < 64) (key : Nat) :
    m.rearranged key < 2^64 := by
  obtain ⟨k, hk⟩ : ∃ k, 64 - m.quotientBits - m.bitsPerSlot = k := ⟨_, rfl⟩
  have htop : 64 - m.quotientBits = m.bitsPerSlot + k := by omega
  have hrev := reversed_lt k (key / 2^(m.quotientBits + m.bitsPerSlot))
  have hrem : m.remainder key < 2^m.bitsPerSlot := Nat.mod_lt _ (Nat.two_pow_pos _)
  have hrun : m.bucket key < 2^m.quotientBits := Nat.mod_lt _ (Nat.two_pow_pos _)
  rw [QFMetadata.rearranged, hk, htop]
  calc reversed k (key / 2^(m.quotientBits + m.bitsPerSlot)) + m.remainder key * 2^k +
        m.bucket key * 2^(m.bitsPerSlot + k)
      < 2^k + m.remainder key * 2^k + m.bucket key * 2^(m.bitsPerSlot + k) := by omega
    _ = (m.remainder key + 1) * 2^k + m.bucket key * 2^(m.bitsPerSlot + k) := by ring
    _ ≤ 2^m.bitsPerSlot * 2^k + m.bucket key * 2^(m.bitsPerSlot + k) :=
      Nat.add_le_add_right (Nat.mul_le_mul_right _ hrem) _
    _ = (m.bucket key + 1) * 2^(m.bitsPerSlot + k) := by
      rw [← pow_add]
      ring
    _ ≤ 2^m.quotientBits * 2^(m.bitsPerSlot + k) := Nat.mul_le_mul_right _ hrun
    _ = 2^64 := by
      rw [← pow_add]
      congr 1
      omega

theorem WF.answers_iff {A : Contents} (h : WF qf A) (hx : qf.xnslots < 2^31) (hkey : key < 2^64) :
    Answers qf key ↔ ∃ it ∈ A (qf.metadata.bucket key), it.Matches qf.metadata key := by
  have hnear := h.near (h.fits.trans_lt hx) key
  have hself := keyToHash_self qf key
  constructor
  · intro ⟨count, hit, hquery⟩
    by_contra hnone
    push Not at hnone
    rw [h.qfQuery_miss hnear hnone hself] at hquery
    simp at hquery
  · intro ⟨it, hmem, hmatch⟩
    cases firstMatch_or_none qf.metadata key (A (qf.metadata.bucket key)) with
    | inl hfirst =>
      obtain ⟨l1, x, l2, hf⟩ := hfirst
      exact ⟨_, _, h.qfQuery_hit hnear hkey hf hself⟩
    | inr hnone => exact absurd hmatch (hnone it hmem)

/-- After the preparation and the bulk insertion, a query answers for every hash of the list. -/
def BulkKeeps (qf : QF) (keys : List Nat) : Prop :=
  ∃ hashes qf', bulkInsertSortHashes qf keys = some hashes ∧ qfBulkInsert qf hashes = some qf' ∧
    ∀ key ∈ keys, Answers qf' key

/-- What `qf_bulk_insert` has to be given: a sorted list, and no block that the runs in front of it
overrun by more slots than it has. -/
structure BulkReady (qf : QF) (hashes : List Nat) : Prop where
  sorted : SortedByCmp qf hashes
  spill : ∀ j, spill (hashContents qf.metadata hashes).lens (64*j) ≤ 64

def QFMetadata.FoundIn (m : QFMetadata) (hashes : List Nat) (key : Nat) : Prop :=
  ∃ hash ∈ hashes, m.Agree (m.apartLen hashes hash) hash key

theorem foundIn_iff {m : QFMetadata} {hashes : List Nat} : m.FoundIn hashes key ↔
    ∃ it ∈ hashContents m hashes (m.bucket key), it.Matches m key := by
  have hitem : ∀ hash, ((m.hashCall hashes hash).item m.bitsPerSlot).Matches m key ↔
      m.remainder hash = m.remainder key ∧
        m.extension hash (m.apartLen hashes hash) = m.extension key (m.apartLen hashes hash) := by
    intro hash
    unfold Item.Matches
    rw [length_ext_hashCall]
    rfl
  constructor
  · intro ⟨hash, hmem, hbucket, hrest⟩
    refine ⟨(m.hashCall hashes hash).item m.bitsPerSlot, ?_, (hitem hash).mpr hrest⟩
    refine List.mem_map_of_mem (List.mem_filter.mpr ⟨List.mem_dedup.mpr hmem, ?_⟩)
    exact decide_eq_true hbucket
  · intro ⟨it, hit, hmatch⟩
    obtain ⟨hash, hmem, hbucket, rfl⟩ := exists_hash_of_mem hit
    exact ⟨hash, hmem, hbucket, (hitem hash).mp hmatch⟩

theorem initXnslots_lt {nslots : Nat} (h : nslots ≤ 2^30) : initXnslots nslots < 2^31 := by
  have hsqrt : Nat.sqrt (100*nslots) < 2^30 := by
    rw [Nat.sqrt_lt]
    omega
  unfold initXnslots
  omega

/-- Where the rearranged hashes are in order and overrun no block, the queries answer for the hashes
that begin with the fingerprint of a rearranged one. -/
theorem bulk_keeps_iff (hz : qf.Zeroed) (hx : qf.xnslots = initXnslots qf.metadata.nslots)
    (hq : qf.qbits ≤ 30) (hne : keys ≠ []) (hlt : ∀ key ∈ keys, key < 2^64)
    (hcount : 20 * keys.length < 19 * qf.metadata.nslots)
    (hroom : (hashContents qf.metadata (keys.map qf.metadata.rearranged)).extent
      qf.metadata.nslots ≤ qf.xnslots)
    (hready : BulkReady qf (keys.map qf.metadata.rearranged)) :
    BulkKeeps qf keys ↔
      ∀ key ∈ keys, qf.metadata.FoundIn (keys.map qf.metadata.rearranged) key := by
  obtain ⟨hashes, hhashes⟩ : ∃ hashes, keys.map qf.metadata.rearranged = hashes := ⟨_, rfl⟩
  have hg := hz.geometry
  have hw : 0 < qf.bits := Nat.lt_of_lt_of_le (by omega) hg.bits
  have hnslots : qf.metadata.nslots ≤ 2^30 := by
    rw [hg.nslots]
    exact Nat.pow_le_pow_right (by omega) hq
  have hx31 : qf.xnslots < 2^31 := by
    rw [hx]
    exact initXnslots_lt hnslots
  have hsort := bulkInsertSortHashes_eq hw hg.hashBits hlt
  have hne' : hashes ≠ [] := by
    rw [← hhashes]
    simpa using hne
  have hlt' : ∀ hash ∈ hashes, hash < 2^64 := by
    rw [← hhashes]
    intro hash hmem
    obtain ⟨key, _, rfl⟩ := List.mem_map.mp hmem
    exact rearranged_lt hg.hashBits key
  have hlen : hashes.length = keys.length := by rw [← hhashes, List.length_map]
  rw [hhashes] at hsort hroom hready ⊢
  obtain ⟨qf', hcall, hf, hwf⟩ := bulk_insert_builds hw hg.hashBits hq hne' hlt' hready.sorted hz
    hx31 (by rw [hlen]; exact hcount) hroom hready.spill
  have hk := QF.Keeps.of_sameFrame hf
  have hanswer : ∀ key ∈ keys, (Answers qf' key ↔ qf.metadata.FoundIn hashes key) := by
    intro key hkey
    rw [hwf.answers_iff (by rw [hk.xnslots]; exact hx31) (hlt key hkey), hf.metadata, foundIn_iff]
  constructor
  · intro ⟨l, q, hl, hq, hall⟩ key hkey
    obtain rfl : hashes = l := Option.some.inj (hsort.symm.trans hl)
    obtain rfl : qf' = q := Option.some.inj (hcall.symm.trans hq)
    exact (hanswer key hkey).mp (hall key hkey)
  · intro hall
    exact ⟨hashes, qf', hsort, hcall, fun key hkey => (hanswer key hkey).mpr (hall key hkey)⟩

end

theorem bulkFilter_xnslots : bulkFilter.xnslots = initXnslots bulkFilter.metadata.nslots := by
  decide +kernel

theorem spill_of_extent_le {A : Contents} {n : Nat} (hout : ∀ b, n ≤ b → A b = [])
    (h : A.extent n ≤ 128) (j : Nat) : spill A.lens (64*j) ≤ 64 := by
  have hends : ends A.lens (64*j) ≤ A.extent n := by
    rcases Nat.le_total (64*j) n with hle | hle
    · exact ends_mono hle
    · refine (ends_eq_of_zero (fun c hc => ?_) hle).le
      rw [Contents.lens, hout c hc]
      rfl
  cases j with
  | zero => exact Nat.zero_le _
  | succ j =>
    unfold spill
    omega

/-- The bits at both ends of each key are the same. The first one is there twice, and the third one
has its bucket and remainder. -/
def mirroredKeys : List Nat :=
  [1 + 2^63, 1 + 2^63, 1 + 2^5 + 2^58 + 2^63, 9 + 2^60 + 2^63]

instance (m : QFMetadata) (hashes : List Nat) (key : Nat) : Decidable (m.FoundIn hashes key) :=
  inferInstanceAs (Decidable (∃ hash ∈ hashes, m.Agree _ hash key))

theorem bulk_keeps_iff_mirrored : BulkKeeps bulkFilter mirroredKeys :=
  (bulk_keeps_iff bulkFilter_zeroed bulkFilter_xnslots (by decide) (by decide) (by decide)
    (by decide) (by decide +kernel)
    ⟨by unfold SortedByCmp; decide +kernel,
      spill_of_extent_le (hashContents_outside bulkFilter_zeroed.geometry _)
        (by decide +kernel)⟩).mpr (by decide +kernel)

/-- The hash 1 of bucket 0 and remainder 1 is put down as one of remainder 0. -/
theorem bulk_loses_key : bulkFilter.Zeroed ∧
    bulkFilter.xnslots = initXnslots bulkFilter.metadata.nslots ∧ bulkFilter.qbits ≤ 30 ∧
    20 * [1].length < 19 * bulkFilter.metadata.nslots ∧
    (hashContents bulkFilter.metadata ([1].map bulkFilter.metadata.rearranged)).extent
      bulkFilter.metadata.nslots ≤ bulkFilter.xnslots ∧
    bulkInsertSortHashes bulkFilter [1] = some [2^59] ∧ ¬ BulkKeeps bulkFilter [1] := by
  have hsort : bulkInsertSortHashes bulkFilter [1] = some [2^59] := by decide +kernel
  refine ⟨bulkFilter_zeroed, bulkFilter_xnslots, by decide, by decide, by decide +kernel, hsort, ?_⟩
  intro ⟨hashes, qf', hhashes, hcall, hall⟩
  obtain rfl : [2^59] = hashes := Option.some.inj (hsort.symm.trans hhashes)
  obtain ⟨count, hit, hquery⟩ := hall 1 (by decide)
  have hmiss : ∀ q ∈ qfBulkInsert bulkFilter [2^59],
      (qfQuery q 1 QF_KEY_IS_HASH).map Prod.snd = some none := by
    decide +kernel
  have hnone := hmiss qf' hcall
  rw [hquery] at hnone
  simp at hnone

end AdaptiveQF
