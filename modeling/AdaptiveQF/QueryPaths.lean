import AdaptiveQF.Variants
import AdaptiveQF.Canonical

/-! The six query paths: when they all designate the first matching item. -/
namespace AdaptiveQF
open RunLayout

structure AllReport (qf : QF) (hash flags p count rank : Nat) : Prop where
  positive : 0 < count
  query : ∃ r, qfQuery qf hash flags = some (count, some r) ∧ r.index = p
  llTable : ∃ r, qfQueryUsingLlTable qf hash flags = some r ∧ r.1 = rank
  extLen : ∀ e, ∃ r, qfQueryUsingLlTableWithExtLen qf hash e flags = some r ∧ r.ret = rank
  getCount : ∀ k, ∃ r, qfGetCountUsingLlTable qf hash k flags = some r ∧
    r.1 = count ∧ r.2.2 = rank
  getCountIndex : ∀ k i, ∃ r, qfGetCountUsingLlTableWithIndex qf hash k i flags = some r ∧
    r.ret = count ∧ r.minirunRank = rank ∧ r.index = p
  filter : ∀ k i res, ∃ r, queryFilter qf hash k i res = some r ∧ r.keyPresent = 1 ∧
    r.minirunCount = count ∧ r.minirunRank = rank ∧ r.hashIndex = p

structure AllAbsent (qf : QF) (hash flags : Nat) : Prop where
  query : ∃ r, qfQuery qf hash flags = some r ∧ r.1 = 0
  llTable : ∃ r, qfQueryUsingLlTable qf hash flags = some r ∧ r.1 < 0
  extLen : ∀ e, ∃ r, qfQueryUsingLlTableWithExtLen qf hash e flags = some r ∧ r.ret < 0
  getCount : ∀ k, ∃ r, qfGetCountUsingLlTable qf hash k flags = some r ∧ r.1 = 0
  getCountIndex : ∀ k i, ∃ r, qfGetCountUsingLlTableWithIndex qf hash k i flags = some r ∧ r.ret = 0
  filter : ∀ k i res, ∃ r, queryFilter qf hash k i res = some r ∧ r.keyPresent = 0

/-- Positive exactly for a matching item, and then all about the first one. -/
structure PathsAgree (qf : QF) (A : Contents) (hash flags : Nat) : Prop where
  hit : ∀ l1 it l2, FirstMatch qf.metadata hash (A (qf.metadata.bucket hash)) l1 it l2 →
    AllReport qf hash flags (A.pos (qf.metadata.bucket hash) l1) (it.count qf.bits)
      (rankOf qf.metadata hash l1)
  absent : (∀ x ∈ A (qf.metadata.bucket hash), ¬ x.Matches qf.metadata hash) →
    AllAbsent qf hash flags

structure Reportable (qf : QF) (A : Contents) (hash : Nat) : Prop where
  near : Near qf.metadata A hash
  narrow : ∀ l1 it l2, FirstMatch qf.metadata hash (A (qf.metadata.bucket hash)) l1 it l2 →
    0 < it.count qf.bits ∧ it.count qf.bits < 256 ∧ rankOf qf.metadata hash l1 < 256

section
variable {qf : QF} {A : Contents} {hash flags : Nat} {l1 l2 : List Item} {it : Item}

theorem WF.queryFilter_hit (h : WF qf A) (hn : Near qf.metadata A hash)
    (hf : FirstMatch qf.metadata hash (A (qf.metadata.bucket hash)) l1 it l2)
    (hc : toInt (it.count qf.bits) % 256 ≠ 0) (k i : Nat) (res : QFilterQueryResult) :
    queryFilter qf hash k i res = some ⟨1, (rankOf qf.metadata hash l1 % 256 : Nat),
      toInt (it.count qf.bits) % 256, hash, A.pos (qf.metadata.bucket hash) l1⟩ := by
  have hpos := Int.emod_nonneg (toInt (it.count qf.bits)) (by omega : (256 : Int) ≠ 0)
  unfold queryFilter
  rw [h.qfGetCountUsingLlTableWithIndex_hit hn hf (keyToHash_self qf hash)]
  simp only [Option.bind_eq_bind, Option.bind_some]
  rw [if_pos (by omega), Int.toNat_of_nonneg hpos]

theorem WF.queryFilter_absent (h : WF qf A) (hn : Near qf.metadata A hash)
    (hm : ∀ x ∈ A (qf.metadata.bucket hash), ¬ x.Matches qf.metadata hash) (k i : Nat)
    (res : QFilterQueryResult) :
    ∃ r, queryFilter qf hash k i res = some r ∧ r.keyPresent = 0 := by
  obtain ⟨rank, hr⟩ := h.qfGetCountUsingLlTableWithIndex_miss hn hm (keyToHash_self qf hash) k i
  unfold queryFilter
  rw [hr]
  exact ⟨_, rfl, rfl⟩

theorem WF.allAbsent (h : WF qf A) (hkey : keyToHash qf hash flags = hash)
    (hn : Near qf.metadata A hash)
    (hm : ∀ x ∈ A (qf.metadata.bucket hash), ¬ x.Matches qf.metadata hash) :
    AllAbsent qf hash flags where
  query := ⟨_, h.qfQuery_miss hn hm hkey, rfl⟩
  llTable := ⟨_, h.qfQueryUsingLlTable_miss hn hm hkey, Int.negSucc_lt_zero 0⟩
  extLen e := ⟨_, h.qfQueryUsingLlTableWithExtLen_miss hn hm hkey e, Int.negSucc_lt_zero 0⟩
  getCount k := by
    obtain ⟨rank, hr⟩ := h.qfGetCountUsingLlTableWithIndex_miss hn hm hkey k 0
    unfold qfGetCountUsingLlTable
    rw [hr]
    exact ⟨_, rfl, rfl⟩
  getCountIndex k i := by
    obtain ⟨rank, hr⟩ := h.qfGetCountUsingLlTableWithIndex_miss hn hm hkey k i
    exact ⟨_, hr, rfl⟩
  filter k i res := h.queryFilter_absent hn hm k i res

theorem WF.allReport (h : WF qf A) (hkey : keyToHash qf hash flags = hash)
    (hh : hash < 2^64) (hr : Reportable qf A hash)
    (hf : FirstMatch qf.metadata hash (A (qf.metadata.bucket hash)) l1 it l2) :
    AllReport qf hash flags (A.pos (qf.metadata.bucket hash) l1) (it.count qf.bits)
      (rankOf qf.metadata hash l1) := by
  obtain ⟨hpos, hcount, hrank⟩ := hr.narrow l1 it l2 hf
  have hint : toInt (it.count qf.bits) = it.count qf.bits := toInt_of_lt (by omega)
  have hmod : rankOf qf.metadata hash l1 % 256 = rankOf qf.metadata hash l1 :=
    Nat.mod_eq_of_lt hrank
  refine ⟨hpos, ⟨_, h.qfQuery_hit hr.near hh hf hkey, rfl⟩,
    ⟨_, h.qfQueryUsingLlTable_hit hr.near hf hkey, rfl⟩,
    fun e => ⟨_, h.qfQueryUsingLlTableWithExtLen_hit hr.near hf hkey e, rfl⟩, fun k => ?_,
    fun k i => ?_, fun k i res => ?_⟩
  · unfold qfGetCountUsingLlTable
    rw [h.qfGetCountUsingLlTableWithIndex_hit hr.near hf hkey]
    exact ⟨_, rfl, hint, hmod⟩
  · exact ⟨_, h.qfGetCountUsingLlTableWithIndex_hit hr.near hf hkey k i, hint, hmod, rfl⟩
  · have hres := h.queryFilter_hit hr.near hf (by rw [hint]; omega) k i res
    refine ⟨_, hres, rfl, ?_, ?_, rfl⟩
    · simp only [hint]
      omega
    · simp only [hmod]

theorem WF.reportable_of_agree (h : WF qf A) (hkey : keyToHash qf hash flags = hash)
    (ha : PathsAgree qf A hash flags) : Reportable qf A hash := by
  have hnear : Near qf.metadata A hash := by
    rcases firstMatch_or_none qf.metadata hash (A (qf.metadata.bucket hash)) with
      ⟨l1, it, l2, hf⟩ | hm
    · obtain ⟨r, hr, _⟩ := (ha.hit l1 it l2 hf).query
      exact h.near_of_qfQuery hkey hr
    · obtain ⟨r, hr, _⟩ := (ha.absent hm).query
      exact h.near_of_qfQuery hkey hr
  refine ⟨hnear, fun l1 it l2 hf => ?_⟩
  have hrep := ha.hit l1 it l2 hf
  refine ⟨hrep.positive, ?_, ?_⟩
  · obtain ⟨r, hr, hp, hc, _⟩ := hrep.filter 0 0 ⟨0, 0, 0, 0, 0⟩
    unfold queryFilter at hr
    rw [h.qfGetCountUsingLlTableWithIndex_hit hnear hf (keyToHash_self qf hash)] at hr
    simp only [Option.bind_eq_bind, Option.bind_some] at hr
    split at hr
    · rw [← Option.some.inj hr] at hc
      simp only at hc
      omega
    · rw [← Option.some.inj hr] at hp
      exact absurd hp Int.zero_ne_one
  · obtain ⟨r, hr, _, hrank, _⟩ := hrep.getCountIndex 0 0
    rw [h.qfGetCountUsingLlTableWithIndex_hit hnear hf hkey] at hr
    rw [← Option.some.inj hr] at hrank
    simp only at hrank
    omega

end

def countedContents (count : Nat) : Contents :=
  Contents.single 0 ⟨0, [], [count % 256, count / 256]⟩

theorem countedContents_fits {count : Nat} (hc : count < 2^16) :
    (countedContents count).Fits (QFMetadata.init 4 8 56) := by
  have hw : (2:Nat)^(QFMetadata.init 4 8 56).bitsPerSlot = 256 := rfl
  apply Contents.single_fits (by decide) (by decide : 0 + 3 ≤ 56)
  · refine ⟨Nat.two_pow_pos 8, by simp, fun v hv => ?_⟩
    simp only [List.mem_cons, List.not_mem_nil, or_false] at hv
    rw [hw]
    omega
  · exact (by omega : 4 + 8 * 0 < 64)

theorem query_paths_agree_iff {qf : QF} {A : Contents} {hash flags : Nat} (h : WF qf A)
    (hk : hasFlag flags QF_KEY_IS_HASH = true) (hh : hash < 2^64) :
    PathsAgree qf A hash flags ↔ Reportable qf A hash := by
  have hkey := keyToHash_of_isHash qf hash hk
  constructor
  · exact h.reportable_of_agree hkey
  · intro hr
    exact ⟨fun l1 it l2 hf => h.allReport hkey hh hr hf, fun hm => h.allAbsent hkey hr.near hm⟩

theorem query_paths_agree_iff_counted :
    PathsAgree (QF.ofContents (QFMetadata.init 4 8 56) (countedContents 255)) (countedContents 255)
      0 QF_KEY_IS_HASH ↔ Reportable (QF.ofContents (QFMetadata.init 4 8 56) (countedContents 255))
        (countedContents 255) 0 :=
  query_paths_agree_iff ((countedContents_fits (by decide)).wf (Geometry.init (by decide)
    (by decide) (by decide) (by decide) (by decide))) (by decide) (by decide)

/-- A stored count of 256 becomes 0 in the `uint8_t` of `queryFilter`. -/
theorem query_paths_disagree_256 :
    WF (QF.ofContents (QFMetadata.init 4 8 56) (countedContents 256)) (countedContents 256) ∧
      ¬ PathsAgree (QF.ofContents (QFMetadata.init 4 8 56) (countedContents 256))
        (countedContents 256) 0 QF_KEY_IS_HASH := by
  have hwf := (countedContents_fits (by decide : 256 < 2^16)).wf (Geometry.init (by decide)
    (by decide) (by decide) (by decide) (by decide))
  refine ⟨hwf, fun ha => ?_⟩
  have hr := hwf.reportable_of_agree (keyToHash_self _ 0) ha
  have hf : FirstMatch (QFMetadata.init 4 8 56) 0 (countedContents 256 0) []
      ⟨0, [], [0, 1]⟩ [] := ⟨rfl, by decide, by simp⟩
  exact absurd (hr.narrow [] _ [] hf).2.1 (by decide)

end AdaptiveQF
