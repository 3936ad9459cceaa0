import AdaptiveQF.Invariant
import AdaptiveQF.Variants
import Mathlib.Tactic.Ring

/-! The ranks in a minirun that insertions report, and under which the reverse map keeps
the keys. -/
namespace AdaptiveQF
open RunLayout

def wiredTigerKey (quotientRemainderBits fingerprint : Nat) (rank : Int) : Nat :=
  let minirunBitmask := shl64 1 quotientRemainderBits - 1
  add64 (shl64 (fingerprint &&& minirunBitmask) (64 - quotientRemainderBits)) (toWord rank)

inductive LlOp
  | insert (key : Nat) (result : InsertResult) (flags : Nat)
  | adapt (origKey fpKey minirunRank flags : Nat)

namespace LlOp

def step (resize : QF → Nat → Option (Int × QF)) :
    LlOp → QF × List InsertResult → Option (QF × List InsertResult)
  | .insert key result flags, (qf, log) => do
    let ((ret, r), qf) ← qfInsertUsingLlTable resize qf key 1 result flags
    some (qf, if ret = 0 then r :: log else log)
  | .adapt origKey fpKey minirunRank flags, (qf, log) => do
    let (_, qf) ← qfAdaptUsingLlTable qf origKey fpKey minirunRank flags
    some (qf, log)

def Legal : LlOp → QF × List InsertResult → Prop
  | .insert key result flags, s => (Op.insertUsingLlTable key result flags).Legal s.1
  | .adapt origKey fpKey minirunRank flags, s =>
    (Op.adaptUsingLlTable origKey fpKey minirunRank flags).Legal s.1

/-- The minirun of an inserted key reads right and has less items than the reverse map has integer
keys for, as an `int` and above the minirun's id. An adapted item ends in front of slot 2^31. -/
def Sound : LlOp → QF × List InsertResult → Prop
  | .insert key _ flags, (qf, _) => ∀ A, Layout qf A →
    let hash := keyToHash qf key flags
    let items := A (qf.metadata.bucket hash)
    RankReads (qf.metadata.remainder hash) items ∧ rankOf qf.metadata hash items < 2^31 ∧
      rankOf qf.metadata hash items < 2^(64 - (qf.qbits + qf.bits))
  | .adapt origKey fpKey minirunRank flags, s =>
    (Op.adaptUsingLlTable origKey fpKey minirunRank flags).Sound s.1

def Reports (resize : QF → Nat → Option (Int × QF)) : LlOp → QF × List InsertResult → Prop
  | .insert key result flags, (qf, _) => ∀ A r qf', Layout qf A →
    qfInsertUsingLlTable resize qf key 1 result flags = some ((0, r), qf') →
      let hash := keyToHash qf key flags
      let rank := rankOf qf.metadata hash (A (qf.metadata.bucket hash))
      r = ⟨hash, minirunId qf hash, rank, decide (0 < rank)⟩
  | .adapt _ _ _ _, _ => True

end LlOp

section
variable {qf : QF} {A : Contents} {hash : Nat}

theorem rankOf_congr {m : QFMetadata} {y : Nat} (h : m.remainder y = m.remainder hash)
    (l : List Item) : rankOf m y l = rankOf m hash l := by
  unfold rankOf
  rw [h]

def Contents.insert (A : Contents) (m : QFMetadata) (hash : Nat) (l1 l2 : List Item) : Contents :=
  Function.update A (m.bucket hash) (l1 ++ Item.fresh (m.remainder hash) :: l2)

theorem Contents.rankOf_le_insert {m : QFMetadata} {l1 l2 : List Item}
    (hb : A (m.bucket hash) = l1 ++ l2) (y c : Nat) :
    rankOf m y (A c) ≤ rankOf m y (A.insert m hash l1 l2 c) := by
  by_cases hc : c = m.bucket hash
  · rw [hc, hb, Contents.insert, Function.update_self]
    unfold rankOf
    rw [List.countP_append, List.countP_append, List.countP_cons]
    omega
  · rw [Contents.insert, Function.update_of_ne hc]

theorem Contents.rankOf_insert {m : QFMetadata} {l1 l2 : List Item}
    (hb : A (m.bucket hash) = l1 ++ l2) :
    rankOf m hash (A.insert m hash l1 l2 (m.bucket hash)) =
      rankOf m hash (A (m.bucket hash)) + 1 := by
  rw [hb, Contents.insert, Function.update_self]
  simp [rankOf, Item.fresh]
  omega

theorem Regular.insertReported (h : Regular qf A) (resize : QF → Nat → Option (Int × QF))
    {key flags : Nat} (hh : keyToHash qf key flags = hash) (hs : LlFindsSpace qf hash)
    (hreads : RankReads (qf.metadata.remainder hash) (A (qf.metadata.bucket hash)))
    (hf : full qf = false) (result : InsertResult) :
    ∃ qf' l1 l2, qfInsertUsingLlTable resize qf key 1 result flags =
        some ((0, ⟨hash, minirunId qf hash, rankOf qf.metadata hash (A (qf.metadata.bucket hash)),
          decide (0 < rankOf qf.metadata hash (A (qf.metadata.bucket hash)))⟩), qf') ∧
      qf.Keeps qf' ∧ A (qf.metadata.bucket hash) = l1 ++ l2 ∧
      Regular qf' (A.insert qf.metadata hash l1 l2) := by
  obtain ⟨n, hn⟩ : ∃ n, n = rankOf qf.metadata hash (A (qf.metadata.bucket hash)) := ⟨_, rfl⟩
  have hrank := h.layout.llRank_eq hreads
  rw [← hn] at hrank ⊢
  obtain ⟨qf', l1, l2, p, h1, h2, h3, -⟩ :=
    h.layout.insertUsingLlTableWork_eq ⟨hash, minirunId qf hash, 0, false⟩ hs hrank
  have hk : qf.Keeps qf' := ⟨_, _, _, h2⟩
  have hins := insertUsingLlTable_eq h.idle _ 1 flags h1 hk.locks
  have hresult : (if decide (0 < n) then
      (⟨hash, minirunId qf hash, n, true⟩ : InsertResult)
      else ⟨hash, minirunId qf hash, 0, false⟩) =
        ⟨hash, minirunId qf hash, n, decide (0 < n)⟩ := by
    cases n <;> simp
  rw [hresult] at hins
  have hcall : qfInsertUsingLlTable resize qf key 1 result flags =
      some ((0, ⟨hash, minirunId qf hash, n, decide (0 < n)⟩), qf') := by
    simp [qfInsertUsingLlTable, checkLoad_idle h.idle resize, hf, hh, hins]
  have hsplit := h3.places.placed.split
  refine ⟨qf', l1, l2, hcall, hk, hsplit, h.replace hk h3.layout fun x hx => ?_⟩
  rcases List.mem_append.mp hx with hx | hx
  · exact h.plain_left hsplit x hx
  · rcases List.mem_cons.mp hx with rfl | hx
    · rfl
    · exact h.plain_right hsplit x hx

/-- Different ids or ranks have different integer keys. -/
theorem wiredTigerKey_inj {n id id2 rank rank2 : Nat} (hn : 0 < n) (hn2 : n < 64)
    (hid : id < 2^n) (hid2 : id2 < 2^n) (hr : rank < 2^31) (hr2 : rank2 < 2^31)
    (hf : rank < 2^(64-n)) (hf2 : rank2 < 2^(64-n))
    (h : wiredTigerKey n id (toInt rank) = wiredTigerKey n id2 (toInt rank2)) :
    id = id2 ∧ rank = rank2 := by
  have hpow : 2^n * 2^(64-n) = 2^64 := by
    rw [← pow_add]
    congr 1
    omega
  have hkey : ∀ i r, i < 2^n → r < 2^31 → r < 2^(64-n) →
      wiredTigerKey n i (toInt r) = i * 2^(64-n) + r := by
    intro i r hi hr hf
    have hlt : i * 2^(64-n) + r < 2^64 := by
      calc i * 2^(64-n) + r < i * 2^(64-n) + 2^(64-n) := by omega
        _ = (i+1) * 2^(64-n) := by ring
        _ ≤ 2^n * 2^(64-n) := Nat.mul_le_mul_right _ hi
        _ = 2^64 := hpow
    have hmask : shl64 1 n - 1 = bitmask n := by
      rw [bitmask, if_neg (by omega)]
    have hrank : toWord (r : Int) = r := by
      unfold toWord
      omega
    unfold wiredTigerKey
    dsimp only
    rw [hmask, and_bitmask _ (by omega), Nat.mod_eq_of_lt hi, shl64_eq (by omega) (by omega),
      toInt_of_lt hr, hrank, add64, Nat.mod_eq_of_lt hlt]
  rw [hkey _ _ hid hr hf, hkey _ _ hid2 hr2 hf2] at h
  have hpos := Nat.two_pow_pos (64-n)
  have hdiv : id = id2 := by
    have hq : ∀ i r, r < 2^(64-n) → (i * 2^(64-n) + r) / 2^(64-n) = i := by
      intro i r hr
      rw [Nat.mul_comm, Nat.mul_add_div hpos, Nat.div_eq_of_lt hr, Nat.add_zero]
    rw [← hq id rank hf, h, hq id2 rank2 hf2]
  subst hdiv
  exact ⟨rfl, by omega⟩

/-- The reports name places in miniruns that are there, each place once. -/
structure Ranked (qf0 : QF) (A : Contents) (s : QF × List InsertResult) : Prop where
  regular : Regular s.1 A
  keeps : qf0.Keeps s.1
  below : ∀ r ∈ s.2, r.minirunId = minirunId qf0 r.hash ∧
    r.minirunRank < rankOf qf0.metadata r.hash (A (qf0.metadata.bucket r.hash))
  fits : ∀ r ∈ s.2, r.minirunRank < 2^31 ∧ r.minirunRank < 2^(64 - (qf0.qbits + qf0.bits))
  nodup : (s.2.map fun r => (r.minirunId, r.minirunRank)).Nodup

theorem QF.Zeroed.ranked {qf : QF} (h : qf.Zeroed) : Ranked qf Contents.empty (qf, []) :=
  ⟨h.regular, .refl qf, by simp, by simp, by simp⟩

theorem QF.Keeps.rankOf {qf0 : QF} (h : qf0.Keeps qf) (y : Nat) (l : List Item) :
    rankOf qf.metadata y l = AdaptiveQF.rankOf qf0.metadata y l := by
  unfold AdaptiveQF.rankOf
  rw [h.remainder]

theorem Ranked.mono {qf0 : QF} {log : List InsertResult} (h : Ranked qf0 A (qf, log)) {qf' : QF}
    {A' : Contents} (hreg : Regular qf' A') (hk : qf0.Keeps qf')
    (hle : ∀ y c, rankOf qf0.metadata y (A c) ≤ rankOf qf0.metadata y (A' c)) :
    Ranked qf0 A' (qf', log) where
  regular := hreg
  keeps := hk
  below r hr := ⟨(h.below r hr).1, (h.below r hr).2.trans_le (hle _ _)⟩
  fits := h.fits
  nodup := h.nodup

theorem Ranked.report {qf0 : QF} {log : List InsertResult} (hg : Geometry qf0.metadata)
    (h : Ranked qf0 A (qf, log)) {qf' : QF} {A' : Contents} (hreg : Regular qf' A')
    (hk : qf0.Keeps qf')
    (hle : ∀ y c, rankOf qf0.metadata y (A c) ≤ rankOf qf0.metadata y (A' c))
    {n : Nat} (hn : n = rankOf qf0.metadata hash (A (qf0.metadata.bucket hash)))
    (hone : rankOf qf0.metadata hash (A' (qf0.metadata.bucket hash)) = n + 1)
    (h31 : n < 2^31) (hfit : n < 2^(64 - (qf0.qbits + qf0.bits))) (existed : Bool) :
    Ranked qf0 A' (qf', ⟨hash, minirunId qf0 hash, n, existed⟩ :: log) where
  regular := hreg
  keeps := hk
  below r hr := by
    cases List.mem_cons.mp hr with
    | inl heq =>
      rw [heq]
      exact ⟨rfl, by simp only [hone]; omega⟩
    | inr hr => exact (h.mono hreg hk hle).below r hr
  fits r hr := by
    cases List.mem_cons.mp hr with
    | inl heq =>
      rw [heq]
      exact ⟨h31, hfit⟩
    | inr hr => exact h.fits r hr
  nodup := by
    rw [List.map_cons, List.nodup_cons]
    refine ⟨fun hmem => ?_, h.nodup⟩
    obtain ⟨r, hr, heq⟩ := List.mem_map.mp hmem
    obtain ⟨hid, hrank⟩ := Prod.mk.inj heq
    obtain ⟨hown, hlt⟩ := h.below r hr
    obtain ⟨hb, hrem⟩ := hg.minirunId_eq_iff.mp (hown.symm.trans hid)
    rw [hb, rankOf_congr hrem, ← hn, hrank] at hlt
    exact absurd hlt (Nat.lt_irrefl n)

variable (resize : QF → Nat → Option (Int × QF))

theorem qfInsertUsingLlTable_full (hi : qf.Idle) (hf : full qf = true) (key : Nat)
    (result : InsertResult) (flags : Nat) :
    qfInsertUsingLlTable resize qf key 1 result flags = some ((noSpace, result), qf) := by
  simp [qfInsertUsingLlTable, checkLoad_idle hi resize, hf]

theorem Ranked.reports {s : QF × List InsertResult} {qf0 : QF} (h : Ranked qf0 A s) (op : LlOp)
    (hl : op.Legal s) (hs : op.Sound s) : op.Reports resize s := by
  obtain ⟨qf, log⟩ := s
  cases op with
  | adapt _ _ _ _ => exact trivial
  | insert key result flags =>
    intro B r qf' hB hcall
    obtain rfl := h.regular.layout.unique hB
    cases hf : full qf with
    | true =>
      rw [qfInsertUsingLlTable_full resize h.regular.idle hf] at hcall
      simp [noSpace] at hcall
    | false =>
      obtain ⟨q, _, _, hins, -⟩ := h.regular.insertReported resize rfl hl (hs A hB).1 hf result
      rw [hcall] at hins
      exact (Prod.mk.inj (Prod.mk.inj (Option.some.inj hins)).1).2

theorem Ranked.step {qf0 : QF} (hg : Geometry qf0.metadata) {s : QF × List InsertResult}
    (h : Ranked qf0 A s) (op : LlOp) (hl : op.Legal s) (hs : op.Sound s) :
    ∃ s', op.step resize s = some s' ∧ ∃ A', Ranked qf0 A' s' := by
  obtain ⟨qf, log⟩ := s
  cases op with
  | adapt origKey fpKey minirunRank flags =>
    obtain ⟨hid, B, l1, it, l2, hst, rfl⟩ := hl
    obtain rfl := h.regular.layout.unique hst.layout
    obtain ⟨qf', h1, hk, A', hreg, hrems⟩ :=
      h.regular.adaptUsingLlTable hid hst (hs _ _ _ _ hst rfl)
    refine ⟨(qf', log), by simp [LlOp.step, h1], A', h.mono hreg (h.keeps.trans hk) ?_⟩
    exact fun y c => (hrems.rankOf _ _ _).ge
  | insert key result flags =>
    cases hf : full qf with
    | true =>
      refine ⟨(qf, log), ?_, A, h⟩
      simp [LlOp.step, qfInsertUsingLlTable_full resize h.regular.idle hf, noSpace]
    | false =>
      obtain ⟨hash, hhash⟩ : ∃ x, x = keyToHash qf key flags := ⟨_, rfl⟩
      obtain ⟨hreads, h31, hfit⟩ := hs A h.regular.layout
      have hspace : LlFindsSpace qf (keyToHash qf key flags) := hl
      rw [← hhash] at hreads h31 hfit hspace
      obtain ⟨qf', l1, l2, hins, hk, hsplit, hreg⟩ :=
        h.regular.insertReported resize hhash.symm hspace hreads hf result
      have hle := Contents.rankOf_le_insert hsplit
      have hone := Contents.rankOf_insert hsplit
      generalize A.insert qf.metadata hash l1 l2 = A' at hreg hle hone
      have hk0 := h.keeps
      have hbucket : qf.metadata.bucket hash = qf0.metadata.bucket hash := by
        rw [hk0.bucket]
      have hbits : qf.qbits + qf.bits = qf0.qbits + qf0.bits := by
        rw [hk0.qbits, hk0.bits]
      simp only [hk0.rankOf, hbucket] at h31 hfit hle hone hins
      rw [hbits] at hfit
      rw [hk0.minirunId] at hins
      refine ⟨_, by simp only [LlOp.step, hins]; rfl, A', ?_⟩
      exact h.report hg hreg (hk0.trans hk) hle rfl hone h31 hfit _

end

/-- Over any run whose insertions meet a minirun that reads right: every insertion reports the items
of the minirun so far, and no place in a minirun, and no integer key, is reported twice. -/
theorem minirun_ranks_unique {qf : QF} (h : qf.Zeroed) (resize : QF → Nat → Option (Int × QF))
    {ops : List LlOp} (hops : Runs.Along (fun op s => op.Legal s ∧ op.Sound s)
      (LlOp.step resize) ops (qf, [])) :
    Runs.Along (LlOp.Reports resize) (LlOp.step resize) ops (qf, []) ∧
      ∃ qf' log, Runs.run (LlOp.step resize) ops (qf, []) = some (qf', log) ∧
        (log.map fun r => (r.minirunId, r.minirunRank)).Nodup ∧
        (log.map fun r =>
          wiredTigerKey (qf.qbits + qf.bits) r.minirunId (toInt r.minirunRank)).Nodup := by
  have hstep : ∀ op s, (∃ A, Ranked qf A s) → (LlOp.Legal op s ∧ LlOp.Sound op s) →
      ∃ s', LlOp.step resize op s = some s' ∧ ∃ A, Ranked qf A s' := by
    rintro op s ⟨A, hA⟩ ⟨hl, hs⟩
    exact hA.step resize h.geometry op hl hs
  have hkeep : ∀ op s s', (∃ A, Ranked qf A s) → (LlOp.Legal op s ∧ LlOp.Sound op s) →
      LlOp.step resize op s = some s' → ∃ A, Ranked qf A s' := by
    intro op s s' hs hok hs'
    obtain ⟨s1, h1, hA⟩ := hstep op s hs hok
    obtain rfl := Option.some.inj (hs'.symm.trans h1)
    exact hA
  have hreport : ∀ op s, (∃ A, Ranked qf A s) → (LlOp.Legal op s ∧ LlOp.Sound op s) →
      LlOp.Reports resize op s := by
    rintro op s ⟨A, hA⟩ ⟨hl, hs⟩
    exact hA.reports resize op hl hs
  constructor
  · exact Runs.along_of_invariant hkeep hreport ⟨_, h.ranked⟩ hops
  · obtain ⟨⟨qf', log⟩, hrun, A, hA⟩ := Runs.invariant hstep ⟨_, h.ranked⟩ hops
    refine ⟨qf', log, hrun, hA.nodup, ?_⟩
    have hid : ∀ r ∈ log, r.minirunId < 2^(qf.qbits + qf.bits) := by
      intro r hr
      rw [(hA.below r hr).1, h.geometry.minirunId_eq]
      exact Nat.mod_lt _ (Nat.two_pow_pos _)
    have hpos : 0 < qf.qbits + qf.bits := by
      have hbits : 2 ≤ qf.bits := h.geometry.bits
      omega
    have hpair := List.pairwise_map.mp hA.nodup
    refine List.pairwise_map.mpr (List.Pairwise.imp_of_mem ?_ hpair)
    intro r r2 hr hr2 hne hkey
    obtain ⟨h31, hfit⟩ := hA.fits r hr
    obtain ⟨h31', hfit'⟩ := hA.fits r2 hr2
    obtain ⟨heq, heq2⟩ := wiredTigerKey_inj hpos h.geometry.hashBits (hid r hr) (hid r2 hr2)
      h31 h31' hfit hfit' hkey
    exact hne (Prod.ext heq heq2)

/-! Three keys of one minirun. The first item has an extension slot when the last key comes, and the
loop stops at that slot. -/

def llInsert (key : Nat) : LlOp := .insert key ⟨0, 0, 0, false⟩ QF_KEY_IS_HASH

def sharedMinirun : List LlOp := [llInsert 0, llInsert 32]

def growFirst : LlOp := .adapt 32 64 0 QF_KEY_IS_HASH

theorem Layout.sound_of_short {qf : QF} {A : Contents} (h : Layout qf A) {key : Nat}
    (hl : (A (qf.metadata.bucket (keyToHash qf key QF_KEY_IS_HASH))).length ≤ 1)
    (log : List InsertResult) : (llInsert key).Sound (qf, log) := by
  intro B hB
  obtain rfl := h.unique hB
  have hrank := (List.countP_le_length
    (p := fun it => it.rem = qf.metadata.remainder (keyToHash qf key QF_KEY_IS_HASH))).trans hl
  have hbits : qf.qbits + qf.bits < 64 := h.geometry.hashBits
  have hfit : 1 < 2^(64 - (qf.qbits + qf.bits)) := Nat.one_lt_two_pow (by omega)
  refine ⟨?_, hrank.trans_lt (by norm_num), hrank.trans_lt hfit⟩
  unfold RankReads
  match A (qf.metadata.bucket (keyToHash qf key QF_KEY_IS_HASH)), hl with
  | [], _ => exact .nil
  | [x], _ => exact .singleton x

theorem sharedMinirun_ok : Runs.Along (fun op s => LlOp.Legal op s ∧ LlOp.Sound op s)
    (LlOp.step noResize) sharedMinirun (smallFilter, []) := by
  have hreg := smallFilter_zeroed.regular
  have hfirst : LlFindsSpace smallFilter 0 ∧ full smallFilter = false := by decide +kernel
  have hsound : (llInsert 0).Sound (smallFilter, []) :=
    hreg.layout.sound_of_short (by simp) []
  refine ⟨⟨hfirst.1, hsound⟩, fun s1 h1 => ?_⟩
  have hsecond : ∀ s ∈ LlOp.step noResize (llInsert 0) (smallFilter, []),
      LlFindsSpace s.1 32 ∧ s.1.metadata.bucket 32 = 0 := by decide +kernel
  obtain ⟨hspace, hb⟩ := hsecond s1 h1
  obtain ⟨qf', l1, l2, hins, -, hsplit, hreg1⟩ := hreg.insertReported noResize
    (show keyToHash smallFilter 0 QF_KEY_IS_HASH = 0 from rfl) hfirst.1
    (hsound _ hreg.layout).1 hfirst.2 ⟨0, 0, 0, false⟩
  obtain ⟨qf1, log⟩ := s1
  have hq : qf1 = qf' := by
    simp only [LlOp.step, llInsert, hins, Option.bind_eq_bind, Option.bind_some,
      Option.some.injEq, Prod.mk.injEq] at h1
    exact h1.1.symm
  subst hq
  refine ⟨⟨hspace, hreg1.layout.sound_of_short ?_ log⟩, fun _ _ => trivial⟩
  have hnil := List.append_eq_nil_iff.mp hsplit.symm
  have hkey : keyToHash qf1 32 QF_KEY_IS_HASH = 32 := rfl
  rw [hkey, hb, hnil.1, hnil.2, Contents.insert]
  rfl

theorem minirun_ranks_unique_shared :
    Runs.Along (LlOp.Reports noResize) (LlOp.step noResize) sharedMinirun (smallFilter, []) ∧
      ∃ qf' log, Runs.run (LlOp.step noResize) sharedMinirun (smallFilter, []) = some (qf', log) ∧
        (log.map fun r => (r.minirunId, r.minirunRank)).Nodup ∧
        (log.map fun r => wiredTigerKey (smallFilter.qbits + smallFilter.bits) r.minirunId
          (toInt r.minirunRank)).Nodup :=
  minirun_ranks_unique smallFilter_zeroed noResize sharedMinirun_ok

theorem growFirst_legal : Runs.Along LlOp.Legal (LlOp.step noResize)
    (sharedMinirun ++ [growFirst]) (smallFilter, []) := by
  refine Runs.along_concat (Runs.along_mono (fun _ _ h => h.1) sharedMinirun_ok) fun s hs => ?_
  have hslots : ∀ s ∈ Runs.run (LlOp.step noResize) sharedMinirun (smallFilter, []),
      (Contents.ofList [[⟨0, [], []⟩, ⟨0, [], []⟩]]).Shown s.1 ∧ s.1.metadata.nslots = 8 ∧
        minirunId s.1 32 = minirunId s.1 64 ∧ s.1.metadata.bucket 64 = 0 ∧
        s.1.metadata.remainder 64 = 0 := by decide +kernel
  obtain ⟨hshown, hn, hid, hb, hr⟩ := hslots s hs
  have hstep : ∀ op s, (∃ A, Ranked smallFilter A s) → (LlOp.Legal op s ∧ LlOp.Sound op s) →
      ∃ s', LlOp.step noResize op s = some s' ∧ ∃ A, Ranked smallFilter A s' := by
    rintro op s ⟨A, hA⟩ ⟨hl, hs⟩
    exact hA.step noResize smallFilter_zeroed.geometry op hl hs
  obtain ⟨s', hrun, A, hA⟩ := Runs.invariant hstep ⟨_, smallFilter_zeroed.ranked⟩ sharedMinirun_ok
  obtain rfl := Option.some.inj (hs.symm.trans hrun)
  obtain rfl := hA.regular.layout.eq_ofList (by rw [hn]; decide) hshown
  refine ⟨hid, _, [], ⟨0, [], []⟩, [⟨0, [], []⟩], ⟨hA.regular.layout, ?_, hr.symm⟩, rfl⟩
  rw [keyToHash_self, hb]
  rfl

/-- The third key is told the rank of the second. -/
theorem minirun_rank_reused : smallFilter.Zeroed ∧
    Runs.Along LlOp.Legal (LlOp.step noResize) (sharedMinirun ++ [growFirst] ++ [llInsert 64])
      (smallFilter, []) ∧
    ∃ qf' log, Runs.run (LlOp.step noResize) (sharedMinirun ++ [growFirst] ++ [llInsert 64])
        (smallFilter, []) = some (qf', log) ∧
      ¬ (log.map fun r => (r.minirunId, r.minirunRank)).Nodup := by
  have hspace : ∀ s ∈ Runs.run (LlOp.step noResize) (sharedMinirun ++ [growFirst])
      (smallFilter, []), LlFindsSpace s.1 64 := by decide +kernel
  have hlog : ∃ s ∈ Runs.run (LlOp.step noResize) (sharedMinirun ++ [growFirst] ++ [llInsert 64])
      (smallFilter, []), ¬ (s.2.map fun r => (r.minirunId, r.minirunRank)).Nodup := by
    decide +kernel
  obtain ⟨⟨qf', log⟩, hrun, hdup⟩ := hlog
  exact ⟨smallFilter_zeroed, Runs.along_concat growFirst_legal hspace, qf', log, hrun, hdup⟩

end AdaptiveQF
