import AdaptiveQF.Invariant
import AdaptiveQF.Tally

/-! The calls with any counts, and removals: what each does to the items and to the counters. -/
namespace AdaptiveQF
open RunLayout

inductive Call
  | insertRet (key count : Nat) (out : InsertOut) (flags : Nat)
  | insertUsingLlTable (key count : Nat) (result : InsertResult) (flags : Nat)
  | insertAndExtend (index key count otherKey retHash retOtherHash flags : Nat)
  | adapt (index key otherKey retHash flags : Nat)
  | adaptUsingLlTable (origKey fpKey minirunRank flags : Nat)
  | remove (key : Nat) (out : RemoveOut) (flags : Nat)

def Call.exec (resize : QF → Nat → Option (Int × QF)) : Call → QF → Option (Int × QF)
  | .insertRet key count out flags, qf =>
    (qfInsertRet resize qf key count out flags).map fun r => (r.1.1, r.2)
  | .insertUsingLlTable key count result flags, qf =>
    (qfInsertUsingLlTable resize qf key count result flags).map fun r => (r.1.1, r.2)
  | .insertAndExtend index key count otherKey retHash retOtherHash flags, qf =>
    (AdaptiveQF.insertAndExtend qf index key count otherKey retHash retOtherHash flags).map
      fun r => (r.1.ret, r.2)
  | .adapt index key otherKey retHash flags, qf =>
    (qfAdapt qf index key otherKey retHash flags).map fun r => (r.1, r.2.2)
  | .adaptUsingLlTable origKey fpKey minirunRank flags, qf =>
    qfAdaptUsingLlTable qf origKey fpKey minirunRank flags
  | .remove key out flags, qf => (qfRemove qf key out flags).map fun r => (r.1.1, r.2)

def Call.step (resize : QF → Nat → Option (Int × QF)) (c : Call) (qf : QF) : Option QF :=
  (c.exec resize qf).map Prod.snd

structure ItemOf (qf : QF) (A : Contents) (hash index : Nat) (l1 : List Item) (it : Item)
    (l2 : List Item) : Prop extends InMinirun qf A hash l1 it l2 where
  index_eq : index = A.pos (qf.metadata.bucket hash) l1

def Item.Counts (w : Nat) (it : Item) : Prop :=
  it.cnt = [] ∨ ∃ c, 0 < c ∧ c < 2^64 ∧ it.cnt = Nat.digits (2^w) c

structure Tidy (qf : QF) (A : Contents) : Prop extends WF qf A where
  idle : qf.Idle
  counts : ∀ b, ∀ it ∈ A b, it.Counts qf.bits

structure Swapped (qf : QF) (A : Contents) (b : Nat) (l1 old new l2 : List Item) (qf' : QF) :
    Prop where
  split : A b = l1 ++ old ++ l2
  keeps : qf.Keeps qf'
  tidy : Tidy qf' (Function.update A b (l1 ++ new ++ l2))

structure Removes (qf : QF) (A : Contents) (hash flags : Nat) : Prop where
  near : Near qf.metadata A hash
  passes : Passes qf.metadata A hash
  offsets : ∀ l1 it l2, FirstMatch qf.metadata hash (A (qf.metadata.bucket hash)) l1 it l2 →
    OffsetsRepairable qf (qf.metadata.bucket hash) A.lens
      (Contents.lens (Function.update A (qf.metadata.bucket hash) (l1 ++ l2)))
  unlocked : hasFlag flags QF_NO_LOCK = true ∨ A (qf.metadata.bucket hash) ≠ []

/-! What the callers see to, and what else the calls rely on. -/

def Extendable (qf : QF) (hash other index : Nat) : Prop :=
  ∃ A l1 it l2, ItemOf qf A hash index l1 it l2 ∧
    (hash ≠ other → qf.metadata.fingerprintLen it.ext.length < 64)

def Call.Legal : Call → QF → Prop
  | .insertRet _ count _ _, _ => 0 < count ∧ count < 2^64
  | .insertUsingLlTable _ count _ _, _ => 0 < count ∧ count < 2^64
  | .insertAndExtend index key count otherKey _ _ flags, qf => (0 < count ∧ count < 2^64) ∧
    minirunId qf (keyToHash qf key flags) = minirunId qf (keyToHash qf otherKey flags) ∧
      Extendable qf (keyToHash qf key flags) (keyToHash qf otherKey flags) index
  | .adapt index key otherKey _ flags, qf =>
    Extendable qf (keyToHash qf key flags) (keyToHash qf otherKey flags) index
  | .adaptUsingLlTable origKey fpKey minirunRank flags, qf =>
    minirunId qf (keyToHash qf origKey flags) = minirunId qf (keyToHash qf fpKey flags) ∧
      ∃ A l1 it l2, InMinirun qf A (keyToHash qf fpKey flags) l1 it l2 ∧
        minirunRank = rankOf qf.metadata (keyToHash qf fpKey flags) l1 ∧
        (keyToHash qf fpKey flags ≠ keyToHash qf origKey flags →
          qf.metadata.fingerprintLen it.ext.length < 64)
  | .remove _ _ _, _ => True

def Call.HasRoom : Call → QF → Prop
  | .insertRet key count _ flags, qf => full qf = false → ∀ A l1 l2 p, Layout qf A →
    locateInsert qf (keyToHash qf key flags) flags = some p →
      Places qf A (keyToHash qf key flags) l1 l2 p → (counterOf qf.bits count).length <
        A.free qf (A.pos (qf.metadata.bucket (keyToHash qf key flags)) l1)
  | .insertUsingLlTable key count _ flags, qf => full qf = false → ∀ A l1 l2 p, Layout qf A →
    locateLl qf (keyToHash qf key flags) = some p →
      Places qf A (keyToHash qf key flags) l1 l2 p → (counterOf qf.bits count).length <
        A.free qf (A.pos (qf.metadata.bucket (keyToHash qf key flags)) l1)
  | .insertAndExtend index key count otherKey _ _ flags, qf => ∀ A l1 it l2,
    ItemOf qf A (keyToHash qf key flags) index l1 it l2 →
      (keyToHash qf key flags = keyToHash qf otherKey flags →
        it.newSlots qf.bits count ≤ A.free qf index) ∧
      (keyToHash qf key flags ≠ keyToHash qf otherKey flags →
        (qf.wantedDigits (keyToHash qf otherKey flags) (keyToHash qf key flags)
          it.ext.length).length + 1 +
        (qf.wantedDigits (keyToHash qf key flags) (keyToHash qf otherKey flags) 0).length +
          (counterOf qf.bits count).length ≤ A.free qf index)
  | _, _ => True

/-- The decoded items end in front of slot 2^31, no slot misleads the rank loop of
`insert_using_ll_table`, a counter is written where its item is, and no extension takes the slot of
a counter. What a removal needs besides is in `Removes`. -/
def Call.Sound : Call → QF → Prop
  | .insertRet key count _ flags, qf => full qf = false → ∀ A, Layout qf A →
    (hasFlag flags QF_TRY_ONCE_LOCK = false → CodeNear qf A (keyToHash qf key flags)) ∧
      ∀ l1 l2 p, locateInsert qf (keyToHash qf key flags) flags = some p →
        Places qf A (keyToHash qf key flags) l1 l2 p → 1 < count →
          Countable qf A (keyToHash qf key flags) l1 p
  | .insertUsingLlTable key count _ flags, qf => full qf = false → ∀ A, Layout qf A →
    RankStops (qf.metadata.remainder (keyToHash qf key flags))
      (A (qf.metadata.bucket (keyToHash qf key flags))) ∧
      ∀ l1 l2 p, locateLl qf (keyToHash qf key flags) = some p →
        Places qf A (keyToHash qf key flags) l1 l2 p → 1 < count →
          Countable qf A (keyToHash qf key flags) l1 p
  | .insertAndExtend index key count otherKey _ _ flags, qf => ∀ A l1 it l2,
    ItemOf qf A (keyToHash qf key flags) index l1 it l2 → index + it.len < 2^31 ∧
      (keyToHash qf key flags = keyToHash qf otherKey flags →
        (it.cnt = [] ∨ it.packedExt qf.bits = it.ext.length) ∧
          it.count qf.bits + count < 2^64) ∧
      (keyToHash qf key flags ≠ keyToHash qf otherKey flags → it.cnt = [] ∧ (1 < count →
        qf.metadata.bucket (keyToHash qf (keyToHash qf key flags) flags) =
          qf.metadata.bucket (keyToHash qf key flags) ∧
        index + 1 + (qf.wantedDigits (keyToHash qf key flags) (keyToHash qf otherKey flags)
          0).length < 2^31))
  | .adapt index key otherKey _ flags, qf => ∀ A l1 it l2,
    ItemOf qf A (keyToHash qf key flags) index l1 it l2 → index + it.len < 2^31 ∧
      (keyToHash qf key flags ≠ keyToHash qf otherKey flags → it.cnt = [])
  | .adaptUsingLlTable origKey fpKey minirunRank flags, qf => ∀ A l1 it l2,
    InMinirun qf A (keyToHash qf fpKey flags) l1 it l2 →
      minirunRank = rankOf qf.metadata (keyToHash qf fpKey flags) l1 →
        A.pos (qf.metadata.bucket (keyToHash qf fpKey flags)) l1 + it.len < 2^31 ∧
          (keyToHash qf fpKey flags ≠ keyToHash qf origKey flags → it.cnt = [])
  | .remove key _ flags, qf => ∀ A, Layout qf A → Removes qf A (keyToHash qf key flags) flags

namespace Item

variable {it : Item} {w c n : Nat}

theorem count_withCounter_digits (hw : 0 < w) (h0 : 0 < c) (hc : c < 2^64) (it : Item) :
    (it.withCounter (Nat.digits (2^w) c)).count w = c := by
  have hne : Nat.digits (2^w) c ≠ [] := Nat.digits_ne_nil_iff_ne_zero.mpr (by omega)
  rw [count, withCounter, if_neg hne, packFrom_digits hw hc]

theorem count_counterOf (hw : 0 < w) (h0 : 0 < c) (hc : c < 2^64) (it : Item) :
    (it.withCounter (counterOf w c)).count w = c := by
  by_cases hone : c = 1
  · rw [counterOf, if_pos hone, hone]
    rfl
  · rw [counterOf, if_neg hone]
    exact count_withCounter_digits hw h0 hc it

theorem counts_counterOf (h0 : 0 < c) (hc : c < 2^64) (it : Item) :
    (it.withCounter (counterOf w c)).Counts w := by
  by_cases hone : c = 1
  · exact .inl (by rw [counterOf, if_pos hone]; rfl)
  · exact .inr ⟨c, h0, hc, by rw [counterOf, if_neg hone]; rfl⟩

theorem Counts.count_pos (h : it.Counts w) (hw : 0 < w) : 0 < it.count w := by
  rcases h with h | ⟨c, h0, hc, h⟩
  · rw [count, if_pos h]
    exact Nat.one_pos
  · have hcount := count_withCounter_digits hw h0 hc it
    rw [← h] at hcount
    exact h0.trans_le (Nat.le_of_eq hcount.symm)

/-- What is added to a count ends up in the counter. -/
theorem Counts.addCount_eq (h : it.Counts w) (hw : 0 < w) :
    it.addCount w n = it.withCounter (Nat.digits (2^w) (it.count w + n)) := by
  rcases h with h | ⟨c, h0, hc, h⟩
  · rw [Item.addCount_plain h, count, if_pos h]
  · have hcount : it.count w = c := by
      have hcount := count_withCounter_digits hw h0 hc it
      rw [← h] at hcount
      exact hcount
    rw [addCount, hcount, h, Digits.low_append_digits hw
      (Nat.le_length_digits_le _ _ _ (Nat.le_add_right c n))]

theorem count_extend (h : it.cnt = []) (w : Nat) (l : List Nat) : (it.extend l).count w = 1 :=
  if_pos (it.extend_plain h l)

end Item

section
variable {qf qf' : QF} {A : Contents} {hash other count : Nat} {b : Nat} {l1 l2 : List Item}
  {it : Item}

theorem QF.Zeroed.tidy (h : qf.Zeroed) : Tidy qf Contents.empty :=
  ⟨h.wf, ⟨h.autoResize, funext h.locks⟩, by simp⟩

theorem Tidy.bits_pos (h : Tidy qf A) : 0 < qf.bits := Nat.zero_lt_of_lt h.geometry.bits

/-- New items whose counters are in order. -/
theorem Tidy.swapped (h : Tidy qf A) {old new : List Item} (hb : A b = l1 ++ old ++ l2)
    (hk : qf.Keeps qf') (hlay : Layout qf' (Function.update A b (l1 ++ new ++ l2)))
    (hfits : ∀ x ∈ new, x.Fits qf.metadata) (hcounts : ∀ x ∈ new, x.Counts qf.bits) :
    Swapped qf A b l1 old new l2 qf' := by
  have hmem : ∀ x ∈ l1 ++ new ++ l2, x ∈ A b ∨ x ∈ new := by
    intro x hx
    simp only [hb, List.mem_append] at hx ⊢
    tauto
  refine ⟨hb, hk, h.toWF.replace hk hlay fun x hx => ?_, hk.idle h.idle, fun c x hx => ?_⟩
  · exact (hmem x hx).elim (h.fingerprint b x) (hfits x)
  · rw [hk.bits]
    by_cases hc : c = b
    · subst hc
      rw [Function.update_self] at hx
      exact (hmem x hx).elim (h.counts c x) (hcounts x)
    · rw [Function.update_of_ne hc] at hx
      exact h.counts c x hx

theorem Item.Fits.fresh (hg : Geometry qf.metadata) (r : Nat) (cnt : List Nat) :
    ((Item.fresh r).withCounter cnt).Fits qf.metadata := by
  have := hg.hashBits
  simp only [Item.Fits, Item.withCounter, Item.fresh, List.length_nil]
  omega

/-! One call each. -/

structure PutsCount (qf : QF) (A : Contents) (hash count : Nat) (l1 : List Item) (p : Placement) :
    Prop where
  room : (counterOf qf.bits count).length < A.free qf (A.pos (qf.metadata.bucket hash) l1)
  countable : 1 < count → Countable qf A hash l1 p

def newItem (qf : QF) (hash count : Nat) : Item :=
  (Item.fresh (qf.metadata.remainder hash)).withCounter (counterOf qf.bits count)

theorem Tidy.inserted (h : Tidy qf A) (hc : 0 < count) (hc2 : count < 2^64)
    (hb : A (qf.metadata.bucket hash) = l1 ++ l2) (hk : qf.Keeps qf')
    (hlay : Layout qf' (Function.update A (qf.metadata.bucket hash)
      (l1 ++ newItem qf hash count :: l2))) :
    Swapped qf A (qf.metadata.bucket hash) l1 [] [newItem qf hash count] l2 qf' := by
  apply h.swapped (by simpa using hb) hk (by simpa using hlay)
  · intro x hx
    rw [List.mem_singleton.mp hx]
    exact .fresh h.geometry _ _
  · intro x hx
    rw [List.mem_singleton.mp hx]
    exact Item.counts_counterOf hc hc2 _

/-- `qf_insert_ret` reports a full filter or a match, and otherwise stores the hash. -/
theorem Tidy.insertRet (h : Tidy qf A) {key flags : Nat} (hk : keyToHash qf key flags = hash)
    (hc : 0 < count) (hc2 : count < 2^64)
    (hn : full qf = false → hasFlag flags QF_TRY_ONCE_LOCK = false → CodeNear qf A hash)
    (hput : full qf = false → ∀ l1 l2 p, locateInsert qf hash flags = some p →
      Places qf A hash l1 l2 p → PutsCount qf A hash count l1 p)
    (resize : QF → Nat → Option (Int × QF)) (out : InsertOut) :
    ∃ r out' qf', qfInsertRet resize qf key count out flags = some ((r, out'), qf') ∧
      (qf' = qf ∧ (r = noSpace ∧ full qf = true ∨ r = 0) ∨
        full qf = false ∧ r = 1 ∧ qf.Tallied count 1 qf' ∧
          ∃ l1 l2,
            Swapped qf A (qf.metadata.bucket hash) l1 [] [newItem qf hash count] l2 qf') := by
  have hcheck := checkLoad_idle h.idle resize
  have hne : count ≠ 0 := by omega
  by_cases hf : full qf = true
  · refine ⟨noSpace, out, qf, ?_, .inl ⟨rfl, .inl ⟨rfl, hf⟩⟩⟩
    simp [qfInsertRet, hcheck, hf]
  · have hfalse : full qf = false := by simpa using hf
    have hcall : ∀ r out' qf', insertWork hash count out flags qf = some ((r, out'), qf') →
        qf.Keeps qf' → qfInsertRet resize qf key count out flags = some ((r, out'), qf') := by
      intro r out' qf' hw hkeep
      have hins := insert_eq h.idle count out flags hw hkeep.locks
      simp [qfInsertRet, hcheck, hfalse, hk, hne, hins]
    obtain ⟨p, hp, hcase⟩ := h.toLayout.locateInsert_eq flags (hn hfalse)
    rcases hcase with ⟨l1, it, l2, _, _, _, rfl⟩ | ⟨l1, l2, hpl, _⟩
    · exact ⟨_, _, qf, hcall _ _ _ (insertWork_matched hp count out) (.refl qf),
          .inl ⟨rfl, .inr rfl⟩⟩
    · obtain ⟨hroom, hcount⟩ := hput hfalse l1 l2 p hp hpl
      obtain ⟨qf', len, hw, -, hkeep, hlay⟩ :=
        h.toLayout.insertWork_new hp hpl hc hc2 hroom hcount out
      exact ⟨1, _, qf', hcall _ _ _ hw hkeep, .inr ⟨hfalse, rfl, insertWork_tallied hw hc, l1, l2,
        h.inserted hc hc2 hpl.placed.split hkeep hlay⟩⟩

theorem PlacedAt.elts_eq {p : Placement} (hp : PlacedAt A b l1 l2 p) (n : Nat) :
    p.elts n = if A b = [] then 1 else n := by
  cases hp with
  | home hu =>
    have hb : A b = [] := (PlacedAt.home hu).split
    exact (if_pos hb).symm
  | first hu hb => exact (if_pos hb).symm
  | between hb => exact (if_neg (by simp [hb])).symm
  | behind hb => exact (if_neg (by simp [hb])).symm

theorem Tidy.insertUsingLlTable (h : Tidy qf A) {key flags : Nat}
    (hk : keyToHash qf key flags = hash) (hc : 0 < count) (hc2 : count < 2^64)
    (hr : full qf = false → RankStops (qf.metadata.remainder hash) (A (qf.metadata.bucket hash)))
    (hput : full qf = false → ∀ l1 l2 p, locateLl qf hash = some p →
      Places qf A hash l1 l2 p → PutsCount qf A hash count l1 p)
    (resize : QF → Nat → Option (Int × QF)) (result : InsertResult) :
    ∃ r result' qf', qfInsertUsingLlTable resize qf key count result flags =
        some ((r, result'), qf') ∧
      (qf' = qf ∧ r = noSpace ∧ full qf = true ∨ full qf = false ∧ r = 0 ∧
        qf.Tallied ((if A (qf.metadata.bucket hash) = [] then 1 else count) + (count - 1)) 1 qf' ∧
        ∃ l1 l2, Swapped qf A (qf.metadata.bucket hash) l1 [] [newItem qf hash count] l2 qf') := by
  have hcheck := checkLoad_idle h.idle resize
  have hne : count ≠ 0 := by omega
  by_cases hf : full qf = true
  · refine ⟨noSpace, result, qf, ?_, .inl ⟨rfl, rfl, hf⟩⟩
    simp [qfInsertUsingLlTable, hcheck, hf]
  · have hfalse : full qf = false := by simpa using hf
    obtain ⟨l1, l2, p, hp, hpl, _⟩ := h.toLayout.locateLl_eq hash
    obtain ⟨hroom, hcount⟩ := hput hfalse l1 l2 p hp hpl
    obtain ⟨qf', result', hw, hkeep, hlay⟩ := h.toLayout.insertUsingLlTableWork_new
      ⟨hash, minirunId qf hash, 0, false⟩ hp hpl hc hc2 hroom hcount
      (h.toLayout.llRank_isSome (hr hfalse))
    have hins := insertUsingLlTable_eq h.idle _ count flags hw hkeep.locks
    have htally := insertUsingLlTableWork_tallied hw hp
      (by rintro i info rfl; cases hpl.placed) (by rintro last rfl; cases hpl.placed)
    rw [hpl.placed.elts_eq] at htally
    refine ⟨0, result', qf', ?_, .inr ⟨hfalse, rfl, htally, l1, l2,
      h.inserted hc hc2 hpl.placed.split hkeep hlay⟩⟩
    simp [qfInsertUsingLlTable, hcheck, hfalse, hk, hne, hins]

theorem Tidy.extendSame (h : Tidy qf A) (hb : A b = l1 ++ it :: l2)
    (hs : A.pos b l1 + it.len < 2^31) (hc : it.cnt = [] ∨ it.packedExt qf.bits = it.ext.length)
    (hbk : qf.metadata.bucket hash = b) (h0 : 0 < count) (hlt : it.count qf.bits + count < 2^64)
    (hspace : it.newSlots qf.bits count ≤ A.free qf (A.pos b l1)) :
    ∃ qf', AdaptiveQF.extendSame qf (A.pos b l1) hash count = some qf' ∧
      qf.Tallied count 0 qf' ∧ Swapped qf A b l1 [it]
        [it.withCounter (Nat.digits (2^qf.bits) (it.count qf.bits + count))] l2 qf' := by
  obtain ⟨qf', hcall, hk, hlay⟩ := h.toLayout.extendSame_eq hb hs hc hash count hbk hlt hspace
  rw [(h.counts b it (by simp [hb])).addCount_eq h.bits_pos] at hlay
  refine ⟨qf', hcall, extendSame_tallied hcall, h.swapped (by simpa using hb) hk
    (by simpa using hlay) (fun x hx => ?_) fun x hx => ?_⟩
  · rw [List.mem_singleton.mp hx]
    exact h.fingerprint b it (by simp [hb])
  · rw [List.mem_singleton.mp hx]
    exact .inr ⟨_, by omega, hlt, rfl⟩

/-- One more of an item. -/
theorem Tidy.insertAndExtend_same (h : Tidy qf A) {key otherKey flags index : Nat}
    (hk : keyToHash qf key flags = hash) (hk2 : keyToHash qf otherKey flags = hash)
    (hst : ItemOf qf A hash index l1 it l2) (hs : index + it.len < 2^31)
    (hc : it.cnt = [] ∨ it.packedExt qf.bits = it.ext.length) (h0 : 0 < count)
    (hlt : it.count qf.bits + count < 2^64)
    (hspace : it.newSlots qf.bits count ≤ A.free qf index) (retHash retOtherHash : Nat) :
    ∃ qf', insertAndExtend qf index key count otherKey retHash retOtherHash flags =
        some (⟨0, retHash, retOtherHash⟩, qf') ∧ qf.Tallied count 0 qf' ∧
      Swapped qf A (qf.metadata.bucket hash) l1 [it]
        [it.withCounter (Nat.digits (2^qf.bits) (it.count qf.bits + count))] l2 qf' := by
  obtain ⟨hin, rfl⟩ := hst
  obtain ⟨qf', hcall, htally, hsw⟩ := h.extendSame hin.split hs hc rfl h0 hlt hspace
  refine ⟨qf', ?_, htally, hsw⟩
  apply withLock_eq h.idle _ _ _ _ _ hsw.keeps.locks
  simp only [hk, hk2, ne_eq, not_true, if_false, if_true, hcall]
  rfl

theorem Tidy.extendCounted (h : Tidy qf A) (hb : A b = l1 ++ it :: l2) (hc : it.cnt = [])
    (hs : 1 < count → qf.metadata.bucket hash = b ∧ A.pos b l1 + it.len < 2^31) (h0 : 0 < count)
    (hlt : count < 2^64) (hspace : (counterOf qf.bits count).length ≤ A.free qf (A.pos b l1)) :
    ∃ qf', (if count > 1 then AdaptiveQF.extendSame qf (A.pos b l1) hash (count-1) else some qf) =
        some qf' ∧ qf.Tallied (count-1) 0 qf' ∧
      Swapped qf A b l1 [it] [it.withCounter (counterOf qf.bits count)] l2 qf' := by
  have hsplit : A b = l1 ++ [it] ++ l2 := by simpa using hb
  by_cases hone : count = 1
  · have hsame : it.withCounter (counterOf qf.bits count) = it := by
      rw [counterOf, if_pos hone, Item.withCounter, ← hc]
    have hzero : count - 1 = 0 := by omega
    refine ⟨qf, if_neg (by omega), hzero ▸ .of_sameFrame (.refl qf), hsplit,
      .of_sameFrame (.refl qf), ?_⟩
    rwa [hsame, ← hsplit, Function.update_eq_self]
  · obtain ⟨hbk, hlow⟩ := hs (by omega)
    have hcount : it.count qf.bits = 1 := if_pos hc
    have hsum : 1 + (count - 1) = count := by omega
    have hnew : it.newSlots qf.bits (count-1) = (counterOf qf.bits count).length := by
      rw [Item.newSlots, hcount, hsum, counterOf, if_neg hone]
      simp [hc]
    obtain ⟨qf', hcall, htally, hsw⟩ := h.extendSame hb hlow (.inl hc) hbk
      (by omega : 0 < count - 1) (by rw [hcount]; omega) (by rw [hnew]; exact hspace)
    refine ⟨qf', (if_pos (by omega)).trans hcall, htally, ?_⟩
    rw [hcount, hsum] at hsw
    rw [counterOf, if_neg hone]
    exact hsw

/-- A second item in front of one without counter, both extended. -/
theorem Tidy.insertAndExtend_other (h : Tidy qf A) {key otherKey flags index : Nat}
    (hk : keyToHash qf key flags = hash) (hk2 : keyToHash qf otherKey flags = other)
    (hne : hash ≠ other) (hid : minirunId qf hash = minirunId qf other)
    (hst : ItemOf qf A hash index l1 it l2) (hs : index + it.len < 2^31)
    (hc : it.cnt = []) (hlen : qf.metadata.fingerprintLen it.ext.length < 64) (h0 : 0 < count)
    (hlt : count < 2^64)
    (hcount : 1 < count → qf.metadata.bucket (keyToHash qf hash flags) = qf.metadata.bucket hash ∧
      index + 1 + (qf.wantedDigits hash other 0).length < 2^31)
    (hspace : (qf.wantedDigits other hash it.ext.length).length + 1 +
      (qf.wantedDigits hash other 0).length + (counterOf qf.bits count).length ≤ A.free qf index)
    (retHash retOtherHash : Nat) :
    ∃ ret qf', insertAndExtend qf index key count otherKey retHash retOtherHash flags =
        some (ret, qf') ∧ 0 ≤ ret.ret ∧ qf.Tallied count 1 qf' ∧
      Swapped qf A (qf.metadata.bucket hash) l1 [it]
        [((Item.fresh (qf.metadata.remainder hash)).extend
          (qf.wantedDigits hash other 0)).withCounter
          (counterOf qf.bits count), it.extend (qf.wantedDigits other hash it.ext.length)]
        l2 qf' := by
  obtain ⟨⟨hlayout, hsplit, hrem⟩, rfl⟩ := hst
  obtain ⟨hb2, hr2⟩ := h.geometry.minirunId_eq_iff.mp hid
  have hinserts := h.toLayout.extendInserts hsplit (by simp [hc]) hs rfl hb2.symm (hrem.trans hr2)
    (by omega)
  obtain ⟨q, ret, rh, roh, d1, r1, d2, r2, hext, hp⟩ := h.toLayout.extendOther_eq hsplit
    (by simp [hc]) hs rfl hb2.symm hrem (hrem.trans hr2) hinserts
  have hold := hp.old
  have hnew := hp.new
  obtain ⟨rfl, rfl⟩ := hp.room (by rw [← hold, ← hnew]; omega)
  rw [List.append_nil] at hold hnew
  have hret : 0 ≤ ret := by
    rw [hp.ret_eq, if_pos rfl]
    exact Int.natCast_nonneg _
  rw [hold, hnew] at hspace
  rw [hnew] at hcount
  rw [hold, hnew]
  obtain ⟨b, hbk⟩ : ∃ b, b = qf.metadata.bucket hash := ⟨_, rfl⟩
  obtain ⟨x, hx⟩ : ∃ x, x = (Item.fresh (qf.metadata.remainder hash)).extend d1 := ⟨_, rfl⟩
  have hplain : x.cnt = [] := by
    rw [hx]
    exact Item.extend_plain _ rfl d1
  have hlenx : x.len = 1 + d1.length := by
    have hext : x.ext = d1 := by simp [hx, Item.extend_ext, Item.fresh]
    simp only [Item.len, hplain, hext, List.length_nil, Nat.add_zero]
  have hleny : (it.extend d2).len = it.len + d2.length := by
    simp only [Item.len, Item.extend_plain it hc d2, Item.extend_ext, hc, List.length_append]
    omega
  rw [← hbk] at hsplit hp hext hcount hspace hs hb2 ⊢
  have hwf := hp.wf h.toWF hsplit hlen
  obtain ⟨q1, hq1⟩ : ∃ q1, q1 = q.countItem 1 := ⟨_, rfl⟩
  have hk1 : qf.Keeps q1 := by
    rw [hq1]
    exact hp.tally.keeps.trans (.setCounts ..)
  have htally : qf.Tallied 1 1 q1 := by
    have hadd := (QF.Tallied.of_keepsTally hp.tally).trans (.countItem q 1)
    rw [← hq1] at hadd
    exact hadd
  rw [← hx] at hwf ⊢
  have hlay : Layout q1 (Function.update A b (l1 ++ x :: it.extend d2 :: l2)) := by
    rw [hq1, hx]
    exact hp.layout.setCounts _ _ _
  have hpair : Swapped qf A b l1 [it] [x, it.extend d2] l2 q1 := by
    apply h.swapped (by simpa using hsplit) hk1 (by simpa using hlay)
    · have hfits : ∀ y ∈ l1 ++ x :: it.extend d2 :: l2, y.Fits q.metadata := fun y hy =>
        hwf.fingerprint b y (by rw [Function.update_self]; exact hy)
      have hw : q.metadata.bitsPerSlot = qf.metadata.bitsPerSlot := hp.tally.keeps.bits
      have hq : q.metadata.quotientBits = qf.metadata.quotientBits := hp.tally.keeps.qbits
      simp only [Item.Fits, hw, hq] at hfits
      exact fun y hy => hfits y (by simp at hy ⊢; tauto)
    · intro y hy
      rcases List.mem_cons.mp hy with rfl | hy
      · exact .inl hplain
      · rw [List.mem_singleton.mp hy]
        exact .inl (it.extend_plain hc d2)
  have hwork : ∀ qf', (if count > 1 then AdaptiveQF.extendSame q1 (A.pos b l1)
      (keyToHash qf hash flags) (count-1) else some q1) = some qf' → qf.Keeps qf' →
      insertAndExtend qf (A.pos b l1) key count otherKey retHash retOtherHash flags =
        some (⟨ret, rh, roh⟩, qf') := by
    intro qf' hrest hk'
    apply withLock_eq h.idle _ _ _ _ _ hk'.locks
    simp only [hk, hk2, hid, ne_eq, not_true, if_false, hne, hext, ← hq1, hrest]
    rfl
  have hb1 : Function.update A b (l1 ++ [x, it.extend d2] ++ l2) b =
      l1 ++ x :: (it.extend d2 :: l2) := by
    rw [Function.update_self]
    simp
  have hold : A.lens b = itemsLen l1 + (it.len + itemsLen l2) := by simp [Contents.lens, hsplit]
  have hfree : A.free qf (A.pos b l1) = Contents.free
      (Function.update A b (l1 ++ [x, it.extend d2] ++ l2)) q1 (A.pos b l1) +
        (x.len + d2.length) := by
    have hend := (h.toLayout.pos_add_len_le hsplit).trans h.fits
    apply h.toLayout.free_update hpair.tidy.toLayout hk1.xnslots (h.toLayout.bucket_lt hsplit)
    · simp only [hold, itemsLen_append, itemsLen_cons, itemsLen_nil, hleny]
      omega
    · unfold Contents.pos
      omega
    · omega
  obtain ⟨q2, hrest, ht2, hsw⟩ := @Tidy.extendCounted q1 _ (keyToHash qf hash flags) count b
    l1 (it.extend d2 :: l2) x hpair.tidy hb1 hplain
    (fun hone => by
      obtain ⟨hbk2, hlow⟩ := hcount hone
      rw [hk1.bucket, Contents.pos_update, hlenx]
      omega) h0 hlt (by rw [Contents.pos_update, hk1.bits]; omega)
  rw [Contents.pos_update] at hrest
  have htidy := hsw.tidy
  rw [hk1.bits, Function.update_idem] at htidy
  have hsum := htally.trans ht2
  have hcountSum : 1 + (count - 1) = count := by omega
  rw [hcountSum] at hsum
  have hk2 := hk1.trans hsw.keeps
  exact ⟨_, q2, hwork q2 hrest hk2, hret, hsum, by simpa using hsplit, hk2, by simpa using htidy⟩

structure Grew (qf : QF) (A : Contents) (hash other index : Nat) (l1 : List Item) (it : Item)
    (l2 : List Item) (r : Int) (qf' : QF) (done rest : List Nat) : Prop where
  digits : qf.wantedDigits hash other it.ext.length = done ++ rest
  swapped : Swapped qf A (qf.metadata.bucket hash) l1 [it] [it.extend done] l2 qf'
  tally : qf.KeepsTally qf'
  ret_eq : r = if rest = [] then (qf.metadata.fingerprintLen (it.ext.length + done.length) : Int)
    else noSpace
  room : (qf.wantedDigits hash other it.ext.length).length ≤ A.free qf index → rest = []
  stuck : A.free qf index = 0 → done = [] ∧ qf.SameFrame qf'

/-- `qf_adapt` does nothing for one hash, and otherwise extends the item as far as there is room. -/
theorem Tidy.adapt (h : Tidy qf A) {key otherKey flags index : Nat}
    (hk : keyToHash qf key flags = hash) (hk2 : keyToHash qf otherKey flags = other)
    (hst : ItemOf qf A hash index l1 it l2)
    (hlen : hash ≠ other → qf.metadata.fingerprintLen it.ext.length < 64)
    (hs : index + it.len < 2^31) (hc : hash ≠ other → it.cnt = []) (retHash : Nat) :
    ∃ r rh qf', qfAdapt qf index key otherKey retHash flags = some (r, rh, qf') ∧
      (hash = other ∧ r = 0 ∧ qf' = qf ∨
        hash ≠ other ∧ ∃ done rest, Grew qf A hash other index l1 it l2 r qf' done rest) := by
  by_cases hne : hash = other
  · refine ⟨0, retHash, qf, ?_, .inl ⟨hne, rfl, rfl⟩⟩
    simp [qfAdapt, hk, hk2, hne]
  · obtain ⟨⟨hlayout, hsplit, hrem⟩, rfl⟩ := hst
    have hplain := hc hne
    obtain ⟨qf', ret, done, rest, hcall, -, had, hwf, hret⟩ :=
      h.toWF.adapt_room hsplit (by simp [hplain]) hs rfl hrem (hlen hne) other
    refine ⟨ret, _, qf', (h.toWF.qfAdapt_eq hk hk2 hne _ retHash).trans hcall,
      .inr ⟨hne, done, rest, had.split, ?_, had.tally, hret,
        had.rest_eq_nil h.toLayout hsplit (by simp [hplain]), fun hfree => ?_⟩⟩
    · apply h.swapped (by simpa using hsplit) had.keeps (by simpa using had.layout)
      · intro x hx
        have hfits := (h.geometry.wantedDigits_spec hash other (hlen hne))
        rw [had.split] at hfits
        rw [List.mem_singleton.mp hx, Item.Fits, Item.extend_ext, List.length_append]
        exact hfits.fits_left
      · intro x hx
        rw [List.mem_singleton.mp hx]
        exact .inl (it.extend_plain hplain done)
    · have hdone := had.done_eq_nil h.toLayout hsplit hplain hfree
      have hframe := had.frame
      have hnone : (it.extend done).len - it.len = 0 := by
        rw [hdone]
        exact Nat.sub_self _
      rw [hnone] at hframe
      exact ⟨hdone, hframe⟩

theorem Tidy.adaptUsingLlTable (h : Tidy qf A) {origKey fpKey flags : Nat}
    (hk : keyToHash qf fpKey flags = hash) (hk2 : keyToHash qf origKey flags = other)
    (hid : minirunId qf other = minirunId qf hash) (hst : InMinirun qf A hash l1 it l2)
    (hlen : hash ≠ other → qf.metadata.fingerprintLen it.ext.length < 64)
    (hs : A.pos (qf.metadata.bucket hash) l1 + it.len < 2^31)
    (hc : hash ≠ other → it.cnt = []) :
    ∃ qf', qfAdaptUsingLlTable qf origKey fpKey (rankOf qf.metadata hash l1) flags =
        some (1, qf') ∧ qf.KeepsTally qf' ∧ (qf' = qf ∨ hash ≠ other ∧
      ∃ done, Swapped qf A (qf.metadata.bucket hash) l1 [it] [it.extend done] l2 qf') := by
  obtain ⟨hb, hr⟩ := h.geometry.minirunId_eq_iff.mp hid
  have hst2 : ItemOf qf A other (A.pos (qf.metadata.bucket hash) l1) l1 it l2 :=
    ⟨⟨hst.layout, by rw [hb]; exact hst.split, by rw [hr]; exact hst.rem⟩, by rw [hb]⟩
  obtain ⟨r, rh, qf', hcall, hcase⟩ := h.adapt hk2 hk hst2 (fun hne => hlen hne.symm) hs
    (fun hne => hc hne.symm) 0
  have hhit := h.toLayout.qfAdaptUsingLlTable_hit hk hst.split hs hst.rem origKey
  rw [hcall] at hhit
  refine ⟨qf', hhit, ?_⟩
  rcases hcase with ⟨-, -, rfl⟩ | ⟨hne, done, rest, hgrew⟩
  · exact ⟨.refl _, .inl rfl⟩
  · have hsw := hgrew.swapped
    rw [hb] at hsw
    exact ⟨hgrew.tally, .inr ⟨hne.symm, done, hsw⟩⟩

theorem Tidy.remove (h : Tidy qf A) {key flags : Nat} (hk : keyToHash qf key flags = hash)
    (hrem : Removes qf A hash flags) (out : RemoveOut) :
    ∃ r out' qf', qfRemove qf key out flags = some ((r, out'), qf') ∧ (qf' = qf ∧ r = 0 ∨
      ∃ l1 it l2, r = (it.len : Int) ∧
        qf'.metadata.nelts = sub64 qf.metadata.nelts (it.count qf.bits) ∧
        qf'.metadata.ndistinctElts = sub64 qf.metadata.ndistinctElts 1 ∧
        Swapped qf A (qf.metadata.bucket hash) l1 [it] [] l2 qf') := by
  rcases firstMatch_or_none qf.metadata hash (A (qf.metadata.bucket hash)) with
    ⟨l1, it, l2, hf⟩ | hm
  · obtain ⟨out', qf', hcall, hframe, hlay⟩ :=
      h.toWF.qfRemove_hit h.idle hk hrem.near hrem.passes hf
      ((hrem.offsets l1 it l2 hf).reach (Contents.lens_remove_le hf.split)) out
    refine ⟨_, out', qf', hcall, .inr ⟨l1, it, l2, rfl, ?_, ?_, h.swapped (by simpa using hf.split)
      ⟨_, _, _, hframe⟩ (by simpa using hlay) (by simp) (by simp)⟩⟩
    · rw [hframe.metadata]
      rfl
    · rw [hframe.metadata]
      rfl
  · obtain ⟨out', hcall⟩ :=
      h.toWF.qfRemove_miss h.idle hk hrem.near hrem.passes hm hrem.unlocked out
    exact ⟨0, out', qf, hcall, .inl ⟨rfl, rfl⟩⟩

theorem Tidy.step (h : Tidy qf A) (resize : QF → Nat → Option (Int × QF)) (c : Call)
    (hl : c.Legal qf) (hr : c.HasRoom qf) (hs : c.Sound qf) :
    ∃ qf', c.step resize qf = some qf' ∧ ∃ A', Tidy qf' A' := by
  cases c with
  | insertRet key count out flags =>
    obtain ⟨r, out', qf', hcall, hcase⟩ := h.insertRet rfl hl.1 hl.2
      (fun hf => (hs hf A h.toLayout).1) (fun hf l1 l2 p hp hpl =>
        ⟨hr hf A l1 l2 p h.toLayout hp hpl, (hs hf A h.toLayout).2 l1 l2 p hp hpl⟩) resize out
    refine ⟨qf', by simp [Call.step, Call.exec, hcall], ?_⟩
    cases hcase with
    | inl hsame => exact ⟨A, hsame.1 ▸ h⟩
    | inr hnew =>
      obtain ⟨-, -, -, l1, l2, hsw⟩ := hnew
      exact ⟨_, hsw.tidy⟩
  | insertUsingLlTable key count result flags =>
    obtain ⟨r, result', qf', hcall, hcase⟩ := h.insertUsingLlTable rfl hl.1 hl.2
      (fun hf => (hs hf A h.toLayout).1) (fun hf l1 l2 p hp hpl =>
        ⟨hr hf A l1 l2 p h.toLayout hp hpl, (hs hf A h.toLayout).2 l1 l2 p hp hpl⟩) resize result
    refine ⟨qf', by simp [Call.step, Call.exec, hcall], ?_⟩
    cases hcase with
    | inl hsame => exact ⟨A, hsame.1 ▸ h⟩
    | inr hnew =>
      obtain ⟨-, -, -, l1, l2, hsw⟩ := hnew
      exact ⟨_, hsw.tidy⟩
  | insertAndExtend index key count otherKey retHash retOtherHash flags =>
    obtain ⟨⟨h0, hc⟩, hid, B, l1, it, l2, hst, hlen⟩ := hl
    obtain rfl := h.toLayout.unique hst.layout
    obtain ⟨hnear, hsame, hother⟩ := hs _ _ _ _ hst
    obtain ⟨hroom, hroom2⟩ := hr _ _ _ _ hst
    by_cases heq : keyToHash qf key flags = keyToHash qf otherKey flags
    · obtain ⟨hcnt, hfits⟩ := hsame heq
      obtain ⟨qf', hcall, -, hsw⟩ := h.insertAndExtend_same rfl heq.symm hst hnear hcnt h0
        hfits (hroom heq) retHash retOtherHash
      exact ⟨qf', by simp [Call.step, Call.exec, hcall], _, hsw.tidy⟩
    · obtain ⟨hcnt, hrest⟩ := hother heq
      obtain ⟨ret, qf', hcall, -, -, hsw⟩ := h.insertAndExtend_other rfl rfl heq hid hst hnear
        hcnt (hlen heq) h0 hc hrest (hroom2 heq) retHash retOtherHash
      exact ⟨qf', by simp [Call.step, Call.exec, hcall], _, hsw.tidy⟩
  | adapt index key otherKey retHash flags =>
    obtain ⟨B, l1, it, l2, hst, hlen⟩ := hl
    obtain rfl := h.toLayout.unique hst.layout
    obtain ⟨hnear, hcnt⟩ := hs _ _ _ _ hst
    obtain ⟨r, rh, qf', hcall, hcase⟩ := h.adapt rfl rfl hst hlen hnear hcnt retHash
    refine ⟨qf', by simp [Call.step, Call.exec, hcall], ?_⟩
    cases hcase with
    | inl hsame => exact ⟨A, hsame.2.2 ▸ h⟩
    | inr hnew =>
      obtain ⟨-, done, rest, hgrew⟩ := hnew
      exact ⟨_, hgrew.swapped.tidy⟩
  | adaptUsingLlTable origKey fpKey minirunRank flags =>
    obtain ⟨hid, B, l1, it, l2, hst, rfl, hlen⟩ := hl
    obtain rfl := h.toLayout.unique hst.layout
    obtain ⟨hnear, hcnt⟩ := hs _ _ _ _ hst rfl
    obtain ⟨qf', hcall, -, hcase⟩ := h.adaptUsingLlTable rfl rfl hid hst hlen hnear hcnt
    refine ⟨qf', by simp [Call.step, Call.exec, hcall], ?_⟩
    cases hcase with
    | inl hsame => exact ⟨A, hsame ▸ h⟩
    | inr hnew =>
      obtain ⟨-, done, hsw⟩ := hnew
      exact ⟨_, hsw.tidy⟩
  | remove key out flags =>
    obtain ⟨r, out', qf', hcall, hcase⟩ := h.remove rfl (hs A h.toLayout) out
    refine ⟨qf', by simp [Call.step, Call.exec, hcall], ?_⟩
    cases hcase with
    | inl hsame => exact ⟨A, hsame.1 ▸ h⟩
    | inr hnew =>
      obtain ⟨l1, it, l2, -, -, -, hsw⟩ := hnew
      exact ⟨_, hsw.tidy⟩

end

end AdaptiveQF
