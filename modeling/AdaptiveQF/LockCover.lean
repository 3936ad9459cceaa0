import AdaptiveQF.Calls
import AdaptiveQF.WriteSet

/-! The locks that an insertion takes, and how far it stores. -/
namespace AdaptiveQF
open RunLayout

def Location.region (l : Location) : Nat := 64 * l.block / NUM_SLOTS_TO_LOCK

inductive Insertion
  | ret (key count : Nat) (out : InsertOut) (flags : Nat)
  | usingLlTable (key count : Nat) (result : InsertResult) (flags : Nat)

namespace Insertion

def call : Insertion → Call
  | .ret key count out flags => .insertRet key count out flags
  | .usingLlTable key count result flags => .insertUsingLlTable key count result flags

def hash (qf : QF) : Insertion → Nat
  | .ret key _ _ flags => keyToHash qf key flags
  | .usingLlTable key _ _ flags => keyToHash qf key flags

def count : Insertion → Nat
  | .ret _ count _ _ => count
  | .usingLlTable _ count _ _ => count

def flags : Insertion → Nat
  | .ret _ _ _ flags => flags
  | .usingLlTable _ _ _ flags => flags

def locate (qf : QF) : Insertion → Option Placement
  | .ret key _ _ flags => locateInsert qf (keyToHash qf key flags) flags
  | .usingLlTable key _ _ flags => locateLl qf (keyToHash qf key flags)

def elts : Insertion → Nat
  | .ret _ _ _ _ => 1
  | .usingLlTable _ count _ _ => count

def writes (c : Insertion) (qf : QF) : Option (List Location) :=
  if full qf then some []
  else do
    let place ← c.locate qf
    storeWrites qf (c.hash qf) c.elts c.count place

/-- With the lock of the bucket taken, each location that is stored to lies in a locked region. -/
def Covered (resize : QF → Nat → Option (Int × QF)) (c : Insertion) (qf : QF) : Prop :=
  ∃ qf' ws locked, c.call.step resize qf = some qf' ∧ c.writes qf = some ws ∧
    Untouched ws qf qf' ∧
    qfLock qf (insertBucket qf (c.hash qf)) true c.flags = some (true, locked) ∧
    ∀ l ∈ ws, locked.locks l.region = true

end Insertion

def lockedEnd (bucket : Nat) : Nat :=
  NUM_SLOTS_TO_LOCK * (bucket / NUM_SLOTS_TO_LOCK + if nearUpperRegion bucket then 2 else 1)

def Insertion.StaysInBlocks (c : Insertion) (qf : QF) (index : Nat) : Prop :=
  ∀ i ≤ (counterOf qf.bits c.count).length, 0 < slotOverrun qf.bits (index+i) →
    (index+i)/64 + 1 < lockedEnd (qf.metadata.bucket (c.hash qf)) / 64

/-- The item of the insertion and its counter have an empty slot each between their bucket and the
last slot of the locked regions, which is not one of them: behind a shift into it the words of the
next block are put back. Nor is one of the slots that are set so close to the end of the last
locked block that its 8 bytes reach over it. Nothing is stored if the filter is full or the hash is
matched. -/
def Insertion.SlotsLocked (c : Insertion) (qf : QF) : Prop :=
  full qf = false → ∀ A l1 l2 p, Layout qf A → c.locate qf = some p →
    Places qf A (c.hash qf) l1 l2 p → (counterOf qf.bits c.count).length <
      RunLayout.free A.lens (qf.metadata.bucket (c.hash qf))
        (min (lockedEnd (qf.metadata.bucket (c.hash qf)) - 1) qf.xnslots) ∧
      c.StaysInBlocks qf (A.pos (qf.metadata.bucket (c.hash qf)) l1)

section
variable {qf qf' : QF} {A : Contents} {b : Nat} {l1 l2 : List Item} {c : Insertion}

theorem mem_lockRegions {bucket j : Nat} (h : bucket/64 ≤ j) :
    64*j / NUM_SLOTS_TO_LOCK ∈ lockRegions bucket true ↔ j < lockedEnd bucket / 64 := by
  unfold lockRegions lockedEnd NUM_SLOTS_TO_LOCK
  rw [if_pos rfl]
  cases nearUpperRegion bucket with
  | true =>
    simp only [if_true, List.mem_cons, List.not_mem_nil, or_false]
    omega
  | false =>
    simp only [Bool.false_eq_true, if_false, List.mem_cons, List.not_mem_nil, or_false]
    omega

theorem lockedEnd_blocks (bucket : Nat) : 64 * (lockedEnd bucket / 64) = lockedEnd bucket := by
  unfold lockedEnd NUM_SLOTS_TO_LOCK
  omega

/-- The locks of an idle filter are free. -/
theorem QF.Idle.qfLock_eq (hi : qf.Idle) (bucket : Nat) (small : Bool) (flags : Nat) :
    qfLock qf bucket small flags =
      some (true, qf.withLocks fun k => decide (k ∈ lockRegions bucket small)) := by
  have hfree : ∀ k ∈ lockRegions bucket small, qf.locks k = false := fun k _ => by rw [hi.locks]
  rw [qfLock_free hfree, hi.locks]
  simp

/-- The stores are covered if and only if they stay in the blocks of the locked regions. -/
theorem Reaches.covered_iff {w p m : Nat} {len : Nat → Nat} {ws : List Location}
    (h : Reaches w len b p m ws) :
    (∀ l ∈ ws, l.region ∈ lockRegions b true) ↔ m ≤ RunLayout.free len b (lockedEnd b - 1) ∧
      ∀ i < m, 0 < slotOverrun w (p+i) → (p+i)/64 + 1 < lockedEnd b / 64 := by
  have hupper := h.upper (lockedEnd b / 64)
  rw [lockedEnd_blocks] at hupper
  rw [← hupper]
  constructor
  · exact fun hall l hl => (mem_lockRegions (h.lower l hl)).mp (hall l hl)
  · exact fun hall l hl => (mem_lockRegions (h.lower l hl)).mpr (hall l hl)

/-- Between a bucket and a place in its run no slot is empty. -/
theorem Contents.free_bucket (hb : A b = l1 ++ l2) (hx : A.pos b l1 ≤ qf.xnslots) :
    RunLayout.free A.lens b qf.xnslots = A.free qf (A.pos b l1) := by
  have hlow : b ≤ A.pos b l1 := (le_start b).trans (Nat.le_add_right ..)
  refine free_eq_of_used hlow hx fun s h1 h2 => ?_
  by_cases hs : s < start A.lens b
  · obtain ⟨a, -, ho⟩ := @owned_of_lt_ends A.lens b s h1 (by unfold start at hs; omega)
    exact ⟨a, ho⟩
  · have hlen : A.lens b = itemsLen l1 + itemsLen l2 := by simp [Contents.lens, hb]
    refine ⟨b, ?_⟩
    unfold Contents.pos at h2
    unfold Owns
    omega

theorem PlacedAt.pos_eq {p : Placement} {k1 k2 : List Item} (h1 : PlacedAt A b l1 l2 p)
    (h2 : PlacedAt A b k1 k2 p) : A.pos b k1 = A.pos b l1 := by
  cases p with
  | home =>
    cases h1
    cases h2
    rfl
  | first index => exact (h2.probe_eq rfl).symm.trans (h1.probe_eq rfl)
  | inRun index current wasRunend => exact (h2.probe_eq rfl).symm.trans (h1.probe_eq rfl)
  | matched index info => cases h1
  | endOfFilter last => cases h1

structure Insertion.Stores (resize : QF → Nat → Option (Int × QF)) (c : Insertion) (qf : QF)
    (A : Contents) (l1 l2 : List Item) (p : Placement) : Prop where
  notFull : full qf = false
  located : c.locate qf = some p
  places : Places qf A (c.hash qf) l1 l2 p
  writes : (counterOf qf.bits c.count).length <
    A.free qf (A.pos (qf.metadata.bucket (c.hash qf)) l1) → ∃ qf' ws,
      c.call.step resize qf = some qf' ∧ c.writes qf = some ws ∧ Untouched ws qf qf' ∧
      Reaches qf.bits A.lens (qf.metadata.bucket (c.hash qf))
        (A.pos (qf.metadata.bucket (c.hash qf)) l1) ((counterOf qf.bits c.count).length + 1) ws

theorem Layout.pos_le (h : Layout qf A) (hb : A b = l1 ++ l2) (hlt : b < qf.metadata.nslots) :
    A.pos b l1 ≤ qf.xnslots := by
  have hend := h.run_le hlt
  have hlen : A.lens b = itemsLen l1 + itemsLen l2 := by simp [Contents.lens, hb]
  unfold Contents.pos
  omega

theorem Insertion.stores (h : Layout qf A) (hi : qf.Idle) (hf : full qf = false)
    (hc : 0 < c.count) (hc2 : c.count < 2^64) {p : Placement} (hp : c.locate qf = some p)
    (hpl : Places qf A (c.hash qf) l1 l2 p)
    (hcount : 1 < c.count → Countable qf A (c.hash qf) l1 p)
    (hr : ∀ key count result flags, c = .usingLlTable key count result flags →
      (llRank qf (c.hash qf)).isSome) (resize : QF → Nat → Option (Int × QF)) :
    c.Stores resize qf A l1 l2 p := by
  refine ⟨hf, hp, hpl, fun hroom => ?_⟩
  have hcheck := checkLoad_idle hi resize
  have hne : c.count ≠ 0 := by omega
  obtain ⟨q1, q2, ws, h1, h2, hk, hws, hun, hreach⟩ :=
    hpl.storeWrites_eq h c.elts hc hc2 hroom hcount
  refine ⟨q2, ws, ?_, ?_, hun, hreach⟩
  · cases c with
    | ret key count out flags =>
      have hins := insert_eq hi count out flags (hpl.placed.insertWork_eq hp h1 h2 out) hk.locks
      have hkey : (Insertion.ret key count out flags).hash qf = keyToHash qf key flags := rfl
      have hcnt : (Insertion.ret key count out flags).count = count := rfl
      rw [hkey] at hins
      rw [hcnt] at hne
      simp [Insertion.call, Call.step, Call.exec, qfInsertRet, hcheck, hf, hne, hins]
    | usingLlTable key count result flags =>
      obtain ⟨⟨rank, existed⟩, hrank⟩ := Option.isSome_iff_exists.mp (hr _ _ _ _ rfl)
      have hkey : (Insertion.usingLlTable key count result flags).hash qf =
        keyToHash qf key flags := rfl
      have hcnt : (Insertion.usingLlTable key count result flags).count = count := rfl
      rw [hkey] at h1 h2 hrank hpl
      rw [hcnt] at hne h2
      obtain ⟨r, hr0⟩ : ∃ r : InsertResult, r =
        ⟨keyToHash qf key flags, minirunId qf (keyToHash qf key flags), 0, false⟩ := ⟨_, rfl⟩
      have hrh : r.hash = keyToHash qf key flags := by rw [hr0]
      have hp2 : locateLl qf r.hash = some p := by
        rw [hrh]
        exact hp
      rw [← hrh] at h1 h2 hrank
      have hins := insertUsingLlTable_eq hi r count flags
        (hpl.placed.insertUsingLlTableWork_eq hp2 hrank h1 h2) hk.locks
      rw [hr0] at hins
      simp [Insertion.call, Call.step, Call.exec, qfInsertUsingLlTable, hcheck, hf, hne, hins]
  · simp [Insertion.writes, hf, hp, hws]

theorem Insertion.stores_or (h : Layout qf A) (hi : qf.Idle) (hl : c.call.Legal qf)
    (hs : c.call.Sound qf) (resize : QF → Nat → Option (Int × QF)) :
    (c.call.step resize qf = some qf ∧ c.writes qf = some [] ∧ c.SlotsLocked qf) ∨
      ∃ l1 l2 p, c.Stores resize qf A l1 l2 p := by
  have hcheck := checkLoad_idle hi resize
  by_cases hf : full qf = true
  · refine .inl ⟨?_, by simp [Insertion.writes, hf], fun hno => absurd hf (by simp [hno])⟩
    cases c with
    | ret key count out flags =>
      simp [Insertion.call, Call.step, Call.exec, qfInsertRet, hcheck, hf]
    | usingLlTable key count result flags =>
      simp [Insertion.call, Call.step, Call.exec, qfInsertUsingLlTable, hcheck, hf]
  · have hfalse : full qf = false := by simpa using hf
    cases c with
    | ret key count out flags =>
      obtain ⟨hc, hc2⟩ : 0 < count ∧ count < 2^64 := hl
      obtain ⟨hnear, hcount⟩ := hs hfalse A h
      obtain ⟨p, hp, hcase⟩ := h.locateInsert_eq flags hnear
      rcases hcase with ⟨l1, it, l2, _, _, _, rfl⟩ | ⟨l1, l2, hpl, _⟩
      · left
        have hw := insertWork_matched hp count out
        have hins := insert_eq hi count out flags hw rfl
        have hne : count ≠ 0 := by omega
        refine ⟨?_, ?_, fun _ B k1 k2 p _ hp2 hpl => ?_⟩
        · simp [Insertion.call, Call.step, Call.exec, qfInsertRet, hcheck, hfalse, hne, hins]
        · simp [Insertion.writes, Insertion.locate, hfalse, hp, storeWrites, putItemWrites,
            putItem]
        · obtain rfl := Option.some.inj (hp2.symm.trans hp)
          cases hpl.placed
      · exact .inr ⟨l1, l2, p,
          Insertion.stores (c := .ret key count out flags) h hi hfalse hc hc2 hp
          hpl (hcount l1 l2 p hp hpl) (by rintro _ _ _ _ hc; cases hc) resize⟩
    | usingLlTable key count result flags =>
      obtain ⟨hc, hc2⟩ : 0 < count ∧ count < 2^64 := hl
      obtain ⟨hrank, hcount⟩ := hs hfalse A h
      obtain ⟨l1, l2, p, hp, hpl, -⟩ := h.locateLl_eq (keyToHash qf key flags)
      exact .inr ⟨l1, l2, p,
        Insertion.stores (c := .usingLlTable key count result flags) h hi hfalse
        hc hc2 hp hpl (hcount l1 l2 p hp hpl) (fun _ _ _ _ _ => h.llRank_isSome hrank) resize⟩

/-- With room in the array, the locks cover what is stored if and only if the slots are locked. -/
theorem Insertion.Stores.covered_iff {resize : QF → Nat → Option (Int × QF)} {p : Placement}
    (hs : c.Stores resize qf A l1 l2 p) (h : Layout qf A) (hi : qf.Idle)
    (hroom : (counterOf qf.bits c.count).length <
      A.free qf (A.pos (qf.metadata.bucket (c.hash qf)) l1)) :
    c.Covered resize qf ↔ (counterOf qf.bits c.count).length <
      RunLayout.free A.lens (qf.metadata.bucket (c.hash qf))
        (lockedEnd (qf.metadata.bucket (c.hash qf)) - 1) ∧
      c.StaysInBlocks qf (A.pos (qf.metadata.bucket (c.hash qf)) l1) := by
  obtain ⟨qf', ws, hstep, hws, hun, hreach⟩ := hs.writes hroom
  have hlock := hi.qfLock_eq (insertBucket qf (c.hash qf)) true c.flags
  have hb := h.geometry.insertBucket_eq (c.hash qf)
  have hcov := hreach.covered_iff
  simp only [Nat.lt_add_one_iff] at hcov
  rw [Nat.lt_iff_add_one_le, Insertion.StaysInBlocks, ← hcov]
  constructor
  · rintro ⟨q, ws2, locked, -, hws2, -, hlock2, hall⟩ l hl
    obtain rfl : ws = ws2 := Option.some.inj (hws.symm.trans hws2)
    obtain ⟨-, rfl⟩ := Prod.mk.inj (Option.some.inj (hlock.symm.trans hlock2))
    have hheld := hall l hl
    rw [hb] at hheld
    simpa [QF.withLocks] using hheld
  · intro hall
    refine ⟨qf', ws, _, hstep, hws, hun, hlock, fun l hl => ?_⟩
    rw [hb]
    simpa [QF.withLocks] using hall l hl

theorem Insertion.Stores.slotsLocked_iff {resize : QF → Nat → Option (Int × QF)} {p : Placement}
    (hs : c.Stores resize qf A l1 l2 p) (h : Layout qf A) :
    c.SlotsLocked qf ↔ (counterOf qf.bits c.count).length <
      RunLayout.free A.lens (qf.metadata.bucket (c.hash qf))
        (min (lockedEnd (qf.metadata.bucket (c.hash qf)) - 1) qf.xnslots) ∧
      c.StaysInBlocks qf (A.pos (qf.metadata.bucket (c.hash qf)) l1) := by
  constructor
  · exact fun hall => hall hs.notFull A l1 l2 p h hs.located hs.places
  · intro hlt _ B k1 k2 p2 hB hp2 hpl2
    obtain rfl := h.unique hB
    obtain rfl := Option.some.inj (hs.located.symm.trans hp2)
    rwa [hs.places.placed.pos_eq hpl2.placed]

theorem Insertion.Stores.room {resize : QF → Nat → Option (Int × QF)} {p : Placement}
    (hs : c.Stores resize qf A l1 l2 p) (h : Layout qf A) (hr : c.call.HasRoom qf) :
    (counterOf qf.bits c.count).length <
      A.free qf (A.pos (qf.metadata.bucket (c.hash qf)) l1) := by
  cases c with
  | ret key count out flags => exact hr hs.notFull A l1 l2 p h hs.located hs.places
  | usingLlTable key count result flags => exact hr hs.notFull A l1 l2 p h hs.located hs.places

/-- Two insertions whose locked regions are disjoint store to disjoint parts of the filter. -/
theorem Insertion.Covered.disjoint {resize : QF → Nat → Option (Int × QF)} {c2 : Insertion}
    {qf2 : QF} (h1 : c.Covered resize qf) (h2 : c2.Covered resize qf2) (hi : qf.Idle)
    (hi2 : qf2.Idle) (hd : List.Disjoint (lockRegions (insertBucket qf (c.hash qf)) true)
      (lockRegions (insertBucket qf2 (c2.hash qf2)) true)) {ws ws2 : List Location}
    (hws : c.writes qf = some ws) (hws2 : c2.writes qf2 = some ws2) : List.Disjoint ws ws2 := by
  obtain ⟨-, w1, locked1, -, hw1, -, hlock1, hall1⟩ := h1
  obtain ⟨-, w2, locked2, -, hw2, -, hlock2, hall2⟩ := h2
  obtain rfl : ws = w1 := Option.some.inj (hws.symm.trans hw1)
  obtain rfl : ws2 = w2 := Option.some.inj (hws2.symm.trans hw2)
  rw [hi.qfLock_eq, Option.some.injEq, Prod.mk.injEq] at hlock1
  rw [hi2.qfLock_eq, Option.some.injEq, Prod.mk.injEq] at hlock2
  intro l hl hl2
  have hr1 := hall1 l hl
  have hr2 := hall2 l hl2
  rw [← hlock1.2] at hr1
  rw [← hlock2.2] at hr2
  exact hd (by simpa [QF.withLocks] using hr1) (by simpa [QF.withLocks] using hr2)

/-- The locks cover what an insertion stores if its slots are locked, and only then if there is a
slot for each of them. -/
theorem locks_cover (h : Layout qf A) (hi : qf.Idle) (c : Insertion) (hl : c.call.Legal qf)
    (hs : c.call.Sound qf) (resize : QF → Nat → Option (Int × QF)) :
    (c.SlotsLocked qf → c.Covered resize qf) ∧
      (c.call.HasRoom qf → c.Covered resize qf → c.SlotsLocked qf) ∧
      ∀ (c2 : Insertion) qf2 ws ws2, QF.Idle qf2 → c.Covered resize qf → c2.Covered resize qf2 →
        List.Disjoint (lockRegions (insertBucket qf (c.hash qf)) true)
          (lockRegions (insertBucket qf2 (c2.hash qf2)) true) →
        c.writes qf = some ws → c2.writes qf2 = some ws2 → List.Disjoint ws ws2 := by
  refine ⟨?_, ?_, fun c2 qf2 ws ws2 hi2 h1 h2 hd => h1.disjoint h2 hi hi2 hd⟩
  · intro hlocked
    rcases Insertion.stores_or h hi hl hs resize with ⟨hstep, hws, -⟩ | ⟨l1, l2, p, hst⟩
    · exact ⟨qf, [], _, hstep, hws, .refl _ qf, hi.qfLock_eq .., by simp⟩
    · obtain ⟨hlt, hstays⟩ := (hst.slotsLocked_iff h).mp hlocked
      have hpos := h.pos_le hst.places.placed.split (h.geometry.bucket_lt _)
      have hfree := Contents.free_bucket hst.places.placed.split hpos
      refine (hst.covered_iff h hi ?_).mpr
        ⟨hlt.trans_le (free_mono (Nat.min_le_left ..)), hstays⟩
      rw [← hfree]
      exact hlt.trans_le (free_mono (Nat.min_le_right ..))
  · intro hroom hcov
    rcases Insertion.stores_or h hi hl hs resize with ⟨-, -, hlocked⟩ | ⟨l1, l2, p, hst⟩
    · exact hlocked
    · have hlt := hst.room h hroom
      have hpos := h.pos_le hst.places.placed.split (h.geometry.bucket_lt _)
      have hfree := Contents.free_bucket hst.places.placed.split hpos
      obtain ⟨hcover, hstays⟩ := (hst.covered_iff h hi hlt).mp hcov
      rw [hst.slotsLocked_iff h]
      refine ⟨?_, hstays⟩
      rw [← hfree] at hlt
      rcases Nat.le_total (lockedEnd (qf.metadata.bucket (c.hash qf)) - 1) qf.xnslots with
        hle | hle
      · rwa [Nat.min_eq_left hle]
      · rwa [Nat.min_eq_right hle]

end

/-! A cluster that fills the first region. Another hash of its last bucket is shifted into the
second region, which is locked with the first one. For the first bucket it is not. -/

def regionMetadata : QFMetadata := QFMetadata.init 17 8 134692

def regionContents : Contents := fun b => if b < 2^16 then [Item.fresh 1] else []

def regionFilter : QF :=
  (QF.ofContents regionMetadata regionContents).setCounts (2^16) (2^16) (2^16)

def spillInsertion : Insertion := .ret 2 1 ⟨0, 0, 0⟩ QF_KEY_IS_HASH

theorem regionContents_lens (b : Nat) : regionContents.lens b = if b < 2^16 then 1 else 0 := by
  unfold Contents.lens regionContents
  split <;> rfl

theorem regionContents_ends {b : Nat} (hb : b ≤ 2^16) : ends regionContents.lens b = b := by
  induction b with
  | zero => rfl
  | succ b ih =>
    have hl : regionContents.lens b = 1 := by rw [regionContents_lens, if_pos (by omega)]
    rw [ends_succ_of_pos (by omega), start, ih (by omega), hl, Nat.max_self]

theorem regionContents_ends_of_le {b : Nat} (hb : 2^16 ≤ b) :
    ends regionContents.lens b = 2^16 := by
  have hz : ∀ c, 2^16 ≤ c → regionContents.lens c = 0 := fun c hc => by
    rw [regionContents_lens, if_neg (by omega)]
  rw [ends_eq_of_zero hz hb, regionContents_ends (Nat.le_refl _)]

theorem regionContents_firstUnused {x : Nat} (hx : x ≤ 2^16) :
    FirstUnused regionContents.lens x (2^16) := by
  refine ⟨hx, ?_, fun s _ hs => ?_⟩
  · rw [used_iff, regionContents_ends_of_le (by omega)]
    omega
  · rw [used_iff, regionContents_ends (by omega)]
    omega

theorem regionFilter_layout : Layout regionFilter regionContents := by
  have hgeo : Geometry regionMetadata :=
    Geometry.init (by decide) (by decide) (by decide) (by decide) (by decide)
  have hmem : ∀ {b it}, it ∈ regionContents b → it = Item.fresh 1 := by
    intro b it hit
    unfold regionContents at hit
    split at hit
    · exact List.mem_singleton.mp hit
    · simp at hit
  refine Layout.setCounts (Contents.Fits.wf ⟨fun b hb => ?_, ?_, ?_, ?_, ?_⟩ hgeo).toLayout _ _ _
  · have hns : regionMetadata.nslots = 2^17 := rfl
    exact if_neg (by omega)
  · have hns : regionMetadata.nslots = 2^17 := rfl
    have hxn : regionMetadata.xnslots = 134692 := rfl
    rw [Contents.extent, hns, hxn, regionContents_ends_of_le (by omega)]
    omega
  · intro b it hit
    rw [hmem hit]
    exact Item.bounded_fresh (by decide)
  · intro b
    unfold regionContents
    split <;> simp
  · intro b it hit
    rw [hmem hit]
    exact show 17 + 8 * 0 < 64 by decide

structure Spills (c : Insertion) : Prop where
  bucket : regionFilter.metadata.bucket (c.hash regionFilter) < 2^16
  other : regionFilter.metadata.remainder (c.hash regionFilter) ≠ 1

section
variable {c : Insertion}

theorem Spills.rem_ne (hc : Spills c) : ∀ x ∈ regionContents (regionFilter.metadata.bucket
    (c.hash regionFilter)), x.rem ≠ regionFilter.metadata.remainder (c.hash regionFilter) := by
  intro x hx
  rw [regionContents, if_pos hc.bucket] at hx
  rw [List.mem_singleton.mp hx]
  exact hc.other.symm

theorem Spills.near (hc : Spills c) :
    CodeNear regionFilter regionContents (c.hash regionFilter) :=
  fun k1 x k2 hx hr => absurd hr (hc.rem_ne x (by rw [hx]; simp))

theorem Spills.pos (hc : Spills c) {l1 l2 : List Item} {p : Placement}
    (hp : Places regionFilter regionContents (c.hash regionFilter) l1 l2 p) :
    0 < regionContents.free regionFilter
      (regionContents.pos (regionFilter.metadata.bucket (c.hash regionFilter)) l1) := by
  have hsplit := hp.placed.split
  rw [← Contents.free_bucket hsplit (regionFilter_layout.pos_le hsplit
    (regionFilter_layout.geometry.bucket_lt _))]
  exact free_pos_iff.mpr ⟨_, regionContents_firstUnused hc.bucket.le, by decide⟩

end

def edgeInsertion : Insertion := .ret (2^24 - 256) 1 ⟨0, 0, 0⟩ QF_KEY_IS_HASH

theorem edgeInsertion_spills : Spills edgeInsertion := by constructor <;> decide

theorem spillInsertion_spills : Spills spillInsertion := by constructor <;> decide

theorem locks_cover_edge : edgeInsertion.Covered noResize regionFilter := by
  have h := regionFilter_layout
  have hb : regionFilter.metadata.bucket (edgeInsertion.hash regionFilter) = 65535 := by decide
  refine (locks_cover h ⟨rfl, rfl⟩ edgeInsertion (by constructor <;> decide) ?_ noResize).1 ?_
  · rintro - B hB
    obtain rfl := h.unique hB
    exact ⟨fun _ => edgeInsertion_spills.near, by simp⟩
  · rintro - B l1 l2 p hB - hp
    obtain rfl := h.unique hB
    rw [hb]
    have hsplit := hp.placed.split
    rw [hb] at hsplit
    have hpos : regionContents.pos 65535 l1 ≤ 65536 := by
      have hlen := congrArg itemsLen hsplit
      rw [itemsLen_append] at hlen
      have hone : itemsLen (regionContents 65535) = 1 := by decide
      rw [Contents.pos, start, regionContents_ends (by omega)]
      omega
    refine ⟨free_pos_iff.mpr ⟨_, regionContents_firstUnused (by omega), by decide⟩, ?_⟩
    intro i hi _
    have hzero : i = 0 := Nat.le_zero.mp hi
    rw [hb, hzero, show lockedEnd 65535 / 64 = 2048 by decide]
    omega

theorem locks_cover_fails : Layout regionFilter regionContents ∧ regionFilter.Idle ∧
    spillInsertion.call.Legal regionFilter ∧ spillInsertion.call.Sound regionFilter ∧
    spillInsertion.call.HasRoom regionFilter ∧ ¬ spillInsertion.Covered noResize regionFilter := by
  have h := regionFilter_layout
  have hi : regionFilter.Idle := ⟨rfl, rfl⟩
  have hs := spillInsertion_spills
  have hb : regionFilter.metadata.bucket (spillInsertion.hash regionFilter) = 0 := by decide
  have hfull : full regionFilter = false := by decide
  have hlegal : spillInsertion.call.Legal regionFilter := by constructor <;> decide
  have hsound : spillInsertion.call.Sound regionFilter := by
    rintro - B hB
    obtain rfl := h.unique hB
    exact ⟨fun _ => hs.near, by simp⟩
  have hroom : spillInsertion.call.HasRoom regionFilter := by
    rintro - B l1 l2 p hB - hpl
    obtain rfl := h.unique hB
    exact hs.pos hpl
  refine ⟨h, hi, hlegal, hsound, hroom, fun hcov => ?_⟩
  have hend : lockedEnd 0 = 2^16 := by decide
  have hnone : ¬ 0 < RunLayout.free regionContents.lens 0 (lockedEnd 0 - 1) := by
    rw [free_pos_iff, hend]
    rintro ⟨e, he, hlt⟩
    rw [he.unique (regionContents_firstUnused (by omega))] at hlt
    omega
  obtain ⟨p, hp, ⟨k1, x, k2, hx, hm, -⟩ | ⟨l1, l2, hpl, -⟩⟩ :=
    h.locateInsert_eq QF_KEY_IS_HASH fun _ => hs.near
  · exact hs.rem_ne x (by rw [hx]; simp) hm.1
  · have hst : spillInsertion.Stores noResize regionFilter regionContents l1 l2 p :=
      Insertion.stores (c := spillInsertion) h hi hfull (by decide) (by decide) hp hpl
        (fun hc => absurd hc (by decide)) (by rintro _ _ _ _ hc; cases hc) noResize
    have hcover := ((hst.covered_iff h hi (hs.pos hst.places)).mp hcov).1
    rw [hb] at hcover
    exact hnone hcover

end AdaptiveQF
