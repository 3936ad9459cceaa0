import AdaptiveQF.Lib.Splits
import AdaptiveQF.SlotInfo
import AdaptiveQF.Locks

/-! The query functions. Each walks the run of the hash's bucket and compares the
items of its remainder; they differ in what they report. -/
namespace AdaptiveQF
open RunLayout

def keyToHash (qf : QF) (key flags : Nat) : Nat :=
  if hasFlag flags QF_KEY_IS_HASH then key else qf.metadata.keyHash key

def hashRemainder (qf : QF) (hash : Nat) : Nat := hash &&& bitmask qf.bits
def hashBucketIndex (qf : QF) (hash : Nat) : Nat := shr64 hash qf.bits &&& bitmask qf.qbits

def minirunId (qf : QF) (hash : Nat) : Nat := hash &&& bitmask (qf.qbits + qf.bits)

def hashExtension (qf : QF) (hash extSlots : Nat) : Nat :=
  shr64 hash (qf.qbits + qf.bits) &&& bitmask (qf.bits * extSlots)

def runStart (qf : QF) (bucket : Nat) : Option Nat :=
  if bucket = 0 then some 0 else (runEnd qf (bucket-1)).map (· + 1)

/-- What the walk has seen when it stops: the slot and the fields of the matching item, the number
of items with the remainder in front of it, and the extension length it read last. -/
structure Scan where
  found : Option (Nat × SlotInfo)
  rank : Nat
  extLen : Nat
deriving DecidableEq

def scanRun (qf : QF) (hash : Nat) : Nat → Nat → Nat → Nat → Option Scan
  | 0, _, _, _ => none
  | fuel+1, currentIndex, rank, extLen => do
    let slot ← getSlot qf currentIndex
    if slot = hashRemainder qf hash then
      let info ← getSlotInfo qf currentIndex
      if hashExtension qf hash info.extSlots = info.ext then
        some ⟨some (currentIndex, info), rank, info.extSlots⟩
      else if isRunend qf currentIndex then some ⟨none, rank+1, info.extSlots⟩
      else
        let next := currentIndex + 1 + (info.extSlots + info.countSlots)
        if next < qf.xnslots then scanRun qf hash fuel next (rank+1) info.extSlots
        else some ⟨none, rank+1, info.extSlots⟩
    else if isRunend qf currentIndex then some ⟨none, rank, extLen⟩
    else
      let next ← skipExtensions qf qf.fuel (currentIndex+1)
      if next < qf.xnslots then scanRun qf hash fuel next rank extLen
      else some ⟨none, rank, extLen⟩

def scanBucket (qf : QF) (hash extLen : Nat) : Option (Option Scan) :=
  let bucket := hashBucketIndex qf hash
  if !isOccupied qf bucket then some none
  else do
    let runstartIndex ← runStart qf bucket
    let scan ← scanRun qf hash qf.fuel (max runstartIndex bucket) 0 extLen
    some (some scan)

structure QueryHit where
  index : Nat
  hash : Nat
  hashLen : Nat
deriving DecidableEq

/-- The return value, and what a positive query writes through its non-null pointers. -/
def qfQuery (qf : QF) (key flags : Nat) : Option (Nat × Option QueryHit) := do
  let hash := keyToHash qf key flags
  match ← scanBucket qf hash 0 with
  | some ⟨some (index, info), _, _⟩ =>
    some (info.count, some {
      index := index
      hash := minirunId qf hash ||| shl64 info.ext (qf.qbits + qf.bits)
      hashLen := qf.bits * info.extSlots + qf.qbits + qf.bits })
  | _ => some (0, none)

structure RankResult where
  ret : Int
  hash : Nat
  extLen : Nat
deriving DecidableEq

def qfQueryUsingLlTableWithExtLen (qf : QF) (key extLen flags : Nat) : Option RankResult := do
  let hash := keyToHash qf key flags
  match ← scanBucket qf hash extLen with
  | some ⟨some _, rank, len⟩ => some ⟨rank, hash, len⟩
  | some ⟨none, _, len⟩ => some ⟨-1, hash, len⟩
  | none => some ⟨-1, hash, extLen⟩

def qfQueryUsingLlTable (qf : QF) (key flags : Nat) : Option (Int × Nat) := do
  let r ← qfQueryUsingLlTableWithExtLen qf key 0 flags
  some (r.ret, r.hash)

structure CountResult where
  ret : Int
  hash : Nat
  minirunRank : Nat
  index : Nat
deriving DecidableEq

/- `minirunRank` and `index` are what the caller's variables hold before the call. The rank is
   counted in a `uint8_t`, the count returned as an `int`. -/
def qfGetCountUsingLlTableWithIndex (qf : QF) (key minirunRank index flags : Nat) :
    Option CountResult := do
  let hash := keyToHash qf key flags
  match ← scanBucket qf hash 0 with
  | some ⟨some (currentIndex, info), rank, _⟩ =>
    some ⟨toInt info.count, hash, rank % 256, currentIndex⟩
  | some ⟨none, rank, _⟩ => some ⟨0, hash, rank % 256, index⟩
  | none => some ⟨0, hash, minirunRank, index⟩

def qfGetCountUsingLlTable (qf : QF) (key minirunRank flags : Nat) :
    Option (Int × Nat × Nat) := do
  let r ← qfGetCountUsingLlTableWithIndex qf key minirunRank 0 flags
  some (r.ret, r.hash, r.minirunRank)

/-! Hashes as numbers. -/

section Hash
variable {m : QFMetadata} {qf : QF}

def QFMetadata.bucket (m : QFMetadata) (h : Nat) : Nat :=
  h / 2^m.bitsPerSlot % 2^m.quotientBits
def QFMetadata.remainder (m : QFMetadata) (h : Nat) : Nat := h % 2^m.bitsPerSlot
def QFMetadata.extension (m : QFMetadata) (h n : Nat) : List Nat :=
  Digits.low m.bitsPerSlot n (h / 2^(m.quotientBits + m.bitsPerSlot))

def Item.Matches (m : QFMetadata) (it : Item) (h : Nat) : Prop :=
  it.rem = m.remainder h ∧ it.ext = m.extension h it.ext.length

instance (m : QFMetadata) (it : Item) (h : Nat) : Decidable (it.Matches m h) :=
  inferInstanceAs (Decidable (_ ∧ _))

theorem Geometry.hashRemainder_eq (h : Geometry qf.metadata) (hash : Nat) :
    hashRemainder qf hash = qf.metadata.remainder hash :=
  and_bitmask hash (by have := h.slotBits; unfold QF.bits; omega)

theorem Geometry.hashBucketIndex_eq (h : Geometry qf.metadata) (hash : Nat) :
    hashBucketIndex qf hash = qf.metadata.bucket hash := by
  have h1 := h.slotBits
  have h2 := h.hashBits
  unfold hashBucketIndex
  rw [and_bitmask _ (by unfold QF.qbits; omega), shr64_eq _ (by unfold QF.bits; omega)]
  rfl

theorem Geometry.minirunId_eq (h : Geometry qf.metadata) (hash : Nat) :
    minirunId qf hash = hash % 2^(qf.qbits + qf.bits) :=
  and_bitmask hash (by have := h.hashBits; unfold QF.qbits QF.bits; omega)

theorem Geometry.bucket_lt (h : Geometry m) (hash : Nat) : m.bucket hash < m.nslots := by
  rw [h.nslots]
  exact Nat.mod_lt _ (Nat.two_pow_pos _)

namespace QF.Keeps

variable {qf' : QF}

theorem bucket (h : qf.Keeps qf') : qf'.metadata.bucket = qf.metadata.bucket := by
  have hw : qf'.metadata.bitsPerSlot = _ := h.bits
  have hq : qf'.metadata.quotientBits = _ := h.qbits
  funext x
  rw [QFMetadata.bucket, hw, hq]
  rfl

theorem remainder (h : qf.Keeps qf') : qf'.metadata.remainder = qf.metadata.remainder := by
  have hw : qf'.metadata.bitsPerSlot = _ := h.bits
  funext x
  rw [QFMetadata.remainder, hw]
  rfl

theorem extension (h : qf.Keeps qf') : qf'.metadata.extension = qf.metadata.extension := by
  have hw : qf'.metadata.bitsPerSlot = _ := h.bits
  have hq : qf'.metadata.quotientBits = _ := h.qbits
  funext x n
  rw [QFMetadata.extension, hw, hq]
  rfl

theorem matches_iff (h : qf.Keeps qf') {it : Item} {hash : Nat} :
    it.Matches qf'.metadata hash ↔ it.Matches qf.metadata hash := by
  rw [Item.Matches, h.remainder, h.extension]
  rfl

theorem minirunId (h : qf.Keeps qf') (hash : Nat) :
    minirunId qf' hash = AdaptiveQF.minirunId qf hash := by
  rw [AdaptiveQF.minirunId, h.qbits, h.bits]
  rfl

theorem hashBucketIndex (h : qf.Keeps qf') (hash : Nat) :
    hashBucketIndex qf' hash = AdaptiveQF.hashBucketIndex qf hash := by
  rw [AdaptiveQF.hashBucketIndex, h.qbits, h.bits]
  rfl

theorem hashRemainder (h : qf.Keeps qf') (hash : Nat) :
    hashRemainder qf' hash = AdaptiveQF.hashRemainder qf hash := by
  rw [AdaptiveQF.hashRemainder, h.bits]
  rfl

theorem keyToHash (h : qf.Keeps qf') (key flags : Nat) :
    keyToHash qf' key flags = AdaptiveQF.keyToHash qf key flags := by
  rw [AdaptiveQF.keyToHash, h.keyHash]
  rfl

end QF.Keeps

theorem Geometry.hashExtension_iff (h : Geometry qf.metadata) {it : Item}
    (hb : it.Bounded qf.bits) (hf : it.Fits qf.metadata) (hash : Nat) :
    hashExtension qf hash it.ext.length = it.packedExt qf.bits ↔
      it.ext = qf.metadata.extension hash it.ext.length := by
  have h1 := h.bits
  have h2 := h.hashBits
  have hw : 0 < qf.metadata.bitsPerSlot := by omega
  have hlt : qf.metadata.bitsPerSlot * it.ext.length ≤ 64 := by
    unfold Item.Fits at hf
    omega
  unfold hashExtension
  rw [and_bitmask _ hlt, shr64_eq _ h2, Item.packedExt_eq (m := qf.metadata) hw hb hf]
  exact Digits.eq_low_iff hw hb.ext

end Hash

/-! The walk on item lists. -/

/-- The walk through the items `l` of a run, the first of them at slot `p`. It is undefined where it
decodes an item that reaches to slot 2^31 - 1 or further. -/
def scanItems (m : QFMetadata) (h : Nat) : Nat → Nat → Nat → List Item → Option Scan
  | _, rank, extLen, [] => some ⟨none, rank, extLen⟩
  | p, rank, extLen, it :: l =>
    if it.rem = m.remainder h then
      if p + it.len < 2^31 then
        if it.Matches m h then some ⟨some (p, it.info m.bitsPerSlot), rank, it.ext.length⟩
        else scanItems m h (p + it.len) (rank+1) it.ext.length l
      else none
    else scanItems m h (p + it.len) rank extLen l

section
variable {qf : QF} {A : Contents} {b : Nat} {l1 l2 : List Item} {it : Item} {hash : Nat}

theorem ItemAt.getSlot_eq {p : Nat} {last : Bool} (h : ItemAt qf p it last) :
    getSlot qf p = some it.rem := by
  have hb := h.base
  have hf := h.fits
  have hl := it.len_pos
  simp only [QF.view, Item.baseCell, Cell.mk.injEq] at hb
  unfold getSlot
  rw [if_neg (by omega), if_pos (by omega), hb.1]

theorem ItemAt.isRunend_eq {p : Nat} {last : Bool} (h : ItemAt qf p it last) :
    isRunend qf p = last := by
  have hb := h.base
  simp only [QF.view, Item.baseCell, Cell.mk.injEq] at hb
  simp [isRunend, hb]

theorem ItemAt.extension_of_lt {p s : Nat} {last : Bool} (h : ItemAt qf p it last) (h1 : p < s)
    (h2 : s < p + it.len) : extensionBit qf s = true := by
  have hlen : it.len = 1 + it.ext.length + it.cnt.length := rfl
  obtain ⟨i, rfl⟩ := Nat.exists_eq_add_of_le (by omega : p + 1 ≤ s)
  by_cases hi : i < it.ext.length
  · have hc := h.ext i it.ext[i] (List.getElem?_eq_getElem hi)
    simp only [QF.view, Item.extCell, Cell.mk.injEq] at hc
    exact hc.2.2
  · obtain ⟨j, rfl⟩ := Nat.exists_eq_add_of_le (by omega : it.ext.length ≤ i)
    have hj : j < it.cnt.length := by omega
    have hc := h.cnt j it.cnt[j] (List.getElem?_eq_getElem hj)
    rw [Nat.add_assoc] at hc
    simp only [QF.view, Item.cntCell, Cell.mk.injEq] at hc
    exact hc.2.2

theorem ItemAt.skip {p : Nat} {last : Bool} (h : ItemAt qf p it last)
    (hblocks : qf.xnslots ≤ 64 * qf.metadata.nblocks) :
    skipExtensions qf qf.fuel (p+1) = some (p + it.len) := by
  have hf := h.fits
  have hl := it.len_pos
  apply skipExtensions_eq
  · exact fun s h1 h2 => h.extension_of_lt (by omega) h2
  · exact h.stop
  · omega
  · unfold QF.fuel
    omega

theorem Contents.pos_append (A : Contents) (b : Nat) (l : List Item) (it : Item) :
    A.pos b (l ++ [it]) = A.pos b l + it.len := by
  simp [Contents.pos, Nat.add_assoc]

theorem Layout.next_lt (h : Layout qf A) (hb : A b = l1 ++ it :: l2) (hl2 : l2 ≠ []) :
    A.pos b l1 + it.len < qf.xnslots := by
  obtain ⟨it2, l3, rfl⟩ := List.exists_cons_of_ne_nil hl2
  have hcat : A b = (l1 ++ [it]) ++ it2 :: l3 := by simp [hb]
  have h1 := h.pos_add_len_le hcat
  have h2 := it2.len_pos
  have h3 := h.fits
  rw [Contents.pos_append] at h1
  omega

/-- The walk of the code is the walk through the item list. -/
theorem WF.scanRun_eq (h : WF qf A) (hb : A b = l1 ++ l2) (hne : l2 ≠ []) {fuel : Nat}
    (hf : l2.length ≤ fuel) (rank extLen : Nat) :
    scanRun qf hash fuel (A.pos b l1) rank extLen =
      scanItems qf.metadata hash (A.pos b l1) rank extLen l2 := by
  induction l2 generalizing l1 fuel rank extLen with
  | nil => exact absurd rfl hne
  | cons it l2 ih =>
    obtain ⟨fuel, rfl⟩ : ∃ n, fuel = n + 1 := ⟨fuel - 1, by simp at hf; omega⟩
    have hat := h.itemAt hb
    have hmem : it ∈ A b := by simp [hb]
    have hbd := h.bounded b it hmem
    have hfit := h.fingerprint b it hmem
    have hcat : A b = (l1 ++ [it]) ++ l2 := by simp [hb]
    have hpos := A.pos_append b l1 it
    -- behind the item the walk stops or goes on with the rest of the list
    have hrest : ∀ rank extLen, (if l2.isEmpty then some ⟨none, rank, extLen⟩
        else if A.pos b l1 + it.len < qf.xnslots then
          scanRun qf hash fuel (A.pos b l1 + it.len) rank extLen
        else some ⟨none, rank, extLen⟩) =
          scanItems qf.metadata hash (A.pos b l1 + it.len) rank extLen l2 := by
      intro rank extLen
      by_cases hl : l2 = []
      · subst hl
        rfl
      · have hlt := h.next_lt hb hl
        rw [if_neg (by simpa using hl), if_pos hlt, ← hpos]
        exact ih hcat hl (by simp at hf; omega) rank extLen
    have hrem : hashRemainder qf hash = qf.metadata.remainder hash :=
      h.geometry.hashRemainder_eq hash
    unfold scanRun scanItems
    simp only [hat.getSlot_eq, Option.bind_eq_bind, Option.bind_some, hrem, hat.isRunend_eq]
    by_cases hr : it.rem = qf.metadata.remainder hash
    · rw [if_pos hr, if_pos hr, hat.getSlotInfo_eq h.row.blocks]
      by_cases hsmall : A.pos b l1 + it.len < 2^31
      · have hnext : A.pos b l1 + 1 + (it.ext.length + it.cnt.length) = A.pos b l1 + it.len := by
          unfold Item.len
          omega
        have hm := h.geometry.hashExtension_iff hbd hfit hash
        rw [if_pos hsmall, if_pos hsmall]
        simp only [Option.bind_some, Item.info, hm]
        by_cases hmatch : it.ext = qf.metadata.extension hash it.ext.length
        · have hmi : it.Matches qf.metadata hash := ⟨hr, hmatch⟩
          rw [if_pos hmatch, if_pos hmi]
        · have hmi : ¬ it.Matches qf.metadata hash := fun hc => hmatch hc.2
          rw [if_neg hmatch, if_neg hmi, hnext]
          exact hrest (rank+1) it.ext.length
      · rw [if_neg hsmall, if_neg hsmall, Option.bind_none]
    · rw [if_neg hr, if_neg hr, hat.skip h.row.blocks, Option.bind_some]
      exact hrest rank extLen

theorem Layout.runStart_eq (h : Layout qf A) (b : Nat) : runStart qf b = some (start A.lens b) := by
  unfold runStart
  by_cases hb : b = 0
  · subst hb
    rfl
  · have hre := h.row.runEnd_eq h.offsets (b-1)
    have hb1 : b - 1 + 1 = b := by omega
    have hs := @le_start A.lens b
    rw [Contents.lens_runs, hb1] at hre
    rw [if_neg hb, hre, Option.map_some]
    congr 1
    omega

theorem Layout.length_lt_fuel (h : Layout qf A) (b : Nat) : (A b).length < qf.fuel := by
  have hle : ∀ l : List Item, l.length ≤ itemsLen l := by
    intro l
    induction l with
    | nil => simp
    | cons it l ih =>
      have := it.len_pos
      simp
      omega
  unfold QF.fuel
  by_cases hb : A b = []
  · simp [hb]
  · have h1 := h.end_le_extent b hb
    have h2 := hle (A b)
    have h3 := h.fits
    have h4 := h.row.blocks
    unfold Contents.lens at h1
    omega

theorem Layout.length_le_fuel (h : Layout qf A) (b : Nat) : (A b).length ≤ qf.fuel :=
  (h.length_lt_fuel b).le

theorem WF.scanBucket_eq (h : WF qf A) (hash extLen : Nat) :
    scanBucket qf hash extLen =
      if A (qf.metadata.bucket hash) = [] then some none
      else (scanItems qf.metadata hash (start A.lens (qf.metadata.bucket hash)) 0 extLen
        (A (qf.metadata.bucket hash))).map some := by
  have hocc : isOccupied qf (qf.metadata.bucket hash) =
      decide (A (qf.metadata.bucket hash) ≠ []) := h.occupied _
  unfold scanBucket
  simp only [h.geometry.hashBucketIndex_eq, hocc]
  by_cases hb : A (qf.metadata.bucket hash) = []
  · simp [hb]
  · have hpos : A.pos (qf.metadata.bucket hash) [] = start A.lens (qf.metadata.bucket hash) := rfl
    have hscan := @WF.scanRun_eq qf A _ [] _ hash h rfl hb qf.fuel (h.length_le_fuel _) 0 extLen
    rw [hpos] at hscan
    have hmax := Nat.max_eq_left (@le_start A.lens (qf.metadata.bucket hash))
    simp only [hb, h.runStart_eq, Option.bind_eq_bind, Option.bind_some, hmax, hscan, ne_eq,
      not_false_eq_true, decide_true, Bool.not_true, Bool.false_eq_true, if_false]
    cases scanItems qf.metadata hash (start A.lens (qf.metadata.bucket hash)) 0 extLen
      (A (qf.metadata.bucket hash)) <;> rfl

end

/-! What a walk finds: the first item that matches. -/

section
variable {m : QFMetadata} {h : Nat}

def rankOf (m : QFMetadata) (h : Nat) (l : List Item) : Nat :=
  l.countP fun it => it.rem = m.remainder h

def lastExtLen (m : QFMetadata) (h extLen : Nat) (l : List Item) : Nat :=
  l.foldl (fun x it => if it.rem = m.remainder h then it.ext.length else x) extLen

/-- The items of `l` that the walk decodes end in front of slot 2^31. -/
def NearIn (m : QFMetadata) (h p : Nat) (l : List Item) : Prop :=
  ∀ k1 it k2, l = k1 ++ it :: k2 → it.rem = m.remainder h → (∀ x ∈ k1, ¬ x.Matches m h) →
    p + itemsLen k1 + it.len < 2^31

def Near (m : QFMetadata) (A : Contents) (h : Nat) : Prop :=
  NearIn m h (start A.lens (m.bucket h)) (A (m.bucket h))

instance (m : QFMetadata) (h p : Nat) (l : List Item) : Decidable (NearIn m h p l) :=
  inferInstanceAs (Decidable (∀ _ _ _, _ → _))

instance (m : QFMetadata) (A : Contents) (h : Nat) : Decidable (Near m A h) :=
  inferInstanceAs (Decidable (NearIn _ _ _ _))

structure FirstMatch (m : QFMetadata) (h : Nat) (l l1 : List Item) (it : Item)
    (l2 : List Item) : Prop where
  split : l = l1 ++ it :: l2
  hit : it.Matches m h
  first : ∀ x ∈ l1, ¬ x.Matches m h

instance {m : QFMetadata} {h : Nat} {l : List Item} {P : List Item → Item → List Item → Prop}
    [∀ l1 it l2, Decidable (P l1 it l2)] :
    Decidable (∀ l1 it l2, FirstMatch m h l l1 it l2 → P l1 it l2) :=
  decidable_of_iff (∀ l1 it l2, l = l1 ++ it :: l2 → it.Matches m h →
      (∀ x ∈ l1, ¬ x.Matches m h) → P l1 it l2)
    ⟨fun hp l1 it l2 hf => hp l1 it l2 hf.split hf.hit hf.first,
      fun hp l1 it l2 hs hm hno => hp l1 it l2 ⟨hs, hm, hno⟩⟩

theorem firstMatch_or_none (m : QFMetadata) (h : Nat) (l : List Item) :
    (∃ l1 it l2, FirstMatch m h l l1 it l2) ∨ ∀ x ∈ l, ¬ x.Matches m h := by
  induction l with
  | nil =>
    right
    simp
  | cons it l ih =>
    by_cases hm : it.Matches m h
    · left
      exact ⟨[], it, l, rfl, hm, by simp⟩
    · rcases ih with ⟨l1, it2, l2, hs, hh, hf⟩ | hn
      · left
        refine ⟨it :: l1, it2, l2, by rw [hs]; rfl, hh, ?_⟩
        intro x hx
        rcases List.mem_cons.mp hx with rfl | hx
        · exact hm
        · exact hf x hx
      · right
        intro x hx
        rcases List.mem_cons.mp hx with rfl | hx
        · exact hm
        · exact hn x hx

theorem FirstMatch.unique {l l1 l2 k1 k2 : List Item} {it it2 : Item}
    (h1 : FirstMatch m h l l1 it l2) (h2 : FirstMatch m h l k1 it2 k2) :
    l1 = k1 ∧ it = it2 ∧ l2 = k2 := by
  have hs := h1.split.symm.trans h2.split
  rcases List.append_eq_append_iff.mp hs with ⟨a, ha, hb⟩ | ⟨a, ha, hb⟩
  · cases a with
    | nil =>
      simp only [List.append_nil, List.nil_append, List.cons.injEq] at ha hb
      exact ⟨ha.symm, hb.1, hb.2⟩
    | cons x a =>
      simp only [List.cons_append, List.cons.injEq] at hb
      exact absurd h1.hit (h2.first it (by simp [ha, hb.1]))
  · cases a with
    | nil =>
      simp only [List.append_nil, List.nil_append, List.cons.injEq] at ha hb
      exact ⟨ha, hb.1.symm, hb.2.symm⟩
    | cons x a =>
      simp only [List.cons_append, List.cons.injEq] at hb
      exact absurd h2.hit (h1.first it2 (by simp [ha, hb.1]))

theorem NearIn.tail {p : Nat} {it : Item} {l : List Item} (hn : NearIn m h p (it :: l))
    (hm : ¬ it.Matches m h) : NearIn m h (p + it.len) l := by
  intro k1 x k2 hs hr hk
  have := hn (it :: k1) x k2 (by rw [hs]; rfl) hr (by
    intro y hy
    rcases List.mem_cons.mp hy with rfl | hy
    · exact hm
    · exact hk y hy)
  simp only [itemsLen_cons] at this
  omega

theorem nearIn_of_end {p : Nat} {l : List Item} (hp : p + itemsLen l < 2^31) :
    NearIn m h p l := by
  intro k1 it k2 hs _ _
  rw [hs] at hp
  simp only [itemsLen_append, itemsLen_cons] at hp
  omega

theorem scanItems_hit {p : Nat} {l l1 l2 : List Item} {it : Item}
    (hf : FirstMatch m h l l1 it l2) (hn : NearIn m h p l) (rank extLen : Nat) :
    scanItems m h p rank extLen l =
      some ⟨some (p + itemsLen l1, it.info m.bitsPerSlot), rank + rankOf m h l1,
        it.ext.length⟩ := by
  induction l1 generalizing l p rank extLen with
  | nil =>
    rw [hf.split] at hn ⊢
    have hs := hn [] it l2 rfl hf.hit.1 (by simp)
    rw [itemsLen_nil, Nat.add_zero] at hs
    rw [List.nil_append, scanItems, if_pos hf.hit.1, if_pos hs, if_pos hf.hit]
    rfl
  | cons x l1 ih =>
    have hx : ¬ x.Matches m h := hf.first x (by simp)
    have htail : FirstMatch m h (l1 ++ it :: l2) l1 it l2 :=
      ⟨rfl, hf.hit, fun y hy => hf.first y (by simp [hy])⟩
    rw [hf.split] at hn ⊢
    rw [List.cons_append] at hn ⊢
    have ih := ih htail (hn.tail hx)
    rw [scanItems]
    by_cases hr : x.rem = m.remainder h
    · have hs := hn [] x _ rfl hr (by simp)
      rw [itemsLen_nil, Nat.add_zero] at hs
      rw [if_pos hr, if_pos hs, if_neg hx, ih]
      simp only [rankOf, List.countP_cons, hr, decide_true, itemsLen_cons]
      congr 2
      · simp
        omega
      · simp
        omega
    · rw [if_neg hr, ih]
      simp only [rankOf, List.countP_cons, hr, decide_false, itemsLen_cons]
      simp
      omega

theorem scanItems_miss {p : Nat} {l : List Item} (hm : ∀ x ∈ l, ¬ x.Matches m h)
    (hn : NearIn m h p l) (rank extLen : Nat) :
    scanItems m h p rank extLen l =
      some ⟨none, rank + rankOf m h l, lastExtLen m h extLen l⟩ := by
  induction l generalizing p rank extLen with
  | nil => rfl
  | cons x l ih =>
    have hx : ¬ x.Matches m h := hm x (by simp)
    have ih := ih (fun y hy => hm y (by simp [hy])) (hn.tail hx)
    rw [scanItems]
    by_cases hr : x.rem = m.remainder h
    · have hs := hn [] x _ rfl hr (by simp)
      rw [itemsLen_nil, Nat.add_zero] at hs
      rw [if_pos hr, if_pos hs, if_neg hx, ih]
      simp only [rankOf, List.countP_cons, hr, decide_true, lastExtLen, List.foldl_cons, if_true]
      congr 2
      omega
    · rw [if_neg hr, ih]
      simp [rankOf, hr, lastExtLen]

theorem scanItems_far {p rank extLen : Nat} {l : List Item} (hn : ¬ NearIn m h p l) :
    scanItems m h p rank extLen l = none := by
  induction l generalizing p rank extLen with
  | nil =>
    exact absurd (fun k1 it k2 hs => by simp at hs) hn
  | cons x l ih =>
    rw [scanItems]
    by_cases hr : x.rem = m.remainder h
    · rw [if_pos hr]
      split
      · next hs =>
        -- the far item is a later one, and the walk reaches it
        have hx : ¬ x.Matches m h := by
          intro hx
          apply hn
          intro k1 it k2 hk hit hk1
          cases k1 with
          | nil =>
            simp only [List.nil_append, List.cons.injEq] at hk
            rw [itemsLen_nil, Nat.add_zero, ← hk.1]
            exact hs
          | cons y k1 =>
            simp only [List.cons_append, List.cons.injEq] at hk
            exact absurd hx (hk1 x (by simp [hk.1]))
        rw [if_neg hx]
        apply ih
        intro hnear
        apply hn
        intro k1 it k2 hk hit hk1
        cases k1 with
        | nil =>
          simp only [List.nil_append, List.cons.injEq] at hk
          rw [itemsLen_nil, Nat.add_zero, ← hk.1]
          exact hs
        | cons y k1 =>
          simp only [List.cons_append, List.cons.injEq] at hk
          have := hnear k1 it k2 hk.2 hit fun z hz => hk1 z (by simp [hz])
          rw [itemsLen_cons, ← hk.1]
          omega
      · rfl
    · rw [if_neg hr]
      apply ih
      intro hnear
      apply hn
      intro k1 it k2 hk hit hk1
      cases k1 with
      | nil =>
        simp only [List.nil_append, List.cons.injEq] at hk
        rw [hk.1] at hr
        exact absurd hit hr
      | cons y k1 =>
        simp only [List.cons_append, List.cons.injEq] at hk
        have := hnear k1 it k2 hk.2 hit fun z hz => hk1 z (by simp [hz])
        rw [itemsLen_cons, ← hk.1]
        omega

end

section
variable {qf : QF} {A : Contents} {hash : Nat} {l1 l2 : List Item} {it : Item}

theorem Layout.near (h : Layout qf A) (hs : A.extent qf.metadata.nslots < 2^31) (hash : Nat) :
    Near qf.metadata A hash := by
  by_cases hb : A (qf.metadata.bucket hash) = []
  · intro k1 it k2 hk
    rw [hb] at hk
    simp at hk
  · exact nearIn_of_end (Nat.lt_of_le_of_lt (h.end_le_extent _ hb) hs)

theorem WF.scanBucket_hit (h : WF qf A) (hn : Near qf.metadata A hash)
    (hf : FirstMatch qf.metadata hash (A (qf.metadata.bucket hash)) l1 it l2) (extLen : Nat) :
    scanBucket qf hash extLen = some (some ⟨some (A.pos (qf.metadata.bucket hash) l1,
      it.info qf.bits), rankOf qf.metadata hash l1, it.ext.length⟩) := by
  have hne : A (qf.metadata.bucket hash) ≠ [] := by
    rw [hf.split]
    simp
  rw [h.scanBucket_eq, if_neg hne, scanItems_hit hf hn, Nat.zero_add]
  rfl

theorem WF.scanBucket_miss (h : WF qf A) (hn : Near qf.metadata A hash)
    (hm : ∀ x ∈ A (qf.metadata.bucket hash), ¬ x.Matches qf.metadata hash) (extLen : Nat) :
    scanBucket qf hash extLen =
      if A (qf.metadata.bucket hash) = [] then some none
      else some (some ⟨none, rankOf qf.metadata hash (A (qf.metadata.bucket hash)),
        lastExtLen qf.metadata hash extLen (A (qf.metadata.bucket hash))⟩) := by
  rw [h.scanBucket_eq, scanItems_miss hm hn, Nat.zero_add]
  rfl

/-- A query that decodes an item behind slot 2^31 is undefined. -/
theorem WF.scanBucket_far (h : WF qf A) (hn : ¬ Near qf.metadata A hash) (extLen : Nat) :
    scanBucket qf hash extLen = none := by
  have hb : A (qf.metadata.bucket hash) ≠ [] := by
    intro hb
    apply hn
    intro k1 x k2 hs
    rw [hb] at hs
    simp at hs
  rw [h.scanBucket_eq, if_neg hb, scanItems_far hn]
  rfl

def QFMetadata.fingerprint (m : QFMetadata) (h n : Nat) : Nat :=
  h % 2^(m.quotientBits + m.bitsPerSlot + m.bitsPerSlot * n)

def QFMetadata.fingerprintLen (m : QFMetadata) (n : Nat) : Nat :=
  m.bitsPerSlot * n + m.quotientBits + m.bitsPerSlot

theorem Geometry.fingerprint_eq (hg : Geometry qf.metadata) (hh : hash < 2^64)
    (hb : it.Bounded qf.bits) (hfit : it.Fits qf.metadata)
    (hm : it.Matches qf.metadata hash) :
    minirunId qf hash ||| shl64 (it.packedExt qf.bits) (qf.qbits + qf.bits) =
      qf.metadata.fingerprint hash it.ext.length := by
  have h1 := hg.bits
  have h2 := hg.hashBits
  have hext : it.packedExt qf.bits =
      hash / 2^(qf.qbits + qf.bits) % 2^(qf.bits * it.ext.length) := by
    rw [QF.bits, Item.packedExt_eq (m := qf.metadata) (by omega) hb hfit, hm.2,
      QFMetadata.extension, Digits.number_low, Digits.length_low]
  have hle : it.packedExt qf.bits * 2^(qf.qbits + qf.bits) < 2^64 := by
    rw [hext]
    calc hash / 2^(qf.qbits + qf.bits) % 2^(qf.bits * it.ext.length) * 2^(qf.qbits + qf.bits)
        ≤ hash / 2^(qf.qbits + qf.bits) * 2^(qf.qbits + qf.bits) :=
          Nat.mul_le_mul_right _ (Nat.mod_le _ _)
      _ ≤ hash := Nat.div_mul_le_self _ _
      _ < 2^64 := hh
  have hlt : hash % 2^(qf.qbits + qf.bits) < 2^(qf.qbits + qf.bits) :=
    Nat.mod_lt _ (Nat.two_pow_pos _)
  have hshift : shl64 (it.packedExt qf.bits) (qf.qbits + qf.bits) =
      it.packedExt qf.bits <<< (qf.qbits + qf.bits) := by
    rw [shl64_eq h2 hle, Nat.shiftLeft_eq]
  have hpow : 2^(qf.qbits + qf.bits + qf.bits * it.ext.length) =
      2^(qf.qbits + qf.bits) * 2^(qf.bits * it.ext.length) := pow_add _ _ _
  have hmod : qf.metadata.fingerprint hash it.ext.length =
      hash % (2^(qf.qbits + qf.bits) * 2^(qf.bits * it.ext.length)) :=
    congrArg (hash % ·) hpow
  rw [hg.minirunId_eq, hshift, Digits.or_shiftLeft hlt, hext, hmod, Nat.mod_mul,
    Nat.mul_comm (_ % _)]

/-! What the query functions return. -/

theorem keyToHash_of_isHash (qf : QF) (key : Nat) {flags : Nat}
    (hk : hasFlag flags QF_KEY_IS_HASH = true) : keyToHash qf key flags = key := by
  rw [keyToHash, if_pos hk]

theorem keyToHash_self (qf : QF) (key : Nat) : keyToHash qf key QF_KEY_IS_HASH = key :=
  keyToHash_of_isHash qf key (by decide)

theorem WF.qfQuery_hit (h : WF qf A) (hn : Near qf.metadata A hash) (hh : hash < 2^64)
    (hf : FirstMatch qf.metadata hash (A (qf.metadata.bucket hash)) l1 it l2) {key flags : Nat}
    (hk : keyToHash qf key flags = hash) :
    qfQuery qf key flags = some (it.count qf.bits, some
      ⟨A.pos (qf.metadata.bucket hash) l1, qf.metadata.fingerprint hash it.ext.length,
        qf.metadata.fingerprintLen it.ext.length⟩) := by
  have hmem : it ∈ A (qf.metadata.bucket hash) := by
    rw [hf.split]
    simp
  have hfp := h.geometry.fingerprint_eq hh (h.bounded _ it hmem) (h.fingerprint _ it hmem) hf.hit
  unfold qfQuery
  simp only [hk, h.scanBucket_hit hn hf, Option.bind_eq_bind,
    Option.bind_some, Item.info, hfp]
  rfl

theorem WF.qfQuery_miss (h : WF qf A) (hn : Near qf.metadata A hash)
    (hm : ∀ x ∈ A (qf.metadata.bucket hash), ¬ x.Matches qf.metadata hash) {key flags : Nat}
    (hk : keyToHash qf key flags = hash) : qfQuery qf key flags = some (0, none) := by
  unfold qfQuery
  simp only [hk, h.scanBucket_miss hn hm]
  split <;> rfl

theorem WF.qfQueryUsingLlTableWithExtLen_hit (h : WF qf A) (hn : Near qf.metadata A hash)
    (hf : FirstMatch qf.metadata hash (A (qf.metadata.bucket hash)) l1 it l2) {key flags : Nat}
    (hk : keyToHash qf key flags = hash) (extLen : Nat) :
    qfQueryUsingLlTableWithExtLen qf key extLen flags =
      some ⟨rankOf qf.metadata hash l1, hash, it.ext.length⟩ := by
  unfold qfQueryUsingLlTableWithExtLen
  simp only [hk, h.scanBucket_hit hn hf]
  rfl

theorem WF.qfQueryUsingLlTableWithExtLen_miss (h : WF qf A) (hn : Near qf.metadata A hash)
    (hm : ∀ x ∈ A (qf.metadata.bucket hash), ¬ x.Matches qf.metadata hash) {key flags : Nat}
    (hk : keyToHash qf key flags = hash) (extLen : Nat) :
    qfQueryUsingLlTableWithExtLen qf key extLen flags =
      some ⟨-1, hash, lastExtLen qf.metadata hash extLen (A (qf.metadata.bucket hash))⟩ := by
  unfold qfQueryUsingLlTableWithExtLen
  simp only [hk, h.scanBucket_miss hn hm]
  split
  · next hb =>
    rw [hb]
    rfl
  · rfl

theorem WF.qfQueryUsingLlTable_hit (h : WF qf A) (hn : Near qf.metadata A hash)
    (hf : FirstMatch qf.metadata hash (A (qf.metadata.bucket hash)) l1 it l2) {key flags : Nat}
    (hk : keyToHash qf key flags = hash) :
    qfQueryUsingLlTable qf key flags = some ((rankOf qf.metadata hash l1 : Int), hash) := by
  unfold qfQueryUsingLlTable
  rw [h.qfQueryUsingLlTableWithExtLen_hit hn hf hk]
  rfl

theorem WF.qfQueryUsingLlTable_miss (h : WF qf A) (hn : Near qf.metadata A hash)
    (hm : ∀ x ∈ A (qf.metadata.bucket hash), ¬ x.Matches qf.metadata hash) {key flags : Nat}
    (hk : keyToHash qf key flags = hash) :
    qfQueryUsingLlTable qf key flags = some (-1, hash) := by
  unfold qfQueryUsingLlTable
  rw [h.qfQueryUsingLlTableWithExtLen_miss hn hm hk]
  rfl

theorem WF.qfGetCountUsingLlTableWithIndex_hit (h : WF qf A) (hn : Near qf.metadata A hash)
    (hf : FirstMatch qf.metadata hash (A (qf.metadata.bucket hash)) l1 it l2) {key flags : Nat}
    (hk : keyToHash qf key flags = hash) (minirunRank index : Nat) :
    qfGetCountUsingLlTableWithIndex qf key minirunRank index flags =
      some ⟨toInt (it.count qf.bits), hash, rankOf qf.metadata hash l1 % 256,
        A.pos (qf.metadata.bucket hash) l1⟩ := by
  unfold qfGetCountUsingLlTableWithIndex
  simp only [hk, h.scanBucket_hit hn hf]
  rfl

theorem WF.qfGetCountUsingLlTableWithIndex_miss (h : WF qf A) (hn : Near qf.metadata A hash)
    (hm : ∀ x ∈ A (qf.metadata.bucket hash), ¬ x.Matches qf.metadata hash) {key flags : Nat}
    (hk : keyToHash qf key flags = hash) (minirunRank index : Nat) :
    ∃ rank, qfGetCountUsingLlTableWithIndex qf key minirunRank index flags =
      some ⟨0, hash, rank, index⟩ := by
  unfold qfGetCountUsingLlTableWithIndex
  simp only [hk, h.scanBucket_miss hn hm]
  split
  · exact ⟨minirunRank, rfl⟩
  · exact ⟨_, rfl⟩

theorem WF.near_of_qfQuery (h : WF qf A) {key flags : Nat} (hk : keyToHash qf key flags = hash)
    {r : Nat × Option QueryHit} (hr : qfQuery qf key flags = some r) : Near qf.metadata A hash := by
  by_contra hn
  unfold qfQuery at hr
  simp only [hk, h.scanBucket_far hn, Option.bind_eq_bind, Option.bind_none] at hr
  exact absurd hr (by simp)

theorem WF.near_of_llTable (h : WF qf A) {key flags : Nat} (hk : keyToHash qf key flags = hash)
    {r : Int × Nat} (hr : qfQueryUsingLlTable qf key flags = some r) : Near qf.metadata A hash := by
  by_contra hn
  unfold qfQueryUsingLlTable qfQueryUsingLlTableWithExtLen at hr
  simp only [hk, h.scanBucket_far hn, Option.bind_eq_bind, Option.bind_none] at hr
  exact absurd hr (by simp)

theorem WF.qfQuery_far (h : WF qf A) {key flags : Nat} (hk : keyToHash qf key flags = hash)
    (hn : ¬ Near qf.metadata A hash) : qfQuery qf key flags = none :=
  Option.eq_none_iff_forall_ne_some.mpr fun _ hr => hn (h.near_of_qfQuery hk hr)

theorem WF.llTable_far (h : WF qf A) {key flags : Nat} (hk : keyToHash qf key flags = hash)
    (hn : ¬ Near qf.metadata A hash) : qfQueryUsingLlTable qf key flags = none :=
  Option.eq_none_iff_forall_ne_some.mpr fun _ hr => hn (h.near_of_llTable hk hr)

end

end AdaptiveQF
