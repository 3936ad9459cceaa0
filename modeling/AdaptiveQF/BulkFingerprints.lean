import AdaptiveQF.HashOrder
import AdaptiveQF.Lib.LexPrefix

/-! The fingerprints that `qf_bulk_insert` chooses: its loop without the filter, and the calls of
`_merge_insert` that it makes. -/
namespace AdaptiveQF
open Digits LexPrefix

structure MergeCall where
  run : Nat
  rem : Nat
  ext : Nat
  extLen : Nat
  count : Nat

namespace MergeCall

def ofHash (qf : QF) (hash : Nat) : MergeCall where
  run := hashBucketIndex qf hash
  rem := hashRemainder qf hash
  ext := shr64 hash (qf.qbits + qf.bits)
  extLen := 0
  count := 1

def slots (m : QFMetadata) (c : MergeCall) : List Nat :=
  c.run :: c.rem :: low m.bitsPerSlot c.extLen c.ext

end MergeCall

/-- The calls from the one of `current` on, for the keys behind `prev`. -/
def bulkCalls (qf : QF) (prev : Nat) : List Nat → MergeCall → Option (List MergeCall)
  | [], current => some [current]
  | key :: keys, current =>
    if qf.qbits > 30 then none
    else
      let next := MergeCall.ofHash qf key
      if next.run ≠ current.run then do
        let calls ← bulkCalls qf key keys next
        some (current :: calls)
      else if next.rem = current.rem then
        if key = prev then bulkCalls qf key keys { current with count := current.count + 1 }
        else do
          let nextExtLen ← bulkExtLen qf 65 1 current.ext next.ext
          let calls ← bulkCalls qf key keys { next with extLen := nextExtLen }
          some ({ current with
            extLen := if nextExtLen > current.extLen then nextExtLen else current.extLen } :: calls)
      else do
        let calls ← bulkCalls qf key keys next
        some (current :: calls)

def bulkInsertCalls (qf : QF) : List Nat → Option (List MergeCall)
  | [] => none
  | key :: keys => bulkCalls qf key keys (.ofHash qf key)

/-- The filter while the calls are made: the first of them goes to slot `index`. -/
def placeCalls (qf : QF) (index : Nat) : List MergeCall → Option QF
  | [] => some qf
  | [c] => do
    let (qf, _) ← mergeInsert (orRunend qf index) index c.run c.rem c.ext c.extLen c.count
    some qf
  | c :: next :: calls => do
    let qf := if next.run ≠ c.run then orOccupied (orRunend qf index) next.run else qf
    let (qf, index) ← mergeInsert qf index c.run c.rem c.ext c.extLen c.count
    if next.run = c.run ∧ next.rem = c.rem then placeCalls qf index (next :: calls)
    else placeCalls qf (if index < next.run then next.run else index) (next :: calls)

def placeAllCalls (qf : QF) : List MergeCall → Option QF
  | [] => none
  | c :: calls => placeCalls (orOccupied qf c.run) c.run (c :: calls)

/-! The loop with the filter makes these calls. -/

section
variable {qf qf' : QF}

theorem MergeCall.ofHash_congr (h : qf'.metadata = qf.metadata) :
    MergeCall.ofHash qf' = MergeCall.ofHash qf := by
  funext hash
  simp only [ofHash, hashBucketIndex, hashRemainder, QF.bits, QF.qbits, h]

theorem bulkExtLen_congr (h : qf'.metadata = qf.metadata) : bulkExtLen qf' = bulkExtLen qf := by
  funext fuel
  induction fuel with
  | zero => rfl
  | succ fuel ih =>
    funext n x y
    rw [bulkExtLen, bulkExtLen, ih]
    simp only [QF.bits, h]

theorem bulkCalls_congr (h : qf'.metadata = qf.metadata) : bulkCalls qf' = bulkCalls qf := by
  funext prev keys
  induction keys generalizing prev with
  | nil => rfl
  | cons key keys ih =>
    funext current
    rw [bulkCalls, bulkCalls, ih, MergeCall.ofHash_congr h, bulkExtLen_congr h]
    simp only [QF.qbits, h]

/-! The branches of the loop. -/

section
variable {prev key : Nat} {keys : List Nat} {c : MergeCall}

theorem bulkCalls_of_run_ne (hq : qf.qbits ≤ 30) (h : hashBucketIndex qf key ≠ c.run) :
    bulkCalls qf prev (key :: keys) c =
      (bulkCalls qf key keys (.ofHash qf key)).bind fun calls => some (c :: calls) := by
  have hrun : (MergeCall.ofHash qf key).run ≠ c.run := h
  rw [bulkCalls, if_neg (by omega)]
  simp only [if_pos hrun]
  rfl

theorem bulkCalls_of_rem_ne (hq : qf.qbits ≤ 30) (h1 : hashBucketIndex qf key = c.run)
    (h : hashRemainder qf key ≠ c.rem) : bulkCalls qf prev (key :: keys) c =
      (bulkCalls qf key keys (.ofHash qf key)).bind fun calls => some (c :: calls) := by
  have hrun : ¬ (MergeCall.ofHash qf key).run ≠ c.run := not_not.mpr h1
  have hrem : ¬ (MergeCall.ofHash qf key).rem = c.rem := h
  rw [bulkCalls, if_neg (by omega)]
  simp only [if_neg hrun, if_neg hrem]
  rfl

theorem bulkCalls_of_eq (hq : qf.qbits ≤ 30) (h1 : hashBucketIndex qf key = c.run)
    (h2 : hashRemainder qf key = c.rem) (h : key = prev) : bulkCalls qf prev (key :: keys) c =
      bulkCalls qf key keys { c with count := c.count + 1 } := by
  have hrun : ¬ (MergeCall.ofHash qf key).run ≠ c.run := not_not.mpr h1
  have hrem : (MergeCall.ofHash qf key).rem = c.rem := h2
  rw [bulkCalls, if_neg (by omega)]
  simp only [if_neg hrun, if_pos hrem, if_pos h]

theorem bulkCalls_of_ne (hq : qf.qbits ≤ 30) (h1 : hashBucketIndex qf key = c.run)
    (h2 : hashRemainder qf key = c.rem) (h : key ≠ prev) : bulkCalls qf prev (key :: keys) c =
      (bulkExtLen qf 65 1 c.ext (shr64 key (qf.qbits + qf.bits))).bind fun nextExtLen =>
        (bulkCalls qf key keys { MergeCall.ofHash qf key with extLen := nextExtLen }).bind
          fun calls => some ({ c with
            extLen := if nextExtLen > c.extLen then nextExtLen else c.extLen } :: calls) := by
  have hrun : ¬ (MergeCall.ofHash qf key).run ≠ c.run := not_not.mpr h1
  have hrem : (MergeCall.ofHash qf key).rem = c.rem := h2
  rw [bulkCalls, if_neg (by omega)]
  simp only [if_neg hrun, if_pos hrem, if_neg h]
  rfl

end

theorem bulkCalls_head {prev : Nat} {keys : List Nat} {c : MergeCall} {calls : List MergeCall}
    (h : bulkCalls qf prev keys c = some calls) :
    ∃ extLen count rest, calls = { c with extLen := extLen, count := count } :: rest := by
  induction keys generalizing prev c with
  | nil => exact ⟨_, _, [], (Option.some.inj h).symm⟩
  | cons key keys ih =>
    rcases Nat.lt_or_ge 30 qf.qbits with hq | hq
    · rw [bulkCalls, if_pos hq] at h
      exact absurd h (Option.some_ne_none _).symm
    by_cases hrun : hashBucketIndex qf key = c.run
    · by_cases hrem : hashRemainder qf key = c.rem
      · by_cases hkey : key = prev
        · rw [bulkCalls_of_eq hq hrun hrem hkey] at h
          obtain ⟨extLen, count, rest, rfl⟩ := ih h
          exact ⟨extLen, count, rest, rfl⟩
        · rw [bulkCalls_of_ne hq hrun hrem hkey] at h
          simp only [Option.bind_eq_some_iff, Option.some.injEq] at h
          obtain ⟨_, _, rest, _, rfl⟩ := h
          exact ⟨_, _, rest, rfl⟩
      · rw [bulkCalls_of_rem_ne hq hrun hrem, Option.bind_eq_some_iff] at h
        obtain ⟨rest, _, hl⟩ := h
        exact ⟨_, _, rest, (Option.some.inj hl).symm⟩
    · rw [bulkCalls_of_run_ne hq hrun, Option.bind_eq_some_iff] at h
      obtain ⟨rest, _, hl⟩ := h
      exact ⟨_, _, rest, (Option.some.inj hl).symm⟩

/-- The filter after one call, and the slot of the one behind it. -/
theorem placeCalls_cons {index : Nat} {c next : MergeCall} {calls : Option (List MergeCall)}
    (h : ∀ l ∈ calls, ∃ extLen count rest,
      l = { next with extLen := extLen, count := count } :: rest) :
    (calls.bind fun l => some (c :: l)).bind (placeCalls qf index) =
      (mergeInsert (if next.run ≠ c.run then orOccupied (orRunend qf index) next.run else qf)
        index c.run c.rem c.ext c.extLen c.count).bind fun r =>
          calls.bind (placeCalls r.1 (if next.run = c.run ∧ next.rem = c.rem then r.2
            else if r.2 < next.run then next.run else r.2)) := by
  cases calls with
  | none => simp
  | some l =>
    obtain ⟨extLen, count, rest, rfl⟩ := h l rfl
    simp only [Option.bind_some, placeCalls, Option.bind_eq_bind]
    congr 1
    funext r
    split <;> rfl

namespace BulkState

def current (s : BulkState) : MergeCall :=
  ⟨s.currentRun, s.currentRem, s.currentExt, s.currentExtLen, s.currentCount⟩

theorem write_rest {s : BulkState} {key nextExtLen extLen : Nat} {keys : List Nat}
    {f : BulkState → BulkState} (place : Nat → Nat) (hf : ∀ s : BulkState, (f s).qf = s.qf ∧
      (f s).current = s.current ∧ (f s).currentIndex = place s.currentIndex) :
    (s.write key (hashBucketIndex s.qf key) extLen nextExtLen).bind (fun s1 =>
        (bulkCalls (f s1).qf key keys (f s1).current).bind
          (placeCalls (f s1).qf (f s1).currentIndex)) =
      (mergeInsert s.qf s.currentIndex s.currentRun s.currentRem s.currentExt extLen
        s.currentCount).bind fun r =>
          (bulkCalls s.qf key keys { MergeCall.ofHash s.qf key with extLen := nextExtLen }).bind
            (placeCalls r.1 (place r.2)) := by
  unfold write
  cases h : mergeInsert s.qf s.currentIndex s.currentRun s.currentRem s.currentExt extLen
      s.currentCount with
  | none => rfl
  | some r =>
    have hm := (mergeInsert_marks h).metadata
    simp only [Option.bind_eq_bind, Option.bind_some, hf, bulkCalls_congr hm]
    simp only [current, hashRemainder, QF.bits, QF.qbits, hm]
    rfl

/-- The loop makes the calls of `bulkCalls`. -/
theorem loop_finish (prev : Nat) (keys : List Nat) (s : BulkState) :
    (loop prev keys s).bind finish =
      (bulkCalls s.qf prev keys s.current).bind (placeCalls s.qf s.currentIndex) := by
  induction keys generalizing prev s with
  | nil => rfl
  | cons key keys ih =>
    rw [loop, Option.bind_eq_bind, Option.bind_assoc]
    simp only [ih]
    rcases Nat.lt_or_ge 30 s.qf.qbits with hq | hq
    · rw [step, if_pos hq, bulkCalls, if_pos hq]
      rfl
    rw [step, if_neg (by omega)]
    by_cases hrun : hashBucketIndex s.qf key = s.currentRun
    · have hrun1 : ¬ hashBucketIndex s.qf key ≠ s.currentRun := not_not.mpr hrun
      have hrun2 : ¬ (MergeCall.ofHash s.qf key).run ≠ s.current.run := hrun1
      simp only [if_neg hrun1]
      by_cases hrem : hashRemainder s.qf key = s.currentRem
      · rw [if_pos hrem]
        by_cases hkey : key = prev
        · rw [bulkCalls_of_eq hq hrun hrem hkey, if_pos hkey]
          rfl
        · rw [bulkCalls_of_ne hq hrun hrem hkey, if_neg hkey, Option.bind_eq_bind,
            Option.bind_assoc, Option.bind_assoc]
          congr 1
          funext nextExtLen
          have hsame : (MergeCall.ofHash s.qf key).run = s.current.run ∧
              (MergeCall.ofHash s.qf key).rem = s.current.rem := ⟨hrun, hrem⟩
          rw [placeCalls_cons fun l hl => bulkCalls_head hl]
          simp only [if_neg hrun2, if_pos hsame]
          exact write_rest (fun index => index) (f := fun s => s) fun _ => ⟨rfl, rfl, rfl⟩
      · have hother : ¬ ((MergeCall.ofHash s.qf key).run = s.current.run ∧
            (MergeCall.ofHash s.qf key).rem = s.current.rem) := fun h => hrem h.2
        rw [bulkCalls_of_rem_ne hq hrun hrem, if_neg hrem, Option.bind_eq_bind, Option.bind_assoc,
          placeCalls_cons fun l hl => bulkCalls_head hl]
        simp only [if_neg hrun2, if_neg hother]
        exact write_rest (fun index => if index < hashBucketIndex s.qf key then
          hashBucketIndex s.qf key else index) (f := fun t => t.skipTo (hashBucketIndex s.qf key))
          fun _ => ⟨rfl, rfl, rfl⟩
    · have hrun2 : (MergeCall.ofHash s.qf key).run ≠ s.current.run := hrun
      have hother : ¬ ((MergeCall.ofHash s.qf key).run = s.current.run ∧
          (MergeCall.ofHash s.qf key).rem = s.current.rem) := fun h => hrun h.1
      have hmark :
          bulkCalls (orOccupied (orRunend s.qf s.currentIndex) (hashBucketIndex s.qf key)) =
          bulkCalls s.qf := bulkCalls_congr rfl
      simp only [if_pos hrun]
      rw [bulkCalls_of_run_ne hq hrun, Option.bind_eq_bind, Option.bind_assoc,
        placeCalls_cons fun l hl => bulkCalls_head hl]
      simp only [if_pos hrun2, if_neg hother]
      rw [← hmark]
      exact write_rest (s := { s with
        qf := orOccupied (orRunend s.qf s.currentIndex) (hashBucketIndex s.qf key) })
        (fun index => if index < hashBucketIndex s.qf key then hashBucketIndex s.qf key else index)
        (f := fun t => t.skipTo (hashBucketIndex s.qf key)) fun _ => ⟨rfl, rfl, rfl⟩

end BulkState

/-- The filter is written by the calls and the marks of their runs alone. -/
theorem qfBulkInsert_eq {keys : List Nat} (h0 : qf.metadata.noccupiedSlots = 0)
    (hroom : 20 * keys.length < 19 * qf.metadata.nslots) :
    qfBulkInsert qf keys = (bulkInsertCalls qf keys).bind (placeAllCalls qf) := by
  cases keys with
  | nil => rfl
  | cons key keys =>
    rw [List.length_cons] at hroom
    have hstart := BulkState.loop_finish key keys (.start qf key)
    have hm : bulkCalls (BulkState.start qf key).qf = bulkCalls qf := bulkCalls_congr rfl
    rw [qfBulkInsert, if_neg (not_not.mpr h0), if_neg (by omega), Option.bind_eq_bind, hstart, hm,
      bulkInsertCalls]
    change (bulkCalls qf key keys (.ofHash qf key)).bind _ = _
    cases hcalls : bulkCalls qf key keys (.ofHash qf key) with
    | none => rfl
    | some calls =>
      obtain ⟨extLen, count, rest, rfl⟩ := bulkCalls_head hcalls
      rfl

end

/-! Every call has a fingerprint of its own. -/

/-- Each hash of the list has one call, with its multiplicity and a fingerprint that the hash
begins with and no other one. -/
def SeparatesKeys (m : QFMetadata) (keys : List Nat) (calls : List MergeCall) : Prop :=
  ∃ hashes : List Nat, hashes.Nodup ∧ (∀ hash, hash ∈ hashes ↔ hash ∈ keys) ∧
    List.Forall₂ (fun hash c => c.count = keys.count hash ∧ c.slots m <+: m.hashSlots hash ∧
      ∀ other ∈ keys, other ≠ hash → ¬ c.slots m <+: m.hashSlots other) hashes calls

section
variable {qf : QF} {a b : Nat}

theorem bulkExtLen_spec (hw : 0 < qf.bits) (hw' : qf.bits < 64) {fuel n e x y : Nat}
    (hfuel : n < fuel) (hx : x < 2^(qf.bits*n)) (hy : y < 2^(qf.bits*n)) (hne : x ≠ y) :
    ∃ k < n, bulkExtLen qf fuel e x y = some (e + k) ∧
      low qf.bits k x = low qf.bits k y ∧ low qf.bits (k+1) x ≠ low qf.bits (k+1) y := by
  induction n generalizing fuel e x y with
  | zero =>
    simp only [Nat.mul_zero, pow_zero, Nat.lt_one_iff] at hx hy
    omega
  | succ n ih =>
    obtain ⟨fuel, rfl⟩ : ∃ f, fuel = f + 1 := ⟨fuel - 1, by omega⟩
    rw [bulkExtLen, and_bitmask _ (by omega), and_bitmask _ (by omega), shr64_eq _ hw',
      shr64_eq _ hw']
    by_cases hlow : x % 2^qf.bits = y % 2^qf.bits
    · rw [if_pos hlow]
      have hrest : ∀ {z : Nat}, z < 2^(qf.bits*(n+1)) → z / 2^qf.bits < 2^(qf.bits*n) := by
        intro z hz
        rw [Nat.mul_succ, Nat.add_comm, pow_add] at hz
        exact Nat.div_lt_of_lt_mul hz
      have hhigh : x / 2^qf.bits ≠ y / 2^qf.bits := by
        intro h
        apply hne
        rw [← Nat.div_add_mod x (2^qf.bits), ← Nat.div_add_mod y (2^qf.bits), h, hlow]
      obtain ⟨k, hk, hcall, hsame, hdiff⟩ := ih (e := e + 1) (Nat.lt_of_succ_lt_succ hfuel)
        (hrest hx) (hrest hy) hhigh
      refine ⟨k+1, by omega, by rw [hcall, Nat.add_assoc, Nat.add_comm 1], ?_, ?_⟩
      · rw [low_cons, low_cons (x := y), hsame, hlow]
      · rw [low_cons, low_cons (x := y)]
        intro h
        exact hdiff (List.cons.inj h).2
    · rw [if_neg hlow]
      refine ⟨0, by omega, rfl, rfl, ?_⟩
      rw [low_cons, low_cons (x := y)]
      intro h
      exact hlow (List.cons.inj h).1

def MergeCall.For (qf : QF) (hash : Nat) (c : MergeCall) : Prop :=
  c = { ofHash qf hash with extLen := c.extLen, count := c.count } ∧ c.extLen ≤ 64

variable (hq : qf.qbits + qf.bits < 64)
include hq

theorem MergeCall.For.slots_eq {c : MergeCall} (h : c.For qf a) :
    c.slots qf.metadata = qf.metadata.bucket a :: qf.metadata.remainder a ::
      qf.metadata.extension a c.extLen := by
  rw [MergeCall.slots, h.1]
  simp only [MergeCall.ofHash, QF.hashRemainder_eq hq, QF.hashBucketIndex_eq hq, shr64_eq a hq]
  rfl

theorem MergeCall.For.slots_isPrefixOf {c : MergeCall} (h : c.For qf a) :
    c.slots qf.metadata <+: qf.metadata.hashSlots a := by
  rw [h.slots_eq hq, QFMetadata.hashSlots, List.cons_prefix_cons, List.cons_prefix_cons,
    QFMetadata.extension, QFMetadata.extension, ← take_low h.2]
  exact ⟨rfl, rfl, List.take_prefix ..⟩

theorem MergeCall.For.slots_isPrefixOf_iff {c : MergeCall} (h : c.For qf a) :
    c.slots qf.metadata <+: qf.metadata.hashSlots b ↔
      qf.metadata.bucket a = qf.metadata.bucket b ∧
      qf.metadata.remainder a = qf.metadata.remainder b ∧
      qf.metadata.extension a c.extLen = qf.metadata.extension b c.extLen := by
  rw [h.slots_eq hq, QFMetadata.hashSlots, List.cons_prefix_cons, List.cons_prefix_cons]
  have hext : qf.metadata.extension a c.extLen <+: qf.metadata.extension b 64 ↔
      qf.metadata.extension a c.extLen = qf.metadata.extension b c.extLen := by
    unfold QFMetadata.extension
    rw [List.prefix_iff_eq_take, length_low, take_low h.2]
  rw [hext]

end

/-- Pairs of a hash and its call, in the order of the hashes, that neighbours tell apart. -/
structure Listed (qf : QF) (pairs : List (Nat × MergeCall)) : Prop where
  each : ∀ p ∈ pairs, p.2.For qf p.1
  sorted : (pairs.map fun p => qf.metadata.hashSlots p.1).Pairwise (· < ·)
  apart : pairs.IsChain
    (Apart (fun p => qf.metadata.hashSlots p.1) fun p => p.2.slots qf.metadata)

namespace Listed

variable {qf : QF} {hash next : Nat} {c d : MergeCall} {rest : List (Nat × MergeCall)}

theorem cons (h : Listed qf ((next, d) :: rest)) (hc : c.For qf hash)
    (hlt : qf.metadata.hashSlots hash < qf.metadata.hashSlots next)
    (hapart : ¬ c.slots qf.metadata <+: qf.metadata.hashSlots next ∧
      ¬ d.slots qf.metadata <+: qf.metadata.hashSlots hash) :
    Listed qf ((hash, c) :: (next, d) :: rest) := by
  refine ⟨?_, ?_, List.isChain_cons_cons.mpr ⟨hapart, h.apart⟩⟩
  · intro p hp
    cases hp with
    | head => exact hc
    | tail _ hp => exact h.each p hp
  · rw [List.map_cons, List.pairwise_cons]
    refine ⟨fun x hx => ?_, h.sorted⟩
    rw [List.map_cons] at hx
    have hsorted := h.sorted
    rw [List.map_cons, List.pairwise_cons] at hsorted
    cases hx with
    | head => exact hlt
    | tail _ hx => exact hlt.trans (hsorted.1 x hx)

theorem ne_of_mem (h : Listed qf ((hash, c) :: rest)) {p : Nat × MergeCall} (hp : p ∈ rest) :
    p.1 ≠ hash := by
  have hsorted := h.sorted
  rw [List.map_cons, List.pairwise_cons] at hsorted
  intro heq
  have hlt := hsorted.1 _ (List.mem_map_of_mem hp)
  rw [heq] at hlt
  exact lt_irrefl _ hlt

end Listed

def QFMetadata.Agree (m : QFMetadata) (n x y : Nat) : Prop :=
  m.bucket x = m.bucket y ∧ m.remainder x = m.remainder y ∧ m.extension x n = m.extension y n

instance (m : QFMetadata) (n x y : Nat) : Decidable (m.Agree n x y) :=
  inferInstanceAs (Decidable (_ ∧ _ ∧ _))

/-- From `lo` slots on, the extension of a hash needs the slots up to `hi`: with fewer of them there
is another hash that agrees. -/
def Needs (m : QFMetadata) (hash lo hi : Nat) (others : List Nat) : Prop :=
  ∀ n, lo ≤ n → n < hi → ∃ other ∈ others, other ≠ hash ∧ m.Agree n hash other

theorem Needs.mono {m : QFMetadata} {hash lo hi : Nat} {l1 l2 : List Nat}
    (h : Needs m hash lo hi l1) (hsub : ∀ x ∈ l1, x ∈ l2) : Needs m hash lo hi l2 := by
  intro n hlo hhi
  obtain ⟨other, hmem, hother⟩ := h n hlo hhi
  exact ⟨other, hsub other hmem, hother⟩

theorem Needs.trans {m : QFMetadata} {hash lo mid hi : Nat} {l : List Nat}
    (h1 : Needs m hash lo mid l) (h2 : Needs m hash mid hi l) : Needs m hash lo hi l := by
  intro n hlo hhi
  rcases Nat.lt_or_ge n mid with hn | hn
  · exact h1 n hlo hn
  · exact h2 n hn hhi

theorem Needs.of_le {m : QFMetadata} {hash lo hi : Nat} (h : hi ≤ lo) (l : List Nat) :
    Needs m hash lo hi l := fun n hlo hhi => by omega

/-- The calls from `c`, that of `prev`, on: `c` may have got longer, has counted the copies of
`prev`, and each hash behind it has a call. No extension is longer than it has to be. -/
def Calls (qf : QF) (prev : Nat) (keys : List Nat) (c : MergeCall) : Prop :=
  ∃ c' rest, bulkCalls qf prev keys c = some (c' :: rest.map Prod.snd) ∧
    c.extLen ≤ c'.extLen ∧ c'.count = c.count + keys.count prev ∧
    Listed qf ((prev, c') :: rest) ∧ (∀ p ∈ rest, p.2.count = keys.count p.1) ∧
    (∀ hash, hash ∈ prev :: keys ↔ hash = prev ∨ hash ∈ rest.map Prod.fst) ∧
    Needs qf.metadata prev c.extLen c'.extLen keys ∧
    ∀ p ∈ rest, Needs qf.metadata p.1 0 p.2.extLen (prev :: keys)

section
variable {qf : QF} {prev key : Nat} {keys : List Nat} {c : MergeCall}

theorem Calls.cons {c' d : MergeCall}
    (h : Calls qf key keys d) (hd : d.count = 1) (hc : c'.For qf prev) (hle : c.extLen ≤ c'.extLen)
    (hcount : c'.count = c.count)
    (hlt : qf.metadata.hashSlots prev < qf.metadata.hashSlots key) (hprev : prev ∉ key :: keys)
    (hcall : bulkCalls qf prev (key :: keys) c =
      (bulkCalls qf key keys d).bind fun calls => some (c' :: calls))
    (hapart : ∀ d' : MergeCall, d'.For qf key → d.extLen ≤ d'.extLen →
      ¬ c'.slots qf.metadata <+: qf.metadata.hashSlots key ∧
      ¬ d'.slots qf.metadata <+: qf.metadata.hashSlots prev)
    (hneed : Needs qf.metadata prev c.extLen c'.extLen [key])
    (hneed' : Needs qf.metadata key 0 d.extLen [prev]) :
    Calls qf prev (key :: keys) c := by
  obtain ⟨d', rest, hrest, hlen, hcount', hlist, hcounts, hmem, hnew, hneeds⟩ := h
  have hfor : d'.For qf key := hlist.each _ (.head _)
  refine ⟨c', (key, d') :: rest, ?_, hle, ?_, hlist.cons hc hlt (hapart d' hfor hlen), ?_, ?_,
    hneed.mono (by simp), ?_⟩
  · rw [hcall, hrest]
    rfl
  · rw [hcount, List.count_eq_zero_of_not_mem hprev, Nat.add_zero]
  · intro p hp
    cases hp with
    | head => rw [hcount', hd, List.count_cons_self, Nat.add_comm]
    | tail _ hp => rw [hcounts p hp, List.count_cons_of_ne (hlist.ne_of_mem hp).symm]
  · intro hash
    rw [List.mem_cons, hmem, List.map_cons, List.mem_cons]
  · intro p hp
    cases hp with
    | head => exact (hneed'.mono (by simp)).trans (hnew.mono (by simp_all))
    | tail _ hp => exact (hneeds p hp).mono fun x hx => .tail _ hx

variable (hw : 0 < qf.bits) (hq : qf.qbits + qf.bits < 64) (hq' : qf.qbits ≤ 30)
include hw hq hq'

theorem bulkCalls_spec (hlt : ∀ hash ∈ prev :: keys, hash < 2^64)
    (hsorted : ((prev :: keys).map qf.metadata.hashSlots).Pairwise (· ≤ ·))
    (hc : c.For qf prev) : Calls qf prev keys c := by
  induction keys generalizing prev c with
  | nil =>
    exact ⟨c, [], rfl, le_rfl, by simp, ⟨by simpa using hc, by simp, .singleton _⟩, by simp,
      by simp, .of_le le_rfl _, by simp⟩
  | cons key keys ih =>
    rw [List.map_cons, List.pairwise_cons] at hsorted
    have hrun : c.run = hashBucketIndex qf prev := by rw [hc.1]; rfl
    have hrem : c.rem = hashRemainder qf prev := by rw [hc.1]; rfl
    have hext : c.ext = prev / 2^(qf.qbits + qf.bits) := by rw [hc.1]; exact shr64_eq _ hq
    have hlt' : ∀ hash ∈ key :: keys, hash < 2^64 := fun hash hh => hlt hash (.tail _ hh)
    by_cases hkey : key = prev
    · subst hkey
      have hc1 : MergeCall.For qf key { c with count := c.count + 1 } := by
        refine ⟨?_, hc.2⟩
        rw [hc.1]
      obtain ⟨c', rest, hcall, hle, hcount, hlist, hcounts, hmem, hnew, hneeds⟩ :=
        ih hlt' hsorted.2 hc1
      refine ⟨c', rest, ?_, hle, ?_, hlist, fun p hp => ?_, fun hash => ?_,
        hnew.mono fun x hx => .tail _ hx, fun p hp => (hneeds p hp).mono fun x hx => .tail _ hx⟩
      · rw [bulkCalls_of_eq hq' hrun.symm hrem.symm rfl, hcall]
      · rw [hcount, List.count_cons_self]
        ring
      · rw [hcounts p hp, List.count_cons_of_ne (hlist.ne_of_mem hp).symm]
      · rw [List.mem_cons, hmem]
        tauto
    · have h64 : prev < 2^64 := hlt prev (.head _)
      have h64' : key < 2^64 := hlt' key (.head _)
      have hless : qf.metadata.hashSlots prev < qf.metadata.hashSlots key := by
        apply lt_of_le_of_ne (hsorted.1 _ (by simp))
        intro h
        exact hkey ((QFMetadata.hashSlots_inj hw h64 h64').mp h).symm
      have hprev : prev ∉ key :: keys := by
        intro hmem
        cases hmem with
        | head => exact hkey rfl
        | tail _ hmem =>
          have hle := (List.pairwise_cons.mp hsorted.2).1 _ (List.mem_map_of_mem hmem)
          exact absurd hless (not_lt_of_ge hle)
      have hnew : ∀ e, e ≤ 64 →
          MergeCall.For qf key { MergeCall.ofHash qf key with extLen := e } := fun e he => ⟨rfl, he⟩
      by_cases hsame : hashBucketIndex qf key = c.run ∧ hashRemainder qf key = c.rem
      · have hbucket : qf.metadata.bucket key = qf.metadata.bucket prev := by
          rw [← QF.hashBucketIndex_eq hq, ← QF.hashBucketIndex_eq hq, hsame.1, hrun]
        have hremainder : qf.metadata.remainder key = qf.metadata.remainder prev := by
          rw [← QF.hashRemainder_eq hq, ← QF.hashRemainder_eq hq, hsame.2, hrem]
        have hne : prev / 2^(qf.qbits + qf.bits) ≠ key / 2^(qf.qbits + qf.bits) := by
          intro h
          apply hkey
          rw [qf.metadata.hash_eq key, qf.metadata.hash_eq prev, hbucket, hremainder]
          rw [h]
        obtain ⟨k, hk, hlen, hagree, hdiff⟩ := bulkExtLen_spec hw (by omega) (by omega : 64 < 65)
          (e := 1) (extension_lt hw h64) (extension_lt hw h64') hne
        have hlen' : bulkExtLen qf 65 1 c.ext (shr64 key (qf.qbits + qf.bits)) = some (1 + k) := by
          rw [hext, shr64_eq key hq, hlen]
        -- Both fingerprints reach the first slot in which the hashes differ.
        have hlong : ∀ n, 1 + k ≤ n →
            qf.metadata.extension prev n ≠ qf.metadata.extension key n :=
          fun n hn h => hdiff (low_mono (by omega) h)
        have hc' : MergeCall.For qf prev
            { c with extLen := if 1 + k > c.extLen then 1 + k else c.extLen } := by
          refine ⟨by rw [hc.1], ?_⟩
          have hc64 := hc.2
          show (if 1 + k > c.extLen then 1 + k else c.extLen) ≤ 64
          split <;> omega
        refine (ih hlt' hsorted.2 (hnew (1 + k) (by omega))).cons rfl hc' ?_ rfl hless hprev ?_ ?_
          ?_ ?_
        · show c.extLen ≤ if 1 + k > c.extLen then 1 + k else c.extLen
          split <;> omega
        · rw [bulkCalls_of_ne hq' hsame.1 hsame.2 hkey, hlen', Option.bind_some]
        · intro d hd hle
          rw [hc'.slots_isPrefixOf_iff hq, hd.slots_isPrefixOf_iff hq]
          refine ⟨fun h => hlong _ ?_ h.2.2, fun h => hlong _ hle h.2.2.symm⟩
          show 1 + k ≤ if 1 + k > c.extLen then 1 + k else c.extLen
          split <;> omega
        · intro n hlo hhi
          have hn : n ≤ k := by
            simp only at hhi
            split at hhi <;> omega
          exact ⟨key, .head _, hkey, hbucket.symm, hremainder.symm, low_mono hn hagree⟩
        · intro n _ hhi
          have hn : n ≤ k := by
            simp only at hhi
            omega
          exact ⟨prev, .head _, Ne.symm hkey, hbucket, hremainder, (low_mono hn hagree).symm⟩
      · have hcall : bulkCalls qf prev (key :: keys) c =
            (bulkCalls qf key keys (.ofHash qf key)).bind fun calls => some (c :: calls) := by
          by_cases hr : hashBucketIndex qf key = c.run
          · exact bulkCalls_of_rem_ne hq' hr fun h => hsame ⟨hr, h⟩
          · exact bulkCalls_of_run_ne hq' hr
        refine (ih hlt' hsorted.2 (hnew 0 (by omega))).cons rfl hc le_rfl rfl hless hprev hcall ?_
          (.of_le le_rfl _) (.of_le le_rfl _)
        intro d hd _
        rw [hrun, hrem, QF.hashBucketIndex_eq hq, QF.hashBucketIndex_eq hq,
          QF.hashRemainder_eq hq, QF.hashRemainder_eq hq] at hsame
        rw [hc.slots_isPrefixOf_iff hq, hd.slots_isPrefixOf_iff hq]
        exact ⟨fun h => hsame ⟨h.1.symm, h.2.1.symm⟩, fun h => hsame ⟨h.1, h.2.1⟩⟩

omit hq' in
theorem SortedByCmp.slots {keys : List Nat} (h : SortedByCmp qf keys)
    (hlt : ∀ hash ∈ keys, hash < 2^64) :
    (keys.map qf.metadata.hashSlots).Pairwise (· ≤ ·) := by
  rw [← List.isChain_iff_pairwise, List.isChain_map]
  refine List.IsChain.imp_of_mem_imp ?_ h
  intro x y hx hy hcmp
  rw [qfHashCmp_eq hw hq (hlt x hx) (hlt y hy), Option.some.injEq, Option.some.injEq,
    slotsCmp_eq_zero] at hcmp
  cases hcmp with
  | inl hneg => exact (slotsCmp_neg.mp (by rw [hneg]; decide)).le
  | inr heq => exact heq.le

structure MergeCall.Of (qf : QF) (keys : List Nat) (hash : Nat) (c : MergeCall) : Prop where
  for_hash : c.For qf hash
  count : c.count = keys.count hash
  apart : ∀ other ∈ keys, other ≠ hash → ¬ c.slots qf.metadata <+: qf.metadata.hashSlots other
  needed : Needs qf.metadata hash 0 c.extLen keys

theorem bulkInsertCalls_pairs (hne : keys ≠ []) (hlt : ∀ hash ∈ keys, hash < 2^64)
    (hsorted : SortedByCmp qf keys) :
    ∃ pairs : List (Nat × MergeCall), bulkInsertCalls qf keys = some (pairs.map Prod.snd) ∧
      (pairs.map fun p => qf.metadata.hashSlots p.1).Pairwise (· < ·) ∧
      (∀ hash, hash ∈ keys ↔ hash ∈ pairs.map Prod.fst) ∧
      ∀ p ∈ pairs, MergeCall.Of qf keys p.1 p.2 := by
  cases keys with
  | nil => exact absurd rfl hne
  | cons key keys =>
    obtain ⟨c, rest, hcall, _, hcount, hlist, hcounts, hmem, hnew, hneeds⟩ :=
      bulkCalls_spec hw hq hq' hlt (hsorted.slots hw hq hlt) (c := .ofHash qf key)
        ⟨rfl, Nat.zero_le _⟩
    have hmem' : ∀ hash, hash ∈ key :: keys ↔ hash ∈ ((key, c) :: rest).map Prod.fst := by
      intro hash
      rw [hmem, List.map_cons, List.mem_cons]
    refine ⟨(key, c) :: rest, hcall, hlist.sorted, hmem', fun p hp => ⟨hlist.each p hp, ?_, ?_, ?_⟩⟩
    · cases hp with
      | head =>
        rw [hcount, List.count_cons_self, Nat.add_comm]
        rfl
      | tail _ hp => rw [hcounts p hp, List.count_cons_of_ne (hlist.ne_of_mem hp).symm]
    · intro other ho hother
      have hapart := pairwise_apart (by simpa using hlist.sorted)
        (fun p hp => (hlist.each p hp).slots_isPrefixOf hq) hlist.apart
      obtain ⟨q, hq', rfl⟩ := List.mem_map.mp ((hmem' other).mp ho)
      have hne : p ≠ q := fun h => hother (by rw [h])
      exact (hapart.forall hp hq' hne).1
    · cases hp with
      | head => exact hnew.mono fun x hx => .tail _ hx
      | tail _ hp => exact hneeds p hp

/-- A sorted list is handed over hash by hash, each with a fingerprint of its own. -/
theorem bulk_insert_separates (hne : keys ≠ []) (hlt : ∀ hash ∈ keys, hash < 2^64)
    (hsorted : SortedByCmp qf keys) :
    ∃ calls, bulkInsertCalls qf keys = some calls ∧ SeparatesKeys qf.metadata keys calls ∧
      (qf.metadata.noccupiedSlots = 0 → 20 * keys.length < 19 * qf.metadata.nslots →
        qfBulkInsert qf keys = placeAllCalls qf calls) := by
  obtain ⟨pairs, hcall, hslots, hmem, hof⟩ := bulkInsertCalls_pairs hw hq hq' hne hlt hsorted
  refine ⟨_, hcall, ⟨pairs.map Prod.fst, ?_, fun hash => (hmem hash).symm, ?_⟩, fun h0 hroom => ?_⟩
  · rw [List.Nodup, List.pairwise_map]
    refine (List.pairwise_map.mp hslots).imp fun h heq => ?_
    rw [heq] at h
    exact lt_irrefl _ h
  · rw [List.forall₂_map_left_iff, List.forall₂_map_right_iff, List.forall₂_same]
    intro p hp
    have hp := hof p hp
    exact ⟨hp.count, hp.for_hash.slots_isPrefixOf hq, hp.apart⟩
  · rw [qfBulkInsert_eq h0 hroom, hcall, Option.bind_some]

end

theorem bulk_insert_separates_small : ∃ calls,
    bulkInsertCalls bulkFilter [4, 36, 36, 9] = some calls ∧
      SeparatesKeys bulkFilter.metadata [4, 36, 36, 9] calls ∧
      (bulkFilter.metadata.noccupiedSlots = 0 →
        20 * [4, 36, 36, 9].length < 19 * bulkFilter.metadata.nslots →
        qfBulkInsert bulkFilter [4, 36, 36, 9] = placeAllCalls bulkFilter calls) :=
  bulk_insert_separates (by decide) (by decide) (by decide) (by decide) (by decide)
    (by unfold SortedByCmp; decide)

end AdaptiveQF
