import AdaptiveQF.Lib.Bytes
import Mathlib.Algebra.Group.Nat.Defs

/-! The files insertSet and querySet: `saveWorkloadToFile` of workload_gen writes
them and `main` of bench_variants loads them. -/
namespace AdaptiveQF.Workload
open Bytes

structure KeyArray where
  keys : List (BitVec 64)
  behind : Memory
  fits : 8 * (keys.length + 1) < 2^63

def KeyArray.buf (a : KeyArray) : Memory := fun x =>
  match a.keys[x / 8]? with
  | some key => wordByte key (x % 8)
  | none => a.behind (x - 8*a.keys.length)

/-- How many bytes the calls of one loop transfer: call `call`, asked for `count` of them. -/
structure Transfers where
  size : Nat → Nat → Nat
  pos : ∀ call count, 0 < count → 0 < size call count
  le : ∀ call count, size call count ≤ count

abbrev File := List (BitVec 8)

/-- `pwrite`: bytes of the memory from `start` on replace those of the file at `offset`. A gap in
front of them is filled with zeros. -/
def pwrite (file : File) (m : Memory) (start size offset : Nat) : File :=
  (file ++ List.replicate (offset - file.length) 0#8).take offset ++
    (List.range size).map (fun k => m (start + k)) ++ file.drop (offset + size)

def pread (file : File) (m : Memory) (start size offset : Nat) : Memory := fun x =>
  if start ≤ x ∧ x < start + size then file.getD (offset + (x - start)) 0#8 else m x

structure Saved where
  file : File
  inArray : Bool

def saveLoop (a : KeyArray) (bytesToWrite : Nat) (t : Transfers) :
    Nat → Nat → Nat → Saved → Option Saved
  | 0, _, _, _ => none
  | fuel+1, call, offset, s =>
    if offset < bytesToWrite then
      let bytesWritten := t.size call (bytesToWrite - offset)
      saveLoop a bytesToWrite t fuel (call+1) (offset + bytesWritten)
        ⟨pwrite s.file a.buf offset bytesWritten offset,
          s.inArray && decide (offset + bytesWritten ≤ 8 * a.keys.length)⟩
    else some s

def saveSet (old : File) (a : KeyArray) (t : Transfers) : Option Saved :=
  let bytesToWrite := (1 + a.keys.length) * 8
  let offset := t.size 0 8
  saveLoop a bytesToWrite t (bytesToWrite + 1) 1 offset
    ⟨pwrite old (wordByte (BitVec.ofNat 64 a.keys.length)) 0 offset 0, true⟩

structure Loaded where
  numKeys : Nat
  array : Memory
  inArray : Bool

/-- `while (offset < numKeys * sizeof(uint64_t))`. The array is a `uint64_t *`, so that `offset`
counts words in it and bytes in the file. -/
def loadLoop (file : File) (bytes : Nat) (t : Transfers) :
    Nat → Nat → Nat → Loaded → Option Loaded
  | 0, _, _, _ => none
  | fuel+1, call, offset, l =>
    if offset < bytes then
      let bytesRead := min (t.size call bytes) (file.length - (offset + 8))
      loadLoop file bytes t fuel (call+1) (offset + bytesRead)
        ⟨l.numKeys, pread file l.array (8*offset) bytesRead (offset + 8),
          l.inArray && decide (8*offset + bytesRead ≤ bytes)⟩
    else some l

/-- One block of `main`. Nothing initializes `numKeys` (`stack`) and the array (`heap`). -/
def loadSet (file : File) (stack heap : Memory) (t : Transfers) : Option Loaded :=
  let header := min (t.size 0 8) file.length
  let numKeys := (readWord (pread file stack 0 header 0) 0).toNat
  let bytes := numKeys * 8 % 2^64
  loadLoop file bytes t (bytes + 1) 1 0 ⟨numKeys, heap, true⟩

structure Setting where
  old : File
  stack : Memory
  heap : Memory
  writes : Transfers
  reads : Transfers

structure KeySets where
  insertSet : KeyArray
  querySet : KeyArray

structure Settings where
  inserts : Setting
  queries : Setting

def saveWorkloadToFile (w : KeySets) (e : Settings) : Option (Saved × Saved) := do
  let inserts ← saveSet e.inserts.old w.insertSet e.inserts.writes
  let queries ← saveSet e.queries.old w.querySet e.queries.writes
  some (inserts, queries)

def loadWorkload (inserts queries : File) (e : Settings) : Option (Loaded × Loaded) := do
  let insertSet ← loadSet inserts e.inserts.stack e.inserts.heap e.inserts.reads
  let querySet ← loadSet queries e.queries.stack e.queries.heap e.queries.reads
  some (insertSet, querySet)

structure Loaded.Holds (l : Loaded) (a : KeyArray) : Prop where
  inArray : l.inArray = true
  numKeys : l.numKeys = a.keys.length
  array : ∀ i key, a.keys[i]? = some key → readWord l.array (8*i) = key

def RoundTrips (w : KeySets) (e : Settings) : Prop :=
  ∃ s, saveWorkloadToFile w e = some s ∧ s.1.inArray = true ∧ s.2.inArray = true ∧
    ∃ l, loadWorkload s.1.file s.2.file e = some l ∧ l.1.Holds w.insertSet ∧ l.2.Holds w.querySet

def RoundTrip (a : KeyArray) (e : Setting) : Prop :=
  ∃ s, saveSet e.old a e.writes = some s ∧ s.inArray = true ∧
    ∃ l, loadSet s.file e.stack e.heap e.reads = some l ∧ l.Holds a

/-- The array is empty, and each of the two transfers of its length is complete (or what the second
one leaves out is zero anyway). -/
structure EmptyAndComplete (a : KeyArray) (e : Setting) : Prop where
  keys : a.keys = []
  write : e.writes.size 0 8 = 8
  read : ∀ k, e.reads.size 0 8 ≤ k → k < 8 → e.stack k = 0#8

section
variable {a : KeyArray} {t : Transfers} {fuel call offset bytes : Nat}

/-- The last bytes that a writing loop transfers lie where it ends, behind the array. -/
theorem saveLoop_outside {s s' : Saved} (hbytes : 8 * a.keys.length < bytes)
    (hoffset : offset < bytes) (h : saveLoop a bytes t fuel call offset s = some s') :
    s'.inArray = false := by
  induction fuel generalizing call offset s with
  | zero => cases h
  | succ fuel ih =>
    rw [saveLoop, if_pos hoffset] at h
    by_cases hlast : offset + t.size call (bytes - offset) < bytes
    · exact ih hlast h
    · have hout : decide (offset + t.size call (bytes - offset) ≤ 8 * a.keys.length) = false :=
        decide_eq_false (by omega)
      cases fuel with
      | zero => cases h
      | succ fuel =>
        rw [saveLoop, if_neg hlast, Option.some.injEq] at h
        rw [← h]
        simp [hout]

theorem loadLoop_stop {file : File} {l : Loaded} (hfuel : 0 < fuel) (hoffset : ¬ offset < bytes) :
    loadLoop file bytes t fuel call offset l = some l := by
  cases fuel with
  | zero => omega
  | succ fuel => rw [loadLoop, if_neg hoffset]

/-- Behind its first transfer a reading loop writes at eight times its offset. -/
theorem loadLoop_outside {file : File} {l l' : Loaded} (hpos : 0 < offset)
    (hoffset : offset < bytes)
    (h : loadLoop file bytes t fuel call offset l = some l') : l'.inArray = false := by
  induction fuel generalizing call offset l with
  | zero => cases h
  | succ fuel ih =>
    rw [loadLoop, if_pos hoffset] at h
    generalize min (t.size call bytes) (file.length - (offset + 8)) = r at h
    by_cases hlast : offset + r < bytes
    · exact ih (by omega) hlast h
    · have hout : decide (8*offset + r ≤ bytes) = false := decide_eq_false (by omega)
      cases fuel with
      | zero => cases h
      | succ fuel =>
        rw [loadLoop_stop (Nat.succ_pos fuel) hlast, Option.some.injEq] at h
        rw [← h]
        simp [hout]

theorem loadLoop_numKeys {file : File} {l l' : Loaded}
    (h : loadLoop file bytes t fuel call offset l = some l') : l'.numKeys = l.numKeys := by
  induction fuel generalizing call offset l with
  | zero => cases h
  | succ fuel ih =>
    rw [loadLoop] at h
    by_cases hoffset : offset < bytes
    · rw [if_pos hoffset] at h
      exact (ih h).trans rfl
    · rw [if_neg hoffset, Option.some.injEq] at h
      rw [h]

theorem saveSet_inArray {old : File} {s : Saved} (h : saveSet old a t = some s)
    (hin : s.inArray = true) : a.keys = [] ∧ t.size 0 8 = 8 := by
  have hle := t.le 0 8
  have hall : ¬ t.size 0 8 < (1 + a.keys.length) * 8 := by
    intro hlt
    have hout := saveLoop_outside (by omega) hlt h
    rw [hin] at hout
    cases hout
  have hlen : a.keys.length = 0 := by omega
  exact ⟨List.length_eq_zero_iff.mp hlen, by omega⟩

theorem saveSet_empty {old : File} (ha : a.keys = []) (ht : t.size 0 8 = 8) :
    saveSet old a t =
      some ⟨(List.range 8).map (wordByte 0#64) ++ old.drop 8, true⟩ := by
  have hlen : a.keys.length = 0 := by simp [ha]
  have hstop : ¬ 8 < (1 + 0) * 8 := by decide
  simp only [saveSet, hlen, ht]
  rw [saveLoop, if_neg hstop]
  simp [pwrite]

/-- Bytes of a file that begins with the number of keys. -/
theorem pread_header {file : File} {w : BitVec 64} {stack : Memory} {r k : Nat} (hk : k < 8)
    (hfile : ∀ k, k < 8 → file.getD k 0#8 = wordByte w k) :
    pread file stack 0 r 0 k = if k < r then wordByte w k else stack k := by
  unfold pread
  by_cases hr : k < r
  · rw [if_pos ⟨Nat.zero_le k, by omega⟩, if_pos hr, Nat.zero_add, Nat.sub_zero, hfile k hk]
  · rw [if_neg (by omega), if_neg hr]

theorem getD_emptyFile (old : File) {k : Nat} (hk : k < 8) :
    ((List.range 8).map (wordByte 0#64) ++ old.drop 8).getD k 0#8 = wordByte 0#64 k := by
  rw [List.getD_eq_getElem?_getD, List.getElem?_append_left (by simpa using hk)]
  simp [hk]

theorem wordByte_zero (k : Nat) : wordByte 0#64 k = 0#8 := by
  simp [wordByte]

/-- The number of keys of an empty set is read right if the bytes that are not read are zero. -/
theorem header_eq_zero_iff {file : File} {stack : Memory} {r : Nat}
    (hfile : ∀ k, k < 8 → file.getD k 0#8 = wordByte 0#64 k) :
    readWord (pread file stack 0 r 0) 0 = 0#64 ↔ ∀ k, r ≤ k → k < 8 → stack k = 0#8 := by
  constructor
  · intro hzero k hr hk
    have hbyte := wordByte_readWord (m := pread file stack 0 r 0) (a := 0) hk
    rw [hzero, Nat.zero_add, pread_header hk hfile, if_neg (by omega)] at hbyte
    rw [← hbyte, wordByte_zero]
  · intro hrest
    apply readWord_eq
    intro k hk
    rw [Nat.zero_add, pread_header hk hfile]
    split
    · rfl
    · rw [hrest k (by omega) hk, wordByte_zero]

theorem roundTrip_iff (a : KeyArray) (e : Setting) : RoundTrip a e ↔ EmptyAndComplete a e := by
  have hfile : ∀ k, k < 8 →
      ((List.range 8).map (wordByte 0#64) ++ e.old.drop 8).getD k 0#8 = wordByte 0#64 k :=
    fun k => getD_emptyFile e.old
  have hle := e.reads.le 0 8
  have hheader : min (e.reads.size 0 8)
      ((List.range 8).map (wordByte 0#64) ++ e.old.drop 8).length = e.reads.size 0 8 := by
    rw [List.length_append, List.length_map, List.length_range]
    omega
  constructor
  · rintro ⟨s, hsave, hin, l, hload, hl⟩
    obtain ⟨hkeys, hwrite⟩ := saveSet_inArray hsave hin
    refine ⟨hkeys, hwrite, (header_eq_zero_iff hfile).mp ?_⟩
    rw [saveSet_empty hkeys hwrite, Option.some.injEq] at hsave
    rw [← hsave, loadSet, hheader] at hload
    have hread := loadLoop_numKeys hload
    rw [hl.numKeys, hkeys] at hread
    exact BitVec.eq_of_toNat_eq hread.symm
  · rintro ⟨hkeys, hwrite, hread⟩
    have hzero := (header_eq_zero_iff hfile).mpr hread
    refine ⟨_, saveSet_empty hkeys hwrite, rfl, ⟨0, e.heap, true⟩, ?_, rfl, by simp [hkeys], ?_⟩
    · simp only [loadSet, hheader, hzero]
      rfl
    · intro i key hi
      rw [hkeys] at hi
      cases hi

theorem roundTrips_iff_both (w : KeySets) (e : Settings) :
    RoundTrips w e ↔ RoundTrip w.insertSet e.inserts ∧ RoundTrip w.querySet e.queries := by
  simp only [RoundTrips, saveWorkloadToFile, loadWorkload, Option.bind_eq_bind,
    Option.bind_eq_some_iff, Option.some.injEq]
  constructor
  · rintro ⟨_, ⟨s1, hs1, s2, hs2, rfl⟩, hin1, hin2, _, ⟨l1, hl1, l2, hl2, rfl⟩, h1, h2⟩
    exact ⟨⟨s1, hs1, hin1, l1, hl1, h1⟩, ⟨s2, hs2, hin2, l2, hl2, h2⟩⟩
  · rintro ⟨⟨s1, hs1, hin1, l1, hl1, h1⟩, ⟨s2, hs2, hin2, l2, hl2, h2⟩⟩
    exact ⟨_, ⟨s1, hs1, s2, hs2, rfl⟩, hin1, hin2, _, ⟨l1, hl1, l2, hl2, rfl⟩, h1, h2⟩

/-- A workload makes the round trip if and only if it is empty and each length is transferred at
once. -/
theorem workload_round_trips_iff (w : KeySets) (e : Settings) :
    RoundTrips w e ↔
      EmptyAndComplete w.insertSet e.inserts ∧ EmptyAndComplete w.querySet e.queries := by
  rw [roundTrips_iff_both, roundTrip_iff, roundTrip_iff]

structure IsFileOf (file : File) (a : KeyArray) : Prop where
  length : file.length = 8 * (a.keys.length + 1)
  header : ∀ k, k < 8 → file.getD k 0#8 = wordByte (BitVec.ofNat 64 a.keys.length) k
  key : ∀ i key, a.keys[i]? = some key →
    ∀ k, k < 8 → file.getD (8*(i+1) + k) 0#8 = wordByte key k

/-- Also from the right file, keys are loaded only if all of them are transferred at once. -/
theorem loadSet_iff {file : File} (hf : IsFileOf file a) (stack heap : Memory)
    (ht : t.size 0 8 = 8) :
    (∃ l, loadSet file stack heap t = some l ∧ l.Holds a) ↔
      a.keys = [] ∨ t.size 1 (8 * a.keys.length) = 8 * a.keys.length := by
  have hfits := a.fits
  have hlen := hf.length
  have hmin : min (t.size 0 8) file.length = 8 := by omega
  have hword : readWord (pread file stack 0 8 0) 0 = BitVec.ofNat 64 a.keys.length := by
    apply readWord_eq
    intro k hk
    rw [Nat.zero_add, pread_header hk hf.header, if_pos hk]
  have hnum : (BitVec.ofNat 64 a.keys.length).toNat = a.keys.length := by
    rw [BitVec.toNat_ofNat]
    omega
  have hbytes : a.keys.length * 8 % 2^64 = 8 * a.keys.length := by omega
  have hrest : file.length - (0 + 8) = 8 * a.keys.length := by omega
  have hle := t.le 1 (8 * a.keys.length)
  simp only [loadSet, hmin, hword, hnum, hbytes]
  by_cases hempty : a.keys = []
  · have hzero : a.keys.length = 0 := by simp [hempty]
    rw [hzero]
    simp only [hempty, true_or, iff_true]
    exact ⟨⟨0, heap, true⟩, rfl, rfl, hzero.symm, by simp [hempty]⟩
  · have hpos : 0 < a.keys.length := List.length_pos_iff.mpr hempty
    rw [loadLoop, if_pos (by omega), hrest]
    have hr : min (t.size 1 (8 * a.keys.length)) (8 * a.keys.length) =
        t.size 1 (8 * a.keys.length) := by omega
    simp only [hr, hempty, false_or, Nat.zero_add]
    constructor
    · rintro ⟨l, hload, hl⟩
      by_contra hpart
      have hout := loadLoop_outside (t.pos 1 _ (by omega)) (by omega) hload
      rw [hl.inArray] at hout
      cases hout
    · intro hfull
      rw [hfull]
      refine ⟨⟨a.keys.length, pread file heap (8*0) (8 * a.keys.length) 8, true⟩, ?_, rfl, rfl, ?_⟩
      · rw [loadLoop_stop (by omega) (Nat.lt_irrefl _)]
        simp
      · intro i key hi
        have hlt : i < a.keys.length := (List.getElem?_eq_some_iff.mp hi).1
        apply readWord_eq
        intro k hk
        have hplace : 8 + (8*i + k - 8*0) = 8*(i+1) + k := by omega
        show pread file heap (8*0) (8 * a.keys.length) 8 (8*i + k) = wordByte key k
        unfold pread
        rw [if_pos (by omega), hplace]
        exact hf.key i key hi k hk

end

/-! One key to insert and no query, with every transfer complete. The memory behind the key is
zero. -/

def oneKey : KeySets where
  insertSet := ⟨[5#64], fun _ => 0#8, by decide⟩
  querySet := ⟨[], fun _ => 0#8, by decide⟩

def complete : Transfers := ⟨fun _ count => count, fun _ _ h => h, fun _ count => Nat.le_refl count⟩

def cleanSetting : Setting := ⟨[], fun _ => 0#8, fun _ => 0#8, complete, complete⟩

/-- The key is written from behind the array, and 0 is loaded in its place. -/
theorem workload_loses_key : ∃ s ∈ saveWorkloadToFile oneKey ⟨cleanSetting, cleanSetting⟩,
    s.1.inArray = false ∧
      (∃ l ∈ loadWorkload s.1.file s.2.file ⟨cleanSetting, cleanSetting⟩,
        l.1.numKeys = 1 ∧ readWord l.1.array 0 = 0#64) ∧
      ¬ RoundTrips oneKey ⟨cleanSetting, cleanSetting⟩ := by
  refine ⟨_, rfl, by decide, ⟨_, rfl, by decide, by decide⟩, ?_⟩
  rintro ⟨s, hs, hin, -⟩
  obtain rfl := Option.some.inj hs
  exact absurd hin (by decide)

end AdaptiveQF.Workload
