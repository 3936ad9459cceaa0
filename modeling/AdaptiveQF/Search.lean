import AdaptiveQF.Block
import AdaptiveQF.Lib.RunCount

/-! Rank and select over the metadata words: block_offset, run_end,
offset_lower_bound and find_first_empty_slot, and what they compute on a row of
cells in canonical layout. -/
namespace AdaptiveQF
open RunLayout

def runendWord (qf : QF) (j : Nat) : BitVec 64 :=
  (getBlock qf j).runends &&& ~~~(getBlock qf j).extensions

def selectRunend (qf : QF) : Nat → Nat → Nat → Nat → Option Nat
  | 0, _, _, _ => none
  | fuel+1, block, ignore, rank =>
    let blockOffset := bitselectv (runendWord qf block) ignore rank
    if blockOffset = 64 then
      selectRunend qf fuel (block+1) 0 (rank - popcntv (runendWord qf block) ignore)
    else some (64*block + blockOffset)

def skipExtensions (qf : QF) : Nat → Nat → Option Nat
  | 0, _ => none
  | fuel+1, i => if isExtensionOrCounter qf i then skipExtensions qf fuel (i+1) else some i

def runEndFrom (qf : QF) (bucketBlocksOffset hashBucketIndex : Nat) : Option Nat :=
  let bucketBlockIndex := hashBucketIndex / 64
  let bucketIntrablockOffset := hashBucketIndex % 64
  let bucketIntrablockRank :=
    bitrank (getBlock qf bucketBlockIndex).occupieds bucketIntrablockOffset
  if bucketIntrablockRank = 0 then
    if bucketBlocksOffset ≤ bucketIntrablockOffset then some hashBucketIndex
    else some (64*bucketBlockIndex + bucketBlocksOffset - 1)
  else do
    let runendIndex ← selectRunend qf qf.fuel (bucketBlockIndex + bucketBlocksOffset / 64)
      (bucketBlocksOffset % 64) (bucketIntrablockRank - 1)
    let next ← skipExtensions qf qf.fuel (runendIndex+1)
    if next - 1 < hashBucketIndex then some hashBucketIndex else some (next - 1)

/- A saturated offset is recomputed from the run end of the block's last bucket
   before it. For block 0 that index wraps around to the last 64-bit value. -/
def blockOffset (qf : QF) : Nat → Option Nat
  | 0 => if (getBlock qf 0).offset < 255 then some (getBlock qf 0).offset else none
  | j+1 =>
    if (getBlock qf (j+1)).offset < 255 then some (getBlock qf (j+1)).offset
    else do
      let off ← blockOffset qf j
      let runendIndex ← runEndFrom qf off (64*j + 63)
      some (runendIndex + 1 - 64*(j+1))

def runEnd (qf : QF) (hashBucketIndex : Nat) : Option Nat := do
  runEndFrom qf (← blockOffset qf (hashBucketIndex / 64)) hashBucketIndex

def offsetLowerBound (qf : QF) (slotIndex : Nat) : Int :=
  let b := getBlock qf (slotIndex / 64)
  let slotOffset := slotIndex % 64
  let occupieds := b.occupieds &&& BitVec.ofNat 64 (bitmask (slotOffset+1))
  if b.offset ≤ slotOffset then
    let runends :=
      (b.runends &&& ~~~b.extensions &&& BitVec.ofNat 64 (bitmask slotOffset)) >>> b.offset
    (popcnt occupieds : Int) - popcnt runends
  else (b.offset : Int) - slotOffset + popcnt occupieds

def isEmpty (qf : QF) (slotIndex : Nat) : Bool := offsetLowerBound qf slotIndex == 0

def mightBeEmpty (qf : QF) (slotIndex : Nat) : Bool :=
  !isOccupied qf slotIndex && !isRunendOrCounter qf slotIndex &&
    !isExtensionOrCounter qf slotIndex

/-- A negative bound makes the source return -1 as a `uint64_t`. -/
def findFirstEmptySlotLoop (qf : QF) : Nat → Nat → Option Nat
  | 0, _ => none
  | fuel+1, start => do
    let i ← skipExtensions qf qf.fuel start
    let t := offsetLowerBound qf i
    if t < 0 then some (2^64 - 1)
    else if t = 0 then some i
    else findFirstEmptySlotLoop qf fuel (i + t.toNat)

def findFirstEmptySlot (qf : QF) (start : Nat) : Option Nat :=
  findFirstEmptySlotLoop qf qf.fuel start

/-! Canonical rows. The runend of a run is its one cell with a runend bit and no
extension bit. The cells behind it extend the run's last item. -/

def Cell.isRunend (c : Cell) : Bool := c.runend && !c.extension

def Blank (c : Cell) : Prop := c.runend = false ∧ c.extension = false

structure RunShape (l : List Cell) : Prop where
  head : ∀ c, l[0]? = some c → c.extension = false
  runend : ∃ init c ext, l = init ++ c :: ext ∧ c.isRunend = true ∧
    (∀ d ∈ init, d.isRunend = false) ∧ ∀ d ∈ ext, d.extension = true

structure Row (qf : QF) (runs : Nat → List Cell) : Prop where
  holds : Holds Blank runs qf.view.cell
  occupied : ∀ b, qf.view.occupied b = decide (0 < lens runs b)
  shape : ∀ b, 0 < lens runs b → RunShape (runs b)
  outside : ∀ b, qf.metadata.nslots ≤ b → lens runs b = 0
  fits : ends (lens runs) qf.metadata.nslots ≤ qf.xnslots
  blocks : qf.xnslots ≤ 64 * qf.metadata.nblocks

def OffsetsTo (qf : QF) (runs : Nat → List Cell) (J : Nat) : Prop :=
  ∀ j, j ≤ J → qf.view.offset j = min 255 (spill (lens runs) (64*j))

def Offsets (qf : QF) (runs : Nat → List Cell) : Prop :=
  ∀ j, qf.view.offset j = min 255 (spill (lens runs) (64*j))

theorem Offsets.to {qf : QF} {runs : Nat → List Cell} (h : Offsets qf runs) (J : Nat) :
    OffsetsTo qf runs J := fun j _ => h j

theorem runendWord_getLsbD (qf : QF) (j : Nat) {k : Nat} (hk : k < 64) :
    (runendWord qf j).getLsbD k = (qf.view.cell (64*j + k)).isRunend := by
  have h1 : (64*j + k) / 64 = j := by omega
  have h2 : (64*j + k) % 64 = k := by omega
  simp [runendWord, Cell.isRunend, QF.view, runendBit, extensionBit, h1, h2, hk]

theorem occupieds_getLsbD (qf : QF) (j : Nat) {k : Nat} (hk : k < 64) :
    (getBlock qf j).occupieds.getLsbD k = qf.view.occupied (64*j + k) := by
  have h1 : (64*j + k) / 64 = j := by omega
  have h2 : (64*j + k) % 64 = k := by omega
  simp [QF.view, occupiedBit, h1, h2]

section
variable {qf : QF} {runs : Nat → List Cell}

theorem RunShape.count {l : List Cell} (h : RunShape l) : l.countP Cell.isRunend = 1 := by
  obtain ⟨init, c, ext, rfl, hc, hi, he⟩ := h.runend
  have h1 : init.countP Cell.isRunend = 0 :=
    List.countP_eq_zero.mpr fun d hd => by simp [hi d hd]
  have h2 : ext.countP Cell.isRunend = 0 :=
    List.countP_eq_zero.mpr fun d hd => by simp [Cell.isRunend, he d hd]
  rw [List.countP_append, List.countP_cons, h1, h2, if_pos hc]

/-- The cells behind the runend of a run. -/
theorem extension_of_tail {c : Nat → Cell} (h : Holds Blank runs c) {a s : Nat}
    {init ext : List Cell} {d : Cell} (hr : runs a = init ++ d :: ext)
    (he : ∀ x ∈ ext, x.extension = true) (h1 : start (lens runs) a + init.length < s)
    (h2 : s < start (lens runs) a + lens runs a) : (c s).extension = true := by
  have hlen : lens runs a = init.length + (ext.length + 1) := by simp [lens, hr]
  obtain ⟨i, rfl⟩ := Nat.exists_eq_add_of_lt h1
  have hi : i < ext.length := by omega
  have hcell := h.cell a (init.length + (i+1)) ext[i] (by
    rw [hr, List.getElem?_append_right (by omega), Nat.add_sub_cancel_left,
      List.getElem?_cons_succ, List.getElem?_eq_getElem hi])
  rw [Nat.add_assoc, Nat.add_assoc, hcell]
  exact he _ (List.getElem_mem hi)

theorem extension_behind {c : Nat → Cell} (h : Holds Blank runs c) {b : Nat}
    (hs : ∀ a, b < a → 0 < lens runs a → RunShape (runs a)) (hb : 0 < lens runs b) :
    (c (start (lens runs) b + lens runs b)).extension = false := by
  by_cases hu : Used (lens runs) (start (lens runs) b + lens runs b)
  · obtain ⟨a, ho⟩ := hu
    have hba : b < a := by
      rcases Nat.lt_trichotomy b a with hlt | rfl | hlt
      · exact hlt
      · have := ho.2
        omega
      · have := @start_add_le_start (lens runs) _ _ hlt
        have := ho.2
        omega
    have hle := @start_add_le_start (lens runs) _ _ hba
    have heq : start (lens runs) b + lens runs b = start (lens runs) a + 0 := by
      have := ho.1
      omega
    have hpos := ho.pos
    have hget : (runs a)[0]? = some ((runs a).get ⟨0, hpos⟩) := List.getElem?_eq_getElem hpos
    rw [heq, h.cell a 0 _ hget]
    exact (hs a hba hpos).head _ hget
  · exact (h.blank _ hu).2

namespace Row

theorem marked (h : Row qf runs) : Marked Blank Cell.isRunend runs where
  blank a ha := by simp [Cell.isRunend, ha.1]
  one b hb := (h.shape b hb).count

theorem blank_of_unused (h : Row qf runs) {s : Nat} (hs : ¬ Used (lens runs) s) :
    Blank (qf.view.cell s) := h.holds.blank s hs

theorem extension_end (h : Row qf runs) {b : Nat} (hb : 0 < lens runs b) :
    (qf.view.cell (start (lens runs) b + lens runs b)).extension = false :=
  extension_behind h.holds (fun c _ => h.shape c) hb

theorem lt_ends (h : Row qf runs) {s : Nat} (hs : Used (lens runs) s) :
    s < ends (lens runs) qf.metadata.nslots := by
  obtain ⟨b, ho⟩ := hs
  exact ho.lt_of_zero h.outside

theorem lt_fuel (h : Row qf runs) {s : Nat} (hs : Used (lens runs) s) :
    s < 64 * qf.metadata.nblocks := by
  have := h.lt_ends hs
  have := h.fits
  have := h.blocks
  omega

theorem ends_le (h : Row qf runs) (b : Nat) : ends (lens runs) b ≤ qf.xnslots := by
  have hf := h.fits
  rcases Nat.le_total b qf.metadata.nslots with hb | hb
  · exact (ends_mono hb).trans hf
  · rw [ends_eq_of_zero h.outside hb]
    exact hf

end Row

/-! `run_end`. -/

theorem skipExtensions_eq {fuel i n : Nat} (h : ∀ s, i ≤ s → s < n → extensionBit qf s = true)
    (hn : extensionBit qf n = false) (hin : i ≤ n) (hf : n < i + fuel) :
    skipExtensions qf fuel i = some n := by
  induction fuel generalizing i with
  | zero => omega
  | succ fuel ih =>
    unfold skipExtensions isExtensionOrCounter
    by_cases hi : i = n
    · subst hi
      simp [hn]
    · rw [if_pos (h i (Nat.le_refl i) (by omega))]
      exact ih (fun s h1 h2 => h s (by omega) h2) (by omega) (by omega)

theorem selectRunend_eq {fuel block ignore rank p : Nat} (hi : ignore < 64) (hr : rank < 64)
    (hp : 64*block + ignore ≤ p) (hm : (qf.view.cell p).isRunend = true)
    (hc : Nat.count (fun s => (qf.view.cell s).isRunend = true) p =
      Nat.count (fun s => (qf.view.cell s).isRunend = true) (64*block + ignore) + rank)
    (hf : p < 64*block + 64*fuel) : selectRunend qf fuel block ignore rank = some p := by
  induction fuel generalizing block ignore rank with
  | zero => omega
  | succ fuel ih =>
    have hword : ∀ k, k < 64 →
        (runendWord qf block).getLsbD k = (qf.view.cell (64*block + k)).isRunend :=
      fun k hk => runendWord_getLsbD qf block hk
    unfold selectRunend
    by_cases hpb : p < 64*block + 64
    · obtain ⟨k, rfl⟩ := Nat.exists_eq_add_of_le (by omega : 64*block ≤ p)
      have hsel : bitselectv (runendWord qf block) ignore rank = k :=
        bitselectv_window (f := fun s => (qf.view.cell s).isRunend) hword hi (by omega)
          (by omega) hm hc
      have hk : k ≠ 64 := by omega
      simp only [hsel, if_neg hk]
    · have hpop := popcntv_window (f := fun s => (qf.view.cell s).isRunend) hi hword
      have hmono := Nat.count_monotone (fun s => (qf.view.cell s).isRunend = true)
        (by omega : 64*block + 64 ≤ p)
      have hsel : bitselectv (runendWord qf block) ignore rank = 64 :=
        bitselectv_none (f := fun s => (qf.view.cell s).isRunend) hword hi hr (by omega)
      simp only [hsel, if_pos]
      have hb : 64*block + 64 = 64*(block+1) := by omega
      rw [hb] at hpop hmono
      refine ih (by omega) (by omega) (by omega) ?_ (by omega)
      rw [Nat.add_zero]
      omega

/-- Occupied buckets of the block, up to the bucket's own bit. -/
theorem Row.bitrank_occupieds (h : Row qf runs) (b : Nat) :
    Nat.count (fun a => 0 < lens runs a) (64*(b/64)) +
      bitrank (getBlock qf (b/64)).occupieds (b % 64) =
        Nat.count (fun a => 0 < lens runs a) (b+1) := by
  have hw := bitrank_window (f := fun a => decide (0 < lens runs a)) (p := 64*(b/64))
    (getBlock qf (b/64)).occupieds (Nat.mod_lt b (by omega))
    fun k hk => by rw [occupieds_getLsbD qf _ hk, h.occupied]
  have hb : 64*(b/64) + b % 64 = b := by omega
  rw [hb] at hw
  simpa using hw

/-- Where the block of a bucket has runs up to it, the loops of `run_end` come to the end of the
last one. -/
theorem Row.runEnd_loops (h : Row qf runs) (b : Nat)
    (hr : bitrank (getBlock qf (b/64)).occupieds (b % 64) ≠ 0) :
    ∃ p, selectRunend qf qf.fuel (b/64 + spill (lens runs) (64*(b/64)) / 64)
        (spill (lens runs) (64*(b/64)) % 64)
        (bitrank (getBlock qf (b/64)).occupieds (b % 64) - 1) = some p ∧
      skipExtensions qf qf.fuel (p+1) = some (ends (lens runs) (b+1)) := by
  have hrank := h.bitrank_occupieds b
  have hrank64 := bitrank_le (getBlock qf (b/64)).occupieds (b % 64)
  obtain ⟨a, h1, h2, hpos, hlast, hcnt⟩ :=
    @exists_last_pos (lens runs) (64*(b/64)) b (by omega) (by omega)
  obtain ⟨init, c, ext, hrun, hc, hinit, hext⟩ := (h.shape a hpos).runend
  have hlen : lens runs a = init.length + 1 + ext.length := by
    simp [lens, hrun]
    omega
  have hmark : (qf.view.cell (start (lens runs) a + init.length)).isRunend = true := by
    rw [h.holds.at hrun, hc]
  have hmarks := count_marks h.holds h.marked (64*(b/64))
  have hat := count_at_mark h.holds h.marked (b := a) (k := init.length)
    (fun i d hi hd => by
      rw [hrun, List.getElem?_append_left hi] at hd
      exact hinit d (List.mem_of_getElem? hd)) (by omega)
  have hmono := @start_mono (lens runs) _ _ h1
  have hused : Used (lens runs) (start (lens runs) a + init.length) := ⟨a, by omega, by omega⟩
  have hlt := h.lt_fuel hused
  have hsp := @start_eq_add_spill (lens runs) (64*(b/64))
  have hblk : 64 * (b/64 + spill (lens runs) (64*(b/64)) / 64) +
      spill (lens runs) (64*(b/64)) % 64 = start (lens runs) (64*(b/64)) := by omega
  have hends : ends (lens runs) (b+1) = start (lens runs) a + lens runs a := by
    rw [ends_eq_of_gap (a := a+1) (by omega) fun d hd1 hd2 => hlast d (by omega) (by omega),
      ends_succ_of_pos hpos]
  refine ⟨start (lens runs) a + init.length, ?_, ?_⟩
  · apply selectRunend_eq (by omega) (by omega) (by omega) hmark
    · rw [hblk, hat, hmarks]
      omega
    · unfold QF.fuel
      omega
  · rw [hends]
    apply skipExtensions_eq
    · exact fun s hs1 hs2 => extension_of_tail h.holds hrun hext (by omega) hs2
    · exact h.extension_end hpos
    · omega
    · have := h.blocks
      have := h.ends_le (a+1)
      rw [ends_succ_of_pos hpos] at this
      unfold QF.fuel
      omega

theorem runEndFrom_of_gap {b : Nat} (hr : bitrank (getBlock qf (b/64)).occupieds (b % 64) = 0)
    (off : Nat) : runEndFrom qf off b = some (max b (64*(b/64) + off - 1)) := by
  unfold runEndFrom
  simp only [hr, if_true]
  split <;> congr 1 <;> omega

theorem runEndFrom_of_run {b off p : Nat}
    (hr : bitrank (getBlock qf (b/64)).occupieds (b % 64) ≠ 0)
    (hsel : selectRunend qf qf.fuel (b/64 + off/64) (off % 64)
      (bitrank (getBlock qf (b/64)).occupieds (b % 64) - 1) = some p) :
    runEndFrom qf off b = (skipExtensions qf qf.fuel (p+1)).map fun next => max b (next - 1) := by
  unfold runEndFrom
  simp only [if_neg hr, hsel, Option.bind_eq_bind, Option.bind_some]
  cases skipExtensions qf qf.fuel (p+1) with
  | none => rfl
  | some next =>
    rw [Option.bind_some, Option.map_some]
    split <;> congr 1 <;> omega

theorem Row.runEndFrom_eq (h : Row qf runs) (b : Nat) :
    runEndFrom qf (spill (lens runs) (64*(b/64))) b = some (start (lens runs) (b+1) - 1) := by
  have hst : start (lens runs) (b+1) = max (b+1) (ends (lens runs) (b+1)) := rfl
  by_cases hr : bitrank (getBlock qf (b/64)).occupieds (b % 64) = 0
  · -- no bucket of the block has a run up to `b`: what reaches here came from earlier blocks
    have hrank := h.bitrank_occupieds b
    have hgap := @gap_of_count_eq (lens runs) (64*(b/64)) (b+1) (by omega)
    have hends := ends_eq_of_gap (by omega) hgap
    have hspill : spill (lens runs) (64*(b/64)) = ends (lens runs) (64*(b/64)) - 64*(b/64) := rfl
    rw [runEndFrom_of_gap hr, hst, hspill, ← hends]
    congr 1
    omega
  · obtain ⟨p, hsel, hskip⟩ := h.runEnd_loops b hr
    rw [runEndFrom_of_run hr hsel, hskip, Option.map_some, hst]
    congr 1
    omega

theorem Row.blockOffset_eq (h : Row qf runs) {J : Nat} (ho : OffsetsTo qf runs J) {j : Nat}
    (hj : j ≤ J) : blockOffset qf j = some (spill (lens runs) (64*j)) := by
  induction j with
  | zero =>
    have hs : spill (lens runs) (64*0) = 0 := rfl
    have h0 := ho 0 hj
    rw [hs] at h0 ⊢
    simp only [QF.view, blockOffsetField, Nat.zero_le, inf_of_le_right] at h0
    simp [blockOffset, h0]
  | succ j ih =>
    have hoff := ho (j+1) hj
    simp only [QF.view, blockOffsetField] at hoff
    unfold blockOffset
    split
    · next hlt =>
      congr 1
      omega
    · have hb : (64*j + 63) / 64 = j := by omega
      have hre := h.runEndFrom_eq (64*j + 63)
      rw [hb] at hre
      simp only [ih (by omega), Option.bind_eq_bind, Option.bind_some, hre]
      have hs := @start_eq_add_spill (lens runs) (64*(j+1))
      have h64 : 64*j + 63 + 1 = 64*(j+1) := by omega
      rw [h64]
      congr 1
      omega

theorem Row.runEnd_eq_of_offsetsTo (h : Row qf runs) {b : Nat} (ho : OffsetsTo qf runs (b/64)) :
    runEnd qf b = some (start (lens runs) (b+1) - 1) := by
  unfold runEnd
  rw [h.blockOffset_eq ho (Nat.le_refl _)]
  exact h.runEndFrom_eq b

theorem Row.runEnd_eq (h : Row qf runs) (ho : Offsets qf runs) (b : Nat) :
    runEnd qf b = some (start (lens runs) (b+1) - 1) :=
  h.runEnd_eq_of_offsetsTo (ho.to _)

/-! `find_first_empty_slot`. -/

theorem le_skipExtensions {qf : QF} {fuel i n : Nat} (h : skipExtensions qf fuel i = some n) :
    i ≤ n := by
  induction fuel generalizing i with
  | zero => cases h
  | succ fuel ih =>
    unfold skipExtensions at h
    split at h
    · exact Nat.le_of_succ_le (ih h)
    · cases h
      exact Nat.le_refl _

/-- An empty slot of the array is not in front of the slot where the search begins. -/
theorem le_findFirstEmptySlot {qf : QF} {x e : Nat} (hword : qf.xnslots < 2^64)
    (h : findFirstEmptySlot qf x = some e) (he : e < qf.xnslots) : x ≤ e := by
  have hloop : ∀ fuel x, findFirstEmptySlotLoop qf fuel x = some e → x ≤ e := by
    intro fuel
    induction fuel with
    | zero => intro x h; cases h
    | succ fuel ih =>
      intro x h
      simp only [findFirstEmptySlotLoop, Option.bind_eq_bind, Option.bind_eq_some_iff] at h
      obtain ⟨i, hi, h⟩ := h
      have hxi := le_skipExtensions hi
      split at h
      · cases h
        omega
      · split at h
        · cases h
          exact hxi
        · have := ih _ h
          omega
  exact hloop _ x h

theorem Row.popcnt_occupieds (h : Row qf runs) (s : Nat) :
    Nat.count (fun a => 0 < lens runs a) (64*(s/64)) +
      popcnt ((getBlock qf (s/64)).occupieds &&& BitVec.ofNat 64 (bitmask (s % 64 + 1))) =
        Nat.count (fun a => 0 < lens runs a) (s+1) := by
  have hw := popcnt_window (f := fun a => decide (0 < lens runs a)) (p := 64*(s/64))
    (i := 0) (j := s % 64 + 1)
    ((getBlock qf (s/64)).occupieds &&& BitVec.ofNat 64 (bitmask (s % 64 + 1)))
    (by omega) (by omega) fun k hk => by
      rw [BitVec.getLsbD_and, occupieds_getLsbD qf _ hk, h.occupied,
        getLsbD_bitmask (by omega) hk]
      simp
  have hs : 64*(s/64) + (s % 64 + 1) = s + 1 := by omega
  rw [hs] at hw
  simpa using hw

theorem popcnt_runends (qf : QF) {s o : Nat} (ho : o ≤ s % 64) :
    Nat.count (fun k => (qf.view.cell k).isRunend = true) (64*(s/64) + o) +
      popcnt (((getBlock qf (s/64)).runends &&& ~~~(getBlock qf (s/64)).extensions &&&
        BitVec.ofNat 64 (bitmask (s % 64))) >>> o) =
      Nat.count (fun k => (qf.view.cell k).isRunend = true) s := by
  have hw := popcnt_window (f := fun k => (qf.view.cell k).isRunend) (p := 64*(s/64) + o)
    (i := 0) (j := s % 64 - o)
    (((getBlock qf (s/64)).runends &&& ~~~(getBlock qf (s/64)).extensions &&&
        BitVec.ofNat 64 (bitmask (s % 64))) >>> o)
    (by omega) (by omega) fun k hk => by
      rw [BitVec.getLsbD_ushiftRight, BitVec.getLsbD_and]
      by_cases hko : o + k < 64
      · have hword := runendWord_getLsbD qf (s/64) hko
        have hd : decide (o + k < s % 64) = decide (k < s % 64 - o) :=
          decide_eq_decide.mpr (by omega)
        unfold runendWord at hword
        rw [hword, getLsbD_bitmask (by omega) hko, Nat.add_assoc, hd]
        simp
      · rw [BitVec.getLsbD_of_ge _ _ (by omega)]
        have : ¬ k < s % 64 - o := by omega
        simp [this]
  have hs : 64*(s/64) + o + (s % 64 - o) = s := by omega
  rw [hs] at hw
  simpa using hw

structure OffsetBound (qf : QF) (runs : Nat → List Cell) (s : Nat) (t : Int) : Prop where
  nonneg : 0 ≤ t
  le : ∀ e, s ≤ e → ¬ Used (lens runs) e → (s : Int) + t ≤ e
  zero : t = 0 → extensionBit qf s = false → ¬ Used (lens runs) s

theorem Row.offsetLowerBound_spec (h : Row qf runs) (ho : Offsets qf runs) (s : Nat) :
    OffsetBound qf runs s (offsetLowerBound qf s) := by
  have hocc := h.popcnt_occupieds s
  have hoff := ho (s/64)
  simp only [QF.view, blockOffsetField] at hoff
  have hmarks := count_marks h.holds h.marked (64*(s/64))
  have hsp := @start_eq_add_spill (lens runs) (64*(s/64))
  have hs64 : s = 64*(s/64) + s % 64 := by omega
  unfold offsetLowerBound
  simp only
  by_cases hb : (getBlock qf (s/64)).offset ≤ s % 64
  · rw [if_pos hb]
    have hre := popcnt_runends qf hb
    have hspill : (getBlock qf (s/64)).offset = spill (lens runs) (64*(s/64)) := by omega
    rw [hspill, ← hsp, hmarks] at hre
    rw [hspill]
    have hle := count_marks_le h.holds h.marked s
    have hmono := Nat.count_monotone (fun a => 0 < lens runs a) (by omega : s ≤ s+1)
    constructor
    · omega
    · intro e hse hu
      have := pending_le h.holds h.marked hse hu
      omega
    · rintro ht hx ⟨a, hown⟩
      -- all marks of the buckets up to `s` lie in front of `s`, so `s` is behind one: an extension
      have hpos := hown.pos
      obtain ⟨init, c, ext, hrun, hc, hinit, hext⟩ := (h.shape a hpos).runend
      have hat := count_at_mark h.holds h.marked (b := a) (k := init.length)
        (fun i d hi hd => by
          rw [hrun, List.getElem?_append_left hi] at hd
          exact hinit d (List.mem_of_getElem? hd)) (by simp [lens, hrun])
      have has : Nat.count (fun a => 0 < lens runs a) (a+1) ≤
          Nat.count (fun a => 0 < lens runs a) (s+1) :=
        Nat.count_monotone _ (by have := hown.bucket_le; omega)
      rw [Nat.count_succ, if_pos hpos] at has
      have hlt : start (lens runs) a + init.length < s := by
        by_contra hcon
        have := Nat.count_monotone (fun k => (qf.view.cell k).isRunend = true)
          (Nat.le_of_not_lt hcon)
        omega
      obtain ⟨i, rfl⟩ : ∃ i, s = start (lens runs) a + (init.length + 1 + i) :=
        ⟨s - start (lens runs) a - init.length - 1, by omega⟩
      have hlen : lens runs a = init.length + 1 + ext.length := by
        simp [lens, hrun]
        omega
      have hi : i < ext.length := by
        have := hown.2
        omega
      have hcell := h.holds.cell a (init.length + 1 + i) ext[i] (by
        rw [hrun, List.getElem?_append_right (by omega)]
        have : init.length + 1 + i - init.length = i + 1 := by omega
        simp [this, hi])
      have hxt := hext ext[i] (List.getElem_mem hi)
      rw [← hcell] at hxt
      simp only [QF.view] at hxt
      rw [hx] at hxt
      exact absurd hxt (by simp)
  · rw [if_neg hb]
    have hsub : s < start (lens runs) (64*(s/64)) := by omega
    constructor
    · omega
    · intro e hse hu
      -- everything up to the end of the spilled runs is used, then each bucket needs a mark
      have hge : start (lens runs) (64*(s/64)) ≤ e := by
        by_contra hcon
        exact hu (spill_pos_used (by omega : 64*(s/64) ≤ e) (by omega))
      have hcm := count_marks_unused h.holds h.marked hu
      have hca := count_le_add (p := fun k => (qf.view.cell k).isRunend = true) hge
      have hmono := Nat.count_monotone (fun a => 0 < lens runs a) (by omega : s+1 ≤ e+1)
      omega
    · intro ht
      omega

theorem skipExtensions_isSome {fuel i n : Nat} (hn : extensionBit qf n = false) (hin : i ≤ n)
    (hf : n < i + fuel) : ∃ m, skipExtensions qf fuel i = some m ∧ i ≤ m ∧ m ≤ n ∧
      extensionBit qf m = false := by
  induction fuel generalizing i with
  | zero => omega
  | succ fuel ih =>
    unfold skipExtensions isExtensionOrCounter
    by_cases hi : extensionBit qf i = true
    · rw [if_pos hi]
      have hne : i ≠ n := by
        rintro rfl
        rw [hn] at hi
        exact absurd hi (by simp)
      obtain ⟨m, h1, h2, h3, h4⟩ := ih (i := i+1) (by omega) (by omega)
      exact ⟨m, h1, by omega, h3, h4⟩
    · rw [if_neg hi]
      exact ⟨i, rfl, Nat.le_refl i, hin, by simpa using hi⟩

theorem Row.findFirstEmptySlotLoop_eq (h : Row qf runs) (ho : Offsets qf runs) {fuel x e : Nat}
    (he : FirstUnused (lens runs) x e) (hf : e < x + fuel)
    (hm : e < qf.fuel) : findFirstEmptySlotLoop qf fuel x = some e := by
  induction fuel generalizing x with
  | zero =>
    have := he.le
    omega
  | succ fuel ih =>
    have hle := he.le
    have hext : extensionBit qf e = false := (h.blank_of_unused he.unused).2
    obtain ⟨i, hskip, hi1, hi2, hi3⟩ :=
      skipExtensions_isSome hext he.le (by omega : e < x + qf.fuel)
    obtain ⟨hnn, hub, hz⟩ := h.offsetLowerBound_spec ho i
    have hbe := hub e hi2 he.unused
    unfold findFirstEmptySlotLoop
    simp only [hskip, Option.bind_eq_bind, Option.bind_some]
    rw [if_neg (by omega)]
    split
    · next ht =>
      have hu := hz ht hi3
      have : ¬ i < e := fun hlt => hu (he.used i hi1 hlt)
      congr 1
      omega
    · apply ih (he.mono (by omega) (by omega))
      omega

theorem Row.findFirstEmptySlot_eq (h : Row qf runs) (ho : Offsets qf runs) {x e : Nat}
    (he : FirstUnused (lens runs) x e) (hx : x ≤ qf.xnslots) :
    findFirstEmptySlot qf x = some e := by
  have hlt : e ≤ qf.xnslots := by
    obtain ⟨e', he', hle⟩ := exists_firstUnused h.outside x
    rw [he.unique he']
    have := h.fits
    omega
  have := h.blocks
  apply h.findFirstEmptySlotLoop_eq ho he <;> unfold QF.fuel <;> omega

/-- The test for an empty home slot is exact. -/
theorem Row.empty_test (h : Row qf runs) (ho : Offsets qf runs) (b : Nat) :
    (mightBeEmpty qf b = true ∧ runEnd qf b = some b) ↔ ¬ Used (lens runs) b := by
  rw [h.runEnd_eq ho]
  have hocc : isOccupied qf b = decide (0 < lens runs b) := h.occupied b
  constructor
  · rintro ⟨hm, hr⟩ ⟨a, hown⟩
    simp only [mightBeEmpty, hocc, isRunendOrCounter, isExtensionOrCounter, Bool.and_eq_true,
      Bool.not_eq_true', decide_eq_false_iff_not, Option.some.injEq] at hm hr
    have hab : a < b := by
      have := hown.bucket_le
      have := hown.pos
      by_contra hc
      have : a = b := by omega
      subst this
      omega
    have hpos := hown.pos
    have hends := start_add_le_ends hab hpos
    have h0 : lens runs b = 0 := by omega
    have hst : start (lens runs) (b+1) = max (b+1) (ends (lens runs) b) := by
      rw [← ends_succ_of_zero h0]
      rfl
    -- `b` is the last slot of the run of `a`: it carries a runend or an extension bit
    have hlast : b + 1 = start (lens runs) a + lens runs a := by
      have := hown.2
      omega
    obtain ⟨init, c, ext, hrun, hc, hinit, hext⟩ := (h.shape a hpos).runend
    have hlen : lens runs a = init.length + 1 + ext.length := by
      simp [lens, hrun]
      omega
    have hcell := h.holds.cell a (lens runs a - 1) ((c :: ext).getLast (by simp)) (by
      rw [lens, ← List.getLast?_eq_getElem?, hrun, List.getLast?_append,
        List.getLast?_eq_some_getLast (by simp)]
      rfl)
    have hb : start (lens runs) a + (lens runs a - 1) = b := by omega
    rw [hb] at hcell
    have hmem := List.getLast_mem (l := c :: ext) (by simp)
    rw [← hcell] at hmem
    rcases List.mem_cons.mp hmem with heq | hin
    · rw [← heq] at hc
      simp only [Cell.isRunend, QF.view, Bool.and_eq_true] at hc
      rw [hm.1.2] at hc
      exact absurd hc.1 (by simp)
    · have hd := hext _ hin
      simp only [QF.view] at hd
      rw [hm.2] at hd
      exact absurd hd (by simp)
  · intro hu
    have hbl := h.blank_of_unused hu
    have h0 := len_of_unused hu
    have he := ends_le_of_unused hu
    simp only [Blank, QF.view] at hbl
    refine ⟨?_, ?_⟩
    · simp [mightBeEmpty, hocc, isRunendOrCounter, isExtensionOrCounter, h0, hbl.1, hbl.2]
    · have : start (lens runs) (b+1) = b + 1 := by
        unfold start
        rw [ends_succ_of_zero h0]
        omega
      rw [this]
      rfl

end

end AdaptiveQF
