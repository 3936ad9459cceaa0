import AdaptiveQF.Insert

/-! Where an insertion stores to. Stores that put back the bits they have read are there too. -/
namespace AdaptiveQF
open RunLayout

inductive Location
  | offset (block : Nat)
  | occupieds (block : Nat)
  | runends (block : Nat)
  | extensions (block : Nat)
  | slots (block : Nat)
deriving DecidableEq

def Location.block : Location → Nat
  | .offset j => j
  | .occupieds j => j
  | .runends j => j
  | .extensions j => j
  | .slots j => j

/-- How many of the 8 bytes that `set_slot` stores lie behind the slots of the block. -/
def slotOverrun (w index : Nat) : Nat := index % 64 * w / 8 + 8 - 8*w

/-- The next block begins with one byte of offset, and 8 bytes of occupieds. -/
def setSlotWrites (qf : QF) (index : Nat) : List Location :=
  .slots (index/64) :: ((if 0 < slotOverrun qf.bits index then [.offset (index/64+1)] else []) ++
    if 1 < slotOverrun qf.bits index then [.occupieds (index/64+1)] else [])

/-- `shift_remainders`, `set_slot` and `shift_runends`, then the offsets that are not saturated. -/
def openSlotWrites (qf : QF) (targetIndex insertIndex emptySlotIndex : Nat) : List Location :=
  (shiftRemaindersBlocks qf insertIndex emptySlotIndex).map .slots ++
    setSlotWrites qf insertIndex ++
    (shiftRunendsBlocks insertIndex (emptySlotIndex-1) 1).flatMap
      (fun j => [.runends j, .extensions j]) ++
    ((List.range' (targetIndex/64+1) (emptySlotIndex/64 - targetIndex/64)).filter
      fun j => (getBlock qf j).offset < 255).map .offset

def insertOneSlotWrites (qf : QF) (targetIndex insertIndex : Nat) : Option (List Location) := do
  let emptySlotIndex ← findFirstEmptySlot qf insertIndex
  some (if emptySlotIndex ≥ qf.xnslots then []
    else openSlotWrites qf targetIndex insertIndex emptySlotIndex)

def putItemWrites (qf : QF) (bucket : Nat) : Placement → Option (List Location)
  | .home => some (setSlotWrites qf bucket ++ [.runends (bucket/64), .occupieds (bucket/64)])
  | .first index => do
    let ws ← insertOneSlotWrites qf bucket index
    some (ws ++ [.runends (index/64), .occupieds (bucket/64)])
  | .inRun insertIndex currentIndex wasRunend => do
    let ws ← insertOneSlotWrites qf bucket insertIndex
    some (ws ++ if wasRunend then [.runends (insertIndex/64), .runends (currentIndex/64)] else [])
  | .matched _ _ => some []
  | .endOfFilter _ => some []

def putCountersWrites (qf : QF) (first n : Nat) : List Location :=
  (List.range n).flatMap fun i => setSlotWrites qf (add64 first i)

def pushCountersWrites (bucket : Nat) : Nat → QF → Nat → Nat → Option (List Location)
  | 0, _, _, _ => none
  | fuel+1, qf, slot, newCount =>
    if newCount > 0 then do
      let ws ← insertOneSlotWrites qf bucket slot
      let (_, qf') ← insertOneSlot qf bucket slot (newCount &&& bitmask qf.bits)
      let rest ← pushCountersWrites bucket fuel (orRunend (orExtension qf' slot) slot).countSlot
        (slot+1) (shr64 newCount qf.bits)
      some (ws ++ [.extensions (slot/64), .runends (slot/64)] ++ rest)
    else some []

def extendSameWrites (qf : QF) (index hash count : Nat) : Option (List Location) := do
  let info ← getSlotInfo qf index
  let (newCount, qf') ← putCounters (add64 (index+1) info.ext) info.countSlots qf 0
    (add64 info.count count)
  let rest ← pushCountersWrites (hashBucketIndex qf' hash) 65 qf'
    (index+1+info.extSlots+info.countSlots) newCount
  some (putCountersWrites qf (add64 (index+1) info.ext) info.countSlots ++ rest)

/-- The item, and the rest of the count. `n` is what `putItem` adds to `nelts`. -/
def storeWrites (qf : QF) (hash n count : Nat) (place : Placement) : Option (List Location) := do
  let ws ← putItemWrites qf (insertBucket qf hash) place
  let qf' ← putItem qf (insertBucket qf hash) (hashRemainder qf hash) n place
  match place with
  | .matched _ _ => some ws
  | .endOfFilter _ => some ws
  | place =>
    if count > 1 then do
      let rest ← extendSameWrites qf' (countIndex (insertBucket qf hash) place) hash (count-1)
      some (ws ++ rest)
    else some ws

def QF.SameAt (qf qf' : QF) : Location → Prop
  | .offset j => qf'.view.offset j = qf.view.offset j
  | .occupieds j => ∀ i, i/64 = j → qf'.view.occupied i = qf.view.occupied i
  | .runends j => ∀ i, i/64 = j → (qf'.view.cell i).runend = (qf.view.cell i).runend
  | .extensions j => ∀ i, i/64 = j → (qf'.view.cell i).extension = (qf.view.cell i).extension
  | .slots j => ∀ i, i/64 = j → (qf'.view.cell i).value = (qf.view.cell i).value

def Untouched (ws : List Location) (qf qf' : QF) : Prop := ∀ l, l ∉ ws → qf.SameAt qf' l

section
variable {a b c : QF} {ws ws1 ws2 : List Location} {l : Location}

theorem QF.SameAt.refl (a : QF) (l : Location) : a.SameAt a l := by
  cases l with
  | offset j => exact rfl
  | occupieds j => exact fun _ _ => rfl
  | runends j => exact fun _ _ => rfl
  | extensions j => exact fun _ _ => rfl
  | slots j => exact fun _ _ => rfl

theorem QF.SameAt.trans (h1 : a.SameAt b l) (h2 : b.SameAt c l) : a.SameAt c l := by
  cases l with
  | offset j => exact Eq.trans h2 h1
  | occupieds j => exact fun i hi => (h2 i hi).trans (h1 i hi)
  | runends j => exact fun i hi => (h2 i hi).trans (h1 i hi)
  | extensions j => exact fun i hi => (h2 i hi).trans (h1 i hi)
  | slots j => exact fun i hi => (h2 i hi).trans (h1 i hi)

namespace Untouched

theorem refl (ws : List Location) (a : QF) : Untouched ws a a := fun l _ => .refl a l

theorem trans (h1 : Untouched ws1 a b) (h2 : Untouched ws2 b c) : Untouched (ws1 ++ ws2) a c := by
  intro l hl
  rw [List.mem_append, not_or] at hl
  exact (h1 l hl.1).trans (h2 l hl.2)

theorem mono (h : Untouched ws1 a b) (hs : ws1 ⊆ ws2) : Untouched ws2 a b :=
  fun l hl => h l fun hm => hl (hs hm)

theorem putSlot (qf : QF) (i v : Nat) :
    Untouched [.slots (i/64)] qf (AdaptiveQF.putSlot qf i v) := by
  intro l hl
  unfold QF.SameAt
  rw [view_putSlot]
  cases l with
  | slots j =>
    rintro k rfl
    have hne : k ≠ i := by
      rintro rfl
      simp at hl
    simp [View.setValue, hne]
  | runends j =>
    intro k _
    by_cases hk : k = i <;> simp [View.setValue, hk]
  | extensions j =>
    intro k _
    by_cases hk : k = i <;> simp [View.setValue, hk]
  | occupieds j => exact fun _ _ => rfl
  | offset j => rfl

theorem of_setRunend {qf qf' : QF} {i : Nat} {v : Bool} (h : qf'.view = qf.view.setRunend i v) :
    Untouched [.runends (i/64)] qf qf' := by
  intro l hl
  unfold QF.SameAt
  rw [h]
  cases l with
  | runends j =>
    rintro k rfl
    have hne : k ≠ i := by
      rintro rfl
      simp at hl
    simp [View.setRunend, hne]
  | slots j =>
    intro k _
    by_cases hk : k = i <;> simp [View.setRunend, hk]
  | extensions j =>
    intro k _
    by_cases hk : k = i <;> simp [View.setRunend, hk]
  | occupieds j => exact fun _ _ => rfl
  | offset j => rfl

theorem orRunend (qf : QF) (i : Nat) : Untouched [.runends (i/64)] qf (AdaptiveQF.orRunend qf i) :=
  of_setRunend (view_orRunend qf i)

theorem xorRunend (qf : QF) (i : Nat) :
    Untouched [.runends (i/64)] qf (AdaptiveQF.xorRunend qf i) :=
  of_setRunend (view_xorRunend qf i)

theorem orExtension (qf : QF) (i : Nat) :
    Untouched [.extensions (i/64)] qf (AdaptiveQF.orExtension qf i) := by
  intro l hl
  unfold QF.SameAt
  rw [view_orExtension]
  cases l with
  | extensions j =>
    rintro k rfl
    have hne : k ≠ i := by
      rintro rfl
      simp at hl
    simp [View.setExtension, hne]
  | slots j =>
    intro k _
    by_cases hk : k = i <;> simp [View.setExtension, hk]
  | runends j =>
    intro k _
    by_cases hk : k = i <;> simp [View.setExtension, hk]
  | occupieds j => exact fun _ _ => rfl
  | offset j => rfl

theorem orOccupied (qf : QF) (i : Nat) :
    Untouched [.occupieds (i/64)] qf (AdaptiveQF.orOccupied qf i) := by
  intro l hl
  unfold QF.SameAt
  rw [view_orOccupied]
  cases l with
  | occupieds j =>
    rintro k rfl
    have hne : k ≠ i := by
      rintro rfl
      simp at hl
    simp [View.setOccupied, hne]
  | slots j => exact fun _ _ => rfl
  | runends j => exact fun _ _ => rfl
  | extensions j => exact fun _ _ => rfl
  | offset j => rfl

end Untouched

end

/-! How far the stores of an insertion reach. -/

/-- The stores that make room at slot `x`, with `e` the empty slot that is filled: they reach from
the block of `b` to that of slot `e+1`, and of the slot behind `x` that a store overruns. -/
structure Opens (w b x e : Nat) (ws : List Location) : Prop where
  lower : ∀ l ∈ ws, b/64 ≤ l.block
  upper : ∀ k, (∀ l ∈ ws, l.block < k) ↔ e + 1 < 64*k ∧ (0 < slotOverrun w x → x/64 + 1 < k)

/-- The stores that fill the slots `p`, .., `p+m-1`, for each of which the first empty slot behind
`b` is used up. -/
structure Reaches (w : Nat) (len : Nat → Nat) (b p m : Nat) (ws : List Location) : Prop where
  lower : ∀ l ∈ ws, b/64 ≤ l.block
  upper : ∀ k, (∀ l ∈ ws, l.block < k) ↔ m ≤ free len b (64*k - 1) ∧
    ∀ i < m, 0 < slotOverrun w (p+i) → (p+i)/64 + 1 < k

section
variable {len len' : Nat → Nat} {w b p m e x : Nat} {ws ws1 ws2 : List Location}

theorem Opens.append (h : Opens w b x e ws1) (h2 : ∀ l ∈ ws2, b/64 ≤ l.block ∧ l.block ≤ e/64) :
    Opens w b x e (ws1 ++ ws2) := by
  refine ⟨fun l hl => ?_, fun k => ?_⟩
  · exact (List.mem_append.mp hl).elim (h.lower l) fun hl2 => (h2 l hl2).1
  · rw [List.forall_mem_append, h.upper]
    refine and_iff_left_of_imp fun hk l hl => ?_
    have hle := (h2 l hl).2
    omega

theorem Reaches.nil (w : Nat) (len : Nat → Nat) (b p : Nat) : Reaches w len b p 0 [] :=
  ⟨by simp, by simp⟩

/-- One empty slot is taken, and then `m` of the others. -/
theorem Reaches.cons (he : FirstUnused len b e) (hu : ∀ s, Used len' s ↔ Used len s ∨ s = e)
    (h1 : Opens w b p e ws1) (h2 : Reaches w len' b (p+1) m ws2) :
    Reaches w len b p (m+1) (ws1 ++ ws2) := by
  refine ⟨fun l hl => ?_, fun k => ?_⟩
  · exact (List.mem_append.mp hl).elim (h1.lower l) (h2.lower l)
  · have hfree := free_of_used hu he.unused he.le (64*k - 1)
    have hfirst : 0 < free len b (64*k - 1) ↔ e < 64*k - 1 := by
      rw [free_pos_iff]
      constructor
      · rintro ⟨e2, he2, hlt⟩
        rw [he.unique he2]
        exact hlt
      · exact fun hlt => ⟨e, he, hlt⟩
    have hroom : m + 1 ≤ free len b (64*k - 1) ↔ e + 1 < 64*k ∧ m ≤ free len' b (64*k - 1) := by
      by_cases hlt : e < 64*k - 1
      · rw [if_pos hlt] at hfree
        omega
      · rw [if_neg hlt] at hfree
        omega
    have hslots : (∀ i < m + 1, 0 < slotOverrun w (p+i) → (p+i)/64 + 1 < k) ↔
        (0 < slotOverrun w p → p/64 + 1 < k) ∧
          ∀ i < m, 0 < slotOverrun w (p+1+i) → (p+1+i)/64 + 1 < k := by
      constructor
      · intro h
        refine ⟨h 0 (by omega), fun i hi => ?_⟩
        rw [Nat.add_assoc, Nat.add_comm 1 i]
        exact h (i+1) (by omega)
      · rintro ⟨hzero, hsucc⟩ i hi
        cases i with
        | zero => exact hzero
        | succ i =>
          have hnext := hsucc i (by omega)
          rwa [Nat.add_assoc, Nat.add_comm 1 i] at hnext
    rw [List.forall_mem_append, h1.upper, h2.upper, hroom, hslots]
    tauto

end

section
variable {qf qf' : QF} {A : Contents} {b x e : Nat} {l1 l2 : List Item} {it : Item} {hash : Nat}

theorem block_of_mem_setSlotWrites {l : Location} (hl : l ∈ setSlotWrites qf x) :
    l.block = x/64 ∨ 0 < slotOverrun qf.bits x ∧ l.block = x/64 + 1 := by
  simp only [setSlotWrites, List.mem_cons, List.mem_append] at hl
  rcases hl with rfl | hl | hl
  · exact .inl rfl
  · split at hl
    · next hpos =>
      rw [List.mem_singleton.mp hl]
      exact .inr ⟨hpos, rfl⟩
    · cases hl
  · split at hl
    · next hpos =>
      rw [List.mem_singleton.mp hl]
      exact .inr ⟨by omega, rfl⟩
    · cases hl

theorem offset_mem_setSlotWrites (h : 0 < slotOverrun qf.bits x) :
    .offset (x/64+1) ∈ setSlotWrites qf x := by
  simp [setSlotWrites, h]

theorem slots_mem_setSlotWrites (qf : QF) (x : Nat) : .slots (x/64) ∈ setSlotWrites qf x :=
  List.mem_cons_self

/-- The last slot of a block is stored with bytes of the next one. -/
theorem slotOverrun_last {w : Nat} (hw : w ≤ 56) (hx : x % 64 = 63) : 0 < slotOverrun w x := by
  unfold slotOverrun
  rw [hx]
  omega

theorem setSlotWrites_opens (hw : qf.bits ≤ 56) :
    Opens qf.bits x x x (setSlotWrites qf x ++ [.runends (x/64), .occupieds (x/64)]) := by
  have hblock : ∀ l ∈ setSlotWrites qf x ++ [.runends (x/64), .occupieds (x/64)],
      l.block = x/64 ∨ 0 < slotOverrun qf.bits x ∧ l.block = x/64 + 1 := by
    intro l hl
    rcases List.mem_append.mp hl with hl | hl
    · exact block_of_mem_setSlotWrites hl
    · simp only [List.mem_cons, List.not_mem_nil, or_false] at hl
      rcases hl with rfl | rfl <;> exact .inl rfl
  refine ⟨fun l hl => ?_, fun k => ⟨fun hall => ?_, fun hk l hl => ?_⟩⟩
  · have := hblock l hl
    omega
  · have hself : x/64 < k := hall (.runends (x/64)) (by simp)
    have hnext : 0 < slotOverrun qf.bits x → x/64 + 1 < k := fun hpos =>
      hall _ (List.mem_append_left _ (offset_mem_setSlotWrites hpos))
    refine ⟨?_, hnext⟩
    by_cases hx : x % 64 = 63
    · have := hnext (slotOverrun_last hw hx)
      omega
    · omega
  · have := hblock l hl
    omega

theorem offset_mem_openSlotWrites {t j : Nat} (hj : t/64+1 ≤ j ∧ j < t/64+1 + (e/64 - t/64))
    (ho : (getBlock qf j).offset < 255) : .offset j ∈ openSlotWrites qf t x e := by
  refine List.mem_append_right _ (List.mem_map.mpr ⟨j, ?_, rfl⟩)
  rw [List.mem_filter, List.mem_range'_1]
  exact ⟨hj, by simpa using ho⟩

theorem words_mem_openSlotWrites {t j : Nat} (he0 : 0 < e) (h1 : x/64 ≤ j) (h2 : j ≤ (e+1)/64) :
    .runends j ∈ openSlotWrites qf t x e ∧ .extensions j ∈ openSlotWrites qf t x e := by
  have hee : e - 1 + 1 + 1 = e + 1 := by omega
  have hj : j ∈ shiftRunendsBlocks x (e-1) 1 := by
    rw [mem_shiftRunendsBlocks, hee]
    exact ⟨h1, h2⟩
  constructor <;>
    exact List.mem_append_left _ (List.mem_append_right _ (List.mem_flatMap.mpr ⟨j, hj, by simp⟩))

theorem slots_mem_openSlotWrites {t j : Nat} (hw : 0 < qf.bits) (hxe : x ≤ e) (h1 : x/64 ≤ j)
    (h2 : j ≤ (e+1)/64) : .slots j ∈ openSlotWrites qf t x e := by
  refine List.mem_append_left _ (List.mem_append_left _ (List.mem_append_left _ ?_))
  exact List.mem_map.mpr ⟨j, (mem_shiftRemaindersBlocks hw (by omega)).mpr ⟨h1, h2⟩, rfl⟩

theorem block_of_mem_openSlotWrites {t : Nat} {l : Location} (hw : 0 < qf.bits) (htx : t ≤ x)
    (hxe : x ≤ e) (he0 : 0 < e) (hl : l ∈ openSlotWrites qf t x e) :
    t/64 ≤ l.block ∧ (l.block ≤ (e+1)/64 ∨ 0 < slotOverrun qf.bits x ∧ l.block = x/64 + 1) := by
  have hdiv : t/64 ≤ x/64 := Nat.div_le_div_right htx
  have hdiv2 : x/64 ≤ (e+1)/64 := Nat.div_le_div_right (by omega)
  simp only [openSlotWrites, List.mem_append, List.mem_map, List.mem_flatMap, List.mem_filter,
    List.mem_cons, List.not_mem_nil, or_false] at hl
  rcases hl with ((⟨j, hj, rfl⟩ | hl) | ⟨j, hj, rfl | rfl⟩) | ⟨j, ⟨hj, -⟩, rfl⟩
  · rw [mem_shiftRemaindersBlocks hw (by omega)] at hj
    exact ⟨hdiv.trans hj.1, .inl hj.2⟩
  · have hset := block_of_mem_setSlotWrites hl
    omega
  · rw [mem_shiftRunendsBlocks] at hj
    exact ⟨hdiv.trans hj.1, .inl (hj.2.trans (Nat.div_le_div_right (by omega)))⟩
  · rw [mem_shiftRunendsBlocks] at hj
    exact ⟨hdiv.trans hj.1, .inl (hj.2.trans (Nat.div_le_div_right (by omega)))⟩
  · rw [List.mem_range'_1] at hj
    show t/64 ≤ j ∧ (j ≤ (e+1)/64 ∨ 0 < slotOverrun qf.bits x ∧ j = x/64 + 1)
    omega

theorem openSlotWrites_opens {t : Nat} (hw : 0 < qf.bits) (htx : t ≤ x) (hxe : x ≤ e)
    (he0 : 0 < e) : Opens qf.bits t x e (openSlotWrites qf t x e) := by
  refine ⟨fun l hl => (block_of_mem_openSlotWrites hw htx hxe he0 hl).1,
    fun k => ⟨fun hall => ⟨?_, fun hpos => ?_⟩, fun hk l hl => ?_⟩⟩
  · have hlast : (e+1)/64 < k := hall (.runends ((e+1)/64))
      (words_mem_openSlotWrites he0 (Nat.div_le_div_right (by omega)) (Nat.le_refl _)).1
    omega
  · refine hall (.offset (x/64+1)) ?_
    exact List.mem_append_left _ (List.mem_append_left _ (List.mem_append_right _
      (offset_mem_setSlotWrites hpos)))
  · have hblock := (block_of_mem_openSlotWrites hw htx hxe he0 hl).2
    omega

theorem openSlot_untouched {t v : Nat} (hw : 0 < qf.bits) (hxe : x ≤ e) (hx : e < qf.xnslots)
    (h : openSlot qf t x e v = some qf') :
    0 < e ∧ Untouched (openSlotWrites qf t x e) qf qf' := by
  have he0 : 0 < e := by
    rcases Nat.eq_zero_or_pos e with rfl | he0
    · simp [openSlot] at h
    · exact he0
  obtain ⟨q, hq, -, hview⟩ := openSlot_view qf t v hxe he0 hx
  obtain rfl : q = qf' := Option.some.inj (hq.symm.trans h)
  have hdiv : ∀ s, x ≤ s → s ≤ e → x/64 ≤ s/64 ∧ s/64 ≤ (e+1)/64 := fun s h1 h2 =>
    ⟨Nat.div_le_div_right h1, Nat.div_le_div_right (by omega)⟩
  refine ⟨he0, fun l hl => ?_⟩
  unfold QF.SameAt
  rw [hview]
  cases l with
  | slots j =>
    rintro s rfl
    have hs : ¬ (x ≤ s ∧ s ≤ e) := fun hc => by
      obtain ⟨h1, h2⟩ := hdiv s hc.1 hc.2
      exact hl (slots_mem_openSlotWrites hw hxe h1 h2)
    simp only [shiftIn]
    rw [if_neg (by omega), if_neg (by omega)]
  | runends j =>
    rintro s rfl
    have hs : ¬ (x ≤ s ∧ s ≤ e) := fun hc => by
      obtain ⟨h1, h2⟩ := hdiv s hc.1 hc.2
      exact hl (words_mem_openSlotWrites he0 h1 h2).1
    simp only [shiftIn]
    rw [if_neg (by omega), if_neg (by omega)]
  | extensions j =>
    rintro s rfl
    have hs : ¬ (x ≤ s ∧ s ≤ e) := fun hc => by
      obtain ⟨h1, h2⟩ := hdiv s hc.1 hc.2
      exact hl (words_mem_openSlotWrites he0 h1 h2).2
    simp only [shiftIn]
    rw [if_neg (by omega), if_neg (by omega)]
  | occupieds j => exact fun _ _ => rfl
  | offset j =>
    simp only
    split
    · next hj =>
      have hsat : ¬ (getBlock qf j).offset < 255 := fun hc => hl (offset_mem_openSlotWrites hj hc)
      exact if_neg hsat
    · rfl

theorem Layout.insertOneSlotWrites_eq (h : Layout qf A) (he : FirstUnused A.lens x e)
    (hex : e < qf.xnslots) {v : Nat} {r : Int} (hdone : insertOneSlot qf b x v = some (r, qf')) :
    insertOneSlotWrites qf b x = some (openSlotWrites qf b x e) ∧
      Untouched (openSlotWrites qf b x e) qf qf' ∧
      (b ≤ x → Opens qf.bits b x e (openSlotWrites qf b x e)) := by
  have hfind : findFirstEmptySlot qf x = some e := by
    apply h.row.findFirstEmptySlot_eq h.offsets
    · rw [Contents.lens_runs]
      exact he
    · exact he.le.trans hex.le
  have hno : ¬ e ≥ qf.xnslots := by omega
  have hw : 0 < qf.bits := Nat.zero_lt_of_lt h.geometry.bits
  unfold insertOneSlot at hdone
  simp only [hfind, Option.bind_eq_bind, Option.bind_some, if_neg hno] at hdone
  obtain ⟨q, hopen, hq⟩ := Option.bind_eq_some_iff.mp hdone
  obtain ⟨-, rfl⟩ := Prod.mk.inj (Option.some.inj hq)
  obtain ⟨he0, hun⟩ := openSlot_untouched hw he.le hex hopen
  exact ⟨by simp [insertOneSlotWrites, hfind, hno], hun,
    fun hbx => openSlotWrites_opens hw hbx he.le he0⟩

theorem Layout.putItemWrites_eq (h : Layout qf A) {p : Placement} (hp : PlacedAt A b l1 l2 p)
    (he : FirstUnused A.lens (A.pos b l1) e) (hex : e < qf.xnslots) {rem n : Nat}
    (hput : putItem qf b rem n p = some qf') : ∃ ws, putItemWrites qf b p = some ws ∧
      Untouched ws qf qf' ∧ Opens qf.bits b (A.pos b l1) e ws := by
  have hstart := @le_start A.lens b
  have hle := he.le
  have hlow : b ≤ A.pos b l1 := hstart.trans (Nat.le_add_right ..)
  cases hp with
  | home hu =>
    have hpos : A.pos b [] = b := start_of_unused hu
    rw [hpos] at he ⊢
    have heb : e = b := he.unique ⟨Nat.le_refl b, hu, fun s h1 h2 => absurd h2 (by omega)⟩
    subst heb
    refine ⟨_, rfl, ?_, setSlotWrites_opens h.geometry.slotBits⟩
    unfold putItem setSlot at hput
    simp only [if_pos hex, Option.bind_eq_bind, Option.bind_some, Option.some.injEq] at hput
    rw [← hput]
    refine (((Untouched.putSlot qf e rem).trans (.orRunend _ e)).trans (.orOccupied _ e)).mono ?_
    simp [slots_mem_setSlotWrites]
  | first hu hb =>
    simp only [putItem, Option.bind_eq_bind] at hput
    obtain ⟨⟨r, q⟩, hdone, hq⟩ := Option.bind_eq_some_iff.mp hput
    obtain ⟨hws, huq, hopens⟩ := h.insertOneSlotWrites_eq (b := b) he hex hdone
    have hpos : A.pos b [] = start A.lens b := rfl
    rw [hpos] at hws huq hopens hle hlow ⊢
    refine ⟨openSlotWrites qf b (start A.lens b) e ++
      [.runends (start A.lens b/64), .occupieds (b/64)], by simp [putItemWrites, hws], ?_,
        (hopens hlow).append fun l hl => ?_⟩
    · rw [← Option.some.inj hq]
      refine ((huq.trans (.orRunend q _)).trans (.orOccupied _ b)).mono ?_
      simp
    · simp only [List.mem_cons, List.not_mem_nil, or_false] at hl
      rcases hl with rfl | rfl <;> simp only [Location.block] <;> omega
  | between hb =>
    simp only [putItem, Option.bind_eq_bind] at hput
    obtain ⟨⟨r, q⟩, hdone, hq⟩ := Option.bind_eq_some_iff.mp hput
    obtain ⟨hws, huq, hopens⟩ := h.insertOneSlotWrites_eq (b := b) he hex hdone
    refine ⟨openSlotWrites qf b (A.pos b l1) e, by simp [putItemWrites, hws], ?_, hopens hlow⟩
    rw [← Option.some.inj hq]
    exact huq
  | @behind l1 y hb =>
    rw [A.pos_append] at he hlow hle ⊢
    simp only [putItem, Option.bind_eq_bind] at hput
    obtain ⟨⟨r, q⟩, hdone, hq⟩ := Option.bind_eq_some_iff.mp hput
    obtain ⟨hws, huq, hopens⟩ := h.insertOneSlotWrites_eq (b := b) he hex hdone
    obtain ⟨x, hx⟩ : ∃ x, x = A.pos b l1 + y.len := ⟨_, rfl⟩
    have hcur : b ≤ A.pos b l1 := hstart.trans (Nat.le_add_right ..)
    rw [← hx] at hws huq hopens hle hlow ⊢
    refine ⟨openSlotWrites qf b x e ++ [.runends (x/64), .runends (A.pos b l1/64)],
      by simp [putItemWrites, hws], ?_, (hopens hlow).append fun l hl => ?_⟩
    · rw [← Option.some.inj hq, ← hx]
      refine ((huq.trans (.orRunend q x)).trans (.xorRunend _ _)).mono ?_
      simp
    · simp only [List.mem_cons, List.not_mem_nil, or_false] at hl
      rcases hl with rfl | rfl <;> simp only [Location.block] <;> omega

/-- One more slot in the run of a bucket uses the first empty slot behind it. -/
theorem Contents.used_grow {l : List Item} (hl : itemsLen l = A.lens b + 1)
    (hx1 : start A.lens b ≤ x) (hx2 : x ≤ start A.lens b + A.lens b)
    (he : FirstUnused A.lens x e) (s : Nat) :
    Used (Contents.lens (Function.update A b l)) s ↔ Used A.lens s ∨ s = e := by
  rw [Contents.lens_grow hl]
  exact RunLayout.used_grow hx1 hx2 he

theorem Layout.pushCountersWrites_eq (h : Layout qf A) (hb : A b = l1 ++ it :: l2) {fuel n : Nat}
    (hn : n < 2^fuel) (hs : (Nat.digits (2^qf.bits) n).length ≤ A.free qf (A.pos b l1))
    (hpush : pushCounters b (fuel+1) qf (A.pos b l1 + it.len) n = some qf') :
    ∃ ws, pushCountersWrites b (fuel+1) qf (A.pos b l1 + it.len) n = some ws ∧
      Untouched ws qf qf' ∧ Reaches qf.bits A.lens b (A.pos b l1 + it.len)
        (Nat.digits (2^qf.bits) n).length ws := by
  have hnone : ∀ {q q' : QF} {k y : Nat} {len : Nat → Nat},
      pushCounters b (k+1) q y 0 = some q' → ∃ ws, pushCountersWrites b (k+1) q y 0 = some ws ∧
        Untouched ws q q' ∧ Reaches q.bits len b y (Nat.digits (2^q.bits) 0).length ws := by
    intro q q' k y len hq
    obtain rfl : q = q' := Option.some.inj hq
    exact ⟨[], rfl, .refl _ q, by simpa using Reaches.nil q.bits len b y⟩
  induction fuel generalizing qf A it n with
  | zero =>
    obtain rfl : n = 0 := by omega
    exact hnone hpush
  | succ fuel ih =>
    have hw := h.geometry.bits
    have hw2 := h.geometry.slotBits
    rcases Nat.eq_zero_or_pos n with rfl | hpos
    · exact hnone hpush
    · have hdig : n &&& bitmask qf.bits = n % 2^qf.bits :=
        and_bitmask n (by unfold QF.bits; omega)
      have hshr : shr64 n qf.bits = n / 2^qf.bits := shr64_eq n (by unfold QF.bits; omega)
      have hbase : 1 < 2^qf.bits := Nat.one_lt_two_pow (by unfold QF.bits; omega)
      have hend := (h.pos_add_len_le hb).trans h.fits
      have hdigits := Nat.digits_def' hbase hpos
      rw [hdigits, List.length_cons] at hs
      have hspace : qf.FindsSpace (A.pos b l1 + it.len) := by
        rw [h.findsSpace_iff hend, ← h.free_item hb (Nat.le_refl _)]
        omega
      obtain ⟨qf1, hone, hf1, hlay⟩ := h.pushCounter hb (v := n % 2^qf.bits)
        (Nat.mod_lt _ (Nat.two_pow_pos _)) hspace
      obtain ⟨e, he, hex⟩ := h.firstUnused_of_space hend hspace
      obtain ⟨x, hx⟩ : ∃ x, x = A.pos b l1 + it.len := ⟨_, rfl⟩
      rw [← hx] at hone hf1 hlay hpush he ⊢
      obtain ⟨hws, hun, hopens⟩ := h.insertOneSlotWrites_eq he hex hone
      obtain ⟨qf2, hqf2⟩ : ∃ q, q = (orRunend (orExtension qf1 x) x).countSlot := ⟨_, rfl⟩
      obtain ⟨it2, hit2⟩ : ∃ i, i = it.withCounter (it.cnt ++ [n % 2^qf.bits]) := ⟨_, rfl⟩
      rw [← hqf2] at hf1 hlay
      rw [← hit2] at hlay
      have hlen : it2.len = it.len + 1 := by
        rw [hit2]
        simp only [Item.withCounter, Item.len, List.length_append, List.length_singleton]
        omega
      have hk2 : qf.Keeps qf2 := (QF.Keeps.setCounts ..).trans (.of_sameFrame hf1)
      have hfree := h.free_replace hb hlay hk2 hlen
      have hx2 : Contents.pos (Function.update A b (l1 ++ it2 :: l2)) b l1 + it2.len = x + 1 := by
        rw [Contents.pos_update, hx, hlen]
        omega
      have hlt : n / 2^qf.bits < 2^fuel := by
        have h4 : 2 ≤ 2^qf.bits := Nat.le_self_pow (by unfold QF.bits; omega) 2
        calc n / 2^qf.bits ≤ n / 2 := Nat.div_le_div_left h4 (by omega)
          _ < 2^fuel := by
            rw [Nat.div_lt_iff_lt_mul (by omega), ← pow_succ]
            exact hn
      unfold pushCounters at hpush
      rw [if_pos hpos, hdig, hone, hshr] at hpush
      simp only [Option.bind_eq_bind, Option.bind_some, ← hqf2] at hpush
      rw [← hx2] at hpush
      obtain ⟨rest, hrest, hun2, hreach⟩ := ih hlay (Function.update_self ..) hlt
        (by rw [Contents.pos_update, hk2.bits]; omega) hpush
      rw [hx2] at hrest hreach
      rw [hk2.bits] at hreach
      -- the slots of the run up to its old end are in use, so the empty one is the bucket's first
      have hrunlen : itemsLen (l1 ++ it2 :: l2) = A.lens b + 1 := by
        simp only [Contents.lens, hb, itemsLen_append, itemsLen_cons, hlen]
        omega
      have hxrun : start A.lens b ≤ x ∧ x ≤ start A.lens b + A.lens b := by
        have hl : A.lens b = itemsLen l1 + (it.len + itemsLen l2) := by simp [Contents.lens, hb]
        unfold Contents.pos at hx
        omega
      have hbx : b ≤ x := (le_start b).trans hxrun.1
      refine ⟨(openSlotWrites qf b x e ++ [.extensions (x/64), .runends (x/64)]) ++ rest,
        ?_, ?_, ?_⟩
      · unfold pushCountersWrites
        simp only [if_pos hpos, hws, hdig, hone, hshr, ← hqf2, hrest, Option.bind_eq_bind,
          Option.bind_some]
      · have hone2 : Untouched (openSlotWrites qf b x e ++ [.extensions (x/64), .runends (x/64)])
            qf qf2 := by
          rw [hqf2]
          refine (hun.trans ((Untouched.orExtension qf1 x).trans (.orRunend _ x))).mono ?_
          simp
        exact hone2.trans hun2
      · rw [hdigits, List.length_cons]
        refine .cons (he.of_run hxrun.1 hxrun.2)
          (Contents.used_grow hrunlen hxrun.1 hxrun.2 he) ((hopens hbx).append fun l hl => ?_)
          hreach
        have hle := he.le
        simp only [List.mem_cons, List.not_mem_nil, or_false] at hl
        rcases hl with rfl | rfl <;> simp only [Location.block] <;> omega

theorem Layout.extendSameWrites_eq (h : Layout qf A) (hb : A b = l1 ++ it :: l2)
    (hs : A.pos b l1 + it.len < 2^31) (hc : it.cnt = []) {hash count : Nat}
    (hbk : qf.metadata.bucket hash = b) (hlt : count + 1 < 2^64)
    (hspace : (Nat.digits (2^qf.bits) (count+1)).length ≤ A.free qf (A.pos b l1))
    (hcall : extendSame qf (A.pos b l1) hash count = some qf') :
    ∃ ws, extendSameWrites qf (A.pos b l1) hash count = some ws ∧ Untouched ws qf qf' ∧
      Reaches qf.bits A.lens b (A.pos b l1 + it.len) (Nat.digits (2^qf.bits) (count+1)).length
        ws := by
  have hinfo := (h.itemAt hb).getSlotInfo_eq h.row.blocks
  rw [if_pos hs] at hinfo
  have hcount : it.count qf.bits = 1 := if_pos hc
  have hadd : add64 1 count = count + 1 := by
    rw [Nat.add_comm count 1]
    exact Nat.mod_eq_of_lt (by omega)
  have hlen : A.pos b l1 + 1 + it.ext.length + it.cnt.length = A.pos b l1 + it.len := by
    unfold Item.len
    omega
  unfold extendSame at hcall
  simp only [hinfo, Item.info, hcount, hadd, hlen, Option.bind_eq_bind, Option.bind_some] at hcall
  simp only [hc, List.length_nil, putCounters, Option.bind_some,
    h.geometry.hashBucketIndex_eq, hbk] at hcall
  obtain ⟨q, hpush, hq⟩ := Option.bind_eq_some_iff.mp hcall
  obtain ⟨ws, hws, hun, hreach⟩ := h.pushCountersWrites_eq hb hlt hspace hpush
  refine ⟨ws, ?_, ?_, hreach⟩
  · unfold extendSameWrites
    simp only [hinfo, Item.info, hcount, hadd, hlen, Option.bind_eq_bind, Option.bind_some]
    simp only [hc, List.length_nil, putCounters, Option.bind_some,
      h.geometry.hashBucketIndex_eq, hbk, hws]
    rfl
  · rw [← Option.some.inj hq]
    exact hun

theorem Places.storeWrites_eq (h : Layout qf A) {p : Placement} (hp : Places qf A hash l1 l2 p)
    (n : Nat) {count : Nat} (hc : 0 < count) (hlt : count < 2^64)
    (hspace : (counterOf qf.bits count).length < A.free qf (A.pos (qf.metadata.bucket hash) l1))
    (hcount : 1 < count → Countable qf A hash l1 p) :
    ∃ q1 q2 ws, putItem qf (insertBucket qf hash) (hashRemainder qf hash) n p = some q1 ∧
      (if count > 1 then extendSame q1 (countIndex (insertBucket qf hash) p) hash (count-1)
        else some q1) = some q2 ∧ qf.Keeps q2 ∧ storeWrites qf hash n count p = some ws ∧
      Untouched ws qf q2 ∧ Reaches qf.bits A.lens (qf.metadata.bucket hash)
        (A.pos (qf.metadata.bucket hash) l1) ((counterOf qf.bits count).length + 1) ws := by
  obtain ⟨q1, q2, h1, h2, hk2, -⟩ := hp.putCount h n hc hlt hspace hcount
  obtain ⟨b, hbk⟩ : ∃ b, b = qf.metadata.bucket hash := ⟨_, rfl⟩
  obtain ⟨e, he, hex⟩ := free_pos_iff.mp (Nat.zero_lt_of_lt hspace)
  have hfinds : ∀ x, p.probe = some x → qf.FindsSpace x := by
    intro x hx
    rw [hp.placed.probe_eq hx, h.findsSpace_iff (he.le.trans hex.le)]
    exact Nat.zero_lt_of_lt hspace
  obtain ⟨q, hq, hf1, hins⟩ := hp.put h n hfinds
  obtain rfl : q = q1 := Option.some.inj (hq.symm.trans h1)
  have hk1 : qf.Keeps q := ⟨_, _, _, hf1⟩
  have hplaced := hp.placed
  have hlay := hins.layout
  have hlb := h.geometry.bucket_lt hash
  rw [← hbk] at hplaced hlay he hspace hlb ⊢
  have hput := h1
  rw [h.geometry.insertBucket_eq, ← hbk] at hput
  obtain ⟨ws1, hws1, hun1, hopens⟩ := h.putItemWrites_eq hplaced he hex hput
  have hsplit : A.lens b = itemsLen l1 + itemsLen l2 := by simp [Contents.lens, hplaced.split]
  have hlen : itemsLen (l1 ++ Item.fresh (qf.metadata.remainder hash) :: l2) = A.lens b + 1 := by
    rw [hsplit, itemsLen_append, itemsLen_cons, Item.len_fresh]
    omega
  have hrun : start A.lens b ≤ A.pos b l1 ∧ A.pos b l1 ≤ start A.lens b + A.lens b := by
    unfold Contents.pos
    omega
  have hfirst := he.of_run hrun.1 hrun.2
  have hused := Contents.used_grow hlen hrun.1 hrun.2 he
  by_cases hone : count = 1
  · have hnot : ¬ count > 1 := by omega
    rw [if_neg hnot] at h2
    obtain rfl : q = q2 := Option.some.inj h2
    refine ⟨q, q, ws1, h1, by rw [if_neg hnot], hk2, ?_, hun1, ?_⟩
    · unfold storeWrites
      rw [h.geometry.insertBucket_eq, ← hbk, h.geometry.hashRemainder_eq]
      rw [h.geometry.hashRemainder_eq] at hput
      simp only [hws1, hput, Option.bind_eq_bind, Option.bind_some, if_neg hnot]
      cases hplaced <;> rfl
    · have hnil : counterOf qf.bits count = [] := if_pos hone
      rw [hnil]
      simpa using Reaches.cons hfirst hused hopens (.nil qf.bits _ b _)
  · have hmany : count > 1 := by omega
    obtain ⟨hnofirst, hlow⟩ := hcount hmany
    have hindex := hplaced.countIndex_eq hnofirst
    have hgrow := h.free_insert hplaced.split hlb (he.le.trans hex.le) hk1.xnslots hlay
    have hdigits : Nat.digits (2^q.bits) (count-1+1) = counterOf qf.bits count := by
      rw [Nat.sub_add_cancel hc, hk1.bits, counterOf, if_neg hone]
    rw [Item.len_fresh] at hgrow
    rw [← hbk] at hlow
    have hcall := h2
    rw [if_pos hmany, h.geometry.insertBucket_eq, ← hbk, hindex] at hcall
    have hpos := A.pos_update b (l1 ++ Item.fresh (qf.metadata.remainder hash) :: l2) l1
    have hbk1 : q.metadata.bucket hash = b := by rw [hk1.bucket, hbk]
    have hlt1 : count - 1 + 1 < 2^64 := by omega
    obtain ⟨ws2, hws2, hun2, hreach⟩ := hlay.extendSameWrites_eq (Function.update_self ..)
      (by rw [hpos, Item.len_fresh]; exact hlow) rfl hbk1 hlt1 (by rw [hpos, hdigits]; omega)
      (by rw [hpos]; exact hcall)
    rw [hpos] at hws2
    rw [hdigits, hpos, Item.len_fresh, hk1.bits] at hreach
    refine ⟨q, q2, ws1 ++ ws2, h1, h2, hk2, ?_, hun1.trans hun2, hreach.cons hfirst hused hopens⟩
    unfold storeWrites
    rw [h.geometry.insertBucket_eq, ← hbk]
    simp only [hws1, hput, Option.bind_eq_bind, Option.bind_some, if_pos hmany]
    rw [← hindex] at hws2
    cases hplaced <;> simp only [hws2, Option.bind_some]

end

end AdaptiveQF
