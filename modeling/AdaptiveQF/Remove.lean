import AdaptiveQF.CellPut

/-! _remove and what it calls: the slots of an item are taken out one by one, each
time moving the rest of the cluster back by one slot. -/
namespace AdaptiveQF
open RunLayout

def stepToRunend (qf : QF) : Nat → Nat → Option Nat
  | 0, _ => none
  | fuel+1, i => if isRunend qf i then some i else stepToRunend qf fuel (i+1)

def skipTail (qf : QF) (i : Nat) : Option Nat := (skipExtensions qf qf.fuel (i+1)).map (· - 1)

def nextOccupiedFrom (qf : QF) (slot : Nat) : Nat → Nat → Nat
  | 0, bucket => bucket
  | n+1, bucket => if bucket ≤ slot && !isOccupied qf bucket then nextOccupiedFrom qf slot n
    (bucket+1)
      else bucket

def nextOccupied (qf : QF) (bucket slot : Nat) : Nat :=
  nextOccupiedFrom qf slot (slot + 1 - bucket) (bucket+1)

def clusterEnd (qf : QF) : Nat → Nat → Nat → Option Nat
  | 0, _, _ => none
  | fuel+1, bucket, slot =>
    if bucket ≤ slot then do
      let runend ← stepToRunend qf qf.fuel (slot+1)
      let slot ← skipTail qf runend
      clusterEnd qf fuel (nextOccupied qf bucket slot) slot
    else some slot

def copyBack (qf : QF) (i : Nat) : Option QF := do
  let value ← getSlot qf (i+1)
  let qf ← setSlot qf i value
  let qf := if isRunendOrCounter qf i != isRunendOrCounter qf (i+1) then xorRunend qf i else qf
  some (if isExtensionOrCounter qf i != isExtensionOrCounter qf (i+1) then xorExtension qf i
    else qf)

def moveSlotsBack : Nat → Nat → QF → Option QF
  | _, 0, qf => some qf
  | i, n+1, qf => do moveSlotsBack (i+1) n (← copyBack qf i)

def removeSlot (wasRunend : Bool) (bucketIndex overwriteIndex : Nat) (qf : QF) : Option QF := do
  let slot ← if wasRunend then some overwriteIndex else stepToRunend qf qf.fuel overwriteIndex
  let slot ← skipTail qf slot
  let slot ← clusterEnd qf qf.fuel (nextOccupied qf bucketIndex slot) slot
  let qf ← moveSlotsBack overwriteIndex (slot - overwriteIndex) qf
  let qf ← setSlot qf slot 0
  some (clearExtension (clearRunend qf slot) slot)

def removeSlots (wasRunend : Bool) (bucketIndex overwriteIndex : Nat) : Nat → QF → Option QF
  | 0, qf => some qf
  | n+1, qf => do
    removeSlots wasRunend bucketIndex overwriteIndex n
      (← removeSlot wasRunend bucketIndex overwriteIndex qf)

def skipBack (qf : QF) : Nat → Option Nat
  | 0 => if isExtensionOrCounter qf 0 then none else some 0
  | i+1 => if isExtensionOrCounter qf (i+1) then skipBack qf i else some (i+1)

/-- The loop that updates the offsets behind `block`. It stores 8 bits of each, and stops at the
first one that is right already. The offset behind the last block is not in the array. -/
def repairOffsets : Nat → Nat → QF → Option QF
  | 0, _, _ => none
  | fuel+1, block, qf => do
    let lastOccupiedsHashIndex := 64*block + 63
    let runendIndex ← runEnd qf lastOccupiedsHashIndex
    let offset := if runendIndex / 64 = block then 0 else runendIndex - lastOccupiedsHashIndex
    if block + 1 ≥ qf.metadata.nblocks then none
    else if (getBlock qf (block+1)).offset = offset then some qf
    else repairOffsets fuel (block+1) (setOffset qf (block+1) (offset % 256))

def newRunend (qf : QF) (overwriteIndex : Nat) : Option QF :=
  if overwriteIndex = 0 then none else (skipBack qf (overwriteIndex-1)).map (orRunend qf)

def removeReplaceSlots (qf : QF) (onlyItemInRun : Bool)
    (bucketIndex overwriteIndex oldLength : Nat) : Option QF := do
  let wasRunend := isRunend qf overwriteIndex
  let qf ← (if wasRunend && !onlyItemInRun then newRunend qf overwriteIndex else some qf)
  let qf ← removeSlots wasRunend bucketIndex overwriteIndex oldLength qf
  let qf := if onlyItemInRun then clearOccupied qf bucketIndex else qf
  if oldLength > 0 then repairOffsets qf.metadata.nblocks (bucketIndex / 64) qf else some qf

/-- `while (is_extension_or_counter(qf, ++i)) i++;` It looks at every second slot only. -/
def skipDouble (qf : QF) : Nat → Nat → Option Nat
  | 0, _ => none
  | fuel+1, i => if isExtensionOrCounter qf (i+1) then skipDouble qf fuel (i+2) else some (i+1)

structure RemoveScan where
  found : Option Nat
  last : Option SlotInfo
deriving DecidableEq

def removeScan (qf : QF) (hash : Nat) : Nat → Nat → Option SlotInfo → Option RemoveScan
  | 0, _, _ => none
  | fuel+1, currentIndex, last => do
    let slot ← getSlot qf currentIndex
    if slot = hashRemainder qf hash then
      let info ← getSlotInfo qf currentIndex
      if info.ext = hashExtension qf hash info.extSlots then some ⟨some currentIndex, some info⟩
      else if isRunend qf currentIndex then some ⟨none, some info⟩
      else
        let next := currentIndex + (info.countSlots + info.extSlots + 1)
        if next < qf.xnslots then removeScan qf hash fuel next (some info)
        else some ⟨none, some info⟩
    else if isRunend qf currentIndex then some ⟨none, last⟩
    else
      let next ← skipDouble qf qf.fuel currentIndex
      if next < qf.xnslots then removeScan qf hash fuel next last else some ⟨none, last⟩

structure RemoveOut where
  hash : Nat
  hashLen : Int
deriving DecidableEq

def RemoveOut.read (out : RemoveOut) : Option SlotInfo → RemoveOut
  | none => out
  | some info => ⟨info.ext, info.extSlots⟩

def removeWork (hash : Nat) (out : RemoveOut) (qf : QF) : Option ((Int × RemoveOut) × QF) := do
  let bucket := hashBucketIndex qf hash
  let originalRunstartIndex ← runStart qf bucket
  let currentIndex ← skipExtensions qf qf.fuel originalRunstartIndex
  let scan ← removeScan qf hash qf.fuel currentIndex none
  match scan with
  | ⟨some index, some info⟩ => do
    let length := info.countSlots + info.extSlots + 1
    let only := index == originalRunstartIndex && isRunend qf index
    let qf' ← removeReplaceSlots qf only bucket index length
    some ((length, out.read (some info)), qf'.setCounts (sub64 qf'.metadata.nelts info.count)
      (sub64 qf'.metadata.ndistinctElts 1) (sub64 qf'.metadata.noccupiedSlots length))
  | ⟨_, last⟩ => some ((0, out.read last), qf)

def remove (qf : QF) (hash : Nat) (out : RemoveOut) (runtimeLock : Nat) :
    Option ((Int × RemoveOut) × QF) :=
  let bucket := hashBucketIndex qf hash
  if isOccupied qf bucket then
    withLock qf bucket false runtimeLock (couldntLock, out) (removeWork hash out)
  else if hasFlag runtimeLock QF_NO_LOCK then some ((0, out), qf)
  else do
    -- the lock of an empty bucket is not given back
    let (ok, qf) ← qfLock qf bucket false runtimeLock
    some ((if ok then 0 else couldntLock, out), qf)

def qfRemove (qf : QF) (key : Nat) (out : RemoveOut) (flags : Nat) :
    Option ((Int × RemoveOut) × QF) :=
  remove qf (keyToHash qf key flags) out flags

/-! The last slot of a cluster. -/

section
variable {qf : QF} {runs : Nat → List Cell} {b x e : Nat}

theorem stepToRunend_eq {fuel i n : Nat} (h : ∀ s, i ≤ s → s < n → isRunend qf s = false)
    (hn : isRunend qf n = true) (hin : i ≤ n) (hf : n < i + fuel) :
    stepToRunend qf fuel i = some n := by
  induction fuel generalizing i with
  | zero => omega
  | succ fuel ih =>
    unfold stepToRunend
    by_cases hi : i = n
    · subst hi
      rw [if_pos hn]
    · rw [if_neg (by rw [h i (Nat.le_refl i) (by omega)]; simp)]
      exact ih (fun s h1 h2 => h s (by omega) h2) (by omega) (by omega)

theorem skipTail_eq {i n : Nat} (h : ∀ s, i < s → s ≤ n → extensionBit qf s = true)
    (hn : extensionBit qf (n+1) = false) (hin : i ≤ n) (hf : n < qf.fuel) :
    skipTail qf i = some n := by
  have hskip : skipExtensions qf qf.fuel (i+1) = some (n+1) :=
    skipExtensions_eq (fun s h1 h2 => h s (by omega) (by omega)) hn (by omega) (by omega)
  rw [skipTail, hskip]
  rfl

structure NextOccupied (qf : QF) (bucket slot next : Nat) : Prop where
  gt : bucket < next
  le : next ≤ slot + 1
  skipped : ∀ a, bucket < a → a < next → isOccupied qf a = false
  occupied : next ≤ slot → isOccupied qf next = true

theorem nextOccupiedFrom_spec {bucket slot n : Nat} (hn : bucket + n = slot + 1) :
    NextOccupied qf bucket slot (nextOccupiedFrom qf slot n (bucket+1)) ∨ n = 0 := by
  induction n generalizing bucket with
  | zero => exact .inr rfl
  | succ n ih =>
    left
    unfold nextOccupiedFrom
    by_cases hc : bucket + 1 ≤ slot ∧ isOccupied qf (bucket+1) = false
    · obtain ⟨hle, hocc⟩ := hc
      rw [if_pos (by simp [hle, hocc])]
      obtain ⟨h1, h2, h3, h4⟩ := (@ih (bucket+1) (by omega)).resolve_right (by omega)
      refine ⟨by omega, h2, fun a ha1 ha2 => ?_, h4⟩
      by_cases ha : a = bucket + 1
      · rw [ha, hocc]
      · exact h3 a (by omega) ha2
    · have hneg : ¬ ((decide (bucket + 1 ≤ slot) && !isOccupied qf (bucket+1)) = true) := by
        simpa using hc
      rw [if_neg hneg]
      refine ⟨by omega, by omega, fun a h1 h2 => by omega, fun hle => ?_⟩
      by_contra hocc
      exact hc ⟨hle, by simpa using hocc⟩

theorem nextOccupied_spec {bucket slot : Nat} (h : bucket ≤ slot) :
    NextOccupied qf bucket slot (nextOccupied qf bucket slot) :=
  (nextOccupiedFrom_spec (by omega)).resolve_right (by omega)

structure Shifting (qf : QF) (runs : Nat → List Cell) (b : Nat) : Prop where
  holds : Holds Blank runs qf.view.cell
  occupied : ∀ c, b < c → qf.view.occupied c = decide (0 < lens runs c)
  shape : ∀ c, b < c → 0 < lens runs c → RunShape (runs c)
  outside : ∀ c, qf.metadata.nslots ≤ c → lens runs c = 0
  fits : ends (lens runs) qf.metadata.nslots ≤ qf.xnslots
  blocks : qf.xnslots ≤ 64 * qf.metadata.nblocks

theorem Row.shifting (h : Row qf runs) (b : Nat) : Shifting qf runs b :=
  ⟨h.holds, fun c _ => h.occupied c, fun c _ => h.shape c, h.outside, h.fits, h.blocks⟩

namespace Shifting

theorem end_le (h : Shifting qf runs b) {c : Nat} (hc : 0 < lens runs c) :
    start (lens runs) c + lens runs c ≤ qf.xnslots := by
  have hlt : c < qf.metadata.nslots := by
    by_contra hge
    have := h.outside c (by omega)
    omega
  exact (start_add_le_ends hlt hc).trans h.fits

theorem fuel (h : Shifting qf runs b) {s : Nat} (hs : s < qf.xnslots) : s < qf.fuel := by
  have := h.blocks
  unfold QF.fuel
  omega

theorem extension_end (h : Shifting qf runs b) {c : Nat} (hbc : b ≤ c) (hc : 0 < lens runs c) :
    extensionBit qf (start (lens runs) c + lens runs c) = false :=
  extension_behind h.holds (fun a ha => h.shape a (by omega)) hc

/-- The walk over a run behind the changed one. -/
theorem walk (h : Shifting qf runs b) {c : Nat} (hbc : b < c) (hc : 0 < lens runs c) :
    ∃ r, stepToRunend qf qf.fuel (start (lens runs) c) = some r ∧
      skipTail qf r = some (start (lens runs) c + lens runs c - 1) := by
  obtain ⟨init, d, ext, hrun, hd, hinit, hext⟩ := (h.shape c hbc hc).runend
  have hlen : lens runs c = init.length + (ext.length + 1) := by simp [lens, hrun]
  have hle := h.end_le hc
  have hmark : isRunend qf (start (lens runs) c + init.length) = true := by
    have hat := h.holds.at hrun
    have hd' : d.isRunend = true := hd
    rw [← hat, Cell.isRunend, Bool.and_comm] at hd'
    exact hd'
  refine ⟨start (lens runs) c + init.length, ?_, ?_⟩
  · apply stepToRunend_eq _ hmark (by omega)
    · have := h.fuel (s := start (lens runs) c + init.length) (by omega)
      omega
    · intro s h1 h2
      obtain ⟨i, rfl⟩ := Nat.exists_eq_add_of_le h1
      have hi : i < init.length := by omega
      have hcell := h.holds.cell c i init[i] (by
        rw [hrun, List.getElem?_append_left hi, List.getElem?_eq_getElem hi])
      have hno := hinit _ (List.getElem_mem hi)
      rw [← hcell, Cell.isRunend, Bool.and_comm] at hno
      exact hno
  · have hend : start (lens runs) c + lens runs c - 1 + 1 =
        start (lens runs) c + lens runs c := by omega
    apply skipTail_eq _ _ (by omega) (h.fuel (by omega))
    · exact fun s h1 h2 => extension_of_tail h.holds hrun hext (by omega) (by omega)
    · rw [hend]
      exact h.extension_end (by omega) hc

theorem clusterEnd_eq (h : Shifting qf runs b) {len : Nat → Nat} (hg : lens runs = grow len b)
    (hx1 : start len b ≤ x) (hx2 : x ≤ start len b + len b) (he : FirstUnused len x e)
    {c slot fuel : Nat} (hbc : b ≤ c) (hslot : ends (lens runs) (c+1) = slot + 1) (hcs : c ≤ slot)
    (hxs : x ≤ slot) (hse : slot ≤ e) (hf : e < slot + fuel) :
    clusterEnd qf fuel (nextOccupied qf c slot) slot = some e := by
  induction fuel generalizing c slot with
  | zero => omega
  | succ fuel ih =>
    have hnext := @nextOccupied_spec qf c slot hcs
    obtain ⟨n, hn⟩ : ∃ n, n = nextOccupied qf c slot := ⟨_, rfl⟩
    rw [← hn] at hnext ⊢
    have hzero : ∀ a, c < a → a < n → lens runs a = 0 := by
      intro a h1 h2
      have hocc := hnext.skipped a h1 h2
      have hdec : isOccupied qf a = decide (0 < lens runs a) := h.occupied a (by omega)
      rw [hocc] at hdec
      have := of_decide_eq_false hdec.symm
      omega
    have hgrow := @ends_grow len b x e (c+1) hx1 hx2 he (by omega)
    rw [← hg, hslot] at hgrow
    unfold clusterEnd
    by_cases hle : n ≤ slot
    · have hpos : 0 < lens runs n := by
        have hdec : isOccupied qf n = decide (0 < lens runs n) :=
          h.occupied n (by have := hnext.gt; omega)
        rw [hnext.occupied hle] at hdec
        exact of_decide_eq_true hdec.symm
      have hends : ends (lens runs) n = slot + 1 := by
        rw [← hslot]
        exact ends_eq_of_gap hnext.gt fun a h1 h2 => hzero a (by omega) h2
      have hst : start (lens runs) n = slot + 1 := by
        unfold start
        omega
      obtain ⟨r, hr, htail⟩ := h.walk (by have := hnext.gt; omega) hpos
      rw [hst] at hr htail
      have hlen : len n = lens runs n := by
        rw [hg, grow_of_ne _ (by have := hnext.gt; omega)]
      have hgt := hnext.gt
      rcases start_grow hx1 hx2 he (by omega : b < n) (by omega) with ⟨g1, g2, g3⟩ | ⟨g1, g2⟩
      · rw [← hg, hst] at g3
        simp only [if_pos hle, hr, htail, Option.bind_eq_bind, Option.bind_some]
        apply ih (by omega) _ (by omega) (by omega) (by omega) (by omega)
        rw [ends_succ_of_pos hpos, hst]
        omega
      · -- the run would begin behind the unused slot, and so would its bucket
        rw [← hg, hst] at g2
        exfalso
        have hstart : start len n = max n (ends len n) := rfl
        obtain ⟨a, _, ho⟩ := @owned_of_lt_ends len n e (by omega) (by omega)
        exact he.unused ⟨a, ho⟩
    · rw [if_neg hle]
      congr 1
      by_contra hne
      obtain ⟨a, ho⟩ := he.used slot hxs (by omega)
      by_cases hac : a ≤ c
      · have := ho.lt_ends (by omega : a < c + 1)
        split at hgrow <;> omega
      · have hpos := ho.pos
        have hlena : lens runs a = len a := by
          rw [hg, grow_of_ne _ (by omega)]
        have := hzero a (by omega) (by have := ho.bucket_le; omega)
        omega

end Shifting

/-! The shift. -/

theorem copyBack_eq {i : Nat} (hi : i + 1 < qf.xnslots) :
    ∃ qf', copyBack qf i = some qf' ∧ qf.SameFrame qf' ∧
      qf'.view = ⟨Function.update qf.view.cell i (qf.view.cell (i+1)), qf.view.occupied,
        qf.view.offset⟩ := by
  have hget : getSlot qf (i+1) = some (slotValue qf (i+1)) := by
    unfold getSlot
    rw [if_neg (by omega), if_pos hi]
  obtain ⟨v, hv⟩ : ∃ v, v = slotValue qf (i+1) := ⟨_, rfl⟩
  have hset : setSlot qf i v = some (putSlot qf i v) := by
    unfold setSlot
    rw [if_pos (by omega)]
  obtain ⟨q1, hq1⟩ : ∃ q, q = putSlot qf i v := ⟨_, rfl⟩
  have hv1 : q1.view = qf.view.setValue i v := by rw [hq1, view_putSlot]
  obtain ⟨q2, hq2⟩ : ∃ q, q = (if isRunendOrCounter q1 i != isRunendOrCounter q1 (i+1) then
    xorRunend q1 i else q1) := ⟨_, rfl⟩
  have hv2 : q2.view = q1.view.setRunend i (q1.view.cell (i+1)).runend := by
    rw [hq2]
    have hb : ∀ s, isRunendOrCounter q1 s = (q1.view.cell s).runend := fun s => rfl
    rw [hb, hb]
    by_cases hc : (q1.view.cell i).runend = (q1.view.cell (i+1)).runend
    · rw [if_neg (by simp [hc]), ← hc]
      simp [View.setRunend]
    · rw [if_pos (by simpa using hc), view_xorRunend, Bool.not_eq.mpr hc]
  obtain ⟨q3, hq3⟩ : ∃ q, q = (if isExtensionOrCounter q2 i != isExtensionOrCounter q2 (i+1) then
    xorExtension q2 i else q2) := ⟨_, rfl⟩
  have hv3 : q3.view = q2.view.setExtension i (q2.view.cell (i+1)).extension := by
    rw [hq3]
    have hb : ∀ s, isExtensionOrCounter q2 s = (q2.view.cell s).extension := fun s => rfl
    rw [hb, hb]
    by_cases hc : (q2.view.cell i).extension = (q2.view.cell (i+1)).extension
    · rw [if_neg (by simp [hc]), ← hc]
      simp [View.setExtension]
    · rw [if_pos (by simpa using hc), view_xorExtension, Bool.not_eq.mpr hc]
  refine ⟨q3, ?_, ?_, ?_⟩
  · unfold copyBack
    simp only [hget, ← hv, hset, ← hq1, ← hq2, ← hq3, Option.bind_eq_bind, Option.bind_some]
  · have hf1 : qf.SameFrame q1 := by
      rw [hq1]
      exact ⟨rfl, rfl, rfl⟩
    have hf2 : q1.SameFrame q2 := by
      rw [hq2]
      split <;> exact ⟨rfl, rfl, rfl⟩
    have hf3 : q2.SameFrame q3 := by
      rw [hq3]
      split <;> exact ⟨rfl, rfl, rfl⟩
    exact (hf1.trans hf2).trans hf3
  · rw [hv3, hv2, hv1]
    simp [View.setExtension, View.setRunend, View.setValue, hv, QF.view]

theorem moveSlotsBack_eq {i n : Nat} (hi : i + n < qf.xnslots) :
    ∃ qf', moveSlotsBack i n qf = some qf' ∧ qf.SameFrame qf' ∧
      qf'.view = ⟨fun s => if i ≤ s ∧ s < i + n then qf.view.cell (s+1) else qf.view.cell s,
        qf.view.occupied, qf.view.offset⟩ := by
  induction n generalizing i qf with
  | zero =>
    refine ⟨qf, rfl, QF.SameFrame.refl qf, View.ext (funext fun s => ?_) rfl rfl⟩
    simp only
    rw [if_neg (by omega)]
  | succ n ih =>
    obtain ⟨q1, h1, hf1, hv1⟩ := @copyBack_eq qf i (by omega)
    have hx : q1.xnslots = qf.xnslots := congrArg QFMetadata.xnslots hf1.metadata
    obtain ⟨q2, h2, hf2, hv2⟩ := @ih q1 (i+1) (by omega)
    refine ⟨q2, ?_, hf1.trans hf2, ?_⟩
    · rw [moveSlotsBack, h1]
      exact h2
    · rw [hv2, hv1]
      refine View.ext (funext fun s => ?_) rfl rfl
      simp only
      by_cases hs : s = i
      · subst hs
        rw [if_neg (by omega), if_pos (by omega), Function.update_self]
      · by_cases hin : i + 1 ≤ s ∧ s < i + 1 + n
        · rw [if_pos hin, if_pos (by omega), Function.update_of_ne (by omega)]
        · rw [if_neg hin, if_neg (by omega), Function.update_of_ne hs]

def Rest (wasRunend : Bool) (l : List Cell) : Prop :=
  if wasRunend then ∀ d ∈ l.tail, d.extension = true
  else ∃ init r ext, l = init ++ r :: ext ∧ (∀ d ∈ init, d.isRunend = false) ∧
    r.isRunend = true ∧ ∀ d ∈ ext, d.extension = true

theorem Shifting.removeSlot_eq (h : Shifting qf runs b) {c1 c2 : List Cell} {a : Cell}
    {wasRunend : Bool} (hr : runs b = c1 ++ a :: c2) (hrest : Rest wasRunend (a :: c2)) :
    ∃ qf', removeSlot wasRunend b (start (lens runs) b + c1.length) qf = some qf' ∧
      qf.SameFrame qf' ∧ qf'.view.occupied = qf.view.occupied ∧
      qf'.view.offset = qf.view.offset ∧ Shifting qf' (Function.update runs b (c1 ++ c2)) b := by
  have hg := lens_remove hr
  obtain ⟨len, hlen⟩ : ∃ L, L = lens (Function.update runs b (c1 ++ c2)) := ⟨_, rfl⟩
  obtain ⟨x, hx⟩ : ∃ x, x = start (lens runs) b + c1.length := ⟨_, rfl⟩
  rw [← hlen] at hg
  rw [← hx]
  have hlb : len b = c1.length + c2.length := by
    rw [hlen, lens_update_self, List.length_append]
  have hrb : lens runs b = c1.length + (c2.length + 1) := by simp [lens, hr]
  have hst : start (lens runs) b = start len b := by rw [hg, start_grow_of_le (Nat.le_refl b)]
  have hout : ∀ c, qf.metadata.nslots ≤ c → len c = 0 := by
    intro c hc
    have hz := h.outside c hc
    have hne : c ≠ b := by
      rintro rfl
      omega
    rwa [hg, grow_of_ne _ hne] at hz
  obtain ⟨e, he, _⟩ := exists_firstUnused hout x
  have hle := h.end_le (c := b) (by omega)
  have hlast : ∃ s, (if wasRunend then some x else stepToRunend qf qf.fuel x) = some s ∧
      skipTail qf s = some (start (lens runs) b + lens runs b - 1) := by
    have hend : start (lens runs) b + lens runs b - 1 + 1 =
        start (lens runs) b + lens runs b := by omega
    have hstop := h.extension_end (Nat.le_refl b) (by omega)
    cases wasRunend with
    | true =>
      refine ⟨x, rfl, skipTail_eq (fun s h1 h2 => ?_) (by rw [hend]; exact hstop) (by omega)
        (h.fuel (by omega))⟩
      exact extension_of_tail h.holds hr hrest (by omega) (by omega)
    | false =>
      obtain ⟨init, r, ext, hsplit, hinit, hmark, hext⟩ := hrest
      have hrun : runs b = (c1 ++ init) ++ r :: ext := by rw [hr, hsplit, List.append_assoc]
      have hlen2 : lens runs b = c1.length + (init.length + (ext.length + 1)) := by
        simp [lens, hrun]
      rw [if_neg (by simp)]
      refine ⟨x + init.length, stepToRunend_eq (fun s h1 h2 => ?_) ?_ (by omega) ?_,
        skipTail_eq (fun s h1 h2 => ?_) (by rw [hend]; exact hstop) (by omega)
          (h.fuel (by omega))⟩
      · obtain ⟨i, rfl⟩ := Nat.exists_eq_add_of_le h1
        have hi : i < init.length := by omega
        have hcell := h.holds.cell b (c1.length + i) init[i] (by
          rw [hr, hsplit, List.getElem?_append_right (by omega), Nat.add_sub_cancel_left,
            List.getElem?_append_left hi, List.getElem?_eq_getElem hi])
        have hno := hinit _ (List.getElem_mem hi)
        rw [← hcell, Cell.isRunend, Bool.and_comm, ← Nat.add_assoc, ← hx] at hno
        exact hno
      · have hat := h.holds.at hrun
        rw [List.length_append, ← Nat.add_assoc, ← hx] at hat
        rw [← hat, Cell.isRunend, Bool.and_comm] at hmark
        exact hmark
      · have := h.fuel (s := x + init.length) (by omega)
        omega
      · exact extension_of_tail h.holds hrun hext (by simp only [List.length_append]; omega)
          (by omega)
  obtain ⟨s, hs, htail⟩ := hlast
  have hends : ends (lens runs) (b+1) = start (lens runs) b + lens runs b - 1 + 1 := by
    rw [ends_succ_of_pos (by omega)]
    omega
  have hbs := @le_start (lens runs) b
  have hse : start (lens runs) b + lens runs b - 1 ≤ e := by
    have := end_le_of_unused he.unused (b := b) (by have := he.le; omega)
    omega
  -- the unused slot was the last one of the cluster
  have hex : e < qf.xnslots := by
    have hfit := h.fits
    have hb : b < qf.metadata.nslots := by
      by_contra hc
      have := h.outside b (by omega)
      omega
    have hgrow := @ends_grow len b x e qf.metadata.nslots (by omega) (by omega) he hb
    rw [← hg] at hgrow
    by_cases hxe : x = e
    · omega
    · obtain ⟨d, ho⟩ := he.used (e-1) (by have := he.le; omega) (by have := he.le; omega)
      have := ho.lt_of_zero hout
      split at hgrow <;> omega
  have hfuel := h.fuel hex
  have hcall := h.clusterEnd_eq hg (x := x) (by omega) (by omega) he (Nat.le_refl b) hends
    (by omega) (by omega) hse (Nat.lt_add_left _ hfuel)
  obtain ⟨q1, h1, hf1, hv1⟩ := @moveSlotsBack_eq qf x (e - x) (by have := he.le; omega)
  have hx1 : q1.xnslots = qf.xnslots := congrArg QFMetadata.xnslots hf1.metadata
  have hset : setSlot q1 e 0 = some (putSlot q1 e 0) := by
    unfold setSlot
    rw [if_pos (by omega)]
  have hview : (clearExtension (clearRunend (putSlot q1 e 0) e) e).view =
      ⟨shiftOut qf.view.cell x e ⟨0, false, false⟩, qf.view.occupied, qf.view.offset⟩ := by
    rw [view_clearExtension, View.setExtension, view_clearRunend, View.setRunend, view_putSlot,
      View.setValue, hv1]
    refine View.ext (funext fun s => ?_) rfl rfl
    have := he.le
    by_cases hs : s = e
    · subst hs
      simp [shiftOut]
    · by_cases hin : x ≤ s ∧ s < e
      · simp only [Function.update_self, Function.update_of_ne hs, shiftOut]
        rw [if_pos (by omega), if_pos hin]
      · simp only [Function.update_self, Function.update_of_ne hs, shiftOut]
        rw [if_neg (by omega), if_neg hin, if_neg hs]
  have hf2 : qf.SameFrame (clearExtension (clearRunend (putSlot q1 e 0) e) e) :=
    hf1.trans ⟨rfl, rfl, rfl⟩
  refine ⟨_, ?_, hf2, by rw [hview], by rw [hview], ?_⟩
  · unfold removeSlot
    cases wasRunend with
    | true =>
      rw [if_pos rfl, Option.some.injEq] at hs
      subst hs
      simp only [htail, hcall, h1, hset, Option.bind_eq_bind, Option.bind_some, if_true]
    | false =>
      rw [if_neg (by simp)] at hs
      simp only [hs, htail, hcall, h1, hset, Option.bind_eq_bind, Option.bind_some,
        Bool.false_eq_true, if_false]
  · have hns : (clearExtension (clearRunend (putSlot q1 e 0) e) e).metadata = qf.metadata :=
      hf2.metadata
    have hlt : ∀ c, b < c → lens (Function.update runs b (c1 ++ c2)) c = lens runs c :=
      fun c hc => lens_update_of_ne runs _ (by omega)
    constructor
    · rw [hview]
      rw [hlen] at he
      exact h.holds.remove hr hx he ⟨rfl, rfl⟩
    · intro c hc
      rw [hview, hlt c hc]
      exact h.occupied c hc
    · intro c hc hpos
      rw [hlt c hc] at hpos
      rw [Function.update_of_ne (by omega)]
      exact h.shape c hc hpos
    · rw [hns, ← hlen]
      exact hout
    · unfold QF.xnslots
      rw [hns, ← hlen]
      have hfit := h.fits
      rw [hg] at hfit
      have hb : b < qf.metadata.nslots := by
        by_contra hc
        have := h.outside b (by omega)
        omega
      rw [@ends_grow len b x e qf.metadata.nslots (by omega) (by omega) he hb] at hfit
      unfold QF.xnslots at hfit
      split at hfit <;> omega
    · unfold QF.xnslots
      rw [hns]
      exact h.blocks

theorem Shifting.removeSlots_eq (h : Shifting qf runs b) {c1 ds c2 : List Cell} (wasRunend : Bool)
    (hr : runs b = c1 ++ (ds ++ c2))
    (hrest : ∀ d1 a d2, ds = d1 ++ a :: d2 → Rest wasRunend (a :: (d2 ++ c2))) :
    ∃ qf', removeSlots wasRunend b (start (lens runs) b + c1.length) ds.length qf = some qf' ∧
      qf.SameFrame qf' ∧ qf'.view.occupied = qf.view.occupied ∧
      qf'.view.offset = qf.view.offset ∧ Shifting qf' (Function.update runs b (c1 ++ c2)) b := by
  induction ds generalizing qf runs with
  | nil =>
    refine ⟨qf, rfl, QF.SameFrame.refl qf, rfl, rfl, ?_⟩
    rw [List.nil_append] at hr
    rw [← hr, Function.update_eq_self]
    exact h
  | cons a ds ih =>
    obtain ⟨q1, h1, hf1, ho1, hoff1, hsh1⟩ := h.removeSlot_eq hr (hrest [] a ds rfl)
    obtain ⟨q2, h2, hf2, ho2, hoff2, hsh2⟩ := ih hsh1 (Function.update_self ..)
      fun d1 x d2 hd => hrest (a :: d1) x d2 (by rw [hd]; rfl)
    rw [start_lens_update] at h2
    rw [Function.update_idem] at hsh2
    refine ⟨q2, ?_, hf1.trans hf2, ho2.trans ho1, hoff2.trans hoff1, hsh2⟩
    rw [List.length_cons, removeSlots, h1]
    exact h2

theorem skipBack_eq {i n : Nat} (h : ∀ s, n < s → s ≤ i → extensionBit qf s = true)
    (hn : extensionBit qf n = false) (hin : n ≤ i) : skipBack qf i = some n := by
  induction i with
  | zero =>
    obtain rfl : n = 0 := by omega
    simp [skipBack, isExtensionOrCounter, hn]
  | succ i ih =>
    unfold skipBack isExtensionOrCounter
    by_cases hi : n = i + 1
    · subst hi
      rw [hn]
      rfl
    · rw [if_pos (h _ (by omega) (Nat.le_refl _))]
      exact ih (fun s h1 h2 => h s h1 (by omega)) (by omega)

/-! The offsets. -/

theorem Row.setOffset (h : Row qf runs) (j v : Nat) : Row (setOffset qf j v) runs := by
  refine ⟨?_, ?_, h.shape, h.outside, h.fits, h.blocks⟩
  · rw [view_setOffset]
    exact h.holds
  · rw [view_setOffset]
    exact h.occupied

theorem Row.repairOffsets_succ (h : Row qf runs) {j : Nat} (hto : OffsetsTo qf runs j)
    (fuel : Nat) :
    repairOffsets (fuel+1) j qf = if j + 1 ≥ qf.metadata.nblocks then none
      else if qf.view.offset (j+1) = spill (lens runs) (64*(j+1)) then some qf
      else repairOffsets fuel (j+1)
        (AdaptiveQF.setOffset qf (j+1) (spill (lens runs) (64*(j+1)) % 256)) := by
  have hblock : (64*j + 63) / 64 = j := by omega
  have hend := h.runEnd_eq_of_offsetsTo (b := 64*j + 63) (by rw [hblock]; exact hto)
  have hst := @start_eq_add_spill (lens runs) (64*(j+1))
  have h64 : 64*j + 63 + 1 = 64*(j+1) := by omega
  rw [h64, hst] at hend
  obtain ⟨n, hn⟩ : ∃ n, n = spill (lens runs) (64*(j+1)) := ⟨_, rfl⟩
  rw [← hn] at hend ⊢
  -- what is compared with the offset of the next block is its spill
  have hval : (if (64*(j+1) + n - 1) / 64 = j then 0 else 64*(j+1) + n - 1 - (64*j + 63)) = n := by
    split <;> omega
  rw [repairOffsets, show qf.view.offset (j+1) = (getBlock qf (j+1)).offset from rfl]
  simp only [hend, Option.bind_eq_bind, Option.bind_some, hval]

theorem Row.repairOffsets_eq (h : Row qf runs) (old : Nat → Nat) (j J fuel : Nat)
    (hle : ∀ c, lens runs c ≤ old c) (hj : j < J) (hJ : J < qf.metadata.nblocks)
    (hsame : ∀ c, 64*(j+1) ≤ c → lens runs c = old c) (hto : OffsetsTo qf runs j)
    (hoff : ∀ i, j < i → qf.view.offset i = min 255 (spill old (64*i)))
    (heq : spill (lens runs) (64*J) = spill old (64*J)) (hfar : spill old (64*J) ≤ 255)
    (hsmall : ∀ i, j < i → i < J → spill (lens runs) (64*i) < 255 ∨
      255 < spill (lens runs) (64*i) ∧ spill (lens runs) (64*i) % 256 = 255)
    (hf : J ≤ j + fuel) :
    ∃ qf', repairOffsets fuel j qf = some qf' ∧ qf.SameFrame qf' ∧
      qf'.view.cell = qf.view.cell ∧ qf'.view.occupied = qf.view.occupied ∧ Offsets qf' runs := by
  induction fuel generalizing j qf with
  | zero => omega
  | succ fuel ih =>
    obtain ⟨n, hn⟩ : ∃ n, n = spill (lens runs) (64*(j+1)) := ⟨_, rfl⟩
    have hmono := @spill_le_of_le old (lens runs) hle (64*(j+1))
    have hnext : n = spill old (64*(j+1)) ∧ n ≤ 255 ∨ n < 255 ∨ 255 < n ∧ n % 256 = 255 := by
      by_cases hjJ : j + 1 = J
      · subst hjJ
        omega
      · have := hsmall (j+1) (by omega) (by omega)
        omega
    rw [h.repairOffsets_succ hto, if_neg (by omega), hoff (j+1) (by omega), ← hn]
    rw [← hn] at hmono
    by_cases hdone : n = min 255 (spill old (64*(j+1)))
    · rw [if_pos hdone.symm]
      have hsp : n = spill old (64*(j+1)) := by omega
      refine ⟨qf, rfl, QF.SameFrame.refl qf, rfl, rfl, fun i => ?_⟩
      by_cases hi : i ≤ j
      · exact hto i hi
      · rw [hoff i (by omega), spill_congr (hn.symm.trans hsp) hsame (by omega)]
    · have hjJ : j + 1 ≠ J := by
        rintro rfl
        omega
      rw [if_neg (Ne.symm hdone)]
      have hview := view_setOffset qf (j+1) (n % 256)
      have hset : ∀ i, (AdaptiveQF.setOffset qf (j+1) (n % 256)).view.offset i =
          if i = j + 1 then n % 256 else qf.view.offset i := by
        intro i
        rw [hview]
        exact Function.update_apply ..
      obtain ⟨q2, h2, hf2, hc2, ho2, hoff2⟩ := ih (h.setOffset (j+1) (n % 256)) (j := j+1)
        (by omega) hJ (fun c hc => hsame c (by omega))
        (fun i hi => by
          rw [hset]
          by_cases hij : i = j + 1
          · rw [if_pos hij, hij, ← hn]
            omega
          · rw [if_neg hij]
            exact hto i (by omega))
        (fun i hi => by
          rw [hset, if_neg (by omega)]
          exact hoff i (by omega))
        (fun i h1 h2 => hsmall i (by omega) h2) (by omega)
      have hf1 : qf.SameFrame (AdaptiveQF.setOffset qf (j+1) (n % 256)) := ⟨rfl, rfl, rfl⟩
      refine ⟨q2, h2, hf1.trans hf2, ?_, ?_, hoff2⟩
      · rw [hc2, hview]
        rfl
      · rw [ho2, hview]
        rfl

end

/-! An item less. -/

/-- The offsets behind bucket `b` can be brought up to date: up to a block of the array into which
the buckets in front of it reach as far as before, none reaches both before and after the removal
further than an offset of 8 bits tells. -/
def OffsetsRepairable (qf : QF) (b : Nat) (old new : Nat → Nat) : Prop :=
  ∃ J, b / 64 < J ∧ J < qf.metadata.nblocks ∧ spill new (64*J) = spill old (64*J) ∧
    ∀ i, b / 64 < i → i ≤ J → spill old (64*i) ≤ 255 ∨ spill new (64*i) < 255

instance (qf : QF) (b : Nat) (old new : Nat → Nat) : Decidable (OffsetsRepairable qf b old new) :=
  decidable_of_iff (∃ J < qf.metadata.nblocks, b / 64 < J ∧ spill new (64*J) = spill old (64*J) ∧
      ∀ i ≤ J, b / 64 < i → spill old (64*i) ≤ 255 ∨ spill new (64*i) < 255)
    ⟨fun ⟨J, h1, h2, h3, h4⟩ => ⟨J, h2, h1, h3, fun i hb hi => h4 i hi hb⟩,
      fun ⟨J, h1, h2, h3, h4⟩ => ⟨J, h2, h1, h3, fun i hi hb => h4 i hb hi⟩⟩

/-- The loop gets the offsets behind bucket `b` right: up to a block of the array into which the
buckets in front of it reach as far as before, and no further than an offset tells, the 8 bits it
stores are those of the spill, capped at 255, and it does not stop at 255 for more. -/
def OffsetsReach (qf : QF) (b : Nat) (old new : Nat → Nat) : Prop :=
  ∃ J, b / 64 < J ∧ J < qf.metadata.nblocks ∧ spill new (64*J) = spill old (64*J) ∧
    spill old (64*J) ≤ 255 ∧ ∀ i, b / 64 < i → i < J →
      spill new (64*i) < 255 ∨ 255 < spill new (64*i) ∧ spill new (64*i) % 256 = 255

instance (qf : QF) (b : Nat) (old new : Nat → Nat) : Decidable (OffsetsReach qf b old new) :=
  decidable_of_iff (∃ J < qf.metadata.nblocks, b / 64 < J ∧ spill new (64*J) = spill old (64*J) ∧
      spill old (64*J) ≤ 255 ∧ ∀ i < J, b / 64 < i →
        spill new (64*i) < 255 ∨ 255 < spill new (64*i) ∧ spill new (64*i) % 256 = 255)
    ⟨fun ⟨J, h1, h2, h3, h4, h5⟩ => ⟨J, h2, h1, h3, h4, fun i hb hi => h5 i hi hb⟩,
      fun ⟨J, h1, h2, h3, h4, h5⟩ => ⟨J, h2, h1, h3, h4, fun i hi hb => h5 i hb hi⟩⟩

section
variable {qf : QF} {A : Contents} {b : Nat} {l1 l2 : List Item} {it : Item}

theorem OffsetsRepairable.reach {old new : Nat → Nat} (h : OffsetsRepairable qf b old new)
    (hle : ∀ c, new c ≤ old c) : OffsetsReach qf b old new := by
  obtain ⟨J, hJ1, hJ2, hJ3, hJ4⟩ := h
  have hex : ∃ i, b / 64 < i ∧ spill new (64*i) = spill old (64*i) := ⟨J, hJ1, hJ3⟩
  obtain ⟨I, hI⟩ : ∃ I, I = Nat.find hex := ⟨_, rfl⟩
  obtain ⟨hI1, hI2⟩ := Nat.find_spec hex
  rw [← hI] at hI1 hI2
  have hIJ : I ≤ J := hI ▸ Nat.find_min' hex ⟨hJ1, hJ3⟩
  have hlast := hJ4 I hI1 hIJ
  refine ⟨I, hI1, by omega, hI2, by omega, fun i h1 h2 => .inl ?_⟩
  have hmono := spill_le_of_le hle (64*i)
  have hne : ¬ (b / 64 < i ∧ spill new (64*i) = spill old (64*i)) := Nat.find_min hex (hI ▸ h2)
  have hnext := hJ4 i h1 (by omega)
  have : spill new (64*i) ≠ spill old (64*i) := fun he => hne ⟨h1, he⟩
  omega

/-- The row of a layout with the occupied bit and the run of one bucket changed. -/
theorem Layout.row_of_shifting (h : Layout qf A) {qf' : QF} {l : List Item}
    (hs : Shifting qf' (Function.update A.runs b (runCells l)) b)
    (ho : qf'.view.occupied = Function.update qf.view.occupied b (decide (l ≠ []))) :
    Row qf' (Function.update A.runs b (runCells l)) := by
  refine ⟨hs.holds, fun c => ?_, fun c hc => ?_, hs.outside, hs.fits, hs.blocks⟩
  · rw [ho]
    by_cases hcb : c = b
    · subst hcb
      rw [Function.update_self, lens_update_self, length_runCells]
      cases l with
      | nil => simp
      | cons x l =>
        have := x.len_pos
        simp only [ne_eq, reduceCtorEq, not_false_eq_true, decide_true, itemsLen_cons]
        rw [decide_eq_true (by omega)]
    · rw [Function.update_of_ne hcb, lens_update_of_ne _ _ hcb]
      exact h.row.occupied c
  · by_cases hcb : c = b
    · subst hcb
      rw [Function.update_self]
      apply runCells_shape
      rintro rfl
      rw [lens_update_self] at hc
      exact absurd hc (Nat.lt_irrefl 0)
    · rw [lens_update_of_ne _ _ hcb] at hc
      rw [Function.update_of_ne hcb]
      exact h.row.shape c hc

theorem Layout.newRunend_eq (h : Layout qf A) {y : Item} (hb : A b = (l1 ++ [y]) ++ [it]) :
    ∃ qf', newRunend qf (A.pos b (l1 ++ [y])) = some qf' ∧ qf.SameFrame qf' ∧
      qf'.view.occupied = qf.view.occupied ∧ qf'.view.offset = qf.view.offset ∧
      Shifting qf' (Function.update A.runs b
        (runCells (l1 ++ [y]) ++ (it.cells true ++ []))) b := by
  have hb2 : A b = l1 ++ y :: [it] := by simp [hb]
  have hat := h.itemAt hb2
  have hpos : A.pos b (l1 ++ [y]) = A.pos b l1 + y.len := by simp [Contents.pos, Nat.add_assoc]
  have hlen := y.len_pos
  have hbase := hat.base
  have hskip : skipBack qf (A.pos b (l1 ++ [y]) - 1) = some (A.pos b l1) := by
    rw [hpos]
    exact skipBack_eq (fun s h1 h2 => hat.extension_of_lt h1 (by omega))
      (congrArg Cell.extension hbase) (by omega)
  have hrun : A.runs b = initCells l1 ++ y.baseCell false :: (y.tail ++ it.cells true) := by
    rw [Contents.runs, hb2, runCells_split]
    simp [Item.cells, runCells]
  have hnew : runCells (l1 ++ [y]) ++ (it.cells true ++ []) =
      initCells l1 ++ y.baseCell true :: (y.tail ++ it.cells true) := by
    rw [runCells_split]
    simp [Item.cells, runCells]
  have hview := view_orRunend qf (A.pos b l1)
  have hfr : qf.SameFrame (orRunend qf (A.pos b l1)) := ⟨rfl, rfl, rfl⟩
  obtain ⟨q, hq⟩ : ∃ q, q = orRunend qf (A.pos b l1) := ⟨_, rfl⟩
  rw [← hq] at hview hfr
  have hcells : q.view.cell = Function.update qf.view.cell (A.pos b l1) (y.baseCell true) := by
    rw [hview, View.setRunend, hbase]
    rfl
  have hlens : RunLayout.lens (Function.update A.runs b
      (runCells (l1 ++ [y]) ++ (it.cells true ++ []))) = RunLayout.lens A.runs :=
    lens_update_same (by rw [hnew, hrun]; simp)
  have hmod := h.holds.modify hrun (y.baseCell true)
  rw [Contents.lens_runs, length_initCells] at hmod
  have hrow := h.row
  have hm := hfr.metadata
  refine ⟨q, by rw [newRunend, if_neg (by omega), hskip, hq]; rfl, hfr, by rw [hview]; rfl,
    by rw [hview]; rfl, ?_⟩
  refine ⟨?_, fun c hc => ?_, fun c hc hpos => ?_, ?_, ?_, ?_⟩
  · rw [hcells, hnew]
    exact hmod
  · rw [hview, hlens]
    exact hrow.occupied c
  · rw [hlens] at hpos
    rw [Function.update_of_ne (by omega)]
    exact hrow.shape c hpos
  · rw [hm, hlens]
    exact hrow.outside
  · unfold QF.xnslots
    rw [hm, hlens]
    exact hrow.fits
  · unfold QF.xnslots
    rw [hm]
    exact hrow.blocks

theorem rest_of_cells {c2 d1 d2 : List Cell} {a : Cell} (hd : it.cells true = d1 ++ a :: d2)
    (hc : c2 = []) : Rest true (a :: (d2 ++ c2)) := by
  subst hc
  intro d hd2
  rw [List.append_nil, List.tail_cons] at hd2
  apply it.extension_of_mem_tail
  cases d1 with
  | nil =>
    rw [Item.cells, List.nil_append, List.cons.injEq] at hd
    rw [hd.2]
    exact hd2
  | cons x d1 =>
    rw [Item.cells, List.cons_append, List.cons.injEq] at hd
    rw [hd.2]
    simp [hd2]

theorem rest_of_follower {d1 d2 : List Cell} {a : Cell} (hd : it.cells false = d1 ++ a :: d2)
    (hl : l2 ≠ []) : Rest false (a :: (d2 ++ runCells l2)) := by
  obtain ⟨init, r, ext, hsplit, hmark, hinit, hext⟩ := (runCells_shape hl).runend
  refine ⟨a :: d2 ++ init, r, ext, by rw [hsplit]; simp, fun d hd2 => ?_, hmark, hext⟩
  rcases List.mem_append.mp hd2 with hd2 | hd2
  · have hmem : d ∈ initCells [it] := by
      rw [initCells, List.flatMap_singleton, hd]
      exact List.mem_append_right _ hd2
    exact isRunend_of_mem_initCells hmem
  · exact hinit d hd2

/-- The slots of an item are gone, and the bucket is marked empty if there was no other. -/
theorem Layout.removeCells (h : Layout qf A) (hb : A b = l1 ++ it :: l2) :
    ∃ q0 qf', (if isRunend qf (A.pos b l1) && !(l1.isEmpty && l2.isEmpty) then
        newRunend qf (A.pos b l1) else some qf) = some q0 ∧
      removeSlots (isRunend qf (A.pos b l1)) b (A.pos b l1) it.len q0 = some qf' ∧
      qf.SameFrame qf' ∧ qf'.view.occupied = qf.view.occupied ∧
      qf'.view.offset = qf.view.offset ∧
      Shifting qf' (Function.update A.runs b (runCells (l1 ++ l2))) b := by
  have hat := h.itemAt hb
  rw [hat.isRunend_eq]
  have hlen : ∀ last, it.len = (it.cells last).length := fun last => (it.length_cells last).symm
  have hlens := Contents.lens_runs A
  by_cases hl2 : l2 = []
  · subst hl2
    have hrest : ∀ d1 a d2, it.cells true = d1 ++ a :: d2 → Rest true (a :: (d2 ++ [])) :=
      fun d1 a d2 hd => rest_of_cells hd rfl
    rcases List.eq_nil_or_concat l1 with rfl | ⟨l1, y, rfl⟩
    · have hrun : A.runs b = [] ++ (it.cells true ++ []) := by
        rw [Contents.runs, hb, runCells_split]
        simp [runCells, initCells]
      obtain ⟨q1, h1, hf1, ho1, hoff1, hs1⟩ := (h.row.shifting b).removeSlots_eq true hrun hrest
      rw [hlens] at h1
      refine ⟨qf, q1, by simp, ?_, hf1, ho1, hoff1, hs1⟩
      rw [hlen true]
      exact h1
    · rw [List.concat_eq_append] at hb ⊢
      obtain ⟨q0, h0, hf0, ho0, hoff0, hs0⟩ := h.newRunend_eq hb
      obtain ⟨q1, h1, hf1, ho1, hoff1, hs1⟩ :=
        hs0.removeSlots_eq true (Function.update_self ..) hrest
      rw [start_lens_update, hlens, length_runCells] at h1
      rw [Function.update_idem] at hs1
      refine ⟨q0, q1, by simp [h0], ?_, hf0.trans hf1, ho1.trans ho0, hoff1.trans hoff0, ?_⟩
      · rw [hlen true]
        exact h1
      · rw [List.append_nil] at hs1 ⊢
        exact hs1
  · have hempty : l2.isEmpty = false := by simpa using hl2
    have hrun : A.runs b = initCells l1 ++ (it.cells false ++ runCells l2) := by
      rw [Contents.runs, hb, runCells_split, List.append_assoc, hempty]
    obtain ⟨q1, h1, hf1, ho1, hoff1, hs1⟩ := (h.row.shifting b).removeSlots_eq false hrun
      fun d1 a d2 hd => rest_of_follower hd hl2
    rw [hlens, length_initCells] at h1
    refine ⟨qf, q1, by simp [hempty], ?_, hf1, ho1, hoff1, ?_⟩
    · rw [hempty, hlen false]
      exact h1
    · rw [runCells_append l1 l2 hl2]
      exact hs1

theorem Contents.lens_remove_le (hb : A b = l1 ++ it :: l2) (c : Nat) :
    Contents.lens (Function.update A b (l1 ++ l2)) c ≤ A.lens c := by
  rw [Contents.lens_update]
  by_cases hcb : c = b
  · subst hcb
    rw [Function.update_self, Contents.lens, hb]
    simp only [itemsLen_append, itemsLen_cons]
    omega
  · rw [Function.update_of_ne hcb]

/-- When the loop over the offsets begins, they are the only thing that is not yet right. -/
theorem Layout.removeReplaceSlots_repair (h : Layout qf A) (hb : A b = l1 ++ it :: l2) :
    ∃ q, removeReplaceSlots qf (l1.isEmpty && l2.isEmpty) b (A.pos b l1) it.len =
        repairOffsets qf.metadata.nblocks (b / 64) q ∧
      qf.SameFrame q ∧ Row q (Function.update A.runs b (runCells (l1 ++ l2))) ∧
      q.view.occupied = Function.update qf.view.occupied b (decide (l1 ++ l2 ≠ [])) ∧
      ∀ i, q.view.offset i = min 255 (spill A.lens (64*i)) := by
  obtain ⟨q0, q1, h0, h1, hf1, ho1, hoff1, hs1⟩ := h.removeCells hb
  obtain ⟨only, honly⟩ : ∃ o, o = (l1.isEmpty && l2.isEmpty) := ⟨_, rfl⟩
  obtain ⟨q2, hq2⟩ : ∃ q, q = (if only then clearOccupied q1 b else q1) := ⟨_, rfl⟩
  have hf2 : q1.SameFrame q2 := by
    rw [hq2]
    split <;> exact ⟨rfl, rfl, rfl⟩
  have hview : q2.view = ⟨q1.view.cell,
      Function.update q1.view.occupied b (decide (l1 ++ l2 ≠ [])), q1.view.offset⟩ := by
    rw [hq2]
    by_cases ho : only = true
    · have hnil : l1 = [] ∧ l2 = [] := by simpa [honly] using ho
      rw [if_pos ho, view_clearOccupied, View.setOccupied]
      simp [hnil.1, hnil.2]
    · have hne : l1 ++ l2 ≠ [] := by
        rintro hc
        obtain ⟨rfl, rfl⟩ := List.append_eq_nil_iff.mp hc
        exact ho honly
      rw [if_neg ho, decide_eq_true hne, ho1, h.occupied_self (by simp [hb]), ← ho1]
  have hm2 := hf2.metadata
  have hs2 : Shifting q2 (Function.update A.runs b (runCells (l1 ++ l2))) b := by
    refine ⟨?_, fun c hc => ?_, hs1.shape, ?_, ?_, ?_⟩
    · rw [hview]
      exact hs1.holds
    · rw [hview]
      simp only
      rw [Function.update_of_ne (by omega)]
      exact hs1.occupied c hc
    · rw [hm2]
      exact hs1.outside
    · unfold QF.xnslots
      rw [hm2]
      exact hs1.fits
    · unfold QF.xnslots
      rw [hm2]
      exact hs1.blocks
  refine ⟨q2, ?_, hf1.trans hf2, h.row_of_shifting hs2 (by rw [hview, ho1]), by rw [hview, ho1],
    fun i => ?_⟩
  · have hlen := it.len_pos
    have hnb : q2.metadata.nblocks = qf.metadata.nblocks := by rw [(hf1.trans hf2).metadata]
    rw [← honly] at h0 ⊢
    unfold removeReplaceSlots
    simp only [h0, h1, Option.bind_eq_bind, Option.bind_some, ← hq2, if_pos hlen, gt_iff_lt, hnb]
  · rw [hview, hoff1, h.offsets i, Contents.lens_runs]

theorem Layout.removeReplaceSlots_eq (h : Layout qf A) (hb : A b = l1 ++ it :: l2)
    (hreach : OffsetsReach qf b A.lens (Contents.lens (Function.update A b (l1 ++ l2)))) :
    ∃ qf', removeReplaceSlots qf (l1.isEmpty && l2.isEmpty) b (A.pos b l1) it.len = some qf' ∧
      qf.SameFrame qf' ∧ Layout qf' (Function.update A b (l1 ++ l2)) := by
  obtain ⟨q, hcall, hf, hrow, hocc, hoff⟩ := h.removeReplaceSlots_repair hb
  have hlens : RunLayout.lens (Function.update A.runs b (runCells (l1 ++ l2))) =
      Contents.lens (Function.update A b (l1 ++ l2)) := by
    rw [← Contents.runs_update, Contents.lens_runs]
  obtain ⟨J, hJ1, hJ2, hJ3, hJ4, hJ5⟩ := hreach
  have hbefore : ∀ c, c ≠ b →
      RunLayout.lens (Function.update A.runs b (runCells (l1 ++ l2))) c = A.lens c := by
    intro c hc
    rw [lens_update_of_ne _ _ hc, Contents.lens_runs]
  obtain ⟨q3, h3, hf3, hc3, ho3, hoff3⟩ := hrow.repairOffsets_eq A.lens (b / 64) J
    qf.metadata.nblocks (fun c => by rw [hlens]; exact Contents.lens_remove_le hb c) hJ1
    (by rw [hf.metadata]; exact hJ2) (fun c hc => hbefore c (by omega))
    (fun i hi => by rw [hoff, spill_congr_of_lt fun c hc => hbefore c (by omega)])
    (fun i _ => hoff i) (by rw [hlens]; exact hJ3) hJ4 (by rw [hlens]; exact hJ5) (by omega)
  have hfr := hf.trans hf3
  refine ⟨q3, hcall.trans h3, hfr, ?_⟩
  apply h.replace (x := qf.metadata.nelts) (y := qf.metadata.ndistinctElts)
    (z := qf.metadata.noccupiedSlots) hfr (h.bucket_lt hb)
  · rw [hc3]
    exact hrow.holds
  · rw [ho3, hocc]
  · exact hoff3
  · have hfit := hrow.fits
    rw [hlens] at hfit
    unfold QF.xnslots at hfit
    rwa [hf.metadata] at hfit
  · intro x hx
    rcases List.mem_append.mp hx with hx | hx
    · exact h.bounded b x (by simp [hb, hx])
    · exact h.bounded b x (by simp [hb, hx])
  · have hsort := h.sorted b
    rw [hb] at hsort
    exact hsort.sublist (List.Sublist.append_left (List.sublist_cons_self it l2) l1)

/-! The search. -/

/-- The slots behind the base slot are looked at in steps of two, so there has to be an even number
of them. -/
theorem skipDouble_eq {p n fuel : Nat} (h : ∀ s, p < s → s < p + 2*n + 1 → extensionBit qf s = true)
    (hn : extensionBit qf (p + 2*n + 1) = false) (hf : n < fuel) :
    skipDouble qf fuel p = some (p + 2*n + 1) := by
  induction n generalizing p fuel with
  | zero =>
    obtain ⟨fuel, rfl⟩ : ∃ k, fuel = k + 1 := ⟨fuel - 1, by omega⟩
    rw [Nat.mul_zero, Nat.add_zero] at hn ⊢
    unfold skipDouble isExtensionOrCounter
    rw [hn]
    rfl
  | succ n ih =>
    obtain ⟨fuel, rfl⟩ : ∃ k, fuel = k + 1 := ⟨fuel - 1, by omega⟩
    have hp : p + 2*(n+1) + 1 = p + 2 + 2*n + 1 := by omega
    rw [hp] at h hn ⊢
    unfold skipDouble isExtensionOrCounter
    rw [if_pos (h (p+1) (by omega) (by omega))]
    exact ih (fun s h1 h2 => h s (by omega) h2) hn (by omega)

theorem ItemAt.skipDouble_eq {p : Nat} {last : Bool} (h : ItemAt qf p it last)
    (hblocks : qf.xnslots ≤ 64 * qf.metadata.nblocks) (hodd : it.len % 2 = 1) :
    skipDouble qf qf.fuel p = some (p + it.len) := by
  have hfit := h.fits
  have hlen := it.len_pos
  have hp : p + it.len = p + 2*((it.len-1)/2) + 1 := by omega
  have hstop : extensionBit qf (p + it.len) = false := h.stop
  rw [hp] at hstop ⊢
  apply AdaptiveQF.skipDouble_eq (fun s h1 h2 => h.extension_of_lt h1 (by omega)) hstop
  unfold QF.fuel
  omega

def PassesIn (m : QFMetadata) (h : Nat) (l : List Item) : Prop :=
  ∀ k1 x k2, l = k1 ++ x :: k2 → k2 ≠ [] → (∀ y ∈ k1, ¬ y.Matches m h) → x.rem ≠ m.remainder h →
    x.len % 2 = 1

def Passes (m : QFMetadata) (A : Contents) (h : Nat) : Prop := PassesIn m h (A (m.bucket h))

instance (m : QFMetadata) (h : Nat) (l : List Item) : Decidable (PassesIn m h l) :=
  inferInstanceAs (Decidable (∀ _ _ _, _ → _))

instance (m : QFMetadata) (A : Contents) (h : Nat) : Decidable (Passes m A h) :=
  inferInstanceAs (Decidable (PassesIn _ _ _))

theorem PassesIn.tail {m : QFMetadata} {h : Nat} {l : List Item} (hp : PassesIn m h (it :: l))
    (hm : ¬ it.Matches m h) : PassesIn m h l := by
  intro k1 x k2 hs hne hk
  apply hp (it :: k1) x k2 (by rw [hs]; rfl) hne
  intro y hy
  rcases List.mem_cons.mp hy with rfl | hy
  · exact hm
  · exact hk y hy

inductive RemoveScanned (qf : QF) (A : Contents) (b hash : Nat) :
    List Item → List Item → RemoveScan → Prop
  | found {l k j : List Item} {x : Item} (hm : x.Matches qf.metadata hash)
      (h1 : ∀ y ∈ k, ¬ y.Matches qf.metadata hash) :
      RemoveScanned qf A b hash l (k ++ x :: j)
        ⟨some (A.pos b (l ++ k)), some (x.info qf.bits)⟩
  | absent {l k : List Item} (last : Option SlotInfo)
      (h1 : ∀ y ∈ k, ¬ y.Matches qf.metadata hash) : RemoveScanned qf A b hash l k ⟨none, last⟩

theorem RemoveScanned.cons {hash : Nat} {scan : RemoveScan}
    (h : RemoveScanned qf A b hash (l1 ++ [it]) l2 scan) (hm : ¬ it.Matches qf.metadata hash) :
    RemoveScanned qf A b hash l1 (it :: l2) scan := by
  have hcons : ∀ k : List Item, (∀ y ∈ k, ¬ y.Matches qf.metadata hash) →
      ∀ y ∈ it :: k, ¬ y.Matches qf.metadata hash := by
    intro k hk y hy
    rcases List.mem_cons.mp hy with rfl | hy
    · exact hm
    · exact hk y hy
  cases h with
  | found hmx h1 =>
    rw [List.append_assoc]
    exact .found (k := it :: _) hmx (hcons _ h1)
  | absent last h1 => exact .absent last (hcons _ h1)

theorem WF.removeScan_eq (h : WF qf A) {hash : Nat} (hb : A b = l1 ++ l2) (hne : l2 ≠ [])
    (hn : NearIn qf.metadata hash (A.pos b l1) l2) (hp : PassesIn qf.metadata hash l2) {fuel : Nat}
    (hf : l2.length ≤ fuel) (last : Option SlotInfo) :
    ∃ scan, removeScan qf hash fuel (A.pos b l1) last = some scan ∧
      RemoveScanned qf A b hash l1 l2 scan := by
  induction l2 generalizing l1 fuel last with
  | nil => exact absurd rfl hne
  | cons it l2 ih =>
    obtain ⟨fuel, rfl⟩ : ∃ n, fuel = n + 1 := ⟨fuel - 1, by simp at hf; omega⟩
    have hat := h.itemAt hb
    have hcat : A b = (l1 ++ [it]) ++ l2 := by simp [hb]
    have hmem : it ∈ A b := by simp [hb]
    have hext := h.geometry.hashExtension_iff (h.bounded b it hmem) (h.fingerprint b it hmem) hash
    have hlen : A.pos b l1 + (it.cnt.length + it.ext.length + 1) = A.pos b l1 + it.len := by
      unfold Item.len
      omega
    have hon : ∀ last, l2 ≠ [] → ¬ it.Matches qf.metadata hash →
        ∃ scan, removeScan qf hash fuel (A.pos b l1 + it.len) last = some scan ∧
          RemoveScanned qf A b hash l1 (it :: l2) scan := by
      intro last hl hm
      have hnear := hn.tail hm
      rw [← A.pos_append] at hnear
      obtain ⟨scan, hscan, hres⟩ := ih hcat hl hnear (hp.tail hm) (by simp at hf; omega) last
      rw [A.pos_append] at hscan
      exact ⟨scan, hscan, hres.cons hm⟩
    have hend : ∀ last, l2 = [] → ¬ it.Matches qf.metadata hash →
        RemoveScanned qf A b hash l1 (it :: l2) ⟨none, last⟩ := by
      intro last hl hm
      subst hl
      refine .absent last fun y hy => ?_
      rw [List.mem_singleton.mp hy]
      exact hm
    unfold removeScan
    simp only [hat.getSlot_eq, Option.bind_eq_bind, Option.bind_some, hat.isRunend_eq,
      h.geometry.hashRemainder_eq, hat.getSlotInfo_eq h.row.blocks]
    by_cases hr : it.rem = qf.metadata.remainder hash
    · have hnear := hn [] it l2 rfl hr (by simp)
      rw [itemsLen_nil, Nat.add_zero] at hnear
      rw [if_pos hr, if_pos hnear, Option.bind_some]
      simp only [Item.info, hlen]
      by_cases hm : it.packedExt qf.bits = hashExtension qf hash it.ext.length
      · rw [if_pos hm]
        have hfound : RemoveScanned qf A b hash l1 ([] ++ it :: l2)
            ⟨some (A.pos b (l1 ++ [])), some (it.info qf.bits)⟩ :=
          .found ⟨hr, hext.mp hm.symm⟩ (by simp)
        rw [List.append_nil] at hfound
        exact ⟨_, rfl, hfound⟩
      · have hno : ¬ it.Matches qf.metadata hash := fun hc => hm (hext.mpr hc.2).symm
        rw [if_neg hm]
        by_cases hl : l2 = []
        · rw [if_pos (by simp [hl])]
          exact ⟨_, rfl, hend _ hl hno⟩
        · rw [if_neg (by simpa using hl), if_pos (h.next_lt hb hl)]
          exact hon _ hl hno
    · have hno : ¬ it.Matches qf.metadata hash := fun hc => hr hc.1
      rw [if_neg hr]
      by_cases hl : l2 = []
      · rw [if_pos (by simp [hl])]
        exact ⟨_, rfl, hend _ hl hno⟩
      · have hodd := hp [] it l2 rfl hl (by simp) hr
        rw [if_neg (by simpa using hl), hat.skipDouble_eq h.row.blocks hodd, Option.bind_some,
          if_pos (h.next_lt hb hl)]
        exact hon _ hl hno

/-! The calls. -/

variable {hash : Nat}

theorem WF.removeScan_bucket (h : WF qf A) (hb : A (qf.metadata.bucket hash) ≠ [])
    (hn : Near qf.metadata A hash) (hp : Passes qf.metadata A hash) :
    ∃ scan, removeScan qf hash qf.fuel (start A.lens (qf.metadata.bucket hash)) none = some scan ∧
      RemoveScanned qf A (qf.metadata.bucket hash) hash [] (A (qf.metadata.bucket hash)) scan :=
  h.removeScan_eq (List.nil_append _).symm hb hn hp (h.length_le_fuel _) none

theorem Layout.skipExtensions_start (h : Layout qf A) (hb : A b ≠ []) :
    skipExtensions qf qf.fuel (start A.lens b) = some (start A.lens b) := by
  obtain ⟨it, l, hl⟩ := List.exists_cons_of_ne_nil hb
  have hat := h.itemAt (show A b = [] ++ it :: l from hl)
  have hext : extensionBit qf (start A.lens b) = false := congrArg Cell.extension hat.base
  exact skipExtensions_eq (fun s h1 h2 => by omega) hext (Nat.le_refl _) (by unfold QF.fuel; omega)

theorem WF.removeWork_hit (h : WF qf A) (hn : Near qf.metadata A hash)
    (hp : Passes qf.metadata A hash)
    (hf : FirstMatch qf.metadata hash (A (qf.metadata.bucket hash)) l1 it l2)
    (hreach : OffsetsReach qf (qf.metadata.bucket hash) A.lens
      (Contents.lens (Function.update A (qf.metadata.bucket hash) (l1 ++ l2)))) (out : RemoveOut) :
    ∃ qf', removeWork hash out qf =
        some (((it.len : Int), out.read (some (it.info qf.bits))), qf') ∧
      (qf.setCounts (sub64 qf.metadata.nelts (it.count qf.bits))
        (sub64 qf.metadata.ndistinctElts 1) (sub64 qf.metadata.noccupiedSlots it.len)).SameFrame
          qf' ∧
      Layout qf' (Function.update A (qf.metadata.bucket hash) (l1 ++ l2)) := by
  obtain ⟨b, hbk⟩ : ∃ b, b = qf.metadata.bucket hash := ⟨_, rfl⟩
  have hne : A b ≠ [] := by
    rw [hbk, hf.split]
    simp
  obtain ⟨scan, hscan, hres⟩ := h.removeScan_bucket (by rw [← hbk]; exact hne) hn hp
  rw [← hbk] at hf hreach hscan hres ⊢
  have hat := h.itemAt hf.split
  have hfound : scan = ⟨some (A.pos b l1), some (it.info qf.bits)⟩ := by
    generalize hl : A b = l at hres
    cases hres with
    | @found k j x hm h1 =>
      have hf2 : FirstMatch qf.metadata hash (A b) k x j := ⟨hl, hm, h1⟩
      obtain ⟨rfl, rfl, rfl⟩ := hf.unique hf2
      rfl
    | absent last h1 =>
      rw [← hl, hf.split] at h1
      exact absurd hf.hit (h1 it (by simp))
  obtain ⟨q1, h1, hf1, hlay⟩ := h.removeReplaceSlots_eq hf.split hreach
  have honly : (A.pos b l1 == start A.lens b && isRunend qf (A.pos b l1)) =
      (l1.isEmpty && l2.isEmpty) := by
    rw [hat.isRunend_eq]
    cases l1 with
    | nil => simp [Contents.pos]
    | cons x l1 =>
      have := x.len_pos
      have hgt : A.pos b (x :: l1) ≠ start A.lens b := by
        simp only [Contents.pos, itemsLen_cons]
        omega
      simp [hgt]
  have hlen : it.cnt.length + it.ext.length + 1 = it.len := by
    unfold Item.len
    omega
  refine ⟨q1.setCounts (sub64 q1.metadata.nelts (it.count qf.bits))
    (sub64 q1.metadata.ndistinctElts 1) (sub64 q1.metadata.noccupiedSlots it.len), ?_, ?_,
      hlay.setCounts _ _ _⟩
  swap
  · rw [hf1.metadata]
    exact hf1.setCounts _ _ _
  unfold removeWork
  simp only [h.geometry.hashBucketIndex_eq, ← hbk, h.runStart_eq, h.skipExtensions_start hne,
    Option.bind_eq_bind, Option.bind_some, hscan, hfound, honly, Item.info, hlen, h1]

theorem WF.removeWork_miss (h : WF qf A) (hn : Near qf.metadata A hash)
    (hp : Passes qf.metadata A hash) (hb : A (qf.metadata.bucket hash) ≠ [])
    (hm : ∀ x ∈ A (qf.metadata.bucket hash), ¬ x.Matches qf.metadata hash) (out : RemoveOut) :
    ∃ out', removeWork hash out qf = some ((0, out'), qf) := by
  obtain ⟨scan, hscan, hres⟩ := h.removeScan_bucket hb hn hp
  have habsent : scan.found = none := by
    generalize A (qf.metadata.bucket hash) = l at hm hres
    cases hres with
    | found hx h1 => exact absurd hx (hm _ (by simp))
    | absent last h1 => rfl
  obtain ⟨found, last⟩ := scan
  obtain rfl : found = none := habsent
  refine ⟨out.read last, ?_⟩
  unfold removeWork
  simp only [h.geometry.hashBucketIndex_eq, h.runStart_eq, h.skipExtensions_start hb,
    Option.bind_eq_bind, Option.bind_some, hscan]

theorem WF.qfRemove_hit (h : WF qf A) (hi : qf.Idle) {key flags : Nat}
    (hk : keyToHash qf key flags = hash) (hn : Near qf.metadata A hash)
    (hp : Passes qf.metadata A hash)
    (hf : FirstMatch qf.metadata hash (A (qf.metadata.bucket hash)) l1 it l2)
    (hreach : OffsetsReach qf (qf.metadata.bucket hash) A.lens
      (Contents.lens (Function.update A (qf.metadata.bucket hash) (l1 ++ l2)))) (out : RemoveOut) :
    ∃ out' qf', qfRemove qf key out flags = some (((it.len : Int), out'), qf') ∧
      (qf.setCounts (sub64 qf.metadata.nelts (it.count qf.bits))
        (sub64 qf.metadata.ndistinctElts 1) (sub64 qf.metadata.noccupiedSlots it.len)).SameFrame
          qf' ∧
      Layout qf' (Function.update A (qf.metadata.bucket hash) (l1 ++ l2)) := by
  obtain ⟨qf', h1, hf1, hlay⟩ := h.removeWork_hit hn hp hf hreach out
  have hocc : isOccupied qf (qf.metadata.bucket hash) = true := by
    have ho := h.occupied (qf.metadata.bucket hash)
    rw [decide_eq_true (by rw [hf.split]; simp)] at ho
    exact ho
  refine ⟨out.read (some (it.info qf.bits)), qf', ?_, hf1, hlay⟩
  unfold qfRemove remove
  simp only [hk, h.geometry.hashBucketIndex_eq]
  rw [if_pos hocc]
  exact withLock_eq hi _ _ _ _ h1 hf1.locks

/-- Nor does the call for an empty bucket change anything, if it takes no lock. -/
theorem WF.qfRemove_miss (h : WF qf A) (hi : qf.Idle) {key flags : Nat}
    (hk : keyToHash qf key flags = hash) (hn : Near qf.metadata A hash)
    (hp : Passes qf.metadata A hash)
    (hm : ∀ x ∈ A (qf.metadata.bucket hash), ¬ x.Matches qf.metadata hash)
    (hl : hasFlag flags QF_NO_LOCK = true ∨ A (qf.metadata.bucket hash) ≠ []) (out : RemoveOut) :
    ∃ out', qfRemove qf key out flags = some ((0, out'), qf) := by
  have ho : isOccupied qf (qf.metadata.bucket hash) = decide (A (qf.metadata.bucket hash) ≠ []) :=
    h.occupied _
  unfold qfRemove remove
  simp only [hk, h.geometry.hashBucketIndex_eq, ho]
  by_cases hb : A (qf.metadata.bucket hash) = []
  · have hno := hl.resolve_right (by simpa using hb)
    refine ⟨out, ?_⟩
    rw [if_neg (by simpa using hb), if_pos hno]
  · obtain ⟨out', h1⟩ := h.removeWork_miss hn hp hb hm out
    refine ⟨out', ?_⟩
    rw [if_pos (by simpa using hb)]
    exact withLock_eq hi _ _ _ _ h1 rfl

end

end AdaptiveQF
