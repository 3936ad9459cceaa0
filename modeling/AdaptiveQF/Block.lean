import AdaptiveQF.Word

/-! The filter of gqf_int.h: metadata, locks and blocks, with the metadata bits
and the slots addressed by slot index. Slots are kept as numbers. -/
namespace AdaptiveQF

structure QFBlock where
  offset : Nat
  occupieds : BitVec 64
  runends : BitVec 64
  extensions : BitVec 64
  slots : Nat → Nat

structure QFMetadata where
  /-- The hash that `hash_mode` and `seed` select for a key. -/
  keyHash : Nat → Nat
  nslots : Nat
  xnslots : Nat
  bitsPerSlot : Nat
  quotientBits : Nat
  range : Nat
  nblocks : Nat
  nelts : Nat
  ndistinctElts : Nat
  noccupiedSlots : Nat

/- Blocks past the array read as zero blocks. A lock is `true` while it is held. -/
structure QF where
  metadata : QFMetadata
  autoResize : Bool
  locks : Nat → Bool
  blocks : Nat → QFBlock

namespace QF

abbrev xnslots (qf : QF) : Nat := qf.metadata.xnslots
abbrev bits (qf : QF) : Nat := qf.metadata.bitsPerSlot
abbrev qbits (qf : QF) : Nat := qf.metadata.quotientBits

/-- No loop over slots or blocks takes more steps than this inside the array. -/
def fuel (qf : QF) : Nat := 64 * qf.metadata.nblocks + 65

def modifyBlock (qf : QF) (j : Nat) (f : QFBlock → QFBlock) : QF :=
  { qf with blocks := Function.update qf.blocks j (f (qf.blocks j)) }

def setCounts (qf : QF) (nelts ndistinctElts noccupiedSlots : Nat) : QF :=
  { qf with metadata := { qf.metadata with
      nelts := nelts, ndistinctElts := ndistinctElts, noccupiedSlots := noccupiedSlots } }

def countItem (qf : QF) (n : Nat) : QF :=
  qf.setCounts (add64 qf.metadata.nelts n) (add64 qf.metadata.ndistinctElts 1)
    (add64 qf.metadata.noccupiedSlots 1)

def countSlot (qf : QF) : QF :=
  qf.setCounts qf.metadata.nelts qf.metadata.ndistinctElts (add64 qf.metadata.noccupiedSlots 1)

def countElts (qf : QF) (n : Nat) : QF :=
  qf.setCounts (add64 qf.metadata.nelts n) qf.metadata.ndistinctElts qf.metadata.noccupiedSlots

end QF

def getBlock (qf : QF) (blockIndex : Nat) : QFBlock := qf.blocks blockIndex

def slotBit (index : Nat) : BitVec 64 := 1#64 <<< (index % 64)

def occupiedBit (qf : QF) (i : Nat) : Bool := (getBlock qf (i / 64)).occupieds.getLsbD (i % 64)
def runendBit (qf : QF) (i : Nat) : Bool := (getBlock qf (i / 64)).runends.getLsbD (i % 64)
def extensionBit (qf : QF) (i : Nat) : Bool :=
  (getBlock qf (i / 64)).extensions.getLsbD (i % 64)
def slotValue (qf : QF) (i : Nat) : Nat := (getBlock qf (i / 64)).slots (i % 64)
def blockOffsetField (qf : QF) (j : Nat) : Nat := (getBlock qf j).offset

def isRunend (qf : QF) (i : Nat) : Bool := !extensionBit qf i && runendBit qf i
def isOccupied (qf : QF) (i : Nat) : Bool := occupiedBit qf i
def isExtension (qf : QF) (i : Nat) : Bool := extensionBit qf i && !runendBit qf i
def isCounter (qf : QF) (i : Nat) : Bool := extensionBit qf i && runendBit qf i
def isRunendOrCounter (qf : QF) (i : Nat) : Bool := runendBit qf i
def isExtensionOrCounter (qf : QF) (i : Nat) : Bool := extensionBit qf i

def orOccupied (qf : QF) (i : Nat) : QF :=
  qf.modifyBlock (i / 64) fun b => { b with occupieds := b.occupieds ||| slotBit i }
def clearOccupied (qf : QF) (i : Nat) : QF :=
  qf.modifyBlock (i / 64) fun b => { b with occupieds := b.occupieds &&& ~~~slotBit i }
def orRunend (qf : QF) (i : Nat) : QF :=
  qf.modifyBlock (i / 64) fun b => { b with runends := b.runends ||| slotBit i }
def xorRunend (qf : QF) (i : Nat) : QF :=
  qf.modifyBlock (i / 64) fun b => { b with runends := b.runends ^^^ slotBit i }
def clearRunend (qf : QF) (i : Nat) : QF :=
  qf.modifyBlock (i / 64) fun b => { b with runends := b.runends &&& ~~~slotBit i }
def orExtension (qf : QF) (i : Nat) : QF :=
  qf.modifyBlock (i / 64) fun b => { b with extensions := b.extensions ||| slotBit i }
def xorExtension (qf : QF) (i : Nat) : QF :=
  qf.modifyBlock (i / 64) fun b => { b with extensions := b.extensions ^^^ slotBit i }
def clearExtension (qf : QF) (i : Nat) : QF :=
  qf.modifyBlock (i / 64) fun b => { b with extensions := b.extensions &&& ~~~slotBit i }
def setOffset (qf : QF) (j v : Nat) : QF := qf.modifyBlock j fun b => { b with offset := v }

/-- A read past `xnslots` returns `(uint64_t) QF_NO_SPACE`, one at `xnslots` fails the assertion. -/
def getSlot (qf : QF) (index : Nat) : Option Nat :=
  if index > qf.xnslots then some (2^64 - 1)
  else if index < qf.xnslots then some (slotValue qf index) else none

def putSlot (qf : QF) (index value : Nat) : QF :=
  qf.modifyBlock (index / 64)
    fun b => { b with slots := Function.update b.slots (index % 64) value }

def setSlot (qf : QF) (index value : Nat) : Option QF :=
  if index < qf.xnslots then some (putSlot qf index value) else none

/-! The row of cells that the blocks spell out, and what one update does to it. -/

@[ext] structure Cell where
  value : Nat
  runend : Bool
  extension : Bool
deriving DecidableEq

@[ext] structure View where
  cell : Nat → Cell
  occupied : Nat → Bool
  offset : Nat → Nat

def QF.view (qf : QF) : View where
  cell i := ⟨slotValue qf i, runendBit qf i, extensionBit qf i⟩
  occupied := occupiedBit qf
  offset := blockOffsetField qf

theorem getLsbD_slotBit (i k : Nat) : (slotBit i).getLsbD k = decide (k = i % 64) := by
  unfold slotBit
  rw [BitVec.getLsbD_shiftLeft]
  by_cases h : k = i % 64
  · simp [h, Nat.mod_lt]
  · by_cases h2 : k < i % 64
    · simp [h, h2]
    · have : k - i % 64 ≠ 0 := by omega
      simp [h, h2, this]

section Updates
variable (qf : QF) (i j v : Nat)

theorem getBlock_modifyBlock (k : Nat) (f : QFBlock → QFBlock) :
    getBlock (qf.modifyBlock j f) k = if k = j then f (getBlock qf j) else getBlock qf k := by
  unfold getBlock QF.modifyBlock
  by_cases h : k = j
  · subst h
    simp
  · simp [h]

theorem view_modifyBlock (f : QFBlock → QFBlock) : (qf.modifyBlock j f).view =
    { cell := fun s => if s / 64 = j then
        ⟨(f (getBlock qf j)).slots (s % 64), (f (getBlock qf j)).runends.getLsbD (s % 64),
          (f (getBlock qf j)).extensions.getLsbD (s % 64)⟩ else qf.view.cell s
      occupied := fun s => if s / 64 = j then (f (getBlock qf j)).occupieds.getLsbD (s % 64)
        else qf.view.occupied s
      offset := fun k => if k = j then (f (getBlock qf j)).offset else qf.view.offset k } := by
  ext s <;> simp only [QF.view, slotValue, runendBit, extensionBit, occupiedBit, blockOffsetField,
    getBlock_modifyBlock] <;> split <;> rfl

def View.setRunend (w : View) (i : Nat) (b : Bool) : View :=
  { w with cell := Function.update w.cell i { w.cell i with runend := b } }
def View.setExtension (w : View) (i : Nat) (b : Bool) : View :=
  { w with cell := Function.update w.cell i { w.cell i with extension := b } }
def View.setValue (w : View) (i v : Nat) : View :=
  { w with cell := Function.update w.cell i { w.cell i with value := v } }
def View.setOccupied (w : View) (i : Nat) (b : Bool) : View :=
  { w with occupied := Function.update w.occupied i b }
def View.setOffset (w : View) (j v : Nat) : View :=
  { w with offset := Function.update w.offset j v }

theorem getLsbD_or_slotBit (w : BitVec 64) (i k : Nat) :
    (w ||| slotBit i).getLsbD k = if k = i % 64 then true else w.getLsbD k := by
  rw [BitVec.getLsbD_or, getLsbD_slotBit]
  split <;> simp [*]

theorem getLsbD_xor_slotBit (w : BitVec 64) (i k : Nat) :
    (w ^^^ slotBit i).getLsbD k = if k = i % 64 then !w.getLsbD k else w.getLsbD k := by
  rw [BitVec.getLsbD_xor, getLsbD_slotBit]
  split <;> simp [*]

theorem getLsbD_clear_slotBit (w : BitVec 64) (i : Nat) {k : Nat} (hk : k < 64) :
    (w &&& ~~~slotBit i).getLsbD k = if k = i % 64 then false else w.getLsbD k := by
  rw [BitVec.getLsbD_and, BitVec.getLsbD_not, getLsbD_slotBit]
  split <;> simp [*]

theorem eq_or_mod_ne (s : Nat) : s = i ∨ s / 64 ≠ i / 64 ∨ s / 64 = i / 64 ∧ s % 64 ≠ i % 64 := by
  omega

theorem view_modifyRunends (g : Bool → Bool) (f : BitVec 64 → BitVec 64)
    (hf : ∀ w k, k < 64 →
      (f w).getLsbD k = if k = i % 64 then g (w.getLsbD k) else w.getLsbD k) :
    (qf.modifyBlock (i / 64) fun b => { b with runends := f b.runends }).view =
      qf.view.setRunend i (g (qf.view.cell i).runend) := by
  rw [view_modifyBlock]
  refine View.ext (funext fun s => ?_) (funext fun s => ?_) (funext fun s => ?_)
  · rcases eq_or_mod_ne i s with rfl | h | ⟨h1, h2⟩
    · simp [View.setRunend, QF.view, slotValue, runendBit, extensionBit, hf _ _ (Nat.mod_lt s _)]
    · have hs : s ≠ i := by rintro rfl; exact h rfl
      simp [View.setRunend, h, hs]
    · have hs : s ≠ i := by rintro rfl; exact h2 rfl
      simp [View.setRunend, h1, hs, QF.view, slotValue, runendBit, extensionBit,
        hf _ _ (Nat.mod_lt s _), h2]
  · simp only [View.setRunend, QF.view, occupiedBit]
    split <;> simp [*]
  · simp only [View.setRunend, QF.view, blockOffsetField]
    split <;> simp [*]

theorem view_modifyExtensions (g : Bool → Bool) (f : BitVec 64 → BitVec 64)
    (hf : ∀ w k, k < 64 →
      (f w).getLsbD k = if k = i % 64 then g (w.getLsbD k) else w.getLsbD k) :
    (qf.modifyBlock (i / 64) fun b => { b with extensions := f b.extensions }).view =
      qf.view.setExtension i (g (qf.view.cell i).extension) := by
  rw [view_modifyBlock]
  refine View.ext (funext fun s => ?_) (funext fun s => ?_) (funext fun s => ?_)
  · rcases eq_or_mod_ne i s with rfl | h | ⟨h1, h2⟩
    · simp [View.setExtension, QF.view, slotValue, runendBit, extensionBit,
        hf _ _ (Nat.mod_lt s _)]
    · have hs : s ≠ i := by rintro rfl; exact h rfl
      simp [View.setExtension, h, hs]
    · have hs : s ≠ i := by rintro rfl; exact h2 rfl
      simp [View.setExtension, h1, hs, QF.view, slotValue, runendBit, extensionBit,
        hf _ _ (Nat.mod_lt s _), h2]
  · simp only [View.setExtension, QF.view, occupiedBit]
    split <;> simp [*]
  · simp only [View.setExtension, QF.view, blockOffsetField]
    split <;> simp [*]

theorem view_modifyOccupieds (g : Bool → Bool) (f : BitVec 64 → BitVec 64)
    (hf : ∀ w k, k < 64 →
      (f w).getLsbD k = if k = i % 64 then g (w.getLsbD k) else w.getLsbD k) :
    (qf.modifyBlock (i / 64) fun b => { b with occupieds := f b.occupieds }).view =
      qf.view.setOccupied i (g (qf.view.occupied i)) := by
  rw [view_modifyBlock]
  refine View.ext (funext fun s => ?_) (funext fun s => ?_) (funext fun s => ?_)
  · simp only [View.setOccupied, QF.view, slotValue, runendBit, extensionBit]
    split <;> simp [*]
  · rcases eq_or_mod_ne i s with rfl | h | ⟨h1, h2⟩
    · simp [View.setOccupied, QF.view, occupiedBit, hf _ _ (Nat.mod_lt s _)]
    · have hs : s ≠ i := by rintro rfl; exact h rfl
      simp [View.setOccupied, h, hs]
    · have hs : s ≠ i := by rintro rfl; exact h2 rfl
      simp [View.setOccupied, h1, hs, QF.view, occupiedBit, hf _ _ (Nat.mod_lt s _), h2]
  · simp only [View.setOccupied, QF.view, blockOffsetField]
    split <;> simp [*]

@[simp] theorem view_orRunend : (orRunend qf i).view = qf.view.setRunend i true :=
  view_modifyRunends qf i (fun _ => true) _ fun w k _ => getLsbD_or_slotBit w i k
@[simp] theorem view_xorRunend :
    (xorRunend qf i).view = qf.view.setRunend i (!(qf.view.cell i).runend) :=
  view_modifyRunends qf i (fun b => !b) _ fun w k _ => getLsbD_xor_slotBit w i k
@[simp] theorem view_clearRunend : (clearRunend qf i).view = qf.view.setRunend i false :=
  view_modifyRunends qf i (fun _ => false) _ fun w _ hk => getLsbD_clear_slotBit w i hk
@[simp] theorem view_orExtension : (orExtension qf i).view = qf.view.setExtension i true :=
  view_modifyExtensions qf i (fun _ => true) _ fun w k _ => getLsbD_or_slotBit w i k
@[simp] theorem view_xorExtension :
    (xorExtension qf i).view = qf.view.setExtension i (!(qf.view.cell i).extension) :=
  view_modifyExtensions qf i (fun b => !b) _ fun w k _ => getLsbD_xor_slotBit w i k
@[simp] theorem view_clearExtension : (clearExtension qf i).view = qf.view.setExtension i false :=
  view_modifyExtensions qf i (fun _ => false) _ fun w _ hk => getLsbD_clear_slotBit w i hk
@[simp] theorem view_orOccupied : (orOccupied qf i).view = qf.view.setOccupied i true :=
  view_modifyOccupieds qf i (fun _ => true) _ fun w k _ => getLsbD_or_slotBit w i k
@[simp] theorem view_clearOccupied : (clearOccupied qf i).view = qf.view.setOccupied i false :=
  view_modifyOccupieds qf i (fun _ => false) _ fun w _ hk => getLsbD_clear_slotBit w i hk

@[simp] theorem view_setOffset : (setOffset qf j v).view = qf.view.setOffset j v := by
  rw [setOffset, view_modifyBlock]
  refine View.ext (funext fun s => ?_) (funext fun s => ?_) (funext fun s => ?_)
  · simp only [View.setOffset, QF.view, slotValue, runendBit, extensionBit]
    split <;> simp [*]
  · simp only [View.setOffset, QF.view, occupiedBit]
    split <;> simp [*]
  · simp only [View.setOffset, QF.view, Function.update_apply]

@[simp] theorem view_putSlot : (putSlot qf i v).view = qf.view.setValue i v := by
  rw [putSlot, view_modifyBlock]
  refine View.ext (funext fun s => ?_) (funext fun s => ?_) (funext fun s => ?_)
  · rcases eq_or_mod_ne i s with rfl | h | ⟨h1, h2⟩
    · simp [View.setValue, QF.view, runendBit, extensionBit]
    · have hs : s ≠ i := by rintro rfl; exact h rfl
      simp [View.setValue, h, hs]
    · have hs : s ≠ i := by rintro rfl; exact h2 rfl
      simp [View.setValue, h1, hs, QF.view, slotValue, runendBit, extensionBit, h2]
  · simp only [View.setValue, QF.view, occupiedBit]
    split <;> simp [*]
  · simp only [View.setValue, QF.view, blockOffsetField]
    split <;> simp [*]

end Updates

@[simp] theorem QF.view_countSlot (qf : QF) : qf.countSlot.view = qf.view := rfl

structure QF.SameFrame (qf qf' : QF) : Prop where
  metadata : qf'.metadata = qf.metadata
  autoResize : qf'.autoResize = qf.autoResize
  locks : qf'.locks = qf.locks

theorem QF.SameFrame.refl (qf : QF) : qf.SameFrame qf := ⟨rfl, rfl, rfl⟩

theorem QF.SameFrame.trans {a b c : QF} (h1 : a.SameFrame b) (h2 : b.SameFrame c) :
    a.SameFrame c :=
  ⟨h2.metadata.trans h1.metadata, h2.autoResize.trans h1.autoResize, h2.locks.trans h1.locks⟩

theorem QF.SameFrame.setCounts {a b : QF} (h : a.SameFrame b) (x y z : Nat) :
    (a.setCounts x y z).SameFrame (b.setCounts x y z) := by
  refine ⟨?_, h.autoResize, h.locks⟩
  unfold QF.setCounts
  simp only [h.metadata]

theorem QF.SameFrame.countSlot {a b : QF} (h : a.SameFrame b) :
    a.countSlot.SameFrame b.countSlot := by
  have := h.setCounts a.metadata.nelts a.metadata.ndistinctElts (add64 a.metadata.noccupiedSlots 1)
  unfold QF.countSlot
  rw [h.metadata]
  exact this

theorem QF.SameFrame.countItem {a b : QF} (h : a.SameFrame b) (n : Nat) :
    (a.countItem n).SameFrame (b.countItem n) := by
  have := h.setCounts (add64 a.metadata.nelts n) (add64 a.metadata.ndistinctElts 1)
    (add64 a.metadata.noccupiedSlots 1)
  unfold QF.countItem
  rw [h.metadata]
  exact this

def QF.Keeps (qf qf' : QF) : Prop := ∃ x y z, (qf.setCounts x y z).SameFrame qf'

namespace QF.Keeps

variable {a b c : QF}

theorem refl (a : QF) : a.Keeps a := ⟨_, _, _, SameFrame.refl a⟩

theorem of_sameFrame (h : a.SameFrame b) : a.Keeps b := ⟨_, _, _, h⟩

theorem trans (h1 : a.Keeps b) (h2 : b.Keeps c) : a.Keeps c := by
  obtain ⟨_, _, _, h1⟩ := h1
  obtain ⟨x, y, z, h2⟩ := h2
  exact ⟨x, y, z, (h1.setCounts x y z).trans h2⟩

theorem setCounts (a : QF) (x y z : Nat) : a.Keeps (a.setCounts x y z) :=
  ⟨x, y, z, SameFrame.refl _⟩

theorem bits (h : a.Keeps b) : b.bits = a.bits := by
  obtain ⟨_, _, _, h⟩ := h
  exact (congrArg QFMetadata.bitsPerSlot h.metadata).trans rfl

theorem qbits (h : a.Keeps b) : b.qbits = a.qbits := by
  obtain ⟨_, _, _, h⟩ := h
  exact (congrArg QFMetadata.quotientBits h.metadata).trans rfl

theorem xnslots (h : a.Keeps b) : b.xnslots = a.xnslots := by
  obtain ⟨_, _, _, h⟩ := h
  exact (congrArg QFMetadata.xnslots h.metadata).trans rfl

theorem nslots (h : a.Keeps b) : b.metadata.nslots = a.metadata.nslots := by
  obtain ⟨_, _, _, h⟩ := h
  exact (congrArg QFMetadata.nslots h.metadata).trans rfl

theorem range (h : a.Keeps b) : b.metadata.range = a.metadata.range := by
  obtain ⟨_, _, _, h⟩ := h
  exact (congrArg QFMetadata.range h.metadata).trans rfl

theorem keyHash (h : a.Keeps b) : b.metadata.keyHash = a.metadata.keyHash := by
  obtain ⟨_, _, _, h⟩ := h
  exact (congrArg QFMetadata.keyHash h.metadata).trans rfl

theorem autoResize (h : a.Keeps b) : b.autoResize = a.autoResize := by
  obtain ⟨_, _, _, h⟩ := h
  exact h.autoResize

theorem locks (h : a.Keeps b) : b.locks = a.locks := by
  obtain ⟨_, _, _, h⟩ := h
  exact h.locks

end QF.Keeps

def QF.KeepsTally (qf qf' : QF) : Prop :=
  ∃ z, (qf.setCounts qf.metadata.nelts qf.metadata.ndistinctElts z).SameFrame qf'

namespace QF.KeepsTally

variable {a b c : QF}

theorem of_sameFrame (h : a.SameFrame b) : a.KeepsTally b := ⟨_, h⟩

theorem refl (a : QF) : a.KeepsTally a := of_sameFrame (SameFrame.refl a)

theorem countSlot (a : QF) : a.KeepsTally a.countSlot := ⟨_, SameFrame.refl _⟩

theorem nelts (h : a.KeepsTally b) : b.metadata.nelts = a.metadata.nelts := by
  obtain ⟨_, h⟩ := h
  exact (congrArg QFMetadata.nelts h.metadata).trans rfl

theorem ndistinctElts (h : a.KeepsTally b) :
    b.metadata.ndistinctElts = a.metadata.ndistinctElts := by
  obtain ⟨_, h⟩ := h
  exact (congrArg QFMetadata.ndistinctElts h.metadata).trans rfl

theorem trans (h1 : a.KeepsTally b) (h2 : b.KeepsTally c) : a.KeepsTally c := by
  have hn := h1.nelts
  have hd := h1.ndistinctElts
  obtain ⟨_, h1⟩ := h1
  obtain ⟨z, h2⟩ := h2
  rw [hn, hd] at h2
  exact ⟨z, (h1.setCounts _ _ z).trans h2⟩

theorem keeps (h : a.KeepsTally b) : a.Keeps b := by
  obtain ⟨z, h⟩ := h
  exact ⟨_, _, z, h⟩

theorem countSlots (a : QF) (n : Nat) : a.KeepsTally (QF.countSlot^[n] a) := by
  induction n generalizing a with
  | zero => exact refl a
  | succ n ih => exact (countSlot a).trans (ih a.countSlot)

end QF.KeepsTally

end AdaptiveQF
