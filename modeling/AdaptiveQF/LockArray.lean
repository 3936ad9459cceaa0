import AdaptiveQF.Init

/-! The lock array that each constructor allocates, and the cells of it that
`qf_lock` and `qf_unlock` use. -/
namespace AdaptiveQF

structure QFRuntime where
  numLocks : Nat
  locks : List Bool

def QFRuntime.zero : QFRuntime := ⟨0, []⟩

def QFRuntime.callocLocks (r : QFRuntime) : QFRuntime :=
  { r with locks := List.replicate r.numLocks false }

def QFRuntime.initLocks (r : QFRuntime) (xnslots : Nat) : QFRuntime :=
  ({ r with numLocks := xnslots / NUM_SLOTS_TO_LOCK + 2 } : QFRuntime).callocLocks

structure QFImage where
  magicEndianNumber : Nat
  totalSizeInBytes : Nat
  metadata : QFMetadata
  blocks : Nat → QFBlock

structure OpenQF extends QFImage where
  runtimedata : QFRuntime

def MAGIC_NUMBER : Nat := 1018874902021329732
def QF_USEFILE_READ_ONLY : Nat := 1
def QF_USEFILE_READ_WRITE : Nat := 2

def sizeofMetadata : Nat := 144

def sizeofBlock : Nat := 25

/-! The constructors. `none`: the filter is not made usable. -/

/-- `qf_init`, on runtime data that its caller allocates. -/
def qfInitOpen (keyHash : Nat → Nat) (nslots keyBits : Nat) (buffer : Nat → QFBlock)
    (bufferLen : Nat) : Option OpenQF := do
  let qf ← qfInit keyHash nslots keyBits buffer
  let size := qf.metadata.nblocks * (sizeofBlock + 64 * qf.bits / 8)
  if sizeofMetadata + size > bufferLen then none
  else some {
    magicEndianNumber := MAGIC_NUMBER
    totalSizeInBytes := size
    metadata := qf.metadata
    blocks := qf.blocks
    runtimedata := QFRuntime.zero.initLocks qf.metadata.xnslots }

def qfUse (buffer : QFImage) (bufferLen : Nat) : Option OpenQF :=
  if buffer.totalSizeInBytes + sizeofMetadata > bufferLen then none
  else some { buffer with runtimedata := QFRuntime.zero.callocLocks }

def qfUsefile (file : QFImage) (flag : Nat) : Option OpenQF :=
  if flag ≠ QF_USEFILE_READ_ONLY ∧ flag ≠ QF_USEFILE_READ_WRITE then none
  else
    let runtimedata := QFRuntime.zero.callocLocks
    if file.magicEndianNumber ≠ MAGIC_NUMBER then none
    else some { file with runtimedata := runtimedata }

def qfDeserialize (file : QFImage) : Option OpenQF :=
  if file.magicEndianNumber ≠ MAGIC_NUMBER then none
  else some { file with runtimedata := QFRuntime.zero.initLocks file.metadata.xnslots }

inductive Constructor
  | init (keyHash : Nat → Nat) (nslots keyBits : Nat) (buffer : Nat → QFBlock) (bufferLen : Nat)
  | use (buffer : QFImage) (bufferLen : Nat)
  | usefile (file : QFImage) (flag : Nat)
  | deserialize (file : QFImage)

namespace Constructor

def run : Constructor → Option OpenQF
  | init keyHash nslots keyBits buffer bufferLen =>
    qfInitOpen keyHash nslots keyBits buffer bufferLen
  | use buffer bufferLen => qfUse buffer bufferLen
  | usefile file flag => qfUsefile file flag
  | deserialize file => qfDeserialize file

def countsLocks : Constructor → Bool
  | init .. => true
  | use .. => false
  | usefile .. => false
  | deserialize .. => true

def xnslots : Constructor → Nat
  | init _ nslots _ _ _ => initXnslots nslots
  | use buffer _ => buffer.metadata.xnslots
  | usefile file _ => file.metadata.xnslots
  | deserialize file => file.metadata.xnslots

end Constructor

/-! Locking in an array of cells. -/

inductive LockFault
  /-- A cell past the array is used. -/
  | outside
  /-- The lock is never given back. -/
  | waits
deriving DecidableEq

def spinLockCell (cells : List Bool) (i flag : Nat) : Except LockFault (Bool × List Bool) :=
  match cells[i]? with
  | none => .error .outside
  | some held =>
    if hasFlag flag QF_WAIT_FOR_LOCK && held then .error .waits
    else .ok (!held, cells.set i true)

def spinUnlockCell (cells : List Bool) (i : Nat) : Except LockFault (List Bool) :=
  if i < cells.length then .ok (cells.set i false) else .error .outside

def lockCells (cells : List Bool) (hashBucketIndex : Nat) (small : Bool) (runtimeLock : Nat) :
    Except LockFault (Bool × List Bool) :=
  let i := hashBucketIndex / NUM_SLOTS_TO_LOCK
  if small then do
    let (ok, cells) ← spinLockCell cells i runtimeLock
    if !ok then .ok (false, cells)
    else if nearUpperRegion hashBucketIndex then do
      let (ok, cells) ← spinLockCell cells (i+1) runtimeLock
      if !ok then do
        let cells ← spinUnlockCell cells i
        .ok (false, cells)
      else .ok (true, cells)
    else .ok (true, cells)
  else do
    let lower := nearLowerRegion hashBucketIndex
    let (ok, cells) ← if lower then spinLockCell cells (i-1) runtimeLock else .ok (true, cells)
    if !ok then .ok (false, cells)
    else do
      let (ok, cells) ← spinLockCell cells i runtimeLock
      if !ok then do
        let cells ← if lower then spinUnlockCell cells (i-1) else .ok cells
        .ok (false, cells)
      else do
        let (ok, cells) ← spinLockCell cells (i+1) runtimeLock
        if !ok then do
          let cells ← spinUnlockCell cells i
          let cells ← if lower then spinUnlockCell cells (i-1) else .ok cells
          .ok (false, cells)
        else .ok (true, cells)

def unlockCells (cells : List Bool) (hashBucketIndex : Nat) (small : Bool) :
    Except LockFault (List Bool) :=
  let i := hashBucketIndex / NUM_SLOTS_TO_LOCK
  if small then do
    let cells ← if nearUpperRegion hashBucketIndex then spinUnlockCell cells (i+1) else .ok cells
    spinUnlockCell cells i
  else do
    let cells ← spinUnlockCell cells (i+1)
    let cells ← spinUnlockCell cells i
    if nearLowerRegion hashBucketIndex then spinUnlockCell cells (i-1) else .ok cells

def QF.withCells (qf : QF) (cells : List Bool) : QF := qf.withLocks fun i => cells.getD i false

def OpenQF.toQF (qf : OpenQF) : QF where
  metadata := qf.metadata
  autoResize := false
  locks i := qf.runtimedata.locks.getD i false
  blocks := qf.blocks

/-- Locking in an array of `n` cells does what it does without bounds. -/
def CellsAgree (qf : QF) (n : Nat) :
    Except LockFault (Bool × List Bool) → Option (Bool × QF) → Prop
  | .ok (ok, cells), some (ok', q) => ok' = ok ∧ q = qf.withCells cells ∧ cells.length = n
  | .error .waits, none => True
  | _, _ => False

def OpenQF.LocksInRange (qf : OpenQF) : Prop :=
  ∀ index, index < qf.metadata.xnslots → ∀ (cells : List Bool) (small : Bool) (runtimeLock : Nat),
    cells.length = qf.runtimedata.locks.length →
      lockCells cells index small runtimeLock ≠ .error .outside ∧
        unlockCells cells index small ≠ .error .outside

section
variable {qf : QF} {cells : List Bool} {n i index : Nat}

theorem QF.withCells_set (qf : QF) (hi : i < cells.length) (held : Bool) :
    qf.withCells (cells.set i held) = (qf.withCells cells).setLock i held := by
  have hlocks : (fun k => (cells.set i held).getD k false) =
      Function.update (fun k => cells.getD k false) i held := by
    funext k
    rw [Function.update_apply, List.getD_eq_getElem?_getD, List.getElem?_set]
    by_cases hk : i = k
    · subst hk
      simp [hi]
    · rw [if_neg hk, if_neg (Ne.symm hk), List.getD_eq_getElem?_getD]
  unfold QF.withCells
  rw [hlocks]
  rfl

namespace CellsAgree

theorem ok (held : Bool) (hn : cells.length = n) :
    CellsAgree qf n (.ok (held, cells)) (some (held, qf.withCells cells)) :=
  ⟨rfl, rfl, hn⟩

theorem spinLock (hi : i < cells.length) (hn : cells.length = n) (flag : Nat) :
    CellsAgree qf n (spinLockCell cells i flag) (qfSpinLock (qf.withCells cells) i flag) := by
  have hheld : (qf.withCells cells).locks i = cells[i] := by
    simp [QF.withCells, QF.withLocks, hi]
  have hset := QF.withCells_set qf hi true
  simp only [spinLockCell, qfSpinLock, List.getElem?_eq_getElem hi, hheld]
  split
  next => exact True.intro
  next => exact ⟨rfl, hset.symm, by rw [List.length_set, hn]⟩

theorem bind {x : Except LockFault (Bool × List Bool)} {y : Option (Bool × QF)}
    {f : Bool × List Bool → Except LockFault (Bool × List Bool)}
    {g : Bool × QF → Option (Bool × QF)} (h : CellsAgree qf n x y)
    (hf : ∀ held cells, cells.length = n →
      CellsAgree qf n (f (held, cells)) (g (held, qf.withCells cells))) :
    CellsAgree qf n (x >>= f) (y >>= g) := by
  cases x with
  | error e =>
    cases e with
    | outside => cases y <;> exact h.elim
    | waits =>
      cases y with
      | none => exact True.intro
      | some _ => exact h.elim
  | ok r =>
    cases y with
    | none => exact h.elim
    | some s =>
      obtain ⟨held, cells⟩ := r
      obtain ⟨held', q⟩ := s
      obtain ⟨rfl, rfl, hn⟩ := h
      exact hf held' cells hn

theorem ne_outside {x : Except LockFault (Bool × List Bool)} {y : Option (Bool × QF)}
    (h : CellsAgree qf n x y) : x ≠ .error .outside := by
  rintro rfl
  cases y <;> exact h

end CellsAgree

theorem spinUnlockCell_eq (hi : i < cells.length) :
    spinUnlockCell cells i = .ok (cells.set i false) := by
  rw [spinUnlockCell, if_pos hi]

/-- A failed `qf_lock` gives back the locks it took. -/
theorem CellsAgree.giveBack (hi : i < n) (hn : cells.length = n) :
    CellsAgree qf n (spinUnlockCell cells i >>= fun cells => .ok (false, cells))
      (some (false, (qf.withCells cells).setLock i false)) := by
  rw [spinUnlockCell_eq (by omega), ← QF.withCells_set qf (by omega)]
  exact .ok false (by rw [List.length_set, hn])

theorem CellsAgree.giveBackBoth {j : Nat} (hi : i < n) (hj : j < n) (hn : cells.length = n) :
    CellsAgree qf n (spinUnlockCell cells i >>= fun cells => spinUnlockCell cells j >>= fun cells =>
        .ok (false, cells))
      (some (false, ((qf.withCells cells).setLock i false).setLock j false)) := by
  rw [spinUnlockCell_eq (by omega), ← QF.withCells_set qf (by omega)]
  exact .giveBack hj (by rw [List.length_set, hn])

theorem lockCells_agree (qf : QF) (hn : cells.length = n) {small : Bool}
    (hi : ∀ k ∈ lockRegions index small, k < n) (flag : Nat) :
    CellsAgree qf n (lockCells cells index small flag)
      (qfLock (qf.withCells cells) index small flag) := by
  unfold lockRegions at hi
  unfold lockCells qfLock
  cases small with
  | true =>
    simp only [if_true] at hi ⊢
    have hhome : index / NUM_SLOTS_TO_LOCK < n := hi _ (by split <;> simp)
    refine (CellsAgree.spinLock (by omega) hn flag).bind fun ok c1 h1 => ?_
    cases ok with
    | false => exact .ok false h1
    | true =>
      simp only [Bool.not_true, Bool.false_eq_true, if_false]
      split
      next hup =>
        have hnext : index / NUM_SLOTS_TO_LOCK + 1 < n := by
          rw [if_pos hup] at hi
          exact hi _ (by simp)
        refine (CellsAgree.spinLock (by omega) h1 flag).bind fun ok c2 h2 => ?_
        cases ok with
        | false => exact .giveBack hhome h2
        | true => exact .ok true h2
      next => exact .ok true h1
  | false =>
    simp only [Bool.false_eq_true, if_false] at hi ⊢
    have hhome : index / NUM_SLOTS_TO_LOCK < n := hi _ (by split <;> simp)
    have hnext : index / NUM_SLOTS_TO_LOCK + 1 < n := hi _ (by split <;> simp)
    cases hlow : nearLowerRegion index with
    | false =>
      refine (CellsAgree.ok true hn).bind fun ok c0 h0 => ?_
      cases ok with
      | false => exact .ok false h0
      | true =>
        refine (CellsAgree.spinLock (by omega) h0 flag).bind fun ok c1 h1 => ?_
        cases ok with
        | false => exact .ok false h1
        | true =>
          refine (CellsAgree.spinLock (by omega) h1 flag).bind fun ok c2 h2 => ?_
          cases ok with
          | false => exact .giveBack hhome h2
          | true => exact .ok true h2
    | true =>
      have hprev : index / NUM_SLOTS_TO_LOCK - 1 < n := Nat.lt_of_le_of_lt (Nat.sub_le _ 1) hhome
      refine (CellsAgree.spinLock (by omega) hn flag).bind fun ok c0 h0 => ?_
      cases ok with
      | false => exact .ok false h0
      | true =>
        refine (CellsAgree.spinLock (by omega) h0 flag).bind fun ok c1 h1 => ?_
        cases ok with
        | false => exact .giveBack hprev h1
        | true =>
          refine (CellsAgree.spinLock (by omega) h1 flag).bind fun ok c2 h2 => ?_
          cases ok with
          | false => exact .giveBackBoth hhome hprev h2
          | true => exact .ok true h2

theorem exists_spinUnlockCell (qf : QF) (hi : i < n) (hn : cells.length = n) :
    ∃ c, spinUnlockCell cells i = .ok c ∧ c.length = n ∧
      qf.withCells c = (qf.withCells cells).setLock i false :=
  ⟨_, spinUnlockCell_eq (by omega), by rw [List.length_set, hn],
    QF.withCells_set qf (by omega) false⟩

theorem unlockCells_eq (qf : QF) (hn : cells.length = n) {small : Bool}
    (hi : ∀ k ∈ lockRegions index small, k < n) :
    ∃ c, unlockCells cells index small = .ok c ∧
      qf.withCells c = qfUnlock (qf.withCells cells) index small := by
  unfold lockRegions at hi
  unfold unlockCells qfUnlock
  cases small with
  | true =>
    simp only [if_true] at hi ⊢
    have hhome : index / NUM_SLOTS_TO_LOCK < n := hi _ (by split <;> simp)
    cases hup : nearUpperRegion index with
    | false =>
      obtain ⟨c, hc, -, hq⟩ := exists_spinUnlockCell qf hhome hn
      exact ⟨c, hc, hq⟩
    | true =>
      have hnext : index / NUM_SLOTS_TO_LOCK + 1 < n := by
        rw [if_pos hup] at hi
        exact hi _ (by simp)
      obtain ⟨c1, hc1, hn1, hq1⟩ := exists_spinUnlockCell qf hnext hn
      obtain ⟨c2, hc2, -, hq2⟩ := exists_spinUnlockCell qf hhome hn1
      refine ⟨c2, ?_, by rw [hq2, hq1]; rfl⟩
      rw [if_pos rfl, hc1]
      exact hc2
  | false =>
    simp only [Bool.false_eq_true, if_false] at hi ⊢
    have hhome : index / NUM_SLOTS_TO_LOCK < n := hi _ (by split <;> simp)
    have hnext : index / NUM_SLOTS_TO_LOCK + 1 < n := hi _ (by split <;> simp)
    obtain ⟨c1, hc1, hn1, hq1⟩ := exists_spinUnlockCell qf hnext hn
    obtain ⟨c2, hc2, hn2, hq2⟩ := exists_spinUnlockCell qf hhome hn1
    cases hlow : nearLowerRegion index with
    | false =>
      refine ⟨c2, ?_, by rw [hq2, hq1]; rfl⟩
      rw [hc1]
      show (spinUnlockCell c1 _ >>= fun c => .ok c) = _
      rw [hc2]
      rfl
    | true =>
      have hprev : index / NUM_SLOTS_TO_LOCK - 1 < n := Nat.lt_of_le_of_lt (Nat.sub_le _ 1) hhome
      obtain ⟨c3, hc3, -, hq3⟩ := exists_spinUnlockCell qf hprev hn2
      refine ⟨c3, ?_, by rw [hq3, hq2, hq1]; rfl⟩
      rw [hc1]
      show (spinUnlockCell c1 _ >>= fun c => spinUnlockCell c _) = _
      rw [hc2]
      exact hc3

/-- Two locks more than full regions cover each region of a slot and its neighbours. -/
theorem lockRegions_lt (hx : index < n) (small : Bool) :
    ∀ k ∈ lockRegions index small, k < n / NUM_SLOTS_TO_LOCK + 2 := by
  have hdiv : index / NUM_SLOTS_TO_LOCK ≤ n / NUM_SLOTS_TO_LOCK :=
    Nat.div_le_div_right (Nat.le_of_lt hx)
  generalize n / NUM_SLOTS_TO_LOCK = m at hdiv ⊢
  intro k hk
  have hle : k ≤ index / NUM_SLOTS_TO_LOCK + 1 := by
    unfold lockRegions at hk
    generalize index / NUM_SLOTS_TO_LOCK = r at hk ⊢
    cases small with
    | true =>
      rw [if_pos rfl] at hk
      split at hk <;> simp only [List.mem_cons, List.not_mem_nil, or_false] at hk <;> omega
    | false =>
      rw [if_neg Bool.false_ne_true] at hk
      split at hk <;> simp only [List.mem_cons, List.not_mem_nil, or_false] at hk <;> omega
  omega

theorem length_initLocks (r : QFRuntime) (xnslots : Nat) :
    (r.initLocks xnslots).locks.length = xnslots / NUM_SLOTS_TO_LOCK + 2 :=
  List.length_replicate

/-- A constructor that does not count the locks allocates none. -/
theorem Constructor.run_locks {c : Constructor} {qf : OpenQF} (h : c.run = some qf) :
    qf.metadata.xnslots = c.xnslots ∧ qf.runtimedata.locks.length =
      if c.countsLocks then c.xnslots / NUM_SLOTS_TO_LOCK + 2 else 0 := by
  cases c with
  | init keyHash nslots keyBits buffer bufferLen =>
    simp only [run, qfInitOpen, Option.bind_eq_bind, Option.bind_eq_some_iff,
      Option.ite_none_left_eq_some, Option.some.injEq] at h
    obtain ⟨q, hq, -, rfl⟩ := h
    have hx : q.metadata.xnslots = initXnslots nslots := by
      rw [(qfInit_fields hq).1]
      rfl
    exact ⟨hx, by rw [length_initLocks, hx]; rfl⟩
  | use buffer bufferLen =>
    simp only [run, qfUse, Option.ite_none_left_eq_some, Option.some.injEq] at h
    obtain ⟨-, rfl⟩ := h
    exact ⟨rfl, rfl⟩
  | usefile file flag =>
    simp only [run, qfUsefile, Option.ite_none_left_eq_some, Option.some.injEq] at h
    obtain ⟨-, -, rfl⟩ := h
    exact ⟨rfl, rfl⟩
  | deserialize file =>
    simp only [run, qfDeserialize, Option.ite_none_left_eq_some, Option.some.injEq] at h
    obtain ⟨-, rfl⟩ := h
    exact ⟨rfl, length_initLocks _ _⟩

theorem locks_in_range_iff {c : Constructor} {qf : OpenQF} (h : c.run = some qf) :
    qf.LocksInRange ↔ c.countsLocks = true ∨ c.xnslots = 0 := by
  obtain ⟨hx, hlen⟩ := Constructor.run_locks h
  constructor
  · intro hrange
    by_contra hno
    push Not at hno
    obtain ⟨hcount, hpos⟩ := hno
    rw [if_neg hcount] at hlen
    have hout := (hrange 0 (by omega) [] true 0 hlen.symm).1
    exact hout rfl
  · intro hcase index hindex cells small runtimeLock hcells
    cases hcase with
    | inr hzero => omega
    | inl hcount =>
      rw [if_pos hcount, ← hx] at hlen
      have hregions := lockRegions_lt hindex small
      rw [← hlen] at hregions
      refine ⟨(lockCells_agree qf.toQF hcells hregions runtimeLock).ne_outside, ?_⟩
      obtain ⟨c, hc, -⟩ := unlockCells_eq qf.toQF hcells hregions
      rw [hc]
      rintro ⟨⟩

end

/-! The empty filter of 8 slots, as `qf_serialize` writes it. -/

def emptyImage : QFImage where
  magicEndianNumber := MAGIC_NUMBER
  totalSizeInBytes := 41
  metadata := initMetadata id 8 5
  blocks := fun _ => QFBlock.zero

theorem locks_in_range_deserialized : ∃ qf, qfDeserialize emptyImage = some qf ∧
    (qf.LocksInRange ↔ (Constructor.deserialize emptyImage).countsLocks = true ∨
      (Constructor.deserialize emptyImage).xnslots = 0) :=
  ⟨_, rfl, locks_in_range_iff (c := .deserialize emptyImage) rfl⟩

/-- After `qf_use` of the same filter the first lock lies outside the array. -/
theorem locks_outside_used : ∃ qf, qfUse emptyImage 185 = some qf ∧
    lockCells qf.runtimedata.locks 0 true QF_WAIT_FOR_LOCK = .error .outside ∧
      ¬ qf.LocksInRange := by
  have hpos : 0 < initXnslots 8 := Nat.lt_of_lt_of_le (by decide : 0 < 8) (Nat.le_add_right ..)
  exact ⟨_, rfl, rfl, fun hrange => (hrange 0 hpos [] true QF_WAIT_FOR_LOCK rfl).1 rfl⟩

end AdaptiveQF
