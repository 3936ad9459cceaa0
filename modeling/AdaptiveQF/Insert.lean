import AdaptiveQF.Extend

/-! insert and insert_using_ll_table. Both first find the place of the new item and
then put it there. They differ in where they put it in the run of its bucket. -/
namespace AdaptiveQF
open RunLayout

inductive Placement
  /-- The home slot is empty. -/
  | home
  /-- The bucket is empty, but its slot is taken. -/
  | first (index : Nat)
  /-- `currentIndex` is the slot of the run's last item if the new one goes behind it. -/
  | inRun (insertIndex currentIndex : Nat) (wasRunend : Bool)
  | matched (index : Nat) (info : SlotInfo)
  /-- No runend up to `xnslots`. `last` is what `get_slot_info` wrote last. -/
  | endOfFilter (last : Option SlotInfo)

/-- The do-while loop of `insert`. With the flag QF_TRY_ONCE_LOCK it does not look for a match. -/
def insertScan (qf : QF) (hash : Nat) (force : Bool) :
    Nat → Nat → Option SlotInfo → Option Placement
  | 0, _, _ => none
  | fuel+1, currentIndex, last => do
    let slot ← getSlot qf currentIndex
    if slot > hashRemainder qf hash then some (.inRun currentIndex currentIndex false)
    else if slot = hashRemainder qf hash then
      if force then some (.inRun currentIndex currentIndex false)
      else
        let info ← getSlotInfo qf currentIndex
        if info.ext = hashExtension qf hash info.extSlots then some (.matched currentIndex info)
        else if isRunend qf currentIndex then
          some (.inRun (currentIndex + 1 + info.extSlots + info.countSlots) currentIndex true)
        else
          let next := currentIndex + (info.countSlots + info.extSlots + 1)
          if next < qf.xnslots then insertScan qf hash force fuel next (some info)
          else some (.endOfFilter (some info))
    else if isRunend qf currentIndex then do
      let insertIndex ← skipExtensions qf qf.fuel (currentIndex+1)
      some (.inRun insertIndex currentIndex true)
    else do
      let next ← skipExtensions qf qf.fuel (currentIndex+1)
      if next < qf.xnslots then insertScan qf hash force fuel next last
      else some (.endOfFilter last)

def llScan (qf : QF) (remainder : Nat) : Nat → Nat → Option Placement
  | 0, _ => none
  | fuel+1, currentIndex => do
    let slot ← getSlot qf currentIndex
    if slot ≥ remainder then some (.inRun currentIndex currentIndex false)
    else if isRunend qf currentIndex then do
      let insertIndex ← skipExtensions qf qf.fuel (currentIndex+1)
      some (.inRun insertIndex currentIndex true)
    else do
      let next ← skipExtensions qf qf.fuel (currentIndex+1)
      if next < qf.xnslots then llScan qf remainder fuel next else some (.endOfFilter none)

/-- The loop that counts the minirun from slot `tempIndex` on. From the base slot of an item with
extensions it steps to the first of these, and from an extension slot behind the next base slot. -/
def countMinirun (qf : QF) (remainder : Nat) : Nat → Nat → Nat → Nat → Option Nat
  | 0, _, _, _ => none
  | fuel+1, tempIndex, tempRemainder, rank =>
    if tempRemainder = remainder then
      if isRunend qf tempIndex then some (rank+1)
      else do
        let next ← skipExtensions qf qf.fuel tempIndex
        let slot ← getSlot qf (next+1)
        countMinirun qf remainder fuel (next+1) slot (rank+1)
    else some rank

def locate (qf : QF) (bucket : Nat) (scan : Nat → Option Placement) : Option Placement := do
  let runendIndex ← runEnd qf bucket
  if mightBeEmpty qf bucket && runendIndex == bucket then some .home
  else do
    let runstartIndex ← runStart qf bucket
    if !isOccupied qf bucket then some (.first runstartIndex)
    else if isExtensionOrCounter qf runstartIndex then none
    else scan runstartIndex

/-- The new item without counter in its place. The result of `insert_one_slot` is ignored. -/
def putItem (qf : QF) (bucket remainder n : Nat) : Placement → Option QF
  | .home => do
    let qf ← setSlot qf bucket remainder
    some ((orOccupied (orRunend qf bucket) bucket).countItem 1)
  | .first index => do
    let (_, qf) ← insertOneSlot qf bucket index remainder
    some ((orOccupied (orRunend qf index) bucket).countItem 1)
  | .inRun insertIndex currentIndex wasRunend => do
    let (_, qf) ← insertOneSlot qf bucket insertIndex remainder
    some ((if wasRunend then xorRunend (orRunend qf insertIndex) currentIndex else qf).countItem n)
  | .matched _ _ => some qf
  | .endOfFilter _ => some qf

/-- The index at which the source asks for the rest of the count to be added. In an empty bucket it
is the home slot, also where the item is not there. -/
def countIndex (bucket : Nat) : Placement → Nat
  | .inRun insertIndex _ _ => insertIndex
  | _ => bucket

def insertBucket (qf : QF) (hash : Nat) : Nat := shr64 (minirunId qf hash) qf.bits

def locateInsert (qf : QF) (hash flags : Nat) : Option Placement :=
  locate qf (insertBucket qf hash) fun runstartIndex =>
    insertScan qf hash (hasFlag flags QF_TRY_ONCE_LOCK) qf.fuel runstartIndex none

def locateLl (qf : QF) (hash : Nat) : Option Placement :=
  locate qf (insertBucket qf hash) fun runstartIndex =>
    llScan qf (hashRemainder qf hash) qf.fuel runstartIndex

structure InsertOut where
  index : Nat
  hash : Nat
  hashLen : Int
deriving DecidableEq

/- With a count above 1 the length of a hash that goes into a non-empty bucket is overwritten by
   what `insert_and_extend` returns for the same item, which is 0. -/
def insertWork (hash count : Nat) (out : InsertOut) (flags : Nat) (qf : QF) :
    Option ((Int × InsertOut) × QF) := do
  let place ← locateInsert qf hash flags
  let qf' ← putItem qf (insertBucket qf hash) (hashRemainder qf hash) 1 place
  match place with
  | .matched index info =>
    some ((0, {
      index := index
      hash := shl64 info.ext (qf.qbits + qf.bits) ||| minirunId qf hash
      hashLen := (info.extSlots * qf.bits + qf.qbits + qf.bits : Nat) }), qf')
  | .endOfFilter none => some ((noSpace, out), qf')
  | .endOfFilter (some info) =>
    some ((noSpace, { out with hash := info.ext, hashLen := info.extSlots }), qf')
  | place => do
    let qf' ← if count > 1 then
        extendSame qf' (countIndex (insertBucket qf hash) place) hash (count-1)
      else some qf'
    let hashLen : Int := match place with
      | .inRun _ _ _ => if count > 1 then 0 else (qf.qbits + qf.bits : Nat)
      | _ => (qf.qbits + qf.bits : Nat)
    some ((1, { out with hash := minirunId qf hash, hashLen := hashLen }), qf')

def insert (qf : QF) (hash count : Nat) (out : InsertOut) (runtimeLock : Nat) :
    Option ((Int × InsertOut) × QF) :=
  withLock qf (insertBucket qf hash) true runtimeLock (couldntLock, out)
    (insertWork hash count out runtimeLock)

structure InsertResult where
  hash : Nat
  minirunId : Nat
  minirunRank : Nat
  minirunExisted : Bool
deriving DecidableEq

def minirunRank (qf : QF) (remainder : Nat) : Placement → Option (Nat × Bool)
  | .inRun _ currentIndex false => do
    let slot ← getSlot qf currentIndex
    if slot = remainder then do
      let rank ← countMinirun qf remainder qf.fuel currentIndex slot 0
      some (rank, true)
    else some (0, false)
  | _ => some (0, false)

def insertUsingLlTableWork (result : InsertResult) (count : Nat) (qf : QF) :
    Option ((Int × InsertResult) × QF) := do
  let place ← locateLl qf result.hash
  let (rank, existed) ← minirunRank qf (hashRemainder qf result.hash) place
  let result := if existed then { result with minirunRank := rank, minirunExisted := true }
    else result
  let qf' ← putItem qf (insertBucket qf result.hash) (hashRemainder qf result.hash) count place
  match place with
  | .endOfFilter _ => some ((noSpace, result), qf')
  | place => do
    let qf' ← if count > 1 then
        extendSame qf' (countIndex (insertBucket qf result.hash) place) result.hash (count-1)
      else some qf'
    some ((0, result), qf')

def insertUsingLlTable (qf : QF) (result : InsertResult) (count runtimeLock : Nat) :
    Option ((Int × InsertResult) × QF) :=
  withLock qf (insertBucket qf result.hash) true runtimeLock (couldntLock, result)
    (insertUsingLlTableWork result count)

/-- `noccupied_slots >= nslots * 0.95`, which the source computes in floating point. -/
def full (qf : QF) : Bool := 20 * qf.metadata.noccupiedSlots ≥ 19 * qf.metadata.nslots

def checkLoad (resize : QF → Nat → Option (Int × QF)) (qf : QF) : Option (Bool × QF) :=
  if full qf then
    if qf.autoResize then do
      let (r, qf) ← resize qf (qf.metadata.nslots * 2)
      some (!decide (r < 0), qf)
    else some (false, qf)
  else some (true, qf)

def qfInsertRet (resize : QF → Nat → Option (Int × QF)) (qf : QF) (key count : Nat)
    (out : InsertOut) (flags : Nat) : Option ((Int × InsertOut) × QF) := do
  let (ok, qf) ← checkLoad resize qf
  if !ok then some ((noSpace, out), qf)
  else if count = 0 then some ((0, out), qf)
  else insert qf (keyToHash qf key flags) count out flags

def qfInsertUsingLlTable (resize : QF → Nat → Option (Int × QF)) (qf : QF) (key count : Nat)
    (result : InsertResult) (flags : Nat) : Option ((Int × InsertResult) × QF) := do
  let (ok, qf) ← checkLoad resize qf
  if !ok then some ((noSpace, result), qf)
  else if count = 0 then some ((0, result), qf)
  else
    let hash := keyToHash qf key flags
    insertUsingLlTable qf ⟨hash, minirunId qf hash, 0, false⟩ count flags

/-! Where the new item goes, in terms of the contents. -/

inductive PlacedAt (A : Contents) (b : Nat) : List Item → List Item → Placement → Prop
  | home (hu : ¬ Used A.lens b) : PlacedAt A b [] [] .home
  | first (hu : Used A.lens b) (hb : A b = []) : PlacedAt A b [] [] (.first (start A.lens b))
  | between {l1 l2 : List Item} {y : Item} (hb : A b = l1 ++ y :: l2) :
      PlacedAt A b l1 (y :: l2) (.inRun (A.pos b l1) (A.pos b l1) false)
  | behind {l1 : List Item} {y : Item} (hb : A b = l1 ++ [y]) :
      PlacedAt A b (l1 ++ [y]) [] (.inRun (A.pos b l1 + y.len) (A.pos b l1) true)

def Placement.probe : Placement → Option Nat
  | .first index => some index
  | .inRun insertIndex _ _ => some insertIndex
  | _ => none

/-- The counters that a placement adds to: `n` elements only in a non-empty bucket. -/
def Placement.elts (n : Nat) : Placement → Nat
  | .inRun _ _ _ => n
  | _ => 1

section
variable {qf : QF} {A : Contents} {b : Nat} {l1 l2 : List Item} {it : Item} {hash : Nat}

theorem Geometry.insertBucket_eq (hg : Geometry qf.metadata) (hash : Nat) :
    insertBucket qf hash = qf.metadata.bucket hash := by
  have h1 := hg.hashBits
  have hp : 2^(qf.qbits + qf.bits) = 2^qf.bits * 2^qf.qbits := by rw [pow_add, Nat.mul_comm]
  rw [insertBucket, hg.minirunId_eq, shr64_eq _ (by unfold QF.bits; omega), hp,
    Nat.mod_mul_right_div_self]
  rfl

theorem PlacedAt.split {p : Placement} (hp : PlacedAt A b l1 l2 p) : A b = l1 ++ l2 := by
  cases hp with
  | home hu => exact Contents.lens_pos.not_left.mp (by rw [len_of_unused hu]; omega)
  | first hu hb => exact hb
  | between hb => exact hb
  | behind hb => simpa using hb

theorem PlacedAt.of_first {i : Nat} (hp : PlacedAt A b l1 l2 (.first i)) :
    Used A.lens b ∧ A b = [] := by
  cases hp with
  | first hu hb => exact ⟨hu, hb⟩

theorem Layout.putItem_home (h : Layout qf A) (hlt : b < qf.metadata.nslots)
    (hu : ¬ Used A.lens b) {rem : Nat} (hr : rem < 2^qf.bits) (n : Nat) :
    ∃ qf', putItem qf b rem n .home = some qf' ∧ (qf.countItem 1).SameFrame qf' ∧
      Layout qf' (Function.update A b [Item.fresh rem]) := by
  have hx := h.geometry.xnslots
  have hlens := Contents.lens_runs A
  have hb : A b = [] := (PlacedAt.home hu).split
  have hz : A.lens b = 0 := by simp [Contents.lens, hb]
  have hst := start_of_unused hu
  have hrun : A.runs b = [] ++ [] := by simp [Contents.runs, hb, runCells]
  have he : FirstUnused A.lens b b := ⟨Nat.le_refl b, hu, fun s h1 h2 => by omega⟩
  have hex : b < qf.xnslots := by
    unfold QF.xnslots
    omega
  have hset : setSlot qf b rem = some (putSlot qf b rem) := by
    unfold setSlot
    rw [if_pos hex]
  have hblank : (qf.view.cell b).extension = false := by
    rw [← hlens] at hu
    exact (h.holds.blank b hu).2
  have hview : (orOccupied (orRunend (putSlot qf b rem) b) b).view =
      ⟨shiftIn qf.view.cell b b ⟨rem, true, false⟩, Function.update qf.view.occupied b true,
        qf.view.offset⟩ := by
    rw [view_orOccupied, View.setOccupied, view_orRunend, View.setRunend, view_putSlot]
    refine View.ext (funext fun s => ?_) rfl rfl
    by_cases hs : s = b
    · subst hs
      simp [shiftIn, View.setValue, hblank]
    · have hout : ¬ (b < s ∧ s ≤ b) := by omega
      simp [shiftIn, View.setValue, hs, hout]
  have hnew : runCells [Item.fresh rem] = [] ++ ⟨rem, true, false⟩ :: [] := rfl
  have hfr : (qf.setCounts qf.metadata.nelts qf.metadata.ndistinctElts
      qf.metadata.noccupiedSlots).SameFrame (orOccupied (orRunend (putSlot qf b rem) b) b) :=
    ⟨rfl, rfl, rfl⟩
  have hlay : Layout (orOccupied (orRunend (putSlot qf b rem) b) b)
      (Function.update A b [Item.fresh rem]) := by
    apply h.replace hfr hlt _ _ _ (h.extent_grow hlt (by simp [hz, Item.len_fresh]) (by omega)
      (by omega) he hex) _ (by simp)
    · rw [hview, hnew]
      rw [← hlens] at he hst
      exact h.holds.insert hrun _ hst.symm he
    · rw [hview]
      rfl
    · intro j
      have hoff := h.offsets j
      rw [hview, hnew, lens_update_insert _ hrun]
      rw [hlens] at hoff ⊢
      by_cases hj : b < 64*j
      · rw [spill_grow (by omega) (by omega) he hj, if_neg (by omega)]
        exact hoff
      · rw [spill_grow_of_le (by omega)]
        exact hoff
    · intro it hit
      rw [List.mem_singleton.mp hit]
      exact Item.bounded_fresh hr
  refine ⟨(orOccupied (orRunend (putSlot qf b rem) b) b).countItem 1, ?_, ⟨rfl, rfl, rfl⟩,
    hlay.setCounts _ _ _⟩
  simp only [putItem, hset, Option.bind_eq_bind, Option.bind_some]

theorem Layout.putItem_first (h : Layout qf A) (hlt : b < qf.metadata.nslots)
    (hu : Used A.lens b) (hb : A b = []) {rem : Nat} (hr : rem < 2^qf.bits) (n : Nat)
    (hs : qf.FindsSpace (start A.lens b)) :
    ∃ qf', putItem qf b rem n (.first (start A.lens b)) = some qf' ∧
      (qf.countItem 1).SameFrame qf' ∧ Layout qf' (Function.update A b [Item.fresh rem]) := by
  have hrun : A.runs b = [] ++ [] := by simp [Contents.runs, hb, runCells]
  have hz : A.lens b = 0 := by simp [Contents.lens, hb]
  have hx : start A.lens b = start A.lens b + ([] : List Cell).length := rfl
  obtain ⟨qf1, hp⟩ := h.putCell hrun hu hlt hx rem hs
  obtain ⟨hat, hmod⟩ := hp.modify hx ⟨rem, true, false⟩
  have hview : (orOccupied (orRunend qf1 (start A.lens b)) b).view =
      ⟨Function.update qf1.view.cell (start A.lens b) ⟨rem, true, false⟩,
        Function.update qf1.view.occupied b true, qf1.view.offset⟩ := by
    rw [view_orOccupied, View.setOccupied, view_orRunend, View.setRunend, hat]
  have hf1 : qf1.SameFrame (orOccupied (orRunend qf1 (start A.lens b)) b) := ⟨rfl, rfl, rfl⟩
  have hlay : Layout (orOccupied (orRunend qf1 (start A.lens b)) b)
      (Function.update A b [Item.fresh rem]) := by
    apply hp.finish h hrun hlt hx hf1 _ _ _ (by simp [hz, Item.len_fresh]) _ (by simp)
    · rw [hview]
      exact hmod
    · rw [hview]
    · rw [hview]
    · intro it hit
      rw [List.mem_singleton.mp hit]
      exact Item.bounded_fresh hr
  refine ⟨_, ?_, (hp.frame.trans hf1).countItem 1, hlay.setCounts _ _ _⟩
  simp only [putItem, hp.done, Option.bind_eq_bind, Option.bind_some]

theorem Layout.putItem_between (h : Layout qf A) {y : Item} (hb : A b = l1 ++ y :: l2) {rem : Nat}
    (hr : rem < 2^qf.bits) (n : Nat) (hs : qf.FindsSpace (A.pos b l1))
    (hsort : (l1 ++ Item.fresh rem :: y :: l2).Pairwise fun x y => x.rem ≤ y.rem) :
    ∃ qf', putItem qf b rem n (.inRun (A.pos b l1) (A.pos b l1) false) = some qf' ∧
      (qf.countItem n).SameFrame qf' ∧
      Layout qf' (Function.update A b (l1 ++ Item.fresh rem :: y :: l2)) := by
  obtain ⟨qf1, hdone, hf1, hlay⟩ := h.insertBetween hb _ hr hs hsort
  refine ⟨qf1.countItem n, ?_, hf1.countItem n, hlay.setCounts _ _ _⟩
  simp only [putItem, hdone, Option.bind_eq_bind, Option.bind_some, Bool.false_eq_true, if_false]

theorem Layout.putItem_behind (h : Layout qf A) {y : Item} (hb : A b = l1 ++ [y]) {rem : Nat}
    (hr : rem < 2^qf.bits) (n : Nat) (hs : qf.FindsSpace (A.pos b l1 + y.len))
    (hsort : ((l1 ++ [y]) ++ Item.fresh rem :: []).Pairwise fun x y => x.rem ≤ y.rem) :
    ∃ qf', putItem qf b rem n (.inRun (A.pos b l1 + y.len) (A.pos b l1) true) = some qf' ∧
      (qf.countItem n).SameFrame qf' ∧
      Layout qf' (Function.update A b ((l1 ++ [y]) ++ Item.fresh rem :: [])) := by
  have hb2 : A b = (l1 ++ [y]) ++ [] := by simp [hb]
  have hne : A b ≠ [] := by simp [hb]
  have hcells : runCells (l1 ++ [y]) = initCells l1 ++ y.cells true := by
    rw [runCells_split]
    simp [runCells]
  have hrun : A.runs b = (initCells l1 ++ y.cells true) ++ [] := by
    rw [Contents.runs, hb, hcells, List.append_nil]
  have hpos : A.pos b l1 + y.len = start A.lens b + (initCells l1 ++ y.cells true).length := by
    simp [Contents.pos, Nat.add_assoc]
  have hlen : itemsLen ((l1 ++ [y]) ++ Item.fresh rem :: []) = A.lens b + 1 := by
    simp only [Contents.lens, hb, itemsLen_append, itemsLen_cons, itemsLen_nil, Item.len_fresh]
  obtain ⟨qf1, hp⟩ := h.putCell hrun (used_of_pos (Contents.lens_pos.mpr hne)) (h.bucket_lt hb)
    hpos rem hs
  obtain ⟨hat, hmod⟩ := hp.modify hpos ⟨rem, true, false⟩
  -- the new cell becomes the runend, the base cell of `y` stops being it
  have hsplit : (initCells l1 ++ y.cells true) ++ ⟨rem, true, false⟩ :: [] =
      initCells l1 ++ y.baseCell true :: (y.tail ++ [⟨rem, true, false⟩]) := by
    simp [Item.cells]
  have hnew : runCells ((l1 ++ [y]) ++ Item.fresh rem :: []) =
      initCells l1 ++ y.baseCell false :: (y.tail ++ [⟨rem, true, false⟩]) := by
    rw [runCells_split, Item.cells_fresh]
    simp [initCells, Item.cells, runCells]
  have hat2 := hmod.at (t := b) ((Function.update_self ..).trans hsplit)
  have hmod2 := hmod.modify (t := b) ((Function.update_self ..).trans hsplit) (y.baseCell false)
  have hst2 : start (RunLayout.lens (Function.update A.runs b
      ((initCells l1 ++ y.cells true) ++ ⟨rem, true, false⟩ :: []))) b +
        (initCells l1).length = A.pos b l1 := by
    have hl : RunLayout.lens (Function.update A.runs b
        ((initCells l1 ++ y.cells true) ++ ⟨rem, true, false⟩ :: [])) =
          RunLayout.lens (Function.update A.runs b
            ((initCells l1 ++ y.cells true) ++ ⟨rem, false, false⟩ :: [])) :=
      lens_update_congr A.runs b (by simp)
    rw [hl, hp.start, length_initCells, Contents.pos]
  rw [hst2] at hat2 hmod2
  rw [Function.update_idem, ← hnew] at hmod2
  have hview : (xorRunend (orRunend qf1 (A.pos b l1 + y.len)) (A.pos b l1)).view =
      ⟨Function.update (Function.update qf1.view.cell (A.pos b l1 + y.len) ⟨rem, true, false⟩)
        (A.pos b l1) (y.baseCell false), qf1.view.occupied, qf1.view.offset⟩ := by
    rw [view_xorRunend, View.setRunend, view_orRunend, View.setRunend, hat]
    simp only [hat2]
    rfl
  have hf1 : qf1.SameFrame (xorRunend (orRunend qf1 (A.pos b l1 + y.len)) (A.pos b l1)) :=
    ⟨rfl, rfl, rfl⟩
  have hlay : Layout (xorRunend (orRunend qf1 (A.pos b l1 + y.len)) (A.pos b l1))
      (Function.update A b ((l1 ++ [y]) ++ Item.fresh rem :: [])) := by
    apply hp.finish h hrun (h.bucket_lt hb) hpos hf1 _ _ _ hlen
      (bounded_insert h hb2 (Item.bounded_fresh hr)) hsort
    · rw [hview]
      exact hmod2
    · rw [hview, hp.occupied, h.occupied_self hne]
    · rw [hview]
  refine ⟨_, ?_, (hp.frame.trans hf1).countItem n, hlay.setCounts _ _ _⟩
  simp only [putItem, hp.done, Option.bind_eq_bind, Option.bind_some, if_true]

theorem Layout.putItem_eq (h : Layout qf A) {p : Placement} (hp : PlacedAt A b l1 l2 p)
    (hlt : b < qf.metadata.nslots) {rem : Nat} (hr : rem < 2^qf.bits) (n : Nat)
    (hs : ∀ x, p.probe = some x → qf.FindsSpace x)
    (hsort : (l1 ++ Item.fresh rem :: l2).Pairwise fun x y => x.rem ≤ y.rem) :
    ∃ qf', putItem qf b rem n p = some qf' ∧ (qf.countItem (p.elts n)).SameFrame qf' ∧
      Layout qf' (Function.update A b (l1 ++ Item.fresh rem :: l2)) := by
  cases hp with
  | home hu => exact h.putItem_home hlt hu hr n
  | first hu hb => exact h.putItem_first hlt hu hb hr n (hs _ rfl)
  | between hb => exact h.putItem_between hb hr n (hs _ rfl) hsort
  | behind hb => exact h.putItem_behind hb hr n (hs _ rfl) hsort

/-! The search for the place. -/

theorem Layout.locate_home (h : Layout qf A) (hu : ¬ Used A.lens b)
    (scan : Nat → Option Placement) :
    locate qf b scan = some .home := by
  have htest := h.row.empty_test h.offsets b
  rw [Contents.lens_runs] at htest
  obtain ⟨h1, h2⟩ := htest.mpr hu
  unfold locate
  simp [h1, h2]

theorem Layout.locate_used (h : Layout qf A) (hu : Used A.lens b) (scan : Nat → Option Placement) :
    locate qf b scan = if A b = [] then some (.first (start A.lens b))
      else scan (start A.lens b) := by
  have htest := h.row.empty_test h.offsets b
  have hend := h.row.runEnd_eq h.offsets b
  rw [Contents.lens_runs] at htest hend
  have hno : (mightBeEmpty qf b && start A.lens (b+1) - 1 == b) = false := by
    by_contra hc
    rw [Bool.not_eq_false, Bool.and_eq_true, beq_iff_eq] at hc
    exact htest.mp ⟨hc.1, by rw [hend, hc.2]⟩ hu
  have hocc : isOccupied qf b = decide (A b ≠ []) := h.occupied b
  unfold locate
  simp only [hend, Option.bind_eq_bind, Option.bind_some, hno, Bool.false_eq_true, if_false,
    h.runStart_eq, hocc]
  by_cases hb : A b = []
  · simp [hb]
  · obtain ⟨it, l, hl⟩ := List.exists_cons_of_ne_nil hb
    have hbase := (h.itemAt (hl.trans (List.nil_append _).symm)).base
    have hpos : A.pos b [] = start A.lens b := rfl
    rw [hpos] at hbase
    have hext : isExtensionOrCounter qf (start A.lens b) = false := congrArg Cell.extension hbase
    simp [hb, hext]

/-- Where `insert_using_ll_table` puts a remainder: in front of the first one that is no smaller. -/
theorem Layout.llScan_eq (h : Layout qf A) (hb : A b = l1 ++ l2) (hne : l2 ≠ []) (r : Nat)
    {fuel : Nat} (hf : l2.length ≤ fuel) :
    ∃ k1 k2 p, l2 = k1 ++ k2 ∧ (∀ x ∈ k1, x.rem < r) ∧ (∀ y ∈ k2.head?, r ≤ y.rem) ∧
      llScan qf r fuel (A.pos b l1) = some p ∧ PlacedAt A b (l1 ++ k1) k2 p := by
  induction l2 generalizing l1 fuel with
  | nil => exact absurd rfl hne
  | cons it l2 ih =>
    obtain ⟨fuel, rfl⟩ : ∃ n, fuel = n + 1 := ⟨fuel - 1, by simp at hf; omega⟩
    have hat := h.itemAt hb
    unfold llScan
    simp only [hat.getSlot_eq, Option.bind_eq_bind, Option.bind_some, hat.isRunend_eq,
      hat.skip h.row.blocks]
    by_cases hr : it.rem ≥ r
    · rw [if_pos hr]
      refine ⟨[], it :: l2, _, rfl, by simp, by simpa using hr, rfl, ?_⟩
      rw [List.append_nil]
      exact .between hb
    · rw [if_neg hr]
      by_cases hl : l2 = []
      · subst hl
        refine ⟨[it], [], _, rfl, ?_, by simp, rfl, .behind hb⟩
        intro x hx
        rw [List.mem_singleton.mp hx]
        omega
      · have hlt := h.next_lt hb hl
        have hcat : A b = (l1 ++ [it]) ++ l2 := by simp [hb]
        obtain ⟨k1, k2, p, hs, h1, h2, hscan, hp⟩ := ih hcat hl (by simp at hf; omega)
        rw [if_neg (by simpa using hl), if_pos hlt, ← A.pos_append b l1 it]
        refine ⟨it :: k1, k2, p, by rw [hs]; rfl, ?_, h2, hscan, by simpa using hp⟩
        intro x hx
        rcases List.mem_cons.mp hx with rfl | hx
        · omega
        · exact h1 x hx

def CodeMatches (qf : QF) (hash : Nat) (it : Item) : Prop :=
  it.rem = qf.metadata.remainder hash ∧
    it.packedExt qf.bits = hashExtension qf hash it.ext.length

theorem WF.codeMatches_iff (h : WF qf A) (hit : it ∈ A b) :
    CodeMatches qf hash it ↔ it.Matches qf.metadata hash := by
  have := h.geometry.hashExtension_iff (h.bounded b it hit) (h.fingerprint b it hit) hash
  unfold CodeMatches Item.Matches
  rw [eq_comm (a := it.packedExt qf.bits), this]

def CodeNearIn (qf : QF) (hash p : Nat) (l : List Item) : Prop :=
  ∀ k1 it k2, l = k1 ++ it :: k2 → it.rem = qf.metadata.remainder hash →
    (∀ x ∈ k1, ¬ CodeMatches qf hash x) → p + itemsLen k1 + it.len < 2^31

def CodeNear (qf : QF) (A : Contents) (hash : Nat) : Prop :=
  CodeNearIn qf hash (start A.lens (qf.metadata.bucket hash)) (A (qf.metadata.bucket hash))

theorem CodeNearIn.tail {p : Nat} (hn : CodeNearIn qf hash p (it :: l2))
    (hm : ¬ CodeMatches qf hash it) : CodeNearIn qf hash (p + it.len) l2 := by
  intro k1 x k2 hs hr hk
  have hfirst : ∀ y ∈ it :: k1, ¬ CodeMatches qf hash y := by
    intro y hy
    rcases List.mem_cons.mp hy with rfl | hy
    · exact hm
    · exact hk y hy
  have := hn (it :: k1) x k2 (by rw [hs]; rfl) hr hfirst
  rw [itemsLen_cons] at this
  omega

theorem WF.codeNear (h : WF qf A) (hn : Near qf.metadata A hash) : CodeNear qf A hash := by
  intro k1 x k2 hs hr hk
  apply hn k1 x k2 hs hr
  intro y hy hm
  exact hk y hy ((h.codeMatches_iff (b := qf.metadata.bucket hash) (by simp [hs, hy])).mpr hm)

/-- Where `insert` ends up: at the first item that matches, or without one behind all items whose
remainder is not larger. With the flag it goes in front of its own remainder. -/
inductive InsertScanned (qf : QF) (A : Contents) (b hash : Nat) (force : Bool) :
    List Item → List Item → Placement → Prop
  | matched {l k j : List Item} {it : Item} (hf : force = false) (hm : CodeMatches qf hash it)
      (h1 : ∀ x ∈ k, ¬ CodeMatches qf hash x) :
      InsertScanned qf A b hash force l (k ++ it :: j)
        (.matched (A.pos b (l ++ k)) (it.info qf.bits))
  | place {l k j : List Item} {p : Placement}
      (h1 : ∀ x ∈ k, x.rem ≤ qf.metadata.remainder hash)
      (h2 : ∀ y ∈ j.head?, qf.metadata.remainder hash ≤ y.rem)
      (hm : force = false → (∀ x ∈ k, ¬ CodeMatches qf hash x) ∧
        ∀ y ∈ j.head?, qf.metadata.remainder hash < y.rem)
      (hp : PlacedAt A b (l ++ k) j p) : InsertScanned qf A b hash force l (k ++ j) p

theorem Layout.insertScan_eq (h : Layout qf A) (hb : A b = l1 ++ l2) (hne : l2 ≠ [])
    {force : Bool} (hn : force = false → CodeNearIn qf hash (A.pos b l1) l2) {fuel : Nat}
    (hf : l2.length ≤ fuel) (last : Option SlotInfo) :
    ∃ p, insertScan qf hash force fuel (A.pos b l1) last = some p ∧
      InsertScanned qf A b hash force l1 l2 p := by
  induction l2 generalizing l1 fuel last with
  | nil => exact absurd rfl hne
  | cons it l2 ih =>
    obtain ⟨fuel, rfl⟩ : ∃ n, fuel = n + 1 := ⟨fuel - 1, by simp at hf; omega⟩
    have hat := h.itemAt hb
    have hcat : A b = (l1 ++ [it]) ++ l2 := by simp [hb]
    have hrem : hashRemainder qf hash = qf.metadata.remainder hash :=
      h.geometry.hashRemainder_eq hash
    have hlen : A.pos b l1 + (it.cnt.length + it.ext.length + 1) = A.pos b l1 + it.len := by
      unfold Item.len
      omega
    have hlen2 : A.pos b l1 + 1 + it.ext.length + it.cnt.length = A.pos b l1 + it.len := by
      unfold Item.len
      omega
    -- behind the item the place is found, or the walk goes on
    have hbehind : l2 = [] → it.rem ≤ qf.metadata.remainder hash →
        (force = false → ¬ CodeMatches qf hash it) →
          InsertScanned qf A b hash force l1 (it :: l2)
            (.inRun (A.pos b l1 + it.len) (A.pos b l1) true) := by
      intro hl hle hm
      subst hl
      refine .place (k := [it]) (j := []) ?_ (by simp) (fun hforce => ⟨?_, by simp⟩) (.behind hb)
      · intro x hx
        rw [List.mem_singleton.mp hx]
        exact hle
      · intro x hx
        rw [List.mem_singleton.mp hx]
        exact hm hforce
    have hon : ∀ last, l2 ≠ [] → it.rem ≤ qf.metadata.remainder hash →
        (force = false → ¬ CodeMatches qf hash it) →
          ∃ p, insertScan qf hash force fuel (A.pos b l1 + it.len) last = some p ∧
            InsertScanned qf A b hash force l1 (it :: l2) p := by
      intro last hl hle hm
      have htail : force = false → CodeNearIn qf hash (A.pos b (l1 ++ [it])) l2 := by
        intro hforce
        rw [A.pos_append]
        exact (hn hforce).tail (hm hforce)
      obtain ⟨p, hscan, hp⟩ := ih hcat hl htail (by simp at hf; omega) last
      rw [A.pos_append] at hscan
      refine ⟨p, hscan, ?_⟩
      cases hp with
      | matched hforce hmatch h1 =>
        rw [List.append_assoc]
        refine .matched (k := it :: _) hforce hmatch ?_
        intro x hx
        rcases List.mem_cons.mp hx with rfl | hx
        · exact hm hforce
        · exact h1 x hx
      | place h1 h2 h3 hp =>
        rw [List.append_assoc] at hp
        refine .place (k := it :: _) ?_ h2 (fun hforce => ⟨?_, (h3 hforce).2⟩) hp
        · intro x hx
          rcases List.mem_cons.mp hx with rfl | hx
          · exact hle
          · exact h1 x hx
        · intro x hx
          rcases List.mem_cons.mp hx with rfl | hx
          · exact hm hforce
          · exact (h3 hforce).1 x hx
    unfold insertScan
    simp only [hat.getSlot_eq, Option.bind_eq_bind, Option.bind_some, hat.isRunend_eq,
      hat.skip h.row.blocks, hrem, hat.getSlotInfo_eq h.row.blocks]
    by_cases hgt : it.rem > qf.metadata.remainder hash
    · rw [if_pos hgt]
      refine ⟨_, rfl, .place (k := []) (j := it :: l2) (by simp) ?_ (fun _ => ⟨by simp, ?_⟩) ?_⟩
      · simpa using hgt.le
      · simpa using hgt
      · rw [List.append_nil]
        exact .between hb
    · rw [if_neg hgt]
      by_cases heq : it.rem = qf.metadata.remainder hash
      · rw [if_pos heq]
        by_cases hforce : force = true
        · rw [if_pos hforce]
          refine ⟨_, rfl, .place (k := []) (j := it :: l2) (by simp) ?_ (fun hc => ?_) ?_⟩
          · simpa using heq.ge
          · rw [hforce] at hc
            exact absurd hc (by simp)
          · rw [List.append_nil]
            exact .between hb
        · have hnear := hn (by simpa using hforce) [] it l2 rfl heq (by simp)
          rw [itemsLen_nil, Nat.add_zero] at hnear
          rw [if_neg hforce, if_pos hnear, Option.bind_some]
          simp only [Item.info, hlen, hlen2]
          by_cases hm : it.packedExt qf.bits = hashExtension qf hash it.ext.length
          · rw [if_pos hm]
            refine ⟨_, rfl, ?_⟩
            have hmat :=
              @InsertScanned.matched qf A b hash force l1 [] l2 it (by simpa using hforce)
              ⟨heq, hm⟩ (by simp)
            rw [List.append_nil] at hmat
            exact hmat
          · have hno : force = false → ¬ CodeMatches qf hash it := fun _ hc => hm hc.2
            rw [if_neg hm]
            by_cases hl : l2 = []
            · rw [if_pos (by simp [hl])]
              exact ⟨_, rfl, hbehind hl heq.le hno⟩
            · rw [if_neg (by simpa using hl), if_pos (h.next_lt hb hl)]
              exact hon _ hl heq.le hno
      · have hno : force = false → ¬ CodeMatches qf hash it := fun _ hc => heq hc.1
        rw [if_neg heq]
        by_cases hl : l2 = []
        · rw [if_pos (by simp [hl])]
          exact ⟨_, rfl, hbehind hl (by omega) hno⟩
        · rw [if_neg (by simpa using hl), if_pos (h.next_lt hb hl)]
          exact hon _ hl (by omega) hno

/-! The insert functions, for a count of 1. -/

structure Places (qf : QF) (A : Contents) (hash : Nat) (l1 l2 : List Item) (p : Placement) :
    Prop where
  placed : PlacedAt A (qf.metadata.bucket hash) l1 l2 p
  lower : ∀ x ∈ l1, x.rem ≤ qf.metadata.remainder hash
  upper : ∀ y ∈ l2, qf.metadata.remainder hash ≤ y.rem

theorem Places.sorted {p : Placement} (h : Layout qf A) (hp : Places qf A hash l1 l2 p) :
    (l1 ++ Item.fresh (qf.metadata.remainder hash) :: l2).Pairwise fun x y => x.rem ≤ y.rem :=
  sorted_insert (h.sorted_append hp.placed.split) hp.lower hp.upper

theorem Layout.locateLl_eq (h : Layout qf A) (hash : Nat) :
    ∃ l1 l2 p, locateLl qf hash = some p ∧ Places qf A hash l1 l2 p ∧
      ∀ x ∈ l1, x.rem < qf.metadata.remainder hash := by
  obtain ⟨b, hbk⟩ : ∃ b, b = qf.metadata.bucket hash := ⟨_, rfl⟩
  unfold locateLl
  rw [h.geometry.insertBucket_eq, h.geometry.hashRemainder_eq, ← hbk]
  by_cases hu : Used A.lens b
  · rw [h.locate_used hu]
    by_cases hb : A b = []
    · rw [if_pos hb]
      exact ⟨[], [], _, rfl, ⟨hbk ▸ .first hu hb, by simp, by simp⟩, by simp⟩
    · have hsplit : A b = [] ++ A b := rfl
      have hpos : A.pos b [] = start A.lens b := rfl
      obtain ⟨k1, k2, p, hs, h1, h2, hscan, hp⟩ :=
        h.llScan_eq hsplit hb (qf.metadata.remainder hash) (h.length_le_fuel b)
      rw [hpos] at hscan
      rw [if_neg hb]
      have hsort := h.sorted b
      rw [hs, List.pairwise_append] at hsort
      exact ⟨k1, k2, p, hscan, ⟨hbk ▸ hp, fun x hx => (h1 x hx).le, le_of_head hsort.2.1 h2⟩, h1⟩
  · rw [h.locate_home hu]
    exact ⟨[], [], _, rfl, ⟨hbk ▸ .home hu, by simp, by simp⟩, by simp⟩

theorem Layout.locateInsert_eq (h : Layout qf A) (flags : Nat)
    (hn : hasFlag flags QF_TRY_ONCE_LOCK = false → CodeNear qf A hash) :
    ∃ p, locateInsert qf hash flags = some p ∧
      ((∃ l1 it l2, A (qf.metadata.bucket hash) = l1 ++ it :: l2 ∧ CodeMatches qf hash it ∧
        (∀ x ∈ l1, ¬ CodeMatches qf hash x) ∧
          p = .matched (A.pos (qf.metadata.bucket hash) l1) (it.info qf.bits)) ∨
      ∃ l1 l2, Places qf A hash l1 l2 p ∧ (hasFlag flags QF_TRY_ONCE_LOCK = false →
        (∀ x ∈ A (qf.metadata.bucket hash), ¬ CodeMatches qf hash x) ∧
          ∀ y ∈ l2, qf.metadata.remainder hash < y.rem)) := by
  obtain ⟨b, hbk⟩ : ∃ b, b = qf.metadata.bucket hash := ⟨_, rfl⟩
  unfold locateInsert
  rw [h.geometry.insertBucket_eq, ← hbk]
  have hnone : A b = [] → (∀ x ∈ A b, ¬ CodeMatches qf hash x) ∧
      ∀ y ∈ ([] : List Item), qf.metadata.remainder hash < y.rem := by
    intro hb
    rw [hb]
    exact ⟨by simp, by simp⟩
  by_cases hu : Used A.lens b
  · rw [h.locate_used hu]
    by_cases hb : A b = []
    · rw [if_pos hb]
      exact ⟨_, rfl, .inr ⟨[], [], ⟨hbk ▸ .first hu hb, by simp, by simp⟩, fun _ => hnone hb⟩⟩
    · have hsplit : A b = [] ++ A b := rfl
      have hpos : A.pos b [] = start A.lens b := rfl
      unfold CodeNear at hn
      rw [← hbk, ← hpos] at hn
      obtain ⟨p, hscan, hp⟩ := h.insertScan_eq hsplit hb hn (h.length_le_fuel b) none
      rw [hpos] at hscan
      rw [if_neg hb]
      refine ⟨p, hscan, ?_⟩
      have hsort := h.sorted b
      generalize hl : A b = l at hp hsort ⊢
      cases hp with
      | matched hf hm h1 => exact .inl ⟨_, _, _, rfl, hm, h1, rfl⟩
      | place h1 h2 hm hp =>
        rw [List.pairwise_append] at hsort
        have hup := le_of_head hsort.2.1 h2
        refine .inr ⟨_, _, ⟨hbk ▸ hp, h1, hup⟩, fun hforce => ?_⟩
        obtain ⟨hm1, hm2⟩ := hm hforce
        have hlt := le_of_head hsort.2.1 hm2
        refine ⟨fun x hx => ?_, hlt⟩
        rcases List.mem_append.mp hx with hx | hx
        · exact hm1 x hx
        · intro hc
          have := hlt x hx
          rw [hc.1] at this
          exact absurd this (Nat.lt_irrefl _)
  · have hb : A b = [] := (PlacedAt.home hu).split
    rw [h.locate_home hu]
    exact ⟨_, rfl, .inr ⟨[], [], ⟨hbk ▸ .home hu, by simp, by simp⟩, fun _ => hnone hb⟩⟩

def LlFindsSpace (qf : QF) (hash : Nat) : Prop :=
  ∀ p x, locateLl qf hash = some p → p.probe = some x → qf.FindsSpace x

def InsertFindsSpace (qf : QF) (hash flags : Nat) : Prop :=
  ∀ p x, locateInsert qf hash flags = some p → p.probe = some x → qf.FindsSpace x

instance (qf : QF) (hash : Nat) : Decidable (LlFindsSpace qf hash) :=
  decidable_of_iff (∀ p ∈ locateLl qf hash, ∀ x ∈ p.probe, qf.FindsSpace x)
    ⟨fun h p x hp hx => h p hp x hx, fun h p hp x hx => h p x hp hx⟩

def llRank (qf : QF) (hash : Nat) : Option (Nat × Bool) := do
  let place ← locateLl qf hash
  minirunRank qf (hashRemainder qf hash) place

structure Inserted (qf : QF) (A : Contents) (hash : Nat) (l1 l2 : List Item) (p : Placement)
    (qf' : QF) : Prop where
  places : Places qf A hash l1 l2 p
  layout : Layout qf' (Function.update A (qf.metadata.bucket hash)
    (l1 ++ Item.fresh (qf.metadata.remainder hash) :: l2))

theorem Places.put (h : Layout qf A) {p : Placement} (hp : Places qf A hash l1 l2 p) (n : Nat)
    (hs : ∀ x, p.probe = some x → qf.FindsSpace x) :
    ∃ qf', putItem qf (insertBucket qf hash) (hashRemainder qf hash) n p = some qf' ∧
      (qf.countItem (p.elts n)).SameFrame qf' ∧ Inserted qf A hash l1 l2 p qf' := by
  obtain ⟨qf', h1, h2, h3⟩ := h.putItem_eq hp.placed (h.geometry.bucket_lt hash)
    (Geometry.remainder_lt qf hash) n hs (hp.sorted h)
  rw [h.geometry.insertBucket_eq, h.geometry.hashRemainder_eq]
  exact ⟨qf', h1, h2, hp, h3⟩

theorem Layout.insertUsingLlTableWork_eq (h : Layout qf A) (result : InsertResult)
    (hs : LlFindsSpace qf result.hash) {rank : Nat} {existed : Bool}
    (hr : llRank qf result.hash = some (rank, existed)) :
    ∃ qf' l1 l2 p, insertUsingLlTableWork result 1 qf = some ((0, if existed then
        { result with minirunRank := rank, minirunExisted := true } else result), qf') ∧
      (qf.countItem 1).SameFrame qf' ∧ Inserted qf A result.hash l1 l2 p qf' ∧
      ∀ x ∈ l1, x.rem < qf.metadata.remainder result.hash := by
  obtain ⟨l1, l2, p, hp, hpl, hlt⟩ := h.locateLl_eq result.hash
  obtain ⟨qf', h1, h2, h3⟩ := hpl.put h 1 fun x hx => hs p x hp hx
  have helts : p.elts 1 = 1 := by cases p <;> rfl
  have hrank : minirunRank qf (hashRemainder qf result.hash) p = some (rank, existed) := by
    rw [llRank, hp] at hr
    exact hr
  rw [helts] at h2
  refine ⟨qf', l1, l2, p, ?_, h2, h3, hlt⟩
  have hhash : (if existed then { result with minirunRank := rank, minirunExisted := true }
      else result).hash = result.hash := by
    cases existed <;> rfl
  unfold insertUsingLlTableWork
  simp only [hp, hrank, Option.bind_eq_bind, Option.bind_some, hhash, h1]
  cases hpl.placed <;> rfl

/-- What the rank loop takes two neighbours in a run for: an item of the remainder `r` takes one
slot, or it is the last of them and the slot behind its base slot does not hold `r`. -/
def RankReads (r : Nat) (l : List Item) : Prop :=
  l.IsChain fun y z => y.rem = r → y.len = 1 ∨ z.rem ≠ r ∧ (y.ext ++ y.cnt).head? ≠ some r

/-- In front of the last item of the run, the slot behind the base slot of an item with the
remainder is not an extension or counter slot of that value. -/
def RankStops (r : Nat) (l : List Item) : Prop :=
  l.IsChain fun y _ => y.rem = r → y.len = 1 ∨ (y.ext ++ y.cnt).head? ≠ some r

/-- The slot behind the base slot of an item that takes more. -/
theorem ItemAt.second {p : Nat} {last : Bool} (h : ItemAt qf p it last) (hlen : it.len ≠ 1) :
    p + 1 < qf.xnslots ∧ (it.ext ++ it.cnt).head? = some (slotValue qf (p+1)) := by
  have hfits := h.fits
  have hcell : ∀ {v c}, c = Item.extCell v ∨ c = Item.cntCell v → qf.view.cell (p+1) = c →
      slotValue qf (p+1) = v := by
    intro v c hc heq
    have hval := congrArg Cell.value heq
    cases hc with
    | inl hc => rw [hc] at hval; exact hval
    | inr hc => rw [hc] at hval; exact hval
  unfold Item.len at hlen hfits
  refine ⟨by omega, ?_⟩
  cases hext : it.ext with
  | cons v l =>
    have hv := h.ext 0 v (by simp [hext])
    rw [hcell (.inl rfl) hv]
    rfl
  | nil =>
    rw [hext] at hlen
    cases hcnt : it.cnt with
    | cons v l =>
      have hv := h.cnt 0 v (by simp [hcnt])
      rw [hext] at hv
      rw [hcell (.inr rfl) hv]
      rfl
    | nil =>
      rw [hcnt] at hlen
      simp at hlen

/-- From an item of another remainder on nothing is counted. -/
theorem countMinirun_stop {r tempIndex tempRemainder : Nat} (hne : tempRemainder ≠ r) {fuel : Nat}
    (hf : 0 < fuel) (rank : Nat) :
    countMinirun qf r fuel tempIndex tempRemainder rank = some rank := by
  obtain ⟨fuel, rfl⟩ : ∃ n, fuel = n + 1 := ⟨fuel - 1, by omega⟩
  rw [countMinirun, if_neg hne]

/-- From an item in front of another one the loop goes on with that, or it stops at a slot of the
item. -/
theorem Layout.countMinirun_next (h : Layout qf A) {y z : Item} (hb : A b = l1 ++ y :: z :: l2)
    {r : Nat} (hr : y.rem = r) {fuel : Nat} (hf : 0 < fuel) (rank : Nat) :
    (y.len = 1 → countMinirun qf r (fuel+1) (A.pos b l1) y.rem rank =
      countMinirun qf r fuel (A.pos b (l1 ++ [y])) z.rem (rank+1)) ∧
    (y.len ≠ 1 → (y.ext ++ y.cnt).head? ≠ some r →
      countMinirun qf r (fuel+1) (A.pos b l1) y.rem rank = some (rank+1)) := by
  have hat := h.itemAt hb
  have hcat : A b = (l1 ++ [y]) ++ z :: l2 := by simp [hb]
  have hext : extensionBit qf (A.pos b l1) = false := congrArg Cell.extension hat.base
  have hskip : skipExtensions qf qf.fuel (A.pos b l1) = some (A.pos b l1) :=
    skipExtensions_eq (fun s h1 h2 => by omega) hext (Nat.le_refl _) (by unfold QF.fuel; omega)
  have hnext : countMinirun qf r (fuel+1) (A.pos b l1) y.rem rank =
      (getSlot qf (A.pos b l1 + 1)).bind fun slot =>
        countMinirun qf r fuel (A.pos b l1 + 1) slot (rank+1) := by
    rw [countMinirun, if_pos hr, hat.isRunend_eq]
    simp only [List.isEmpty_cons, Bool.false_eq_true, if_false, hskip, Option.bind_eq_bind,
      Option.bind_some]
  rw [hnext]
  constructor
  · intro hone
    have hpos := A.pos_append b l1 y
    rw [hone] at hpos
    have hslot := (h.itemAt hcat).getSlot_eq
    rw [hpos] at hslot ⊢
    rw [hslot, Option.bind_some]
  · intro hmore hother
    obtain ⟨hin, hsecond⟩ := hat.second hmore
    have hne : slotValue qf (A.pos b l1 + 1) ≠ r := by
      rintro heq
      exact hother (hsecond.trans (congrArg some heq))
    have hslot : getSlot qf (A.pos b l1 + 1) = some (slotValue qf (A.pos b l1 + 1)) := by
      rw [getSlot, if_neg (by omega), if_pos hin]
    rw [hslot, Option.bind_some, countMinirun_stop hne hf]

theorem Layout.countMinirun_last (h : Layout qf A) {y : Item} (hb : A b = l1 ++ [y]) (r : Nat)
    {fuel : Nat} (hf : 0 < fuel) (rank : Nat) : countMinirun qf r fuel (A.pos b l1) y.rem rank =
      some (rank + ([y].takeWhile fun x => x.rem = r).length) := by
  obtain ⟨fuel, rfl⟩ : ∃ n, fuel = n + 1 := ⟨fuel - 1, by omega⟩
  unfold countMinirun
  rw [(h.itemAt hb).isRunend_eq]
  by_cases hr : y.rem = r <;> simp [hr]

theorem Layout.countMinirun_eq (h : Layout qf A) {y : Item} (hb : A b = l1 ++ y :: l2) {r : Nat}
    (hreads : RankReads r (y :: l2)) {fuel : Nat} (hf : l2.length + 1 < fuel) (rank : Nat) :
    countMinirun qf r fuel (A.pos b l1) y.rem rank =
      some (rank + ((y :: l2).takeWhile fun x => x.rem = r).length) := by
  induction l2 generalizing l1 y fuel rank with
  | nil => exact h.countMinirun_last hb r (by omega) rank
  | cons z l2 ih =>
    obtain ⟨fuel, rfl⟩ : ∃ n, fuel = n + 1 := ⟨fuel - 1, by omega⟩
    have hcat : A b = (l1 ++ [y]) ++ z :: l2 := by simp [hb]
    obtain ⟨hyz, htail⟩ := List.isChain_cons_cons.mp hreads
    by_cases hr : y.rem = r
    · have htake : (y :: z :: l2).takeWhile (fun x => x.rem = r) =
          y :: (z :: l2).takeWhile fun x => x.rem = r :=
        List.takeWhile_cons_of_pos (by simpa using hr)
      obtain ⟨hgo, hstop⟩ := h.countMinirun_next hb hr (by omega : 0 < fuel) rank
      rw [htake, List.length_cons]
      by_cases hone : y.len = 1
      · rw [hgo hone, ih hcat htail (by simpa using hf) (rank+1)]
        congr 1
        omega
      · obtain ⟨hlast, hother⟩ := (hyz hr).resolve_left hone
        rw [hstop hone hother, List.takeWhile_cons_of_neg (by simpa using hlast), List.length_nil]
    · rw [countMinirun_stop hr (by omega), List.takeWhile_cons_of_neg (by simpa using hr)]
      rfl

theorem Layout.countMinirun_isSome (h : Layout qf A) {y : Item} (hb : A b = l1 ++ y :: l2) {r : Nat}
    (hstops : RankStops r (y :: l2)) {fuel : Nat} (hf : l2.length + 1 < fuel) (rank : Nat) :
    (countMinirun qf r fuel (A.pos b l1) y.rem rank).isSome := by
  induction l2 generalizing l1 y fuel rank with
  | nil => rw [h.countMinirun_last hb r (by omega), Option.isSome_some]
  | cons z l2 ih =>
    obtain ⟨fuel, rfl⟩ : ∃ n, fuel = n + 1 := ⟨fuel - 1, by omega⟩
    have hcat : A b = (l1 ++ [y]) ++ z :: l2 := by simp [hb]
    obtain ⟨hyz, htail⟩ := List.isChain_cons_cons.mp hstops
    by_cases hr : y.rem = r
    · obtain ⟨hgo, hstop⟩ := h.countMinirun_next hb hr (by omega : 0 < fuel) rank
      by_cases hone : y.len = 1
      · rw [hgo hone]
        exact ih hcat htail (by simpa using hf) (rank+1)
      · rw [hstop hone ((hyz hr).resolve_left hone), Option.isSome_some]
    · rw [countMinirun_stop hr (by omega), Option.isSome_some]

theorem takeWhile_length_of_sorted (m : QFMetadata) (hash : Nat) {l : List Item}
    (hs : l.Pairwise fun x y => x.rem ≤ y.rem) (h1 : ∀ x ∈ l, m.remainder hash ≤ x.rem) :
    (l.takeWhile fun x => x.rem = m.remainder hash).length = rankOf m hash l := by
  induction l with
  | nil => rfl
  | cons x l ih =>
    obtain ⟨hx, hs⟩ := List.pairwise_cons.mp hs
    have ih := ih hs fun y hy => h1 y (by simp [hy])
    by_cases hr : x.rem = m.remainder hash
    · rw [List.takeWhile_cons_of_pos (by simpa using hr), List.length_cons, ih]
      simp [rankOf, hr]
    · have hlt : m.remainder hash < x.rem := by
        have := h1 x (by simp)
        omega
      have hno : rankOf m hash (x :: l) = 0 := by
        rw [rankOf, List.countP_eq_zero]
        intro y hy
        rcases List.mem_cons.mp hy with rfl | hy
        · simpa using hr
        · have := hx y hy
          simp
          omega
      rw [List.takeWhile_cons_of_neg (by simpa using hr), hno]
      rfl

theorem Layout.llRank_eq (h : Layout qf A)
    (hreads : RankReads (qf.metadata.remainder hash) (A (qf.metadata.bucket hash))) :
    llRank qf hash = some (rankOf qf.metadata hash (A (qf.metadata.bucket hash)),
      decide (0 < rankOf qf.metadata hash (A (qf.metadata.bucket hash)))) := by
  obtain ⟨l1, l2, p, hp, hpl, hlt⟩ := h.locateLl_eq hash
  have hsplit := hpl.placed.split
  have hsort := h.sorted_append hsplit
  have hlen := h.length_lt_fuel (qf.metadata.bucket hash)
  have hrank : rankOf qf.metadata hash (A (qf.metadata.bucket hash)) =
      rankOf qf.metadata hash l2 := by
    have h0 : rankOf qf.metadata hash l1 = 0 := by
      rw [rankOf, List.countP_eq_zero]
      intro x hx
      have := hlt x hx
      simp
      omega
    rw [hsplit, rankOf, List.countP_append]
    unfold rankOf at h0 ⊢
    omega
  rw [llRank, hp, Option.bind_eq_bind, Option.bind_some, h.geometry.hashRemainder_eq, hrank]
  have hnil : some ((0 : Nat), false) = some (rankOf qf.metadata hash [],
      decide (0 < rankOf qf.metadata hash [])) := rfl
  generalize hb : qf.metadata.bucket hash = b at hpl hsplit hreads hlen
  have hplaced := hpl.placed
  rw [hb] at hplaced
  cases hplaced with
  | home hu => exact hnil
  | first hu hb => exact hnil
  | behind hb => exact hnil
  | @between l1 l2 y hby =>
    have hat := h.itemAt hby
    have hfuel : l2.length + 1 < qf.fuel := by
      rw [hsplit, List.length_append, List.length_cons] at hlen
      omega
    rw [hby] at hreads
    have hcount := h.countMinirun_eq hby hreads.right_of_append hfuel 0
    have htake := takeWhile_length_of_sorted qf.metadata hash
      (List.pairwise_append.mp hsort).2.1 hpl.upper
    rw [htake, Nat.zero_add] at hcount
    unfold minirunRank
    simp only [hat.getSlot_eq, Option.bind_eq_bind, Option.bind_some, hcount]
    by_cases hr : y.rem = qf.metadata.remainder hash
    · have hpos : 0 < rankOf qf.metadata hash (y :: l2) := by
        simp [rankOf, hr]
      rw [if_pos hr, decide_eq_true hpos]
    · rw [← htake, List.takeWhile_cons_of_neg (by simpa using hr), if_neg hr]
      rfl

theorem Layout.llRank_isSome (h : Layout qf A)
    (hstops : RankStops (qf.metadata.remainder hash) (A (qf.metadata.bucket hash))) :
    (llRank qf hash).isSome := by
  obtain ⟨l1, l2, p, hp, hpl, -⟩ := h.locateLl_eq hash
  have hlen := h.length_lt_fuel (qf.metadata.bucket hash)
  rw [llRank, hp, Option.bind_eq_bind, Option.bind_some, h.geometry.hashRemainder_eq]
  have hplaced := hpl.placed
  generalize hbk : qf.metadata.bucket hash = b at hplaced hstops hlen
  cases hplaced with
  | home hu => rfl
  | first hu hb => rfl
  | behind hb => rfl
  | @between l1 l2 y hby =>
    have hfuel : l2.length + 1 < qf.fuel := by
      rw [hby, List.length_append, List.length_cons] at hlen
      omega
    rw [hby] at hstops
    obtain ⟨rank, hrank⟩ := Option.isSome_iff_exists.mp
      (h.countMinirun_isSome hby hstops.right_of_append hfuel 0)
    unfold minirunRank
    simp only [(h.itemAt hby).getSlot_eq, Option.bind_eq_bind, Option.bind_some, hrank]
    split <;> rfl

theorem insertWork_matched {flags : Nat}
    (hp : locateInsert qf hash flags =
      some (.matched (A.pos (qf.metadata.bucket hash) l1) (it.info qf.bits)))
    (count : Nat) (out : InsertOut) :
    insertWork hash count out flags qf = some ((0, ⟨A.pos (qf.metadata.bucket hash) l1,
      minirunId qf hash ||| shl64 (it.packedExt qf.bits) (qf.qbits + qf.bits),
        (qf.metadata.fingerprintLen it.ext.length : Nat)⟩), qf) := by
  have hlen : it.ext.length * qf.bits + qf.qbits + qf.bits =
      qf.metadata.fingerprintLen it.ext.length := by
    unfold QFMetadata.fingerprintLen
    rw [Nat.mul_comm]
  unfold insertWork
  simp only [hp, Option.bind_eq_bind, Option.bind_some, putItem, Item.info, hlen, Nat.or_comm]

theorem Layout.insertWork_placed (h : Layout qf A) {flags : Nat} {p : Placement}
    (hp : locateInsert qf hash flags = some p) (hpl : Places qf A hash l1 l2 p)
    (hs : InsertFindsSpace qf hash flags) (out : InsertOut) :
    ∃ qf', insertWork hash 1 out flags qf = some ((1, ⟨out.index, minirunId qf hash,
        (qf.qbits + qf.bits : Nat)⟩), qf') ∧ (qf.countItem 1).SameFrame qf' ∧
      Inserted qf A hash l1 l2 p qf' := by
  obtain ⟨qf', h1, h2, h3⟩ := hpl.put h 1 fun x hx => hs p x hp hx
  have helts : p.elts 1 = 1 := by cases p <;> rfl
  rw [helts] at h2
  refine ⟨qf', ?_, h2, h3⟩
  unfold insertWork
  simp only [hp, Option.bind_eq_bind, Option.bind_some, h1]
  cases hpl.placed <;> rfl

/-! Counts above 1. -/

theorem PlacedAt.countIndex_eq {p : Placement} (hp : PlacedAt A b l1 l2 p)
    (hfirst : ∀ i, p ≠ .first i) : countIndex b p = A.pos b l1 := by
  cases hp with
  | home hu => exact (start_of_unused hu).symm
  | first hu hb => exact absurd rfl (hfirst _)
  | between hb => rfl
  | behind hb => exact (A.pos_append b _ _).symm

theorem Item.addCount_plain (hc : it.cnt = []) (w n : Nat) :
    it.addCount w n = it.withCounter (Nat.digits (2^w) (1+n)) := by
  simp [addCount, hc, count, Digits.low]

def counterOf (w count : Nat) : List Nat := if count = 1 then [] else Nat.digits (2^w) count

structure Countable (qf : QF) (A : Contents) (hash : Nat) (l1 : List Item) (p : Placement) :
    Prop where
  first : ∀ i, p ≠ .first i
  low : A.pos (qf.metadata.bucket hash) l1 + 1 < 2^31

theorem PlacedAt.probe_eq {p : Placement} (hp : PlacedAt A b l1 l2 p) {x : Nat}
    (hx : p.probe = some x) : x = A.pos b l1 := by
  cases hp with
  | home hu => cases hx
  | first hu hb => exact (Option.some.inj hx).symm
  | between hb => exact (Option.some.inj hx).symm
  | @behind l1 y hb =>
    rw [A.pos_append b l1 y]
    exact (Option.some.inj hx).symm

/-- The item with its count. -/
theorem Places.putCount (h : Layout qf A) {p : Placement} (hp : Places qf A hash l1 l2 p) (n : Nat)
    {count : Nat} (hc : 0 < count) (hlt : count < 2^64)
    (hspace : (counterOf qf.bits count).length < A.free qf (A.pos (qf.metadata.bucket hash) l1))
    (hcount : 1 < count → Countable qf A hash l1 p) :
    ∃ q1 q2, putItem qf (insertBucket qf hash) (hashRemainder qf hash) n p = some q1 ∧
      (if count > 1 then extendSame q1 (countIndex (insertBucket qf hash) p) hash (count-1)
        else some q1) = some q2 ∧ qf.Keeps q2 ∧
      Layout q2 (Function.update A (qf.metadata.bucket hash) (l1 ++ Item.withCounter
        (Item.fresh (qf.metadata.remainder hash)) (counterOf qf.bits count) :: l2)) := by
  obtain ⟨e, he, hex⟩ := free_pos_iff.mp (Nat.zero_lt_of_lt hspace)
  obtain ⟨q1, h1, hf1, hins⟩ := hp.put h n fun x hx => by
    rw [hp.placed.probe_eq hx, h.findsSpace_iff (he.le.trans hex.le)]
    exact Nat.zero_lt_of_lt hspace
  have hk1 : qf.Keeps q1 := ⟨_, _, _, hf1⟩
  by_cases hone : count = 1
  · refine ⟨q1, q1, h1, by rw [if_neg (by omega)], hk1, ?_⟩
    rw [counterOf, if_pos hone]
    exact hins.layout
  · obtain ⟨hfirst, hlow⟩ := hcount (by omega)
    have hindex := hp.placed.countIndex_eq hfirst
    have hplain : (Item.fresh (qf.metadata.remainder hash)).cnt = [] := rfl
    have hcount1 : (Item.fresh (qf.metadata.remainder hash)).count q1.bits = 1 := if_pos rfl
    have hgrow := h.free_insert hp.placed.split (h.geometry.bucket_lt hash) (he.le.trans hex.le)
      hk1.xnslots hins.layout
    rw [Item.len_fresh] at hgrow
    have hnew : (Item.fresh (qf.metadata.remainder hash)).newSlots q1.bits (count-1) =
        (counterOf qf.bits count).length := by
      have hsum : 1 + (count - 1) = count := by omega
      rw [Item.newSlots, hcount1, hsum, hk1.bits, counterOf, if_neg hone]
      simp [Item.fresh]
    obtain ⟨q2, h2, hk2, hlay2⟩ := hins.layout.extendSame_eq (Function.update_self ..)
      (by rw [Contents.pos_update, Item.len_fresh]; exact hlow) (.inl hplain)
      hash (count-1) (by rw [hk1.bucket]) (by rw [hcount1]; omega)
      (by rw [Contents.pos_update, hnew]; omega)
    rw [Contents.pos_update] at h2
    have hsum : 1 + (count - 1) = count := by omega
    rw [Function.update_idem, Item.addCount_plain hplain, hsum, hk1.bits] at hlay2
    refine ⟨q1, q2, h1, ?_, hk1.trans hk2, ?_⟩
    · rw [if_pos (by omega), h.geometry.insertBucket_eq, hindex]
      exact h2
    · rw [counterOf, if_neg hone]
      exact hlay2

theorem bind_rest {c : Prop} [Decidable c] {o : Option QF} {q1 q2 : QF}
    (h : (if c then o else some q1) = some q2) {α : Type} (f : QF → Option α) :
    (if c then o.bind f else f q1) = f q2 := by
  by_cases hc : c
  · rw [if_pos hc] at h ⊢
    rw [h, Option.bind_some]
  · rw [if_neg hc, Option.some.injEq] at h
    rw [if_neg hc, h]

theorem PlacedAt.insertWork_eq {p : Placement} (hp : PlacedAt A b l1 l2 p) {flags count : Nat}
    (hl : locateInsert qf hash flags = some p) {q1 q2 : QF}
    (h1 : putItem qf (insertBucket qf hash) (hashRemainder qf hash) 1 p = some q1)
    (h2 : (if count > 1 then extendSame q1 (countIndex (insertBucket qf hash) p) hash (count-1)
      else some q1) = some q2) (out : InsertOut) :
    insertWork hash count out flags qf = some ((1, ⟨out.index, minirunId qf hash,
      if count > 1 ∧ A b ≠ [] then 0 else (qf.qbits + qf.bits : Nat)⟩), q2) := by
  unfold insertWork
  simp only [hl, h1, Option.bind_eq_bind, Option.bind_some]
  cases hp with
  | home hu =>
    have hb : A b = [] := (PlacedAt.home hu).split
    simp only [hb, ne_eq, not_true, and_false, if_false]
    exact bind_rest h2 _
  | first hu hb =>
    simp only [hb, ne_eq, not_true, and_false, if_false]
    exact bind_rest h2 _
  | between hb =>
    have hne : A b ≠ [] := by simp [hb]
    simp only [hne, ne_eq, not_false_eq_true, and_true]
    exact bind_rest h2 _
  | behind hb =>
    have hne : A b ≠ [] := by simp [hb]
    simp only [hne, ne_eq, not_false_eq_true, and_true]
    exact bind_rest h2 _

/-- The length that is reported is right for a count of 1 and for an empty bucket. -/
theorem Layout.insertWork_new (h : Layout qf A) {flags : Nat} {p : Placement}
    (hp : locateInsert qf hash flags = some p) (hpl : Places qf A hash l1 l2 p)
    {count : Nat} (hc : 0 < count) (hlt : count < 2^64)
    (hspace : (counterOf qf.bits count).length < A.free qf (A.pos (qf.metadata.bucket hash) l1))
    (hcount : 1 < count → Countable qf A hash l1 p) (out : InsertOut) :
    ∃ qf' len, insertWork hash count out flags qf =
        some ((1, ⟨out.index, minirunId qf hash, len⟩), qf') ∧
      (count = 1 ∨ A (qf.metadata.bucket hash) = [] → len = (qf.qbits + qf.bits : Nat)) ∧
      qf.Keeps qf' ∧
      Layout qf' (Function.update A (qf.metadata.bucket hash) (l1 ++ Item.withCounter
        (Item.fresh (qf.metadata.remainder hash)) (counterOf qf.bits count) :: l2)) := by
  obtain ⟨q1, q2, h1, h2, hk, hlay⟩ := hpl.putCount h 1 hc hlt hspace hcount
  refine ⟨q2, _, hpl.placed.insertWork_eq hp h1 h2 out, ?_, hk, hlay⟩
  rintro (hone | hnil)
  · rw [if_neg (by omega)]
  · rw [if_neg (by simp [hnil])]

/-- The same for `insert_using_ll_table`. Any rank that the loop returns is reported. -/
theorem PlacedAt.insertUsingLlTableWork_eq {p : Placement} {result : InsertResult} {count : Nat}
    (hp : PlacedAt A b l1 l2 p) (hl : locateLl qf result.hash = some p) {q1 q2 : QF}
    {rank : Nat} {existed : Bool} (hr : llRank qf result.hash = some (rank, existed))
    (h1 : putItem qf (insertBucket qf result.hash) (hashRemainder qf result.hash) count p = some q1)
    (h2 : (if count > 1 then extendSame q1 (countIndex (insertBucket qf result.hash) p)
      result.hash (count-1) else some q1) = some q2) :
    insertUsingLlTableWork result count qf = some ((0, if existed then
      { result with minirunRank := rank, minirunExisted := true } else result), q2) := by
  have hminirun : minirunRank qf (hashRemainder qf result.hash) p = some (rank, existed) := by
    rw [llRank, hl] at hr
    exact hr
  have hhash : (if existed then { result with minirunRank := rank, minirunExisted := true }
      else result).hash = result.hash := by
    cases existed <;> rfl
  unfold insertUsingLlTableWork
  simp only [hl, hminirun, Option.bind_eq_bind, Option.bind_some, hhash, h1]
  cases hp <;> exact bind_rest h2 _

theorem Layout.insertUsingLlTableWork_new (h : Layout qf A) (result : InsertResult)
    {p : Placement} (hp : locateLl qf result.hash = some p) (hpl : Places qf A result.hash l1 l2 p)
    {count : Nat} (hc : 0 < count) (hlt : count < 2^64)
    (hspace : (counterOf qf.bits count).length <
      A.free qf (A.pos (qf.metadata.bucket result.hash) l1))
    (hcount : 1 < count → Countable qf A result.hash l1 p)
    (hr : (llRank qf result.hash).isSome) :
    ∃ qf' result', insertUsingLlTableWork result count qf = some ((0, result'), qf') ∧
      qf.Keeps qf' ∧
      Layout qf' (Function.update A (qf.metadata.bucket result.hash) (l1 ++ Item.withCounter
        (Item.fresh (qf.metadata.remainder result.hash)) (counterOf qf.bits count) :: l2)) := by
  obtain ⟨⟨rank, existed⟩, hrank⟩ := Option.isSome_iff_exists.mp hr
  obtain ⟨q1, q2, h1, h2, hk, hlay⟩ := hpl.putCount h count hc hlt hspace hcount
  exact ⟨q2, _, hpl.placed.insertUsingLlTableWork_eq hp hrank h1 h2, hk, hlay⟩

/-! Locks and load check. -/

theorem checkLoad_idle (h : qf.Idle) (resize : QF → Nat → Option (Int × QF)) :
    checkLoad resize qf = some (!full qf, qf) := by
  unfold checkLoad
  rw [h.autoResize]
  cases full qf <;> rfl

theorem insertUsingLlTable_eq (hi : qf.Idle) (result : InsertResult) (count flags : Nat)
    {r : Int × InsertResult} {qf' : QF}
    (hw : insertUsingLlTableWork result count qf = some (r, qf')) (hl : qf'.locks = qf.locks) :
    insertUsingLlTable qf result count flags = some (r, qf') :=
  withLock_eq hi _ _ _ _ hw hl

theorem insert_eq (hi : qf.Idle) (count : Nat) (out : InsertOut) (flags : Nat)
    {r : Int × InsertOut} {qf' : QF}
    (hw : insertWork hash count out flags qf = some (r, qf')) (hl : qf'.locks = qf.locks) :
    insert qf hash count out flags = some (r, qf') :=
  withLock_eq hi _ _ _ _ hw hl

end

end AdaptiveQF
