import AdaptiveQF.Query
import AdaptiveQF.Space

/-! adapt, which extends the fingerprint of one item slot by slot. -/
namespace AdaptiveQF
open RunLayout

def adaptSlot (qf : QF) (bucket slotIndex emptySlotIndex countLen digit : Nat) : Option QF :=
  if countLen = 0 then do
    let qf ← openSlot qf bucket slotIndex emptySlotIndex digit
    some (orExtension qf slotIndex).countSlot
  else do
    let qf ← setSlot qf slotIndex digit
    if !isCounter qf slotIndex then none
    else if !isExtension (xorRunend qf slotIndex) slotIndex then none
    else some (xorRunend qf slotIndex)

def adaptLoop (index bucket : Nat) :
    Nat → QF → Nat → Nat → Nat → Nat → Nat → Nat → Option (Int × Nat × QF)
  | 0, _, _, _, _, _, _, _ => none
  | fuel+1, qf, slotsUsed, extBits, countLen, hash, otherHash, retHash => do
    let hash := shr64 hash qf.bits
    let otherHash := shr64 otherHash qf.bits
    let digit := hash &&& bitmask qf.bits
    let emptySlotIndex ← findFirstEmptySlot qf (index + slotsUsed)
    if emptySlotIndex ≥ qf.xnslots then some (noSpace, retHash, qf)
    else do
      let qf' ← adaptSlot qf bucket (index + slotsUsed) emptySlotIndex countLen digit
      let retHash := retHash ||| shl64 digit (extBits + qf.qbits + qf.bits)
      let extBits := extBits + qf.bits
      if digit = otherHash &&& bitmask qf.bits ∧ extBits + qf.qbits + qf.bits < 64 then
        adaptLoop index bucket fuel qf' (slotsUsed+1) extBits 0 hash otherHash retHash
      else some ((extBits + qf.qbits + qf.bits : Nat), retHash, qf')

def adapt (qf : QF) (index bucket hash otherHash : Nat) : Option (Int × Nat × QF) := do
  let info ← getSlotInfo qf index
  let slot ← getSlot qf index
  if info.countSlots ≤ 1 ∧ minirunId qf hash = slot ||| shl64 bucket qf.bits then
    let extBits := qf.bits * info.extSlots
    adaptLoop index bucket 64 qf (info.extSlots + 1) extBits info.countSlots
      (shr64 hash (extBits + qf.qbits)) (shr64 otherHash (extBits + qf.qbits))
      (hash &&& bitmask (extBits + qf.qbits + qf.bits))
  else none

def rangeBucket (qf : QF) (hash : Nat) : Nat := shr64 (hash % qf.metadata.range) qf.bits

/-- The return value, what is in `*ret_hash` after the call (`retHash` before it), and the
filter. -/
def qfAdapt (qf : QF) (index key otherKey retHash flags : Nat) : Option (Int × Nat × QF) :=
  let hash := keyToHash qf key flags
  let otherHash := keyToHash qf otherKey flags
  if hash = otherHash then some (0, retHash, qf)
  else adapt qf index (rangeBucket qf hash) hash otherHash

/-- The loop of `qf_adapt_using_ll_table` to the item of rank `minirunRank`. Only smaller remainders
are stepped over, so it relies on the order in the run. -/
def adaptScan (qf : QF) (remainder minirunRank : Nat) : Nat → Nat → Nat → Option (Option Nat)
  | 0, _, _ => none
  | fuel+1, currentIndex, rank => do
    let slot ← getSlot qf currentIndex
    if slot < remainder then
      let next ← skipExtensions qf qf.fuel (currentIndex+1)
      if next < qf.xnslots then adaptScan qf remainder minirunRank fuel next rank else some none
    else if slot = remainder then
      let info ← getSlotInfo qf currentIndex
      if rank = minirunRank then some (some currentIndex)
      else if isRunend qf currentIndex then some none
      else
        let next := currentIndex + (info.countSlots + info.extSlots + 1)
        if next < qf.xnslots then adaptScan qf remainder minirunRank fuel next (rank+1)
        else some none
    else some none

/-- Bucket and remainder are those of `fpKey`; `qf_adapt` gets both keys. In a filter whose hash
mode is QF_HASH_NONE the source sets `hash` only with QF_KEY_IS_HASH. Without the flag it is read
uninitialized, where this definition takes the key. -/
def qfAdaptUsingLlTable (qf : QF) (origKey fpKey minirunRank flags : Nat) :
    Option (Int × QF) := do
  let hash := keyToHash qf fpKey flags
  let bucket := hashBucketIndex qf hash
  if !isOccupied qf bucket then some (0, qf)
  else do
    let start ← runStart qf bucket
    match ← adaptScan qf (hashRemainder qf hash) minirunRank qf.fuel start 0 with
    | none => some (0, qf)
    | some index => do
      let (_, _, qf) ← qfAdapt qf index origKey fpKey 0 flags
      some (1, qf)

/-! One slot. -/

def Item.push (it : Item) (v : Nat) : Item := ⟨it.rem, it.ext ++ [v], []⟩

def Item.extend (it : Item) (l : List Nat) : Item := l.foldl Item.push it

section
variable {qf : QF} {A : Contents} {b : Nat} {l1 l2 : List Item} {it : Item}

theorem sorted_replace {it2 : Item} (hr : it2.rem = it.rem)
    (h : (l1 ++ it :: l2).Pairwise fun x y => x.rem ≤ y.rem) :
    (l1 ++ it2 :: l2).Pairwise fun x y => x.rem ≤ y.rem := by
  rw [List.pairwise_append, List.pairwise_cons] at h ⊢
  obtain ⟨h1, ⟨h2, h3⟩, h4⟩ := h
  refine ⟨h1, ⟨fun x hx => ?_, h3⟩, fun x hx y hy => ?_⟩
  · rw [hr]
    exact h2 x hx
  · rcases List.mem_cons.mp hy with rfl | hy
    · rw [hr]
      exact h4 x hx it (by simp)
    · exact h4 x hx y (by simp [hy])

theorem Layout.bounded_replace (h : Layout qf A) (hb : A b = l1 ++ it :: l2) {it2 : Item}
    (h2 : it2.Bounded qf.bits) : ∀ x ∈ l1 ++ it2 :: l2, x.Bounded qf.bits := by
  intro x hx
  rcases List.mem_append.mp hx with hx | hx
  · exact h.bounded b x (by simp [hb, hx])
  · rcases List.mem_cons.mp hx with rfl | hx
    · exact h2
    · exact h.bounded b x (by simp [hb, hx])

theorem Item.Bounded.push {w v : Nat} (h : it.Bounded w) (hv : v < 2^w) :
    (it.push v).Bounded w := by
  refine ⟨h.rem, fun u hu => ?_, by simp [Item.push]⟩
  rcases List.mem_append.mp hu with hu | hu
  · exact h.ext u hu
  · rw [List.mem_singleton.mp hu]
    exact hv

/-- The new extension slot of an item without counter. -/
theorem Layout.adaptSlot_open (h : Layout qf A) (hb : A b = l1 ++ it :: l2) (hc : it.cnt = [])
    {e v : Nat} (he : FirstUnused A.lens (A.pos b l1 + (it.ext.length + 1)) e)
    (hex : e < qf.xnslots) (hv : v < 2^qf.bits) :
    ∃ qf', adaptSlot qf b (A.pos b l1 + (it.ext.length + 1)) e 0 v = some qf' ∧
      qf.countSlot.SameFrame qf' ∧
      Layout qf' (Function.update A b (l1 ++ it.push v :: l2)) := by
  have hlens := Contents.lens_runs A
  have htail : it.tail = it.ext.map Item.extCell := by simp [Item.tail, hc]
  have hrun : A.runs b = (initCells l1 ++ it.baseCell l2.isEmpty :: it.ext.map Item.extCell) ++
      runCells l2 := by
    rw [Contents.runs, hb, runCells_split, Item.cells, htail]
  have hnew : runCells (l1 ++ it.push v :: l2) = (initCells l1 ++
      it.baseCell l2.isEmpty :: it.ext.map Item.extCell) ++ Item.extCell v :: runCells l2 := by
    simp [runCells_split, Item.cells, Item.push, Item.tail, Item.baseCell]
  have hlen : (initCells l1 ++ it.baseCell l2.isEmpty :: it.ext.map Item.extCell).length =
      itemsLen l1 + (it.ext.length + 1) := by simp
  have hx : A.pos b l1 + (it.ext.length + 1) = start (RunLayout.lens A.runs) b +
      (initCells l1 ++ it.baseCell l2.isEmpty :: it.ext.map Item.extCell).length := by
    rw [hlen, hlens, Contents.pos]
    omega
  have hlt := h.bucket_lt hb
  have hA : A.lens b = itemsLen l1 + (it.ext.length + 1) + itemsLen l2 := by
    simp [Contents.lens, hb, Item.len, hc]
    omega
  rw [hx, ← hlens] at he
  obtain ⟨qf1, ho1, hf1, hocc1, hh1, hoff1⟩ :=
    openSlot_eq (v := v) h.holds h.offsets hrun he (by have := he.le; rw [hlen] at this; omega) hex
  rw [← hx] at ho1 he
  have hfr1 : qf1.SameFrame (orExtension qf1 (A.pos b l1 + (it.ext.length + 1))) :=
    ⟨rfl, rfl, rfl⟩
  have hfr := (hf1.trans hfr1).countSlot
  refine ⟨(orExtension qf1 (A.pos b l1 + (it.ext.length + 1))).countSlot, ?_, hfr, ?_⟩
  · simp only [adaptSlot, if_true, ho1, Option.bind_eq_bind, Option.bind_some]
  · have hview : (orExtension qf1 (A.pos b l1 + (it.ext.length + 1))).countSlot.view =
        qf1.view.setExtension (A.pos b l1 + (it.ext.length + 1)) true := view_orExtension qf1 _
    have hnew1 := lens_update_insert (Cell.mk v false false) hrun
    have hstart : start (RunLayout.lens (Function.update A.runs b ((initCells l1 ++
        it.baseCell l2.isEmpty :: it.ext.map Item.extCell) ++ ⟨v, false, false⟩ ::
          runCells l2))) b =
          start (RunLayout.lens A.runs) b := by
      rw [hnew1, start_grow_of_le (Nat.le_refl b)]
    have hat := hh1.at (t := b) (Function.update_self ..)
    have hmod := hh1.modify (t := b) (Function.update_self ..) (Item.extCell v)
    rw [hstart, ← hx] at hat hmod
    rw [Function.update_idem, ← hnew] at hmod
    have hlens2 : RunLayout.lens (Function.update A.runs b (runCells (l1 ++ it.push v :: l2))) =
        RunLayout.lens (Function.update A.runs b ((initCells l1 ++
          it.baseCell l2.isEmpty :: it.ext.map Item.extCell) ++ ⟨v, false, false⟩ ::
            runCells l2)) := by
      rw [hnew, lens_update_insert _ hrun, hnew1]
    apply h.replace hfr hlt
    · rw [hview]
      simp only [View.setExtension, hat]
      exact hmod
    · rw [hview]
      simp only [View.setExtension, hocc1]
      rw [eq_comm, Function.update_eq_self_iff, h.occupied, hb]
      simp
    · intro j
      rw [hview, hlens2]
      exact hoff1 j
    · apply h.extent_grow hlt (x := A.pos b l1 + (it.ext.length + 1)) (e := e)
      · simp [hA, Item.push, Item.len]
        omega
      · unfold Contents.pos
        omega
      · unfold Contents.pos
        omega
      · rw [← hlens]
        exact he
      · exact hex
    · exact h.bounded_replace hb ((h.bounded b it (by simp [hb])).push hv)
    · have hs := h.sorted b
      rw [hb] at hs
      have hr : (it.push v).rem = it.rem := rfl
      exact sorted_replace hr hs

/-- The counter slot of an item becomes its next extension slot. -/
theorem Layout.adaptSlot_overwrite (h : Layout qf A) (hb : A b = l1 ++ it :: l2) {c : Nat}
    (hc : it.cnt = [c]) (e : Nat) {v : Nat} (hv : v < 2^qf.bits) :
    ∃ qf', adaptSlot qf b (A.pos b l1 + (it.ext.length + 1)) e 1 v = some qf' ∧
      qf.SameFrame qf' ∧ Layout qf' (Function.update A b (l1 ++ it.push v :: l2)) := by
  have hlens := Contents.lens_runs A
  have hrun : A.runs b = (initCells l1 ++ it.baseCell l2.isEmpty :: it.ext.map Item.extCell) ++
      Item.cntCell c :: runCells l2 := by
    simp [Contents.runs, hb, runCells_split, Item.cells, Item.tail, hc]
  have hnew : runCells (l1 ++ it.push v :: l2) = (initCells l1 ++
      it.baseCell l2.isEmpty :: it.ext.map Item.extCell) ++ Item.extCell v :: runCells l2 := by
    simp [runCells_split, Item.cells, Item.push, Item.tail, Item.baseCell]
  have hx : A.pos b l1 + (it.ext.length + 1) = start (RunLayout.lens A.runs) b +
      (initCells l1 ++ it.baseCell l2.isEmpty :: it.ext.map Item.extCell).length := by
    rw [hlens, Contents.pos]
    simp
    omega
  have hend := h.pos_add_len_le hb
  have hfit := h.fits
  have hlen : it.len = 1 + it.ext.length + 1 := by simp [Item.len, hc]
  obtain ⟨x, hxdef⟩ : ∃ x, x = A.pos b l1 + (it.ext.length + 1) := ⟨_, rfl⟩
  rw [← hxdef] at hx ⊢
  have hat := h.holds.at hrun
  rw [← hx] at hat
  have hset : setSlot qf x v = some (putSlot qf x v) := by
    unfold setSlot
    rw [if_pos (by omega)]
  have hput : (putSlot qf x v).view.cell x = ⟨v, true, true⟩ := by
    rw [view_putSlot]
    simp [View.setValue, hat, Item.cntCell]
  have hcell : (xorRunend (putSlot qf x v) x).view.cell =
      Function.update qf.view.cell x (Item.extCell v) := by
    rw [view_xorRunend]
    simp only [View.setRunend, hput, Bool.not_true]
    rw [view_putSlot]
    simp only [View.setValue, Function.update_idem]
    rfl
  have hat2 : (xorRunend (putSlot qf x v) x).view.cell x = Item.extCell v := by
    rw [hcell, Function.update_self]
  refine ⟨xorRunend (putSlot qf x v) x, ?_, ⟨rfl, rfl, rfl⟩, ?_⟩
  · simp only [QF.view, Item.extCell, Cell.mk.injEq] at hput hat2
    simp [adaptSlot, hset, isCounter, isExtension, hput, hat2]
  · have hmod := h.holds.modify hrun (Item.extCell v)
    rw [← hx, ← hnew] at hmod
    have hsame : itemsLen (l1 ++ it.push v :: l2) = A.lens b := by
      simp only [Contents.lens, hb, itemsLen_append, itemsLen_cons, hlen]
      simp [Item.push, Item.len]
      omega
    have hs := h.sorted b
    rw [hb] at hs
    have hframe : qf.SameFrame (xorRunend (putSlot qf x v) x) := ⟨rfl, rfl, rfl⟩
    apply h.replace_same hframe (by rw [hb]; simp) hsame
    · rw [hcell]
      exact hmod
    · rw [view_xorRunend, View.setRunend, view_putSlot]
      rfl
    · rw [view_xorRunend, View.setRunend, view_putSlot]
      rfl
    · exact h.bounded_replace hb ((h.bounded b it (by simp [hb])).push hv)
    · have hr : (it.push v).rem = it.rem := rfl
      exact sorted_replace hr hs

/-! The loop. -/

def adaptDigits (w base : Nat) : Nat → Nat → Nat → Nat → List Nat
  | 0, _, _, _ => []
  | fuel+1, extBits, hash, otherHash =>
    let digit := shr64 hash w &&& bitmask w
    digit :: if digit = shr64 otherHash w &&& bitmask w ∧ extBits + w + base < 64 then
        adaptDigits w base fuel (extBits + w) (shr64 hash w) (shr64 otherHash w)
      else []

def adaptHash (w : Nat) : Nat → Nat → List Nat → Nat
  | _, acc, [] => acc
  | at', acc, v :: l => adaptHash w (at' + w) (acc ||| shl64 v at') l

theorem Item.extend_cons (it : Item) (v : Nat) (l : List Nat) :
    it.extend (v :: l) = (it.push v).extend l := rfl

theorem Item.extend_of_ne_nil (it : Item) {l : List Nat} (h : l ≠ []) :
    it.extend l = ⟨it.rem, it.ext ++ l, []⟩ := by
  induction l generalizing it with
  | nil => exact absurd rfl h
  | cons v l ih =>
    rw [Item.extend_cons]
    by_cases hl : l = []
    · subst hl
      rfl
    · rw [ih _ hl]
      simp [Item.push]

structure Adapted (qf : QF) (A : Contents) (b : Nat) (l1 : List Item) (it : Item) (l2 : List Item)
    (digits : List Nat) (qf' : QF) (done rest : List Nat) : Prop where
  split : digits = done ++ rest
  layout : Layout qf' (Function.update A b (l1 ++ it.extend done :: l2))
  frame : (QF.countSlot^[(it.extend done).len - it.len] qf).SameFrame qf'
  full : rest ≠ [] → ∃ e, FirstUnused (Contents.lens
    (Function.update A b (l1 ++ it.extend done :: l2)))
      (A.pos b l1 + (it.ext.length + done.length + 1)) e ∧ qf.xnslots ≤ e

theorem iterate_countSlot_frame {qf qf' : QF} {n : Nat}
    (h : (QF.countSlot^[n] qf).SameFrame qf') : qf'.xnslots = qf.xnslots ∧ qf'.bits = qf.bits ∧
      qf'.qbits = qf.qbits ∧ qf'.metadata.nslots = qf.metadata.nslots := by
  have hm : ∀ n qf, (QF.countSlot^[n] qf).xnslots = qf.xnslots ∧
      (QF.countSlot^[n] qf).bits = qf.bits ∧ (QF.countSlot^[n] qf).qbits = qf.qbits ∧
      (QF.countSlot^[n] qf).metadata.nslots = qf.metadata.nslots := by
    intro n
    induction n with
    | zero => exact fun qf => ⟨rfl, rfl, rfl, rfl⟩
    | succ n ih => exact fun qf => ih qf.countSlot
  obtain ⟨h1, h2, h3, h4⟩ := hm n qf
  have hx := congrArg QFMetadata.xnslots h.metadata
  have hw := congrArg QFMetadata.bitsPerSlot h.metadata
  have hq := congrArg QFMetadata.quotientBits h.metadata
  have hn := congrArg QFMetadata.nslots h.metadata
  exact ⟨hx.trans h1, hw.trans h2, hq.trans h3, hn.trans h4⟩

theorem Layout.adaptSlot_eq (h : Layout qf A) (hb : A b = l1 ++ it :: l2)
    (hc : it.cnt.length ≤ 1) {e v : Nat}
    (he : FirstUnused A.lens (A.pos b l1 + (it.ext.length + 1)) e) (hex : e < qf.xnslots)
    (hv : v < 2^qf.bits) :
    ∃ qf', adaptSlot qf b (A.pos b l1 + (it.ext.length + 1)) e it.cnt.length v = some qf' ∧
      (QF.countSlot^[(it.push v).len - it.len] qf).SameFrame qf' ∧
      Layout qf' (Function.update A b (l1 ++ it.push v :: l2)) := by
  cases hcnt : it.cnt with
  | nil =>
    have hk : (it.push v).len - it.len = 1 := by
      simp only [Item.push, Item.len, hcnt, List.length_append, List.length_cons, List.length_nil]
      omega
    rw [hk]
    exact h.adaptSlot_open hb hcnt he hex hv
  | cons c cs =>
    rw [hcnt, List.length_cons] at hc
    have hcs : cs = [] := List.length_eq_zero_iff.mp (by omega)
    subst hcs
    have hk : (it.push v).len - it.len = 0 := by
      simp only [Item.push, Item.len, hcnt, List.length_append, List.length_cons, List.length_nil]
      omega
    rw [hk]
    exact h.adaptSlot_overwrite hb hcnt e hv

theorem Layout.adaptLoop_eq (h : Layout qf A) (hb : A b = l1 ++ it :: l2)
    (hc : it.cnt.length ≤ 1) {fuel extBits : Nat} (hash otherHash retHash : Nat)
    (hf : 0 < fuel) (hfuel : 64 ≤ extBits + qf.qbits + fuel) :
    ∃ qf' ret done rest, adaptLoop (A.pos b l1) b fuel qf (it.ext.length + 1) extBits
        it.cnt.length hash otherHash retHash =
          some (ret, adaptHash qf.bits (extBits + qf.qbits + qf.bits) retHash done, qf') ∧
      Adapted qf A b l1 it l2
        (adaptDigits qf.bits (qf.qbits + qf.bits) fuel extBits hash otherHash) qf' done rest ∧
      ret = if rest = [] then ((extBits + qf.qbits + qf.bits + qf.bits * done.length : Nat) : Int)
        else noSpace := by
  induction fuel generalizing qf A it extBits hash otherHash retHash with
  | zero => omega
  | succ fuel ih =>
    have hw := h.geometry.bits
    have hw2 := h.geometry.slotBits
    have hpos_le : A.pos b l1 + (it.ext.length + 1) ≤ qf.xnslots := by
      have h1 := h.pos_add_len_le hb
      have h2 := h.fits
      unfold Item.len at h1
      omega
    obtain ⟨e, he, _⟩ := @exists_firstUnused A.lens _ (fun c hc => h.outside_lens hc)
      (A.pos b l1 + (it.ext.length + 1))
    have hfind : findFirstEmptySlot qf (A.pos b l1 + (it.ext.length + 1)) = some e :=
      h.row.findFirstEmptySlot_eq h.offsets (by rw [Contents.lens_runs]; exact he) hpos_le
    obtain ⟨v, hvdef⟩ : ∃ v, v = shr64 hash qf.bits &&& bitmask qf.bits := ⟨_, rfl⟩
    have hv : v < 2^qf.bits := by
      rw [hvdef, and_bitmask _ (by unfold QF.bits; omega)]
      exact Nat.mod_lt _ (Nat.two_pow_pos _)
    unfold adaptLoop adaptDigits
    simp only [hfind, Option.bind_eq_bind, Option.bind_some, ← hvdef]
    by_cases hex : e ≥ qf.xnslots
    · rw [if_pos hex]
      refine ⟨qf, noSpace, [], _, rfl, ⟨rfl, ?_, ?_, fun _ => ⟨e, ?_, hex⟩⟩, ?_⟩
      · have hself : Function.update A b (l1 ++ it.extend [] :: l2) = A := by
          rw [Function.update_eq_self_iff, hb]
          rfl
        rw [hself]
        exact h
      · have hk : (it.extend []).len - it.len = 0 := Nat.sub_self _
        rw [hk]
        exact QF.SameFrame.refl qf
      · have hself : Function.update A b (l1 ++ it.extend [] :: l2) = A := by
          rw [Function.update_eq_self_iff, hb]
          rfl
        rw [hself]
        exact he
      · rw [if_neg (by simp)]
    · rw [if_neg hex]
      obtain ⟨qf1, hs1, hf1, hl1⟩ := h.adaptSlot_eq hb hc he (by omega) hv
      obtain ⟨hx1, hw1, hq1, _⟩ := iterate_countSlot_frame hf1
      rw [hs1, Option.bind_some]
      by_cases hcond : v = shr64 otherHash qf.bits &&& bitmask qf.bits ∧
          extBits + qf.bits + qf.qbits + qf.bits < 64
      · have hcond' : v = shr64 otherHash qf.bits &&& bitmask qf.bits ∧
            extBits + qf.bits + (qf.qbits + qf.bits) < 64 := ⟨hcond.1, by omega⟩
        rw [if_pos hcond, if_pos hcond']
        have hb1 : Function.update A b (l1 ++ it.push v :: l2) b = l1 ++ it.push v :: l2 :=
          Function.update_self ..
        have hfuel1 : 64 ≤ extBits + qf.bits + qf1.qbits + fuel := by
          rw [hq1]
          unfold QF.bits at *
          omega
        obtain ⟨qf2, ret, done, rest, heq, had, hret⟩ := ih hl1 hb1 (by simp [Item.push])
          (shr64 hash qf.bits) (shr64 otherHash qf.bits)
          (retHash ||| shl64 v (extBits + qf.qbits + qf.bits))
            (by unfold QF.bits at *; omega) hfuel1
        have hext1 : (it.push v).ext.length + 1 = it.ext.length + 1 + 1 := by simp [Item.push]
        have hcnt1 : (it.push v).cnt.length = 0 := rfl
        have hbase : extBits + qf.bits + qf.qbits + qf.bits =
            extBits + qf.qbits + qf.bits + qf.bits := by omega
        rw [Contents.pos_update, hext1, hcnt1, hw1, hq1, hbase] at heq
        rw [hw1, hq1] at had hret
        refine ⟨qf2, ret, v :: done, rest, heq, ⟨?_, ?_, ?_, ?_⟩, ?_⟩
        · rw [had.split, List.cons_append]
        · have := had.layout
          rw [Function.update_idem] at this
          exact this
        · have hadd : (it.extend (v :: done)).len - it.len =
              ((it.push v).extend done).len - (it.push v).len + ((it.push v).len - it.len) := by
            have h1 : it.len ≤ (it.push v).len := by
              simp only [Item.push, Item.len, List.length_append, List.length_cons,
                List.length_nil]
              omega
            have h2 : (it.push v).len ≤ ((it.push v).extend done).len := by
              by_cases hd : done = []
              · subst hd
                exact Nat.le_refl _
              · rw [Item.extend_of_ne_nil _ hd]
                simp only [Item.push, Item.len, List.length_append]
                omega
            rw [Item.extend_cons]
            omega
          rw [hadd, Function.iterate_add_apply]
          have hiter : ∀ n {a c : QF}, a.SameFrame c →
              (QF.countSlot^[n] a).SameFrame (QF.countSlot^[n] c) := by
            intro n
            induction n with
            | zero => exact fun h => h
            | succ n ihn => exact fun h => ihn h.countSlot
          exact (hiter _ hf1).trans had.frame
        · intro hr
          have := had.full hr
          have hx : (it.push v).ext.length + done.length + 1 =
              it.ext.length + (v :: done).length + 1 := by
            simp only [Item.push, List.length_append, List.length_cons, List.length_nil]
            omega
          rw [Function.update_idem, Contents.pos_update, hx1, hx] at this
          exact this
        · rw [hret]
          by_cases hr : rest = []
          · rw [if_pos hr, if_pos hr]
            congr 1
            rw [List.length_cons]
            ring
          · rw [if_neg hr, if_neg hr]
      · have hcond' : ¬ (v = shr64 otherHash qf.bits &&& bitmask qf.bits ∧
            extBits + qf.bits + (qf.qbits + qf.bits) < 64) := fun hc => hcond ⟨hc.1, by omega⟩
        rw [if_neg hcond, if_neg hcond']
        refine ⟨qf1, _, [v], [], rfl, ⟨rfl, hl1, hf1, fun hr => absurd rfl hr⟩, ?_⟩
        rw [if_pos rfl]
        congr 1
        simp
        omega

end

/-! The digits are those of the hash, up to the first in which the other hash differs. -/

section
variable {m : QFMetadata} {h g n : Nat}

def QFMetadata.digit (m : QFMetadata) (h n : Nat) : Nat :=
  h / 2^(m.quotientBits + m.bitsPerSlot + m.bitsPerSlot * n) % 2^m.bitsPerSlot

theorem QFMetadata.extension_succ (m : QFMetadata) (h n : Nat) :
    m.extension h (n+1) = m.extension h n ++ [m.digit h n] := by
  rw [extension, Digits.low_succ, Nat.div_div_eq_div_mul, ← pow_add]
  rfl

@[simp] theorem QFMetadata.length_extension (m : QFMetadata) (h n : Nat) :
    (m.extension h n).length = n := Digits.length_low ..

theorem QFMetadata.fingerprint_succ (m : QFMetadata) (h n : Nat) :
    m.fingerprint h (n+1) = m.fingerprint h n +
      m.digit h n * 2^(m.quotientBits + m.bitsPerSlot + m.bitsPerSlot * n) := by
  have hp : m.quotientBits + m.bitsPerSlot + m.bitsPerSlot * (n+1) =
      m.quotientBits + m.bitsPerSlot + m.bitsPerSlot * n + m.bitsPerSlot := by ring
  unfold fingerprint digit
  rw [hp, pow_add _ (m.quotientBits + m.bitsPerSlot + m.bitsPerSlot * n), Nat.mod_mul,
    Nat.mul_comm (2^(m.quotientBits + m.bitsPerSlot + m.bitsPerSlot * n))]

theorem QFMetadata.fingerprint_eq_iff : m.fingerprint h n = m.fingerprint g n ↔
    m.bucket h = m.bucket g ∧ m.remainder h = m.remainder g ∧
      m.extension h n = m.extension g n := by
  have hsplit : ∀ x, m.fingerprint x n = m.remainder x + 2^m.bitsPerSlot *
      (m.bucket x + 2^m.quotientBits * Digits.number m.bitsPerSlot (m.extension x n)) := by
    intro x
    have hp : 2^(m.quotientBits + m.bitsPerSlot + m.bitsPerSlot * n) =
        2^m.bitsPerSlot * (2^m.quotientBits * 2^(m.bitsPerSlot * n)) := by
      rw [← pow_add, ← pow_add]
      congr 1
      omega
    have hd : x / 2^(m.quotientBits + m.bitsPerSlot) =
        x / 2^m.bitsPerSlot / 2^m.quotientBits := by
      rw [Nat.div_div_eq_div_mul, ← pow_add, Nat.add_comm]
    rw [extension, Digits.number_low, hd, fingerprint, hp, Nat.mod_mul, Nat.mod_mul]
    rfl
  constructor
  · intro he
    rw [hsplit, hsplit] at he
    have hr : ∀ x, m.remainder x < 2^m.bitsPerSlot := fun x => Nat.mod_lt _ (Nat.two_pow_pos _)
    have hb : ∀ x, m.bucket x < 2^m.quotientBits := fun x => Nat.mod_lt _ (Nat.two_pow_pos _)
    have h1 := congrArg (· % 2^m.bitsPerSlot) he
    have h2 := congrArg (· / 2^m.bitsPerSlot) he
    simp only [Nat.add_mul_mod_self_left, Nat.mod_eq_of_lt (hr _)] at h1
    simp only [Nat.add_mul_div_left _ _ (Nat.two_pow_pos m.bitsPerSlot),
      Nat.div_eq_of_lt (hr _), Nat.zero_add] at h2
    have h3 := congrArg (· % 2^m.quotientBits) h2
    have h4 := congrArg (· / 2^m.quotientBits) h2
    simp only [Nat.add_mul_mod_self_left, Nat.mod_eq_of_lt (hb _)] at h3
    simp only [Nat.add_mul_div_left _ _ (Nat.two_pow_pos m.quotientBits),
      Nat.div_eq_of_lt (hb _), Nat.zero_add] at h4
    rw [extension, extension, Digits.number_low, Digits.number_low] at h4
    exact ⟨h3, h1, Digits.low_eq_iff.mpr h4⟩
  · rintro ⟨h1, h2, h3⟩
    rw [hsplit, hsplit, h1, h2, h3]

structure Digging (m : QFMetadata) (h g n : Nat) (ds : List Nat) : Prop where
  pos : 0 < ds.length
  digits : m.extension h n ++ ds = m.extension h (n + ds.length)
  fits : m.quotientBits + m.bitsPerSlot * (n + ds.length) < 64
  same : ∀ j, n ≤ j → j + 1 < n + ds.length → m.digit h j = m.digit g j
  last : m.digit h (n + ds.length - 1) ≠ m.digit g (n + ds.length - 1) ∨
    64 ≤ m.quotientBits + m.bitsPerSlot + m.bitsPerSlot * (n + ds.length)

theorem Digging.fits_left {done rest : List Nat} (hd : Digging m h g n (done ++ rest)) :
    m.quotientBits + m.bitsPerSlot * (n + done.length) < 64 := by
  have hfits := hd.fits
  rw [List.length_append] at hfits
  have := Nat.mul_le_mul_left m.bitsPerSlot
    (by omega : n + done.length ≤ n + (done.length + rest.length))
  omega

theorem adaptDigits_spec (hw : 0 < m.bitsPerSlot) (hw2 : m.bitsPerSlot ≤ 56) {fuel : Nat}
    (hn : m.quotientBits + m.bitsPerSlot + m.bitsPerSlot * n < 64)
    (hfuel : 64 ≤ m.bitsPerSlot * n + m.quotientBits + fuel) (hpos : 0 < fuel) :
    Digging m h g n (adaptDigits m.bitsPerSlot (m.quotientBits + m.bitsPerSlot) fuel
      (m.bitsPerSlot * n) (h / 2^(m.bitsPerSlot * n + m.quotientBits))
      (g / 2^(m.bitsPerSlot * n + m.quotientBits))) := by
  induction fuel generalizing n with
  | zero => omega
  | succ fuel ih =>
    have hshift : ∀ x, shr64 (x / 2^(m.bitsPerSlot * n + m.quotientBits)) m.bitsPerSlot =
        x / 2^(m.bitsPerSlot * (n+1) + m.quotientBits) := by
      intro x
      rw [shr64_eq _ (by omega), Nat.div_div_eq_div_mul, ← pow_add]
      congr 2
      ring
    have hdig : ∀ x, x / 2^(m.bitsPerSlot * (n+1) + m.quotientBits) &&& bitmask m.bitsPerSlot =
        m.digit x n := by
      intro x
      rw [and_bitmask _ (by omega), QFMetadata.digit]
      congr 3
      ring
    have hsucc : m.bitsPerSlot * (n+1) = m.bitsPerSlot * n + m.bitsPerSlot := by ring
    unfold adaptDigits
    simp only [hshift, hdig]
    by_cases hc : m.digit h n = m.digit g n ∧
        m.bitsPerSlot * n + m.bitsPerSlot + (m.quotientBits + m.bitsPerSlot) < 64
    · rw [if_pos hc, ← hsucc]
      obtain ⟨h1, h2, h3, h4, h5⟩ := ih (n := n+1) (by omega) (by omega) (by omega)
      obtain ⟨ds, hds⟩ : ∃ ds, ds = adaptDigits m.bitsPerSlot (m.quotientBits + m.bitsPerSlot)
        fuel (m.bitsPerSlot * (n+1)) (h / 2^(m.bitsPerSlot * (n+1) + m.quotientBits))
        (g / 2^(m.bitsPerSlot * (n+1) + m.quotientBits)) := ⟨_, rfl⟩
      rw [← hds] at h1 h2 h3 h4 h5 ⊢
      have hlen : n + (m.digit h n :: ds).length = n + 1 + ds.length := by
        rw [List.length_cons]
        omega
      refine ⟨by simp, ?_, by rw [hlen]; exact h3, ?_, by rw [hlen]; exact h5⟩
      · rw [hlen, ← h2, m.extension_succ, List.append_assoc]
        rfl
      · intro j hj1 hj2
        rw [hlen] at hj2
        by_cases hj : j = n
        · rw [hj]
          exact hc.1
        · exact h4 j (by omega) hj2
    · rw [if_neg hc]
      refine ⟨by simp, ?_, ?_, ?_, ?_⟩
      · rw [List.length_singleton, m.extension_succ]
      · rw [List.length_singleton]
        omega
      · intro j hj1 hj2
        rw [List.length_singleton] at hj2
        omega
      · rw [List.length_singleton, Nat.add_sub_cancel]
        by_cases hd : m.digit h n = m.digit g n
        · right
          have : ¬ m.bitsPerSlot * n + m.bitsPerSlot + (m.quotientBits + m.bitsPerSlot) < 64 :=
            fun hlt => hc ⟨hd, hlt⟩
          omega
        · left
          exact hd

def QFMetadata.item (m : QFMetadata) (hash n : Nat) : Item :=
  ⟨m.remainder hash, m.extension hash n, []⟩

theorem QFMetadata.item_matches (m : QFMetadata) (hash n : Nat) :
    (m.item hash n).Matches m hash := ⟨rfl, by simp [item]⟩

theorem QFMetadata.digit_of_extension (he : m.extension h n = m.extension g n) {j : Nat}
    (hj : j < n) : m.digit h j = m.digit g j := by
  have hsplit : ∀ x, m.extension x (j+1) = m.extension x j ++ [m.digit x j] :=
    fun x => m.extension_succ x j
  have htake : ∀ x, (m.extension x n).take (j+1) = m.extension x (j+1) :=
    fun x => Digits.take_low (by omega)
  have hj1 := congrArg (List.take (j+1)) he
  rw [htake, htake, hsplit, hsplit] at hj1
  simpa using (List.append_inj' hj1 rfl).2

theorem Digging.extension_take {ds done rest : List Nat} (hd : Digging m h g n ds)
    (hs : ds = done ++ rest) : m.extension h n ++ done = m.extension h (n + done.length) := by
  have h1 := hd.digits
  rw [hs, List.length_append, ← List.append_assoc] at h1
  have h2 := congrArg (List.take (n + done.length)) h1
  rw [List.take_append_of_le_length (by simp), List.take_of_length_le (by simp)] at h2
  rw [h2, QFMetadata.extension, Digits.take_low (by omega)]
  rfl

/-- Two hashes that agree in all their bits are equal. -/
theorem eq_of_fingerprint (hh : h < 2^64) (hg : g < 2^64)
    (hn : 64 ≤ m.quotientBits + m.bitsPerSlot + m.bitsPerSlot * n)
    (he : m.fingerprint h n = m.fingerprint g n) : h = g := by
  have hp : 2^64 ≤ 2^(m.quotientBits + m.bitsPerSlot + m.bitsPerSlot * n) :=
    Nat.pow_le_pow_right (by omega) hn
  unfold QFMetadata.fingerprint at he
  rw [Nat.mod_eq_of_lt (by omega), Nat.mod_eq_of_lt (by omega)] at he
  exact he

/-- The extended fingerprint is not one of the other hash any more. -/
theorem Digging.separates {ds : List Nat} (hd : Digging m h g n ds) (hh : h < 2^64)
    (hg : g < 2^64) (hne : h ≠ g) (hb : m.bucket h = m.bucket g) :
    ¬ (m.remainder h = m.remainder g ∧
      m.extension h (n + ds.length) = m.extension g (n + ds.length)) := by
  rintro ⟨hr, he⟩
  rcases hd.last with hl | hl
  · have hpos := hd.pos
    obtain ⟨k, hk⟩ : ∃ k, n + ds.length = k + 1 := ⟨n + ds.length - 1, by omega⟩
    rw [hk, Nat.add_sub_cancel] at hl
    rw [hk, m.extension_succ, m.extension_succ] at he
    exact hl (by simpa using (List.append_inj' he rfl).2)
  · exact hne (eq_of_fingerprint hh hg hl (QFMetadata.fingerprint_eq_iff.mpr ⟨hb, hr, he⟩))

theorem adaptHash_eq (hh : h < 2^64) {ds : List Nat}
    (hd : m.extension h n ++ ds = m.extension h (n + ds.length))
    (hf : m.quotientBits + m.bitsPerSlot * (n + ds.length) < 64) :
    adaptHash m.bitsPerSlot (m.bitsPerSlot * n + m.quotientBits + m.bitsPerSlot)
      (m.fingerprint h n) ds = m.fingerprint h (n + ds.length) := by
  induction ds generalizing n with
  | nil => rfl
  | cons v ds ih =>
    have hlen : n + (v :: ds).length = n + 1 + ds.length := by
      rw [List.length_cons]
      omega
    rw [hlen] at hd hf ⊢
    -- the first of them is the next digit of the hash
    have hv : m.extension h n ++ [v] = m.extension h (n+1) := by
      have h1 := congrArg (List.take (n+1)) hd
      have hcat : m.extension h n ++ v :: ds = (m.extension h n ++ [v]) ++ ds := by simp
      rw [hcat, List.take_append_of_le_length (by simp), List.take_of_length_le (by simp)] at h1
      rw [h1, QFMetadata.extension, Digits.take_low (by omega)]
      rfl
    have hvd : v = m.digit h n := by
      rw [m.extension_succ] at hv
      simpa using (List.append_inj' hv rfl).2
    have hexp : m.bitsPerSlot * (n + 1 + ds.length) =
        m.bitsPerSlot * n + m.bitsPerSlot + m.bitsPerSlot * ds.length := by ring
    have hpos : m.bitsPerSlot * n + m.quotientBits + m.bitsPerSlot =
        m.quotientBits + m.bitsPerSlot + m.bitsPerSlot * n := by omega
    have hle : v * 2^(m.quotientBits + m.bitsPerSlot + m.bitsPerSlot * n) < 2^64 := by
      rw [hvd]
      calc m.digit h n * 2^(m.quotientBits + m.bitsPerSlot + m.bitsPerSlot * n)
          ≤ h / 2^(m.quotientBits + m.bitsPerSlot + m.bitsPerSlot * n) *
            2^(m.quotientBits + m.bitsPerSlot + m.bitsPerSlot * n) :=
            Nat.mul_le_mul_right _ (Nat.mod_le _ _)
        _ ≤ h := Nat.div_mul_le_self _ _
        _ < 2^64 := hh
    have hfp : m.fingerprint h n < 2^(m.quotientBits + m.bitsPerSlot + m.bitsPerSlot * n) :=
      Nat.mod_lt _ (Nat.two_pow_pos _)
    have hstep : m.fingerprint h n ||| shl64 v (m.bitsPerSlot * n + m.quotientBits +
        m.bitsPerSlot) = m.fingerprint h (n+1) := by
      rw [hpos, shl64_eq (by omega) hle, ← Nat.shiftLeft_eq, Digits.or_shiftLeft hfp,
        m.fingerprint_succ, hvd]
    have hnext : m.bitsPerSlot * n + m.quotientBits + m.bitsPerSlot + m.bitsPerSlot =
        m.bitsPerSlot * (n+1) + m.quotientBits + m.bitsPerSlot := by ring
    rw [adaptHash, hstep, hnext]
    apply ih
    · rw [← hv, List.append_assoc]
      exact hd
    · rw [hexp] at hf ⊢
      exact hf

end

/-! `adapt`, `qf_adapt` and `qf_adapt_using_ll_table`. -/

section
variable {qf : QF} {A : Contents} {b : Nat} {l1 l2 : List Item} {it : Item} {hash other : Nat}

theorem Geometry.minirunId_split (hg : Geometry qf.metadata) (hash : Nat) :
    minirunId qf hash = qf.metadata.remainder hash |||
      shl64 (qf.metadata.bucket hash) qf.bits := by
  have h1 := hg.hashBits
  have hlt : qf.metadata.remainder hash < 2^qf.bits := Nat.mod_lt _ (Nat.two_pow_pos _)
  have hb : qf.metadata.bucket hash < 2^qf.qbits := Nat.mod_lt _ (Nat.two_pow_pos _)
  have hle : qf.metadata.bucket hash * 2^qf.bits < 2^64 := by
    calc qf.metadata.bucket hash * 2^qf.bits < 2^qf.qbits * 2^qf.bits :=
          Nat.mul_lt_mul_of_pos_right hb (Nat.two_pow_pos _)
      _ = 2^(qf.qbits + qf.bits) := by rw [pow_add]
      _ ≤ 2^64 := Nat.pow_le_pow_right (by omega) (by unfold QF.qbits QF.bits; omega)
  have hp : 2^(qf.qbits + qf.bits) = 2^qf.bits * 2^qf.qbits := by
    rw [← pow_add, Nat.add_comm]
  rw [hg.minirunId_eq, shl64_eq (by unfold QF.bits; omega) hle, ← Nat.shiftLeft_eq,
    Digits.or_shiftLeft hlt, hp, Nat.mod_mul, Nat.mul_comm (2^qf.bits)]
  rfl

theorem Geometry.minirunId_eq_iff (hg : Geometry qf.metadata) {h g : Nat} :
    minirunId qf h = minirunId qf g ↔ qf.metadata.bucket h = qf.metadata.bucket g ∧
      qf.metadata.remainder h = qf.metadata.remainder g := by
  have hf : ∀ x, minirunId qf x = qf.metadata.fingerprint x 0 := fun x => hg.minirunId_eq x
  rw [hf, hf, QFMetadata.fingerprint_eq_iff]
  have he : ∀ x, qf.metadata.extension x 0 = [] :=
    fun x => List.length_eq_zero_iff.mp (by simp)
  simp [he]

theorem Geometry.rangeBucket_eq (hg : Geometry qf.metadata) (hash : Nat) :
    rangeBucket qf hash = qf.metadata.bucket hash := by
  have h1 := hg.hashBits
  have hr : qf.metadata.range = 2^qf.bits * 2^qf.qbits := by
    rw [hg.range, hg.nslots, Nat.mul_comm]
  rw [rangeBucket, shr64_eq _ (by unfold QF.bits; omega), hr, Nat.mod_mul_right_div_self]
  rfl

def QF.wantedDigits (qf : QF) (hash other n : Nat) : List Nat :=
  adaptDigits qf.bits (qf.qbits + qf.bits) 64 (qf.bits * n) (shr64 hash (qf.bits * n + qf.qbits))
    (shr64 other (qf.bits * n + qf.qbits))

theorem QF.Keeps.wantedDigits {qf' : QF} (hk : qf.Keeps qf') :
    qf'.wantedDigits = qf.wantedDigits := by
  unfold QF.wantedDigits
  rw [hk.bits, hk.qbits]

theorem Layout.adapt_eq (h : Layout qf A) (hb : A b = l1 ++ it :: l2) (hc : it.cnt.length ≤ 1)
    (hs : A.pos b l1 + it.len < 2^31) (hbk : qf.metadata.bucket hash = b)
    (hr : it.rem = qf.metadata.remainder hash) (other : Nat) :
    ∃ qf' ret done rest, adapt qf (A.pos b l1) b hash other =
        some (ret, adaptHash qf.bits (qf.bits * it.ext.length + qf.qbits + qf.bits)
          (hash &&& bitmask (qf.bits * it.ext.length + qf.qbits + qf.bits)) done, qf') ∧
      Adapted qf A b l1 it l2 (qf.wantedDigits hash other it.ext.length) qf' done rest ∧
      ret = if rest = [] then
          ((qf.bits * it.ext.length + qf.qbits + qf.bits + qf.bits * done.length : Nat) : Int)
        else noSpace := by
  have hat := h.itemAt hb
  have hassert : it.cnt.length ≤ 1 ∧ minirunId qf hash = it.rem ||| shl64 b qf.bits :=
    ⟨hc, by rw [h.geometry.minirunId_split, hr, hbk]⟩
  obtain ⟨qf', ret, done, rest, heq, had⟩ := h.adaptLoop_eq hb hc
    (shr64 hash (qf.bits * it.ext.length + qf.qbits))
    (shr64 other (qf.bits * it.ext.length + qf.qbits))
    (hash &&& bitmask (qf.bits * it.ext.length + qf.qbits + qf.bits))
    (by omega : 0 < 64) (by omega : 64 ≤ qf.bits * it.ext.length + qf.qbits + 64)
  refine ⟨qf', ret, done, rest, ?_, had⟩
  unfold adapt
  simp only [hat.getSlotInfo_eq h.row.blocks, if_pos hs, hat.getSlot_eq, Option.bind_eq_bind,
    Option.bind_some, Item.info, if_pos hassert, heq]

theorem Adapted.tally {ds done rest : List Nat} {qf' : QF}
    (h : Adapted qf A b l1 it l2 ds qf' done rest) : qf.KeepsTally qf' :=
  (QF.KeepsTally.countSlots qf _).trans (.of_sameFrame h.frame)

theorem Adapted.keeps {ds done rest : List Nat} {qf' : QF}
    (h : Adapted qf A b l1 it l2 ds qf' done rest) : qf.Keeps qf' := h.tally.keeps

theorem Item.extend_rem (it : Item) (l : List Nat) : (it.extend l).rem = it.rem := by
  induction l generalizing it with
  | nil => rfl
  | cons v l ih => exact ih (it.push v)

theorem Item.extend_ext (it : Item) (l : List Nat) : (it.extend l).ext = it.ext ++ l := by
  by_cases h : l = []
  · subst h
    simp [Item.extend]
  · rw [Item.extend_of_ne_nil _ h]

theorem Item.len_extend (hc : it.cnt.length ≤ 1) (l : List Nat) :
    it.len ≤ (it.extend l).len ∧ (it.extend l).len ≤ it.len + l.length := by
  by_cases hl : l = []
  · subst hl
    exact ⟨Nat.le_refl _, Nat.le_refl _⟩
  · have hpos := List.length_pos_iff.mpr hl
    rw [Item.extend_of_ne_nil _ hl]
    simp only [Item.len, List.length_append, List.length_nil]
    omega

/-- Every digit takes an empty slot at most. -/
theorem Adapted.free_le {ds done rest : List Nat} {qf' : QF}
    (had : Adapted qf A b l1 it l2 ds qf' done rest) (h : Layout qf A) (hb : A b = l1 ++ it :: l2)
    (hc : it.cnt.length ≤ 1) : A.free qf (A.pos b l1) ≤ done.length +
      Contents.free (Function.update A b (l1 ++ it.extend done :: l2)) qf' (A.pos b l1) := by
  obtain ⟨hle, hle2⟩ := Item.len_extend hc done
  have := h.free_replace (k := (it.extend done).len - it.len) hb had.layout had.keeps (by omega)
  omega

/-- With an empty slot for every digit that does not go into a counter slot, and one to be found at
all, `adapt` gets through. -/
theorem Adapted.rest_eq_nil_of_pos {ds done rest : List Nat} {qf' : QF}
    (had : Adapted qf A b l1 it l2 ds qf' done rest) (h : Layout qf A) (hb : A b = l1 ++ it :: l2)
    (hc : it.cnt.length ≤ 1) (hpos : 0 < A.free qf (A.pos b l1))
    (hfree : ds.length ≤ A.free qf (A.pos b l1) + it.cnt.length) : rest = [] := by
  by_contra hrest
  have hb2 : Function.update A b (l1 ++ it.extend done :: l2) b = l1 ++ it.extend done :: l2 :=
    Function.update_self ..
  obtain ⟨hle, hle2⟩ := Item.len_extend hc done
  have hgrow :=
    h.free_replace (k := (it.extend done).len - it.len) hb had.layout had.keeps (by omega)
  -- no slot is left behind the item
  obtain ⟨e, he, hex⟩ := had.full hrest
  have hlen : it.ext.length + done.length + 1 ≤ (it.extend done).len := by
    unfold Item.len
    rw [Item.extend_ext, List.length_append]
    omega
  have hitem := had.layout.free_item hb2 hlen
  have hzero : Contents.free (Function.update A b (l1 ++ it.extend done :: l2)) qf'
      (A.pos b l1 + (it.ext.length + done.length + 1)) = 0 := by
    by_contra hne
    obtain ⟨e2, he2, hlt⟩ := free_pos_iff.mp (Nat.pos_of_ne_zero hne)
    rw [← he.unique he2, had.keeps.xnslots] at hlt
    omega
  rw [Contents.pos_update] at hitem
  have hds := congrArg List.length had.split
  rw [List.length_append] at hds
  have hrpos := List.length_pos_iff.mpr hrest
  by_cases hdone : done = []
  · subst hdone
    have hsame : (it.extend []).len - it.len = 0 := Nat.sub_self _
    omega
  · have hgrown : (it.extend done).len = it.ext.length + done.length + 1 := by
      rw [Item.extend_of_ne_nil _ hdone]
      simp only [Item.len, List.length_append, List.length_nil]
      omega
    have hit : it.len = it.ext.length + it.cnt.length + 1 := by
      unfold Item.len
      omega
    omega

theorem Adapted.rest_eq_nil {ds done rest : List Nat} {qf' : QF}
    (had : Adapted qf A b l1 it l2 ds qf' done rest) (h : Layout qf A) (hb : A b = l1 ++ it :: l2)
    (hc : it.cnt.length ≤ 1) (hfree : ds.length ≤ A.free qf (A.pos b l1)) : rest = [] := by
  by_contra hrest
  have hds := congrArg List.length had.split
  rw [List.length_append] at hds
  have := List.length_pos_iff.mpr hrest
  exact hrest (had.rest_eq_nil_of_pos h hb hc (by omega) (by omega))

/-- Without one an item that has no counter stays as it is. -/
theorem Adapted.done_eq_nil {ds done rest : List Nat} {qf' : QF}
    (had : Adapted qf A b l1 it l2 ds qf' done rest) (h : Layout qf A) (hb : A b = l1 ++ it :: l2)
    (hc : it.cnt = []) (hfree : A.free qf (A.pos b l1) = 0) : done = [] := by
  by_contra hdone
  have hpos := List.length_pos_iff.mpr hdone
  have hlen : (it.extend done).len = it.len + done.length := by
    rw [Item.extend_of_ne_nil _ hdone]
    simp only [Item.len, hc, List.length_append, List.length_nil]
    omega
  have := h.free_replace hb had.layout had.keeps hlen
  omega

structure AdaptedTo (qf : QF) (A : Contents) (b : Nat) (l1 : List Item) (it : Item)
    (l2 : List Item) (hash other : Nat) (qf' : QF) (ret : Int) (retHash : Nat)
    (done rest : List Nat) : Prop where
  digging : Digging qf.metadata hash other it.ext.length (done ++ rest)
  wf : WF qf' (Function.update A b (l1 ++ it.extend done :: l2))
  frame : (QF.countSlot^[(it.extend done).len - it.len] qf).SameFrame qf'
  matching : (it.extend done).Matches qf.metadata hash
  retHash_eq : retHash = qf.metadata.fingerprint hash (it.ext.length + done.length)
  ret_eq : ret = if rest = [] then
    (qf.metadata.fingerprintLen (it.ext.length + done.length) : Int) else noSpace
  room : (qf.wantedDigits hash other it.ext.length).length ≤ A.free qf (A.pos b l1) → rest = []

theorem AdaptedTo.keeps {retHash : Nat} {ret : Int} {done rest : List Nat} {qf' : QF}
    (h : AdaptedTo qf A b l1 it l2 hash other qf' ret retHash done rest) : qf.Keeps qf' :=
  ((QF.KeepsTally.countSlots qf _).trans (.of_sameFrame h.frame)).keeps

theorem Geometry.wantedDigits_spec (hg : Geometry qf.metadata) (hash other : Nat) {n : Nat}
    (hroom : qf.metadata.fingerprintLen n < 64) :
    Digging qf.metadata hash other n (qf.wantedDigits hash other n) := by
  have hw := hg.bits
  unfold QFMetadata.fingerprintLen at hroom
  have hshr : ∀ x, shr64 x (qf.bits * n + qf.qbits) = x / 2^(qf.bits * n + qf.qbits) :=
    fun x => shr64_eq x (by unfold QF.bits QF.qbits; omega)
  unfold QF.wantedDigits
  rw [hshr, hshr]
  exact adaptDigits_spec (by omega) hg.slotBits (by omega) (by omega) (by omega)

theorem Geometry.room (hg : Geometry qf.metadata) : qf.metadata.fingerprintLen 0 < 64 := by
  have := hg.hashBits
  unfold QFMetadata.fingerprintLen
  omega

theorem WF.adapt_room (h : WF qf A) (hb : A b = l1 ++ it :: l2) (hc : it.cnt.length ≤ 1)
    (hs : A.pos b l1 + it.len < 2^31) (hbk : qf.metadata.bucket hash = b)
    (hr : it.rem = qf.metadata.remainder hash)
    (hroom : qf.metadata.fingerprintLen it.ext.length < 64) (other : Nat) :
    ∃ qf' ret done rest, adapt qf (A.pos b l1) b hash other =
        some (ret, adaptHash qf.bits (qf.bits * it.ext.length + qf.qbits + qf.bits)
          (hash &&& bitmask (qf.bits * it.ext.length + qf.qbits + qf.bits)) done, qf') ∧
      Digging qf.metadata hash other it.ext.length (done ++ rest) ∧
      Adapted qf A b l1 it l2 (qf.wantedDigits hash other it.ext.length) qf' done rest ∧
      WF qf' (Function.update A b (l1 ++ it.extend done :: l2)) ∧
      ret = if rest = [] then (qf.metadata.fingerprintLen (it.ext.length + done.length) : Int)
        else noSpace := by
  obtain ⟨qf', ret, done, rest, heq, had, hret⟩ := h.toLayout.adapt_eq hb hc hs hbk hr other
  have hd := h.geometry.wantedDigits_spec hash other hroom
  rw [had.split] at hd
  have hfits := hd.fits_left
  refine ⟨qf', ret, done, rest, heq, hd, had, ?_, ?_⟩
  · refine h.replace had.keeps had.layout fun x hx => ?_
    rcases List.mem_append.mp hx with hx | hx
    · exact h.fingerprint b x (by simp [hb, hx])
    · rcases List.mem_cons.mp hx with rfl | hx
      · rw [Item.Fits, Item.extend_ext, List.length_append]
        exact hfits
      · exact h.fingerprint b x (by simp [hb, hx])
  · rw [hret]
    by_cases hr : rest = []
    · rw [if_pos hr, if_pos hr]
      congr 1
      unfold QFMetadata.fingerprintLen QF.bits QF.qbits
      ring
    · rw [if_neg hr, if_neg hr]

theorem WF.adapt_matching (h : WF qf A) (hb : A b = l1 ++ it :: l2) (hc : it.cnt.length ≤ 1)
    (hs : A.pos b l1 + it.len < 2^31) (hbk : qf.metadata.bucket hash = b)
    (hm : it.Matches qf.metadata hash) (hh : hash < 2^64)
    (hroom : qf.metadata.fingerprintLen it.ext.length < 64) (other : Nat) :
    ∃ qf' ret retHash done rest, adapt qf (A.pos b l1) b hash other = some (ret, retHash, qf') ∧
      AdaptedTo qf A b l1 it l2 hash other qf' ret retHash done rest ∧
      (0 < A.free qf (A.pos b l1) → (done ++ rest).length ≤
        A.free qf (A.pos b l1) + it.cnt.length → rest = []) := by
  have hw2 := h.geometry.slotBits
  obtain ⟨qf', ret, done, rest, heq, hd, had, hwf, hret⟩ :=
    h.adapt_room hb hc hs hbk hm.1 hroom other
  have htake := hd.extension_take rfl
  unfold QFMetadata.fingerprintLen at hroom
  have hfits := hd.fits_left
  have hmask : hash &&& bitmask (qf.bits * it.ext.length + qf.qbits + qf.bits) =
      qf.metadata.fingerprint hash it.ext.length := by
    have he : qf.bits * it.ext.length + qf.qbits + qf.bits =
        qf.metadata.quotientBits + qf.metadata.bitsPerSlot +
          qf.metadata.bitsPerSlot * it.ext.length := by
      unfold QF.bits QF.qbits
      omega
    rw [and_bitmask _ (by omega), he]
    rfl
  have hext : (it.extend done).ext = qf.metadata.extension hash (it.extend done).ext.length := by
    rw [Item.extend_ext, List.length_append, ← htake, ← hm.2]
  refine ⟨qf', ret, _, done, rest, heq, ⟨hd, hwf, had.frame, ?_, ?_, hret,
    had.rest_eq_nil h.toLayout hb hc⟩, fun hpos hfree => ?_⟩
  · exact ⟨by rw [Item.extend_rem]; exact hm.1, hext⟩
  · rw [hmask]
    exact adaptHash_eq hh htake hfits
  · rw [← had.split] at hfree
    exact had.rest_eq_nil_of_pos h.toLayout hb hc hpos hfree

theorem WF.adapt_eq (h : WF qf A) (hb : A b = l1 ++ it :: l2) (hc : it.cnt.length ≤ 1)
    (hs : A.pos b l1 + it.len < 2^31) (hbk : qf.metadata.bucket hash = b)
    (hm : it.Matches qf.metadata hash) (hh : hash < 2^64)
    (hroom : qf.metadata.fingerprintLen it.ext.length < 64) (other : Nat) :
    ∃ qf' ret retHash done rest, adapt qf (A.pos b l1) b hash other = some (ret, retHash, qf') ∧
      AdaptedTo qf A b l1 it l2 hash other qf' ret retHash done rest := by
  obtain ⟨qf', ret, retHash, done, rest, heq, had, -⟩ :=
    h.adapt_matching hb hc hs hbk hm hh hroom other
  exact ⟨qf', ret, retHash, done, rest, heq, had⟩

/-- Two different hashes that match one item leave room for an extension. -/
theorem fingerprintLen_lt {m : QFMetadata} (hh : hash < 2^64) (hg : other < 2^64)
    (hne : hash ≠ other) (hbk : m.bucket hash = m.bucket other) (h1 : it.Matches m hash)
    (h2 : it.Matches m other) : m.fingerprintLen it.ext.length < 64 := by
  by_contra hc
  apply hne
  unfold QFMetadata.fingerprintLen at hc
  apply eq_of_fingerprint (m := m) (n := it.ext.length) hh hg (by omega)
  exact QFMetadata.fingerprint_eq_iff.mpr ⟨hbk, h1.1.symm.trans h2.1, h1.2.symm.trans h2.2⟩

theorem AdaptedTo.not_matches {qf' : QF} {ret : Int} {retHash : Nat} {done rest : List Nat}
    (h : AdaptedTo qf A b l1 it l2 hash other qf' ret retHash done rest) (hret : ret ≠ noSpace)
    (hh : hash < 2^64) (hg : other < 2^64) (hne : hash ≠ other)
    (hbk : qf.metadata.bucket hash = qf.metadata.bucket other) :
    ¬ (it.extend done).Matches qf.metadata other := by
  have hrest : rest = [] := by
    by_contra hr
    exact hret (by rw [h.ret_eq, if_neg hr])
  subst hrest
  have hd := h.digging
  rw [List.append_nil] at hd
  rintro ⟨h1, h2⟩
  apply hd.separates hh hg hne hbk
  have hlen : (it.extend done).ext.length = it.ext.length + done.length := by
    rw [Item.extend_ext, List.length_append]
  have hm := h.matching
  refine ⟨hm.1.symm.trans h1, ?_⟩
  have he := hm.2.symm.trans h2
  rw [hlen] at he
  exact he

/-- Without an empty slot behind the item `adapt` gives up, even where it needs none. -/
theorem Layout.adapt_full (h : Layout qf A) (hb : A b = l1 ++ it :: l2)
    (hfree : A.free qf (A.pos b l1) = 0) (bucket hash other : Nat) (r : Int × Nat × QF)
    (hr : adapt qf (A.pos b l1) bucket hash other = some r) : r.1 = noSpace := by
  have hitem := h.free_item hb (by unfold Item.len; omega : it.ext.length + 1 ≤ it.len)
  have hfits := (h.pos_add_len_le hb).trans h.fits
  obtain ⟨e, he, _⟩ := @exists_firstUnused A.lens _ (fun c hc => h.outside_lens hc)
    (A.pos b l1 + (it.ext.length + 1))
  have hex : e ≥ qf.xnslots := by
    by_contra hlt
    have hpos := free_pos_iff.mpr ⟨e, he, Nat.lt_of_not_le hlt⟩
    unfold Contents.free at hitem hfree
    omega
  have hfind : findFirstEmptySlot qf (A.pos b l1 + (it.ext.length + 1)) = some e :=
    h.row.findFirstEmptySlot_eq h.offsets (by rw [Contents.lens_runs]; exact he)
      (by unfold Item.len at hfits; omega)
  have hat := h.itemAt hb
  unfold adapt at hr
  rw [hat.getSlotInfo_eq h.row.blocks, hat.getSlot_eq] at hr
  split at hr
  · simp only [Option.bind_eq_bind, Option.bind_some, Item.info] at hr
    split at hr
    · unfold adaptLoop at hr
      simp only [hfind, Option.bind_eq_bind, Option.bind_some, if_pos hex, Option.some.injEq] at hr
      rw [← hr]
    · exact absurd hr (Option.some_ne_none _).symm
  · exact absurd hr (Option.some_ne_none _).symm

structure Separated (qf : QF) (A : Contents) (b : Nat) (l1 : List Item) (it : Item)
    (l2 : List Item) (hash other : Nat) (qf' : QF) (ret : Int) (retHash n : Nat) : Prop where
  wf : WF qf' (Function.update A b (l1 ++ qf.metadata.item hash n :: l2))
  keeps : qf.Keeps qf'
  longer : it.ext.length < n
  apart : ¬ (qf.metadata.item hash n).Matches qf.metadata other
  retHash_eq : retHash = qf.metadata.fingerprint hash n
  ret_eq : ret = (qf.metadata.fingerprintLen n : Int)

theorem AdaptedTo.separated {qf' : QF} {ret : Int} {retHash : Nat} {done rest : List Nat}
    (h : AdaptedTo qf A b l1 it l2 hash other qf' ret retHash done rest) (hret : ret ≠ noSpace)
    (hh : hash < 2^64) (hg : other < 2^64) (hne : hash ≠ other)
    (hbk : qf.metadata.bucket hash = qf.metadata.bucket other) :
    rest = [] ∧ Separated qf A b l1 it l2 hash other qf' ret retHash
      (it.ext.length + done.length) := by
  have hrest : rest = [] := by
    by_contra hr
    exact hret (by rw [h.ret_eq, if_neg hr])
  have hpos := h.digging.pos
  rw [hrest, List.append_nil] at hpos
  have hdone : done ≠ [] := by
    rintro rfl
    simp at hpos
  have hm := h.matching
  have hit : it.extend done = qf.metadata.item hash (it.ext.length + done.length) := by
    rw [Item.extend_of_ne_nil _ hdone] at hm ⊢
    have he := hm.2
    rw [List.length_append] at he
    rw [QFMetadata.item, ← he, ← hm.1]
  have hnot := h.not_matches hret hh hg hne hbk
  have hwf := h.wf
  rw [hit] at hnot hwf
  have hre := h.ret_eq
  rw [if_pos hrest] at hre
  exact ⟨hrest, hwf, h.keeps, by omega, hnot, h.retHash_eq, hre⟩

/-- The loop goes to the item of rank `r` where there is one. It does not look for the end of the
run while it steps over smaller remainders. -/
theorem Layout.adaptScan_target (h : Layout qf A) {k1 : List Item}
    (hb : A b = l1 ++ k1 ++ it :: l2) (hr : it.rem = qf.metadata.remainder hash) {fuel rank : Nat}
    (hf : k1.length < fuel) :
    adaptScan qf (qf.metadata.remainder hash) (rank + rankOf qf.metadata hash k1) fuel
      (A.pos b l1) rank =
        if A.pos b (l1 ++ k1) + it.len < 2^31 then some (some (A.pos b (l1 ++ k1))) else none := by
  induction k1 generalizing l1 fuel rank with
  | nil =>
    obtain ⟨fuel, rfl⟩ : ∃ n, fuel = n + 1 := ⟨fuel - 1, by simp at hf; omega⟩
    rw [List.append_nil] at hb ⊢
    have hat := h.itemAt hb
    unfold adaptScan
    simp only [hat.getSlot_eq, Option.bind_eq_bind, Option.bind_some, hr,
      hat.getSlotInfo_eq h.row.blocks, rankOf, List.countP_nil, Nat.add_zero, if_true]
    rw [if_neg (by omega)]
    split <;> rfl
  | cons x k1 ih =>
    obtain ⟨fuel, rfl⟩ : ∃ n, fuel = n + 1 := ⟨fuel - 1, by simp at hf; omega⟩
    have hb1 : A b = l1 ++ x :: (k1 ++ it :: l2) := by simp [hb]
    have hb2 : A b = (l1 ++ [x]) ++ k1 ++ it :: l2 := by simp [hb]
    have hcat : l1 ++ x :: k1 = (l1 ++ [x]) ++ k1 := by simp
    have hat := h.itemAt hb1
    have hpos := A.pos_append b l1 x
    have hnext := h.next_lt hb1 (by simp)
    have hsort := h.sorted b
    rw [hb1, List.pairwise_append, List.pairwise_cons] at hsort
    have hle : x.rem ≤ qf.metadata.remainder hash := by
      rw [← hr]
      exact hsort.2.1.1 it (by simp)
    have hend : A.pos b l1 + x.len ≤ A.pos b (l1 ++ x :: k1) := by
      simp only [Contents.pos, itemsLen_append, itemsLen_cons]
      omega
    rw [hcat] at hend ⊢
    unfold adaptScan
    simp only [hat.getSlot_eq, Option.bind_eq_bind, Option.bind_some, hat.isRunend_eq]
    by_cases h1 : x.rem < qf.metadata.remainder hash
    · have hrank : rankOf qf.metadata hash (x :: k1) = rankOf qf.metadata hash k1 := by
        have : x.rem ≠ qf.metadata.remainder hash := by omega
        simp [rankOf, this]
      rw [if_pos h1, hat.skip h.row.blocks, Option.bind_some, if_pos hnext, ← hpos, hrank]
      exact ih hb2 (by simp at hf; omega)
    · have h2 : x.rem = qf.metadata.remainder hash := by omega
      have hrank : rank + rankOf qf.metadata hash (x :: k1) =
          rank + 1 + rankOf qf.metadata hash k1 := by
        simp [rankOf, h2]
        omega
      have hlen : A.pos b l1 + (x.cnt.length + x.ext.length + 1) = A.pos b l1 + x.len := by
        unfold Item.len
        omega
      have hne : ¬ rank = rank + 1 + rankOf qf.metadata hash k1 := by omega
      rw [if_neg h1, if_pos h2, hat.getSlotInfo_eq h.row.blocks, hrank]
      by_cases hnear : A.pos b l1 + x.len < 2^31
      · rw [if_pos hnear, Option.bind_some, if_neg hne]
        simp only [Item.info, hlen]
        rw [if_neg (by simp), if_pos hnext, ← hpos]
        exact ih hb2 (by simp at hf; omega)
      · rw [if_neg hnear, Option.bind_none, if_neg (by omega)]

theorem Layout.adaptScan_start (h : Layout qf A)
    (hb : A (qf.metadata.bucket hash) = l1 ++ it :: l2)
    (hr : it.rem = qf.metadata.remainder hash) :
    adaptScan qf (qf.metadata.remainder hash) (rankOf qf.metadata hash l1) qf.fuel
      (start A.lens (qf.metadata.bucket hash)) 0 =
        if A.pos (qf.metadata.bucket hash) l1 + it.len < 2^31 then
          some (some (A.pos (qf.metadata.bucket hash) l1)) else none := by
  have hlen := h.length_le_fuel (qf.metadata.bucket hash)
  rw [hb, List.length_append, List.length_cons] at hlen
  have hscan := @Layout.adaptScan_target qf A (qf.metadata.bucket hash) [] l2 it hash h l1
    (by simpa using hb) hr qf.fuel 0 (by omega)
  have hpos : A.pos (qf.metadata.bucket hash) [] = start A.lens (qf.metadata.bucket hash) := rfl
  rwa [hpos, List.nil_append, Nat.zero_add] at hscan

theorem Layout.qfAdaptUsingLlTable_hit (h : Layout qf A) {fpKey flags : Nat}
    (hk : keyToHash qf fpKey flags = hash)
    (hb : A (qf.metadata.bucket hash) = l1 ++ it :: l2)
    (hs : A.pos (qf.metadata.bucket hash) l1 + it.len < 2^31)
    (hr : it.rem = qf.metadata.remainder hash) (origKey : Nat) :
    qfAdaptUsingLlTable qf origKey fpKey (rankOf qf.metadata hash l1) flags =
      (qfAdapt qf (A.pos (qf.metadata.bucket hash) l1) origKey fpKey 0 flags).map
        fun r => (1, r.2.2) := by
  have hocc : isOccupied qf (qf.metadata.bucket hash) = true := by
    have hocc := h.occupied (qf.metadata.bucket hash)
    rw [hb] at hocc
    exact hocc.trans (by simp)
  have hscan := h.adaptScan_start hb hr
  rw [if_pos hs] at hscan
  unfold qfAdaptUsingLlTable
  simp only [hk, h.geometry.hashBucketIndex_eq, hocc, Bool.not_true, Bool.false_eq_true, if_false,
    h.runStart_eq, h.geometry.hashRemainder_eq, hscan, Option.bind_eq_bind, Option.bind_some]
  cases qfAdapt qf (A.pos (qf.metadata.bucket hash) l1) origKey fpKey 0 flags <;> rfl

theorem WF.qfAdapt_eq (h : WF qf A) {key otherKey flags : Nat} (hk : keyToHash qf key flags = hash)
    (hk2 : keyToHash qf otherKey flags = other) (hne : hash ≠ other) (index retHash : Nat) :
    qfAdapt qf index key otherKey retHash flags =
      adapt qf index (qf.metadata.bucket hash) hash other := by
  unfold qfAdapt
  simp only [hk, hk2, if_neg hne, h.geometry.rangeBucket_eq]

/-- No fingerprint that reaches slot 2^31 is extended. -/
theorem Layout.adapt_far (h : Layout qf A) (hb : A b = l1 ++ it :: l2)
    (hfar : 2^31 ≤ A.pos b l1 + it.len) (bucket hash other : Nat) :
    adapt qf (A.pos b l1) bucket hash other = none := by
  have hinfo := (h.itemAt hb).getSlotInfo_eq h.row.blocks
  rw [if_neg (by omega)] at hinfo
  rw [adapt, hinfo, Option.bind_eq_bind, Option.bind_none]

end

end AdaptiveQF
