import AdaptiveQF.Shift
import AdaptiveQF.Lib.Digits

/-! Items of variable length, the contents of a filter as a map from buckets to
item lists, and the states that hold such contents in canonical layout. -/
namespace AdaptiveQF
open RunLayout

structure Item where
  rem : Nat
  /-- Extension slots, lowest bits of the hash first. -/
  ext : List Nat
  /-- Counter slots, lowest digit first. -/
  cnt : List Nat
deriving DecidableEq

namespace Item

def len (it : Item) : Nat := 1 + it.ext.length + it.cnt.length

def baseCell (it : Item) (last : Bool) : Cell := ⟨it.rem, last, false⟩
def extCell (v : Nat) : Cell := ⟨v, false, true⟩
def cntCell (v : Nat) : Cell := ⟨v, true, true⟩

def tail (it : Item) : List Cell := it.ext.map extCell ++ it.cnt.map cntCell

def cells (it : Item) (last : Bool) : List Cell := it.baseCell last :: it.tail

theorem length_tail (it : Item) : it.tail.length = it.ext.length + it.cnt.length := by
  simp [tail]

@[simp] theorem length_cells (it : Item) (last : Bool) : (it.cells last).length = it.len := by
  simp [cells, length_tail, len]
  omega

theorem len_pos (it : Item) : 0 < it.len := by
  unfold len
  omega

theorem extension_of_mem_tail {it : Item} {c : Cell} (h : c ∈ it.tail) : c.extension = true := by
  simp only [tail, List.mem_append, List.mem_map] at h
  rcases h with ⟨v, _, rfl⟩ | ⟨v, _, rfl⟩ <;> rfl

end Item

def initCells (l : List Item) : List Cell := l.flatMap (·.cells false)

def runCells : List Item → List Cell
  | [] => []
  | it :: rest => it.cells rest.isEmpty ++ runCells rest

def itemsLen (l : List Item) : Nat := (l.map Item.len).sum

@[simp] theorem itemsLen_nil : itemsLen [] = 0 := rfl

@[simp] theorem itemsLen_cons (it : Item) (l : List Item) :
    itemsLen (it :: l) = it.len + itemsLen l := by simp [itemsLen]

@[simp] theorem itemsLen_append (l1 l2 : List Item) :
    itemsLen (l1 ++ l2) = itemsLen l1 + itemsLen l2 := by simp [itemsLen]

@[simp] theorem length_initCells (l : List Item) : (initCells l).length = itemsLen l := by
  simp [initCells, itemsLen, List.length_flatMap]

@[simp] theorem length_runCells (l : List Item) : (runCells l).length = itemsLen l := by
  induction l with
  | nil => rfl
  | cons it l ih => simp [runCells, ih]

theorem runCells_append (l1 l2 : List Item) (h : l2 ≠ []) :
    runCells (l1 ++ l2) = initCells l1 ++ runCells l2 := by
  induction l1 with
  | nil => rfl
  | cons it l1 ih =>
    have hn : (l1 ++ l2).isEmpty = false := by simp [h]
    rw [List.cons_append, runCells, hn, ih]
    simp [initCells]

theorem runCells_split (l1 : List Item) (it : Item) (l2 : List Item) :
    runCells (l1 ++ it :: l2) = initCells l1 ++ it.cells l2.isEmpty ++ runCells l2 := by
  rw [runCells_append l1 _ (by simp), runCells, List.append_assoc]

theorem isRunend_of_mem_initCells {l : List Item} {c : Cell} (h : c ∈ initCells l) :
    c.isRunend = false := by
  simp only [initCells, List.mem_flatMap, Item.cells, List.mem_cons] at h
  obtain ⟨it, _, rfl | h⟩ := h
  · rfl
  · simp [Cell.isRunend, Item.extension_of_mem_tail h]

theorem runCells_shape {l : List Item} (h : l ≠ []) : RunShape (runCells l) := by
  obtain ⟨l1, it, rfl⟩ := (List.eq_nil_or_concat l).resolve_left h
  rw [List.concat_eq_append, runCells_split]
  have hr : runCells [] = [] := rfl
  refine ⟨fun c hc => ?_, initCells l1, it.baseCell true, it.tail, ?_, rfl, ?_, ?_⟩
  · cases l1 with
    | nil =>
      simp [initCells, Item.cells, Item.baseCell] at hc
      rw [← hc]
    | cons a l1 =>
      simp [initCells, Item.cells, Item.baseCell] at hc
      rw [← hc]
  · simp [Item.cells, hr]
  · exact fun d hd => isRunend_of_mem_initCells hd
  · exact fun d hd => Item.extension_of_mem_tail hd

/-- What a filter stores: the items of every bucket, in run order. -/
abbrev Contents := Nat → List Item

namespace Contents

def runs (A : Contents) : Nat → List Cell := fun b => runCells (A b)

def lens (A : Contents) : Nat → Nat := fun b => itemsLen (A b)

theorem lens_runs (A : Contents) : RunLayout.lens A.runs = A.lens := by
  funext b
  simp [RunLayout.lens, runs, lens]

theorem lens_pos {A : Contents} {b : Nat} : 0 < A.lens b ↔ A b ≠ [] := by
  unfold lens
  cases A b with
  | nil => simp
  | cons it l =>
    have := it.len_pos
    simp
    omega

theorem runs_update (A : Contents) (b : Nat) (l : List Item) :
    runs (Function.update A b l) = Function.update A.runs b (runCells l) := by
  funext c
  by_cases h : c = b
  · subst h
    simp [runs]
  · simp [runs, h]

def pos (A : Contents) (b : Nat) (l1 : List Item) : Nat := start A.lens b + itemsLen l1

def extent (A : Contents) (n : Nat) : Nat := ends A.lens n

end Contents

structure Item.Bounded (w : Nat) (it : Item) : Prop where
  rem : it.rem < 2^w
  ext : ∀ v ∈ it.ext, v < 2^w
  cnt : ∀ v ∈ it.cnt, v < 2^w

/-- What `qf_init` sets up for a power of two of slots without value bits. -/
structure Geometry (m : QFMetadata) : Prop where
  nslots : m.nslots = 2^m.quotientBits
  bits : 2 ≤ m.bitsPerSlot
  slotBits : m.bitsPerSlot ≤ 56
  hashBits : m.quotientBits + m.bitsPerSlot < 64
  range : m.range = m.nslots * 2^m.bitsPerSlot
  xnslots : m.nslots ≤ m.xnslots
  word : m.xnslots < 2^64
  nblocks : m.nblocks = (m.xnslots + 63) / 64

def Item.Fits (m : QFMetadata) (it : Item) : Prop :=
  m.quotientBits + m.bitsPerSlot * it.ext.length < 64

/-- The filter is the canonical layout of the contents `A`. -/
structure Layout (qf : QF) (A : Contents) : Prop where
  geometry : Geometry qf.metadata
  holds : Holds Blank A.runs qf.view.cell
  occupied : ∀ b, qf.view.occupied b = decide (A b ≠ [])
  offsets : Offsets qf A.runs
  outside : ∀ b, qf.metadata.nslots ≤ b → A b = []
  fits : A.extent qf.metadata.nslots ≤ qf.xnslots
  bounded : ∀ b, ∀ it ∈ A b, it.Bounded qf.bits
  sorted : ∀ b, (A b).Pairwise fun x y => x.rem ≤ y.rem

structure Laid (qf : QF) (A : Contents) : Prop where
  geometry : Geometry qf.metadata
  holds : Holds Blank A.runs qf.view.cell
  occupied : ∀ b, qf.view.occupied b = decide (A b ≠ [])
  outside : ∀ b, qf.metadata.nslots ≤ b → A b = []
  fits : A.extent qf.metadata.nslots ≤ qf.xnslots

structure WF (qf : QF) (A : Contents) : Prop extends Layout qf A where
  fingerprint : ∀ b, ∀ it ∈ A b, it.Fits qf.metadata

structure ItemAt (qf : QF) (p : Nat) (it : Item) (last : Bool) : Prop where
  base : qf.view.cell p = it.baseCell last
  ext : ∀ i v, it.ext[i]? = some v → qf.view.cell (p+1+i) = Item.extCell v
  cnt : ∀ i v, it.cnt[i]? = some v → qf.view.cell (p+1+it.ext.length+i) = Item.cntCell v
  stop : (qf.view.cell (p+it.len)).extension = false
  fits : p + it.len ≤ qf.xnslots

section
variable {qf : QF} {A : Contents}

theorem Laid.row (h : Laid qf A) : Row qf A.runs where
  holds := h.holds
  occupied b := by
    rw [h.occupied, Contents.lens_runs]
    exact decide_eq_decide.mpr Contents.lens_pos.symm
  shape b hb := by
    rw [Contents.lens_runs] at hb
    exact runCells_shape (Contents.lens_pos.mp hb)
  outside b hb := by
    rw [Contents.lens_runs, Contents.lens, h.outside b hb]
    rfl
  fits := by
    rw [Contents.lens_runs]
    exact h.fits
  blocks := by
    have := h.geometry.nblocks
    unfold QF.xnslots
    omega

theorem Laid.outside_lens (h : Laid qf A) {b : Nat} (hb : qf.metadata.nslots ≤ b) :
    A.lens b = 0 := by
  rw [Contents.lens, h.outside b hb]
  rfl

theorem Laid.end_le_extent (h : Laid qf A) (b : Nat) (hb : A b ≠ []) :
    start A.lens b + A.lens b ≤ A.extent qf.metadata.nslots := by
  have hlt : b < qf.metadata.nslots := by
    by_contra hc
    exact hb (h.outside b (by omega))
  exact start_add_le_ends hlt (Contents.lens_pos.mpr hb)

theorem Laid.pos_add_len_le (h : Laid qf A) {b : Nat} {l1 l2 : List Item} {it : Item}
    (hb : A b = l1 ++ it :: l2) : A.pos b l1 + it.len ≤ A.extent qf.metadata.nslots := by
  have h1 := h.end_le_extent b (by simp [hb])
  have h2 : A.lens b = itemsLen l1 + (it.len + itemsLen l2) := by simp [Contents.lens, hb]
  unfold Contents.pos
  omega

theorem Laid.bucket_lt (h : Laid qf A) {b : Nat} {l1 l2 : List Item} {it : Item}
    (hb : A b = l1 ++ it :: l2) :
    b < qf.metadata.nslots := by
  by_contra hc
  have := h.outside b (by omega)
  rw [hb] at this
  simp at this

theorem Laid.itemAt (h : Laid qf A) {b : Nat} {l1 l2 : List Item} {it : Item}
    (hb : A b = l1 ++ it :: l2) : ItemAt qf (A.pos b l1) it l2.isEmpty := by
  have hrun : A.runs b = initCells l1 ++ it.cells l2.isEmpty ++ runCells l2 := by
    rw [Contents.runs, hb, runCells_split]
  have hlens := Contents.lens_runs A
  -- the `k`-th cell of the item in the row
  have hcell : ∀ k c, (it.cells l2.isEmpty)[k]? = some c → qf.view.cell (A.pos b l1 + k) = c := by
    intro k c hc
    have hk : k < (it.cells l2.isEmpty).length := (List.getElem?_eq_some_iff.mp hc).1
    have hget := h.holds.cell b (itemsLen l1 + k) c (by
      rw [hrun, List.append_assoc, List.getElem?_append_right (by simp)]
      rw [length_initCells, Nat.add_sub_cancel_left, List.getElem?_append_left hk, hc])
    rw [hlens] at hget
    rw [Contents.pos, Nat.add_assoc]
    exact hget
  have hlen : A.lens b = itemsLen l1 + (it.len + itemsLen l2) := by simp [Contents.lens, hb]
  refine ⟨?_, fun i v hv => ?_, fun i v hv => ?_, ?_, ?_⟩
  · exact hcell 0 _ rfl
  · have hi : i < it.ext.length := (List.getElem?_eq_some_iff.mp hv).1
    have := hcell (1+i) (Item.extCell v) (by
      rw [Item.cells, Nat.add_comm 1 i, List.getElem?_cons_succ, Item.tail,
        List.getElem?_append_left (by simpa using hi), List.getElem?_map, hv]
      rfl)
    rw [← Nat.add_assoc] at this
    exact this
  · have := hcell (1+it.ext.length+i) (Item.cntCell v) (by
      have he : 1 + it.ext.length + i = (it.ext.length + i) + 1 := by omega
      rw [Item.cells, he, List.getElem?_cons_succ, Item.tail,
        List.getElem?_append_right (by simp), List.length_map, Nat.add_sub_cancel_left,
        List.getElem?_map, hv]
      rfl)
    have he : A.pos b l1 + (1 + it.ext.length + i) = A.pos b l1 + 1 + it.ext.length + i := by
      omega
    rw [he] at this
    exact this
  · cases l2 with
    | nil =>
      have := h.row.extension_end (b := b) (by rw [hlens]; have := it.len_pos; omega)
      rw [hlens, hlen] at this
      have he : start A.lens b + (itemsLen l1 + (it.len + itemsLen [])) = A.pos b l1 + it.len := by
        simp [Contents.pos, Nat.add_assoc]
      rw [he] at this
      exact this
    | cons it2 l3 =>
      have hget := h.holds.cell b (itemsLen l1 + it.len) (it2.baseCell l3.isEmpty) (by
        rw [hrun, List.getElem?_append_right (by simp), List.length_append, length_initCells,
          Item.length_cells, Nat.sub_self]
        rfl)
      rw [hlens, ← Nat.add_assoc] at hget
      unfold Contents.pos
      rw [hget]
      rfl
  · exact (h.pos_add_len_le hb).trans h.fits

theorem Layout.laid (h : Layout qf A) : Laid qf A :=
  ⟨h.geometry, h.holds, h.occupied, h.outside, h.fits⟩

theorem Layout.row (h : Layout qf A) : Row qf A.runs := h.laid.row

theorem Layout.outside_lens (h : Layout qf A) {b : Nat} (hb : qf.metadata.nslots ≤ b) :
    A.lens b = 0 := h.laid.outside_lens hb

theorem Layout.end_le_extent (h : Layout qf A) (b : Nat) (hb : A b ≠ []) :
    start A.lens b + A.lens b ≤ A.extent qf.metadata.nslots := h.laid.end_le_extent b hb

theorem Layout.pos_add_len_le (h : Layout qf A) {b : Nat} {l1 l2 : List Item} {it : Item}
    (hb : A b = l1 ++ it :: l2) : A.pos b l1 + it.len ≤ A.extent qf.metadata.nslots :=
  h.laid.pos_add_len_le hb

theorem Layout.bucket_lt (h : Layout qf A) {b : Nat} {l1 l2 : List Item} {it : Item}
    (hb : A b = l1 ++ it :: l2) : b < qf.metadata.nslots := h.laid.bucket_lt hb

theorem Layout.itemAt (h : Layout qf A) {b : Nat} {l1 l2 : List Item} {it : Item}
    (hb : A b = l1 ++ it :: l2) : ItemAt qf (A.pos b l1) it l2.isEmpty := h.laid.itemAt hb

theorem Geometry.setCounts (h : Geometry qf.metadata) (a b c : Nat) :
    Geometry (qf.setCounts a b c).metadata :=
  ⟨h.nslots, h.bits, h.slotBits, h.hashBits, h.range, h.xnslots, h.word, h.nblocks⟩

theorem Layout.setCounts (h : Layout qf A) (x y z : Nat) : Layout (qf.setCounts x y z) A :=
  ⟨h.geometry.setCounts x y z, h.holds, h.occupied, h.offsets, h.outside, h.fits, h.bounded,
    h.sorted⟩

theorem Layout.replace (h : Layout qf A) {qf' : QF} {x y z b : Nat} {l : List Item}
    (hf : (qf.setCounts x y z).SameFrame qf') (hb : b < qf.metadata.nslots)
    (hh : Holds Blank (Function.update A.runs b (runCells l)) qf'.view.cell)
    (ho : qf'.view.occupied = Function.update qf.view.occupied b (decide (l ≠ [])))
    (hoff : Offsets qf' (Function.update A.runs b (runCells l)))
    (hfit : Contents.extent (Function.update A b l) qf.metadata.nslots ≤ qf.xnslots)
    (hbd : ∀ it ∈ l, it.Bounded qf.bits) (hs : l.Pairwise fun x y => x.rem ≤ y.rem) :
    Layout qf' (Function.update A b l) := by
  have hm := hf.metadata
  have hg := h.geometry.setCounts x y z
  rw [← hm] at hg
  have hns : qf'.metadata.nslots = qf.metadata.nslots := (congrArg QFMetadata.nslots hm).trans rfl
  have hxn : qf'.xnslots = qf.xnslots := (congrArg QFMetadata.xnslots hm).trans rfl
  have hbits : qf'.bits = qf.bits := (congrArg QFMetadata.bitsPerSlot hm).trans rfl
  rw [← Contents.runs_update] at hh hoff
  refine ⟨hg, hh, fun c => ?_, hoff, fun c hc => ?_, ?_, fun c it hit => ?_, fun c => ?_⟩
  · rw [ho]
    by_cases hcb : c = b
    · subst hcb
      simp
    · rw [Function.update_of_ne hcb, Function.update_of_ne hcb, h.occupied]
  · rw [Function.update_of_ne (by omega)]
    exact h.outside c (by omega)
  · rw [hns, hxn]
    exact hfit
  · rw [hbits]
    by_cases hcb : c = b
    · subst hcb
      rw [Function.update_self] at hit
      exact hbd it hit
    · rw [Function.update_of_ne hcb] at hit
      exact h.bounded c it hit
  · by_cases hcb : c = b
    · subst hcb
      rw [Function.update_self]
      exact hs
    · rw [Function.update_of_ne hcb]
      exact h.sorted c

theorem Contents.lens_update (A : Contents) (b : Nat) (l : List Item) :
    lens (Function.update A b l) = Function.update A.lens b (itemsLen l) := by
  funext c
  by_cases h : c = b
  · subst h
    simp [lens]
  · simp [lens, h]

theorem Contents.start_update (A : Contents) (b : Nat) (l : List Item) :
    start (lens (Function.update A b l)) b = start A.lens b := by
  unfold start
  rw [@ends_congr A.lens]
  intro a ha
  rw [Contents.lens_update, Function.update_of_ne (by omega)]

theorem Contents.pos_update (A : Contents) (b : Nat) (l l1 : List Item) :
    pos (Function.update A b l) b l1 = A.pos b l1 := by
  unfold Contents.pos
  rw [Contents.start_update]

theorem Contents.pos_update_of_lt (A : Contents) {a b : Nat} (hab : a < b) (l l1 : List Item) :
    pos (Function.update A b l) a l1 = A.pos a l1 := by
  unfold Contents.pos start
  rw [@ends_congr A.lens]
  intro c hc
  rw [Contents.lens_update, Function.update_of_ne (by omega)]

theorem Layout.replace_same (h : Layout qf A) {qf' : QF} {b : Nat} {l : List Item}
    (hf : qf.SameFrame qf') (hb : A b ≠ []) (hl : itemsLen l = A.lens b)
    (hh : Holds Blank (Function.update A.runs b (runCells l)) qf'.view.cell)
    (ho : qf'.view.occupied = qf.view.occupied) (hoff : qf'.view.offset = qf.view.offset)
    (hbd : ∀ it ∈ l, it.Bounded qf.bits) (hs : l.Pairwise fun x y => x.rem ≤ y.rem) :
    Layout qf' (Function.update A b l) := by
  have hlt : b < qf.metadata.nslots := by
    by_contra hc
    exact hb (h.outside b (by omega))
  have hne : l ≠ [] := by
    rintro rfl
    have := Contents.lens_pos.mpr hb
    simp only [itemsLen_nil] at hl
    omega
  have hlens : RunLayout.lens (Function.update A.runs b (runCells l)) = RunLayout.lens A.runs :=
    lens_update_same (by rw [length_runCells, hl, ← Contents.lens_runs]; rfl)
  have hfit := h.fits
  apply h.replace (x := qf.metadata.nelts) (y := qf.metadata.ndistinctElts)
    (z := qf.metadata.noccupiedSlots) hf hlt hh _ _ _ hbd hs
  · rw [ho, eq_comm, Function.update_eq_self_iff, h.occupied]
    simp [hb, hne]
  · intro j
    rw [hoff, hlens]
    exact h.offsets j
  · unfold Contents.extent at hfit ⊢
    rw [Contents.lens_update, hl, Function.update_eq_self]
    exact hfit

theorem Contents.lens_grow {b : Nat} {l : List Item} (hl : itemsLen l = A.lens b + 1) :
    lens (Function.update A b l) = grow A.lens b := by
  rw [lens_update, hl]
  funext c
  by_cases hc : c = b
  · subst hc
    simp [grow]
  · simp [grow, hc]

theorem Layout.extent_grow (h : Layout qf A) {b x e : Nat} {l : List Item}
    (hb : b < qf.metadata.nslots) (hl : itemsLen l = A.lens b + 1) (hx1 : start A.lens b ≤ x)
    (hx2 : x ≤ start A.lens b + A.lens b) (he : FirstUnused A.lens x e) (hex : e < qf.xnslots) :
    Contents.extent (Function.update A b l) qf.metadata.nslots ≤ qf.xnslots := by
  have hg := Contents.lens_grow hl
  have hfit := h.fits
  unfold Contents.extent at hfit ⊢
  rw [hg, ends_grow hx1 hx2 he hb]
  have := he.le
  split <;> omega

theorem WF.replace {qf' : QF} {b : Nat} {l : List Item} (h : WF qf A) (hk : qf.Keeps qf')
    (hlay : Layout qf' (Function.update A b l)) (hl : ∀ x ∈ l, x.Fits qf.metadata) :
    WF qf' (Function.update A b l) := by
  refine ⟨hlay, fun c x hx => ?_⟩
  have hw : qf'.metadata.bitsPerSlot = qf.metadata.bitsPerSlot := hk.bits
  have hq : qf'.metadata.quotientBits = qf.metadata.quotientBits := hk.qbits
  rw [Item.Fits, hw, hq]
  by_cases hc : c = b
  · subst hc
    rw [Function.update_self] at hx
    exact hl x hx
  · rw [Function.update_of_ne hc] at hx
    exact h.fingerprint c x hx

end

end AdaptiveQF
