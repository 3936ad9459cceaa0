import AdaptiveQF.Items

/-! The canonical filter of given contents, and the zeroed filter that `qf_init`
leaves behind. -/
namespace AdaptiveQF
open RunLayout

def wordOf (f : Nat → Bool) : BitVec 64 :=
  (BitVec.ofBoolListLE ((List.range 64).map f)).cast (by simp)

theorem getLsbD_wordOf (f : Nat → Bool) {k : Nat} (hk : k < 64) : (wordOf f).getLsbD k = f k := by
  rw [wordOf, BitVec.getLsbD_cast, BitVec.getLsbD_ofBoolListLE]
  simp [List.getD_eq_getElem?_getD, hk]

namespace Contents

def cell (A : Contents) (s : Nat) : Cell :=
  ((List.range (s+1)).findSome? fun b =>
    if start A.lens b ≤ s then (A.runs b)[s - start A.lens b]? else none).getD ⟨0, false, false⟩

variable {A : Contents} {b s k : Nat}

theorem owns_of_getElem? {c : Cell} (hs : start A.lens b ≤ s)
    (h : (A.runs b)[s - start A.lens b]? = some c) : Owns A.lens b s := by
  have hk : s - start A.lens b < (A.runs b).length := (List.getElem?_eq_some_iff.mp h).1
  have hl : (A.runs b).length = A.lens b := congrFun (lens_runs A) b
  exact ⟨hs, by omega⟩

theorem findSome?_eq_of_unique {β γ : Type*} {f : β → Option γ} {l : List β} {a : β} {v : γ}
    (ha : a ∈ l) (hv : f a = some v) (hu : ∀ x ∈ l, x ≠ a → f x = none) :
    l.findSome? f = some v := by
  induction l with
  | nil => simp at ha
  | cons y l ih =>
    rw [List.findSome?_cons]
    by_cases hy : y = a
    · rw [hy, hv]
    · rw [hu y (by simp) hy]
      apply ih
      · rcases List.mem_cons.mp ha with rfl | h
        · exact absurd rfl hy
        · exact h
      · exact fun x hx => hu x (by simp [hx])

theorem cell_eq {c : Cell} (h : (A.runs b)[k]? = some c) : A.cell (start A.lens b + k) = c := by
  have hk : k < (A.runs b).length := (List.getElem?_eq_some_iff.mp h).1
  have hl : (A.runs b).length = A.lens b := congrFun (lens_runs A) b
  have hown : Owns A.lens b (start A.lens b + k) := ⟨by omega, by omega⟩
  have hle := hown.bucket_le
  unfold cell
  rw [findSome?_eq_of_unique (a := b) (v := c)]
  · rfl
  · rw [List.mem_range]
    omega
  · rw [if_pos (by omega), Nat.add_sub_cancel_left, h]
  · intro x _ hx
    split
    · next hs =>
      by_contra hc
      obtain ⟨d, hd⟩ := Option.ne_none_iff_exists'.mp hc
      exact hx ((owns_of_getElem? hs hd).unique hown)
    · rfl

theorem cell_blank (h : ¬ Used A.lens s) : A.cell s = ⟨0, false, false⟩ := by
  have hnone : (List.range (s+1)).findSome? (fun b =>
      if start A.lens b ≤ s then (A.runs b)[s - start A.lens b]? else none) = none := by
    rw [List.findSome?_eq_none_iff]
    intro b _
    split
    · next hs =>
      by_contra hc
      obtain ⟨d, hd⟩ := Option.ne_none_iff_exists'.mp hc
      exact h ⟨b, owns_of_getElem? hs hd⟩
    · rfl
  rw [cell, hnone]
  rfl

end Contents

def QF.ofContents (m : QFMetadata) (A : Contents) : QF where
  metadata := m
  autoResize := false
  locks _ := false
  blocks j := {
    offset := min 255 (spill A.lens (64*j))
    occupieds := wordOf fun k => decide (A (64*j+k) ≠ [])
    runends := wordOf fun k => (A.cell (64*j+k)).runend
    extensions := wordOf fun k => (A.cell (64*j+k)).extension
    slots := fun k => (A.cell (64*j+k)).value }

structure Contents.Fits (A : Contents) (m : QFMetadata) : Prop where
  outside : ∀ b, m.nslots ≤ b → A b = []
  extent : A.extent m.nslots ≤ m.xnslots
  bounded : ∀ b, ∀ it ∈ A b, it.Bounded m.bitsPerSlot
  sorted : ∀ b, (A b).Pairwise fun x y => x.rem ≤ y.rem
  fingerprint : ∀ b, ∀ it ∈ A b, it.Fits m

theorem QF.view_ofContents (m : QFMetadata) (A : Contents) : (QF.ofContents m A).view =
    ⟨A.cell, fun b => decide (A b ≠ []), fun j => min 255 (spill A.lens (64*j))⟩ := by
  have hs : ∀ s, 64*(s/64) + s % 64 = s := by omega
  refine View.ext (funext fun s => ?_) (funext fun s => ?_) rfl
  · simp only [QF.view, slotValue, runendBit, extensionBit, getBlock, QF.ofContents,
      getLsbD_wordOf _ (Nat.mod_lt s (by omega : 64 > 0)), hs]
  · simp only [QF.view, occupiedBit, getBlock, QF.ofContents,
      getLsbD_wordOf _ (Nat.mod_lt s (by omega : 64 > 0)), hs]

theorem Contents.Fits.wf {A : Contents} {m : QFMetadata} (h : A.Fits m) (hg : Geometry m) :
    WF (QF.ofContents m A) A := by
  have hv := QF.view_ofContents m A
  refine ⟨⟨hg, ⟨fun b k c hc => ?_, fun s hs => ?_⟩, fun b => ?_, fun j => ?_, h.outside, h.extent,
    h.bounded, h.sorted⟩, h.fingerprint⟩
  · rw [hv, Contents.lens_runs]
    exact Contents.cell_eq hc
  · rw [Contents.lens_runs] at hs
    rw [hv]
    simp only [Contents.cell_blank hs]
    exact ⟨rfl, rfl⟩
  · rw [hv]
  · rw [hv, Contents.lens_runs]

/-! The zeroed filter. -/

/-- What `qf_init` sets for `2^q` slots of `w` bits without value bits. It computes
`xnslots` as `nslots + 10*sqrt(nslots)`, in floating point. -/
def QFMetadata.init (q w xnslots : Nat) : QFMetadata where
  keyHash := id
  nslots := 2^q
  xnslots := xnslots
  bitsPerSlot := w
  quotientBits := q
  range := 2^q * 2^w
  nblocks := (xnslots + 63) / 64
  nelts := 0
  ndistinctElts := 0
  noccupiedSlots := 0

theorem Geometry.init {q w xnslots : Nat} (hw : 2 ≤ w) (hw2 : w ≤ 56) (hq : q + w < 64)
    (hx : 2^q ≤ xnslots) (hx2 : xnslots < 2^64) : Geometry (QFMetadata.init q w xnslots) :=
  ⟨rfl, hw, hw2, hq, rfl, hx, hx2, rfl⟩

def QFBlock.zero : QFBlock := ⟨0, 0#64, 0#64, 0#64, fun _ => 0⟩

/-- What `qf_init` leaves behind in zeroed memory. -/
structure QF.Zeroed (qf : QF) : Prop where
  geometry : Geometry qf.metadata
  blocks : ∀ j, qf.blocks j = QFBlock.zero
  nelts : qf.metadata.nelts = 0
  ndistinctElts : qf.metadata.ndistinctElts = 0
  noccupiedSlots : qf.metadata.noccupiedSlots = 0
  autoResize : qf.autoResize = false
  locks : ∀ i, qf.locks i = false

def QF.zero (m : QFMetadata) : QF := ⟨m, false, fun _ => false, fun _ => QFBlock.zero⟩

theorem QF.zeroed_init {q w xnslots : Nat} (h : Geometry (QFMetadata.init q w xnslots)) :
    (QF.zero (QFMetadata.init q w xnslots)).Zeroed :=
  ⟨h, fun _ => rfl, rfl, rfl, rfl, rfl, fun _ => rfl⟩

def farMetadata : QFMetadata := QFMetadata.init 32 8 (2^32 + 655360)

theorem farMetadata_geometry : Geometry farMetadata :=
  Geometry.init (by decide) (by decide) (by decide) (by decide) (by decide)

def Contents.empty : Contents := fun _ => []

@[simp] theorem Contents.empty_apply (b : Nat) : Contents.empty b = [] := rfl

theorem Contents.lens_empty : Contents.empty.lens = fun _ => 0 := rfl

theorem ends_zero (b : Nat) : ends (fun _ => 0) b = 0 := by
  induction b with
  | zero => rfl
  | succ b ih => rw [ends_succ_of_zero rfl, ih]

theorem QF.Zeroed.wf {qf : QF} (h : qf.Zeroed) : WF qf Contents.empty := by
  have hb : ∀ s, getBlock qf s = QFBlock.zero := h.blocks
  have hcell : ∀ s, qf.view.cell s = ⟨0, false, false⟩ := by
    intro s
    simp [QF.view, slotValue, runendBit, extensionBit, hb, QFBlock.zero]
  refine ⟨⟨h.geometry, ⟨fun b k c hc => by simp [Contents.runs, runCells] at hc, fun s _ => ?_⟩,
    fun b => ?_, fun j => ?_, fun _ _ => rfl, ?_, by simp, by simp⟩, by simp⟩
  · rw [hcell]
    exact ⟨rfl, rfl⟩
  · simp [QF.view, occupiedBit, hb, QFBlock.zero]
  · rw [Contents.lens_runs, Contents.lens_empty]
    simp [QF.view, blockOffsetField, hb, QFBlock.zero, spill, ends_zero]
  · rw [Contents.extent, Contents.lens_empty, ends_zero]
    exact Nat.zero_le _

/-! One item. -/

theorem ends_single {b k : Nat} (hk : 0 < k) (n : Nat) :
    ends (Function.update (fun _ => 0) b k) n = if n ≤ b then 0 else b + k := by
  induction n with
  | zero => rfl
  | succ n ih =>
    rcases Nat.lt_trichotomy n b with hlt | rfl | hgt
    · rw [ends_succ_of_zero (by rw [Function.update_of_ne (by omega)]), ih, if_pos (by omega),
        if_pos (by omega)]
    · rw [ends_succ_of_pos (by rw [Function.update_self]; exact hk), start, ih,
        if_pos (Nat.le_refl _), if_neg (by omega), Function.update_self]
      omega
    · rw [ends_succ_of_zero (by rw [Function.update_of_ne (by omega)]), ih, if_neg (by omega),
        if_neg (by omega)]

theorem Contents.one_fits {m : QFMetadata} {b : Nat} {l : List Item} (hb : b < m.nslots)
    (hl : 0 < itemsLen l) (hx : b + itemsLen l ≤ m.xnslots)
    (hbd : ∀ it ∈ l, it.Bounded m.bitsPerSlot) (hs : l.Pairwise fun x y => x.rem ≤ y.rem)
    (hf : ∀ it ∈ l, it.Fits m) : Contents.Fits (Function.update Contents.empty b l) m := by
  have hmem : ∀ {c it}, it ∈ Function.update Contents.empty b l c → it ∈ l := by
    intro c it hit
    by_cases hc : c = b
    · rwa [hc, Function.update_self] at hit
    · rw [Function.update_of_ne hc] at hit
      exact absurd hit List.not_mem_nil
  refine ⟨fun c hc => ?_, ?_, fun c it hit => hbd it (hmem hit), fun c => ?_,
    fun c it hit => hf it (hmem hit)⟩
  · rw [Function.update_of_ne (by omega)]
    rfl
  · rw [Contents.extent, Contents.lens_update, Contents.lens_empty, ends_single hl,
      if_neg (by omega)]
    exact hx
  · by_cases hc : c = b
    · rwa [hc, Function.update_self]
    · rw [Function.update_of_ne hc]
      exact .nil

def Contents.single (b : Nat) (it : Item) : Contents := Function.update Contents.empty b [it]

theorem Contents.single_self (b : Nat) (it : Item) : single b it b = [it] := Function.update_self ..

theorem Contents.lens_single (b : Nat) (it : Item) :
    (single b it).lens = Function.update (fun _ => 0) b it.len := by
  rw [single, Contents.lens_update, Contents.lens_empty]
  rfl

theorem Contents.single_pos (b : Nat) (it : Item) : (single b it).pos b [] = b := by
  rw [pos, lens_single, start, ends_single it.len_pos, if_pos (Nat.le_refl b)]
  exact Nat.max_zero b

theorem Contents.mem_single {b c : Nat} {it x : Item} (h : x ∈ single b it c) : c = b ∧ x = it := by
  by_cases hc : c = b
  · subst hc
    exact ⟨rfl, by simpa [single] using h⟩
  · simp [single, hc] at h

theorem Contents.single_fits {m : QFMetadata} {b : Nat} {it : Item} (hb : b < m.nslots)
    (hx : b + it.len ≤ m.xnslots) (hbd : it.Bounded m.bitsPerSlot) (hf : it.Fits m) :
    (single b it).Fits m :=
  one_fits hb it.len_pos hx (by simpa using hbd) (List.pairwise_singleton _ _) (by simpa using hf)

/-! Items of bucket 0 with the remainders from `first` on, one slot each. -/

def crowd (first n : Nat) : List Item := (List.range' first n).map fun rem => ⟨rem, [], []⟩

def crowdContents (first n : Nat) : Contents := Function.update Contents.empty 0 (crowd first n)

theorem itemsLen_crowd (first n : Nat) : itemsLen (crowd first n) = n := by
  induction n generalizing first with
  | zero => rfl
  | succ n ih =>
    have hcons : crowd first (n+1) = ⟨first, [], []⟩ :: crowd (first+1) n := rfl
    rw [hcons, itemsLen_cons, ih, Item.len]
    simp only [List.length_nil]
    omega

theorem lens_crowdContents (first n : Nat) :
    (crowdContents first n).lens = Function.update (fun _ => 0) 0 n := by
  rw [crowdContents, Contents.lens_update, Contents.lens_empty, itemsLen_crowd]

theorem spill_crowdContents {first n : Nat} (hn : 0 < n) {p : Nat} (hp : 0 < p) :
    spill (crowdContents first n).lens p = n - p := by
  rw [lens_crowdContents, spill, ends_single hn, if_neg (by omega)]
  omega

theorem crowdContents_split (first n : Nat) :
    crowdContents first (n+1) 0 = [] ++ ⟨first, [], []⟩ :: crowd (first+1) n := by
  rw [crowdContents, Function.update_self]
  rfl

theorem crowdContents_remove (first n : Nat) :
    Function.update (crowdContents first (n+1)) 0 ([] ++ crowd (first+1) n) =
      crowdContents (first+1) n := by
  rw [crowdContents, Function.update_idem]
  rfl

/-- As many of them in a bucket as there are remainders. -/
theorem crowd_fits {m : QFMetadata} {b n : Nat} (hb : b < m.nslots) (hn : 0 < n)
    (hw : n ≤ 2^m.bitsPerSlot) (hx : b + n ≤ m.xnslots) (hq : m.quotientBits < 64) :
    Contents.Fits (Function.update Contents.empty b (crowd 0 n)) m := by
  have hmem : ∀ it ∈ crowd 0 n, ∃ rem, rem < n ∧ it = ⟨rem, [], []⟩ := by
    intro it hit
    obtain ⟨rem, hrem, rfl⟩ := List.mem_map.mp hit
    exact ⟨rem, by simpa using (List.mem_range'_1.mp hrem).2, rfl⟩
  refine Contents.one_fits hb (by rw [itemsLen_crowd]; exact hn)
    (by rw [itemsLen_crowd]; exact hx) (fun it hit => ?_) ?_ fun it hit => ?_
  · obtain ⟨rem, hlt, rfl⟩ := hmem it hit
    exact ⟨show rem < 2^m.bitsPerSlot by omega, by simp, by simp⟩
  · rw [crowd, List.pairwise_map]
    exact List.pairwise_le_range'
  · obtain ⟨rem, -, rfl⟩ := hmem it hit
    exact (show m.quotientBits + m.bitsPerSlot * 0 < 64 by omega)

theorem crowdContents_fits {m : QFMetadata} {n : Nat} (hm : 0 < m.nslots) (hn : 0 < n)
    (hw : n ≤ 2^m.bitsPerSlot) (hx : n ≤ m.xnslots) (hq : m.quotientBits < 64) :
    (crowdContents 0 n).Fits m :=
  crowd_fits hm hn hw (by omega) hq

end AdaptiveQF
