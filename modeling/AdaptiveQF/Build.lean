import AdaptiveQF.Canonical
import AdaptiveQF.Insert
import AdaptiveQF.Iterator

/-! Items that `_merge_insert` writes one behind the other, and the layout they make. -/
namespace AdaptiveQF
open RunLayout Digits

structure Wrote (qf : QF) (x : Nat) (d : List Cell) (qf' : QF) : Prop where
  frame : qf.SameFrame qf'
  cell : qf'.view.cell = writeAt qf.view.cell x d
  occupied : qf'.view.occupied = qf.view.occupied
  offset : qf'.view.offset = qf.view.offset

section
variable {qf q1 q2 qf' : QF} {x : Nat} {d1 d2 d : List Cell}

theorem Wrote.refl (qf : QF) (x : Nat) : Wrote qf x [] qf :=
  ⟨.refl qf, (writeAt_nil _ x).symm, rfl, rfl⟩

theorem Wrote.append (h1 : Wrote qf x d1 q1) (h2 : Wrote q1 (x + d1.length) d2 q2) :
    Wrote qf x (d1 ++ d2) q2 where
  frame := h1.frame.trans h2.frame
  cell := by rw [h2.cell, h1.cell, writeAt_append]
  occupied := h2.occupied.trans h1.occupied
  offset := h2.offset.trans h1.offset

theorem Wrote.of_le (h : Wrote qf x d q1) {s : Nat} (hs : x + d.length ≤ s) :
    q1.view.cell s = qf.view.cell s := by
  rw [h.cell, writeAt_of_le _ hs]

theorem Wrote.bits (h : Wrote qf x d q1) : q1.bits = qf.bits := (QF.Keeps.of_sameFrame h.frame).bits

theorem Wrote.xnslots (h : Wrote qf x d q1) : q1.xnslots = qf.xnslots :=
  (QF.Keeps.of_sameFrame h.frame).xnslots

def BlankFrom (qf : QF) (x n : Nat) : Prop := ∀ s, x ≤ s → s < x + n → Blank (qf.view.cell s)

theorem BlankFrom.tail {n : Nat} (h : BlankFrom qf x (n+1)) (h1 : Wrote qf x [c] q1) :
    BlankFrom q1 (x+1) n := by
  intro s hs1 hs2
  rw [h1.of_le hs1]
  exact h s (by omega) (by omega)

theorem setSlot_wrote {last : Bool} (hc : (qf.view.cell x).runend = last)
    (he : (qf.view.cell x).extension = false) (hx : x < qf.xnslots) (rem : Nat) :
    ∃ q1, setSlot qf x rem = some q1 ∧ Wrote qf x [⟨rem, last, false⟩] q1 := by
  refine ⟨putSlot qf x rem, if_pos hx, ⟨rfl, rfl, rfl⟩, ?_, ?_, ?_⟩
  · rw [view_putSlot, writeAt_singleton, View.setValue, ← hc, ← he]
  · rw [view_putSlot]
    rfl
  · rw [view_putSlot]
    rfl

theorem putExtensions_wrote (hw : qf.bits < 64) (n ext : Nat) (hb : BlankFrom qf x n)
    (hx : x + n ≤ qf.xnslots) : ∃ q1, putExtensions n qf x ext = some (q1, x+n) ∧
      Wrote qf x ((low qf.bits n ext).map Item.extCell) q1 := by
  induction n generalizing qf x ext with
  | zero => exact ⟨qf, rfl, .refl qf x⟩
  | succ n ih =>
    have hcell := hb x (Nat.le_refl x) (by omega)
    have h1 : Wrote qf x [Item.extCell (ext % 2^qf.bits)]
        (orExtension (putSlot qf x (ext % 2^qf.bits)) x) := by
      refine ⟨⟨rfl, rfl, rfl⟩, ?_, ?_, ?_⟩
      · rw [view_orExtension, view_putSlot, writeAt_singleton]
        simp [View.setExtension, View.setValue, Item.extCell, hcell.1]
      · rw [view_orExtension, view_putSlot]
        rfl
      · rw [view_orExtension, view_putSlot]
        rfl
    obtain ⟨q1, hput, h2⟩ := ih (by rw [h1.bits]; exact hw) (ext / 2^qf.bits) (hb.tail h1)
      (by rw [h1.xnslots]; omega)
    refine ⟨q1, ?_, ?_⟩
    · have hbits : (putSlot qf x (ext % 2^qf.bits)).bits = qf.bits := rfl
      rw [putExtensions, and_bitmask _ (by omega), setSlot, if_pos (by omega)]
      simp only [Option.bind_eq_bind, Option.bind_some]
      rw [hbits, shr64_eq _ hw, hput, Nat.add_assoc, Nat.add_comm 1]
    · rw [low_cons, List.map_cons]
      rw [h1.bits] at h2
      exact h1.append h2

theorem putCounts_wrote (hw : 0 < qf.bits) (hw' : qf.bits < 64) {fuel count : Nat}
    (hf : count < 2^fuel) (hx : x + (Nat.digits (2^qf.bits) count).length ≤ qf.xnslots) :
    ∃ q1, putCounts (fuel+1) qf x count = some (q1, x + (Nat.digits (2^qf.bits) count).length) ∧
      Wrote qf x ((Nat.digits (2^qf.bits) count).map Item.cntCell) q1 := by
  induction fuel generalizing qf x count with
  | zero =>
    obtain rfl : count = 0 := by omega
    rw [putCounts, if_neg (by omega), Nat.digits_zero]
    exact ⟨qf, rfl, .refl qf x⟩
  | succ fuel ih =>
    rw [putCounts]
    rcases Nat.eq_zero_or_pos count with rfl | hpos
    · rw [if_neg (by omega), Nat.digits_zero]
      exact ⟨qf, rfl, .refl qf x⟩
    · have hbase : 1 < 2^qf.bits := Nat.one_lt_two_pow (by omega)
      have hrest : count / 2^qf.bits < 2^fuel := by
        refine Nat.div_lt_of_lt_mul (hf.trans_le ?_)
        rw [pow_succ']
        exact Nat.mul_le_mul_right _ hbase
      rw [Nat.digits_def' hbase hpos, List.length_cons] at hx ⊢
      have h1 : Wrote qf x [Item.cntCell (count % 2^qf.bits)]
          (orRunend (orExtension (putSlot qf x (count % 2^qf.bits)) x) x) := by
        refine ⟨⟨rfl, rfl, rfl⟩, ?_, ?_, ?_⟩
        · rw [view_orRunend, view_orExtension, view_putSlot, writeAt_singleton]
          simp [View.setRunend, View.setExtension, View.setValue, Item.cntCell]
        · rw [view_orRunend, view_orExtension, view_putSlot]
          rfl
        · rw [view_orRunend, view_orExtension, view_putSlot]
          rfl
      have hb1 := h1.bits
      obtain ⟨q1, hput, h2⟩ := ih (x := x+1) (by rw [hb1]; exact hw) (by rw [hb1]; exact hw') hrest
        (by rw [hb1, h1.xnslots]; omega)
      rw [hb1] at hput h2
      refine ⟨q1, ?_, ?_⟩
      · have hbits : (putSlot qf x (count % 2^qf.bits)).bits = qf.bits := rfl
        rw [if_pos hpos, and_bitmask _ (by omega), setSlot, if_pos (by omega)]
        simp only [Option.bind_eq_bind, Option.bind_some]
        rw [hbits, shr64_eq _ hw', hput, Nat.add_assoc, Nat.add_comm 1]
      · rw [List.map_cons]
        exact h1.append h2

/-! The block offsets. -/

/-- The offsets behind block `j` count the slots in front of `i`. -/
def View.CountsTo (w : View) (j i : Nat) : Prop := ∀ k, j < k → w.offset k = min 64 (i - 64*k)

def View.countTo (w : View) (j i : Nat) : View :=
  { w with offset := fun k => if j < k then min 64 (i - 64*k) else w.offset k }

theorem View.CountsTo.countTo {w : View} {j i : Nat} (h : w.CountsTo j i) : w.countTo j i = w := by
  refine View.ext rfl rfl (funext fun k => ?_)
  unfold View.countTo
  by_cases hk : j < k
  · simp only [if_pos hk, h k hk]
  · simp only [if_neg hk]

theorem View.countTo_setOffset (w : View) {j k : Nat} (h : j < k) (v i : Nat) :
    (w.setOffset k v).countTo j i = w.countTo j i := by
  refine View.ext rfl rfl (funext fun k' => ?_)
  unfold View.countTo View.setOffset
  by_cases hk : j < k'
  · simp only [if_pos hk]
  · simp only [if_neg hk]
    rw [Function.update_of_ne (by omega)]

theorem bumpOtherBlocks_eq {j n i : Nat} (hi : 64*j ≤ i) (ho : qf.view.CountsTo j i) :
    qf.SameFrame (bumpOtherBlocks j n i qf) ∧
      (bumpOtherBlocks j n i qf).view = qf.view.countTo j (i+n) := by
  induction n generalizing i qf with
  | zero => exact ⟨.refl qf, ho.countTo.symm⟩
  | succ n ih =>
    have hadd : i + (n+1) = i + 1 + n := by omega
    rw [bumpOtherBlocks, hadd]
    by_cases hj : i/64 = j
    · rw [if_neg (not_not.mpr hj)]
      refine ih (by omega) fun k hk => ?_
      rw [ho k hk]
      omega
    · rw [if_pos hj]
      have hview : (bumpOffset qf (i/64)).view =
          qf.view.setOffset (i/64) (min 64 (i + 1 - 64*(i/64))) := by
        have hfield : blockOffsetField qf (i/64) = min 64 (i - 64*(i/64)) := ho _ (by omega)
        rw [bumpOffset, view_setOffset, hfield]
        congr 1
        omega
      have ho1 : (bumpOffset qf (i/64)).view.CountsTo j (i+1) := by
        intro k hk
        rw [hview]
        by_cases hki : k = i/64
        · rw [hki]
          exact Function.update_self ..
        · have hrest : (qf.view.setOffset (i/64) (min 64 (i + 1 - 64*(i/64)))).offset k =
              qf.view.offset k := Function.update_of_ne hki ..
          rw [hrest, ho k hk]
          omega
      obtain ⟨hf, hv⟩ := ih (by omega) ho1
      have hf1 : qf.SameFrame (bumpOffset qf (i/64)) := ⟨rfl, rfl, rfl⟩
      refine ⟨hf1.trans hf, ?_⟩
      rw [hv, hview, View.countTo_setOffset _ (by omega)]

theorem mergeOffsets_eq {index current run : Nat} (hi : run ≤ index) (hle : index < current)
    (hx : current < 2^31) (ho : qf.view.CountsTo (run/64) index) :
    ∃ q1, mergeOffsets index current run qf = some q1 ∧ qf.SameFrame q1 ∧
      q1.view = qf.view.countTo (run/64) current := by
  have hint := toInt_of_lt (c := index) (by omega)
  unfold mergeOffsets
  by_cases hblock : (current-1)/64 = run/64
  · rw [if_pos (.inl hblock)]
    refine ⟨qf, rfl, .refl qf, (View.CountsTo.countTo fun k hk => ?_).symm⟩
    rw [ho k hk]
    omega
  · rw [if_neg (by omega), if_neg (by unfold intMax; omega), hint, Int.toNat_natCast]
    obtain ⟨hf, hv⟩ := bumpOtherBlocks_eq (n := current - index) (i := index) (by omega) ho
    refine ⟨_, rfl, hf, ?_⟩
    rw [hv, Nat.add_sub_cancel' hle.le]

/-! One item. -/

def builtItem (w rem ext extLen count : Nat) : Item := ⟨rem, low w extLen ext, counterOf w count⟩

theorem counterOf_eq_digits (w count : Nat) :
    counterOf w count = Nat.digits (2^w) (if count > 1 then count else 0) := by
  by_cases hone : count = 1
  · rw [counterOf, if_pos hone, if_neg (by omega), Nat.digits_zero]
  · rw [counterOf, if_neg hone]
    split
    · rfl
    · obtain rfl : count = 0 := by omega
      rfl

structure Vacant (qf : QF) (x n : Nat) (last : Bool) : Prop where
  runend : (qf.view.cell x).runend = last
  extension : (qf.view.cell x).extension = false
  behind : BlankFrom qf (x+1) n
  fits : x + 1 + n ≤ qf.xnslots

theorem mergeInsert_cells (hw : 0 < qf.bits) (hw' : qf.bits < 64)
    {index run rem ext extLen count : Nat} {last : Bool} (hcount : count < 2^64) {it : Item}
    (hit : it = builtItem qf.bits rem ext extLen count) (hv : Vacant qf index (it.len - 1) last) :
    ∃ q1, Wrote qf index (it.cells last) q1 ∧ mergeInsert qf index run rem ext extLen count =
      (mergeOffsets index (index + it.len) run q1).map fun q2 => (q2, index + it.len) := by
  have hfits := hv.fits
  have hlen : it.len = 1 + extLen + (counterOf qf.bits count).length := by
    rw [hit, Item.len, builtItem, length_low]
  obtain ⟨q1, hset, h1⟩ := setSlot_wrote hv.runend hv.extension (by omega) rem
  have hblank : BlankFrom q1 (index+1) extLen := by
    intro s hs1 hs2
    rw [h1.of_le hs1]
    exact hv.behind s hs1 (by omega)
  obtain ⟨q2, hext, h2⟩ := putExtensions_wrote (by rw [h1.bits]; exact hw') extLen ext hblank
    (by rw [h1.xnslots]; omega)
  have h12 := h1.append h2
  have hstored : (if count > 1 then count else 0) < 2^64 := by split <;> omega
  obtain ⟨q3, hcnt, h3⟩ := @putCounts_wrote q2 (index+1+extLen) (by rw [h12.bits]; exact hw)
    (by rw [h12.bits]; exact hw') 64 _ hstored
    (by rw [h12.bits, h12.xnslots, ← counterOf_eq_digits]; omega)
  rw [h12.bits, ← counterOf_eq_digits] at hcnt h3
  have hback : index + 1 + extLen + (counterOf qf.bits count).length = index + it.len := by omega
  have hend : index + (([⟨rem, last, false⟩] : List Cell) ++
      (low q1.bits extLen ext).map Item.extCell).length = index + 1 + extLen := by
    rw [List.length_append, List.length_map, length_low, List.length_singleton, Nat.add_assoc]
  have h123 := h12.append (by rw [hend]; exact h3)
  have hcells : (([⟨rem, last, false⟩] : List Cell) ++ (low q1.bits extLen ext).map Item.extCell) ++
      (counterOf qf.bits count).map Item.cntCell = it.cells last := by
    rw [h1.bits, hit, Item.cells, Item.tail, Item.baseCell, builtItem, List.append_assoc]
    rfl
  rw [hcells] at h123
  refine ⟨q3, h123, ?_⟩
  unfold mergeInsert
  simp only [hset, hext, hcnt, Option.bind_eq_bind, Option.bind_some, hback]
  cases mergeOffsets index (index + it.len) run q3 <;> rfl

/-! The layout while it is written. -/

theorem runCells_concat (l : List Item) (it : Item) :
    runCells (l ++ [it]) = initCells l ++ it.cells true := by
  rw [runCells_split]
  exact List.append_nil _

theorem initCells_concat (l : List Item) (it : Item) :
    initCells (l ++ [it]) = initCells l ++ it.cells false := by
  simp [initCells]

/-- Contents that are part of others which fit end in the array. -/
theorem Contents.end_le {A C : Contents} {n x : Nat} (hout : ∀ b, n ≤ b → C b = [])
    (hext : C.extent n ≤ x) (hle : ∀ b, A.lens b ≤ C.lens b) {b : Nat} (hb : A b ≠ []) :
    A.pos b (A b) ≤ x := by
  have hpos := (Contents.lens_pos.mpr hb).trans_le (hle b)
  have hlt : b < n := by
    by_contra hc
    exact Contents.lens_pos.mp hpos (hout b (by omega))
  have hstart := start_le_of_le hle b
  have hend := start_add_le_ends hlt hpos
  have hlens := hle b
  unfold Contents.extent at hext
  show start A.lens b + A.lens b ≤ x
  omega


/-- The contents are there. Bucket `b` is the last one with items, and `cells` are the cells of its
run, the last item of which may not be marked yet. -/
structure Written (qf : QF) (A : Contents) (b : Nat) (cells : List Cell) : Prop where
  geometry : Geometry qf.metadata
  holds : Holds Blank (Function.update A.runs b cells) qf.view.cell
  length : cells.length = A.lens b
  last : ∀ c, b < c → A c = []

structure Building (qf : QF) (A : Contents) (b : Nat) (cells : List Cell) : Prop where
  geometry : Geometry qf.metadata
  holds : Holds Blank (Function.update A.runs b cells) qf.view.cell
  length : cells.length = A.lens b
  last : ∀ c, b < c → A c = []
  offset : ∀ j, qf.view.offset j = min 64 (spill A.lens (64*j))

structure Readied (qf : QF) (x : Nat) (last : Bool) (q0 : QF) : Prop where
  frame : qf.SameFrame q0
  cell : ∀ s, s ≠ x → q0.view.cell s = qf.view.cell s
  runend : (q0.view.cell x).runend = last
  extension : (q0.view.cell x).extension = (qf.view.cell x).extension
  offset : q0.view.offset = qf.view.offset

theorem Readied.refl (h : Blank (qf.view.cell x)) : Readied qf x false qf :=
  ⟨.refl qf, fun _ _ => rfl, h.1, rfl, rfl⟩

theorem Readied.orRunend (qf : QF) (x : Nat) : Readied qf x true (AdaptiveQF.orRunend qf x) := by
  refine ⟨⟨rfl, rfl, rfl⟩, fun s hs => ?_, ?_, ?_, ?_⟩
  · rw [view_orRunend]
    exact Function.update_of_ne hs ..
  · rw [view_orRunend]
    simp [View.setRunend]
  · rw [view_orRunend]
    simp [View.setRunend]
  · rw [view_orRunend]
    rfl

theorem Readied.orOccupied {last : Bool} {q0 : QF} (h : Readied qf x last q0) (i : Nat) :
    Readied qf x last (AdaptiveQF.orOccupied q0 i) := by
  have hv := view_orOccupied q0 i
  exact ⟨h.frame.trans ⟨rfl, rfl, rfl⟩, fun s hs => by rw [hv]; exact h.cell s hs,
    by rw [hv]; exact h.runend, by rw [hv]; exact h.extension, by rw [hv]; exact h.offset⟩

theorem Readied.write {last : Bool} {q0 : QF} (h : Readied qf x last q0) (c : Cell)
    (d : List Cell) : writeAt q0.view.cell x (c :: d) = writeAt qf.view.cell x (c :: d) := by
  funext s
  by_cases hs : s = x
  · rw [hs]
    exact (writeAt_get _ _ (k := 0) rfl).trans (writeAt_get _ _ (k := 0) rfl).symm
  · unfold writeAt
    rw [h.cell s hs]

namespace Written

variable {A : Contents} {b : Nat} {cells : List Cell} (h : Written qf A b cells)
include h

theorem congr (hm : qf'.metadata = qf.metadata) (hc : qf'.view.cell = qf.view.cell) :
    Written qf' A b cells :=
  ⟨hm ▸ h.geometry, hc ▸ h.holds, h.length, h.last⟩

theorem lens : RunLayout.lens (Function.update A.runs b cells) = A.lens := by
  rw [← Contents.lens_runs]
  apply lens_update_same
  rw [h.length, ← Contents.lens_runs]
  rfl

theorem lens_last (c : Nat) (hc : b < c) : A.lens c = 0 := by
  rw [Contents.lens, h.last c hc]
  rfl

theorem blank {s : Nat} (hs : A.pos b (A b) ≤ s) : Blank (qf.view.cell s) := by
  apply h.holds.blank
  rw [h.lens]
  intro hu
  have hlt := lt_of_used_of_last h.lens_last hu
  exact absurd hlt (not_lt.mpr hs)

/-- One more item in the run. The block offsets follow. -/
theorem put {rem ext extLen count : Nat} {last : Bool} {q0 : QF} {it : Item}
    (hq : Readied qf (A.pos b (A b)) last q0) (hcount : count < 2^64)
    (hit : it = builtItem qf.bits rem ext extLen count)
    (hfit : A.pos b (A b ++ [it]) ≤ qf.xnslots) :
    ∃ q1, mergeInsert q0 (A.pos b (A b)) b rem ext extLen count =
        (mergeOffsets (A.pos b (A b)) (A.pos b (A b ++ [it])) b q1).map
          (fun q2 => (q2, A.pos b (A b ++ [it]))) ∧
      q0.SameFrame q1 ∧ q1.view.occupied = q0.view.occupied ∧ q1.view.offset = q0.view.offset ∧
      Written q1 (Function.update A b (A b ++ [it])) b (cells ++ it.cells last) := by
  have hgeo := h.geometry
  have hkeep := QF.Keeps.of_sameFrame hq.frame
  have hbits2 : 2 ≤ qf.bits := hgeo.bits
  have hbits56 : qf.bits ≤ 56 := hgeo.slotBits
  have hlen := it.len_pos
  have hpos : A.pos b (A b ++ [it]) = A.pos b (A b) + it.len := A.pos_append b (A b) it
  have hv : Vacant q0 (A.pos b (A b)) (it.len - 1) last := by
    refine ⟨hq.runend, ?_, fun s hs1 hs2 => ?_, ?_⟩
    · rw [hq.extension, (h.blank (Nat.le_refl _)).2]
    · rw [hq.cell s (by omega)]
      exact h.blank (by omega)
    · rw [hkeep.xnslots]
      omega
  have hit' : it = builtItem q0.bits rem ext extLen count := by rw [hkeep.bits, hit]
  obtain ⟨q1, hw, hput⟩ := @mergeInsert_cells q0 (by rw [hkeep.bits]; omega)
    (by rw [hkeep.bits]; omega) (A.pos b (A b)) b rem ext extLen count last hcount it hit' hv
  rw [← hpos] at hput
  refine ⟨q1, hput, hw.frame, hw.occupied, hw.offset, ?_, ?_, ?_, ?_⟩
  · rw [(hq.frame.trans hw.frame).metadata]
    exact hgeo
  · have hcell : q1.view.cell = writeAt qf.view.cell (A.pos b (A b)) (it.cells last) := by
      rw [hw.cell]
      exact hq.write ..
    have happ := h.holds.append (t := b) (fun c hc => by
      rw [Function.update_of_ne (by omega), Contents.runs, h.last c hc]
      rfl) (it.cells last)
    rw [h.lens, Function.update_idem, Function.update_self] at happ
    rw [hcell, Contents.runs_update, Function.update_idem]
    exact happ
  · rw [List.length_append, h.length, Item.length_cells, Contents.lens, Contents.lens,
      Function.update_self]
    simp
  · intro c hc
    rw [Function.update_of_ne (by omega)]
    exact h.last c hc

theorem next (hc : cells = runCells (A b)) {n : Nat} (hn : b < n) : Written qf A n [] := by
  have hempty := h.last n hn
  have hruns : Function.update A.runs n [] = Function.update A.runs b cells := by
    have hself : Function.update A.runs b cells = A.runs := by
      rw [Function.update_eq_self_iff, hc]
      rfl
    rw [hself, Function.update_eq_self_iff, Contents.runs, hempty]
    rfl
  refine ⟨h.geometry, ?_, ?_, fun c hc => h.last c (by omega)⟩
  · rw [hruns]
    exact h.holds
  · rw [h.lens_last n hn]
    rfl

theorem pos_next {n : Nat} (hn : b < n) : A.pos n (A n) = max n (A.pos b (A b)) := by
  rw [h.last n hn]
  exact start_of_last h.lens_last hn

end Written

namespace Building

variable {A : Contents} {b : Nat} {cells : List Cell} (h : Building qf A b cells)
include h

theorem written : Written qf A b cells := ⟨h.geometry, h.holds, h.length, h.last⟩

theorem countsTo : qf.view.CountsTo (b/64) (A.pos b (A b)) := by
  intro k hk
  rw [h.offset, spill_of_last h.written.lens_last (by omega)]
  rfl

theorem put {rem ext extLen count : Nat} {last : Bool} {q0 : QF} {it : Item}
    (hx : qf.xnslots < 2^31) (hq : Readied qf (A.pos b (A b)) last q0) (hcount : count < 2^64)
    (hit : it = builtItem qf.bits rem ext extLen count)
    (hfit : A.pos b (A b ++ [it]) ≤ qf.xnslots) :
    ∃ q1, mergeInsert q0 (A.pos b (A b)) b rem ext extLen count =
        some (q1, A.pos b (A b ++ [it])) ∧
      qf.SameFrame q1 ∧ q1.view.occupied = q0.view.occupied ∧
      Building q1 (Function.update A b (A b ++ [it])) b (cells ++ it.cells last) := by
  have hpos : A.pos b (A b ++ [it]) = A.pos b (A b) + it.len := A.pos_append b (A b) it
  have hle : b ≤ A.pos b (A b) := (le_start b).trans (Nat.le_add_right _ _)
  have hlen := it.len_pos
  obtain ⟨q1, hput, hf, hocc, hoff, hw⟩ := h.written.put hq hcount hit hfit
  have hcounts : q1.view.CountsTo (b/64) (A.pos b (A b)) := by
    intro k hk
    rw [hoff, hq.offset]
    exact h.countsTo k hk
  have hlt : A.pos b (A b) < A.pos b (A b ++ [it]) := by omega
  obtain ⟨q2, hmerge, hf2, hview⟩ := mergeOffsets_eq hle hlt (by omega) hcounts
  have hw2 := hw.congr hf2.metadata (by rw [hview]; rfl)
  refine ⟨q2, by rw [hput, hmerge]; rfl, (hq.frame.trans hf).trans hf2, ?_, hw2.geometry, hw2.holds,
    hw2.length, hw2.last, fun j => ?_⟩
  · rw [hview, ← hocc]
    rfl
  · have hj : q2.view.offset j = if b/64 < j then min 64 (A.pos b (A b) + it.len - 64*j)
        else qf.view.offset j := by
      rw [hview, ← hq.offset, ← hoff, ← hpos]
      rfl
    have hsame : ∀ c, c ≠ b → (Contents.lens (Function.update A b (A b ++ [it]))) c = A.lens c := by
      intro c hc
      rw [Contents.lens_update, Function.update_of_ne hc]
    rw [hj]
    by_cases hb : b/64 < j
    · have hspill := @spill_of_last (Contents.lens (Function.update A b (A b ++ [it]))) b (64*j)
        (fun c hc => by rw [hsame c (by omega), h.written.lens_last c hc]) (by omega)
      rw [if_pos hb, hspill, Contents.start_update, ← hpos, Contents.lens_update,
        Function.update_self]
      rfl
    · have hspill := @spill_congr_of_lt A.lens (Contents.lens (Function.update A b (A b ++ [it])))
        (64*j) fun c hc => hsame c (by omega)
      rw [if_neg hb, h.offset, hspill]

theorem next (hc : cells = runCells (A b)) {n : Nat} (hn : b < n) : Building qf A n [] := by
  have hw := h.written.next hc hn
  exact ⟨hw.geometry, hw.holds, hw.length, hw.last, h.offset⟩

theorem orOccupied (i : Nat) : Building (AdaptiveQF.orOccupied qf i) A b cells := by
  have hv := view_orOccupied qf i
  refine ⟨h.geometry, ?_, h.length, h.last, fun j => ?_⟩
  · rw [hv]
    exact h.holds
  · rw [hv]
    exact h.offset j

/-- The whole run is there. Offsets count no slot twice if no block is overrun by more slots than
it has. -/
theorem wf (hc : cells = runCells (A b)) (hfit : A.Fits qf.metadata)
    (hocc : ∀ c, qf.view.occupied c = decide (A c ≠ []))
    (hspill : ∀ j, spill A.lens (64*j) ≤ 64) : WF qf A := by
  have hself : Function.update A.runs b cells = A.runs := by
    rw [Function.update_eq_self_iff, hc]
    rfl
  have hholds := h.holds
  rw [hself] at hholds
  refine ⟨⟨h.geometry, hholds, hocc, fun j => ?_, hfit.outside, hfit.extent, hfit.bounded,
    hfit.sorted⟩, hfit.fingerprint⟩
  have hj := hspill j
  rw [h.offset, Contents.lens_runs]
  omega

end Building

theorem QF.Zeroed.building (h : qf.Zeroed) (b : Nat) : Building qf Contents.empty b [] := by
  have hwf := h.wf
  refine ⟨h.geometry, ?_, rfl, fun _ _ => rfl, fun j => ?_⟩
  · have hself : Function.update Contents.empty.runs b [] = Contents.empty.runs := by
      rw [Function.update_eq_self_iff]
      rfl
    rw [hself]
    exact hwf.holds
  · have hspill : spill Contents.empty.lens (64*j) = 0 := by
      rw [Contents.lens_empty, spill, ends_zero, Nat.zero_sub]
    rw [hwf.offsets, Contents.lens_runs, hspill]
    rfl

end

end AdaptiveQF
