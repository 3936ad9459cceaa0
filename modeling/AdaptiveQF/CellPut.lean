import AdaptiveQF.Adapt

/-! One more cell in the run of a bucket: insert_one_slot on a canonical layout. -/
namespace AdaptiveQF
open RunLayout

def QF.FindsSpace (qf : QF) (x : Nat) : Prop :=
  ∃ e, findFirstEmptySlot qf x = some e ∧ e < qf.xnslots

instance (qf : QF) (x : Nat) : Decidable (qf.FindsSpace x) :=
  decidable_of_iff (∃ e ∈ findFirstEmptySlot qf x, e < qf.xnslots) (by simp [QF.FindsSpace])

def Item.fresh (rem : Nat) : Item := ⟨rem, [], []⟩

theorem Item.len_fresh (rem : Nat) : (Item.fresh rem).len = 1 := rfl

theorem Item.cells_fresh (rem : Nat) (last : Bool) :
    (Item.fresh rem).cells last = [⟨rem, last, false⟩] := rfl

theorem Item.bounded_fresh {w rem : Nat} (h : rem < 2^w) : (Item.fresh rem).Bounded w :=
  ⟨h, by simp [fresh], by simp [fresh]⟩

section
variable {qf : QF} {A : Contents} {b : Nat} {l1 l2 : List Item} {it : Item}

theorem Layout.findsSpace_iff (h : Layout qf A) {x : Nat} (hx : x ≤ qf.xnslots) :
    qf.FindsSpace x ↔ 0 < A.free qf x := by
  obtain ⟨e, he, _⟩ := @exists_firstUnused A.lens _ (fun c hc => h.outside_lens hc) x
  have hfind : findFirstEmptySlot qf x = some e :=
    h.row.findFirstEmptySlot_eq h.offsets (by rw [Contents.lens_runs]; exact he) hx
  rw [Contents.free, free_pos_iff]
  constructor
  · rintro ⟨e2, h2, hlt⟩
    rw [hfind, Option.some.injEq] at h2
    exact ⟨e, he, by omega⟩
  · rintro ⟨e2, he2, hlt⟩
    exact ⟨e, hfind, by rw [he.unique he2]; exact hlt⟩

theorem Layout.firstUnused_of_space (h : Layout qf A) {x : Nat} (hx : x ≤ qf.xnslots)
    (hs : qf.FindsSpace x) : ∃ e, FirstUnused A.lens x e ∧ e < qf.xnslots :=
  free_pos_iff.mp ((h.findsSpace_iff hx).mp hs)

theorem le_of_head {r : Nat} (hs : l2.Pairwise fun x y => x.rem ≤ y.rem)
    (h2 : ∀ y ∈ l2.head?, r ≤ y.rem) : ∀ y ∈ l2, r ≤ y.rem := by
  cases l2 with
  | nil => simp
  | cons z l2 =>
    have hz : r ≤ z.rem := h2 z rfl
    intro y hy
    rcases List.mem_cons.mp hy with rfl | hy
    · exact hz
    · exact hz.trans ((List.pairwise_cons.mp hs).1 y hy)

theorem sorted_insert (hs : (l1 ++ l2).Pairwise fun x y => x.rem ≤ y.rem)
    (h1 : ∀ x ∈ l1, x.rem ≤ it.rem) (h2 : ∀ y ∈ l2, it.rem ≤ y.rem) :
    (l1 ++ it :: l2).Pairwise fun x y => x.rem ≤ y.rem := by
  rw [List.pairwise_append] at hs ⊢
  obtain ⟨hs1, hs2, hs12⟩ := hs
  refine ⟨hs1, List.pairwise_cons.mpr ⟨h2, hs2⟩, fun x hx y hy => ?_⟩
  rcases List.mem_cons.mp hy with rfl | hy
  · exact h1 x hx
  · exact hs12 x hx y hy

theorem Layout.sorted_append (h : Layout qf A) (hb : A b = l1 ++ l2) :
    (l1 ++ l2).Pairwise fun x y => x.rem ≤ y.rem := by
  rw [← hb]
  exact h.sorted b

theorem Geometry.remainder_lt (qf : QF) (hash : Nat) : qf.metadata.remainder hash < 2^qf.bits :=
  Nat.mod_lt _ (Nat.two_pow_pos _)

structure CellPut (qf : QF) (A : Contents) (b x v : Nat) (c1 c2 : List Cell) (qf1 : QF) :
    Prop where
  done : insertOneSlot qf b x v = some (1, qf1)
  frame : qf.SameFrame qf1
  occupied : qf1.view.occupied = qf.view.occupied
  holds : Holds Blank (Function.update A.runs b (c1 ++ ⟨v, false, false⟩ :: c2)) qf1.view.cell
  offsets : Offsets qf1 (Function.update A.runs b (c1 ++ ⟨v, false, false⟩ :: c2))
  start : start (RunLayout.lens (Function.update A.runs b (c1 ++ ⟨v, false, false⟩ :: c2))) b =
    RunLayout.start A.lens b
  space : ∃ e, FirstUnused A.lens x e ∧ e < qf.xnslots

theorem Layout.run_le (h : Layout qf A) (hlt : b < qf.metadata.nslots) :
    RunLayout.start A.lens b + A.lens b ≤ qf.xnslots := by
  have hxn := h.geometry.xnslots
  have hends := h.row.ends_le b
  rw [Contents.lens_runs] at hends
  by_cases hb : A b = []
  · have hz : A.lens b = 0 := by simp [Contents.lens, hb]
    unfold RunLayout.start QF.xnslots at *
    omega
  · have hend := h.end_le_extent b hb
    have hfit := h.fits
    omega

theorem Layout.putCell (h : Layout qf A) {c1 c2 : List Cell} {x : Nat} (hrun : A.runs b = c1 ++ c2)
    (hu : Used A.lens b) (hlt : b < qf.metadata.nslots)
    (hx : x = RunLayout.start A.lens b + c1.length) (v : Nat) (hs : qf.FindsSpace x) :
    ∃ qf1, CellPut qf A b x v c1 c2 qf1 := by
  have hlens := Contents.lens_runs A
  have hl : A.lens b = c1.length + c2.length := by
    rw [← hlens, RunLayout.lens, hrun, List.length_append]
  have hend := h.run_le hlt
  have hxle : x ≤ qf.xnslots := by omega
  obtain ⟨e, he, hex⟩ := h.firstUnused_of_space hxle hs
  have he0 : 0 < e := by
    have hle := he.le
    have hbs := @le_start A.lens b
    rcases Nat.eq_zero_or_pos e with h0 | h0
    · have hbe : b = e := by omega
      rw [hbe] at hu
      exact absurd hu he.unused
    · exact h0
  have he' := he
  rw [hx, ← hlens] at he'
  obtain ⟨qf1, h1, hf1, hocc, hh, hoff⟩ :=
    @insertOneSlot_eq qf A.runs b e v c1 c2 h.row h.offsets hrun he' he0 hex
  rw [hlens, ← hx] at h1
  refine ⟨qf1, h1, hf1, hocc, hh, hoff, ?_, e, he, hex⟩
  rw [lens_update_insert _ hrun, start_grow_of_le (Nat.le_refl b), hlens]

theorem CellPut.modify {qf1 : QF} {x v : Nat} {c1 c2 : List Cell}
    (hp : CellPut qf A b x v c1 c2 qf1) (hx : x = RunLayout.start A.lens b + c1.length) (c : Cell) :
    qf1.view.cell x = ⟨v, false, false⟩ ∧
      Holds Blank (Function.update A.runs b (c1 ++ c :: c2))
        (Function.update qf1.view.cell x c) := by
  have hat := hp.holds.at (t := b) (Function.update_self ..)
  have hmod := hp.holds.modify (t := b) (Function.update_self ..) c
  rw [hp.start, ← hx] at hat hmod
  rw [Function.update_idem] at hmod
  exact ⟨hat, hmod⟩

theorem CellPut.finish {qf1 qf2 : QF} {x v : Nat} {c1 c2 : List Cell} {l : List Item}
    (hp : CellPut qf A b x v c1 c2 qf1) (h : Layout qf A) (hrun : A.runs b = c1 ++ c2)
    (hlt : b < qf.metadata.nslots) (hx : x = RunLayout.start A.lens b + c1.length)
    (hf : qf1.SameFrame qf2)
    (hh : Holds Blank (Function.update A.runs b (runCells l)) qf2.view.cell)
    (ho : qf2.view.occupied = Function.update qf1.view.occupied b true)
    (hoff : qf2.view.offset = qf1.view.offset) (hlen : itemsLen l = A.lens b + 1)
    (hbd : ∀ it ∈ l, it.Bounded qf.bits) (hs : l.Pairwise fun x y => x.rem ≤ y.rem) :
    Layout qf2 (Function.update A b l) := by
  have hl : A.lens b = c1.length + c2.length := by
    rw [← Contents.lens_runs, RunLayout.lens, hrun, List.length_append]
  have hne : l ≠ [] := by
    rintro rfl
    simp at hlen
  obtain ⟨e, he, hex⟩ := hp.space
  have hfr : (qf.setCounts qf.metadata.nelts qf.metadata.ndistinctElts
      qf.metadata.noccupiedSlots).SameFrame qf2 := hp.frame.trans hf
  apply h.replace hfr hlt hh _ _ (h.extent_grow hlt hlen (by omega) (by omega) he hex) hbd hs
  · rw [ho, hp.occupied, decide_eq_true hne]
  · intro j
    have hlens : RunLayout.lens (Function.update A.runs b (runCells l)) =
        RunLayout.lens (Function.update A.runs b (c1 ++ ⟨v, false, false⟩ :: c2)) := by
      apply lens_update_congr
      simp only [length_runCells, List.length_append, List.length_cons]
      omega
    rw [hoff, hlens]
    exact hp.offsets j

theorem Layout.occupied_self (h : Layout qf A) (hb : A b ≠ []) :
    Function.update qf.view.occupied b true = qf.view.occupied := by
  rw [Function.update_eq_self_iff, h.occupied]
  simp [hb]

theorem bounded_insert (h : Layout qf A) (hb : A b = l1 ++ l2) (hit : it.Bounded qf.bits) :
    ∀ x ∈ l1 ++ it :: l2, x.Bounded qf.bits := by
  intro x hx
  rcases List.mem_append.mp hx with hx | hx
  · exact h.bounded b x (by simp [hb, hx])
  · rcases List.mem_cons.mp hx with rfl | hx
    · exact hit
    · exact h.bounded b x (by simp [hb, hx])

/-- A fresh item in front of another one of its run. -/
theorem Layout.insertBetween (h : Layout qf A) {y : Item} (hb : A b = l1 ++ y :: l2) (rem : Nat)
    (hr : rem < 2^qf.bits) (hs : qf.FindsSpace (A.pos b l1))
    (hsort : (l1 ++ Item.fresh rem :: y :: l2).Pairwise fun x y => x.rem ≤ y.rem) :
    ∃ qf', insertOneSlot qf b (A.pos b l1) rem = some (1, qf') ∧ qf.SameFrame qf' ∧
      Layout qf' (Function.update A b (l1 ++ Item.fresh rem :: y :: l2)) := by
  have hne : A b ≠ [] := by simp [hb]
  have hrun : A.runs b = initCells l1 ++ runCells (y :: l2) := by
    rw [Contents.runs, hb, runCells_append l1 _ (by simp)]
  have hnew : runCells (l1 ++ Item.fresh rem :: y :: l2) =
      initCells l1 ++ ⟨rem, false, false⟩ :: runCells (y :: l2) := by
    rw [runCells_split, Item.cells_fresh]
    simp
  have hpos : A.pos b l1 = start A.lens b + (initCells l1).length := by
    rw [length_initCells, Contents.pos]
  have hlen : itemsLen (l1 ++ Item.fresh rem :: y :: l2) = A.lens b + 1 := by
    simp only [Contents.lens, hb, itemsLen_append, itemsLen_cons, Item.len_fresh]
    omega
  obtain ⟨qf1, hp⟩ := h.putCell hrun (used_of_pos (Contents.lens_pos.mpr hne)) (h.bucket_lt hb)
    hpos rem hs
  refine ⟨qf1, hp.done, hp.frame, ?_⟩
  apply hp.finish h hrun (h.bucket_lt hb) hpos (QF.SameFrame.refl qf1) _ _ rfl hlen
    (bounded_insert h hb (Item.bounded_fresh hr)) hsort
  · rw [hnew]
    exact hp.holds
  · rw [hp.occupied, h.occupied_self hne]

end

end AdaptiveQF
