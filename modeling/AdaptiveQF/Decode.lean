import AdaptiveQF.Items

/-! A layout determines its contents. -/
namespace AdaptiveQF
open RunLayout

theorem exists_item_of_lt {l : List Item} {s : Nat} (hs : s < itemsLen l) :
    ∃ l1 it l2, l = l1 ++ it :: l2 ∧ itemsLen l1 ≤ s ∧ s < itemsLen l1 + it.len := by
  induction l generalizing s with
  | nil => simp at hs
  | cons x l ih =>
    rw [itemsLen_cons] at hs
    by_cases hx : s < x.len
    · exact ⟨[], x, l, rfl, by simp, by simpa using hx⟩
    · obtain ⟨l1, it, l2, rfl, h1, h2⟩ := ih (s := s - x.len) (by omega)
      refine ⟨x :: l1, it, l2, rfl, ?_, ?_⟩ <;> rw [itemsLen_cons] <;> omega

section
variable {qf : QF} {p : Nat} {x y : Item} {lastX lastY : Bool}

theorem ItemAt.ext_length_le (hx : ItemAt qf p x lastX) (hy : ItemAt qf p y lastY) :
    y.ext.length ≤ x.ext.length := by
  by_contra hlt
  have hy1 := hy.ext x.ext.length _ (List.getElem?_eq_getElem (by omega))
  cases hc : x.cnt with
  | nil =>
    have hstop := hx.stop
    have hlen : p + x.len = p + 1 + x.ext.length := by
      simp only [Item.len, hc, List.length_nil]
      omega
    rw [hlen, hy1] at hstop
    exact absurd hstop (by simp [Item.extCell])
  | cons c cs =>
    have hx1 := hx.cnt 0 c (by rw [hc, List.getElem?_cons_zero])
    rw [Nat.add_zero, hy1] at hx1
    exact absurd hx1 (by simp [Item.extCell, Item.cntCell])

theorem ItemAt.cnt_length_le (hx : ItemAt qf p x lastX) (hy : ItemAt qf p y lastY)
    (he : x.ext.length = y.ext.length) : y.cnt.length ≤ x.cnt.length := by
  by_contra hlt
  have hy1 := hy.cnt x.cnt.length _ (List.getElem?_eq_getElem (by omega))
  have hstop := hx.stop
  have hlen : p + x.len = p + 1 + y.ext.length + x.cnt.length := by
    unfold Item.len
    omega
  rw [hlen, hy1] at hstop
  exact absurd hstop (by simp [Item.cntCell])

/-- There is one way to read an item. -/
theorem ItemAt.unique (hx : ItemAt qf p x lastX) (hy : ItemAt qf p y lastY) :
    x = y ∧ lastX = lastY := by
  have hbase := hx.base.symm.trans hy.base
  simp only [Item.baseCell, Cell.mk.injEq, and_true] at hbase
  have hext : x.ext.length = y.ext.length :=
    Nat.le_antisymm (hy.ext_length_le hx) (hx.ext_length_le hy)
  have hcnt : x.cnt.length = y.cnt.length :=
    Nat.le_antisymm (hy.cnt_length_le hx hext.symm) (hx.cnt_length_le hy hext)
  have h1 : x.ext = y.ext := by
    refine List.ext_getElem hext fun i hi hi2 => ?_
    have hc := (hx.ext i _ (List.getElem?_eq_getElem hi)).symm.trans
      (hy.ext i _ (List.getElem?_eq_getElem hi2))
    simpa [Item.extCell] using hc
  have h2 : x.cnt = y.cnt := by
    refine List.ext_getElem hcnt fun i hi hi2 => ?_
    have hy1 := hy.cnt i _ (List.getElem?_eq_getElem hi2)
    rw [← hext] at hy1
    have hc := (hx.cnt i _ (List.getElem?_eq_getElem hi)).symm.trans hy1
    simpa [Item.cntCell] using hc
  rcases x with ⟨r, e, c⟩
  rcases y with ⟨r2, e2, c2⟩
  simp only at hbase h1 h2
  exact ⟨by rw [hbase.1, h1, h2], hbase.2⟩

variable {A B : Contents} {b : Nat}

theorem Laid.items_unique (hA : Laid qf A) (hB : Laid qf B)
    (hs : start A.lens b = start B.lens b) {l r1 r2 : List Item} (h1 : A b = l ++ r1)
    (h2 : B b = l ++ r2) (he : r1.isEmpty = r2.isEmpty) : r1 = r2 := by
  induction r1 generalizing l r2 with
  | nil => exact (List.isEmpty_iff.mp he.symm).symm
  | cons x r1 ih =>
    cases r2 with
    | nil => simp at he
    | cons y r2 =>
      have hx := hA.itemAt h1
      have hy := hB.itemAt h2
      have hpos : B.pos b l = A.pos b l := by rw [Contents.pos, Contents.pos, hs]
      rw [hpos] at hy
      obtain ⟨rfl, hlast⟩ := hx.unique hy
      have htail := ih (l := l ++ [x]) (by simp [h1]) (by simp [h2]) hlast
      rw [htail]

theorem Laid.unique (hA : Laid qf A) (hB : Laid qf B) : A = B := by
  funext b
  induction b using Nat.strongRecOn with
  | _ b ih =>
    have hs : start A.lens b = start B.lens b := by
      have hends : ends A.lens b = ends B.lens b := ends_congr fun a ha => by
        rw [Contents.lens, Contents.lens, ih a ha]
      rw [start, hends, ← start]
    refine hA.items_unique hB hs (l := []) rfl rfl ?_
    have hocc := (hA.occupied b).symm.trans (hB.occupied b)
    cases h1 : A b <;> cases h2 : B b <;> simp_all

theorem Layout.unique (hA : Layout qf A) (hB : Layout qf B) : A = B := hA.laid.unique hB.laid

end

/-! The contents can be read off the array of a filter that a run has come to. -/

def Contents.ofList (l : List (List Item)) : Contents := fun b => l.getD b []

/-- The array has the items of `A`, and no others. -/
structure Contents.Shown (A : Contents) (qf : QF) : Prop where
  extent : A.extent qf.metadata.nslots ≤ qf.xnslots
  occupied : ∀ b < qf.metadata.nslots, isOccupied qf b = decide (A b ≠ [])
  cells : ∀ b < qf.metadata.nslots, ∀ k < A.lens b,
    (A.runs b)[k]? = some (qf.view.cell (start A.lens b + k))
  blank : ∀ s < qf.xnslots, Blank (qf.view.cell s) ∨ ∃ b < qf.metadata.nslots,
    start A.lens b ≤ s ∧ s < start A.lens b + A.lens b

instance (c : Cell) : Decidable (Blank c) := inferInstanceAs (Decidable (_ ∧ _))

instance (A : Contents) (qf : QF) : Decidable (A.Shown qf) :=
  decidable_of_iff (A.extent qf.metadata.nslots ≤ qf.xnslots ∧
      (∀ b < qf.metadata.nslots, isOccupied qf b = decide (A b ≠ [])) ∧
      (∀ b < qf.metadata.nslots, ∀ k < A.lens b,
        (A.runs b)[k]? = some (qf.view.cell (start A.lens b + k))) ∧
      ∀ s < qf.xnslots, Blank (qf.view.cell s) ∨ ∃ b < qf.metadata.nslots,
        start A.lens b ≤ s ∧ s < start A.lens b + A.lens b)
    ⟨fun h => ⟨h.1, h.2.1, h.2.2.1, h.2.2.2⟩, fun h => ⟨h.1, h.2, h.3, h.4⟩⟩

theorem Layout.eq_ofList {qf : QF} {A : Contents} {l : List (List Item)} (h : Layout qf A)
    (hl : l.length ≤ qf.metadata.nslots) (hs : (Contents.ofList l).Shown qf) :
    A = Contents.ofList l := by
  have hout : ∀ b, qf.metadata.nslots ≤ b → Contents.ofList l b = [] := fun b hb => by
    rw [Contents.ofList, List.getD_eq_getElem?_getD, List.getElem?_eq_none (hl.trans hb),
      Option.getD_none]
  refine h.laid.unique ⟨h.geometry, ⟨fun b k c hc => ?_, fun s hu => ?_⟩, fun b => ?_, hout,
    hs.extent⟩
  · have hk := (List.getElem?_eq_some_iff.mp hc).1
    have hlen : ((Contents.ofList l).runs b).length = (Contents.ofList l).lens b :=
      congrFun (Contents.lens_runs _) b
    rw [hlen] at hk
    rw [Contents.lens_runs]
    by_cases hb : b < qf.metadata.nslots
    · exact Option.some.inj ((hs.cells b hb k hk).symm.trans hc)
    · rw [Contents.lens, hout b (by omega)] at hk
      exact absurd hk (Nat.not_lt_zero k)
  · rw [Contents.lens_runs] at hu
    by_cases hlt : s < qf.xnslots
    · refine (hs.blank s hlt).resolve_right fun hin => ?_
      obtain ⟨b, -, h1, h2⟩ := hin
      exact hu ⟨b, h1, h2⟩
    · refine h.holds.blank s fun hA => ?_
      exact hlt ((h.row.lt_ends hA).trans_le h.row.fits)
  · by_cases hb : b < qf.metadata.nslots
    · exact hs.occupied b hb
    · have hA := h.occupied b
      rw [h.outside b (by omega)] at hA
      rw [hA, hout b (by omega)]

end AdaptiveQF
