import AdaptiveQF.Lib.RunLayout
import Mathlib.Data.List.Basic
import Mathlib.Data.Nat.Count

/-! Rows of cells that hold a family of runs in its canonical layout, and what
shifting a stretch of cells by one does to them. -/
namespace RunLayout
variable {α : Type*}

def lens (runs : Nat → List α) (b : Nat) : Nat := (runs b).length

structure Holds (blank : α → Prop) (runs : Nat → List α) (c : Nat → α) : Prop where
  cell : ∀ b k a, (runs b)[k]? = some a → c (start (lens runs) b + k) = a
  blank : ∀ s, ¬ Used (lens runs) s → blank (c s)

def shiftIn (c : Nat → α) (x e : Nat) (v : α) : Nat → α :=
  fun s => if s = x then v else if x < s ∧ s ≤ e then c (s-1) else c s

def shiftOut (c : Nat → α) (x e : Nat) (v : α) : Nat → α :=
  fun s => if x ≤ s ∧ s < e then c (s+1) else if s = e then v else c s

theorem lens_update_of_ne (runs : Nat → List α) (l : List α) {t b : Nat} (h : b ≠ t) :
    lens (Function.update runs t l) b = lens runs b := by
  simp [lens, h]

theorem lens_update_self (runs : Nat → List α) (t : Nat) (l : List α) :
    lens (Function.update runs t l) t = l.length := by
  simp [lens]

theorem lens_update_same {runs : Nat → List α} {t : Nat} {l : List α}
    (h : l.length = (runs t).length) : lens (Function.update runs t l) = lens runs := by
  funext b
  by_cases hb : b = t
  · subst hb
    rw [lens_update_self, h]
    rfl
  · exact lens_update_of_ne runs l hb

theorem lens_update_congr (runs : Nat → List α) (t : Nat) {l l' : List α}
    (h : l.length = l'.length) :
    lens (Function.update runs t l) = lens (Function.update runs t l') := by
  funext b
  by_cases hb : b = t
  · subst hb
    rw [lens_update_self, lens_update_self, h]
  · rw [lens_update_of_ne runs _ hb, lens_update_of_ne runs _ hb]

theorem lens_update_insert {runs : Nat → List α} {t : Nat} {l1 l2 : List α} (v : α)
    (h : runs t = l1 ++ l2) :
    lens (Function.update runs t (l1 ++ v :: l2)) = grow (lens runs) t := by
  funext b
  by_cases hb : b = t
  · subst hb
    rw [lens_update_self, grow_self, lens, h]
    simp only [List.length_append, List.length_cons]
    omega
  · rw [lens_update_of_ne runs _ hb, grow_of_ne _ hb]

theorem start_lens_update (runs : Nat → List α) (t : Nat) (l : List α) :
    start (lens (Function.update runs t l)) t = start (lens runs) t := by
  have hends := @ends_congr (lens runs) (lens (Function.update runs t l)) t
    fun a ha => lens_update_of_ne runs l (by omega)
  rw [start, hends]
  rfl

section
variable {blank : α → Prop} {runs : Nat → List α} {c : Nat → α} {t : Nat} {l1 l2 : List α}

theorem Holds.at (h : Holds blank runs c) {a : α} (hr : runs t = l1 ++ a :: l2) :
    c (start (lens runs) t + l1.length) = a :=
  h.cell t l1.length a (by simp [hr])

theorem Holds.modify (h : Holds blank runs c) {a : α} (hr : runs t = l1 ++ a :: l2) (a' : α) :
    Holds blank (Function.update runs t (l1 ++ a' :: l2))
      (Function.update c (start (lens runs) t + l1.length) a') := by
  have hl : lens (Function.update runs t (l1 ++ a' :: l2)) = lens runs :=
    lens_update_same (by simp [hr])
  constructor
  · intro b k d hd
    rw [hl]
    by_cases hb : b = t
    · subst hb
      rw [Function.update_self] at hd
      by_cases hk : k = l1.length
      · subst hk
        simp at hd
        simp [hd]
      · rw [Function.update_of_ne (by omega)]
        apply h.cell
        rw [hr]
        rw [← hd]
        rcases Nat.lt_or_ge k l1.length with hlt | hge
        · rw [List.getElem?_append_left hlt, List.getElem?_append_left hlt]
        · rw [List.getElem?_append_right hge, List.getElem?_append_right hge]
          obtain ⟨j, hj⟩ : ∃ j, k - l1.length = j + 1 := ⟨k - l1.length - 1, by omega⟩
          simp [hj]
    · rw [Function.update_of_ne hb] at hd
      have hk : k < lens runs b := (List.getElem?_eq_some_iff.mp hd).1
      have hx : l1.length < lens runs t := by simp [lens, hr]
      have hne : start (lens runs) b + k ≠ start (lens runs) t + l1.length := by
        intro he
        apply hb
        have ho : Owns (lens runs) b (start (lens runs) b + k) := ⟨by omega, by omega⟩
        exact ho.unique ⟨by omega, by omega⟩
      rw [Function.update_of_ne hne]
      exact h.cell b k d hd
  · intro s hs
    rw [hl] at hs
    have hne : s ≠ start (lens runs) t + l1.length := by
      rintro rfl
      exact hs ⟨t, by omega, by simp [lens, hr]⟩
    rw [Function.update_of_ne hne]
    exact h.blank s hs

theorem Holds.insert (h : Holds blank runs c) (hr : runs t = l1 ++ l2) (v : α) {x e : Nat}
    (hx : x = start (lens runs) t + l1.length) (he : FirstUnused (lens runs) x e) :
    Holds blank (Function.update runs t (l1 ++ v :: l2)) (shiftIn c x e v) := by
  have hl := lens_update_insert v hr
  have hlt : l1.length ≤ lens runs t := by simp [lens, hr]
  have hx1 : start (lens runs) t ≤ x := by omega
  have hx2 : x ≤ start (lens runs) t + lens runs t := by omega
  have hend := end_le_of_unused he.unused (hx1.trans he.le)
  constructor
  · intro b k d hd
    rw [hl]
    rcases Nat.lt_trichotomy b t with hb | hb | hb
    · rw [Function.update_of_ne (by omega)] at hd
      have hk : k < lens runs b := (List.getElem?_eq_some_iff.mp hd).1
      have := @start_add_le_start (lens runs) _ _ hb
      rw [start_grow_of_le (by omega)]
      unfold shiftIn
      rw [if_neg (by omega), if_neg (by omega)]
      exact h.cell b k d hd
    · subst hb
      rw [Function.update_self] at hd
      rw [start_grow_of_le (Nat.le_refl b)]
      rcases Nat.lt_trichotomy k l1.length with hk | hk | hk
      · rw [List.getElem?_append_left hk] at hd
        unfold shiftIn
        rw [if_neg (by omega), if_neg (by omega)]
        apply h.cell
        rw [hr, List.getElem?_append_left hk, hd]
      · subst hk
        simp at hd
        simp [shiftIn, hx, hd]
      · obtain ⟨j, rfl⟩ : ∃ j, k = l1.length + (j+1) := ⟨k - l1.length - 1, by omega⟩
        rw [List.getElem?_append_right (by omega), Nat.add_sub_cancel_left,
          List.getElem?_cons_succ] at hd
        have hj : j < l2.length := (List.getElem?_eq_some_iff.mp hd).1
        have hjl : l1.length + l2.length = lens runs b := by simp [lens, hr]
        unfold shiftIn
        rw [if_neg (by omega), if_pos (by omega)]
        have hs : start (lens runs) b + (l1.length + (j+1)) - 1
            = start (lens runs) b + (l1.length + j) := by omega
        rw [hs]
        apply h.cell
        rw [hr, List.getElem?_append_right (by omega), Nat.add_sub_cancel_left, hd]
    · rw [Function.update_of_ne (by omega)] at hd
      have hk : k < lens runs b := (List.getElem?_eq_some_iff.mp hd).1
      have hcell := h.cell b k d hd
      rcases start_grow hx1 hx2 he hb (by omega) with ⟨h1, h2, h3⟩ | ⟨h1, h2⟩
      · rw [h3]
        unfold shiftIn
        rw [if_neg (by omega), if_pos (by omega)]
        have hs : start (lens runs) b + 1 + k - 1 = start (lens runs) b + k := by omega
        rw [hs, hcell]
      · rw [h2]
        have := he.le
        unfold shiftIn
        rw [if_neg (by omega), if_neg (by omega), hcell]
  · intro s hs
    rw [hl] at hs
    have hout : s < x ∨ e < s := by
      by_contra hc
      apply hs
      by_cases hsx : s = x
      · exact ⟨t, by rw [start_grow_of_le (Nat.le_refl t)]; omega,
          by rw [start_grow_of_le (Nat.le_refl t), grow_self]; omega⟩
      · obtain ⟨b, ho1, ho2⟩ := he.used (s-1) (by omega) (by omega)
        rcases Nat.lt_trichotomy b t with hb | hb | hb
        · have := @start_add_le_start (lens runs) _ _ hb
          omega
        · subst hb
          exact ⟨b, by rw [start_grow_of_le (Nat.le_refl b)]; omega,
            by rw [start_grow_of_le (Nat.le_refl b), grow_self]; omega⟩
        · rcases start_grow hx1 hx2 he hb (by omega) with ⟨h1, h2, h3⟩ | ⟨h1, h2⟩
          · exact ⟨b, by omega, by rw [h3, grow_of_ne _ (by omega)]; omega⟩
          · omega
    have hun : ¬ Used (lens runs) s := by
      rintro ⟨b, ho⟩
      apply hs
      rcases Nat.lt_trichotomy b t with hb | hb | hb
      · refine ⟨b, ?_⟩
        unfold Owns
        rw [start_grow_of_le (by omega), grow_of_ne _ (by omega)]
        exact ho
      · subst hb
        refine ⟨b, ?_⟩
        unfold Owns
        rw [start_grow_of_le (Nat.le_refl b), grow_self]
        have := ho.1
        have := ho.2
        omega
      · refine ⟨b, ?_⟩
        unfold Owns
        rw [grow_of_ne _ (by omega)]
        have h1 := ho.1
        have h2 := ho.2
        rcases start_grow hx1 hx2 he hb ho.pos with ⟨g1, g2, g3⟩ | ⟨g1, g2⟩
        · omega
        · omega
    have hc : shiftIn c x e v s = c s := by
      have := he.le
      unfold shiftIn
      rw [if_neg (by omega), if_neg (by omega)]
    rw [hc]
    exact h.blank s hun

theorem lens_remove {a : α} (h : runs t = l1 ++ a :: l2) :
    lens runs = grow (lens (Function.update runs t (l1 ++ l2))) t := by
  have hrest : Function.update runs t (l1 ++ l2) t = l1 ++ l2 := Function.update_self ..
  have hins := lens_update_insert a hrest
  rwa [Function.update_idem, ← h, Function.update_eq_self] at hins

/-- One cell less in the run of `t`: what is behind it moves back, up to the slot that becomes
unused. -/
theorem Holds.remove (h : Holds blank runs c) {a v : α} (hr : runs t = l1 ++ a :: l2) {x e : Nat}
    (hx : x = start (lens runs) t + l1.length)
    (he : FirstUnused (lens (Function.update runs t (l1 ++ l2))) x e) (hv : blank v) :
    Holds blank (Function.update runs t (l1 ++ l2)) (shiftOut c x e v) := by
  have hg := lens_remove hr
  obtain ⟨L, hL⟩ : ∃ L, L = lens (Function.update runs t (l1 ++ l2)) := ⟨_, rfl⟩
  rw [← hL] at hg he
  have hlen : L t = l1.length + l2.length := by
    rw [hL, lens_update_self, List.length_append]
  have hst := @start_grow_of_le L t t (Nat.le_refl t)
  rw [hg, hst] at hx
  have hx1 : start L t ≤ x := by omega
  have hx2 : x ≤ start L t + L t := by omega
  have hend := end_le_of_unused he.unused (hx1.trans he.le)
  constructor
  · intro b k d hd
    rw [← hL]
    rcases Nat.lt_trichotomy b t with hb | hb | hb
    · rw [Function.update_of_ne (by omega)] at hd
      have hk : k < lens runs b := (List.getElem?_eq_some_iff.mp hd).1
      rw [hg, grow_of_ne _ (by omega)] at hk
      have hle := @start_add_le_start L _ _ hb
      have hcell := h.cell b k d hd
      rw [hg, start_grow_of_le (by omega)] at hcell
      unfold shiftOut
      rw [if_neg (by omega), if_neg (by omega), hcell]
    · subst hb
      rw [Function.update_self] at hd
      have hk : k < l1.length + l2.length := by
        rw [← List.length_append]
        exact (List.getElem?_eq_some_iff.mp hd).1
      unfold shiftOut
      rcases Nat.lt_or_ge k l1.length with hlt | hge
      · rw [if_neg (by omega), if_neg (by omega)]
        have hcell := h.cell b k d (by
          rw [hr, List.getElem?_append_left hlt]
          rwa [List.getElem?_append_left hlt] at hd)
        rwa [hg, hst] at hcell
      · rw [if_pos (by omega)]
        have hcell := h.cell b (k+1) d (by
          rw [hr, List.getElem?_append_right (by omega)]
          rw [List.getElem?_append_right hge] at hd
          have hsub : k + 1 - l1.length = k - l1.length + 1 := by omega
          rw [hsub, List.getElem?_cons_succ, hd])
        rwa [hg, hst, ← Nat.add_assoc] at hcell
    · rw [Function.update_of_ne (by omega)] at hd
      have hk : k < lens runs b := (List.getElem?_eq_some_iff.mp hd).1
      rw [hg, grow_of_ne _ (by omega)] at hk
      have hcell := h.cell b k d hd
      unfold shiftOut
      rcases start_grow hx1 hx2 he hb (by omega) with ⟨h1, h2, h3⟩ | ⟨h1, h2⟩
      · have hs : start L b + 1 + k = start L b + k + 1 := by omega
        rw [hg, h3, hs] at hcell
        rw [if_pos (by omega), hcell]
      · rw [hg, h2] at hcell
        rw [if_neg (by omega), if_neg (by omega), hcell]
  · intro s hs
    rw [← hL] at hs
    by_cases hse : s = e
    · have hc : shiftOut c x e v s = v := by
        unfold shiftOut
        rw [if_neg (by omega), if_pos hse]
      rw [hc]
      exact hv
    · have hout : s < x ∨ e < s := by
        by_contra hc
        exact hs (he.used s (by omega) (by omega))
      have hun : ¬ Used (lens runs) s := by
        rw [hg]
        rintro ⟨b, ho1, ho2⟩
        apply hs
        refine ⟨b, ?_⟩
        unfold Owns
        rcases Nat.lt_trichotomy b t with hb | hb | hb
        · rw [start_grow_of_le (by omega)] at ho1 ho2
          rw [grow_of_ne _ (by omega)] at ho2
          exact ⟨ho1, ho2⟩
        · subst hb
          rw [hst] at ho1 ho2
          rw [grow_self] at ho2
          omega
        · rw [grow_of_ne _ (by omega)] at ho2
          rcases start_grow hx1 hx2 he hb (by omega) with ⟨g1, g2, g3⟩ | ⟨g1, g2⟩
          · omega
          · omega
      have hc : shiftOut c x e v s = c s := by
        have := he.le
        unfold shiftOut
        rw [if_neg (by omega), if_neg hse]
      rw [hc]
      exact h.blank s hun

end

/-! Cells written one behind the other. -/

def writeAt (c : Nat → α) (x : Nat) (d : List α) : Nat → α :=
  fun s => if x ≤ s then (d[s-x]?).getD (c s) else c s

section
variable {blank : α → Prop} {runs : Nat → List α} {c : Nat → α} {t x s : Nat} {d : List α}

theorem writeAt_of_lt (c : Nat → α) (d : List α) (h : s < x) : writeAt c x d s = c s :=
  if_neg (by omega)

theorem writeAt_of_le (c : Nat → α) (h : x + d.length ≤ s) : writeAt c x d s = c s := by
  have hnone : d[s-x]? = none := List.getElem?_eq_none (by omega)
  rw [writeAt, if_pos (by omega), hnone]
  rfl

theorem writeAt_get (c : Nat → α) (x : Nat) {k : Nat} {a : α} (h : d[k]? = some a) :
    writeAt c x d (x+k) = a := by
  rw [writeAt, if_pos (by omega), Nat.add_sub_cancel_left, h]
  rfl

@[simp] theorem writeAt_nil (c : Nat → α) (x : Nat) : writeAt c x [] = c := by
  funext s
  simp [writeAt]

theorem writeAt_append (c : Nat → α) (x : Nat) (d1 d2 : List α) :
    writeAt c x (d1 ++ d2) = writeAt (writeAt c x d1) (x + d1.length) d2 := by
  funext s
  rcases Nat.lt_or_ge s (x + d1.length) with h | h
  · rw [writeAt_of_lt _ _ h, writeAt, writeAt]
    split
    · rw [List.getElem?_append_left (by omega)]
    · rfl
  · have hsub : s - x - d1.length = s - (x + d1.length) := by omega
    rw [writeAt, writeAt, if_pos (by omega), if_pos h, writeAt_of_le _ h,
      List.getElem?_append_right (by omega), hsub]

theorem writeAt_singleton (c : Nat → α) (x : Nat) (a : α) :
    writeAt c x [a] = Function.update c x a := by
  funext s
  rcases Nat.lt_trichotomy s x with h | rfl | h
  · rw [writeAt_of_lt _ _ h, Function.update_of_ne (by omega)]
  · simp [writeAt]
  · rw [writeAt_of_le _ (Nat.succ_le_of_lt h), Function.update_of_ne (by omega)]

theorem Holds.append (h : Holds blank runs c) (hlast : ∀ b, t < b → runs b = []) (d : List α) :
    Holds blank (Function.update runs t (runs t ++ d))
      (writeAt c (start (lens runs) t + lens runs t) d) := by
  have hlen : lens (Function.update runs t (runs t ++ d)) t = lens runs t + d.length := by
    rw [lens_update_self, List.length_append]
    rfl
  have hstart : ∀ b, b ≤ t →
      start (lens (Function.update runs t (runs t ++ d))) b = start (lens runs) b := by
    intro b hb
    have hends := @ends_congr (lens runs) (lens (Function.update runs t (runs t ++ d))) b
      fun a ha => lens_update_of_ne runs _ (by omega)
    rw [start, hends]
    rfl
  constructor
  · intro b k a ha
    rcases Nat.lt_trichotomy b t with hb | rfl | hb
    · rw [Function.update_of_ne (by omega)] at ha
      have hk : k < lens runs b := (List.getElem?_eq_some_iff.mp ha).1
      have hle := @start_add_le_start (lens runs) _ _ hb
      rw [hstart b (by omega), writeAt_of_lt _ _ (by omega)]
      exact h.cell b k a ha
    · rw [Function.update_self] at ha
      rw [hstart b (Nat.le_refl b)]
      rcases Nat.lt_or_ge k (runs b).length with hk | hk
      · rw [List.getElem?_append_left hk] at ha
        have hk2 : k < lens runs b := hk
        rw [writeAt_of_lt _ _ (by omega)]
        exact h.cell b k a ha
      · rw [List.getElem?_append_right hk] at ha
        have hk2 : k = lens runs b + (k - (runs b).length) := by
          unfold lens
          omega
        rw [hk2, ← Nat.add_assoc]
        exact writeAt_get _ _ ha
    · rw [Function.update_of_ne (by omega), hlast b hb] at ha
      simp at ha
  · intro s hs
    have hout : s < start (lens runs) t + lens runs t ∨
        start (lens runs) t + lens runs t + d.length ≤ s := by
      by_contra hc
      refine hs ⟨t, ?_, ?_⟩
      · rw [hstart t (Nat.le_refl t)]
        omega
      · rw [hstart t (Nat.le_refl t), hlen]
        omega
    have hcell : writeAt c (start (lens runs) t + lens runs t) d s = c s := by
      cases hout with
      | inl hlt => exact writeAt_of_lt _ _ hlt
      | inr hle => exact writeAt_of_le _ hle
    rw [hcell]
    apply h.blank
    rintro ⟨b, hb1, hb2⟩
    have hbt : b ≤ t := by
      by_contra hc
      have hz : lens runs b = 0 := by rw [lens, hlast b (by omega), List.length_nil]
      omega
    refine hs ⟨b, ?_, ?_⟩
    · rw [hstart b hbt]
      exact hb1
    · rw [hstart b hbt]
      by_cases hb : b = t
      · rw [hb, hlen]
        rw [hb] at hb2
        omega
      · rw [lens_update_of_ne runs _ hb]
        exact hb2

end

end RunLayout
