import AdaptiveQF.Items
import AdaptiveQF.Lib.RunSpace

/-! The empty slots of a filter behind a slot, and what takes them. -/
namespace AdaptiveQF
open RunLayout

section
variable {qf qf' : QF} {A : Contents} {b : Nat} {l1 l2 : List Item} {it : Item}

def Contents.free (A : Contents) (qf : QF) (x : Nat) : Nat := RunLayout.free A.lens x qf.xnslots

theorem Layout.ends_le (h : Layout qf A) : ends A.lens qf.xnslots ≤ qf.xnslots := by
  have hx := h.geometry.xnslots
  have hfits := h.fits
  have hends := @ends_eq_of_zero A.lens _ qf.xnslots (fun c hc => h.outside_lens hc)
    (by unfold QF.xnslots; omega)
  rw [hends]
  exact hfits

/-- All slots behind `x` are empty but those of the runs. -/
theorem Layout.le_free (h : Layout qf A) {x : Nat} (hx : x ≤ qf.xnslots) :
    qf.xnslots ≤ A.free qf x + x + ∑ c ∈ Finset.range qf.xnslots, A.lens c := by
  have hcount := free_add_count A.lens hx
  rw [count_used h.ends_le] at hcount
  unfold Contents.free
  omega

/-- Each new slot of a bucket takes an empty one. -/
theorem Layout.free_update (h : Layout qf A) {l : List Item} {k x : Nat}
    (h' : Layout qf' (Function.update A b l)) (hxn : qf'.xnslots = qf.xnslots)
    (hlt : b < qf.metadata.nslots) (hk : itemsLen l = A.lens b + k)
    (hx : x ≤ start A.lens b + A.lens b) (hxx : x ≤ qf.xnslots) :
    A.free qf x = Contents.free (Function.update A b l) qf' x + k := by
  have hgeo := h.geometry.xnslots
  have hends := h'.ends_le
  rw [hxn] at hends
  rw [Contents.free, Contents.free, hxn]
  refine free_grow (fun c hc => ?_) ?_ hx h.ends_le hends (by unfold QF.xnslots; omega) hxx
  · rw [Contents.lens, Function.update_of_ne hc, Contents.lens]
  · rw [Contents.lens, Function.update_self]
    exact hk

theorem Layout.free_item (h : Layout qf A) (hb : A b = l1 ++ it :: l2) {n : Nat}
    (hn : n ≤ it.len) : A.free qf (A.pos b l1) = A.free qf (A.pos b l1 + n) := by
  have hend := (h.pos_add_len_le hb).trans h.fits
  have hlen : A.lens b = itemsLen l1 + (it.len + itemsLen l2) := by simp [Contents.lens, hb]
  refine free_eq_of_used (by omega) (by omega) fun s h1 h2 => ⟨b, ?_⟩
  unfold Contents.pos at h1 h2
  unfold Owns
  omega

theorem Layout.free_replace (h : Layout qf A) (hb : A b = l1 ++ it :: l2) {it2 : Item} {k : Nat}
    (h' : Layout qf' (Function.update A b (l1 ++ it2 :: l2))) (hk : qf.Keeps qf')
    (hlen : it2.len = it.len + k) : A.free qf (A.pos b l1) =
      Contents.free (Function.update A b (l1 ++ it2 :: l2)) qf' (A.pos b l1) + k := by
  have hend := (h.pos_add_len_le hb).trans h.fits
  have hold : A.lens b = itemsLen l1 + (it.len + itemsLen l2) := by simp [Contents.lens, hb]
  apply h.free_update h' hk.xnslots (h.bucket_lt hb)
  · rw [hold, itemsLen_append, itemsLen_cons]
    omega
  · unfold Contents.pos
    omega
  · omega

theorem Layout.free_insert (h : Layout qf A) {x : Item} (hb : A b = l1 ++ l2)
    (hlt : b < qf.metadata.nslots) (hx : A.pos b l1 ≤ qf.xnslots)
    (hxn : qf'.xnslots = qf.xnslots) (h' : Layout qf' (Function.update A b (l1 ++ x :: l2))) :
    A.free qf (A.pos b l1) =
      Contents.free (Function.update A b (l1 ++ x :: l2)) qf' (A.pos b l1) + x.len := by
  have hold : A.lens b = itemsLen l1 + itemsLen l2 := by simp [Contents.lens, hb]
  apply h.free_update h' hxn hlt
  · simp only [hold, itemsLen_append, itemsLen_cons]
    omega
  · unfold Contents.pos
    omega
  · exact hx

end

end AdaptiveQF
