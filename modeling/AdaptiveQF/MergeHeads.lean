import AdaptiveQF.MergeOrder

/-! Where the iterators of a merge stand: in front of the items that are left. -/
namespace AdaptiveQF
open RunLayout

inductive Left (qf : QF) (A : Contents) : QFi → List (Nat × Item) → Prop
  | item {b : Nat} {l1 l2 : List Item} {it : Item} (hb : A b = l1 ++ it :: l2) :
    Left qf A ⟨b, A.pos b l1⟩
      ((b, it) :: (l2.map (Prod.mk b) ++ A.itemsFrom qf.metadata.nslots (b+1)))
  | ended {qfi : QFi} (hend : qf.xnslots ≤ qfi.current) : Left qf A qfi []

section
variable {qf : QF} {A : Contents} {p b n : Nat} {qfi : QFi} {e : Nat × Item}
  {l : List (Nat × Item)}

theorem Contents.mem_itemsFrom (h : e ∈ A.itemsFrom n p) : p ≤ e.1 ∧ e.2 ∈ A e.1 := by
  obtain ⟨b, hb, he⟩ := List.mem_flatMap.mp h
  obtain ⟨it, hit, rfl⟩ := List.mem_map.mp he
  exact ⟨(List.mem_range'_1.mp hb).1, hit⟩

theorem Contents.mem_itemsFrom_zero (hout : ∀ b, n ≤ b → A b = []) {it : Item} :
    (b, it) ∈ A.itemsFrom n 0 ↔ it ∈ A b := by
  constructor
  · exact fun h => (mem_itemsFrom h).2
  · intro h
    have hb : b < n := by
      by_contra hc
      rw [hout b (by omega)] at h
      exact absurd h List.not_mem_nil
    exact List.mem_flatMap.mpr ⟨b, List.mem_range'_1.mpr (by omega), List.mem_map_of_mem h⟩

theorem Contents.itemsFrom_eq_nil_iff (hout : ∀ b, n ≤ b → A b = []) :
    A.itemsFrom n p = [] ↔ ∀ b, p ≤ b → A b = [] := by
  constructor
  · intro h b hb
    by_contra hne
    obtain ⟨it, hit⟩ := List.exists_mem_of_ne_nil _ hne
    have hlt : b < n := by
      by_contra hc
      exact hne (hout b (by omega))
    have hmem : (b, it) ∈ A.itemsFrom n p :=
      List.mem_flatMap.mpr ⟨b, List.mem_range'_1.mpr (by omega), List.mem_map_of_mem hit⟩
    rw [h] at hmem
    exact absurd hmem List.not_mem_nil
  · exact itemsFrom_nil

/-- The buckets come in their order. -/
theorem Contents.itemsFrom_sorted (A : Contents) (n p : Nat) :
    (A.itemsFrom n p).Pairwise fun e f => e.1 ≤ f.1 := by
  induction hd : n - p generalizing p with
  | zero =>
    rw [itemsFrom, hd]
    exact .nil
  | succ d ih =>
    rw [A.itemsFrom_step (by omega), List.pairwise_append]
    refine ⟨?_, ih (p+1) (by omega), fun e he f hf => ?_⟩
    · rw [List.pairwise_map]
      exact List.pairwise_of_forall fun _ _ => le_refl p
    · obtain ⟨it, -, rfl⟩ := List.mem_map.mp he
      exact Nat.le_of_lt (mem_itemsFrom hf).1

theorem AtFirst.left (hat : AtFirst qf A p qfi) (h : Layout qf A) :
    Left qf A qfi (A.itemsFrom qf.metadata.nslots p) := by
  cases hat with
  | inl hat =>
    obtain ⟨c, hc, rfl⟩ := hat
    obtain ⟨it, l, hl⟩ := List.exists_cons_of_ne_nil hc.items
    rw [hc.itemsFrom_eq (hc.lt_nslots h), hl]
    exact .item (show A c = [] ++ it :: l from hl)
  | inr hat =>
    rw [Contents.itemsFrom_nil hat.1]
    exact .ended hat.2

namespace Left

theorem run_eq (hl : Left qf A qfi (e :: l)) : qfi.run = e.1 := by
  cases hl
  rfl

theorem qfiEnd_eq (hl : Left qf A qfi l) (h : Layout qf A) : qfiEnd qf qfi = l.isEmpty := by
  cases hl with
  | item hb => exact (h.qfiGetHash_eq hb).1
  | ended hend => exact decide_eq_true hend

/-- The item is read if its slots are in the range of an `int`. -/
theorem qfiGetHash_eq (hl : Left qf A qfi (e :: l)) (h : Layout qf A) :
    ∃ stop, stop ≤ A.extent qf.metadata.nslots ∧ (l = [] → stop = A.extent qf.metadata.nslots) ∧
      qfiGetHash qf qfi = if stop < 2^31 then some (0, e.2.entry qf.bits) else none := by
  cases hl with
  | @item b l1 l2 it hb =>
    refine ⟨_, h.pos_add_len_le hb, fun hnil => ?_, (h.qfiGetHash_eq hb).2⟩
    obtain ⟨h2, hrest⟩ := List.append_eq_nil_iff.mp hnil
    rw [List.map_eq_nil_iff.mp h2] at hb
    exact (h.extent_eq hb ((Contents.itemsFrom_eq_nil_iff h.outside).mp hrest)).symm

/-- `qfi_next` leaves the others. Behind the last item the run is still its bucket if the item ends
with the array. -/
theorem next (hl : Left qf A qfi (e :: l)) (h : Layout qf A) (hon : RunsOn qf A 0) :
    ∃ ret qfi', qfiNext qf qfi = some (ret, qfi') ∧ Left qf A qfi' l ∧ (ret = 0 ↔ l ≠ []) ∧
      (l = [] → (qfi'.run = e.1 ↔ qf.xnslots ≤ A.extent qf.metadata.nslots)) := by
  cases hl with
  | @item b l1 l2 it hb =>
    cases l2 with
    | cons next l2 =>
      exact ⟨_, _, h.nextItem_at hb, .item (show A b = (l1 ++ [it]) ++ next :: l2 by simp [hb]),
        by simp, fun hnil => by simp at hnil⟩
    | nil =>
      have hback := hon b (Nat.zero_le b)
      rw [← Contents.pos_last hb] at hback
      by_cases hany : ∃ c, b + 1 ≤ c ∧ A c ≠ []
      · obtain ⟨c', hc', hne'⟩ := hany
        obtain ⟨c, hc, -⟩ := exists_firstBucket hc' hne'
        have hstay := h.stays hb hc hback
        have hleft := AtFirst.left (.inl ⟨c, hc, rfl⟩) h
        have hne : A.itemsFrom qf.metadata.nslots (b+1) ≠ [] := fun hnil =>
          hc.items ((Contents.itemsFrom_eq_nil_iff h.outside).mp hnil c hc.le)
        exact ⟨_, _, h.nextBucket_some hb hc hstay,
            hleft, by simpa using hne, fun hnil => absurd hnil hne⟩
      · have hgap : ∀ c, b + 1 ≤ c → A c = [] := fun c hc => by
          by_contra hne'
          exact hany ⟨c, hc, hne'⟩
        have hlt := h.bucket_lt hb
        have hx := h.geometry.xnslots
        refine ⟨_, _, h.nextBucket_none hb hgap hback, ?_, ?_, fun _ => ?_⟩
        · rw [Contents.itemsFrom_nil hgap]
          refine .ended ?_
          split
          · next hend => exact hend
          · exact le_refl _
        · rw [Contents.itemsFrom_nil hgap]
          simp [QFI_INVALID]
        · rw [h.extent_eq hb hgap]
          split
          · next hend => exact ⟨fun _ => hend, fun _ => rfl⟩
          · next hend =>
            refine ⟨fun heq => ?_, fun hle => absurd hle hend⟩
            have hself : qf.xnslots = b := heq
            unfold QF.xnslots at hself
            omega

end Left

end

end AdaptiveQF
