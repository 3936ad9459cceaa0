import Mathlib.Data.List.Dedup

/-! Bloom filters: elements are known by the bits of their pieces. -/
namespace Bloom

variable {α β : Type*} [DecidableEq β] {pieces : α → List β} {bits : β → Bool} {ks : List α} {k : α}

def known (pieces : α → List β) (ks : List α) (k : α) : Bool :=
  (pieces k).all fun b => ks.any fun j => b ∈ pieces j

/-- How many elements were known when they came. The list has the last one first. -/
def repeats (pieces : α → List β) : List α → Nat
  | [] => 0
  | k :: ks => repeats pieces ks + if known pieces ks k then 1 else 0

def Marks (pieces : α → List β) (bits : β → Bool) (ks : List α) : Prop :=
  ∀ b, bits b = true ↔ ∃ k ∈ ks, b ∈ pieces k

theorem known_iff : known pieces ks k = true ↔ ∀ b ∈ pieces k, ∃ j ∈ ks, b ∈ pieces j := by
  simp [known]

theorem known_of_mem (h : k ∈ ks) : known pieces ks k = true :=
  known_iff.mpr fun _ hb => ⟨k, h, hb⟩

theorem repeats_le_length (pieces : α → List β) (ks : List α) : repeats pieces ks ≤ ks.length := by
  induction ks with
  | nil => exact Nat.le_refl _
  | cons k ks ih =>
    rw [repeats, List.length_cons]
    split <;> omega

/-- No repetition is missed. -/
theorem length_le [DecidableEq α] (pieces : α → List β) (ks : List α) :
    ks.length ≤ ks.dedup.length + repeats pieces ks := by
  induction ks with
  | nil => exact Nat.le_refl _
  | cons k ks ih =>
    rw [List.length_cons, repeats]
    by_cases hk : k ∈ ks
    · rw [List.dedup_cons_of_mem hk, if_pos (known_of_mem hk)]
      omega
    · rw [List.dedup_cons_of_notMem hk, List.length_cons]
      omega

omit [DecidableEq β] in
theorem marks_nil : Marks pieces (fun _ => false) [] := by
  intro b
  simp

theorem Marks.add (h : Marks pieces bits ks) (k : α) :
    Marks pieces (fun b => decide (b ∈ pieces k) || bits b) (k :: ks) := by
  intro b
  simp [h b]

theorem Marks.all_eq (h : Marks pieces bits ks) (k : α) :
    (pieces k).all bits = known pieces ks k := by
  rw [Bool.eq_iff_iff, known_iff, List.all_eq_true]
  exact forall₂_congr fun b _ => h b

theorem Marks.skip (h : Marks pieces bits ks) (hk : known pieces ks k = true) :
    Marks pieces bits (k :: ks) := by
  intro b
  rw [h b]
  constructor
  · intro hex
    obtain ⟨j, hj, hb⟩ := hex
    exact ⟨j, List.mem_cons_of_mem k hj, hb⟩
  · intro hex
    obtain ⟨j, hj, hb⟩ := hex
    cases List.mem_cons.mp hj with
    | inl he => exact known_iff.mp hk b (he ▸ hb)
    | inr hmem => exact ⟨j, hmem, hb⟩

end Bloom
