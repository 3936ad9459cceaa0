import Mathlib.Data.List.Basic

/-! The ways to take a list apart at an element, so that a condition on all of them can be
evaluated. -/
namespace Splits

variable {α : Type*} {l l1 l2 : List α} {a : α}

def splits : List α → List (List α × α × List α)
  | [] => []
  | a :: l => ([], a, l) :: (splits l).map fun s => (a :: s.1, s.2)

theorem mem_splits : (l1, a, l2) ∈ splits l ↔ l = l1 ++ a :: l2 := by
  induction l generalizing l1 with
  | nil => simp [splits]
  | cons x l ih =>
    cases l1 with
    | nil => simp [splits, eq_comm]
    | cons y l1 => simp [splits, ih, and_comm, eq_comm]

instance decidableForall {P : List α → α → List α → Prop}
    [∀ l1 a l2, Decidable (P l1 a l2)] :
    Decidable (∀ l1 a l2, l = l1 ++ a :: l2 → P l1 a l2) :=
  decidable_of_iff (∀ s ∈ splits l, P s.1 s.2.1 s.2.2)
    ⟨fun h l1 a l2 hl => h (l1, a, l2) (mem_splits.mpr hl),
      fun h _ hs => h _ _ _ (mem_splits.mp hs)⟩

instance decidableExists {P : List α → α → List α → Prop}
    [∀ l1 a l2, Decidable (P l1 a l2)] :
    Decidable (∃ l1 a l2, l = l1 ++ a :: l2 ∧ P l1 a l2) :=
  decidable_of_iff (∃ s ∈ splits l, P s.1 s.2.1 s.2.2)
    ⟨fun ⟨_, hs, h⟩ => ⟨_, _, _, mem_splits.mp hs, h⟩,
      fun ⟨_, _, _, hl, h⟩ => ⟨_, mem_splits.mpr hl, h⟩⟩

end Splits
