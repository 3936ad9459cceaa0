import Mathlib.Data.List.Chain
import Mathlib.Data.List.Lex
import Mathlib.Order.Lattice

/-! Prefixes of the members of a list in lexicographic order. Prefixes that tell each member from
its neighbours tell it from all others. -/
namespace LexPrefix

variable {α : Type*} [LinearOrder α] {p a b c : List α}

/-- What two lists begin with, those between them begin with. -/
theorem prefix_of_between (hab : a ≤ b) (hbc : b ≤ c) (ha : p <+: a) (hc : p <+: c) : p <+: b := by
  induction p generalizing a b c with
  | nil => exact List.nil_prefix
  | cons x p ih =>
    obtain ⟨a, rfl⟩ := ha
    obtain ⟨c, rfl⟩ := hc
    rw [List.cons_append] at hab hbc
    cases b with
    | nil => exact absurd hab (not_le_of_gt (List.nil_lt_cons ..))
    | cons y b =>
      have hxy : x ≤ y := by
        by_contra h
        exact absurd hab (not_le_of_gt (List.cons_lt_cons_iff.mpr (.inl (lt_of_not_ge h))))
      have hyx : y ≤ x := by
        by_contra h
        exact absurd hbc (not_le_of_gt (List.cons_lt_cons_iff.mpr (.inl (lt_of_not_ge h))))
      obtain rfl := le_antisymm hxy hyx
      have htail : ∀ {u v : List α}, x :: u ≤ x :: v → u ≤ v := by
        intro u v h
        by_contra hcon
        exact absurd h (not_le_of_gt (List.cons_lt_cons_iff.mpr (.inr ⟨rfl, lt_of_not_ge hcon⟩)))
      exact List.cons_prefix_cons.mpr
        ⟨rfl, ih (htail hab) (htail hbc) (List.prefix_append ..) (List.prefix_append ..)⟩

variable {ι : Type*} {key pre : ι → List α}

def Apart (key pre : ι → List α) (i j : ι) : Prop := ¬ pre i <+: key j ∧ ¬ pre j <+: key i

instance : Std.Symm (Apart key pre) := ⟨fun _ _ h => ⟨h.2, h.1⟩⟩

theorem pairwise_apart {l : List ι} (hsorted : (l.map key).Pairwise (· < ·))
    (hpre : ∀ i ∈ l, pre i <+: key i) (hnext : l.IsChain (Apart key pre)) :
    l.Pairwise (Apart key pre) := by
  induction l with
  | nil => exact .nil
  | cons i l ih =>
    rw [List.map_cons, List.pairwise_cons] at hsorted
    have hrest := ih hsorted.2 (fun j hj => hpre j (.tail _ hj)) hnext.tail
    rw [List.pairwise_cons]
    refine ⟨fun j hj => ?_, hrest⟩
    cases l with
    | nil => simp at hj
    | cons n l =>
      have hin := (List.isChain_cons_cons.mp hnext).1
      have hlt : key i < key n := hsorted.1 _ (by simp)
      cases hj with
      | head => exact hin
      | tail _ hj =>
        -- `n` lies between `i` and `j`.
        have hnj : key n < key j := by
          rw [List.map_cons, List.pairwise_cons] at hsorted
          exact hsorted.2.1 _ (List.mem_map_of_mem hj)
        constructor
        · intro h
          exact hin.1 (prefix_of_between hlt.le hnj.le (hpre i (by simp)) h)
        · intro h
          exact ((List.pairwise_cons.mp hrest).1 j hj).2
            (prefix_of_between hlt.le hnj.le h (hpre j (.tail _ (.tail _ hj))))

end LexPrefix
