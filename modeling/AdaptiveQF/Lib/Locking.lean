import Mathlib.Data.List.Basic
import Mathlib.Logic.Function.Basic
import Mathlib.Order.WellFounded
import Mathlib.Data.Fintype.EquivFin

/-! Locks that are cells of memory: a cell is set while one thread holds its lock. -/
namespace Locking

variable {ι κ : Type*} {locks : κ → Bool} {held : ι → List κ}

structure Exclusive (locks : κ → Bool) (held : ι → List κ) : Prop where
  taken : ∀ k, locks k = true ↔ ∃ t, k ∈ held t
  apart : ∀ t u k, k ∈ held t → k ∈ held u → t = u
  nodup : ∀ t, (held t).Nodup

namespace Exclusive

theorem idle (h : ∀ t, held t = []) : Exclusive (fun _ => false) held where
  taken k := by simp [h]
  apart t u k hk := by simp [h] at hk
  nodup t := by simp [h]

theorem not_mem (h : Exclusive locks held) {k : κ} (hk : locks k = false) (t : ι) : k ∉ held t := by
  intro hmem
  rw [(h.taken k).mpr ⟨t, hmem⟩] at hk
  cases hk

theorem disjoint (h : Exclusive locks held) {t u : ι} (hne : t ≠ u) :
    List.Disjoint (held t) (held u) := fun k ht hu => hne (h.apart t u k ht hu)

theorem quiet (h : Exclusive locks held) (hall : ∀ t, held t = []) : locks = fun _ => false := by
  funext k
  cases hk : locks k with
  | false => rfl
  | true =>
    obtain ⟨t, ht⟩ := (h.taken k).mp hk
    simp [hall t] at ht

variable [DecidableEq ι] [DecidableEq κ]

theorem acquire (h : Exclusive locks held) {k : κ} (hk : locks k = false) (t : ι) :
    Exclusive (Function.update locks k true) (Function.update held t (k :: held t)) := by
  have hmem : ∀ u j, j ∈ Function.update held t (k :: held t) u ↔ (u = t ∧ j = k) ∨ j ∈ held u := by
    intro u j
    by_cases hu : u = t
    · subst hu
      simp
    · simp [hu]
  refine ⟨fun j => ?_, fun u v j hu hv => ?_, fun u => ?_⟩
  · simp only [hmem]
    by_cases hj : j = k
    · subst hj
      rw [Function.update_self]
      exact iff_of_true rfl ⟨t, .inl ⟨rfl, rfl⟩⟩
    · rw [Function.update_of_ne hj, h.taken j]
      simp [hj]
  · rw [hmem] at hu hv
    cases hu with
    | inl hu =>
      cases hv with
      | inl hv => exact hu.1.trans hv.1.symm
      | inr hv => exact absurd (hu.2 ▸ hv) (h.not_mem hk v)
    | inr hu =>
      cases hv with
      | inl hv => exact absurd (hv.2 ▸ hu) (h.not_mem hk u)
      | inr hv => exact h.apart u v j hu hv
  · by_cases hu : u = t
    · subst hu
      rw [Function.update_self]
      exact List.nodup_cons.mpr ⟨h.not_mem hk u, h.nodup u⟩
    · rw [Function.update_of_ne hu]
      exact h.nodup u

theorem release (h : Exclusive locks held) {t : ι} {k : κ} {l : List κ} (ht : held t = k :: l) :
    Exclusive (Function.update locks k false) (Function.update held t l) := by
  have hnd : k ∉ l ∧ l.Nodup := List.nodup_cons.mp (ht ▸ h.nodup t)
  have hmem : ∀ u j, j ∈ Function.update held t l u ↔ j ∈ held u ∧ j ≠ k := by
    intro u j
    by_cases hu : u = t
    · subst hu
      rw [Function.update_self, ht, List.mem_cons]
      constructor
      · exact fun hj => ⟨.inr hj, fun he => hnd.1 (he ▸ hj)⟩
      · exact fun hj => hj.1.resolve_left hj.2
    · rw [Function.update_of_ne hu]
      exact ⟨fun hj => ⟨hj, fun he => hu (h.apart u t k (he ▸ hj) (by simp [ht]))⟩, And.left⟩
  refine ⟨fun j => ?_, fun u v j hu hv => ?_, fun u => ?_⟩
  · simp only [hmem]
    by_cases hj : j = k
    · subst hj
      simp
    · rw [Function.update_of_ne hj, h.taken j]
      simp [hj]
  · exact h.apart u v j ((hmem u j).mp hu).1 ((hmem v j).mp hv).1
  · by_cases hu : u = t
    · subst hu
      rw [Function.update_self]
      exact hnd.2
    · rw [Function.update_of_ne hu]
      exact h.nodup u

end Exclusive

/-- Threads that wait only for locks above all those they hold: the holders of the locks lead from
each thread to one that does not wait. -/
theorem exists_not_waiting [Finite ι] [Preorder κ] {waits : ι → Option κ}
    (hord : ∀ t k, waits t = some k → ∀ j ∈ held t, j < k)
    (hheld : ∀ t k, waits t = some k → ∃ u, k ∈ held u) (t : ι) :
    ∃ u, waits u = none ∧ (u = t ∨ held u ≠ []) := by
  let below (u t : ι) : Prop := ∃ j k, waits t = some j ∧ waits u = some k ∧ j < k
  have htrans : IsTrans ι below := by
    refine ⟨?_⟩
    intro u v w huv hvw
    obtain ⟨j, k, hv, hu, hjk⟩ := huv
    obtain ⟨i, j2, hw, hv2, hij⟩ := hvw
    obtain rfl : j = j2 := Option.some.inj (hv.symm.trans hv2)
    exact ⟨i, k, hw, hu, hij.trans hjk⟩
  have hirrefl : Std.Irrefl below := by
    refine ⟨?_⟩
    intro u hu
    obtain ⟨j, k, hj, hk, hjk⟩ := hu
    obtain rfl : j = k := Option.some.inj (hj.symm.trans hk)
    exact lt_irrefl _ hjk
  have hwf : WellFounded below := Finite.wellFounded_of_trans_of_irrefl below
  induction t using hwf.induction with
  | _ t ih =>
    cases hw : waits t with
    | none => exact ⟨t, hw, .inl rfl⟩
    | some k =>
      obtain ⟨u, hu⟩ := hheld t k hw
      cases hwu : waits u with
      | none => exact ⟨u, hwu, .inr (List.ne_nil_of_mem hu)⟩
      | some j =>
        obtain ⟨v, hv, hor⟩ := ih u ⟨k, j, hw, hwu, hord u j hwu k hu⟩
        cases hor with
        | inl he => rw [he, hwu] at hv; cases hv
        | inr hne => exact ⟨v, hv, .inr hne⟩

end Locking
