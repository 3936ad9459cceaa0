import AdaptiveQF.Frame

/-! What the work of a call adds to `nelts` and `ndistinct_elts`, in any state whatsoever. -/
namespace AdaptiveQF

structure QF.Tallied (qf : QF) (n d : Nat) (qf' : QF) : Prop where
  nelts : qf.metadata.nelts + n < 2^64 → qf'.metadata.nelts = qf.metadata.nelts + n
  ndistinctElts : qf.metadata.ndistinctElts + d < 2^64 →
    qf'.metadata.ndistinctElts = qf.metadata.ndistinctElts + d

namespace QF.Tallied

variable {a b c : QF}

theorem trans {n1 d1 n2 d2 : Nat} (h1 : a.Tallied n1 d1 b) (h2 : b.Tallied n2 d2 c) :
    a.Tallied (n1 + n2) (d1 + d2) c := by
  constructor
  · intro hlt
    have hb := h1.nelts (by omega)
    have hc := h2.nelts (by omega)
    omega
  · intro hlt
    have hb := h1.ndistinctElts (by omega)
    have hc := h2.ndistinctElts (by omega)
    omega

theorem of_keepsTally (h : a.KeepsTally b) : a.Tallied 0 0 b :=
  ⟨fun _ => h.nelts, fun _ => h.ndistinctElts⟩

theorem of_sameFrame (h : a.SameFrame b) : a.Tallied 0 0 b := of_keepsTally (.of_sameFrame h)

theorem countItem (a : QF) (n : Nat) : a.Tallied n 1 (a.countItem n) :=
  ⟨fun hlt => Nat.mod_eq_of_lt hlt, fun hlt => Nat.mod_eq_of_lt hlt⟩

theorem countElts (a : QF) (n : Nat) : a.Tallied n 0 (a.countElts n) :=
  ⟨fun hlt => Nat.mod_eq_of_lt hlt, fun _ => rfl⟩

end QF.Tallied

section
variable {qf qf' : QF}

theorem extendSame_tallied {index hash count : Nat}
    (h : extendSame qf index hash count = some qf') : qf.Tallied count 0 qf' := by
  obtain ⟨q, hq, rfl⟩ := extendSame_tally h
  have hadd := (QF.Tallied.of_keepsTally hq).trans (.countElts q count)
  rw [Nat.zero_add] at hadd
  exact hadd

theorem extendRest_tallied {α : Type} {index hash count : Nat} {f : QF → Option α} {a : α}
    (h : (if count > 1 then (extendSame qf index hash (count-1)).bind f else (some qf).bind f) =
      some a) : ∃ q, qf.Tallied (count-1) 0 q ∧ f q = some a := by
  split at h
  · obtain ⟨q, h1, h2⟩ := Option.bind_eq_some_iff.mp h
    exact ⟨q, extendSame_tallied h1, h2⟩
  · have hzero : count - 1 = 0 := by omega
    rw [hzero]
    exact ⟨qf, .of_sameFrame (.refl qf), h⟩

theorem putItem_tallied {bucket remainder n : Nat} {place : Placement}
    (h : putItem qf bucket remainder n place = some qf') (hm : ∀ i info, place ≠ .matched i info)
    (he : ∀ last, place ≠ .endOfFilter last) : qf.Tallied (place.elts n) 1 qf' := by
  cases place with
  | home =>
    simp only [putItem, Option.bind_eq_bind, Option.bind_eq_some_iff, Option.some.injEq] at h
    obtain ⟨q1, h1, rfl⟩ := h
    have hput : qf.SameFrame (orOccupied (orRunend q1 bucket) bucket) :=
      (setSlot_frame h1).trans ⟨rfl, rfl, rfl⟩
    have hadd := (QF.Tallied.of_sameFrame hput).trans (.countItem _ 1)
    rw [Nat.zero_add] at hadd
    exact hadd
  | first index =>
    simp only [putItem, Option.bind_eq_bind, Option.bind_eq_some_iff, Prod.exists,
      Option.some.injEq] at h
    obtain ⟨_, q1, h1, rfl⟩ := h
    have hput : qf.SameFrame (orOccupied (orRunend q1 index) bucket) :=
      (insertOneSlot_frame h1).trans ⟨rfl, rfl, rfl⟩
    have hadd := (QF.Tallied.of_sameFrame hput).trans (.countItem _ 1)
    rw [Nat.zero_add] at hadd
    exact hadd
  | inRun insertIndex currentIndex wasRunend =>
    simp only [putItem, Option.bind_eq_bind, Option.bind_eq_some_iff, Prod.exists,
      Option.some.injEq] at h
    obtain ⟨_, q1, h1, rfl⟩ := h
    have hput : qf.SameFrame
        (if wasRunend then xorRunend (orRunend q1 insertIndex) currentIndex else q1) :=
      (insertOneSlot_frame h1).trans (modify_if_frame (show q1.SameFrame
        (xorRunend (orRunend q1 insertIndex) currentIndex) from ⟨rfl, rfl, rfl⟩) wasRunend)
    have hadd := (QF.Tallied.of_sameFrame hput).trans (.countItem _ n)
    rw [Nat.zero_add] at hadd
    exact hadd
  | matched i info => exact absurd rfl (hm i info)
  | endOfFilter last => exact absurd rfl (he last)

/-- `qf_insert_ret` that reports 1 has counted the item. -/
theorem insertWork_tallied {hash count flags : Nat} {out out' : InsertOut}
    (h : insertWork hash count out flags qf = some ((1, out'), qf')) (hc : 0 < count) :
    qf.Tallied count 1 qf' := by
  simp only [insertWork, Option.bind_eq_bind, Option.bind_eq_some_iff] at h
  obtain ⟨place, -, q1, h1, h⟩ := h
  have hcount : 1 + (count - 1) = count := by omega
  cases place with
  | matched index info => cases h
  | endOfFilter last => cases last <;> cases h
  | home =>
    obtain ⟨q2, h2, h⟩ := extendRest_tallied h
    cases h
    have hsum := (putItem_tallied h1 (by simp) (by simp)).trans h2
    exact hcount ▸ hsum
  | first index =>
    obtain ⟨q2, h2, h⟩ := extendRest_tallied h
    cases h
    have hsum := (putItem_tallied h1 (by simp) (by simp)).trans h2
    exact hcount ▸ hsum
  | inRun insertIndex currentIndex wasRunend =>
    obtain ⟨q2, h2, h⟩ := extendRest_tallied h
    cases h
    have hsum := (putItem_tallied h1 (by simp) (by simp)).trans h2
    exact hcount ▸ hsum

/-- `qf_insert_using_ll_table` counts the rest of a count twice in a bucket that is not empty. -/
theorem insertUsingLlTableWork_tallied {result result' : InsertResult} {count : Nat}
    {place : Placement} (h : insertUsingLlTableWork result count qf = some ((0, result'), qf'))
    (hp : locateLl qf result.hash = some place) (hm : ∀ i info, place ≠ .matched i info)
    (he : ∀ last, place ≠ .endOfFilter last) :
    qf.Tallied (place.elts count + (count - 1)) 1 qf' := by
  simp only [insertUsingLlTableWork, Option.bind_eq_bind, Option.bind_eq_some_iff,
    Prod.exists] at h
  obtain ⟨place2, hp2, rank, existed, -, q1, h1, h⟩ := h
  obtain rfl : place = place2 := Option.some.inj (hp.symm.trans hp2)
  have hput := putItem_tallied h1 hm he
  cases place with
  | matched index info => exact absurd rfl (hm index info)
  | endOfFilter last => exact absurd rfl (he last)
  | home =>
    obtain ⟨q2, h2, h⟩ := extendRest_tallied h
    cases h
    exact hput.trans h2
  | first index =>
    obtain ⟨q2, h2, h⟩ := extendRest_tallied h
    cases h
    exact hput.trans h2
  | inRun insertIndex currentIndex wasRunend =>
    obtain ⟨q2, h2, h⟩ := extendRest_tallied h
    cases h
    exact hput.trans h2

end

end AdaptiveQF
