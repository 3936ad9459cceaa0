import AdaptiveQF.Insert
import AdaptiveQF.Remove

/-! What the work of a call leaves alone in any state whatsoever: it changes the blocks
and the three counters, nothing else, and most of it only blocks. -/
namespace AdaptiveQF

section
variable {qf qf' : QF}

theorem modifyBlock_frame (qf : QF) (j : Nat) (f : QFBlock → QFBlock) :
    qf.SameFrame (qf.modifyBlock j f) := ⟨rfl, rfl, rfl⟩

theorem modifyBlock_keeps (qf : QF) (j : Nat) (f : QFBlock → QFBlock) :
    qf.Keeps (qf.modifyBlock j f) :=
  .of_sameFrame (modifyBlock_frame qf j f)

theorem modify_if_frame (h : qf.SameFrame qf') (c : Bool) :
    qf.SameFrame (if c then qf' else qf) := by
  cases c
  · exact .refl qf
  · exact h

theorem setSlot_frame {i v : Nat} (h : setSlot qf i v = some qf') : qf.SameFrame qf' := by
  unfold setSlot at h
  split at h
  · rw [← Option.some.inj h]
    exact modifyBlock_frame ..
  · cases h

theorem openSlot_frame {target insert empty v : Nat}
    (h : openSlot qf target insert empty v = some qf') : qf.SameFrame qf' := by
  simp only [openSlot, Option.bind_eq_bind, Option.bind_eq_some_iff] at h
  obtain ⟨q1, h1, h⟩ := h
  have hshift : qf.SameFrame q1 := (sameFrame_shiftRemaindersFrom ..).trans (setSlot_frame h1)
  split at h
  · cases h
  · simp only [shiftRunends, Option.bind_eq_some_iff, Option.ite_none_right_eq_some,
      Option.some.injEq] at h
    obtain ⟨_, ⟨-, rfl⟩, rfl⟩ := h
    exact (hshift.trans (sameFrame_shiftRunendsFrom ..)).trans (sameFrame_bumpOffsets ..)

theorem insertOneSlot_frame {target insert v : Nat} {r : Int}
    (h : insertOneSlot qf target insert v = some (r, qf')) : qf.SameFrame qf' := by
  simp only [insertOneSlot, Option.bind_eq_bind, Option.bind_eq_some_iff] at h
  obtain ⟨e, -, h⟩ := h
  split at h
  · cases h
    exact .refl qf
  · simp only [Option.bind_eq_some_iff, Option.some.injEq, Prod.mk.injEq] at h
    obtain ⟨q1, h1, -, rfl⟩ := h
    exact openSlot_frame h1

theorem insertOneSlot_keeps {target insert v : Nat} {r : Int}
    (h : insertOneSlot qf target insert v = some (r, qf')) : qf.Keeps qf' :=
  .of_sameFrame (insertOneSlot_frame h)

theorem adaptSlot_tally {bucket slot empty countLen digit : Nat}
    (h : adaptSlot qf bucket slot empty countLen digit = some qf') : qf.KeepsTally qf' := by
  unfold adaptSlot at h
  split at h
  · simp only [Option.bind_eq_bind, Option.bind_eq_some_iff, Option.some.injEq] at h
    obtain ⟨q1, h1, rfl⟩ := h
    exact (QF.KeepsTally.of_sameFrame ((openSlot_frame h1).trans (modifyBlock_frame ..))).trans
      (.countSlot _)
  · simp only [Option.bind_eq_bind, Option.bind_eq_some_iff] at h
    obtain ⟨q1, h1, h⟩ := h
    split at h
    · cases h
    · split at h
      · cases h
      · rw [← Option.some.inj h]
        exact .of_sameFrame ((setSlot_frame h1).trans (modifyBlock_frame ..))

theorem adaptLoop_tally {index bucket fuel slotsUsed extBits countLen hash otherHash rh rh' : Nat}
    {r : Int} (h : adaptLoop index bucket fuel qf slotsUsed extBits countLen hash otherHash rh =
      some (r, rh', qf')) : qf.KeepsTally qf' := by
  induction fuel generalizing qf slotsUsed extBits countLen hash otherHash rh with
  | zero => cases h
  | succ fuel ih =>
    simp only [adaptLoop, Option.bind_eq_bind, Option.bind_eq_some_iff] at h
    obtain ⟨e, -, h⟩ := h
    split at h
    · cases h
      exact .refl _
    · simp only [Option.bind_eq_some_iff] at h
      obtain ⟨q1, h1, h⟩ := h
      split at h
      · exact (adaptSlot_tally h1).trans (ih h)
      · cases h
        exact adaptSlot_tally h1

theorem adapt_tally {index bucket hash otherHash rh : Nat} {r : Int}
    (h : adapt qf index bucket hash otherHash = some (r, rh, qf')) : qf.KeepsTally qf' := by
  simp only [adapt, Option.bind_eq_bind, Option.bind_eq_some_iff] at h
  obtain ⟨info, -, slot, -, h⟩ := h
  split at h
  · exact adaptLoop_tally h
  · cases h

theorem putCounters_frame {first n i newCount left : Nat}
    (h : putCounters first n qf i newCount = some (left, qf')) : qf.SameFrame qf' := by
  induction n generalizing qf i newCount with
  | zero =>
    cases h
    exact .refl _
  | succ n ih =>
    simp only [putCounters, Option.bind_eq_bind, Option.bind_eq_some_iff] at h
    obtain ⟨q1, h1, h⟩ := h
    exact (setSlot_frame h1).trans (ih h)

theorem pushCounters_tally {bucket fuel slot newCount : Nat}
    (h : pushCounters bucket fuel qf slot newCount = some qf') : qf.KeepsTally qf' := by
  induction fuel generalizing qf slot newCount with
  | zero => cases h
  | succ fuel ih =>
    unfold pushCounters at h
    split at h
    · simp only [Option.bind_eq_bind, Option.bind_eq_some_iff, Prod.exists] at h
      obtain ⟨_, q1, h1, h⟩ := h
      have hbits : q1.KeepsTally (orRunend (orExtension q1 slot) slot).countSlot :=
        ⟨_, rfl, rfl, rfl⟩
      exact ((QF.KeepsTally.of_sameFrame (insertOneSlot_frame h1)).trans hbits).trans (ih h)
    · rw [← Option.some.inj h]
      exact .refl qf

theorem extendSame_tally {index hash count : Nat}
    (h : extendSame qf index hash count = some qf') :
    ∃ q, qf.KeepsTally q ∧ qf' = q.countElts count := by
  simp only [extendSame, Option.bind_eq_bind, Option.bind_eq_some_iff, Prod.exists,
    Option.some.injEq] at h
  obtain ⟨info, -, left, q1, h1, q2, h2, rfl⟩ := h
  exact ⟨q2, (QF.KeepsTally.of_sameFrame (putCounters_frame h1)).trans (pushCounters_tally h2), rfl⟩

theorem extendSame_keeps {index hash count : Nat}
    (h : extendSame qf index hash count = some qf') : qf.Keeps qf' := by
  obtain ⟨q, hq, rfl⟩ := extendSame_tally h
  exact hq.keeps.trans (.setCounts ..)

theorem extendRest_keeps {α : Type} {index hash count : Nat} {f : QF → Option α} {a : α}
    (h : (if count > 1 then (extendSame qf index hash (count-1)).bind f else (some qf).bind f) =
      some a) : ∃ q, qf.Keeps q ∧ f q = some a := by
  split at h
  · obtain ⟨q, h1, h2⟩ := Option.bind_eq_some_iff.mp h
    exact ⟨q, extendSame_keeps h1, h2⟩
  · exact ⟨qf, .refl qf, h⟩

theorem extendOther_keeps {index hash count otherHash flags : Nat} {ret : ExtendRet}
    (h : extendOther qf index hash count otherHash flags = some (ret, qf')) : qf.Keeps qf' := by
  simp only [extendOther, Option.bind_eq_bind, Option.bind_eq_some_iff, Prod.exists] at h
  obtain ⟨_, _, q1, h1, _, q2, h2, _, _, q3, h3, h⟩ := h
  obtain ⟨q4, h4, h⟩ := extendRest_keeps h
  cases h
  have hitem := ((adapt_tally h1).keeps.trans (insertOneSlot_keeps h2)).trans (adapt_tally h3).keeps
  exact (hitem.trans (.setCounts ..)).trans h4

theorem putItem_keeps {bucket remainder n : Nat} {place : Placement}
    (h : putItem qf bucket remainder n place = some qf') : qf.Keeps qf' := by
  cases place with
  | home =>
    simp only [putItem, Option.bind_eq_bind, Option.bind_eq_some_iff, Option.some.injEq] at h
    obtain ⟨q1, h1, rfl⟩ := h
    exact (QF.Keeps.of_sameFrame (setSlot_frame h1)).trans ⟨_, _, _, rfl, rfl, rfl⟩
  | first index =>
    simp only [putItem, Option.bind_eq_bind, Option.bind_eq_some_iff, Prod.exists,
      Option.some.injEq] at h
    obtain ⟨_, q1, h1, rfl⟩ := h
    exact (insertOneSlot_keeps h1).trans ⟨_, _, _, rfl, rfl, rfl⟩
  | inRun insertIndex currentIndex wasRunend =>
    simp only [putItem, Option.bind_eq_bind, Option.bind_eq_some_iff, Prod.exists,
      Option.some.injEq] at h
    obtain ⟨_, q1, h1, rfl⟩ := h
    cases wasRunend <;> exact (insertOneSlot_keeps h1).trans ⟨_, _, _, rfl, rfl, rfl⟩
  | matched _ _ =>
    cases h
    exact .refl _
  | endOfFilter _ =>
    cases h
    exact .refl _

theorem insertWork_keeps {hash count flags : Nat} {out : InsertOut} {r : Int × InsertOut}
    (h : insertWork hash count out flags qf = some (r, qf')) : qf.Keeps qf' := by
  simp only [insertWork, Option.bind_eq_bind, Option.bind_eq_some_iff] at h
  obtain ⟨place, -, q1, h1, h⟩ := h
  have hput := putItem_keeps h1
  cases place with
  | matched index info =>
    cases h
    exact hput
  | endOfFilter last => cases last <;> cases h <;> exact hput
  | home =>
    obtain ⟨q2, h2, h⟩ := extendRest_keeps h
    cases h
    exact hput.trans h2
  | first index =>
    obtain ⟨q2, h2, h⟩ := extendRest_keeps h
    cases h
    exact hput.trans h2
  | inRun insertIndex currentIndex wasRunend =>
    obtain ⟨q2, h2, h⟩ := extendRest_keeps h
    cases h
    exact hput.trans h2

theorem insertUsingLlTableWork_keeps {result : InsertResult} {count : Nat}
    {r : Int × InsertResult} (h : insertUsingLlTableWork result count qf = some (r, qf')) :
    qf.Keeps qf' := by
  simp only [insertUsingLlTableWork, Option.bind_eq_bind, Option.bind_eq_some_iff,
    Prod.exists] at h
  obtain ⟨place, -, rank, existed, -, q1, h1, h⟩ := h
  have hput := putItem_keeps h1
  cases place with
  | endOfFilter last =>
    cases h
    exact hput
  | matched index info =>
    obtain ⟨q2, h2, h⟩ := extendRest_keeps h
    cases h
    exact hput.trans h2
  | home =>
    obtain ⟨q2, h2, h⟩ := extendRest_keeps h
    cases h
    exact hput.trans h2
  | first index =>
    obtain ⟨q2, h2, h⟩ := extendRest_keeps h
    cases h
    exact hput.trans h2
  | inRun insertIndex currentIndex wasRunend =>
    obtain ⟨q2, h2, h⟩ := extendRest_keeps h
    cases h
    exact hput.trans h2

theorem copyBack_frame {i : Nat} (h : copyBack qf i = some qf') : qf.SameFrame qf' := by
  simp only [copyBack, Option.bind_eq_bind, Option.bind_eq_some_iff, Option.some.injEq] at h
  obtain ⟨value, -, q1, h1, rfl⟩ := h
  have hrunend := modify_if_frame (show q1.SameFrame (xorRunend q1 i) from modifyBlock_frame ..)
    (isRunendOrCounter q1 i != isRunendOrCounter q1 (i+1))
  exact ((setSlot_frame h1).trans hrunend).trans (modify_if_frame (modifyBlock_frame _ ..) _)

theorem moveSlotsBack_frame {i n : Nat} (h : moveSlotsBack i n qf = some qf') :
    qf.SameFrame qf' := by
  induction n generalizing qf i with
  | zero =>
    cases h
    exact .refl _
  | succ n ih =>
    obtain ⟨q1, h1, h2⟩ := Option.bind_eq_some_iff.mp h
    exact (copyBack_frame h1).trans (ih h2)

theorem removeSlot_frame {wasRunend : Bool} {bucket overwrite : Nat}
    (h : removeSlot wasRunend bucket overwrite qf = some qf') : qf.SameFrame qf' := by
  have hrest : ∀ {slot : Nat}, ((skipTail qf slot).bind fun slot =>
      (clusterEnd qf qf.fuel (nextOccupied qf bucket slot) slot).bind fun slot =>
        (moveSlotsBack overwrite (slot - overwrite) qf).bind fun qf =>
          (setSlot qf slot 0).bind fun qf => some (clearExtension (clearRunend qf slot) slot)) =
      some qf' → qf.SameFrame qf' := by
    intro slot h
    simp only [Option.bind_eq_some_iff, Option.some.injEq] at h
    obtain ⟨_, -, _, -, q1, h1, q2, h2, rfl⟩ := h
    exact ((moveSlotsBack_frame h1).trans (setSlot_frame h2)).trans ⟨rfl, rfl, rfl⟩
  simp only [removeSlot, Option.bind_eq_bind] at h
  split at h
  · exact hrest h
  · obtain ⟨slot, -, h⟩ := Option.bind_eq_some_iff.mp h
    exact hrest h

theorem removeSlots_frame {wasRunend : Bool} {bucket overwrite n : Nat}
    (h : removeSlots wasRunend bucket overwrite n qf = some qf') : qf.SameFrame qf' := by
  induction n generalizing qf with
  | zero =>
    cases h
    exact .refl _
  | succ n ih =>
    obtain ⟨q1, h1, h2⟩ := Option.bind_eq_some_iff.mp h
    exact (removeSlot_frame h1).trans (ih h2)

theorem repairOffsets_frame {fuel block : Nat} (h : repairOffsets fuel block qf = some qf') :
    qf.SameFrame qf' := by
  induction fuel generalizing qf block with
  | zero => cases h
  | succ fuel ih =>
    simp only [repairOffsets, Option.bind_eq_bind, Option.bind_eq_some_iff] at h
    obtain ⟨runend, -, h⟩ := h
    generalize (if runend / 64 = block then 0 else runend - (64 * block + 63)) = offset at h
    split at h
    · cases h
    · split at h
      · rw [← Option.some.inj h]
        exact .refl _
      · exact (modifyBlock_frame ..).trans (ih h)

theorem newRunend_frame {overwrite : Nat} (h : newRunend qf overwrite = some qf') :
    qf.SameFrame qf' := by
  unfold newRunend at h
  split at h
  · cases h
  · obtain ⟨i, -, rfl⟩ := Option.map_eq_some_iff.mp h
    exact modifyBlock_frame ..

theorem removeReplaceSlots_frame {only : Bool} {bucket overwrite length : Nat}
    (h : removeReplaceSlots qf only bucket overwrite length = some qf') : qf.SameFrame qf' := by
  simp only [removeReplaceSlots, Option.bind_eq_bind, Option.bind_eq_some_iff] at h
  obtain ⟨q1, h1, q2, h2, h⟩ := h
  have hend : qf.SameFrame q1 := by
    split at h1
    · exact newRunend_frame h1
    · rw [← Option.some.inj h1]
      exact .refl qf
  have hclear : q2.SameFrame (if only then clearOccupied q2 bucket else q2) :=
    modify_if_frame (modifyBlock_frame q2 ..) only
  have hremoved := (hend.trans (removeSlots_frame h2)).trans hclear
  split at h
  · exact hremoved.trans (repairOffsets_frame h)
  · rw [← Option.some.inj h]
    exact hremoved

theorem removeWork_keeps {hash : Nat} {out : RemoveOut} {r : Int × RemoveOut}
    (h : removeWork hash out qf = some (r, qf')) : qf.Keeps qf' := by
  simp only [removeWork, Option.bind_eq_bind, Option.bind_eq_some_iff] at h
  obtain ⟨_, -, _, -, scan, -, h⟩ := h
  split at h
  · simp only [Option.bind_eq_some_iff, Option.some.injEq, Prod.mk.injEq] at h
    obtain ⟨q1, h1, -, rfl⟩ := h
    exact (QF.Keeps.of_sameFrame (removeReplaceSlots_frame h1)).trans (.setCounts ..)
  · cases h
    exact .refl qf

end

end AdaptiveQF
