import AdaptiveQF.Frame
import AdaptiveQF.Resize

/-! Which calls give back the locks they take. -/
namespace AdaptiveQF

inductive UpdateCall
  | insertRet (key count : Nat) (out : InsertOut) (flags : Nat)
  | insertUsingLlTable (key count : Nat) (result : InsertResult) (flags : Nat)
  | insertAndExtend (index key count otherKey retHash retOtherHash flags : Nat)
  | remove (key : Nat) (out : RemoveOut) (flags : Nat)

def UpdateCall.run (blocks : Nat → QFBlock) (qfi : QFi) (qf : QF) : UpdateCall → Option QF
  | insertRet key count out flags =>
    (qfInsertRet (qfResizeMalloc blocks qfi) qf key count out flags).map (·.2)
  | insertUsingLlTable key count result flags =>
    (qfInsertUsingLlTable (qfResizeMalloc blocks qfi) qf key count result flags).map (·.2)
  | insertAndExtend index key count otherKey retHash retOtherHash flags =>
    (AdaptiveQF.insertAndExtend qf index key count otherKey retHash retOtherHash flags).map (·.2)
  | remove key out flags => (qfRemove qf key out flags).map (·.2)

/-- The locks are as before: no lock was held when the filter was replaced by a larger one, and a
bucket to remove from is not empty, unless its locks were not asked for or not all free. -/
def UpdateCall.Balanced (qf : QF) : UpdateCall → Prop
  | insertRet _ _ _ _ | insertUsingLlTable _ _ _ _ =>
    full qf = true → qf.autoResize = true → qf.locks = fun _ => false
  | insertAndExtend _ _ _ _ _ _ _ => True
  | remove key _ flags =>
    let bucket := hashBucketIndex qf (keyToHash qf key flags)
    hasFlag flags QF_NO_LOCK = true ∨ isOccupied qf bucket = true ∨
      ∃ k ∈ lockRegions bucket false, qf.locks k = true

section
variable {qf qf' : QF} {blocks : Nat → QFBlock} {qfi : QFi}

theorem ResizeState.openRun_locks (s : ResizeState) (run : Nat) :
    (s.openRun run).newQf.locks = s.newQf.locks := by
  unfold ResizeState.openRun
  cases s.lastIndex <;> rfl

theorem resizeLoop_locks {it : QFiItem} {fuel : Nat} {s s' : ResizeState}
    (h : resizeLoop qfi it fuel s = some s') : s'.newQf.locks = s.newQf.locks := by
  induction fuel generalizing s with
  | zero => cases h
  | succ fuel ih =>
    unfold resizeLoop at h
    split at h
    · rw [← Option.some.inj h]
    · simp only [Option.bind_eq_bind, Option.bind_eq_some_iff, Prod.exists] at h
      obtain ⟨_, _, -, h⟩ := h
      have hloop := ih h
      split at hloop
      · exact hloop.trans (s.openRun_locks qfi.run)
      · exact hloop

/-- The locks of the larger filter are new ones. -/
theorem qfResizeMalloc_locks {nslots : Nat} {r : Int} (hn : qf.metadata.nslots ≤ nslots)
    (h : qfResizeMalloc blocks qfi qf nslots = some (r, qf')) :
    r = 1 ∧ qf'.locks = fun _ => false := by
  unfold qfResizeMalloc at h
  rw [if_neg (by omega)] at h
  simp only [Option.bind_eq_bind, Option.bind_eq_some_iff, Prod.exists] at h
  obtain ⟨newQf, h1, _, q, -, _, it, -, s, h2, h3⟩ := h
  have hnew : newQf.locks = fun _ => false := (qfInit_fields h1).2.2.1
  cases h3
  refine ⟨rfl, (resizeLoop_locks h2).trans ?_⟩
  split <;> split <;> exact hnew

theorem checkLoad_locks {ok : Bool}
    (h : checkLoad (qfResizeMalloc blocks qfi) qf = some (ok, qf')) : qf'.locks = qf.locks ↔
      (full qf = true → qf.autoResize = true → qf.locks = fun _ => false) := by
  unfold checkLoad at h
  cases hf : full qf with
  | false =>
    rw [hf] at h
    cases h
    simp
  | true =>
    cases ha : qf.autoResize with
    | false =>
      rw [hf, ha] at h
      cases h
      simp
    | true =>
      rw [hf, ha] at h
      simp only [if_true, Option.bind_eq_bind, Option.bind_eq_some_iff, Prod.exists,
        Option.some.injEq, Prod.mk.injEq] at h
      obtain ⟨r, q, hresize, -, rfl⟩ := h
      rw [(qfResizeMalloc_locks (by omega) hresize).2]
      simp [eq_comm]

theorem qfInsertRet_locks {resize : QF → Nat → Option (Int × QF)} {key count flags : Nat}
    {out : InsertOut} {r : Int × InsertOut}
    (h : qfInsertRet resize qf key count out flags = some (r, qf')) :
    ∃ ok q, checkLoad resize qf = some (ok, q) ∧ qf'.locks = q.locks := by
  simp only [qfInsertRet, Option.bind_eq_bind, Option.bind_eq_some_iff, Prod.exists] at h
  obtain ⟨ok, q, hload, h⟩ := h
  refine ⟨ok, q, hload, ?_⟩
  split at h
  · cases h
    rfl
  · split at h
    · cases h
      rfl
    · exact withLock_locks (fun _ _ hw => (insertWork_keeps hw).locks) h

theorem qfInsertUsingLlTable_locks {resize : QF → Nat → Option (Int × QF)}
    {key count flags : Nat} {result : InsertResult} {r : Int × InsertResult}
    (h : qfInsertUsingLlTable resize qf key count result flags = some (r, qf')) :
    ∃ ok q, checkLoad resize qf = some (ok, q) ∧ qf'.locks = q.locks := by
  simp only [qfInsertUsingLlTable, Option.bind_eq_bind, Option.bind_eq_some_iff, Prod.exists] at h
  obtain ⟨ok, q, hload, h⟩ := h
  refine ⟨ok, q, hload, ?_⟩
  split at h
  · cases h
    rfl
  · split at h
    · cases h
      rfl
    · exact withLock_locks (fun _ _ hw => (insertUsingLlTableWork_keeps hw).locks) h

theorem insertAndExtend_locks {index key count otherKey retHash retOtherHash flags : Nat}
    {ret : ExtendRet} (h : insertAndExtend qf index key count otherKey retHash retOtherHash flags =
      some (ret, qf')) : qf'.locks = qf.locks := by
  refine withLock_locks (fun r q hw => ?_) h
  dsimp only at hw
  split at hw
  · cases hw
  · split at hw
    · simp only [Option.bind_eq_bind, Option.bind_eq_some_iff, Option.some.injEq,
        Prod.mk.injEq] at hw
      obtain ⟨q1, h1, -, rfl⟩ := hw
      exact (extendSame_keeps h1).locks
    · exact (extendOther_keeps hw).locks

/-- `_remove` for an empty bucket keeps the locks it got. -/
theorem remove_locks {hash flags : Nat} {out : RemoveOut} {r : Int × RemoveOut}
    (h : remove qf hash out flags = some (r, qf')) : qf'.locks = qf.locks ↔
      hasFlag flags QF_NO_LOCK = true ∨ isOccupied qf (hashBucketIndex qf hash) = true ∨
        ∃ k ∈ lockRegions (hashBucketIndex qf hash) false, qf.locks k = true := by
  unfold remove at h
  cases hocc : isOccupied qf (hashBucketIndex qf hash) with
  | true =>
    simp only [hocc, if_true] at h
    simp [withLock_locks (fun _ _ hw => (removeWork_keeps hw).locks) h]
  | false =>
    simp only [hocc, Bool.false_eq_true, if_false] at h
    cases hno : hasFlag flags QF_NO_LOCK with
    | true =>
      rw [hno] at h
      cases h
      simp
    | false =>
      simp only [hno, Bool.false_eq_true, if_false, Option.bind_eq_bind] at h
      simp only [Bool.false_eq_true, false_or]
      by_cases hheld : ∃ k ∈ lockRegions (hashBucketIndex qf hash) false, qf.locks k = true
      · rw [qfLock_eq] at h
        cases takeLocks_held hheld flags with
        | inl hnone =>
          rw [hnone] at h
          cases h
        | inr hfail =>
          rw [hfail] at h
          cases h
          simp [hheld]
      · have hfree : ∀ k ∈ lockRegions (hashBucketIndex qf hash) false, qf.locks k = false := by
          simpa using hheld
        rw [qfLock_free hfree] at h
        cases h
        simp only [hheld, iff_false]
        intro hsame
        have hmem : hashBucketIndex qf hash / NUM_SLOTS_TO_LOCK ∈
            lockRegions (hashBucketIndex qf hash) false := by
          simp only [lockRegions, Bool.false_eq_true, if_false]
          split <;> simp
        have hheld := congrFun hsame (hashBucketIndex qf hash / NUM_SLOTS_TO_LOCK)
        simp [QF.withLocks, hmem, hfree _ hmem] at hheld

/-- In every state, a call that returns leaves the locks as they were exactly when it is
balanced. -/
theorem lock_balance_iff (blocks : Nat → QFBlock) (qfi : QFi) (qf : QF) (call : UpdateCall)
    (qf' : QF) (h : call.run blocks qfi qf = some qf') :
    qf'.locks = qf.locks ↔ call.Balanced qf := by
  cases call with
  | insertRet key count out flags =>
    obtain ⟨⟨r, _⟩, hcall, rfl⟩ := Option.map_eq_some_iff.mp h
    obtain ⟨ok, q, hload, hlocks⟩ := qfInsertRet_locks hcall
    rw [hlocks]
    exact checkLoad_locks hload
  | insertUsingLlTable key count result flags =>
    obtain ⟨⟨r, _⟩, hcall, rfl⟩ := Option.map_eq_some_iff.mp h
    obtain ⟨ok, q, hload, hlocks⟩ := qfInsertUsingLlTable_locks hcall
    rw [hlocks]
    exact checkLoad_locks hload
  | insertAndExtend index key count otherKey retHash retOtherHash flags =>
    obtain ⟨⟨r, _⟩, hcall, rfl⟩ := Option.map_eq_some_iff.mp h
    exact iff_of_true (insertAndExtend_locks hcall) trivial
  | remove key out flags =>
    obtain ⟨⟨r, _⟩, hcall, rfl⟩ := Option.map_eq_some_iff.mp h
    exact remove_locks hcall

def leakedLocks (m : QFMetadata) : QF :=
  (QF.zero m).withLocks fun k => decide (k ∈ lockRegions 0 false) || false

theorem leakedLocks_run (blocks : Nat → QFBlock) (qfi : QFi) :
    (UpdateCall.remove 0 ⟨0, 0⟩ QF_KEY_IS_HASH).run blocks qfi (QF.zero resizeMetadata) =
      some (leakedLocks resizeMetadata) := by
  have hbucket : hashBucketIndex (QF.zero resizeMetadata)
      (keyToHash (QF.zero resizeMetadata) 0 QF_KEY_IS_HASH) = 0 := by decide
  have hocc : isOccupied (QF.zero resizeMetadata) 0 = false := rfl
  have hno : hasFlag QF_KEY_IS_HASH QF_NO_LOCK = false := by decide
  have hlock : qfLock (QF.zero resizeMetadata) 0 false QF_KEY_IS_HASH =
      some (true, leakedLocks resizeMetadata) := qfLock_free (fun _ _ => rfl) _
  simp only [UpdateCall.run, qfRemove, remove, hbucket, hocc, hno, hlock, Bool.false_eq_true,
    if_false, if_true, Option.bind_eq_bind, Option.bind_some, Option.map_some]

theorem lock_balance_iff_leaked :
    (leakedLocks resizeMetadata).locks = (QF.zero resizeMetadata).locks ↔
      (UpdateCall.remove 0 ⟨0, 0⟩ QF_KEY_IS_HASH).Balanced (QF.zero resizeMetadata) :=
  lock_balance_iff (fun _ => QFBlock.zero) ⟨0, 0⟩ _ _ _ (leakedLocks_run _ _)

theorem lock_balance_fails : ¬ ∀ qf', (UpdateCall.remove 0 ⟨0, 0⟩ QF_KEY_IS_HASH).run
    (fun _ => QFBlock.zero) ⟨0, 0⟩ (QF.zero resizeMetadata) = some qf' →
      qf'.locks = (QF.zero resizeMetadata).locks := by
  intro h
  have hsame := congrFun (h _ (leakedLocks_run _ _)) 0
  exact absurd hsame (by decide)

end

end AdaptiveQF
