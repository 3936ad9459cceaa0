import AdaptiveQF.Block

/-! Flags and locks. One thread runs: a lock it has to wait for is never released. -/
namespace AdaptiveQF

def QF_NO_LOCK : Nat := 1
def QF_TRY_ONCE_LOCK : Nat := 2
def QF_WAIT_FOR_LOCK : Nat := 4
def QF_KEY_IS_HASH : Nat := 8

def hasFlag (flags flag : Nat) : Bool := flags &&& flag == flag

def couldntLock : Int := -2

def NUM_SLOTS_TO_LOCK : Nat := 2^16
def CLUSTER_SIZE : Nat := 2^14

def QF.withLocks (qf : QF) (locks : Nat → Bool) : QF := { qf with locks := locks }

def QF.setLock (qf : QF) (i : Nat) (held : Bool) : QF :=
  qf.withLocks (Function.update qf.locks i held)

def qfSpinLock (qf : QF) (i flag : Nat) : Option (Bool × QF) :=
  if hasFlag flag QF_WAIT_FOR_LOCK && qf.locks i then none
  else some (!qf.locks i, qf.setLock i true)

def nearLowerRegion (hashBucketIndex : Nat) : Bool :=
  hashBucketIndex ≥ NUM_SLOTS_TO_LOCK && hashBucketIndex % NUM_SLOTS_TO_LOCK ≤ CLUSTER_SIZE

def nearUpperRegion (hashBucketIndex : Nat) : Bool :=
  NUM_SLOTS_TO_LOCK - hashBucketIndex % NUM_SLOTS_TO_LOCK ≤ CLUSTER_SIZE

def qfLock (qf : QF) (hashBucketIndex : Nat) (small : Bool) (runtimeLock : Nat) :
    Option (Bool × QF) :=
  let i := hashBucketIndex / NUM_SLOTS_TO_LOCK
  if small then do
    let (ok, qf) ← qfSpinLock qf i runtimeLock
    if !ok then some (false, qf)
    else if nearUpperRegion hashBucketIndex then do
      let (ok, qf) ← qfSpinLock qf (i+1) runtimeLock
      if !ok then some (false, qf.setLock i false) else some (true, qf)
    else some (true, qf)
  else do
    let lower := nearLowerRegion hashBucketIndex
    let (ok, qf) ← if lower then qfSpinLock qf (i-1) runtimeLock else some (true, qf)
    if !ok then some (false, qf)
    else do
      let (ok, qf) ← qfSpinLock qf i runtimeLock
      if !ok then some (false, if lower then qf.setLock (i-1) false else qf)
      else do
        let (ok, qf) ← qfSpinLock qf (i+1) runtimeLock
        if !ok then
          some (false, if lower then (qf.setLock i false).setLock (i-1) false
            else qf.setLock i false)
        else some (true, qf)

def qfUnlock (qf : QF) (hashBucketIndex : Nat) (small : Bool) : QF :=
  let i := hashBucketIndex / NUM_SLOTS_TO_LOCK
  if small then
    if nearUpperRegion hashBucketIndex then (qf.setLock (i+1) false).setLock i false
    else qf.setLock i false
  else if nearLowerRegion hashBucketIndex then
    ((qf.setLock (i+1) false).setLock i false).setLock (i-1) false
  else (qf.setLock (i+1) false).setLock i false

/-- An update function: its work, between lock and unlock unless `flags` say not to lock. The work
itself neither looks at the locks nor changes them, so it is run without them. -/
def withLock {α : Type} (qf : QF) (index : Nat) (small : Bool) (flags : Nat) (couldntLock : α)
    (work : QF → Option (α × QF)) : Option (α × QF) :=
  if hasFlag flags QF_NO_LOCK then work qf
  else do
    let (ok, locked) ← qfLock qf index small flags
    if !ok then some (couldntLock, locked)
    else do
      let (r, qf) ← work qf
      some (r, qfUnlock (qf.withLocks locked.locks) index small)

structure QF.Idle (qf : QF) : Prop where
  autoResize : qf.autoResize = false
  locks : qf.locks = fun _ => false

theorem QF.Keeps.idle {qf qf' : QF} (h : qf.Keeps qf') (hi : qf.Idle) : qf'.Idle :=
  ⟨h.autoResize.trans hi.autoResize, h.locks.trans hi.locks⟩

section
variable {qf : QF}

theorem qfSpinLock_free {i : Nat} (h : qf.locks i = false) (flag : Nat) :
    qfSpinLock qf i flag = some (true, qf.setLock i true) := by
  simp [qfSpinLock, h]

/-- A held lock is waited for in vain, or left as it is. -/
theorem qfSpinLock_held {i : Nat} (h : qf.locks i = true) (flag : Nat) :
    qfSpinLock qf i flag = if hasFlag flag QF_WAIT_FOR_LOCK then none else some (false, qf) := by
  have hset : qf.setLock i true = qf := by
    rw [QF.setLock, QF.withLocks, ← h, Function.update_eq_self]
  simp [qfSpinLock, h, hset]

theorem QF.locks_setLock (i k : Nat) (held : Bool) :
    (qf.setLock i held).locks k = if k = i then held else qf.locks k :=
  Function.update_apply ..

theorem QF.setLock_setLock {i : Nat} (h : qf.locks i = false) :
    (qf.setLock i true).setLock i false = qf := by
  simp only [QF.setLock, QF.withLocks, Function.update_idem]
  rw [← h, Function.update_eq_self]

/-! The locks in the order in which they are taken, and given back in the opposite order. -/

/-- A lock that cannot be taken makes the ones before it be given back. -/
def takeLocks (flag : Nat) : List Nat → QF → Option (Bool × QF)
  | [], qf => some (true, qf)
  | i :: l, qf => do
    let (ok, qf) ← qfSpinLock qf i flag
    if !ok then some (false, qf)
    else do
      let (ok, qf) ← takeLocks flag l qf
      if !ok then some (false, qf.setLock i false) else some (true, qf)

def giveLocks : List Nat → QF → QF
  | [], qf => qf
  | i :: l, qf => (giveLocks l qf).setLock i false

theorem takeLocks_cons (flag i : Nat) (l : List Nat) (qf : QF) :
    takeLocks flag (i :: l) qf = (do
      let (ok, qf) ← qfSpinLock qf i flag
      if !ok then some (false, qf)
      else do
        let (ok, qf) ← takeLocks flag l qf
        if !ok then some (false, qf.setLock i false) else some (true, qf)) := rfl

theorem takeLocks_free {l : List Nat} (hd : l.Nodup) (h : ∀ k ∈ l, qf.locks k = false)
    (flag : Nat) : takeLocks flag l qf =
      some (true, qf.withLocks fun k => decide (k ∈ l) || qf.locks k) := by
  induction l generalizing qf with
  | nil => simp [takeLocks, QF.withLocks]
  | cons i l ih =>
    have hi : qf.locks i = false := h i (by simp)
    have hrest : ∀ k ∈ l, (qf.setLock i true).locks k = false := by
      intro k hk
      have hne : k ≠ i := by
        rintro rfl
        exact (List.nodup_cons.mp hd).1 hk
      rw [QF.locks_setLock, if_neg hne]
      exact h k (by simp [hk])
    have hlocks : (fun k => decide (k ∈ l) || (qf.setLock i true).locks k) =
        fun k => decide (k ∈ i :: l) || qf.locks k := by
      funext k
      rw [QF.locks_setLock]
      by_cases hk : k = i <;> simp [hk]
    simp only [takeLocks, qfSpinLock_free hi, Option.bind_eq_bind, Option.bind_some,
      ih (List.nodup_cons.mp hd).2 hrest, hlocks, Bool.not_true, Bool.false_eq_true, if_false]
    rfl

theorem takeLocks_held {l : List Nat} (h : ∃ k ∈ l, qf.locks k = true) (flag : Nat) :
    takeLocks flag l qf = none ∨ takeLocks flag l qf = some (false, qf) := by
  induction l generalizing qf with
  | nil => simp at h
  | cons i l ih =>
    unfold takeLocks
    cases hi : qf.locks i with
    | true =>
      rw [qfSpinLock_held hi]
      split <;> simp
    | false =>
      obtain ⟨k, hk, hheld⟩ := h
      have hne : k ≠ i := by
        rintro rfl
        exact absurd (hi.symm.trans hheld) (by decide)
      have hrest : (qf.setLock i true).locks k = true := by
        rw [QF.locks_setLock, if_neg hne, hheld]
      rw [qfSpinLock_free hi]
      cases ih ⟨k, (List.mem_cons.mp hk).resolve_left hne, hrest⟩ with
      | inl hnone => simp [hnone]
      | inr hfail => simp [hfail, QF.setLock_setLock hi]

theorem giveLocks_eq (l : List Nat) (qf : QF) :
    giveLocks l qf = qf.withLocks fun k => !decide (k ∈ l) && qf.locks k := by
  induction l with
  | nil => simp [giveLocks, QF.withLocks]
  | cons i l ih =>
    rw [giveLocks, ih, QF.setLock, QF.withLocks, QF.withLocks]
    congr 1
    funext k
    rw [Function.update_apply]
    by_cases hk : k = i <;> simp [hk]

def lockRegions (hashBucketIndex : Nat) (small : Bool) : List Nat :=
  let i := hashBucketIndex / NUM_SLOTS_TO_LOCK
  if small then if nearUpperRegion hashBucketIndex then [i, i+1] else [i]
  else if nearLowerRegion hashBucketIndex then [i-1, i, i+1] else [i, i+1]

theorem lockRegions_nodup (index : Nat) (small : Bool) : (lockRegions index small).Nodup := by
  unfold lockRegions
  cases small with
  | true =>
    rw [if_pos rfl]
    split <;> simp
  | false =>
    rw [if_neg Bool.false_ne_true]
    split
    next h =>
      simp only [nearLowerRegion, Bool.and_eq_true, decide_eq_true_eq] at h
      have hpos : 0 < index / NUM_SLOTS_TO_LOCK := Nat.div_pos h.1 (by decide)
      have h1 : index / NUM_SLOTS_TO_LOCK - 1 ≠ index / NUM_SLOTS_TO_LOCK := by omega
      have h2 : index / NUM_SLOTS_TO_LOCK - 1 ≠ index / NUM_SLOTS_TO_LOCK + 1 := by omega
      simp [h1, h2]
    next => simp

theorem qfLock_eq (qf : QF) (index : Nat) (small : Bool) (flags : Nat) :
    qfLock qf index small flags = takeLocks flags (lockRegions index small) qf := by
  have hone : ∀ (q : QF) (i : Nat), takeLocks flags [i] q = qfSpinLock q i flags := by
    intro q i
    rw [takeLocks]
    cases qfSpinLock q i flags with
    | none => rfl
    | some x => cases x with
      | mk ok q => cases ok <;> rfl
  have htwo : ∀ (q : QF) (i j : Nat), takeLocks flags [i, j] q = (do
      let (ok, q) ← qfSpinLock q i flags
      if !ok then some (false, q)
      else do
        let (ok, q) ← qfSpinLock q j flags
        if !ok then some (false, q.setLock i false) else some (true, q)) := by
    intro q i j
    rw [takeLocks_cons]
    simp only [hone]
  unfold qfLock lockRegions
  cases small with
  | true =>
    cases nearUpperRegion index with
    | true => exact (htwo ..).symm
    | false =>
      simp only [if_true, Bool.false_eq_true, if_false, hone]
      cases qfSpinLock qf (index / NUM_SLOTS_TO_LOCK) flags with
      | none => rfl
      | some x => cases x with
        | mk ok q => cases ok <;> rfl
  | false =>
    cases nearLowerRegion index with
    | true =>
      simp only [if_true, Bool.false_eq_true, if_false]
      rw [takeLocks_cons]
      simp only [htwo]
      cases qfSpinLock qf (index / NUM_SLOTS_TO_LOCK - 1) flags with
      | none => rfl
      | some x => cases x with
        | mk ok q => cases ok with
          | false => rfl
          | true =>
            simp only [Option.bind_eq_bind, Option.bind_some, Bool.not_true, Bool.false_eq_true,
              if_false]
            cases qfSpinLock q (index / NUM_SLOTS_TO_LOCK) flags with
            | none => rfl
            | some x => cases x with
              | mk ok q => cases ok with
                | false => rfl
                | true =>
                  simp only [Option.bind_some, Bool.not_true, Bool.false_eq_true, if_false]
                  cases qfSpinLock q (index / NUM_SLOTS_TO_LOCK + 1) flags with
                  | none => rfl
                  | some x => cases x with
                    | mk ok q => cases ok <;> rfl
    | false => exact (htwo ..).symm

theorem qfUnlock_eq (qf : QF) (index : Nat) (small : Bool) :
    qfUnlock qf index small = giveLocks (lockRegions index small) qf := by
  unfold qfUnlock lockRegions
  cases small with
  | true => cases h : nearUpperRegion index <;> simp [giveLocks]
  | false => cases h : nearLowerRegion index <;> simp [giveLocks]

theorem qfLock_free {index : Nat} {small : Bool}
    (h : ∀ k ∈ lockRegions index small, qf.locks k = false) (flags : Nat) :
    qfLock qf index small flags =
      some (true, qf.withLocks fun k => decide (k ∈ lockRegions index small) || qf.locks k) :=
  (qfLock_eq ..).trans (takeLocks_free (lockRegions_nodup index small) h flags)

/-- What was taken is given back, and no other lock. -/
theorem qfUnlock_taken {index : Nat} {small : Bool}
    (h : ∀ k ∈ lockRegions index small, qf.locks k = false) {qf' : QF}
    (hl : qf'.locks = fun k => decide (k ∈ lockRegions index small) || qf.locks k) :
    qfUnlock qf' index small = qf'.withLocks qf.locks := by
  rw [qfUnlock_eq, giveLocks_eq, hl]
  congr 1
  funext k
  by_cases hk : k ∈ lockRegions index small
  · simp [hk, h k hk]
  · simp [hk]

/-- Work that leaves the locks alone is done as it is without locking, or not at all. -/
theorem withLock_cases {α : Type} {index : Nat} {small : Bool} {flags : Nat} {couldntLock : α}
    {work : QF → Option (α × QF)} (hw : ∀ r q, work qf = some (r, q) → q.locks = qf.locks)
    {r : α} {qf' : QF} (h : withLock qf index small flags couldntLock work = some (r, qf')) :
    work qf = some (r, qf') ∨ qf' = qf := by
  unfold withLock at h
  split at h
  · exact .inl h
  · by_cases hfree : ∀ k ∈ lockRegions index small, qf.locks k = false
    · rw [qfLock_free hfree] at h
      simp only [Option.bind_eq_bind, Option.bind_some, Bool.not_true, Bool.false_eq_true,
        if_false, Option.bind_eq_some_iff, Prod.exists, Option.some.injEq, Prod.mk.injEq] at h
      obtain ⟨_, q, hq, rfl, rfl⟩ := h
      rw [qfUnlock_taken hfree rfl, ← hw _ q hq]
      exact .inl hq
    · have hheld : ∃ k ∈ lockRegions index small, qf.locks k = true := by
        simpa using hfree
      rw [qfLock_eq] at h
      cases takeLocks_held hheld flags with
      | inl hnone =>
        rw [hnone] at h
        cases h
      | inr hfail =>
        rw [hfail] at h
        cases h
        exact .inr rfl

theorem withLock_locks {α : Type} {index : Nat} {small : Bool} {flags : Nat} {couldntLock : α}
    {work : QF → Option (α × QF)} (hw : ∀ r q, work qf = some (r, q) → q.locks = qf.locks)
    {r : α} {qf' : QF} (h : withLock qf index small flags couldntLock work = some (r, qf')) :
    qf'.locks = qf.locks := by
  cases withLock_cases hw h with
  | inl hdone => exact hw r qf' hdone
  | inr hnot => rw [hnot]

theorem withLock_eq {α : Type} (h : qf.Idle) (index : Nat) (small : Bool) (flags : Nat)
    (couldntLock : α) {work : QF → Option (α × QF)} {r : α} {qf' : QF}
    (hw : work qf = some (r, qf')) (hl : qf'.locks = qf.locks) :
    withLock qf index small flags couldntLock work = some (r, qf') := by
  unfold withLock
  by_cases hf : hasFlag flags QF_NO_LOCK = true
  · rw [if_pos hf, hw]
  · have hfree : ∀ k ∈ lockRegions index small, qf.locks k = false := by
      intro k _
      rw [h.locks]
    rw [if_neg hf, qfLock_free hfree]
    simp only [Option.bind_eq_bind, Option.bind_some, Bool.not_true, Bool.false_eq_true, if_false,
      hw]
    rw [qfUnlock_taken hfree rfl]
    exact congrArg (fun l => some (r, qf'.withLocks l)) hl.symm

theorem withLock_idle {α : Type} (h : qf.Idle) (index : Nat) (small : Bool) (flags : Nat)
    (couldntLock : α) {work : QF → Option (α × QF)}
    (hw : ∀ r q, work qf = some (r, q) → q.locks = qf.locks) :
    withLock qf index small flags couldntLock work = work qf := by
  cases hwork : work qf with
  | some res =>
    obtain ⟨r, q⟩ := res
    exact withLock_eq h index small flags couldntLock hwork (hw r q hwork)
  | none =>
    unfold withLock
    by_cases hf : hasFlag flags QF_NO_LOCK = true
    · rw [if_pos hf, hwork]
    · rw [if_neg hf, qfLock_free fun k _ => by rw [h.locks]]
      simp only [Option.bind_eq_bind, Option.bind_some, Bool.not_true, Bool.false_eq_true,
        if_false, hwork, Option.bind_none]

end

end AdaptiveQF
