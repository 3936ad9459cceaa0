import AdaptiveQF.Lib.Runs
import Mathlib.Algebra.BigOperators.Ring.Finset
import Mathlib.Algebra.Order.BigOperators.Group.Finset
import Mathlib.Algebra.Order.Group.Abs
import Mathlib.Tactic.Ring

/-! The partitioned counter. Threads add to local counters, and flush them into the global one when
they pass a threshold. One step is one atomic operation. -/
namespace AdaptiveQF

structure Pc where
  numCounters : Nat
  threshold : Int

def pcInit (numCpus numCounters : Nat) (threshold : Int) : Pc :=
  ⟨if numCounters = 0 then numCpus else min numCpus numCounters, threshold⟩

inductive PcThread
  | idle
  /-- In `pc_add`, in front of the exchange. -/
  | flush (counterId : Nat)
  /-- In `pc_add`, behind the exchange. -/
  | publish (newCount : Int)
  /-- In `pc_sync`, at the head of the loop. -/
  | sync (i : Nat)
  | syncPublish (i : Nat) (c : Int)

structure PcState (τ : Type*) where
  localCounters : Nat → Int
  globalCounter : Int
  thread : τ → PcThread

inductive PcStep (τ : Type*)
  /-- A call of `pc_add`, up to its test of the new local count. -/
  | add (t : τ) (count : Int) (cpuid : Nat)
  /-- A call of `pc_sync`. -/
  | sync (t : τ)
  /-- The call that is in progress goes on. -/
  | next (t : τ)

variable {τ : Type*} [DecidableEq τ]

namespace PcState

def start (globalCounter : Int) : PcState τ := ⟨fun _ => 0, globalCounter, fun _ => .idle⟩

def goto (s : PcState τ) (t : τ) (p : PcThread) : PcState τ :=
  { s with thread := Function.update s.thread t p }

def clear (s : PcState τ) (i : Nat) : PcState τ :=
  { s with localCounters := Function.update s.localCounters i 0 }

def publish (s : PcState τ) (count : Int) : PcState τ :=
  { s with globalCounter := s.globalCounter + count }

end PcState

namespace PcStep

def pcAdd (pc : Pc) (t : τ) (count : Int) (cpuid : Nat) (s : PcState τ) : Option (PcState τ) :=
  if pc.numCounters = 0 then none
  else
    let counterId := cpuid % pc.numCounters
    let curCount := s.localCounters counterId + count
    let s := { s with localCounters := Function.update s.localCounters counterId curCount }
    if curCount > pc.threshold ∨ curCount < -pc.threshold then some (s.goto t (.flush counterId))
    else some s

def resume (pc : Pc) (t : τ) (s : PcState τ) : Option (PcState τ) :=
  match s.thread t with
  | .idle => none
  | .flush counterId => some ((s.clear counterId).goto t (.publish (s.localCounters counterId)))
  | .publish newCount => some ((s.publish newCount).goto t .idle)
  | .sync i =>
    if i < pc.numCounters then some ((s.clear i).goto t (.syncPublish i (s.localCounters i)))
    else some (s.goto t .idle)
  | .syncPublish i c => some ((s.publish c).goto t (.sync (i+1)))

def step (pc : Pc) : PcStep τ → PcState τ → Option (PcState τ)
  | .add t count cpuid, s => match s.thread t with
    | .idle => pcAdd pc t count cpuid s
    | _ => none
  | .sync t, s => match s.thread t with
    | .idle => some (s.goto t (.sync 0))
    | _ => none
  | .next t, s => resume pc t s

def count : PcStep τ → Int
  | .add _ count _ => count
  | _ => 0

end PcStep

def PcThread.inFlight : PcThread → Int
  | .publish newCount => newCount
  | .syncPublish _ c => c
  | _ => 0

namespace PcState

def locals (pc : Pc) (s : PcState τ) : Int := ∑ i ∈ Finset.range pc.numCounters, s.localCounters i

def inFlight [Fintype τ] (s : PcState τ) : Int := ∑ t, (s.thread t).inFlight

def Quiet (s : PcState τ) : Prop := ∀ t, s.thread t = .idle

end PcState

structure PcCounted [Fintype τ] (pc : Pc) (total : Int) (s : PcState τ) : Prop where
  total : s.globalCounter + s.locals pc + s.inFlight = total
  bounded : 0 ≤ pc.threshold → ∀ i < pc.numCounters,
    (-pc.threshold ≤ s.localCounters i ∧ s.localCounters i ≤ pc.threshold) ∨
      ∃ t, s.thread t = .flush i
  flushes : ∀ t i, s.thread t = .flush i → i < pc.numCounters

section
variable {pc : Pc} {total : Int} {s s' : PcState τ} {t : τ} {p : PcThread} {i : Nat} {v : Int}

theorem sum_update {ι : Type*} [DecidableEq ι] {I : Finset ι} {i : ι} (h : i ∈ I) (f : ι → Int)
    (v : Int) : ∑ x ∈ I, Function.update f i v x = ∑ x ∈ I, f x + (v - f i) := by
  have hrest := Finset.sum_sdiff (f := f) (Finset.singleton_subset_iff.mpr h)
  rw [Finset.sum_singleton] at hrest
  rw [Finset.sum_update_of_mem h, ← hrest]
  ring

namespace PcState

omit [DecidableEq τ] in
theorem locals_update (hi : i < pc.numCounters) (s : PcState τ) (v : Int) :
    locals pc { s with localCounters := Function.update s.localCounters i v } =
      s.locals pc + (v - s.localCounters i) := sum_update (Finset.mem_range.mpr hi) _ _

@[simp] theorem locals_goto (pc : Pc) (s : PcState τ) (t : τ) (p : PcThread) :
    (s.goto t p).locals pc = s.locals pc := rfl

theorem inFlight_goto [Fintype τ] (s : PcState τ) (t : τ) (p : PcThread) :
    (s.goto t p).inFlight = s.inFlight + (p.inFlight - (s.thread t).inFlight) := by
  have hcomp : ∀ u, ((s.goto t p).thread u).inFlight =
      Function.update (fun u => (s.thread u).inFlight) t p.inFlight u := fun u =>
    Function.apply_update (fun _ => PcThread.inFlight) s.thread t p u
  unfold inFlight
  rw [Finset.sum_congr rfl fun u _ => hcomp u, sum_update (Finset.mem_univ t)]

@[simp] theorem goto_self (s : PcState τ) (t : τ) (p : PcThread) : (s.goto t p).thread t = p :=
  Function.update_self ..

theorem goto_of_ne (s : PcState τ) (p : PcThread) {u : τ} (h : u ≠ t) :
    (s.goto t p).thread u = s.thread u := Function.update_of_ne h ..

end PcState

variable [Fintype τ]

theorem PcCounted.flush_goto (h : PcCounted pc total s)
    (hp : ∀ j, p = .flush j → j < pc.numCounters) :
    ∀ u j, (s.goto t p).thread u = .flush j → j < pc.numCounters := by
  intro u j hu
  by_cases hut : u = t
  · subst hut
    rw [PcState.goto_self] at hu
    exact hp j hu
  · rw [PcState.goto_of_ne s p hut] at hu
    exact h.flushes u j hu

/-- A counter stays in bounds or about to be flushed, if it is not the one this thread flushes. -/
theorem PcCounted.bounded_goto (h : PcCounted pc total s) (h0 : 0 ≤ pc.threshold)
    {counters : Nat → Int} {g : Int} (hi : i < pc.numCounters) (hc : counters i = s.localCounters i)
    (ht : s.thread t ≠ .flush i) :
    (-pc.threshold ≤ counters i ∧ counters i ≤ pc.threshold) ∨
      ∃ u, (PcState.goto ⟨counters, g, s.thread⟩ t p).thread u = .flush i := by
  rw [hc]
  rcases h.bounded h0 i hi with hb | ⟨u, hu⟩
  · exact .inl hb
  · have hut : u ≠ t := by
      rintro rfl
      exact ht hu
    exact .inr ⟨u, (PcState.goto_of_ne _ p hut).trans hu⟩

theorem PcCounted.add (h : PcCounted pc total s) (ht : s.thread t = .idle) {count : Int}
    {cpuid : Nat}
    (hs : PcStep.pcAdd pc t count cpuid s = some s') : PcCounted pc (total + count) s' := by
  unfold PcStep.pcAdd at hs
  split at hs
  · exact absurd hs (Option.some_ne_none _).symm
  next hn =>
  obtain ⟨c, hc⟩ : ∃ c, c = cpuid % pc.numCounters := ⟨_, rfl⟩
  have hlt : c < pc.numCounters := by
    rw [hc]
    exact Nat.mod_lt _ (Nat.pos_of_ne_zero hn)
  have hloc := PcState.locals_update hlt s (s.localCounters c + count)
  have htotal := h.total
  simp only [← hc] at hs
  split at hs
  next hout =>
    obtain rfl := Option.some.inj hs
    refine ⟨?_, fun h0 i hi => ?_, h.flush_goto (s := s) fun j hj => by cases hj; exact hlt⟩
    · have hf := PcState.inFlight_goto s t (.flush c)
      rw [ht] at hf
      simp only [PcThread.inFlight] at hf
      simp only [PcState.locals_goto, hloc]
      unfold PcState.inFlight PcState.goto at *
      simp only at *
      omega
    · by_cases hic : i = c
      · exact .inr ⟨t, by rw [hic]; exact PcState.goto_self ..⟩
      · exact h.bounded_goto h0 hi (Function.update_of_ne hic ..) (by rw [ht]; simp)
  next hin =>
    obtain rfl := Option.some.inj hs
    refine ⟨?_, fun h0 i hi => ?_, h.flushes⟩
    · rw [hloc]
      unfold PcState.inFlight at htotal ⊢
      simp only
      omega
    · by_cases hic : i = c
      · subst hic
        left
        simp only [Function.update_self]
        omega
      · simp only [Function.update_of_ne hic]
        exact h.bounded h0 i hi

/-- An exchange moves the value to the thread. -/
theorem PcCounted.exchange (h : PcCounted pc total s) (hi : i < pc.numCounters)
    (ht : (s.thread t).inFlight = 0) (hf : ∀ j, s.thread t = .flush j → j = i)
    (hp : p.inFlight = s.localCounters i) (hj : ∀ j, p ≠ .flush j) :
    PcCounted pc total ((s.clear i).goto t p) := by
  refine ⟨?_, fun h0 j hjn => ?_, h.flush_goto (s := s) fun j hpj => absurd hpj (hj j)⟩
  · have hloc := PcState.locals_update hi s 0
    have hfl := PcState.inFlight_goto (s.clear i) t p
    have htotal := h.total
    rw [PcState.locals_goto, hfl, hp]
    unfold PcState.clear PcState.inFlight at *
    simp only [PcState.goto] at *
    rw [hloc]
    omega
  · by_cases hji : j = i
    · subst hji
      left
      simp only [PcState.goto, PcState.clear, Function.update_self]
      omega
    · exact h.bounded_goto h0 hjn (Function.update_of_ne hji ..) fun hc => hji (hf j hc)

theorem PcCounted.publish (h : PcCounted pc total s) (ht : (s.thread t).inFlight = v)
    (hf : ∀ j, s.thread t ≠ .flush j) (hp : p.inFlight = 0) (hj : ∀ j, p ≠ .flush j) :
    PcCounted pc total ((s.publish v).goto t p) := by
  refine ⟨?_, fun h0 j hjn => ?_, h.flush_goto (s := s) fun j hpj => absurd hpj (hj j)⟩
  · have hfl := PcState.inFlight_goto (s.publish v) t p
    have htotal := h.total
    rw [PcState.locals_goto, hfl, hp]
    unfold PcState.publish PcState.inFlight PcState.locals at *
    simp only [PcState.goto] at *
    omega
  · exact h.bounded_goto h0 hjn rfl (hf j)

omit [Fintype τ] in
theorem PcStep.idle_of_add {count : Int} {cpuid : Nat}
    (h : (PcStep.add t count cpuid).step pc s = some s') : s.thread t = .idle := by
  unfold PcStep.step at h
  cases ht : s.thread t <;> simp [ht] at h
  rfl

omit [Fintype τ] in
theorem PcStep.idle_of_sync (h : (PcStep.sync t).step pc s = some s') : s.thread t = .idle := by
  unfold PcStep.step at h
  cases ht : s.thread t <;> simp [ht] at h
  rfl

theorem PcCounted.step (h : PcCounted pc total s) {op : PcStep τ} (hs : op.step pc s = some s') :
    PcCounted pc (total + op.count) s' := by
  have hmove : ∀ {t p}, (s.thread t).inFlight = 0 → (∀ j, s.thread t ≠ .flush j) → p.inFlight = 0 →
      (∀ j, p ≠ .flush j) → PcCounted pc total (s.goto t p) := by
    intro t p h1 h2 h3 h4
    have hpub := h.publish (v := 0) h1 h2 h3 h4
    rw [PcState.publish, add_zero] at hpub
    exact hpub
  cases op with
  | add t count cpuid =>
    have ht : s.thread t = .idle := PcStep.idle_of_add hs
    simp only [PcStep.step, ht] at hs
    exact h.add ht hs
  | sync t =>
    have ht : s.thread t = .idle := PcStep.idle_of_sync hs
    have hc : (PcStep.sync t).count = 0 := rfl
    simp only [PcStep.step, ht, Option.some.injEq] at hs
    rw [hc, add_zero, ← hs]
    exact hmove (by rw [ht]; rfl) (by simp [ht]) rfl (by simp)
  | next t =>
    have hc : (PcStep.next t).count = 0 := rfl
    rw [hc, add_zero]
    cases ht : s.thread t with
    | idle =>
      simp only [PcStep.step, PcStep.resume, ht] at hs
      exact absurd hs (Option.some_ne_none _).symm
    | flush counterId =>
      simp only [PcStep.step, PcStep.resume, ht] at hs
      obtain rfl := Option.some.inj hs
      exact h.exchange (h.flushes t _ ht) (by rw [ht]; rfl)
        (fun j hj => by rw [ht] at hj; cases hj; rfl) rfl (by simp)
    | publish newCount =>
      simp only [PcStep.step, PcStep.resume, ht] at hs
      obtain rfl := Option.some.inj hs
      exact h.publish (by rw [ht]; rfl) (by simp [ht]) rfl (by simp)
    | sync i =>
      simp only [PcStep.step, PcStep.resume, ht] at hs
      split at hs
      next hi =>
        obtain rfl := Option.some.inj hs
        exact h.exchange hi (by rw [ht]; rfl) (by simp [ht]) rfl (by simp)
      next =>
        obtain rfl := Option.some.inj hs
        exact hmove (by rw [ht]; rfl) (by simp [ht]) rfl (by simp)
    | syncPublish i c =>
      simp only [PcStep.step, PcStep.resume, ht] at hs
      obtain rfl := Option.some.inj hs
      exact h.publish (by rw [ht]; rfl) (by simp [ht]) rfl (by simp)

theorem PcCounted.run (h : PcCounted pc total s) {ops : List (PcStep τ)}
    (hs : Runs.run (PcStep.step pc) ops s = some s') :
    PcCounted pc (total + (ops.map PcStep.count).sum) s' := by
  induction ops generalizing s total with
  | nil =>
    obtain rfl := Option.some.inj hs
    simpa using h
  | cons op ops ih =>
    cases h1 : op.step pc s with
    | none => simp [Runs.run, h1] at hs
    | some s1 =>
      rw [Runs.run_cons h1] at hs
      rw [List.map_cons, List.sum_cons, ← add_assoc]
      exact ih (h.step h1) hs

omit [DecidableEq τ] in
theorem pcCounted_start (pc : Pc) (globalCounter : Int) :
    PcCounted pc globalCounter (PcState.start globalCounter : PcState τ) where
  total := by simp [PcState.start, PcState.locals, PcState.inFlight, PcThread.inFlight]
  bounded h0 i _ := .inl ⟨by simpa [PcState.start] using h0, h0⟩
  flushes t i h := by simp [PcState.start] at h

/-! No call in progress. -/

omit [DecidableEq τ] in
theorem PcState.Quiet.inFlight_eq (h : s.Quiet) : s.inFlight = 0 :=
  Finset.sum_eq_zero fun t _ => by rw [h t]; rfl

omit [DecidableEq τ] in
theorem PcCounted.quiet_bounded (h : PcCounted pc total s) (hq : s.Quiet) (h0 : 0 ≤ pc.threshold)
    (hi : i < pc.numCounters) :
    -pc.threshold ≤ s.localCounters i ∧ s.localCounters i ≤ pc.threshold := by
  rcases h.bounded h0 i hi with hb | ⟨t, ht⟩
  · exact hb
  · rw [hq t] at ht
    cases ht

omit [DecidableEq τ] in
theorem PcCounted.quiet_near (h : PcCounted pc total s) (hq : s.Quiet) (h0 : 0 ≤ pc.threshold) :
    |s.globalCounter - total| ≤ pc.numCounters * pc.threshold := by
  have htotal := h.total
  rw [hq.inFlight_eq] at htotal
  have hsum : |s.locals pc| ≤ pc.numCounters * pc.threshold := by
    calc |s.locals pc| ≤ ∑ i ∈ Finset.range pc.numCounters, |s.localCounters i| :=
          Finset.abs_sum_le_sum_abs _ _
      _ ≤ ∑ _i ∈ Finset.range pc.numCounters, pc.threshold :=
          Finset.sum_le_sum fun i hi =>
            abs_le.mpr (h.quiet_bounded hq h0 (Finset.mem_range.mp hi))
      _ = pc.numCounters * pc.threshold := by simp
  have hdiff : s.globalCounter - total = -s.locals pc := by omega
  rw [hdiff, abs_neg]
  exact hsum

def syncCall (pc : Pc) (t : τ) : List (PcStep τ) :=
  .sync t :: List.replicate (2 * pc.numCounters + 1) (.next t)

/-- The loop from counter `i` on, with nothing else going on. -/
theorem PcCounted.sync_loop (h : PcCounted pc total s) {n : Nat} (hn : i + n = pc.numCounters)
    (ht : s.thread t = .sync i) (ho : ∀ u, u ≠ t → s.thread u = .idle)
    (hz : ∀ j < i, s.localCounters j = 0) :
    ∃ s', Runs.run (PcStep.step pc) (List.replicate (2*n+1) (.next t)) s = some s' ∧ s'.Quiet ∧
      s'.globalCounter = total := by
  induction n generalizing s i with
  | zero =>
    have hstep : PcStep.step pc (.next t) s = some (s.goto t .idle) := by
      simp only [PcStep.step, PcStep.resume, ht]
      rw [if_neg (by omega)]
    have hq : (s.goto t .idle).Quiet := by
      intro u
      by_cases hu : u = t
      · rw [hu, PcState.goto_self]
      · rw [PcState.goto_of_ne s _ hu, ho u hu]
    refine ⟨_, (Runs.run_cons hstep).trans rfl, hq, ?_⟩
    have htotal := (h.step hstep).total
    have hlocals : (s.goto t .idle).locals pc = 0 :=
      Finset.sum_eq_zero fun j hj => hz j (by have := Finset.mem_range.mp hj; omega)
    rw [hq.inFlight_eq, hlocals] at htotal
    simpa [PcStep.count] using htotal
  | succ n ih =>
    have hlt : i < pc.numCounters := by omega
    obtain ⟨s1, hs1⟩ : ∃ s1, s1 = (s.clear i).goto t (.syncPublish i (s.localCounters i)) :=
      ⟨_, rfl⟩
    have hstep1 : PcStep.step pc (.next t) s = some s1 := by
      simp only [PcStep.step, PcStep.resume, ht, if_pos hlt, hs1]
    have ht1 : s1.thread t = .syncPublish i (s.localCounters i) := by rw [hs1, PcState.goto_self]
    have hstep2 : PcStep.step pc (.next t) s1 =
        some ((s1.publish (s.localCounters i)).goto t (.sync (i+1))) := by
      simp only [PcStep.step, PcStep.resume, ht1]
    have hcount : total + (PcStep.next t).count + (PcStep.next t).count = total := by
      simp [PcStep.count]
    have h2 := (h.step hstep1).step hstep2
    rw [hcount] at h2
    obtain ⟨s', hrun, hq, hg⟩ := ih h2 (i := i + 1) (by omega) (PcState.goto_self ..)
      (fun u hu => by
        rw [PcState.goto_of_ne _ _ hu, hs1]
        exact (PcState.goto_of_ne _ _ hu).trans (ho u hu))
      (fun j hj => by
        rw [hs1]
        by_cases hji : j = i
        · subst hji
          exact Function.update_self ..
        · exact (Function.update_of_ne hji ..).trans (hz j (by omega)))
    refine ⟨s', ?_, hq, hg⟩
    have hlen : 2 * (n+1) + 1 = (2*n+1) + 1 + 1 := by omega
    rw [hlen, List.replicate_succ, List.replicate_succ, Runs.run_cons hstep1, Runs.run_cons hstep2]
    exact hrun

theorem PcCounted.sync (h : PcCounted pc total s) (hq : s.Quiet) (t : τ) :
    ∃ s', Runs.run (PcStep.step pc) (syncCall pc t) s = some s' ∧ s'.Quiet ∧
      s'.globalCounter = total := by
  have hstep : PcStep.step pc (.sync t) s = some (s.goto t (.sync 0)) := by
    simp only [PcStep.step, hq t]
  have h1 := h.step hstep
  have hc : (PcStep.sync t).count = 0 := rfl
  rw [hc, add_zero] at h1
  unfold syncCall
  rw [Runs.run_cons hstep]
  exact h1.sync_loop (Nat.zero_add _) (PcState.goto_self ..)
    (fun u hu => (PcState.goto_of_ne _ _ hu).trans (hq u))
    (fun j hj => absurd hj (Nat.not_lt_zero j))

/-- In every interleaving nothing is lost or counted twice. Without a call in progress the local
counters are within the threshold, which bounds the error of the global one, and a `pc_sync` then
makes it exact. -/
theorem partitioned_counter_exact (pc : Pc) (globalCounter : Int) (ops : List (PcStep τ))
    {s : PcState τ} (h : Runs.run (PcStep.step pc) ops (PcState.start globalCounter) = some s) :
    s.globalCounter + s.locals pc + s.inFlight = globalCounter + (ops.map PcStep.count).sum ∧
    (s.Quiet → 0 ≤ pc.threshold →
      (∀ i < pc.numCounters,
        -pc.threshold ≤ s.localCounters i ∧ s.localCounters i ≤ pc.threshold) ∧
      |s.globalCounter - (globalCounter + (ops.map PcStep.count).sum)| ≤
        pc.numCounters * pc.threshold) ∧
    (s.Quiet → ∀ t, ∃ s', Runs.run (PcStep.step pc) (syncCall pc t) s = some s' ∧ s'.Quiet ∧
      s'.globalCounter = globalCounter + (ops.map PcStep.count).sum) := by
  have hrun := (pcCounted_start pc globalCounter).run h
  exact ⟨hrun.total, fun hq h0 => ⟨fun i hi => hrun.quiet_bounded hq h0 hi, hrun.quiet_near hq h0⟩,
    fun hq t => hrun.sync hq t⟩

end

/-- Two threads on one counter. The second pulls it back under the threshold before the first one
has flushed it. -/
def pulledBack : List (PcStep Bool) := [.add false 5 0, .add true (-4) 0, .next false, .next false]

theorem partitioned_counter_exact_two : ∃ s : PcState Bool,
    Runs.run (PcStep.step (pcInit 1 0 3)) pulledBack (PcState.start 10) = some s ∧
      s.globalCounter + s.locals (pcInit 1 0 3) + s.inFlight = 11 ∧ s.Quiet ∧
      |s.globalCounter - 11| ≤ 3 := by
  obtain ⟨s, hs⟩ : ∃ s, Runs.run (PcStep.step (pcInit 1 0 3)) pulledBack (PcState.start 10) =
    some s := ⟨_, rfl⟩
  obtain ⟨h1, h2, _⟩ := partitioned_counter_exact (pcInit 1 0 3) 10 pulledBack hs
  have hsum : (10 : Int) + (pulledBack.map PcStep.count).sum = 11 := by decide
  rw [hsum] at h1 h2
  have hq : s.Quiet := by
    rw [← Option.some.inj hs]
    intro t
    cases t <;> rfl
  have hb := (h2 hq (by decide)).2
  exact ⟨s, hs, h1, hq, hb⟩

end AdaptiveQF
