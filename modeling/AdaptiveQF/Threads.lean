import AdaptiveQF.Lib.Locking
import AdaptiveQF.Lib.Runs
import AdaptiveQF.LockCover
import Mathlib.Algebra.Order.BigOperators.Group.Finset

/-! Threads that take and give back the locks of the filter, one access to a lock at a time and in
any order. -/
namespace AdaptiveQF
open Locking

structure LockCall where
  index : Nat
  small : Bool
  flags : Nat

def LockCall.regions (c : LockCall) : List Nat := lockRegions c.index c.small

/-- Where a thread is in its call. The locks it has taken come last one first. -/
inductive Phase
  | out
  /-- It is about to test and set lock `k`. -/
  | take (c : LockCall) (got : List Nat) (k : Nat) (rest : List Nat)
  /-- `while (*lock);` -/
  | spin (c : LockCall) (got : List Nat) (k : Nat) (rest : List Nat)
  | work (c : LockCall)
  /-- It gives back lock `k` and then the rest, behind its work or a lock it could not take. -/
  | give (k : Nat) (rest : List Nat)

namespace Phase

def takeFrom (c : LockCall) (got : List Nat) : List Nat → Phase
  | [] => .work c
  | k :: rest => .take c got k rest

def giveFrom : List Nat → Phase
  | [] => .out
  | k :: rest => .give k rest

def next (locks : Nat → Bool) : Phase → (Nat → Bool) × Phase
  | .out => (locks, .out)
  | .take c got k rest =>
    (Function.update locks k true,
      if !locks k then takeFrom c (k :: got) rest
      else if hasFlag c.flags QF_WAIT_FOR_LOCK then .spin c got k rest
      else giveFrom got)
  | .spin c got k rest => (locks, if locks k then .spin c got k rest else .take c got k rest)
  | .work c => (locks, giveFrom c.regions.reverse)
  | .give k rest => (Function.update locks k false, giveFrom rest)

def held : Phase → List Nat
  | .out => []
  | .take _ got _ _ => got
  | .spin _ got _ _ => got
  | .work c => c.regions.reverse
  | .give k rest => k :: rest

def Valid : Phase → Prop
  | .take c got k rest => got.reverse ++ k :: rest = c.regions
  | .spin c got k rest => got.reverse ++ k :: rest = c.regions
  | _ => True

def waits (locks : Nat → Bool) : Phase → Option Nat
  | .take c _ k _ => if locks k && hasFlag c.flags QF_WAIT_FOR_LOCK then some k else none
  | .spin _ _ k _ => if locks k then some k else none
  | _ => none

def left : Phase → Nat
  | .out => 0
  | .take _ got _ rest => got.length + 2 * rest.length + 3
  | .spin _ got _ rest => got.length + 2 * rest.length + 4
  | .work c => c.regions.length + 1
  | .give _ rest => rest.length + 1

end Phase

structure Threads (ι : Type*) where
  locks : Nat → Bool
  phase : ι → Phase

inductive Move
  | call (c : LockCall)
  | go

namespace Threads

variable {ι : Type*} [DecidableEq ι]

def idle : Threads ι := ⟨fun _ => false, fun _ => .out⟩

def step (m : ι × Move) (s : Threads ι) : Option (Threads ι) :=
  match m.2, s.phase m.1 with
  | .call c, .out =>
    some { s with phase := Function.update s.phase m.1 (Phase.takeFrom c [] c.regions) }
  | .call _, _ => none
  | .go, .out => none
  | .go, p => some ⟨(p.next s.locks).1, Function.update s.phase m.1 (p.next s.locks).2⟩

structure Sound (s : Threads ι) : Prop where
  exclusive : Exclusive s.locks fun t => (s.phase t).held
  valid : ∀ t, (s.phase t).Valid

end Threads

/-! One access of one thread. -/

section
variable {c : LockCall} {got l : List Nat} {p : Phase}

@[simp] theorem Phase.held_giveFrom (l : List Nat) : (Phase.giveFrom l).held = l := by
  cases l with
  | nil => rfl
  | cons k l => rfl

@[simp] theorem Phase.valid_giveFrom (l : List Nat) : (Phase.giveFrom l).Valid := by
  cases l with
  | nil => trivial
  | cons k l => trivial

@[simp] theorem Phase.left_giveFrom (l : List Nat) : (Phase.giveFrom l).left = l.length := by
  cases l with
  | nil => rfl
  | cons k l => rfl

theorem Phase.held_takeFrom (h : got.reverse ++ l = c.regions) :
    (Phase.takeFrom c got l).held = got := by
  cases l with
  | nil =>
    rw [List.append_nil] at h
    rw [Phase.takeFrom, Phase.held, ← h, List.reverse_reverse]
  | cons k l => rfl

theorem Phase.valid_takeFrom (h : got.reverse ++ l = c.regions) :
    (Phase.takeFrom c got l).Valid := by
  cases l with
  | nil => trivial
  | cons k l => exact h

/-- An access changes no lock, takes a free one, or gives back the one that was taken last. -/
theorem Phase.next_spec (hv : p.Valid) (locks : Nat → Bool) : (p.next locks).2.Valid ∧
    (((p.next locks).1 = locks ∧ (p.next locks).2.held = p.held) ∨
      (∃ k, locks k = false ∧ (p.next locks).1 = Function.update locks k true ∧
        (p.next locks).2.held = k :: p.held) ∨
      ∃ k l, p.held = k :: l ∧ (p.next locks).1 = Function.update locks k false ∧
        (p.next locks).2.held = l) := by
  cases p with
  | out => exact ⟨trivial, .inl ⟨rfl, rfl⟩⟩
  | take c got k rest =>
    have hregions : (k :: got).reverse ++ rest = c.regions := by
      rw [List.reverse_cons, List.append_assoc]
      exact hv
    cases hk : locks k with
    | false =>
      simp only [Phase.next, hk, Bool.not_false, if_true]
      exact ⟨Phase.valid_takeFrom hregions, .inr (.inl ⟨k, hk, rfl, Phase.held_takeFrom hregions⟩)⟩
    | true =>
      have hset : Function.update locks k true = locks := by rw [← hk, Function.update_eq_self]
      cases hf : hasFlag c.flags QF_WAIT_FOR_LOCK with
      | true =>
        simp only [Phase.next, hk, hf, hset, Bool.not_true, Bool.false_eq_true, if_true, if_false]
        exact ⟨hv, .inl ⟨trivial, rfl⟩⟩
      | false =>
        simp only [Phase.next, hk, hf, hset, Bool.not_true, Bool.false_eq_true, if_false]
        exact ⟨Phase.valid_giveFrom got, .inl ⟨trivial, Phase.held_giveFrom got⟩⟩
  | spin c got k rest =>
    cases hk : locks k with
    | true =>
      simp only [Phase.next, hk, if_true]
      exact ⟨hv, .inl ⟨trivial, trivial⟩⟩
    | false =>
      simp only [Phase.next, hk, Bool.false_eq_true, if_false]
      exact ⟨hv, .inl ⟨trivial, rfl⟩⟩
  | work c => exact ⟨Phase.valid_giveFrom _, .inl ⟨rfl, Phase.held_giveFrom _⟩⟩
  | give k rest =>
    exact ⟨Phase.valid_giveFrom rest, .inr (.inr ⟨k, rest, rfl, rfl, Phase.held_giveFrom rest⟩)⟩

/-- A thread that needs no lock of another one comes closer to the end of its call. -/
theorem Phase.left_next (hv : p.Valid) {locks : Nat → Bool} (hw : p.waits locks = none)
    (hp : p ≠ .out) : (p.next locks).2.left < p.left := by
  cases p with
  | out => exact absurd rfl hp
  | take c got k rest =>
    cases hk : locks k with
    | false =>
      simp only [Phase.next, hk, Bool.not_false, if_true]
      cases rest with
      | nil =>
        have hlen : c.regions.length = got.length + 1 := by
          rw [← show got.reverse ++ [k] = c.regions from hv, List.length_append,
              List.length_reverse]
          rfl
        simp only [Phase.takeFrom, Phase.left, List.length_nil]
        omega
      | cons j rest =>
        simp only [Phase.takeFrom, Phase.left, List.length_cons]
        omega
    | true =>
      have hf : hasFlag c.flags QF_WAIT_FOR_LOCK = false := by
        simpa [Phase.waits, hk] using hw
      simp only [Phase.next, hk, hf, Bool.not_true, Bool.false_eq_true, if_false]
      rw [Phase.left_giveFrom, Phase.left]
      omega
  | spin c got k rest =>
    have hk : locks k = false := by simpa [Phase.waits] using hw
    simp only [Phase.next, hk, Bool.false_eq_true, if_false, Phase.left]
    omega
  | work c =>
    show (Phase.giveFrom c.regions.reverse).left < c.regions.length + 1
    rw [Phase.left_giveFrom, List.length_reverse]
    exact Nat.lt_succ_self _
  | give k rest =>
    show (Phase.giveFrom rest).left < rest.length + 1
    rw [Phase.left_giveFrom]
    exact Nat.lt_succ_self _

theorem lockRegions_sorted (index : Nat) (small : Bool) :
    (lockRegions index small).Pairwise (· < ·) := by
  unfold lockRegions
  cases small with
  | true =>
    rw [if_pos rfl]
    split <;> simp
  | false =>
    rw [if_neg Bool.false_ne_true]
    split
    next h =>
      simp only [nearLowerRegion, Bool.and_eq_true, decide_eq_true_eq] at h
      have hpos : 0 < index / NUM_SLOTS_TO_LOCK := Nat.div_pos h.1 (by decide)
      have hlt : index / NUM_SLOTS_TO_LOCK - 1 < index / NUM_SLOTS_TO_LOCK :=
        Nat.sub_lt hpos Nat.one_pos
      simp [hlt, hlt.trans (Nat.lt_succ_self _)]
    next => simp

/-- A thread waits for a lock above all those it holds. -/
theorem Phase.held_lt (hv : p.Valid) {locks : Nat → Bool} {k : Nat} (hw : p.waits locks = some k) :
    locks k = true ∧ ∀ j ∈ p.held, j < k := by
  have hsorted : ∀ {c : LockCall} {got rest : List Nat}, got.reverse ++ k :: rest = c.regions →
      ∀ j ∈ got, j < k := by
    intro c got rest h j hj
    have hpair := lockRegions_sorted c.index c.small
    rw [← show got.reverse ++ k :: rest = lockRegions c.index c.small from h] at hpair
    exact (List.pairwise_append.mp hpair).2.2 j (List.mem_reverse.mpr hj) k (by simp)
  cases p with
  | out => cases hw
  | take c got i rest =>
    simp only [Phase.waits, Option.ite_none_right_eq_some, Bool.and_eq_true,
        Option.some.injEq] at hw
    obtain ⟨⟨hk, -⟩, rfl⟩ := hw
    exact ⟨hk, hsorted hv⟩
  | spin c got i rest =>
    simp only [Phase.waits, Option.ite_none_right_eq_some, Option.some.injEq] at hw
    obtain ⟨hk, rfl⟩ := hw
    exact ⟨hk, hsorted hv⟩
  | work c => cases hw
  | give i rest => cases hw

end

/-! All threads. -/

namespace Threads

section
variable {ι : Type*} [DecidableEq ι] {s s' : Threads ι} {t u : ι} {c : LockCall} {m : ι × Move}

theorem held_update (s : Threads ι) (t : ι) (p : Phase) :
    (fun u => (Function.update s.phase t p u).held) =
      Function.update (fun u => (s.phase u).held) t p.held := by
  funext u
  by_cases hu : u = t
  · subst hu
    simp
  · simp [hu]

theorem valid_update (h : ∀ u, (s.phase u).Valid) {p : Phase} (hp : p.Valid) (u : ι) :
    (Function.update s.phase t p u).Valid := by
  by_cases hu : u = t
  · subst hu
    rw [Function.update_self]
    exact hp
  · rw [Function.update_of_ne hu]
    exact h u

theorem step_call (ht : s.phase t = .out) (c : LockCall) : step (t, .call c) s =
    some { s with phase := Function.update s.phase t (Phase.takeFrom c [] c.regions) } := by
  simp only [step, ht]

theorem step_go (ht : s.phase t ≠ .out) : step (t, .go) s =
    some ⟨((s.phase t).next s.locks).1,
        Function.update s.phase t ((s.phase t).next s.locks).2⟩ := by
  cases hp : s.phase t with
  | out => exact absurd hp ht
  | take c got k rest => simp only [step, hp]
  | spin c got k rest => simp only [step, hp]
  | work c => simp only [step, hp]
  | give k rest => simp only [step, hp]

theorem step_cases (h : step m s = some s') :
    (∃ c, m.2 = .call c ∧ s.phase m.1 = .out ∧
      s' = { s with phase := Function.update s.phase m.1 (Phase.takeFrom c [] c.regions) }) ∨
    (m.2 = .go ∧ s.phase m.1 ≠ .out ∧ s' = ⟨((s.phase m.1).next s.locks).1,
      Function.update s.phase m.1 ((s.phase m.1).next s.locks).2⟩) := by
  obtain ⟨t, mv⟩ := m
  cases mv with
  | call c =>
    by_cases ht : s.phase t = .out
    · rw [step_call ht, Option.some.injEq] at h
      exact .inl ⟨c, rfl, ht, h.symm⟩
    · cases hp : s.phase t with
      | out => exact absurd hp ht
      | take c got k rest => simp [step, hp] at h
      | spin c got k rest => simp [step, hp] at h
      | work c => simp [step, hp] at h
      | give k rest => simp [step, hp] at h
  | go =>
    by_cases ht : s.phase t = .out
    · simp [step, ht] at h
    · rw [step_go ht, Option.some.injEq] at h
      exact .inr ⟨rfl, ht, h.symm⟩

omit [DecidableEq ι] in
theorem idle_sound : (idle : Threads ι).Sound := ⟨.idle fun _ => rfl, fun _ => trivial⟩

theorem Sound.step (hs : s.Sound) (h : Threads.step m s = some s') : s'.Sound := by
  cases step_cases h with
  | inl hcall =>
    obtain ⟨c, -, ht, rfl⟩ := hcall
    refine ⟨?_, valid_update hs.valid (Phase.valid_takeFrom (List.nil_append _))⟩
    have hsame : (Phase.takeFrom c [] c.regions).held = (s.phase m.1).held := by
      rw [Phase.held_takeFrom (List.nil_append _), ht, Phase.held]
    rw [held_update, hsame, Function.update_eq_self]
    exact hs.exclusive
  | inr hgo =>
    obtain ⟨-, -, rfl⟩ := hgo
    obtain ⟨hv, hcases⟩ := Phase.next_spec (hs.valid m.1) s.locks
    refine ⟨?_, valid_update hs.valid hv⟩
    rw [held_update]
    rcases hcases with ⟨hl, hh⟩ | ⟨k, hk, hl, hh⟩ | ⟨k, l, ht, hl, hh⟩
    · rw [hl, hh, Function.update_eq_self]
      exact hs.exclusive
    · rw [hl, hh]
      exact hs.exclusive.acquire hk m.1
    · rw [hl, hh]
      exact hs.exclusive.release ht

theorem Sound.run {moves : List (ι × Move)} (hs : s.Sound)
    (h : Runs.run Threads.step moves s = some s') : s'.Sound := by
  have halong : Runs.Along (fun _ _ => True) Threads.step moves s :=
    Runs.along_of_mem fun _ _ => trivial
  exact Runs.invariant_of_run (fun _ _ _ hinv _ hstep => hinv.step hstep) hs halong h

/-- In every order of accesses, each lock that is set is held by exactly one thread, and two threads
that work at once have no region of slots in common. -/
theorem threads_exclude {moves : List (ι × Move)} (h : Runs.run step moves idle = some s) :
    (∀ k, s.locks k = true ↔ ∃! t, k ∈ (s.phase t).held) ∧
    (∀ t, s.phase t = .out → (s.phase t).held = []) ∧
    ∀ t u c d, t ≠ u → s.phase t = .work c → s.phase u = .work d →
      List.Disjoint c.regions d.regions := by
  have hs := idle_sound.run h
  refine ⟨fun k => ?_, fun t ht => by rw [ht, Phase.held], fun t u c d hne ht hu => ?_⟩
  · rw [hs.exclusive.taken k]
    constructor
    · intro hex
      obtain ⟨t, ht⟩ := hex
      exact ⟨t, ht, fun u hu => hs.exclusive.apart u t k hu ht⟩
    · exact fun hex => hex.exists
  · have hd := hs.exclusive.disjoint hne
    simp only [ht, hu, Phase.held] at hd
    intro k hc hd2
    exact hd (List.mem_reverse.mpr hc) (List.mem_reverse.mpr hd2)

omit [DecidableEq ι] in
/-- Some thread inside a call can go on without a lock of another one. -/
theorem Sound.exists_free [Finite ι] (hs : s.Sound) (ht : s.phase t ≠ .out) :
    ∃ u, s.phase u ≠ .out ∧ (s.phase u).waits s.locks = none := by
  have hord : ∀ u k, (s.phase u).waits s.locks = some k → ∀ j ∈ (s.phase u).held, j < k :=
    fun u k hk => (Phase.held_lt (hs.valid u) hk).2
  have hheld : ∀ u k, (s.phase u).waits s.locks = some k → ∃ v, k ∈ (s.phase v).held :=
    fun u k hk => (hs.exclusive.taken k).mp (Phase.held_lt (hs.valid u) hk).1
  obtain ⟨u, hu, hor⟩ := exists_not_waiting hord hheld t
  refine ⟨u, ?_, hu⟩
  cases hor with
  | inl he => exact he ▸ ht
  | inr hne =>
    intro hout
    rw [hout] at hne
    exact hne rfl

def left [Fintype ι] (s : Threads ι) : Nat := ∑ t, (s.phase t).left

theorem left_update [Fintype ι] {p : Phase} (hp : p.left < (s.phase t).left) (locks : Nat → Bool) :
    (⟨locks, Function.update s.phase t p⟩ : Threads ι).left < s.left := by
  refine Finset.sum_lt_sum (fun u _ => ?_) ⟨t, Finset.mem_univ t, ?_⟩
  · by_cases hu : u = t
    · subst hu
      simp only [Function.update_self]
      exact hp.le
    · simp only [Function.update_of_ne hu]
      exact le_rfl
  · simp only [Function.update_self]
    exact hp

theorem Sound.advance [Fintype ι] (hs : s.Sound) (hd : ¬ ∀ t, s.phase t = .out) :
    ∃ m s', m.2 = Move.go ∧ Threads.step m s = some s' ∧ s'.Sound ∧ s'.left < s.left := by
  push Not at hd
  obtain ⟨t, ht⟩ := hd
  obtain ⟨u, hu, hw⟩ := hs.exists_free ht
  have hstep := step_go hu
  exact ⟨(u, .go), _, rfl, hstep, hs.step hstep, left_update (Phase.left_next (hs.valid u) hw hu) _⟩

/-- No order of accesses leads into a deadlock: all calls can be brought to their end, and then no
lock is set. -/
theorem threads_finish [Finite ι] {moves : List (ι × Move)}
    (h : Runs.run step moves idle = some s) :
    ∃ goes : List (ι × Move), (∀ m ∈ goes, m.2 = .go) ∧ ∃ s', Runs.run step goes s = some s' ∧
      (∀ t, s'.phase t = .out) ∧ s'.locks = fun _ => false := by
  have hfin : Fintype ι := Fintype.ofFinite ι
  obtain ⟨goes, s', hgo, hrun, hs', hout⟩ :=
    Runs.exists_run (fun s hs hd => Sound.advance (s := s) hs hd) (idle_sound.run h)
  refine ⟨goes, hgo, s', hrun, hout, hs'.exclusive.quiet fun t => ?_⟩
  rw [hout t, Phase.held]

def threeCalls : List (Fin 3 × Move) :=
  [(0, .call ⟨0, true, QF_WAIT_FOR_LOCK⟩), (1, .call ⟨2^17, true, QF_WAIT_FOR_LOCK⟩), (0, .go),
    (2, .call ⟨1, true, QF_TRY_ONCE_LOCK⟩), (1, .go), (2, .go)]

theorem threads_exclude_three : ∃ s, Runs.run step threeCalls idle = some s ∧
    (∀ k, s.locks k = true ↔ ∃! t, k ∈ (s.phase t).held) ∧
    (∀ t, s.phase t = .out → (s.phase t).held = []) ∧
    ∀ t u c d, t ≠ u → s.phase t = .work c → s.phase u = .work d →
      List.Disjoint c.regions d.regions := by
  have hsome : (Runs.run step threeCalls idle).isSome := by decide
  obtain ⟨s, hs⟩ := Option.isSome_iff_exists.mp hsome
  exact ⟨s, hs, threads_exclude hs⟩

theorem threads_finish_three : ∃ s, Runs.run step threeCalls idle = some s ∧
    ∃ goes : List (Fin 3 × Move), (∀ m ∈ goes, m.2 = .go) ∧ ∃ s', Runs.run step goes s = some s' ∧
      (∀ t, s'.phase t = .out) ∧ s'.locks = fun _ => false := by
  have hsome : (Runs.run step threeCalls idle).isSome := by decide
  obtain ⟨s, hs⟩ := Option.isSome_iff_exists.mp hsome
  exact ⟨s, hs, threads_finish hs⟩

/-! One thread alone: it does what `qf_lock` and `qf_unlock` do. -/

def alone (t : ι) (n : Nat) (s : Threads ι) : Option (Threads ι) :=
  Runs.run step (List.replicate n (t, .go)) s

theorem alone_succ {n : Nat} (h : step (t, .go) s = some s') : alone t (n+1) s = alone t n s' := by
  rw [alone, List.replicate_succ, Runs.run_cons h, alone]

theorem step_update (s : Threads ι) (t : ι) {p : Phase} (hp : p ≠ .out) (locks : Nat → Bool) :
    step (t, .go) ⟨locks, Function.update s.phase t p⟩ =
      some ⟨(p.next locks).1, Function.update s.phase t (p.next locks).2⟩ := by
  rw [step_go (by simpa using hp)]
  simp

theorem giveLocks_reverse_cons (k : Nat) (l : List Nat) (qf : QF) :
    giveLocks (k :: l).reverse qf = giveLocks l.reverse (qf.setLock k false) := by
  simp only [giveLocks_eq, QF.setLock, QF.withLocks]
  congr 1
  funext j
  by_cases hj : j = k <;> simp [hj]

theorem alone_give (s : Threads ι) (t : ι) (l : List Nat) (qf : QF) :
    alone t l.length ⟨qf.locks, Function.update s.phase t (Phase.giveFrom l)⟩ =
      some ⟨(giveLocks l.reverse qf).locks, Function.update s.phase t .out⟩ := by
  induction l generalizing qf with
  | nil => rfl
  | cons k l ih =>
    have hstep := step_update s t (p := .give k l) (by simp) qf.locks
    rw [List.length_cons, Phase.giveFrom, alone_succ hstep, giveLocks_reverse_cons]
    exact ih (qf.setLock k false)

theorem alone_take (s : Threads ι) (t : ι) (c : LockCall) {got rest : List Nat} (qf : QF)
    (h : got.reverse ++ rest = c.regions) :
    (∀ qf', takeLocks c.flags rest qf = some (true, qf') →
      ∃ n, alone t n ⟨qf.locks, Function.update s.phase t (Phase.takeFrom c got rest)⟩ =
        some ⟨qf'.locks, Function.update s.phase t (.work c)⟩) ∧
    (∀ qf', takeLocks c.flags rest qf = some (false, qf') →
      ∃ n, alone t n ⟨qf.locks, Function.update s.phase t (Phase.takeFrom c got rest)⟩ =
        some ⟨(giveLocks got.reverse qf').locks, Function.update s.phase t .out⟩) ∧
    (takeLocks c.flags rest qf = none →
      ∃ n s',
        alone t n ⟨qf.locks, Function.update s.phase t (Phase.takeFrom c got rest)⟩ = some s' ∧
        s'.phase t ≠ .work c ∧ step (t, .go) s' = some s') := by
  induction rest generalizing got qf with
  | nil =>
    refine ⟨fun qf' h' => ⟨0, ?_⟩, fun qf' h' => ?_, fun h' => ?_⟩
    · cases h'
      rfl
    · cases h'
    · cases h'
  | cons k rest ih =>
    have hstep := step_update s t (p := .take c got k rest) (by simp) qf.locks
    cases hk : qf.locks k with
    | false =>
      have hnext : (Phase.take c got k rest).next qf.locks =
          (Function.update qf.locks k true, Phase.takeFrom c (k :: got) rest) := by
        simp only [Phase.next, hk, Bool.not_false, if_true]
      rw [hnext] at hstep
      have hregions : (k :: got).reverse ++ rest = c.regions := by
        rw [List.reverse_cons, List.append_assoc]
        exact h
      obtain ⟨htrue, hfalse, hnone⟩ := ih (qf.setLock k true) hregions
      rw [takeLocks_cons, qfSpinLock_free hk]
      cases hrest : takeLocks c.flags rest (qf.setLock k true) with
      | none =>
        refine ⟨fun qf' h' => by simp [hrest] at h',
        fun qf' h' => by simp [hrest] at h', fun _ => ?_⟩
        obtain ⟨n, s', hrun, hs'⟩ := hnone hrest
        exact ⟨n+1, s', (alone_succ hstep).trans hrun, hs'⟩
      | some x =>
        obtain ⟨ok, q⟩ := x
        cases ok with
        | true =>
          refine ⟨fun qf' h' => ?_,
              fun qf' h' => by simp [hrest] at h', fun h' => by simp [hrest] at h'⟩
          obtain ⟨n, hrun⟩ := htrue q hrest
          simp only [hrest, Option.bind_eq_bind, Option.bind_some, Bool.not_true,
              Bool.false_eq_true,
            if_false, Option.some.injEq, Prod.mk.injEq, true_and] at h'
          exact ⟨n+1, h' ▸ (alone_succ hstep).trans hrun⟩
        | false =>
          refine ⟨fun qf' h' => by simp [hrest] at h',
        fun qf' h' => ?_, fun h' => by simp [hrest] at h'⟩
          obtain ⟨n, hrun⟩ := hfalse q hrest
          simp only [hrest, Option.bind_eq_bind, Option.bind_some, Bool.not_false, Bool.not_true,
            Bool.false_eq_true, if_true, if_false, Option.some.injEq, Prod.mk.injEq, true_and] at h'
          rw [giveLocks_reverse_cons] at hrun
          exact ⟨n+1, h' ▸ (alone_succ hstep).trans hrun⟩
    | true =>
      have hset : Function.update qf.locks k true = qf.locks := by
        rw [← hk, Function.update_eq_self]
      rw [takeLocks_cons, qfSpinLock_held hk]
      cases hf : hasFlag c.flags QF_WAIT_FOR_LOCK with
      | true =>
        refine ⟨fun qf' h' => by simp at h', fun qf' h' => by simp at h', fun _ => ?_⟩
        have hnext : (Phase.take c got k rest).next qf.locks = (qf.locks, .spin c got k rest) := by
          simp only [Phase.next, hk, hf, hset, Bool.not_true, Bool.false_eq_true, if_true, if_false]
        rw [hnext] at hstep
        refine ⟨1, _, alone_succ hstep, by simp, ?_⟩
        rw [step_update s t (by simp)]
        simp only [Phase.next, hk, if_true]
      | false =>
        refine ⟨fun qf' h' => by simp at h', fun qf' h' => ?_, fun h' => by simp at h'⟩
        have hnext : (Phase.take c got k rest).next qf.locks = (qf.locks, Phase.giveFrom got) := by
          simp only [Phase.next, hk, hf, hset, Bool.not_true, Bool.false_eq_true, if_false]
        rw [hnext] at hstep
        simp only [Option.bind_eq_bind, Option.bind_some, Bool.not_false, Bool.false_eq_true,
            if_true,
          if_false, Option.some.injEq, Prod.mk.injEq, true_and] at h'
        exact ⟨got.length + 1, h' ▸ (alone_succ hstep).trans (alone_give s t got qf)⟩

/-- A thread that calls `qf_lock` alone gets what the call returns, with the locks that it leaves
set, and if the call does not return it spins for ever. Behind its work `qf_unlock` follows. -/
theorem alone_locks (s : Threads ι) {t : ι} (ht : s.phase t = .out) (c : LockCall) {qf : QF}
    (hl : qf.locks = s.locks) :
    (∀ qf', qfLock qf c.index c.small c.flags = some (true, qf') →
      ∃ n, (step (t, .call c) s).bind (alone t n) =
        some ⟨qf'.locks, Function.update s.phase t (.work c)⟩) ∧
    (∀ qf', qfLock qf c.index c.small c.flags = some (false, qf') →
      ∃ n, (step (t, .call c) s).bind (alone t n) = some ⟨qf'.locks, s.phase⟩) ∧
    (qfLock qf c.index c.small c.flags = none →
      ∃ n s', (step (t, .call c) s).bind (alone t n) = some s' ∧ s'.phase t ≠ .work c ∧
        step (t, .go) s' = some s') ∧
    ∃ n, alone t n ⟨qf.locks, Function.update s.phase t (.work c)⟩ =
      some ⟨(qfUnlock qf c.index c.small).locks, s.phase⟩ := by
  have hout : Function.update s.phase t .out = s.phase := by rw [← ht, Function.update_eq_self]
  have hregions : ([] : List Nat).reverse ++ c.regions = c.regions := List.nil_append _
  obtain ⟨htrue, hfalse, hnone⟩ := alone_take s t c qf hregions
  rw [step_call ht, ← hl, qfLock_eq]
  refine ⟨htrue, fun qf' h => ?_, hnone, ?_⟩
  · obtain ⟨n, hrun⟩ := hfalse qf' h
    rw [hout] at hrun
    exact ⟨n, hrun⟩
  · have hgive := alone_give s t c.regions.reverse qf
    have hstep := step_update s t (p := .work c) (by simp) qf.locks
    rw [hout, List.reverse_reverse] at hgive
    rw [qfUnlock_eq]
    exact ⟨c.regions.reverse.length + 1, (alone_succ hstep).trans hgive⟩

theorem alone_locks_small : ∃ qf' n, qfLock smallFilter 0 true QF_WAIT_FOR_LOCK = some (true, qf') ∧
    (step ((0 : Fin 2), .call ⟨0, true, QF_WAIT_FOR_LOCK⟩) idle).bind (alone 0 n) =
      some ⟨qf'.locks, Function.update (fun _ => .out) 0 (.work ⟨0, true, QF_WAIT_FOR_LOCK⟩)⟩ := by
  have hlock := smallFilter_zeroed.tidy.idle.qfLock_eq 0 true QF_WAIT_FOR_LOCK
  obtain ⟨n, hrun⟩ := (alone_locks idle (t := (0 : Fin 2)) rfl ⟨0, true, QF_WAIT_FOR_LOCK⟩
    smallFilter_zeroed.tidy.idle.locks).1 _ hlock
  exact ⟨_, n, hlock, hrun⟩

end

end Threads

end AdaptiveQF
