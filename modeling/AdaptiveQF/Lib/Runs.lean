import Mathlib.Logic.Basic
import Mathlib.Data.Option.Basic

/-! Runs of a partial step function, and conditions on each of their steps. -/
namespace Runs

variable {σ ι : Type*} {step : ι → σ → Option σ} {ok : ι → σ → Prop} {ops ops2 : List ι} {s s' : σ}

def run (step : ι → σ → Option σ) : List ι → σ → Option σ
  | [], s => some s
  | op :: ops, s => (step op s).bind (run step ops)

def Along (ok : ι → σ → Prop) (step : ι → σ → Option σ) : List ι → σ → Prop
  | [], _ => True
  | op :: ops, s => ok op s ∧ ∀ s', step op s = some s' → Along ok step ops s'

instance [∀ op s, Decidable (ok op s)] : ∀ (ops : List ι) (s : σ), Decidable (Along ok step ops s)
  | [], _ => .isTrue trivial
  | op :: ops, s =>
    have : ∀ s', Decidable (Along ok step ops s') := instDecidableAlong ops
    inferInstanceAs (Decidable (ok op s ∧ ∀ s' ∈ step op s, Along ok step ops s'))

@[simp] theorem run_nil (step : ι → σ → Option σ) (s : σ) : run step [] s = some s := rfl

theorem run_cons {op : ι} (h : step op s = some s') : run step (op :: ops) s = run step ops s' := by
  rw [run, h, Option.bind_some]

theorem run_append (step : ι → σ → Option σ) (ops ops2 : List ι) (s : σ) :
    run step (ops ++ ops2) s = (run step ops s).bind (run step ops2) := by
  induction ops generalizing s with
  | nil => rfl
  | cons op ops ih =>
    cases h : step op s with
    | none => simp [run, h]
    | some s1 => rw [List.cons_append, run_cons h, run_cons h, ih]

theorem along_append (h : Along ok step (ops ++ ops2) s) :
    Along ok step ops s ∧ ∀ s', run step ops s = some s' → Along ok step ops2 s' := by
  induction ops generalizing s with
  | nil =>
    refine ⟨trivial, fun s' hs => ?_⟩
    rw [run_nil, Option.some.injEq] at hs
    exact hs ▸ h
  | cons op ops ih =>
    refine ⟨⟨h.1, fun s1 h1 => (ih (h.2 s1 h1)).1⟩, fun s' hs => ?_⟩
    cases h1 : step op s with
    | none => simp [run, h1] at hs
    | some s1 =>
      rw [run_cons h1] at hs
      exact (ih (h.2 s1 h1)).2 s' hs

theorem along_mono {ok2 : ι → σ → Prop} (hok : ∀ op s, ok op s → ok2 op s)
    (h : Along ok step ops s) : Along ok2 step ops s := by
  induction ops generalizing s with
  | nil => trivial
  | cons op ops ih => exact ⟨hok op s h.1, fun s1 h1 => ih (h.2 s1 h1)⟩

theorem along_and {ok2 : ι → σ → Prop} (h : Along ok step ops s) (h2 : Along ok2 step ops s) :
    Along (fun op s => ok op s ∧ ok2 op s) step ops s := by
  induction ops generalizing s with
  | nil => trivial
  | cons op ops ih => exact ⟨⟨h.1, h2.1⟩, fun s1 h1 => ih (h.2 s1 h1) (h2.2 s1 h1)⟩

theorem along_mem {p : ι → Prop} (h : Along ok step ops s) (hp : ∀ op ∈ ops, p op) :
    Along (fun op s => ok op s ∧ p op) step ops s := by
  induction ops generalizing s with
  | nil => trivial
  | cons op ops ih =>
    exact ⟨⟨h.1, hp op (by simp)⟩, fun s1 h1 => ih (h.2 s1 h1) fun op2 h2 => hp op2 (by simp [h2])⟩

theorem along_of_mem {p : ι → Prop} (hp : ∀ op ∈ ops, p op) :
    Along (fun op _ => p op) step ops s := by
  induction ops generalizing s with
  | nil => trivial
  | cons op ops ih => exact ⟨hp op (by simp), fun s1 _ => ih fun op2 h2 => hp op2 (by simp [h2])⟩

theorem along_concat {op : ι} (h : Along ok step ops s)
    (hop : ∀ s', run step ops s = some s' → ok op s') : Along ok step (ops ++ [op]) s := by
  induction ops generalizing s with
  | nil => exact ⟨hop s rfl, fun _ _ => trivial⟩
  | cons op1 ops ih =>
    refine ⟨h.1, fun s1 h1 => ih (h.2 s1 h1) fun s' hs => hop s' ?_⟩
    rw [run_cons h1]
    exact hs

/-- What every step keeps under its condition, every run keeps. -/
theorem invariant {inv : σ → Prop}
    (hstep : ∀ op s, inv s → ok op s → ∃ s', step op s = some s' ∧ inv s') (hs : inv s)
    (h : Along ok step ops s) : ∃ s', run step ops s = some s' ∧ inv s' := by
  induction ops generalizing s with
  | nil => exact ⟨s, rfl, hs⟩
  | cons op ops ih =>
    obtain ⟨s1, h1, hs1⟩ := hstep op s hs h.1
    rw [run_cons h1]
    exact ih hs1 (h.2 s1 h1)

theorem invariant_of_run {inv : σ → Prop}
    (hstep : ∀ op s s', inv s → ok op s → step op s = some s' → inv s') (hs : inv s)
    (h : Along ok step ops s) (hr : run step ops s = some s') : inv s' := by
  induction ops generalizing s with
  | nil =>
    rw [run_nil, Option.some.injEq] at hr
    exact hr ▸ hs
  | cons op ops ih =>
    obtain ⟨s1, h1, hr1⟩ := Option.bind_eq_some_iff.mp hr
    exact ih (hstep op s s1 hs h.1 h1) (h.2 s1 h1) hr1

theorem along_of_invariant {inv : σ → Prop} {ok2 : ι → σ → Prop}
    (hstep : ∀ op s s', inv s → ok op s → step op s = some s' → inv s')
    (hok : ∀ op s, inv s → ok op s → ok2 op s) (hs : inv s) (h : Along ok step ops s) :
    Along ok2 step ops s := by
  induction ops generalizing s with
  | nil => trivial
  | cons op ops ih =>
    exact ⟨hok op s hs h.1, fun s1 h1 => ih (hstep op s s1 hs h.1 h1) (h.2 s1 h1)⟩

/-- From every state in which there is something left to do, a step leaves less of it. -/
theorem exists_run {inv done : σ → Prop} {left : σ → Nat} {p : ι → Prop}
    (hstep : ∀ s, inv s → ¬ done s →
      ∃ op s', p op ∧ step op s = some s' ∧ inv s' ∧ left s' < left s)
    (hs : inv s) : ∃ ops s', (∀ op ∈ ops, p op) ∧ run step ops s = some s' ∧ inv s' ∧ done s' := by
  induction hn : left s using Nat.strongRecOn generalizing s with
  | _ n ih =>
    by_cases hd : done s
    · exact ⟨[], s, by simp, rfl, hs, hd⟩
    · obtain ⟨op, s1, hp, h1, hs1, hlt⟩ := hstep s hs hd
      obtain ⟨ops, s', hall, hrun, hs', hd'⟩ := ih (left s1) (hn ▸ hlt) hs1 rfl
      refine ⟨op :: ops, s', ?_, ?_, hs', hd'⟩
      · intro op2 h2
        cases List.mem_cons.mp h2 with
        | inl he => exact he ▸ hp
        | inr hmem => exact hall op2 hmem
      · rw [run_cons h1]
        exact hrun

/-! Conditions on the steps in front of a step, rather than on the state. -/

def Each (p : List ι → ι → Prop) (ops : List ι) : Prop :=
  ∀ before op behind, ops = before ++ op :: behind → p before op

theorem each_nil {p : List ι → ι → Prop} : Each p [] := by
  intro before op behind h
  simp at h

theorem each_concat {p : List ι → ι → Prop} {op : ι} :
    Each p (ops ++ [op]) ↔ Each p ops ∧ p ops op := by
  constructor
  · intro h
    refine ⟨fun before op2 behind hs => h before op2 (behind ++ [op]) (by simp [hs]), ?_⟩
    exact h ops op [] rfl
  · rintro ⟨h, hop⟩ before op2 behind hs
    rcases List.eq_nil_or_concat behind with rfl | ⟨behind, op3, rfl⟩
    · obtain ⟨rfl, h1⟩ := List.append_inj' hs rfl
      obtain rfl := (List.cons.inj h1).1
      exact hop
    · rw [List.concat_eq_append, ← List.cons_append, ← List.append_assoc] at hs
      exact h before op2 behind (List.append_inj' hs rfl).1

end Runs
