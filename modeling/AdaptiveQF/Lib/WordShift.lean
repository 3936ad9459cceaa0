import Mathlib.Tactic.Common

/-! A shift of a row of bits towards higher indices, done word by word from the
last word down. A row is any function of the state that reads one bit. -/
namespace WordShift

section
variable {σ : Type*}

def shiftWords (inner last : Nat → Nat → σ → σ) (word : Nat) : Nat → Nat → σ → σ
  | 0, bend, s => last word bend s
  | n+1, bend, s => shiftWords inner last word n 64 (inner (word+n+1) bend s)

def Keeps (ok : σ → Prop) (step : Nat → Nat → σ → σ) : Prop :=
  ∀ s, ok s → ∀ j bend, ok (step j bend s)

def Frames {β : Type*} (ok : σ → Prop) (f : σ → β) (step : Nat → Nat → σ → σ) : Prop :=
  ∀ s, ok s → ∀ j bend, f (step j bend s) = f s

structure Moves (ok : σ → Prop) (row : σ → Nat → Bool) (d bstart : Nat)
    (inner last : Nat → Nat → σ → σ) : Prop where
  inner : ∀ s, ok s → ∀ j bend, bend ≤ 64 → ∀ p, row (inner (j+1) bend s) p =
    if 64*(j+1) ≤ p ∧ p < 64*(j+1) + bend then row s (p - d) else row s p
  last : ∀ s, ok s → ∀ j bend, bstart ≤ bend → bend ≤ 64 → ∀ p, row (last j bend s) p =
    if 64*j + bstart ≤ p ∧ p < 64*j + bend then
      if p < 64*j + bstart + d then false else row s (p - d)
    else row s p

variable {ok : σ → Prop} {row : σ → Nat → Bool} {inner last : Nat → Nat → σ → σ}
variable {d bstart word n bend lo hi : Nat}

/-- The bits from `lo` on move up by `d`, those from `hi` on stay. The gap is cleared as far as it
lies in the word of `lo`. -/
theorem Moves.shiftWords (h : Moves ok row d bstart inner last) (hstart : bstart < 64)
    (hbend : bend ≤ 64) (hlo : lo = 64*word + bstart) (hhi : hi = 64*(word+n) + bend)
    (hle : lo ≤ hi) (hk : Keeps ok inner) {s : σ} (hs : ok s) (p : Nat) :
    row (shiftWords inner last word n bend s) p =
      if lo ≤ p ∧ p < hi then
        if p < lo + d ∧ p < 64*(word+1) then false else row s (p - d)
      else row s p := by
  induction n generalizing s bend hi with
  | zero =>
    rw [WordShift.shiftWords, h.last s hs word bend (by omega) hbend p]
    by_cases hin : lo ≤ p ∧ p < hi
    · rw [if_pos hin, if_pos (by omega)]
      by_cases hgap : p < lo + d
      · rw [if_pos (by omega), if_pos (by omega)]
      · rw [if_neg (by omega), if_neg (by omega)]
    · rw [if_neg hin, if_neg (by omega)]
  | succ n ih =>
    rw [WordShift.shiftWords, ih (Nat.le_refl 64) rfl (by omega) (hk s hs _ bend)]
    have hone := h.inner s hs (word+n) bend hbend
    by_cases hlow : p < 64*(word+n) + 64
    · -- below the word that moves first, all bits are still as they were
      have hp : row (inner (word+n+1) bend s) p = row s p := by
        rw [hone p, if_neg (by omega)]
      have hpd : row (inner (word+n+1) bend s) (p - d) = row s (p - d) := by
        rw [hone (p - d), if_neg (by omega)]
      rw [hp, hpd]
      by_cases hin : lo ≤ p
      · have hnew : lo ≤ p ∧ p < hi := by omega
        rw [if_pos ⟨hin, hlow⟩, if_pos hnew]
      · rw [if_neg (by omega), if_neg (by omega)]
    · rw [if_neg (by omega), hone p]
      by_cases hin : p < hi
      · have hnew : lo ≤ p ∧ p < hi := by omega
        rw [if_pos (by omega), if_pos hnew, if_neg (by omega)]
      · rw [if_neg (by omega), if_neg (by omega)]

theorem Frames.shiftWords {β : Type*} {f : σ → β} (hinner : Frames ok f inner)
    (hlast : Frames ok f last) (hk : Keeps ok inner) {s : σ} (hs : ok s) :
    f (shiftWords inner last word n bend s) = f s := by
  induction n generalizing s bend with
  | zero => exact hlast s hs word bend
  | succ n ih => exact (ih (hk s hs _ bend)).trans (hinner s hs _ bend)

variable {inner' last' : Nat → Nat → σ → σ}

theorem shiftWords_congr (hinner : ∀ s, ok s → ∀ j bend, inner j bend s = inner' j bend s)
    (hlast : ∀ s, ok s → ∀ j bend, last j bend s = last' j bend s) (hk : Keeps ok inner) {s : σ}
    (hs : ok s) :
    shiftWords inner last word n bend s = shiftWords inner' last' word n bend s := by
  induction n generalizing s bend with
  | zero => exact hlast s hs word bend
  | succ n ih =>
    rw [WordShift.shiftWords, WordShift.shiftWords, ← hinner s hs]
    exact ih (hk s hs _ bend)

/-! Steps that shift two rows at once. -/

theorem Moves.andThen (h : Moves ok row d bstart inner last) (hinner : Frames ok row inner')
    (hlast : Frames ok row last') (hk : Keeps ok inner) (hkl : Keeps ok last) :
    Moves ok row d bstart (fun j bend s => inner' j bend (inner j bend s))
      (fun j bend s => last' j bend (last j bend s)) where
  inner s hs j bend hbend p := by
    rw [hinner _ (hk s hs _ bend)]
    exact h.inner s hs j bend hbend p
  last s hs j bend hstart hbend p := by
    rw [hlast _ (hkl s hs j bend)]
    exact h.last s hs j bend hstart hbend p

theorem Moves.after (h : Moves ok row d bstart inner last) (hinner : Frames ok row inner')
    (hlast : Frames ok row last') (hk : Keeps ok inner') (hkl : Keeps ok last') :
    Moves ok row d bstart (fun j bend s => inner j bend (inner' j bend s))
      (fun j bend s => last j bend (last' j bend s)) where
  inner s hs j bend hbend p := by
    rw [h.inner _ (hk s hs _ bend) j bend hbend, hinner s hs]
  last s hs j bend hstart hbend p := by
    rw [h.last _ (hkl s hs j bend) j bend hstart hbend, hlast s hs]

end

end WordShift
