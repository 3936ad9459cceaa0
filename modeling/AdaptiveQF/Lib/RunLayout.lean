import Mathlib.Data.Nat.Count
import Mathlib.Logic.Function.Basic
import Mathlib.Tactic.Linarith

/-! Canonical layout of variable-length runs in one row of slots: the run of
bucket `b` starts at its home slot `b`, or right behind the runs of the smaller
buckets where these reach past it. -/
namespace RunLayout

section Lengths
variable (len : Nat → Nat)

/-- First slot behind the runs of all buckets below `b`. -/
def ends : Nat → Nat
  | 0 => 0
  | b+1 => if len b = 0 then ends b else max b (ends b) + len b

def start (b : Nat) : Nat := max b (ends len b)

def Owns (b s : Nat) : Prop := start len b ≤ s ∧ s < start len b + len b

def Used (s : Nat) : Prop := ∃ b, Owns len b s

/-- The slots at or after `p` that buckets below `p` reach into. -/
def spill (p : Nat) : Nat := ends len p - p

structure FirstUnused (x e : Nat) : Prop where
  le : x ≤ e
  unused : ¬ Used len e
  used : ∀ s, x ≤ s → s < e → Used len s

variable {len}

theorem ends_succ_of_zero {b : Nat} (h : len b = 0) : ends len (b+1) = ends len b := by
  simp [ends, h]

theorem ends_succ_of_pos {b : Nat} (h : 0 < len b) :
    ends len (b+1) = start len b + len b := by
  have hn : len b ≠ 0 := by omega
  simp [ends, start, hn]

theorem ends_le_succ (b : Nat) : ends len b ≤ ends len (b+1) := by
  by_cases hl : len b = 0
  · rw [ends_succ_of_zero hl]
  · rw [ends_succ_of_pos (by omega)]
    unfold start
    omega

theorem ends_mono {a b : Nat} (h : a ≤ b) : ends len a ≤ ends len b := by
  induction h with
  | refl => exact Nat.le_refl _
  | step _ ih => exact ih.trans (ends_le_succ _)

theorem ends_congr {len' : Nat → Nat} {b : Nat} (h : ∀ a, a < b → len' a = len a) :
    ends len' b = ends len b := by
  induction b with
  | zero => rfl
  | succ b ih =>
    have ih := ih fun a ha => h a (by omega)
    simp only [ends, h b (by omega), ih]

theorem le_start (b : Nat) : b ≤ start len b := Nat.le_max_left _ _

theorem ends_le_start (b : Nat) : ends len b ≤ start len b := Nat.le_max_right _ _

theorem start_mono {a b : Nat} (h : a ≤ b) : start len a ≤ start len b := by
  have := @ends_mono len _ _ h
  unfold start
  omega

theorem start_add_le_ends {a b : Nat} (h : a < b) (hl : 0 < len a) :
    start len a + len a ≤ ends len b := by
  rw [← ends_succ_of_pos hl]
  exact ends_mono h

theorem start_add_le_start {a b : Nat} (h : a < b) :
    start len a + len a ≤ start len b := by
  by_cases hl : len a = 0
  · have := @start_mono len _ _ (Nat.le_of_lt h)
    omega
  · exact (start_add_le_ends h (by omega)).trans (ends_le_start b)

theorem Owns.bucket_le {b s : Nat} (h : Owns len b s) : b ≤ s :=
  (le_start b).trans h.1

theorem Owns.pos {b s : Nat} (h : Owns len b s) : 0 < len b := by
  have h1 := h.1
  have h2 := h.2
  omega

theorem Owns.unique {a b s : Nat} (ha : Owns len a s) (hb : Owns len b s) : a = b := by
  rcases Nat.lt_trichotomy a b with h | h | h
  · have := @start_add_le_start len _ _ h
    have := ha.2
    have := hb.1
    omega
  · exact h
  · have := @start_add_le_start len _ _ h
    have := hb.2
    have := ha.1
    omega

theorem Owns.lt_ends {a b s : Nat} (h : Owns len a s) (hab : a < b) : s < ends len b :=
  Nat.lt_of_lt_of_le h.2 (start_add_le_ends hab h.pos)

/-- A run that is pushed off its home slot leaves no gap in front of it. -/
theorem owned_of_lt_ends {b s : Nat} (h1 : b ≤ s) (h2 : s < ends len b) :
    ∃ a, a < b ∧ Owns len a s := by
  induction b with
  | zero => simp [ends] at h2
  | succ b ih =>
    by_cases hl : len b = 0
    · rw [ends_succ_of_zero hl] at h2
      obtain ⟨a, ha, ho⟩ := ih (by omega) h2
      exact ⟨a, by omega, ho⟩
    · rw [ends_succ_of_pos (by omega)] at h2
      by_cases hs : start len b ≤ s
      · exact ⟨b, by omega, hs, h2⟩
      · have : s < ends len b := by
          unfold start at hs
          omega
        obtain ⟨a, ha, ho⟩ := ih (by omega) this
        exact ⟨a, by omega, ho⟩

theorem ends_le_of_unused {s : Nat} (h : ¬ Used len s) : ends len s ≤ s := by
  by_contra hc
  obtain ⟨a, _, ho⟩ := owned_of_lt_ends (Nat.le_refl s) (by omega : s < ends len s)
  exact h ⟨a, ho⟩

theorem start_of_unused {s : Nat} (h : ¬ Used len s) : start len s = s := by
  have := ends_le_of_unused h
  unfold start
  omega

theorem len_of_unused {s : Nat} (h : ¬ Used len s) : len s = 0 := by
  by_contra hl
  have hs := start_of_unused h
  exact h ⟨s, by unfold Owns; omega⟩

theorem used_of_pos {b : Nat} (h : 0 < len b) : Used len b := by
  by_contra hu
  have := len_of_unused hu
  omega

theorem unused_gap {b s : Nat} (h1 : ends len b ≤ s) (h2 : s < start len b) : ¬ Used len s := by
  rintro ⟨a, ho⟩
  by_cases ha : a < b
  · have := ho.lt_ends ha
    omega
  · have := ho.bucket_le
    unfold start at h2
    omega

theorem ends_eq_of_zero {n b : Nat} (hz : ∀ c, n ≤ c → len c = 0) (h : n ≤ b) :
    ends len b = ends len n := by
  induction h with
  | refl => rfl
  | step h ih => rw [ends_succ_of_zero (hz _ h), ih]

theorem Owns.lt_of_zero {n b s : Nat} (hz : ∀ c, n ≤ c → len c = 0) (h : Owns len b s) :
    s < ends len n := by
  have hb : b < n := by
    by_contra hc
    have := hz b (by omega)
    have := h.pos
    omega
  exact h.lt_ends hb

theorem exists_firstUnused {n : Nat} (hz : ∀ c, n ≤ c → len c = 0) (x : Nat) :
    ∃ e, FirstUnused len x e ∧ e ≤ max x (ends len n) := by
  classical
  have hex : ∃ e, x ≤ e ∧ ¬ Used len e := by
    refine ⟨max x (ends len n), by omega, ?_⟩
    rintro ⟨b, ho⟩
    have := ho.lt_of_zero hz
    omega
  refine ⟨Nat.find hex, ⟨(Nat.find_spec hex).1, (Nat.find_spec hex).2, ?_⟩, ?_⟩
  · intro s hs hlt
    have := Nat.find_min hex hlt
    by_contra hc
    exact this ⟨hs, hc⟩
  · apply Nat.find_min' hex
    refine ⟨by omega, ?_⟩
    rintro ⟨b, ho⟩
    have := ho.lt_of_zero hz
    omega

theorem FirstUnused.unique {x e e' : Nat} (h : FirstUnused len x e)
    (h' : FirstUnused len x e') : e = e' := by
  rcases Nat.lt_trichotomy e e' with hlt | heq | hlt
  · exact absurd (h'.used e h.le hlt) h.unused
  · exact heq
  · exact absurd (h.used e' h'.le hlt) h'.unused

theorem FirstUnused.mono {x y e : Nat} (h : FirstUnused len x e) (hxy : x ≤ y) (hy : y ≤ e) :
    FirstUnused len y e :=
  ⟨hy, h.unused, fun s hs hlt => h.used s (hxy.trans hs) hlt⟩

theorem end_le_of_unused {b e : Nat} (h : ¬ Used len e) (hs : start len b ≤ e) :
    start len b + len b ≤ e := by
  by_contra hc
  exact h ⟨b, hs, by omega⟩

theorem spill_pos_used {p s : Nat} (h1 : p ≤ s) (h2 : s < p + spill len p) : Used len s := by
  unfold spill at h2
  obtain ⟨a, _, ho⟩ := owned_of_lt_ends h1 (by omega : s < ends len p)
  exact ⟨a, ho⟩

theorem start_eq_add_spill (p : Nat) : start len p = p + spill len p := by
  unfold start spill
  omega

/-- `spill` counts the slots it is named after. -/
theorem mem_spill {p s : Nat} :
    (p ≤ s ∧ s < p + spill len p) ↔ p ≤ s ∧ ∃ a, a < p ∧ Owns len a s := by
  constructor
  · rintro ⟨h1, h2⟩
    unfold spill at h2
    exact ⟨h1, owned_of_lt_ends h1 (by omega)⟩
  · rintro ⟨h1, a, ha, ho⟩
    have := ho.lt_ends ha
    unfold spill
    omega

theorem start_succ (b : Nat) : start len (b+1) = max (b+1) (start len b + len b) := by
  by_cases hl : len b = 0
  · have he := ends_succ_of_zero hl
    unfold start
    omega
  · have he := ends_succ_of_pos (by omega : 0 < len b)
    have hs : start len (b+1) = max (b+1) (ends len (b+1)) := rfl
    rw [hs, he]

theorem start_le_of_le {len' : Nat → Nat} (h : ∀ c, len' c ≤ len c) (b : Nat) :
    start len' b ≤ start len b := by
  induction b with
  | zero => exact Nat.le_refl _
  | succ b ih =>
    have := h b
    rw [start_succ, start_succ]
    omega

theorem ends_le_of_le {len' : Nat → Nat} (h : ∀ c, len' c ≤ len c) (b : Nat) :
    ends len' b ≤ ends len b := by
  induction b with
  | zero => exact Nat.le_refl _
  | succ b ih =>
    have hb := h b
    rcases Nat.eq_zero_or_pos (len' b) with h0 | hpos
    · rw [ends_succ_of_zero h0]
      exact ih.trans (ends_le_succ b)
    · have hs := start_le_of_le h b
      rw [ends_succ_of_pos hpos, ends_succ_of_pos (by omega)]
      omega

theorem spill_le_of_le {len' : Nat → Nat} (h : ∀ c, len' c ≤ len c) (p : Nat) :
    spill len' p ≤ spill len p := by
  have hs := start_le_of_le h p
  rw [start_eq_add_spill, start_eq_add_spill] at hs
  omega

theorem spill_congr {len' : Nat → Nat} {p q : Nat} (hs : spill len' p = spill len p)
    (hl : ∀ c, p ≤ c → len' c = len c) (hq : p ≤ q) : spill len' q = spill len q := by
  have hstart : start len' q = start len q := by
    induction hq with
    | refl => rw [start_eq_add_spill, start_eq_add_spill, hs]
    | step hq ih => rw [start_succ, start_succ, ih, hl _ hq]
  rw [start_eq_add_spill, start_eq_add_spill] at hstart
  omega

theorem spill_lt_of_lt {len' : Nat → Nat} {p k : Nat} (hs : spill len' p < spill len p)
    (hl : ∀ c, p ≤ c → len' c = len c) (hk : k ≤ spill len' p) :
    spill len' (p+k) < spill len (p+k) ∧ spill len' p ≤ spill len' (p+k) + k := by
  induction k with
  | zero => exact ⟨hs, Nat.le_refl _⟩
  | succ k ih =>
    obtain ⟨h1, h2⟩ := ih (by omega)
    have hnew := @start_succ len' (p+k)
    have hold := @start_succ len (p+k)
    rw [start_eq_add_spill, start_eq_add_spill, hl (p+k) (by omega)] at hnew
    rw [start_eq_add_spill, start_eq_add_spill] at hold
    rw [← Nat.add_assoc]
    omega

theorem spill_congr_of_lt {len' : Nat → Nat} {p : Nat} (h : ∀ c, c < p → len' c = len c) :
    spill len' p = spill len p := by
  rw [spill, ends_congr h]
  rfl

/-! `b` is the last bucket with a run. -/

theorem start_of_last {b n : Nat} (h : ∀ c, b < c → len c = 0) (hn : b < n) :
    start len n = max n (start len b + len b) := by
  have hends := @ends_eq_of_zero len (b+1) n (fun c hc => h c hc) hn
  have hsucc := @start_succ len b
  unfold start at hsucc ⊢
  omega

theorem spill_of_last {b p : Nat} (h : ∀ c, b < c → len c = 0) (hp : b < p) :
    spill len p = start len b + len b - p := by
  have hstart := start_of_last h hp
  rw [start_eq_add_spill p] at hstart
  omega

theorem lt_of_used_of_last {b s : Nat} (h : ∀ c, b < c → len c = 0) (hs : Used len s) :
    s < start len b + len b := by
  obtain ⟨c, hc⟩ := hs
  have hpos := hc.pos
  rcases Nat.lt_trichotomy c b with hlt | rfl | hgt
  · have hle := @start_add_le_start len _ _ hlt
    have h2 := hc.2
    omega
  · exact hc.2
  · have hz := h c hgt
    omega

end Lengths

/-! One more slot in the run of bucket `t`, at position `x`. -/
section Insert
variable {len : Nat → Nat} {t x e : Nat}

def grow (len : Nat → Nat) (t : Nat) : Nat → Nat := fun b => if b = t then len b + 1 else len b

theorem grow_self (len : Nat → Nat) (t : Nat) : grow len t t = len t + 1 := by simp [grow]

theorem grow_of_ne (len : Nat → Nat) {t b : Nat} (h : b ≠ t) : grow len t b = len b := by
  simp [grow, h]

theorem ends_grow_of_le {b : Nat} (h : b ≤ t) : ends (grow len t) b = ends len b := by
  induction b with
  | zero => rfl
  | succ b ih =>
    have hb := grow_of_ne len (by omega : b ≠ t)
    simp only [ends, hb, ih (by omega)]

theorem start_grow_of_le {b : Nat} (h : b ≤ t) : start (grow len t) b = start len b := by
  unfold start
  rw [ends_grow_of_le h]

/-- Everything behind the grown run moves on by one up to the first unused slot. -/
theorem ends_grow {b : Nat} (hx1 : start len t ≤ x) (hx2 : x ≤ start len t + len t)
    (he : FirstUnused len x e) (hb : t < b) :
    ends (grow len t) b =
      if ends len b ≤ e then max (ends len b) x + 1 else ends len b := by
  induction b with
  | zero => omega
  | succ b ih =>
    by_cases hbt : b = t
    · subst hbt
      have hg : ends (grow len b) (b+1) = start len b + len b + 1 := by
        rw [ends_succ_of_pos (by rw [grow_self]; omega), start_grow_of_le (Nat.le_refl b),
          grow_self]
        omega
      have hle := end_le_of_unused he.unused (hx1.trans he.le)
      rw [hg]
      by_cases hl : len b = 0
      · have := @ends_le_start len b
        rw [ends_succ_of_zero hl]
        split <;> omega
      · rw [ends_succ_of_pos (by omega)]
        split <;> omega
    · have ih := ih (by omega)
      have hgb := grow_of_ne len hbt
      by_cases hl : len b = 0
      · rw [ends_succ_of_zero hl, ends_succ_of_zero (by omega), ih]
      · rw [ends_succ_of_pos (by omega), ends_succ_of_pos (by omega), hgb]
        have hs : start len b = max b (ends len b) := rfl
        have hs' : start (grow len t) b = max b (ends (grow len t) b) := rfl
        by_cases hE : ends len b ≤ e
        · rw [if_pos hE] at ih
          by_cases hbe : b ≤ e
          · -- the slot `max (ends b) x` cannot lie in front of `b`: it would be unused
            have hM : b ≤ max (ends len b) x := by
              by_contra hc
              have hu := he.used (max (ends len b) x) (by omega) (by omega)
              exact unused_gap (b := b) (by omega) (by omega) hu
            have hxE : x ≤ ends len b := by
              by_contra hc
              have hz : len t = 0 := by
                by_contra hz
                have := @start_add_le_ends len _ _ (by omega : t < b) (by omega)
                omega
              have hst : start len t = max t (ends len t) := rfl
              have := @ends_mono len _ _ (by omega : t ≤ b)
              omega
            have := end_le_of_unused he.unused (b := b) (by omega)
            split <;> omega
          · have := he.le
            split <;> omega
        · rw [if_neg hE] at ih
          split <;> omega

theorem start_grow {b : Nat} (hx1 : start len t ≤ x) (hx2 : x ≤ start len t + len t)
    (he : FirstUnused len x e) (hb : t < b) (hl : 0 < len b) :
    (start len b + len b ≤ e ∧ x ≤ start len b ∧ start (grow len t) b = start len b + 1) ∨
      (e < start len b ∧ start (grow len t) b = start len b) := by
  have hg := ends_grow hx1 hx2 he hb
  have hgs := ends_grow hx1 hx2 he (by omega : t < b + 1)
  have hgb := grow_of_ne len (by omega : b ≠ t)
  rw [ends_succ_of_pos hl, ends_succ_of_pos (by omega), hgb] at hgs
  have hE : start len b = max b (ends len b) := rfl
  have hxs : x ≤ start len b := hx2.trans (start_add_le_start hb)
  split at hgs
  · left
    omega
  · right
    have : e < start len b := by
      by_contra hc
      have := end_le_of_unused he.unused (b := b) (by omega)
      omega
    omega

theorem spill_grow {p : Nat} (hx1 : start len t ≤ x) (hx2 : x ≤ start len t + len t)
    (he : FirstUnused len x e) (hp : t < p) :
    spill (grow len t) p = if p ≤ e then spill len p + 1 else spill len p := by
  have hg := ends_grow hx1 hx2 he hp
  unfold spill
  rw [hg]
  by_cases hpe : p ≤ e
  · rw [if_pos hpe]
    by_cases hE : ends len p ≤ e
    · rw [if_pos hE]
      have hM : p ≤ max (ends len p) x := by
        by_contra hc
        have hu := he.used (max (ends len p) x) (by omega) (by omega)
        exact unused_gap (b := p) (by omega) (by unfold start; omega) hu
      have hxE : x ≤ ends len p := by
        by_contra hc
        have hz : len t = 0 := by
          by_contra hz
          have := @start_add_le_ends len _ _ hp (by omega)
          omega
        have hst : start len t = max t (ends len t) := rfl
        have := @ends_mono len _ _ (by omega : t ≤ p)
        omega
      omega
    · obtain ⟨a, _, ho⟩ := @owned_of_lt_ends len _ _ hpe (by omega : e < ends len p)
      exact absurd ⟨a, ho⟩ he.unused
  · rw [if_neg hpe]
    have := he.le
    split <;> omega

theorem spill_grow_of_le {p : Nat} (hp : p ≤ t) : spill (grow len t) p = spill len p := by
  unfold spill
  rw [ends_grow_of_le hp]

end Insert

end RunLayout
