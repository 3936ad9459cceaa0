import AdaptiveQF.Lib.RunCells

/-! Rank and select on a row of cells: one marked cell in every non-empty run
makes the marks of the row follow the buckets in order. -/
namespace RunLayout
variable {α : Type*}

theorem count_eq_of_forall_not {p : Nat → Prop} [DecidablePred p] {a b : Nat} (hab : a ≤ b)
    (h : ∀ s, a ≤ s → s < b → ¬ p s) : Nat.count p b = Nat.count p a := by
  induction b with
  | zero =>
    have : a = 0 := by omega
    rw [this]
  | succ b ih =>
    by_cases hb : a = b + 1
    · rw [hb]
    · rw [Nat.count_succ, if_neg (h b (by omega) (by omega)), Nat.add_zero]
      exact ih (by omega) fun s h1 h2 => h s h1 (by omega)

theorem count_le_add {p : Nat → Prop} [DecidablePred p] {a b : Nat} (hab : a ≤ b) :
    Nat.count p b ≤ Nat.count p a + (b - a) := by
  obtain ⟨n, rfl⟩ := Nat.exists_eq_add_of_le hab
  rw [Nat.count_add]
  have := Nat.count_le (p := fun k => p (a + k)) (n := n)
  omega

theorem count_cells {mark : α → Bool} (l : List α) (f : Nat → α)
    (h : ∀ k a, l[k]? = some a → f k = a) :
    Nat.count (fun k => mark (f k) = true) l.length = l.countP mark := by
  induction l generalizing f with
  | nil => simp
  | cons a l ih =>
    have h0 : f 0 = a := h 0 a (by simp)
    have ht := ih (fun k => f (k+1)) fun k b hb => h (k+1) b (by simpa using hb)
    rw [List.length_cons, Nat.count_succ', ht, List.countP_cons, h0]

structure Marked (blank : α → Prop) (mark : α → Bool) (runs : Nat → List α) : Prop where
  blank : ∀ a, blank a → mark a = false
  one : ∀ b, 0 < lens runs b → (runs b).countP mark = 1

section
variable {blank : α → Prop} {mark : α → Bool} {runs : Nat → List α} {c : Nat → α}

theorem count_run (h : Holds blank runs c) (b : Nat) :
    Nat.count (fun s => mark (c s) = true) (start (lens runs) b + lens runs b) =
      Nat.count (fun s => mark (c s) = true) (start (lens runs) b) + (runs b).countP mark := by
  rw [Nat.count_add]
  have := @count_cells α mark (runs b) (fun k => c (start (lens runs) b + k)) (h.cell b)
  exact congrArg _ this

theorem count_start_of_ends (h : Holds blank runs c) (hm : Marked blank mark runs) (b : Nat) :
    Nat.count (fun s => mark (c s) = true) (start (lens runs) b) =
      Nat.count (fun s => mark (c s) = true) (ends (lens runs) b) := by
  apply count_eq_of_forall_not (ends_le_start b)
  intro s h1 h2
  rw [hm.blank _ (h.blank s (unused_gap h1 h2))]
  simp

/-- In front of the run of `b` there is one mark for each non-empty smaller bucket. -/
theorem count_marks (h : Holds blank runs c) (hm : Marked blank mark runs) (b : Nat) :
    Nat.count (fun s => mark (c s) = true) (start (lens runs) b) =
      Nat.count (fun a => 0 < lens runs a) b := by
  rw [count_start_of_ends h hm]
  induction b with
  | zero => simp [ends]
  | succ b ih =>
    rw [Nat.count_succ]
    by_cases hl : 0 < lens runs b
    · rw [ends_succ_of_pos hl, count_run h, count_start_of_ends h hm, ih, if_pos hl, hm.one b hl]
    · rw [ends_succ_of_zero (by omega), if_neg hl, ih, Nat.add_zero]

theorem count_marks_unused (h : Holds blank runs c) (hm : Marked blank mark runs) {e : Nat}
    (he : ¬ Used (lens runs) e) :
    Nat.count (fun s => mark (c s) = true) e = Nat.count (fun a => 0 < lens runs a) (e+1) := by
  have hs := count_marks h hm e
  rw [start_of_unused he] at hs
  have hl := len_of_unused he
  rw [hs, Nat.count_succ, if_neg (by omega), Nat.add_zero]

theorem count_marks_le (h : Holds blank runs c) (hm : Marked blank mark runs) (s : Nat) :
    Nat.count (fun s => mark (c s) = true) s ≤ Nat.count (fun a => 0 < lens runs a) s := by
  rw [← count_marks h hm s]
  exact Nat.count_monotone _ (le_start s)

/-- No more buckets than slots can be waiting for their mark. -/
theorem pending_le (h : Holds blank runs c) (hm : Marked blank mark runs) {s e : Nat}
    (hse : s ≤ e) (he : ¬ Used (lens runs) e) :
    Nat.count (fun a => 0 < lens runs a) (s+1) ≤
      Nat.count (fun s => mark (c s) = true) s + (e - s) := by
  have h1 := count_marks_unused h hm he
  have h2 := count_le_add (p := fun s => mark (c s) = true) hse
  have h3 := Nat.count_monotone (fun a => 0 < lens runs a) (by omega : s+1 ≤ e+1)
  omega

theorem count_at_mark (h : Holds blank runs c) (hm : Marked blank mark runs) {b k : Nat}
    (hf : ∀ i a, i < k → (runs b)[i]? = some a → mark a = false) (hk : k < lens runs b) :
    Nat.count (fun s => mark (c s) = true) (start (lens runs) b + k) =
      Nat.count (fun a => 0 < lens runs a) b := by
  rw [← count_marks h hm b]
  apply count_eq_of_forall_not (by omega)
  intro s h1 h2
  obtain ⟨i, rfl⟩ := Nat.exists_eq_add_of_le h1
  have hi : i < (runs b).length := by
    unfold lens at hk
    omega
  have hc := h.cell b i (runs b)[i] (List.getElem?_eq_getElem hi)
  rw [hc, hf i _ (by omega) (List.getElem?_eq_getElem hi)]
  simp

end

theorem exists_last_pos {len : Nat → Nat} {p b : Nat} (hpb : p ≤ b)
    (h : Nat.count (fun a => 0 < len a) p < Nat.count (fun a => 0 < len a) (b+1)) :
    ∃ a, p ≤ a ∧ a ≤ b ∧ 0 < len a ∧ (∀ d, a < d → d ≤ b → len d = 0) ∧
      Nat.count (fun a => 0 < len a) a + 1 = Nat.count (fun a => 0 < len a) (b+1) := by
  induction b with
  | zero =>
    have hp : p = 0 := by omega
    subst hp
    by_cases hl : 0 < len 0
    · exact ⟨0, by omega, by omega, hl, fun d h1 h2 => by omega, by simp [Nat.count_succ, hl]⟩
    · simp [Nat.count_succ, hl] at h
  | succ b ih =>
    by_cases hl : 0 < len (b+1)
    · refine ⟨b+1, hpb, by omega, hl, fun d h1 h2 => by omega, ?_⟩
      rw [Nat.count_succ _ (b+1), if_pos hl]
    · rw [Nat.count_succ _ (b+1), if_neg hl, Nat.add_zero] at h
      have hpb' : p ≤ b := by
        by_contra hc
        have hp : p = b+1 := by omega
        rw [hp] at h
        omega
      obtain ⟨a, h1, h2, h3, h4, h5⟩ := ih hpb' h
      refine ⟨a, h1, by omega, h3, fun d hd1 hd2 => ?_, ?_⟩
      · by_cases hd : d = b+1
        · rw [hd]
          omega
        · exact h4 d hd1 (by omega)
      · rw [Nat.count_succ _ (b+1), if_neg hl]
        omega

theorem ends_eq_of_gap {len : Nat → Nat} {a b : Nat} (hab : a ≤ b)
    (h : ∀ d, a ≤ d → d < b → len d = 0) : ends len b = ends len a := by
  induction b with
  | zero =>
    have : a = 0 := by omega
    rw [this]
  | succ b ih =>
    by_cases hb : a = b + 1
    · rw [hb]
    · rw [ends_succ_of_zero (h b (by omega) (by omega))]
      exact ih (by omega) fun d h1 h2 => h d h1 (by omega)

theorem gap_of_count_eq {len : Nat → Nat} {a b : Nat}
    (h : Nat.count (fun a => 0 < len a) b ≤ Nat.count (fun a => 0 < len a) a) :
    ∀ d, a ≤ d → d < b → len d = 0 := by
  intro d h1 h2
  by_contra hd
  have h3 := Nat.count_strict_mono (p := fun a => 0 < len a) (by omega : 0 < len d) h2
  have h4 := Nat.count_monotone (fun a => 0 < len a) h1
  omega

end RunLayout
