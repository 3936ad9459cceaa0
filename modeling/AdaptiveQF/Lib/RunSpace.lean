import AdaptiveQF.Lib.RunCount
import Mathlib.Algebra.BigOperators.Group.Finset.Piecewise

/-! How many slots of a row are used, and how many are left behind a slot. -/
namespace RunLayout
open Finset

section
variable {len len' : Nat → Nat} {t x n s : Nat}

theorem sum_update_add (f : Nat → Nat) (ht : t < n) (v : Nat) :
    (∑ c ∈ range n, Function.update f t v c) + f t = (∑ c ∈ range n, f c) + v := by
  have hold := add_sum_erase (range n) f (mem_range.mpr ht)
  rw [sum_update_of_mem (mem_range.mpr ht), sdiff_singleton_eq_erase]
  omega

theorem used_iff (len : Nat → Nat) (s : Nat) : Used len s ↔ s < ends len (s+1) := by
  constructor
  · rintro ⟨b, ho⟩
    exact ho.lt_ends (by have := ho.bucket_le; omega)
  · intro h
    by_cases hl : len s = 0
    · rw [ends_succ_of_zero hl] at h
      obtain ⟨a, -, ho⟩ := owned_of_lt_ends (Nat.le_refl s) h
      exact ⟨a, ho⟩
    · exact used_of_pos (by omega)

instance (len : Nat → Nat) : DecidablePred (Used len) :=
  fun s => decidable_of_iff _ (used_iff len s).symm

def free (len : Nat → Nat) (x n : Nat) : Nat := Nat.count (fun k => ¬ Used len (x+k)) (n - x)

theorem count_used_ends (len : Nat → Nat) (b : Nat) :
    Nat.count (Used len) (ends len b) = ∑ a ∈ range b, len a := by
  induction b with
  | zero => simp [ends]
  | succ b ih =>
    rw [sum_range_succ, ← ih]
    by_cases hl : len b = 0
    · rw [ends_succ_of_zero hl, hl, Nat.add_zero]
    · have hgap : Nat.count (Used len) (start len b) = Nat.count (Used len) (ends len b) :=
        count_eq_of_forall_not (ends_le_start b) fun s h1 h2 => unused_gap h1 h2
      have hrun : Nat.count (fun k => Used len (start len b + k)) (len b) = len b :=
        Nat.count_iff_forall.mpr fun k hk => ⟨b, by unfold Owns; omega⟩
      rw [ends_succ_of_pos (by omega), Nat.count_add, hgap, hrun]

theorem sum_le_ends (len : Nat → Nat) (b : Nat) : ∑ a ∈ range b, len a ≤ ends len b := by
  rw [← count_used_ends]
  exact Nat.count_le _

/-- A row that ends in front of `n` uses as many slots as its runs are long. -/
theorem count_used (h : ends len n ≤ n) : Nat.count (Used len) n = ∑ a ∈ range n, len a := by
  rw [← count_used_ends]
  refine count_eq_of_forall_not h fun s h1 h2 => ?_
  rintro ⟨b, ho⟩
  have := ho.bucket_le
  have := ho.lt_ends (by omega : b < n)
  omega

theorem free_add_count (len : Nat → Nat) (hx : x ≤ n) :
    free len x n + Nat.count (Used len) n = n - x + Nat.count (Used len) x := by
  obtain ⟨k, rfl⟩ := Nat.exists_eq_add_of_le hx
  have hsplit := Nat.count_add (Used len) x k
  have hnot : ∀ k, Nat.count (fun k => ¬ Used len (x+k)) k +
      Nat.count (fun k => Used len (x+k)) k = k := by
    intro k
    induction k with
    | zero => simp
    | succ k ih =>
      rw [Nat.count_succ, Nat.count_succ]
      by_cases hu : Used len (x+k)
      · rw [if_neg (by simpa using hu), if_pos hu]
        omega
      · rw [if_pos hu, if_neg hu]
        omega
  have := hnot k
  unfold free
  rw [Nat.add_sub_cancel_left]
  omega

theorem free_pos_iff : 0 < free len x n ↔ ∃ e, FirstUnused len x e ∧ e < n := by
  unfold free
  constructor
  · intro h
    have hex : ∃ k, ¬ Used len (x+k) ∧ k < n - x := by
      by_contra hno
      have hzero := count_eq_of_forall_not (p := fun k => ¬ Used len (x+k)) (Nat.zero_le (n - x))
        fun k _ hk hu => hno ⟨k, hu, hk⟩
      rw [hzero, Nat.count_zero] at h
      omega
    have hfind : ∃ k, ¬ Used len (x+k) := hex.imp fun k h => h.1
    obtain ⟨k, hk, hlt⟩ := hex
    have hle := Nat.find_min' hfind hk
    refine ⟨x + Nat.find hfind, ⟨by omega, Nat.find_spec hfind, fun s h1 h2 => ?_⟩, by omega⟩
    obtain ⟨j, rfl⟩ := Nat.exists_eq_add_of_le h1
    exact not_not.mp (Nat.find_min hfind (by omega : j < Nat.find hfind))
  · rintro ⟨e, he, hlt⟩
    obtain ⟨k, rfl⟩ := Nat.exists_eq_add_of_le he.le
    have h1 : Nat.count (fun k => ¬ Used len (x+k)) (k+1) ≤
        Nat.count (fun k => ¬ Used len (x+k)) (n - x) := Nat.count_monotone _ (by omega)
    rw [Nat.count_succ, if_pos he.unused] at h1
    omega

theorem free_eq_of_used {y : Nat} (hxy : x ≤ y) (hyn : y ≤ n)
    (h : ∀ s, x ≤ s → s < y → Used len s) : free len x n = free len y n := by
  obtain ⟨k, rfl⟩ := Nat.exists_eq_add_of_le hxy
  have h1 := free_add_count len (hxy.trans hyn)
  have h2 := free_add_count len hyn
  have hall : Nat.count (fun k => Used len (x+k)) k = k :=
    Nat.count_iff_forall.mpr fun j hj => h (x+j) (by omega) (by omega)
  have hsplit := Nat.count_add (Used len) x k
  omega

theorem used_congr (h : ∀ c, c ≠ t → len' c = len c) (hle : len t ≤ len' t)
    (hs : s < start len t + len t) : Used len' s ↔ Used len s := by
  have hends : ∀ c, c ≤ t → start len' c = start len c := by
    intro c hc
    unfold start
    rw [ends_congr fun a ha => h a (by omega)]
  have hstart := hends t (Nat.le_refl t)
  have hlater : ∀ (l : Nat → Nat) c, t < c → Owns l c s → start l t + l t ≤ s := by
    intro l c hc ho
    exact (start_add_le_start hc).trans ho.1
  constructor
  · rintro ⟨c, ho⟩
    rcases Nat.lt_trichotomy c t with hc | rfl | hc
    · refine ⟨c, ?_⟩
      rw [Owns, hends c (by omega), h c (by omega)] at ho
      exact ho
    · exact ⟨c, by rw [Owns, hstart] at ho; exact ⟨ho.1, hs⟩⟩
    · have := hlater len' c hc ho
      omega
  · rintro ⟨c, ho⟩
    rcases Nat.lt_trichotomy c t with hc | rfl | hc
    · refine ⟨c, ?_⟩
      rw [Owns, hends c (by omega), h c (by omega)]
      exact ho
    · exact ⟨c, by rw [Owns, hstart]; exact ⟨ho.1, by omega⟩⟩
    · have := hlater len c hc ho
      omega

/-- Each new slot of a run takes an unused one behind the place where it grows. -/
theorem free_grow (h : ∀ c, c ≠ t → len' c = len c) {k : Nat} (hk : len' t = len t + k)
    (hx : x ≤ start len t + len t) (hn : ends len n ≤ n) (hn' : ends len' n ≤ n) (ht : t < n)
    (hxn : x ≤ n) : free len x n = free len' x n + k := by
  have h1 := free_add_count len hxn
  have h2 := free_add_count len' hxn
  have hbelow : Nat.count (Used len') x = Nat.count (Used len) x := by
    have hiff : ∀ s, s < x → (Used len' s ↔ Used len s) :=
      fun s hs => used_congr h (by omega) (by omega)
    rw [Nat.count_eq_card_filter_range, Nat.count_eq_card_filter_range]
    refine congrArg card (filter_congr fun s hs => hiff s (mem_range.mp hs))
  have hsum : ∑ a ∈ range n, len' a = (∑ a ∈ range n, len a) + k := by
    have hup : len' = Function.update len t (len t + k) := by
      funext c
      by_cases hc : c = t
      · subst hc
        rw [Function.update_self, hk]
      · rw [Function.update_of_ne hc, h c hc]
    have := sum_update_add len ht (len t + k)
    rw [← hup] at this
    omega
  rw [count_used hn] at h1
  rw [count_used hn', hsum] at h2
  omega

theorem FirstUnused.of_run {e : Nat} (hx1 : start len t ≤ x) (hx2 : x ≤ start len t + len t)
    (he : FirstUnused len x e) : FirstUnused len t e := by
  have hle := @le_start len t
  refine ⟨by have := he.le; omega, he.unused, fun s h1 h2 => ?_⟩
  by_cases hs : s < start len t
  · obtain ⟨a, -, ho⟩ := @owned_of_lt_ends len t s h1 (by unfold start at hs; omega)
    exact ⟨a, ho⟩
  · by_cases hsx : s < x
    · exact ⟨t, by unfold Owns; omega⟩
    · exact he.used s (by omega) h2

theorem used_grow {e : Nat} (hx1 : start len t ≤ x) (hx2 : x ≤ start len t + len t)
    (he : FirstUnused len x e) : Used (grow len t) s ↔ Used len s ∨ s = e := by
  have het := he.of_run hx1 hx2
  rw [used_iff, used_iff]
  by_cases hst : s < t
  · have := het.le
    rw [ends_grow_of_le (by omega)]
    omega
  · have hends := ends_grow hx1 hx2 he (by omega : t < s + 1)
    have hunused := het.unused
    rw [used_iff] at hunused
    have hlow : s < e → s < ends len (s+1) := fun h =>
      (used_iff len s).mp (het.used s (by omega) h)
    have hprev : x < e → e - 1 < ends len e := by
      intro h
      have hused := (used_iff len (e-1)).mp (he.used (e-1) (by omega) (by omega))
      rwa [Nat.sub_add_cancel (by omega)] at hused
    have hmono : ends len e ≤ ends len (e+1) := ends_le_succ e
    have hxe := he.le
    rw [hends]
    by_cases hse : s = e
    · subst hse
      rw [if_pos (by omega)]
      omega
    · split <;> omega

theorem count_insert {p q : Nat → Prop} [DecidablePred p] [DecidablePred q] {e : Nat}
    (h : ∀ k, q k ↔ p k ∨ k = e) (he : ¬ p e) (n : Nat) :
    Nat.count q n = Nat.count p n + if e < n then 1 else 0 := by
  induction n with
  | zero => simp
  | succ n ih =>
    rw [Nat.count_succ, Nat.count_succ, ih]
    by_cases hn : n = e
    · subst hn
      rw [if_pos ((h n).mpr (.inr rfl)), if_neg he, if_neg (Nat.lt_irrefl n), if_pos (by omega)]
    · by_cases hp : p n
      · rw [if_pos ((h n).mpr (.inl hp)), if_pos hp]
        split <;> split <;> omega
      · rw [if_neg fun hq => ((h n).mp hq).elim hp hn, if_neg hp]
        split <;> split <;> omega

theorem free_of_used {e : Nat} (h : ∀ s, Used len' s ↔ Used len s ∨ s = e) (he : ¬ Used len e)
    (hx : x ≤ e) (n : Nat) : free len x n = free len' x n + if e < n then 1 else 0 := by
  have hcount := @count_insert (fun k => ¬ Used len' (x+k)) (fun k => ¬ Used len (x+k)) _ _ (e-x)
    (fun k => ?_) (fun hno => hno ((h _).mpr (.inr (by omega)))) (n-x)
  · unfold free
    rw [hcount]
    congr 1
    by_cases hn : e < n
    · rw [if_pos hn, if_pos (by omega)]
    · rw [if_neg hn, if_neg (by omega)]
  · by_cases hk : k = e - x
    · have hxk : x + k = e := by omega
      simp only [hk, or_true, iff_true]
      rw [← hk, hxk]
      exact he
    · have hne : x + k ≠ e := by omega
      simp only [h, hne, hk, or_false]

theorem free_mono {m : Nat} (h : n ≤ m) : free len x n ≤ free len x m :=
  Nat.count_monotone _ (by omega)

end

end RunLayout
