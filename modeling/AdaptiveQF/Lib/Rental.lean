import Mathlib.Data.List.Basic
import Mathlib.Data.List.Induction

/-! Ledgers of items that are rented a fixed number of times and then bought. -/
namespace Rental

structure Charge (ι κ : Type*) where
  item : ι
  account : κ
  bought : Bool

variable {ι κ : Type*} [DecidableEq ι]

abbrev Ledger (ι κ : Type*) := List (Charge ι κ)

def Ledger.to (l : Ledger ι κ) (i : ι) : Ledger ι κ := l.filter fun c => c.item = i

def BreakEven (k : Nat) (l : Ledger ι κ) : Prop :=
  ∀ i n c, (l.to i)[n]? = some c → c.bought = decide ((n + 1) % k = 0)

def Settled (l : Ledger ι κ) : Prop :=
  l.Pairwise fun a b => a.item = b.item → a.bought = true → a.account ≠ b.account

section
variable {l : Ledger ι κ} {c : Charge ι κ} {i : ι} {k : Nat}

theorem to_concat (l : Ledger ι κ) (c : Charge ι κ) (i : ι) :
    Ledger.to (l ++ [c]) i = l.to i ++ if c.item = i then [c] else [] := by
  by_cases h : c.item = i <;> simp [Ledger.to, h]

theorem breakEven_nil (k : Nat) : BreakEven k ([] : Ledger ι κ) := by
  intro i n c h
  simp [Ledger.to] at h

theorem BreakEven.concat (h : BreakEven k l)
    (hc : c.bought = decide (((l.to c.item).length + 1) % k = 0)) : BreakEven k (l ++ [c]) := by
  intro i n d hd
  rw [to_concat] at hd
  by_cases hn : n < (l.to i).length
  · rw [List.getElem?_append_left hn] at hd
    exact h i n d hd
  · rw [List.getElem?_append_right (by omega)] at hd
    by_cases hi : c.item = i
    · rw [if_pos hi, List.getElem?_singleton] at hd
      split at hd
      next hz =>
        obtain rfl := Option.some.inj hd
        have hlen : n = (l.to c.item).length := by
          rw [hi]
          omega
        rw [hlen]
        exact hc
      next => cases hd
    · rw [if_neg hi] at hd
      cases hd

omit [DecidableEq ι] in
theorem Settled.concat (h : Settled l)
    (hc : ∀ d ∈ l, d.item = c.item → d.bought = true → d.account ≠ c.account) :
    Settled (l ++ [c]) := by
  refine List.pairwise_append.mpr ⟨h, List.pairwise_singleton _ _, fun a ha b hb => ?_⟩
  rw [List.mem_singleton.mp hb]
  exact hc a ha

theorem to_concat_of_ne (h : c.item ≠ i) : Ledger.to (l ++ [c]) i = l.to i := by
  rw [to_concat, if_neg h, List.append_nil]

theorem length_to_concat (l : Ledger ι κ) (c : Charge ι κ) :
    (Ledger.to (l ++ [c]) c.item).length = (l.to c.item).length + 1 := by
  rw [to_concat, if_pos rfl, List.length_append, List.length_singleton]

end

theorem succ_mod {n k : Nat} (hk : 0 < k) :
    (n + 1) % k = if n % k + 1 = k then 0 else n % k + 1 := by
  have hlt := Nat.mod_lt n hk
  rw [← Nat.mod_add_mod]
  split
  next h => rw [h, Nat.mod_self]
  next h => exact Nat.mod_eq_of_lt (by omega)

end Rental
