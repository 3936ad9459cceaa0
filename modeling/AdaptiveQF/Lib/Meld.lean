import Mathlib.Algebra.GroupWithZero.Nat
import Mathlib.Algebra.Order.BigOperators.Group.List
import Mathlib.Algebra.Order.Group.Nat
import Mathlib.Data.List.Nodup

/-! Melding two lists from their heads: the head with the smaller key goes first, and two heads of
one key become one. The lists need not be sorted. -/
namespace Meld
variable {α κ : Type*} [LinearOrder κ]

def meld (key : α → κ) (one : α → α) (join : α → α → α) : List α → List α → List α
  | [], bs => bs.map one
  | a::as, [] => (a::as).map one
  | a::as, b::bs =>
    if key a < key b then one a :: meld key one join as (b::bs)
    else if key b < key a then one b :: meld key one join (a::as) bs
    else join a b :: meld key one join as bs
termination_by as bs => as.length + bs.length

def met (key : α → κ) : List α → List α → List (α × α)
  | [], _ => []
  | _::_, [] => []
  | a::as, b::bs =>
    if key a < key b then met key as (b::bs)
    else if key b < key a then met key (a::as) bs
    else (a, b) :: met key as bs
termination_by as bs => as.length + bs.length

def facing (key : α → κ) : List α → List α → Option α
  | [], _ => none
  | _::_, [] => none
  | a::as, b::bs =>
    if key a < key b then if as.isEmpty then some b else facing key as (b::bs)
    else if key b < key a then facing key (a::as) bs
    else facing key as bs
termination_by as bs => as.length + bs.length

section Skyline

/-- The keys that are larger than `k` and than all keys behind them. -/
def skyline (k : κ) : List κ → List κ
  | [] => []
  | a::l => if (skyline k l).headD k < a then a :: skyline k l else skyline k l

def top (k : κ) (l : List κ) : κ := (skyline k l).headD k

variable {k a : κ} {l : List κ}

theorem skyline_cons_of_lt (h : top k l < a) : skyline k (a::l) = a :: skyline k l := if_pos h

theorem skyline_cons_of_le (h : a ≤ top k l) : skyline k (a::l) = skyline k l :=
  if_neg (not_lt.mpr h)

theorem top_cons_of_lt (h : top k l < a) : top k (a::l) = a := by
  rw [top, skyline_cons_of_lt h]
  rfl

theorem top_cons_of_le (h : a ≤ top k l) : top k (a::l) = top k l := by
  rw [top, skyline_cons_of_le h]
  rfl

theorem le_top (k : κ) (l : List κ) : k ≤ top k l := by
  induction l with
  | nil => exact le_refl k
  | cons a l ih =>
    rcases lt_or_ge (top k l) a with h | h
    · rw [top_cons_of_lt h]
      exact ih.trans h.le
    · rw [top_cons_of_le h]
      exact ih

theorem le_top_of_mem (h : a ∈ l) : a ≤ top k l := by
  induction l with
  | nil => simp at h
  | cons b l ih =>
    rcases lt_or_ge (top k l) b with hb | hb
    · rw [top_cons_of_lt hb]
      rcases List.mem_cons.mp h with rfl | h
      · exact le_refl a
      · exact (ih h).trans hb.le
    · rw [top_cons_of_le hb]
      rcases List.mem_cons.mp h with rfl | h
      · exact hb
      · exact ih h

theorem top_mem (k : κ) (l : List κ) : top k l = k ∨ top k l ∈ l := by
  induction l with
  | nil => exact .inl rfl
  | cons a l ih =>
    rcases lt_or_ge (top k l) a with h | h
    · rw [top_cons_of_lt h]
      exact .inr List.mem_cons_self
    · rw [top_cons_of_le h]
      exact ih.imp id (List.mem_cons_of_mem a)

/-- Where one of two prefixes has a larger top, the skylines differ. -/
theorem skyline_ne {k : κ} {l1 l2 : List κ} (h : top k l1 < top k l2) :
    skyline k l1 ≠ skyline k l2 := by
  intro heq
  rw [top, top, heq] at h
  exact lt_irrefl _ h

/-- A head in front of the smaller one changes nothing: its list has the smaller top, or it is not
in the skyline. -/
theorem skyline_cons_iff {k a : κ} {l1 l2 : List κ} (h : a < top k l2) :
    skyline k (a::l1) = skyline k l2 ↔ skyline k l1 = skyline k l2 := by
  rcases lt_or_ge (top k l1) a with ha | ha
  · have h1 : skyline k (a::l1) ≠ skyline k l2 := skyline_ne (by rwa [top_cons_of_lt ha])
    exact ⟨fun he => absurd he h1, fun he => absurd he (skyline_ne (ha.trans h))⟩
  · rw [skyline_cons_of_le ha]

theorem skyline_cons_cons_iff {k a : κ} {l1 l2 : List κ} (hk : a ≠ k) (h1 : a ∉ l1) (h2 : a ∉ l2) :
    skyline k (a::l1) = skyline k (a::l2) ↔ skyline k l1 = skyline k l2 := by
  have hne : ∀ {l : List κ}, a ∉ l → a ≤ top k l → a < top k l := by
    intro l hl hle
    rcases hle.lt_or_eq with hlt | heq
    · exact hlt
    · rcases top_mem k l with ht | ht
      · exact absurd (heq.trans ht) hk
      · exact absurd (heq ▸ ht) hl
  rcases lt_or_ge (top k l1) a with ha | ha
  · rcases lt_or_ge (top k l2) a with hb | hb
    · rw [skyline_cons_of_lt ha, skyline_cons_of_lt hb, List.cons.injEq]
      exact and_iff_right rfl
    · rw [skyline_cons_of_le hb]
      exact skyline_cons_iff (hne h2 hb)
  · rw [skyline_cons_of_le ha]
    constructor
    · exact fun he => ((skyline_cons_iff (hne h1 ha)).mp he.symm).symm
    · exact fun he => ((skyline_cons_iff (hne h1 ha)).mpr he.symm).symm

end Skyline

section
variable {key : α → κ} {one : α → α} {join : α → α → α} {as bs a1 a2 b1 b2 : List α} {x y : α}

theorem meld_nil_left (bs : List α) : meld key one join [] bs = bs.map one := by
  rw [meld]

theorem meld_nil_right (as : List α) : meld key one join as [] = as.map one := by
  cases as <;> simp [meld]

theorem met_nil_right (as : List α) : met key as [] = [] := by
  cases as <;> simp [met]

theorem meld_cons_of_lt {a b : α} (h : key a < key b) :
    meld key one join (a::as) (b::bs) = one a :: meld key one join as (b::bs) := by
  rw [meld, if_pos h]

theorem meld_cons_of_gt {a b : α} (h : key b < key a) :
    meld key one join (a::as) (b::bs) = one b :: meld key one join (a::as) bs := by
  rw [meld, if_neg h.asymm, if_pos h]

theorem meld_cons_of_eq {a b : α} (h : key a = key b) :
    meld key one join (a::as) (b::bs) = join a b :: meld key one join as bs := by
  rw [meld, if_neg (not_lt_of_ge h.ge), if_neg (not_lt_of_ge h.le)]

theorem met_cons_of_lt {a b : α} (h : key a < key b) :
    met key (a::as) (b::bs) = met key as (b::bs) := by
  rw [met, if_pos h]

theorem met_cons_of_gt {a b : α} (h : key b < key a) :
    met key (a::as) (b::bs) = met key (a::as) bs := by
  rw [met, if_neg h.asymm, if_pos h]

theorem met_cons_of_eq {a b : α} (h : key a = key b) :
    met key (a::as) (b::bs) = (a, b) :: met key as bs := by
  rw [met, if_neg (not_lt_of_ge h.ge), if_neg (not_lt_of_ge h.le)]

theorem facing_nil_right (as : List α) : facing key as [] = none := by
  cases as <;> simp [facing]

theorem facing_cons_of_lt {a b : α} (h : key a < key b) : facing key (a::as) (b::bs) =
    if as.isEmpty then some b else facing key as (b::bs) := by
  rw [facing, if_pos h]

theorem facing_cons_of_gt {a b : α} (h : key b < key a) :
    facing key (a::as) (b::bs) = facing key (a::as) bs := by
  rw [facing, if_neg h.asymm, if_pos h]

theorem facing_cons_of_eq {a b : α} (h : key a = key b) :
    facing key (a::as) (b::bs) = facing key as bs := by
  rw [facing, if_neg (not_lt_of_ge h.ge), if_neg (not_lt_of_ge h.le)]

theorem facing_of_lt {b : α} (hne : as ≠ []) (h : ∀ a ∈ as, key a < key b) :
    facing key as (b::bs) = some b := by
  induction as with
  | nil => exact absurd rfl hne
  | cons a as ih =>
    rw [facing_cons_of_lt (h a List.mem_cons_self)]
    cases as with
    | nil => rfl
    | cons c as => exact ih (by simp) fun x hx => h x (.tail _ hx)

theorem induct {motive : List α → List α → Prop} (key : α → κ)
    (nil_left : ∀ bs, motive [] bs) (nil_right : ∀ as, motive as [])
    (lt : ∀ a as b bs, key a < key b → motive as (b::bs) → motive (a::as) (b::bs))
    (gt : ∀ a as b bs, key b < key a → motive (a::as) bs → motive (a::as) (b::bs))
    (eq : ∀ a as b bs, key a = key b → motive as bs → motive (a::as) (b::bs)) (as bs : List α) :
    motive as bs := by
  induction as, bs using met.induct key with
  | case1 bs => exact nil_left bs
  | case2 a as => exact nil_right _
  | case3 a as b bs h ih => exact lt a as b bs h ih
  | case4 a as b bs h1 h2 ih => exact gt a as b bs h2 ih
  | case5 a as b bs h1 h2 ih => exact eq a as b bs (le_antisymm (not_lt.mp h2) (not_lt.mp h1)) ih

theorem mem_met (h : (x, y) ∈ met key as bs) : x ∈ as ∧ y ∈ bs ∧ key x = key y := by
  induction as, bs using induct key with
  | nil_left bs => simp [met] at h
  | nil_right as => simp [met_nil_right] at h
  | lt a as b bs hab ih =>
    rw [met_cons_of_lt hab] at h
    obtain ⟨h1, h2⟩ := ih h
    exact ⟨List.mem_cons_of_mem a h1, h2⟩
  | gt a as b bs hab ih =>
    rw [met_cons_of_gt hab] at h
    obtain ⟨h1, h2, h3⟩ := ih h
    exact ⟨h1, List.mem_cons_of_mem b h2, h3⟩
  | eq a as b bs hab ih =>
    rw [met_cons_of_eq hab, List.mem_cons] at h
    rcases h with h | h
    · obtain ⟨rfl, rfl⟩ := Prod.mk.inj h
      exact ⟨List.mem_cons_self, List.mem_cons_self, hab⟩
    · obtain ⟨h1, h2, h3⟩ := ih h
      exact ⟨List.mem_cons_of_mem a h1, List.mem_cons_of_mem b h2, h3⟩

theorem met_fst_sublist (key : α → κ) (as bs : List α) :
    ((met key as bs).map Prod.fst).Sublist as := by
  induction as, bs using induct key with
  | nil_left bs => simp [met]
  | nil_right as => simp [met_nil_right]
  | lt a as b bs hab ih =>
    rw [met_cons_of_lt hab]
    exact ih.cons a
  | gt a as b bs hab ih =>
    rw [met_cons_of_gt hab]
    exact ih
  | eq a as b bs hab ih =>
    rw [met_cons_of_eq hab, List.map_cons]
    exact ih.cons_cons a

theorem key_le_top {k : κ} {b : α} (hb : b :: bs = b1 ++ y :: b2) (hk : key y = k) :
    key b ≤ top k (b1.map key) := by
  cases b1 with
  | nil =>
    obtain ⟨rfl, -⟩ := List.cons.inj hb
    rw [hk]
    exact le_top ..
  | cons c b1 =>
    obtain ⟨rfl, -⟩ := List.cons.inj hb
    exact le_top_of_mem (by simp)

/-- Two elements of one key become one if and only if both lists have the same larger keys in sight
in front of them. -/
theorem mem_met_iff (ha : (as.map key).Nodup) (hb : (bs.map key).Nodup) (has : as = a1 ++ x :: a2)
    (hbs : bs = b1 ++ y :: b2) (hk : key x = key y) : (x, y) ∈ met key as bs ↔
      skyline (key x) (a1.map key) = skyline (key x) (b1.map key) := by
  induction as, bs using induct key generalizing a1 b1 with
  | nil_left bs => simp at has
  | nil_right as => simp at hbs
  | lt a as b bs hab ih =>
    have hle := key_le_top hbs hk.symm
    rw [met_cons_of_lt hab]
    have hnd := List.nodup_cons.mp ha
    cases a1 with
    | nil =>
      obtain ⟨rfl, rfl⟩ := List.cons.inj has
      have hno : (a, y) ∉ met key as (b::bs) := fun hc =>
        hnd.1 (List.mem_map_of_mem (mem_met hc).1)
      exact ⟨fun hc => absurd hc hno, fun he => absurd he (skyline_ne (hab.trans_le hle))⟩
    | cons c a1 =>
      obtain ⟨rfl, rfl⟩ := List.cons.inj has
      rw [ih hnd.2 hb rfl hbs, List.map_cons, skyline_cons_iff (hab.trans_le hle)]
  | gt a as b bs hab ih =>
    have hle : key a ≤ top (key x) (a1.map key) := key_le_top has rfl
    rw [met_cons_of_gt hab]
    have hnd := List.nodup_cons.mp hb
    cases b1 with
    | nil =>
      obtain ⟨rfl, rfl⟩ := List.cons.inj hbs
      have hno : (x, b) ∉ met key (a::as) bs := fun hc =>
        hnd.1 (List.mem_map_of_mem (mem_met hc).2.1)
      have hlt : key x < top (key x) (a1.map key) := (hk.trans_lt hab).trans_le hle
      exact ⟨fun hc => absurd hc hno, fun he => absurd he.symm (skyline_ne hlt)⟩
    | cons c b1 =>
      obtain ⟨rfl, rfl⟩ := List.cons.inj hbs
      have hcons : skyline (key x) (key b :: b1.map key) = skyline (key x) (a1.map key) ↔
          skyline (key x) (b1.map key) = skyline (key x) (a1.map key) :=
        skyline_cons_iff (hab.trans_le hle)
      rw [ih ha hnd.2 has rfl, List.map_cons]
      exact ⟨fun he => (hcons.mpr he.symm).symm, fun he => (hcons.mp he.symm).symm⟩
  | eq a as b bs hab ih =>
    rw [met_cons_of_eq hab, List.mem_cons]
    have hnda := List.nodup_cons.mp ha
    have hndb := List.nodup_cons.mp hb
    cases a1 with
    | nil =>
      obtain ⟨rfl, rfl⟩ := List.cons.inj has
      cases b1 with
      | nil =>
        obtain ⟨rfl, rfl⟩ := List.cons.inj hbs
        simp
      | cons c b1 =>
        obtain ⟨rfl, rfl⟩ := List.cons.inj hbs
        exact absurd (List.mem_map_of_mem (by simp)) ((hab.symm.trans hk) ▸ hndb.1)
    | cons c a1 =>
      obtain ⟨rfl, rfl⟩ := List.cons.inj has
      have hax : key a ≠ key x := fun he =>
        hnda.1 (he ▸ List.mem_map_of_mem (by simp))
      cases b1 with
      | nil =>
        obtain ⟨rfl, rfl⟩ := List.cons.inj hbs
        exact absurd (hab.trans hk.symm) hax
      | cons c b1 =>
        obtain ⟨rfl, rfl⟩ := List.cons.inj hbs
        have hne : (x, y) ≠ (a, b) := fun he => hax (congrArg key (Prod.mk.inj he).1).symm
        have hb1 : key a ∉ b1.map key := fun hm => hndb.1 (by
          simpa [hab] using Or.inl (List.mem_map.mp (hab ▸ hm)))
        have ha1 : key a ∉ a1.map key := fun hm => hnda.1 (by
          simpa using Or.inl (List.mem_map.mp hm))
        rw [or_iff_right hne, ih hnda.2 hndb.2 rfl rfl, List.map_cons, List.map_cons, ← hab,
          skyline_cons_cons_iff hax ha1 hb1]

theorem mem_meld (h : x ∈ meld key one join as bs) :
    (∃ a ∈ as ++ bs, x = one a) ∨ ∃ a ∈ as, ∃ b ∈ bs, key a = key b ∧ x = join a b := by
  induction as, bs using induct key with
  | nil_left bs =>
    rw [meld_nil_left] at h
    obtain ⟨b, hb, rfl⟩ := List.mem_map.mp h
    exact .inl ⟨b, hb, rfl⟩
  | nil_right as =>
    rw [meld_nil_right] at h
    obtain ⟨a, ha, rfl⟩ := List.mem_map.mp h
    exact .inl ⟨a, by simpa using ha, rfl⟩
  | lt a as b bs hab ih =>
    rw [meld_cons_of_lt hab, List.mem_cons] at h
    rcases h with rfl | h
    · exact .inl ⟨a, by simp, rfl⟩
    · rcases ih h with ⟨c, hc, rfl⟩ | ⟨c, hc, d, hd, hcd⟩
      · exact .inl ⟨c, .tail _ hc, rfl⟩
      · exact .inr ⟨c, .tail _ hc, d, hd, hcd⟩
  | gt a as b bs hab ih =>
    rw [meld_cons_of_gt hab, List.mem_cons] at h
    rcases h with rfl | h
    · exact .inl ⟨b, by simp, rfl⟩
    · rcases ih h with ⟨c, hc, rfl⟩ | ⟨c, hc, d, hd, hcd⟩
      · exact .inl ⟨c, by simp at hc ⊢; tauto, rfl⟩
      · exact .inr ⟨c, hc, d, .tail _ hd, hcd⟩
  | eq a as b bs hab ih =>
    rw [meld_cons_of_eq hab, List.mem_cons] at h
    rcases h with rfl | h
    · exact .inr ⟨a, by simp, b, by simp, hab, rfl⟩
    · rcases ih h with ⟨c, hc, rfl⟩ | ⟨c, hc, d, hd, hcd⟩
      · exact .inl ⟨c, by simp at hc ⊢; tauto, rfl⟩
      · exact .inr ⟨c, .tail _ hc, d, .tail _ hd, hcd⟩

theorem countP_meld (h1 : ∀ a, key (one a) = key a) (h2 : ∀ a b, key (join a b) = key a)
    (p : κ → Bool) : ((meld key one join as bs).map key).countP p +
      (((met key as bs).map Prod.fst).map key).countP p =
        (as.map key).countP p + (bs.map key).countP p := by
  have hmap : ∀ l : List α, (l.map one).map key = l.map key := fun l => by
    rw [List.map_map]
    exact List.map_congr_left fun a _ => h1 a
  induction as, bs using induct key with
  | nil_left bs => simp [meld_nil_left, met, hmap]
  | nil_right as => simp [meld_nil_right, met_nil_right, hmap]
  | lt a as b bs hab ih =>
    rw [meld_cons_of_lt hab, met_cons_of_lt hab]
    simp only [List.map_cons, List.countP_cons, h1] at ih ⊢
    omega
  | gt a as b bs hab ih =>
    rw [meld_cons_of_gt hab, met_cons_of_gt hab]
    simp only [List.map_cons, List.countP_cons, h1] at ih ⊢
    omega
  | eq a as b bs hab ih =>
    rw [meld_cons_of_eq hab, met_cons_of_eq hab]
    simp only [List.map_cons, List.countP_cons, h2, hab] at ih ⊢
    omega

theorem mem_map_meld {β : Type*} {f : α → β} (h1 : ∀ a, f (one a) = f a)
    (h2 : ∀ a b, f (join a b) = f a) (h3 : ∀ a b, key a = key b → f a = f b) {v : β} :
    v ∈ (meld key one join as bs).map f ↔ v ∈ as.map f ∨ v ∈ bs.map f := by
  have hmap : ∀ l : List α, (l.map one).map f = l.map f := fun l => by
    rw [List.map_map]
    exact List.map_congr_left fun a _ => h1 a
  induction as, bs using induct key with
  | nil_left bs =>
    rw [meld_nil_left, hmap]
    simp
  | nil_right as =>
    rw [meld_nil_right, hmap]
    simp
  | lt a as b bs hab ih =>
    rw [meld_cons_of_lt hab]
    simp only [List.map_cons, List.mem_cons, h1] at ih ⊢
    tauto
  | gt a as b bs hab ih =>
    rw [meld_cons_of_gt hab]
    simp only [List.map_cons, List.mem_cons, h1] at ih ⊢
    tauto
  | eq a as b bs hab ih =>
    rw [meld_cons_of_eq hab]
    simp only [List.map_cons, List.mem_cons, h2, h3 a b hab]
    tauto

/-- What melding changes of a sum. -/
theorem sum_meld (f : α → Nat) (as bs : List α) : ((meld key one join as bs).map f).sum +
    ((met key as bs).map fun p => f (one p.1) + f (one p.2)).sum =
      (as.map fun a => f (one a)).sum + (bs.map fun b => f (one b)).sum +
        ((met key as bs).map fun p => f (join p.1 p.2)).sum := by
  have hmap : ∀ l : List α, (l.map one).map f = l.map fun a => f (one a) := fun l => by
    rw [List.map_map]
    rfl
  induction as, bs using induct key with
  | nil_left bs => simp [meld_nil_left, met, hmap]
  | nil_right as => simp [meld_nil_right, met_nil_right, hmap]
  | lt a as b bs hab ih =>
    rw [meld_cons_of_lt hab, met_cons_of_lt hab]
    simp only [List.map_cons, List.sum_cons] at ih ⊢
    omega
  | gt a as b bs hab ih =>
    rw [meld_cons_of_gt hab, met_cons_of_gt hab]
    simp only [List.map_cons, List.sum_cons] at ih ⊢
    omega
  | eq a as b bs hab ih =>
    rw [meld_cons_of_eq hab, met_cons_of_eq hab]
    simp only [List.map_cons, List.sum_cons] at ih ⊢
    omega

/-- Where no result weighs more than its elements, melding adds no weight. -/
theorem sum_meld_le {f : α → Nat} (h1 : ∀ a ∈ as ++ bs, f (one a) ≤ f a)
    (h2 : ∀ a ∈ as, ∀ b ∈ bs, key a = key b → f (join a b) ≤ f a + f b) :
    ((meld key one join as bs).map f).sum ≤ (as.map f).sum + (bs.map f).sum := by
  have hmap : ∀ l : List α, (∀ a ∈ l, f (one a) ≤ f a) → ((l.map one).map f).sum ≤
      (l.map f).sum := by
    intro l hl
    rw [List.map_map]
    exact List.sum_le_sum hl
  induction as, bs using induct key with
  | nil_left bs =>
    rw [meld_nil_left]
    exact (hmap bs h1).trans (Nat.le_add_left _ _)
  | nil_right as =>
    rw [meld_nil_right]
    exact (hmap as (by simpa using h1)).trans (Nat.le_add_right _ _)
  | lt a as b bs hab ih =>
    have ih := ih (fun x hx => h1 x (.tail _ hx)) fun x hx => h2 x (.tail _ hx)
    have := h1 a (by simp)
    rw [meld_cons_of_lt hab]
    simp only [List.map_cons, List.sum_cons] at ih ⊢
    omega
  | gt a as b bs hab ih =>
    have ih :=
      ih (fun x hx => h1 x (by simp at hx ⊢; tauto)) fun x hx y hy => h2 x hx y (.tail _ hy)
    have := h1 b (by simp)
    rw [meld_cons_of_gt hab]
    simp only [List.map_cons, List.sum_cons] at ih ⊢
    omega
  | eq a as b bs hab ih =>
    have ih := ih (fun x hx => h1 x (by simp at hx ⊢; tauto))
      fun x hx y hy => h2 x (.tail _ hx) y (.tail _ hy)
    have := h2 a List.mem_cons_self b List.mem_cons_self hab
    rw [meld_cons_of_eq hab]
    simp only [List.map_cons, List.sum_cons]
    omega

theorem sum_meld_eq {f : α → Nat} (h1 : ∀ a ∈ as ++ bs, f (one a) = f a)
    (h2 : ∀ p ∈ met key as bs, f (join p.1 p.2) = f p.1 + f p.2) :
    ((meld key one join as bs).map f).sum = (as.map f).sum + (bs.map f).sum := by
  have hsum := @sum_meld α κ _ key one join f as bs
  have ha : as.map (fun a => f (one a)) = as.map f :=
    List.map_congr_left fun a ha => h1 a (List.mem_append_left _ ha)
  have hb : bs.map (fun b => f (one b)) = bs.map f :=
    List.map_congr_left fun b hb => h1 b (List.mem_append_right _ hb)
  have hmet : (met key as bs).map (fun p => f (join p.1 p.2)) =
      (met key as bs).map fun p => f (one p.1) + f (one p.2) := by
    refine List.map_congr_left fun p hp => ?_
    obtain ⟨ha, hb, -⟩ := mem_met hp
    rw [h2 p hp, h1 p.1 (List.mem_append_left _ ha), h1 p.2 (List.mem_append_right _ hb)]
  rw [ha, hb, hmet] at hsum
  omega

end

end Meld
