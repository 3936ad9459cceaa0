import AdaptiveQF.Canonical
import AdaptiveQF.Iterator

/-! The iterator of a layout passes the items in the order of the buckets and runs. -/
namespace AdaptiveQF
open RunLayout

/-! The search for the next occupied bucket. -/

section
variable {qf : QF} {n j p r c : Nat}

theorem popcnt_occupieds (qf : QF) (j : Nat) :
    Nat.count (fun b => isOccupied qf b = true) (64*j) + popcnt (getBlock qf j).occupieds =
      Nat.count (fun b => isOccupied qf b = true) (64*j + 64) :=
  popcnt_window (f := isOccupied qf) (p := 64*j) (i := 0) (j := 64) _ (by omega) (by omega)
    fun k hk => by
      rw [occupieds_getLsbD qf j hk]
      simp [QF.view, isOccupied, hk]

theorem count_occupieds (qf : QF) (j : Nat) {k : Nat} (hk : k ≤ 64) :
    Nat.count (fun b => isOccupied qf b = true) (64*j) +
      Nat.count (fun i => (getBlock qf j).occupieds.getLsbD i = true) k =
        Nat.count (fun b => isOccupied qf b = true) (64*j + k) := by
  have hval : ∀ i, i < 64 → (getBlock qf j).occupieds.getLsbD i =
      (isOccupied qf (64*j + i) && decide (0 ≤ i) && decide (i < 64)) := by
    intro i hi
    rw [occupieds_getLsbD qf j hi]
    simp [QF.view, isOccupied, hi]
  have hw := count_window hval (by omega) hk
  have hmax : max 0 (min k 64) = k := by omega
  rw [hmax] at hw
  exact hw

theorem count_bitrank (qf : QF) (b : Nat) :
    Nat.count (fun b => isOccupied qf b = true) (64*(b/64)) +
    bitrank (getBlock qf (b/64)).occupieds (b % 64) =
      Nat.count (fun b => isOccupied qf b = true) (b+1) := by
  have hrank := bitrank_window (f := isOccupied qf) (p := 64*(b/64))
    (getBlock qf (b/64)).occupieds (Nat.mod_lt b (by omega)) fun k hk => by
      rw [occupieds_getLsbD qf _ hk]
      rfl
  have hb : 64*(b/64) + b % 64 + 1 = b + 1 := by omega
  rwa [hb] at hrank

/-- From `p` on, which is in block `j` or at its end, the first occupied bucket is `c`. -/
theorem nextOccupiedBlock_eq (hp1 : 64*j ≤ p) (hp2 : p ≤ 64*j + 64) (hpc : p ≤ c)
    (hr : Nat.count (fun b => isOccupied qf b = true) (64*j) + r =
      Nat.count (fun b => isOccupied qf b = true) p) (hr64 : r < 64)
    (hc : isOccupied qf c = true) (hgap : ∀ b, p ≤ b → b < c → isOccupied qf b = false)
    (hn : c / 64 ≤ j + n) (hm : c / 64 ≤ qf.metadata.nblocks) :
    nextOccupiedBlock qf n j (bitselect (getBlock qf j).occupieds r) = (c/64, c%64) := by
  have hcount : ∀ q, p ≤ q → q ≤ c → Nat.count (fun b => isOccupied qf b = true) q =
      Nat.count (fun b => isOccupied qf b = true) p :=
    fun q h1 h2 => count_eq_of_forall_not h1 fun b hb1 hb2 => by
      rw [hgap b hb1 (by omega)]
      simp
  induction n generalizing j p r with
  | zero =>
    obtain ⟨k, rfl⟩ := Nat.exists_eq_add_of_le (by omega : 64*j ≤ c)
    have hk := count_occupieds qf j (by omega : k ≤ 64)
    have hat := hcount _ hpc (Nat.le_refl _)
    have hbit : (getBlock qf j).occupieds.getLsbD k = true := by
      rw [occupieds_getLsbD qf j (by omega)]
      exact hc
    rw [bitselect_eq (by omega) hbit (by omega)]
    unfold nextOccupiedBlock
    congr 1 <;> omega
  | succ n ih =>
    unfold nextOccupiedBlock
    by_cases hown : c < 64*j + 64
    · obtain ⟨k, rfl⟩ := Nat.exists_eq_add_of_le (by omega : 64*j ≤ c)
      have hk := count_occupieds qf j (by omega : k ≤ 64)
      have hat := hcount _ hpc (Nat.le_refl _)
      have hbit : (getBlock qf j).occupieds.getLsbD k = true := by
        rw [occupieds_getLsbD qf j (by omega)]
        exact hc
      rw [bitselect_eq (by omega) hbit (by omega), if_neg (by omega)]
      congr 1 <;> omega
    · have hpop := popcnt_occupieds qf j
      have hat := hcount (64*j + 64) hp2 (by omega)
      rw [bitselect_none (by omega) hr64, if_pos ⟨rfl, by omega⟩]
      have hj : 64*(j+1) = 64*j + 64 := by omega
      refine ih (p := 64*(j+1)) (by omega) (by omega) (by omega) (by omega) (by omega)
        (fun b h1 h2 => hgap b (by omega) h2) (by omega) fun q h1 h2 => ?_
      rw [hcount q (by omega) h2, hcount (64*(j+1)) (by omega) (by omega)]

theorem nextOccupiedBlock_none (hp1 : 64*j ≤ p) (hp2 : p ≤ 64*j + 64)
    (hr : Nat.count (fun b => isOccupied qf b = true) (64*j) + r =
      Nat.count (fun b => isOccupied qf b = true) p) (hr64 : r < 64)
    (hgap : ∀ b, p ≤ b → isOccupied qf b = false) (hj : j ≤ qf.metadata.nblocks)
    (hn : qf.metadata.nblocks ≤ j + n) :
    nextOccupiedBlock qf n j (bitselect (getBlock qf j).occupieds r) =
      (qf.metadata.nblocks, 64) := by
  have hcount : Nat.count (fun b => isOccupied qf b = true) (64*j + 64) =
      Nat.count (fun b => isOccupied qf b = true) p :=
    count_eq_of_forall_not hp2 fun b hb1 _ => by
      rw [hgap b hb1]
      simp
  have hpop := popcnt_occupieds qf j
  rw [bitselect_none (by omega) hr64]
  induction n generalizing j p r with
  | zero =>
    have hj2 : j = qf.metadata.nblocks := by omega
    rw [hj2]
    rfl
  | succ n ih =>
    unfold nextOccupiedBlock
    by_cases hlast : j < qf.metadata.nblocks
    · have hj2 : 64*(j+1) = 64*j + 64 := by omega
      have hnext : Nat.count (fun b => isOccupied qf b = true) (64*(j+1) + 64) =
          Nat.count (fun b => isOccupied qf b = true) (64*(j+1)) :=
        count_eq_of_forall_not (by omega) fun b hb1 _ => by
          rw [hgap b (by omega)]
          simp
      have hpop2 := popcnt_occupieds qf (j+1)
      rw [if_pos ⟨rfl, hlast⟩, bitselect_none (by omega) (by omega)]
      exact ih (p := 64*(j+1)) (r := 0) (by omega) (by omega) (by omega) (by omega)
        (fun b hb => hgap b (by omega)) (by omega) (by omega) hnext hpop2
    · have hj2 : j = qf.metadata.nblocks := by omega
      rw [if_neg fun h => hlast h.2, hj2]

end

/-! The iterator. -/

structure FirstBucket (A : Contents) (p c : Nat) : Prop where
  le : p ≤ c
  items : A c ≠ []
  gap : ∀ b, p ≤ b → b < c → A b = []

theorem exists_firstBucket {A : Contents} {p b : Nat} (hb : p ≤ b) (hne : A b ≠ []) :
    ∃ c, FirstBucket A p c ∧ c ≤ b := by
  classical
  have hex : ∃ c, p ≤ c ∧ A c ≠ [] := ⟨b, hb, hne⟩
  refine ⟨Nat.find hex, ⟨(Nat.find_spec hex).1, (Nat.find_spec hex).2, fun a h1 h2 => ?_⟩,
    Nat.find_min' hex ⟨hb, hne⟩⟩
  by_contra hc
  exact Nat.find_min hex h2 ⟨h1, hc⟩

def AtFirst (qf : QF) (A : Contents) (p : Nat) (qfi : QFi) : Prop :=
  (∃ c, FirstBucket A p c ∧ qfi = ⟨c, start A.lens c⟩) ∨
    ((∀ b, p ≤ b → A b = []) ∧ qf.xnslots ≤ qfi.current)

section
variable {qf : QF} {A : Contents} {p c b n j r : Nat}

theorem Layout.isOccupied_eq (h : Layout qf A) (b : Nat) : isOccupied qf b = decide (A b ≠ []) :=
  h.occupied b

/-! The items in the order of the buckets and runs. -/

def Contents.itemsFrom (A : Contents) (n p : Nat) : List (Nat × Item) :=
  (List.range' p (n - p)).flatMap fun b => (A b).map (Prod.mk b)

theorem Contents.itemsFrom_step (A : Contents) (h : p < n) :
    A.itemsFrom n p = (A p).map (Prod.mk p) ++ A.itemsFrom n (p+1) := by
  have hn : n - p = (n - (p+1)) + 1 := by omega
  rw [itemsFrom, hn, List.range'_succ, List.flatMap_cons]
  rfl

theorem Contents.itemsFrom_gap (hpc : p ≤ c) (hc : c ≤ n)
    (hgap : ∀ b, p ≤ b → b < c → A b = []) : A.itemsFrom n p = A.itemsFrom n c := by
  induction hpc with
  | refl => rfl
  | step hpc ih =>
    rw [ih (by omega) fun b h1 h2 => hgap b h1 (by omega), A.itemsFrom_step (by omega),
      hgap _ hpc (by omega)]
    rfl

theorem Contents.itemsFrom_nil (hgap : ∀ b, p ≤ b → A b = []) : A.itemsFrom n p = [] := by
  rw [itemsFrom, List.flatMap_eq_nil_iff]
  intro b hb
  rw [hgap b (List.mem_range'_1.mp hb).1]
  rfl

theorem FirstBucket.itemsFrom_eq (hc : FirstBucket A p c) (hn : c < n) :
    A.itemsFrom n p = (A c).map (Prod.mk c) ++ A.itemsFrom n (c+1) := by
  rw [Contents.itemsFrom_gap hc.le hn.le hc.gap, A.itemsFrom_step hn]

theorem FirstBucket.lt_nslots (hc : FirstBucket A p c) (h : Layout qf A) :
    c < qf.metadata.nslots := by
  by_contra hcon
  exact hc.items (h.outside c (by omega))

theorem FirstBucket.nextOccupied (hc : FirstBucket A p c) (h : Layout qf A) (hp1 : 64*j ≤ p)
    (hp2 : p ≤ 64*j + 64)
    (hr : Nat.count (fun b => isOccupied qf b = true) (64*j) + r =
      Nat.count (fun b => isOccupied qf b = true) p) (hr64 : r < 64) :
    nextOccupiedBlock qf qf.metadata.nblocks j (bitselect (getBlock qf j).occupieds r) =
      (c/64, c%64) := by
  have hlt := hc.lt_nslots h
  have hblocks := h.row.blocks
  have hx := h.geometry.xnslots
  unfold QF.xnslots at hblocks
  have hle := hc.le
  refine nextOccupiedBlock_eq hp1 hp2 hle hr hr64 ?_ (fun b h1 h2 => ?_) (by omega) (by omega)
  · rw [h.isOccupied_eq, decide_eq_true hc.items]
  · rw [h.isOccupied_eq, hc.gap b h1 h2]
    rfl

theorem Layout.nextOccupied_none (h : Layout qf A) (hgap : ∀ b, p ≤ b → A b = [])
    (hp1 : 64*j ≤ p) (hp2 : p ≤ 64*j + 64) (hj : j ≤ qf.metadata.nblocks)
    (hr : Nat.count (fun b => isOccupied qf b = true) (64*j) + r =
      Nat.count (fun b => isOccupied qf b = true) p) (hr64 : r < 64) :
    nextOccupiedBlock qf qf.metadata.nblocks j (bitselect (getBlock qf j).occupieds r) =
      (qf.metadata.nblocks, 64) := by
  refine nextOccupiedBlock_none hp1 hp2 hr hr64 (fun b hb => ?_) hj (by omega)
  rw [h.isOccupied_eq, hgap b hb]
  rfl

theorem Contents.current_eq (A : Contents) (s : Nat) :
    (if start A.lens s < s then s else start A.lens s) = start A.lens s :=
  if_neg (Nat.not_lt.mpr (le_start s))

theorem Layout.iteratorFromPosition_none (h : Layout qf A) (hp : p < qf.metadata.nslots)
    (hempty : A p = []) (hle : p ≤ qf.metadata.nblocks) (hgap : ∀ b, 64*p ≤ b → A b = [])
    (qfi : QFi) : ∃ ret, qfIteratorFromPosition qf qfi p = some (ret,
      ⟨qf.metadata.nblocks * 64 + 64, start A.lens (qf.metadata.nblocks * 64 + 64)⟩) := by
  have hfree : isOccupied qf p = false := by
    rw [h.isOccupied_eq, hempty]
    rfl
  have hx := h.geometry.xnslots
  have hword := h.geometry.word
  have hnext := h.nextOccupied_none hgap (r := 0) (le_refl _) (by omega) hle rfl (by decide)
  unfold qfIteratorFromPosition
  rw [if_neg (by omega), if_neg (by omega), if_neg (by omega)]
  simp only [hnext, hfree, Bool.false_eq_true, if_false, h.runStart_eq, Option.bind_eq_bind,
    Option.bind_some, Contents.current_eq]
  exact ⟨_, rfl⟩

/-- The iterator starts at the first bucket from `p` on, or from the start of block `p` on if bucket
`p` is empty. -/
theorem Layout.iteratorFromPosition_at (h : Layout qf A) (hp : p < qf.metadata.nslots)
    (hblock : A p = [] → p ≤ qf.metadata.nblocks) (qfi : QFi) :
    ∃ ret qfi', qfIteratorFromPosition qf qfi p = some (ret, qfi') ∧
      AtFirst qf A (if A p = [] then 64*p else p) qfi' := by
  have hocc := h.isOccupied_eq p
  have hx := h.geometry.xnslots
  have hword := h.geometry.word
  by_cases hempty : A p = []
  · have hle := hblock hempty
    rw [if_pos hempty]
    by_cases hany : ∃ b, 64*p ≤ b ∧ A b ≠ []
    · have hfree : isOccupied qf p = false := by
        rw [hocc, hempty]
        rfl
      obtain ⟨b, hb, hne⟩ := hany
      obtain ⟨c, hc, -⟩ := exists_firstBucket hb hne
      have hnext := hc.nextOccupied h (r := 0) (le_refl _) (by omega) rfl (by decide)
      have hback : c/64*64 + c%64 = c := by omega
      unfold qfIteratorFromPosition
      rw [if_neg (by omega), if_neg (by omega), if_neg (by omega)]
      simp only [hnext, hback, hfree, Bool.false_eq_true, if_false, h.runStart_eq,
        Option.bind_eq_bind, Option.bind_some, Contents.current_eq]
      exact ⟨_, _, rfl, .inl ⟨c, hc, rfl⟩⟩
    · have hgap : ∀ b, 64*p ≤ b → A b = [] := fun b hb => by
        by_contra hne
        exact hany ⟨b, hb, hne⟩
      obtain ⟨ret, hcall⟩ := h.iteratorFromPosition_none hp hempty hle hgap qfi
      refine ⟨_, _, hcall, .inr ⟨hgap, ?_⟩⟩
      have hblocks := h.row.blocks
      have hstart := @le_start A.lens (qf.metadata.nblocks * 64 + 64)
      show qf.xnslots ≤ start A.lens (qf.metadata.nblocks * 64 + 64)
      unfold QF.xnslots at hblocks ⊢
      omega
  · have htaken : isOccupied qf p = true := by
      rw [hocc, decide_eq_true hempty]
    unfold qfIteratorFromPosition
    rw [if_neg (by omega), if_neg (by omega), if_neg (by simp [htaken]), if_neg hempty]
    simp only [htaken, if_true, h.runStart_eq, Option.bind_eq_bind, Option.bind_some,
      Contents.current_eq]
    exact ⟨_, _, rfl, .inl ⟨p, ⟨le_refl _, hempty, fun b h1 h2 => by omega⟩, rfl⟩⟩

theorem FirstBucket.start_lt (hc : FirstBucket A p c) (h : Layout qf A) :
    start A.lens c < qf.xnslots := by
  have hend := h.end_le_extent c hc.items
  have hfits := h.fits
  have hpos := Contents.lens_pos.mpr hc.items
  omega

/-! Behind a block with an item in all of its buckets `bitselect` is asked for bit 64. -/

/-- `b` is the last bucket of its block, and none of the 64 is empty. -/
def Contents.TurnsBack (A : Contents) (b : Nat) : Prop :=
  b % 64 = 63 ∧ ∀ a, 64*(b/64) ≤ a → a ≤ b → A a ≠ []

/-- The array ends with the run of the last bucket of such a block. -/
def RunsOn (qf : QF) (A : Contents) (p : Nat) : Prop :=
  ∀ b, p ≤ b → A.TurnsBack b → qf.xnslots ≤ start A.lens b + A.lens b

theorem RunsOn.mono (h : RunsOn qf A p) (hpc : p ≤ c) : RunsOn qf A c :=
  fun b hb => h b (hpc.trans hb)

theorem Layout.runsOn (h : Layout qf A) (hn : qf.metadata.nslots < 64) (p : Nat) :
    RunsOn qf A p := by
  intro b _ hturn
  have hlast := hturn.1
  exact absurd (h.outside b (by omega)) (hturn.2 b (by omega) (Nat.le_refl b))

theorem Layout.bitrank_lt_iff (h : Layout qf A) (b : Nat) :
    bitrank (getBlock qf (b/64)).occupieds (b % 64) < 64 ↔ ¬ A.TurnsBack b := by
  have hrank := count_bitrank qf b
  have hb : b + 1 = 64*(b/64) + (b % 64 + 1) := by omega
  have hmod := Nat.mod_lt b (by decide : 0 < 64)
  rw [hb, Nat.count_add, Nat.add_left_cancel_iff] at hrank
  have hle := @Nat.count_le (fun k => isOccupied qf (64*(b/64) + k) = true) _ (b % 64 + 1)
  have hall := @Nat.count_iff_forall (fun k => isOccupied qf (64*(b/64) + k) = true) _ (b % 64 + 1)
  rw [← hrank] at hle hall
  have hturn : A.TurnsBack b ↔ b % 64 = 63 ∧
      ∀ k < b % 64 + 1, isOccupied qf (64*(b/64) + k) = true := by
    refine and_congr_right fun _ => ⟨fun ha k hk => ?_, fun ha a h1 h2 => ?_⟩
    · rw [h.isOccupied_eq, decide_eq_true (ha _ (by omega) (by omega))]
    · have hocc := ha (a - 64*(b/64)) (by omega)
      rw [Nat.add_sub_cancel' h1, h.isOccupied_eq] at hocc
      exact of_decide_eq_true hocc
  rw [hturn, ← hall]
  omega

theorem nextOccupiedBlock_here {idx : Nat} (hidx : idx ≠ 64) :
    nextOccupiedBlock qf n j idx = (j, idx) := by
  cases n with
  | zero => rfl
  | succ n => rw [nextOccupiedBlock, if_neg fun hc => hidx hc.1]

/-- In a full block the search stays. -/
theorem Layout.bitselect_full (h : Layout qf A) (hturn : A.TurnsBack b) (hj : j = b/64) (r : Nat) :
    bitselect (getBlock qf j).occupieds r = r % 64 := by
  obtain ⟨hlast, hfull⟩ := hturn
  have hbit : ∀ k < 64, (getBlock qf j).occupieds.getLsbD k = true := fun k hk => by
    rw [occupieds_getLsbD qf _ hk]
    exact (h.isOccupied_eq _).trans (decide_eq_true (hfull _ (by omega) (by omega)))
  have hr : r % 64 < 64 := Nat.mod_lt r (by decide)
  rw [bitselect_eq_selectOne]
  exact selectOne_eq hr (hbit _ hr) (Nat.count_iff_forall.mpr fun k hk => hbit k (hk.trans hr))

/-- So the iterator keeps to the buckets of a full block that it has come to the end of. -/
theorem Layout.qfiNext_full (h : Layout qf A) (hturn : A.TurnsBack b) {run current next : Nat}
    (hrun : run/64 = b/64) (hcur : b ≤ current)
    (hskip : skipExtensions qf qf.fuel (current+1) = some next) (hnext : next < qf.xnslots) :
    ∃ run', run'/64 = b/64 ∧ qfiNext qf ⟨run, current⟩ = some (0, ⟨run', next⟩) := by
  have hblocks := h.row.blocks
  have hx := h.geometry.xnslots
  have hbn : b < qf.metadata.nslots := by
    by_contra hc
    exact hturn.2 b (by omega) (Nat.le_refl b) (h.outside b (by omega))
  have hle := le_skipExtensions hskip
  have hlast := hturn.1
  unfold QF.xnslots at hblocks hnext
  unfold qfiNext qfiEnd QF.xnslots
  rw [if_neg (by simp; omega)]
  simp only [hskip, Option.bind_eq_bind, Option.bind_some]
  rw [if_neg (by simp; omega)]
  cases isRunend qf current with
  | false => exact ⟨run, hrun, rfl⟩
  | true =>
    have hmod := Nat.mod_lt (bitrank (getBlock qf (run/64)).occupieds (run % 64))
      (by decide : 0 < 64)
    simp only [Bool.not_true, Bool.false_eq_true, if_false, h.bitselect_full hturn hrun,
      nextOccupiedBlock_here (Nat.ne_of_lt hmod)]
    rw [if_neg (by omega), if_neg (by omega)]
    exact ⟨_, by omega, rfl⟩

theorem FirstBucket.start_eq (hc : FirstBucket A (b+1) c) (hb : A b ≠ []) :
    start A.lens c = max c (start A.lens b + A.lens b) := by
  have hends : ends A.lens c = ends A.lens (b+1) := ends_eq_of_gap hc.le fun a h1 h2 => by
    rw [Contents.lens, hc.gap a h1 h2]
    rfl
  rw [start, hends, ends_succ_of_pos (Contents.lens_pos.mpr hb)]

theorem Layout.nextItem_at (h : Layout qf A) {l1 l2 : List Item} {it next : Item}
    (hb : A b = l1 ++ it :: next :: l2) :
    qfiNext qf ⟨b, A.pos b l1⟩ = some (0, ⟨b, A.pos b (l1 ++ [it])⟩) := by
  have hat := h.itemAt hb
  have hat' := h.itemAt (show A b = (l1 ++ [it]) ++ next :: l2 by simp [hb])
  have hfit := hat.fits
  have hfit' := hat'.fits
  have hlen := it.len_pos
  have hlen' := next.len_pos
  rw [Contents.pos_append] at hfit' ⊢
  unfold qfiNext qfiEnd
  rw [if_neg (by simp; omega)]
  simp only [hat.skip h.row.blocks, Option.bind_eq_bind, Option.bind_some]
  rw [if_neg (by simp; omega), hat.isRunend_eq]
  rfl

section
variable {l1 : List Item} {it : Item}

theorem Contents.pos_last (hb : A b = l1 ++ [it]) :
    A.pos b l1 + it.len = start A.lens b + A.lens b := by
  simp [Contents.pos, Contents.lens, hb, Nat.add_assoc]

theorem Layout.nextBucket_some (h : Layout qf A) (hb : A b = l1 ++ [it])
    (hc : FirstBucket A (b+1) c) (hback : ¬ A.TurnsBack b) :
    qfiNext qf ⟨b, A.pos b l1⟩ = some (0, ⟨c, start A.lens c⟩) := by
  have hat := h.itemAt hb
  have hfit := hat.fits
  have hlen := it.len_pos
  have hblocks := h.row.blocks
  have hx := h.geometry.xnslots
  have hrun := Contents.pos_last hb
  have hle := hc.le
  -- Another run fits behind this one.
  have hstart := @start_add_le_start A.lens b c hle
  have hend := h.end_le_extent c hc.items
  have hfits := h.fits
  have hpos := Contents.lens_pos.mpr hc.items
  have hlt := hc.lt_nslots h
  have hnext := hc.nextOccupied h (j := b/64) (by omega) (by omega) (count_bitrank qf b)
    ((h.bitrank_lt_iff b).mpr hback)
  have hblock : c/64*64 + c%64 = c := by omega
  have hmax : (if A.pos b l1 + it.len < c then c else A.pos b l1 + it.len) = start A.lens c := by
    rw [hc.start_eq (by simp [hb]), hrun]
    split <;> omega
  unfold qfiNext qfiEnd
  rw [if_neg (by simp; omega)]
  simp only [hat.skip hblocks, Option.bind_eq_bind, Option.bind_some]
  rw [if_neg (by simp; omega), hat.isRunend_eq]
  simp only [List.isEmpty_nil, Bool.not_true, Bool.false_eq_true, if_false, hnext, hblock, hmax]
  unfold QF.xnslots at hblocks
  rw [if_neg (by omega)]

/-- In front of another run the array does not end. -/
theorem Layout.stays (h : Layout qf A) (hb : A b = l1 ++ [it]) (hc : FirstBucket A (b+1) c)
    (hback : A.TurnsBack b → qf.xnslots ≤ A.pos b l1 + it.len) : ¬ A.TurnsBack b := by
  intro hturn
  have hend := hback hturn
  have hlt := hc.start_lt h
  have hstart := @start_add_le_start A.lens b c hc.le
  have hrun := Contents.pos_last hb
  omega

/-- Behind the last item of all the iterator is at the end. If the item ends with the array, the run
stays as it is. -/
theorem Layout.nextBucket_none (h : Layout qf A) (hb : A b = l1 ++ [it])
    (hgap : ∀ c, b + 1 ≤ c → A c = [])
    (hback : A.TurnsBack b → qf.xnslots ≤ A.pos b l1 + it.len) :
    qfiNext qf ⟨b, A.pos b l1⟩ = some (QFI_INVALID,
      if qf.xnslots ≤ A.pos b l1 + it.len then ⟨b, A.pos b l1 + it.len⟩
      else ⟨qf.xnslots, qf.xnslots⟩) := by
  have hat := h.itemAt hb
  have hfit := hat.fits
  have hlen := it.len_pos
  have hblocks := h.row.blocks
  have hx := h.geometry.xnslots
  have hlt := h.bucket_lt hb
  unfold QF.xnslots at hblocks
  unfold qfiNext qfiEnd
  rw [if_neg (by simp; omega)]
  simp only [hat.skip h.row.blocks, Option.bind_eq_bind, Option.bind_some]
  by_cases hend : A.pos b l1 + it.len ≥ qf.xnslots
  · rw [if_pos (by simpa using hend), if_pos hend]
  · have hnext := h.nextOccupied_none hgap (j := b/64) (by omega) (by omega) (by omega)
      (count_bitrank qf b) ((h.bitrank_lt_iff b).mpr fun hturn => hend (hback hturn))
    rw [if_neg (by simpa using hend), if_neg hend, hat.isRunend_eq]
    simp only [List.isEmpty_nil, Bool.not_true, Bool.false_eq_true, if_false, hnext, if_true]

/-- Behind the last bucket of a full block the iterator has a bucket of the block again. -/
theorem Layout.nextBucket_back (h : Layout qf A) (hb : A b = l1 ++ [it]) (hturn : A.TurnsBack b)
    (hend : A.pos b l1 + it.len < qf.xnslots) : ∃ run, run/64 = b/64 ∧
      qfiNext qf ⟨b, A.pos b l1⟩ = some (0, ⟨run, A.pos b l1 + it.len⟩) := by
  have hstart := @le_start A.lens b
  exact h.qfiNext_full hturn rfl (by unfold Contents.pos; omega)
        ((h.itemAt hb).skip h.row.blocks) hend

theorem Layout.nextBucket_at (h : Layout qf A) (hb : A b = l1 ++ [it])
    (hback : A.TurnsBack b → qf.xnslots ≤ A.pos b l1 + it.len) :
    ∃ ret qfi, qfiNext qf ⟨b, A.pos b l1⟩ = some (ret, qfi) ∧ AtFirst qf A (b+1) qfi := by
  by_cases hany : ∃ c, b + 1 ≤ c ∧ A c ≠ []
  · obtain ⟨c', hc', hne'⟩ := hany
    obtain ⟨c, hc, -⟩ := exists_firstBucket hc' hne'
    exact ⟨_, _, h.nextBucket_some hb hc (h.stays hb hc hback), .inl ⟨c, hc, rfl⟩⟩
  · have hgap : ∀ c, b + 1 ≤ c → A c = [] := fun c hc => by
      by_contra hne'
      exact hany ⟨c, hc, hne'⟩
    refine ⟨_, _, h.nextBucket_none hb hgap hback, .inr ⟨hgap, ?_⟩⟩
    split
    · next hend => exact hend
    · exact le_refl _

theorem Layout.extent_eq (h : Layout qf A) (hb : A b = l1 ++ [it])
    (hgap : ∀ c, b + 1 ≤ c → A c = []) : A.extent qf.metadata.nslots = A.pos b l1 + it.len := by
  have hends : A.extent qf.metadata.nslots = ends A.lens (b+1) :=
    ends_eq_of_gap (h.bucket_lt hb) fun a h1 _ => by
      rw [Contents.lens, hgap a h1]
      rfl
  rw [hends, ends_succ_of_pos (Contents.lens_pos.mpr (by simp [hb])), ← Contents.pos_last hb]

end

theorem AtFirst.qfiEnd_iff {qfi : QFi} (hat : AtFirst qf A p qfi) (h : Layout qf A) :
    qfiEnd qf qfi = true ↔ ∀ b, p ≤ b → A b = [] := by
  unfold qfiEnd
  rw [decide_eq_true_iff]
  cases hat with
  | inl hat =>
    obtain ⟨c, hc, rfl⟩ := hat
    have hlt := hc.start_lt h
    constructor
    · intro hend
      exact absurd hlt (Nat.not_lt.mpr hend)
    · intro hgap
      exact absurd (hgap c hc.le) hc.items
  | inr hat => exact ⟨fun _ => hat.1, fun _ => hat.2⟩

end

end AdaptiveQF
