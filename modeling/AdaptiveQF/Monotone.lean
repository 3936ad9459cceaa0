import AdaptiveQF.Decode
import AdaptiveQF.Table
import AdaptiveQF.Lib.Runs

/-! Queries by rank, each positive one for a hash that is not stored followed by an
adaptation: what has been corrected stays corrected. -/
namespace AdaptiveQF
open RunLayout

namespace Table

def Has (T : Table) (m : QFMetadata) (y : Nat) : Prop := y ∈ (T (m.bucket y)).map Entry.hash

instance (T : Table) (m : QFMetadata) (y : Nat) : Decidable (T.Has m y) :=
  inferInstanceAs (Decidable (_ ∈ _))

/-- The full hash of the item of rank `r` in the minirun of `y`. -/
def hashAt (T : Table) (m : QFMetadata) (y r : Nat) : Option Nat :=
  (((T (m.bucket y)).map Entry.hash).filter fun g => m.remainder g = m.remainder y)[r]?

def matchCount (T : Table) (m : QFMetadata) (y : Nat) : Nat :=
  (T (m.bucket y)).countP fun e => e.Matches m y

def minirunCount (T : Table) (m : QFMetadata) (y : Nat) : Nat :=
  (T (m.bucket y)).countP fun e => m.remainder e.hash = m.remainder y

end Table

def attackStep (T : Table) (y : Nat) (s : QF × List (Nat × Bool)) :
    Option (QF × List (Nat × Bool)) := do
  let (rank, _) ← qfQueryUsingLlTable s.1 y QF_KEY_IS_HASH
  if rank ≥ 0 ∧ ¬ T.Has s.1.metadata y then do
    let hash ← T.hashAt s.1.metadata y rank.toNat
    let (_, qf) ← qfAdaptUsingLlTable s.1 hash y rank.toNat QF_KEY_IS_HASH
    some (qf, s.2 ++ [(y, true)])
  else some (s.1, s.2 ++ [(y, decide (rank ≥ 0))])

def AttackFindsSpace (T : Table) (y : Nat) (qf : QF) : Prop :=
  ∀ count hit rank x g, qfQuery qf y QF_KEY_IS_HASH = some (count, some hit) →
    qfQueryUsingLlTable qf y QF_KEY_IS_HASH = some (rank, x) →
    T.hashAt qf.metadata y rank.toNat = some g →
      ∀ ret retHash qf', adapt qf hit.index (qf.metadata.bucket y) g y = some (ret, retHash, qf') →
        ret ≠ noSpace

def AllNear (qf : QF) : Prop := ∀ A, Layout qf A → ∀ hash, Near qf.metadata A hash

def Positive (qf : QF) (hash : Nat) : Prop :=
  ∃ rank x, qfQueryUsingLlTable qf hash QF_KEY_IS_HASH = some (rank, x) ∧ 0 ≤ rank

section
variable {qf qf' : QF} {T : Table} {m : QFMetadata} {b y n : Nat} {e : Entry} {t1 t2 : List Entry}

theorem QF.Keeps.hashAt (hk : qf.Keeps qf') (T : Table) :
    T.hashAt qf'.metadata = T.hashAt qf.metadata := by
  funext y r
  rw [Table.hashAt, hk.bucket, hk.remainder]
  rfl

theorem QF.Keeps.has (hk : qf.Keeps qf') (T : Table) (y : Nat) :
    T.Has qf'.metadata y ↔ T.Has qf.metadata y := by
  rw [Table.Has, hk.bucket]
  rfl

theorem QF.Keeps.matchCount (hk : qf.Keeps qf') (T : Table) (y : Nat) :
    T.matchCount qf'.metadata y = T.matchCount qf.metadata y := by
  rw [Table.matchCount, hk.bucket]
  exact List.countP_congr fun e _ => by simp [hk.matches_entry]

theorem rankOf_items (m : QFMetadata) (y : Nat) (l : List Entry) :
    rankOf m y (l.map (Entry.item m)) =
      (l.map Entry.hash).countP fun g => m.remainder g = m.remainder y := by
  rw [rankOf, List.countP_map, List.countP_map]
  rfl

/-- The rank that a query reports leads to the owner of the item it found. -/
theorem Table.hashAt_rank (hT : T (m.bucket y) = t1 ++ e :: t2) (hm : e.Matches m y) :
    T.hashAt m y (rankOf m y (t1.map (Entry.item m))) = some e.hash := by
  have hr : m.remainder e.hash = m.remainder y := (Entry.matches_iff.mp hm).1
  rw [hashAt, hT, rankOf_items, List.countP_eq_length_filter, List.map_append, List.map_cons,
    List.filter_append, List.getElem?_append_right (Nat.le_refl _), Nat.sub_self,
    List.filter_cons_of_pos (by simpa using hr)]
  rfl

theorem Table.matchCount_eq_zero :
    T.matchCount m y = 0 ↔ ∀ x ∈ T (m.bucket y), ¬ x.Matches m y := by
  unfold matchCount
  rw [List.countP_eq_zero]
  simp

theorem Table.matchCount_pos (he : e ∈ T (m.bucket y)) (hm : e.Matches m y) :
    0 < T.matchCount m y := by
  unfold matchCount
  rw [List.countP_pos_iff]
  exact ⟨e, he, by simpa using hm⟩

/-- An adaptation makes no other hash match. -/
theorem Table.matchCount_grow_le (hT : T b = t1 ++ e :: t2) (hn : e.slots ≤ n) (y : Nat) :
    matchCount (Function.update T b (t1 ++ e.grow n :: t2)) m y ≤ T.matchCount m y := by
  unfold matchCount
  by_cases hb : m.bucket y = b
  · rw [hb, Function.update_self, hT, List.countP_append, List.countP_append, List.countP_cons,
      List.countP_cons]
    by_cases hg : (e.grow n).Matches m y
    · have he := hg.of_grow hn
      simp [hg, he]
    · simp [hg]
  · rw [Function.update_of_ne hb]

theorem Table.matchCount_grow_lt (hT : T (m.bucket y) = t1 ++ e :: t2) (hm : e.Matches m y)
    (hg : ¬ (e.grow n).Matches m y) :
    matchCount (Function.update T (m.bucket y) (t1 ++ e.grow n :: t2)) m y < T.matchCount m y := by
  unfold matchCount
  rw [Function.update_self, hT, List.countP_append, List.countP_append, List.countP_cons,
    List.countP_cons]
  simp [hm, hg]

theorem Represents.positive_iff (h : Represents qf T)
    (hn : Near qf.metadata (T.contents qf.metadata) y) :
    Positive qf y ↔ 0 < T.matchCount qf.metadata y := by
  rcases firstEntry_or_none qf.metadata y (T (qf.metadata.bucket y)) with ⟨t1, e, t2, hf⟩ | hm
  · have hpos : 0 < T.matchCount qf.metadata y :=
      Table.matchCount_pos (by rw [hf.split]; simp) hf.hit
    exact ⟨fun _ => hpos, fun _ =>
      ⟨_, _, h.llTable_hit (keyToHash_self qf y) hn hf, Int.natCast_nonneg _⟩⟩
  · have hmiss := h.llTable_miss (keyToHash_self qf y) hn hm
    constructor
    · rintro ⟨rank, x, hr, h0⟩
      rw [hmiss, Option.some.injEq, Prod.mk.injEq] at hr
      omega
    · intro hpos
      rw [Table.matchCount_eq_zero.mpr hm] at hpos
      exact absurd hpos (Nat.lt_irrefl 0)

theorem Represents.near_of_positive (h : Represents qf T) (hp : Positive qf y) :
    Near qf.metadata (T.contents qf.metadata) y := by
  obtain ⟨rank, x, hr, _⟩ := hp
  exact h.wf.near_of_llTable (keyToHash_self qf y) hr

end

/-! The run. -/

/-- What a run from `qf0`, with the hashes of `T0`, keeps. `mid` is the table at some point on the
way, and nothing matches now that did not match then. -/
structure Attacked (qf0 : QF) (T0 mid : Table) (s : QF × List (Nat × Bool)) (T : Table) :
    Prop where
  represents : Represents s.1 T
  keeps : qf0.Keeps s.1
  hashes : ∀ b, (T b).map Entry.hash = (T0 b).map Entry.hash
  plain : ∀ b, ∀ e ∈ T b, e.cnt = []
  shrinks : ∀ y, T.matchCount qf0.metadata y ≤ mid.matchCount qf0.metadata y
  budget : ∀ y, ¬ T0.Has qf0.metadata y →
    s.2.count (y, true) + T.matchCount qf0.metadata y ≤ T0.minirunCount qf0.metadata y
  dead : ∀ y, (y, false) ∈ s.2 → T.matchCount qf0.metadata y = 0
  order : s.2.Pairwise fun a c => c.1 = a.1 → a.2 = false → c.2 = false

section
variable {qf0 : QF} {T0 mid T : Table} {s : QF × List (Nat × Bool)} {y : Nat}

theorem Represents.attacked (h : Represents qf0 T0) (hp : ∀ b, ∀ e ∈ T0 b, e.cnt = []) :
    Attacked qf0 T0 T0 (qf0, []) T0 where
  represents := h
  keeps := .refl qf0
  hashes _ := rfl
  plain := hp
  shrinks _ := Nat.le_refl _
  budget y _ := by
    rw [List.count_nil, Nat.zero_add]
    unfold Table.matchCount Table.minirunCount
    exact List.countP_mono_left fun e _ he => by
      simp only [decide_eq_true_eq] at he ⊢
      exact (Entry.matches_iff.mp he).1
  dead y hy := by simp at hy
  order := List.Pairwise.nil

theorem Attacked.restart (h : Attacked qf0 T0 mid s T) : Attacked qf0 T0 T s T :=
  ⟨h.represents, h.keeps, h.hashes, h.plain, fun _ => Nat.le_refl _, h.budget, h.dead, h.order⟩

theorem Attacked.order_append (h : Attacked qf0 T0 mid s T) {a : Bool}
    (ha : a = true → 0 < T.matchCount qf0.metadata y) :
    (s.2 ++ [(y, a)]).Pairwise fun x c => c.1 = x.1 → x.2 = false → c.2 = false := by
  rw [List.pairwise_append]
  refine ⟨h.order, List.pairwise_singleton _ _, fun x hx c hc h1 h2 => ?_⟩
  rw [List.mem_singleton.mp hc] at h1 ⊢
  by_contra hne
  have hx' : (y, false) ∈ s.2 := by
    rw [show y = x.1 from h1, ← h2]
    exact hx
  have hpos := ha (by simpa using hne)
  rw [h.dead y hx'] at hpos
  exact absurd hpos (Nat.lt_irrefl 0)

theorem Attacked.negative (h : Attacked qf0 T0 mid s T) (hm : T.matchCount qf0.metadata y = 0) :
    Attacked qf0 T0 mid (s.1, s.2 ++ [(y, false)]) T where
  represents := h.represents
  keeps := h.keeps
  hashes := h.hashes
  plain := h.plain
  shrinks := h.shrinks
  budget x hx := by
    have hcount : (s.2 ++ [(y, false)]).count (x, true) = s.2.count (x, true) := by
      simp [List.count_append]
    simp only [hcount]
    exact h.budget x hx
  dead x hx := by
    rcases List.mem_append.mp hx with hx | hx
    · exact h.dead x hx
    · simp only [List.mem_singleton, Prod.mk.injEq, and_true] at hx
      rw [hx]
      exact hm
  order := h.order_append (by simp)

theorem Attacked.stored (h : Attacked qf0 T0 mid s T) (hhas : T0.Has qf0.metadata y)
    (hm : 0 < T.matchCount qf0.metadata y) : Attacked qf0 T0 mid (s.1, s.2 ++ [(y, true)]) T where
  represents := h.represents
  keeps := h.keeps
  hashes := h.hashes
  plain := h.plain
  shrinks := h.shrinks
  budget x hx := by
    have hne : ¬ y = x := fun he => hx (he ▸ hhas)
    have hcount : (s.2 ++ [(y, true)]).count (x, true) = s.2.count (x, true) := by
      simp [List.count_append, hne]
    simp only [hcount]
    exact h.budget x hx
  dead x hx := by
    rcases List.mem_append.mp hx with hx | hx
    · exact h.dead x hx
    · simp at hx
  order := h.order_append fun _ => hm

/-- A positive answer for a hash that is not stored, and the adaptation. -/
theorem Attacked.adapted (h : Attacked qf0 T0 mid s T) {t1 t2 : List Entry} {e : Entry} {n : Nat}
    {qf' : QF} (hT : T (qf0.metadata.bucket y) = t1 ++ e :: t2) (hm : e.Matches qf0.metadata y)
    (hk : s.1.Keeps qf') (hn : e.slots < n) (hg : ¬ (e.grow n).Matches qf0.metadata y)
    (hr : Represents qf' (Function.update T (qf0.metadata.bucket y) (t1 ++ e.grow n :: t2))) :
    Attacked qf0 T0 mid (qf', s.2 ++ [(y, true)])
      (Function.update T (qf0.metadata.bucket y) (t1 ++ e.grow n :: t2)) where
  represents := hr
  keeps := h.keeps.trans hk
  hashes b := by
    by_cases hb : b = qf0.metadata.bucket y
    · have hh := h.hashes b
      subst hb
      rw [hT] at hh
      rw [Function.update_self, ← hh]
      simp
    · rw [Function.update_of_ne hb]
      exact h.hashes b
  plain b x hx := by
    by_cases hb : b = qf0.metadata.bucket y
    · subst hb
      rw [Function.update_self] at hx
      rcases List.mem_append.mp hx with hx | hx
      · exact h.plain _ x (by rw [hT]; simp [hx])
      · rcases List.mem_cons.mp hx with rfl | hx
        · exact Entry.grow_cnt hn
        · exact h.plain _ x (by rw [hT]; simp [hx])
    · rw [Function.update_of_ne hb] at hx
      exact h.plain b x hx
  shrinks x := (Table.matchCount_grow_le hT hn.le x).trans (h.shrinks x)
  budget x hx := by
    have hb := h.budget x hx
    have hle := Table.matchCount_grow_le (m := qf0.metadata) hT hn.le x
    by_cases hxy : y = x
    · subst hxy
      have hlt := Table.matchCount_grow_lt hT hm hg
      simp only [List.count_append, List.count_singleton_self]
      omega
    · have hcount : (s.2 ++ [(y, true)]).count (x, true) = s.2.count (x, true) := by
        simp [List.count_append, hxy]
      simp only [hcount]
      omega
  dead x hx := by
    have hle := Table.matchCount_grow_le (m := qf0.metadata) hT hn.le x
    rcases List.mem_append.mp hx with hx | hx
    · have := h.dead x hx
      omega
    · simp at hx
  order := h.order_append fun _ => Table.matchCount_pos (by rw [hT]; simp) hm

theorem Attacked.step (h : Attacked qf0 T0 mid s T) (hy : y < 2^64)
    (hn : Near s.1.metadata (T.contents s.1.metadata) y) (hs : AttackFindsSpace T0 y s.1) :
    ∃ s', attackStep T0 y s = some s' ∧ ∃ T', Attacked qf0 T0 mid s' T' := by
  have hk := h.keeps
  have hbk : s.1.metadata.bucket y = qf0.metadata.bucket y := by rw [hk.bucket]
  have hkey := keyToHash_self s.1 y
  rcases firstEntry_or_none s.1.metadata y (T (s.1.metadata.bucket y)) with ⟨t1, e, t2, hf⟩ | hno
  · have hhit := h.represents.llTable_hit hkey hn hf
    have hm := (hk.matches_entry e y).mp hf.hit
    have hT := hf.split
    rw [hbk] at hT
    have hpos : 0 < T.matchCount qf0.metadata y := Table.matchCount_pos (by rw [hT]; simp) hm
    by_cases hhas : T0.Has s.1.metadata y
    · refine ⟨_, ?_, T, h.stored ((hk.has T0 y).mp hhas) hpos⟩
      simp only [attackStep, hhit, Option.bind_eq_bind, Option.bind_some, hhas, not_true, and_false,
        if_false, ge_iff_le, Int.natCast_nonneg, decide_true]
    · have hat : T0.hashAt s.1.metadata y
          (rankOf s.1.metadata y (t1.map (Entry.item s.1.metadata))) = some e.hash := by
        have hrank := Table.hashAt_rank hf.split hf.hit
        unfold Table.hashAt at hrank ⊢
        rw [h.hashes] at hrank
        exact hrank
      have hne : e.hash ≠ y := by
        rintro rfl
        apply hhas
        rw [Table.Has, ← h.hashes, hf.split]
        simp
      have hplain := h.plain _ e (by rw [hf.split]; simp)
      obtain ⟨qf', ret, retHash, n, hcall, hadapt, hg⟩ := h.represents.qfAdaptUsingLlTable hf.split
        (by simp [hplain]) (Represents.near_hit hn hf) (keyToHash_self s.1 e.hash)
        hkey hy hne hf.hit
      have hquery := h.represents.query_hit hkey hy hn hf
      have hret := hs _ _ _ _ _ hquery hhit (by rw [Int.toNat_natCast]; exact hat) _ _ _ hadapt
      have hp := hg.parted hret hy hne rfl
      refine ⟨(qf', s.2 ++ [(y, true)]), ?_, _, h.adapted hT hm hg.keeps hp.longer
        (fun hc => hp.apart ((hk.matches_entry _ y).mpr hc)) (by rw [← hbk]; exact hg.represents)⟩
      simp only [attackStep, hhit, Option.bind_eq_bind, Option.bind_some, ge_iff_le,
        Int.natCast_nonneg, hhas, not_false_eq_true, and_self, if_true, Int.toNat_natCast, hat,
        hcall]
  · have hmiss := h.represents.llTable_miss hkey hn hno
    have hzero : T.matchCount qf0.metadata y = 0 := by
      rw [← hk.matchCount]
      exact Table.matchCount_eq_zero.mpr hno
    refine ⟨_, ?_, T, h.negative hzero⟩
    simp [attackStep, hmiss]

theorem Attacked.positive (h : Attacked qf0 T0 mid s T) {qf1 : QF} (h1 : Represents qf1 mid)
    (hk1 : qf0.Keeps qf1) (hn : AllNear qf1) (hp : Positive s.1 y) : Positive qf1 y := by
  have hnear := h.represents.near_of_positive hp
  have hcount := (h.represents.positive_iff hnear).mp hp
  have hle := h.shrinks y
  rw [h.keeps.matchCount] at hcount
  rw [h1.positive_iff (hn _ h1.layout y), hk1.matchCount]
  exact hcount.trans_le hle

end

/-- Every decoded item ends in front of slot 2^31 in every state of a run: then the hashes that are
answered positively only become fewer, a hash that is not stored is answered positively at most as
often as its minirun has items, and a negative answer is final. -/
theorem monotone_adaptivity {qf : QF} {T : Table} (h : Represents qf T)
    (hp : ∀ b, ∀ e ∈ T b, e.cnt = []) {ys : List Nat} (hys : ∀ y ∈ ys, y < 2^64)
    (hs : Runs.Along (fun y s => AllNear s.1 ∧ AttackFindsSpace T y s.1)
      (attackStep T) ys (qf, [])) :
    ∃ qf' log, Runs.run (attackStep T) ys (qf, []) = some (qf', log) ∧
      (∀ ys1 ys2 qf1 log1, ys = ys1 ++ ys2 →
        Runs.run (attackStep T) ys1 (qf, []) = some (qf1, log1) →
          ∀ hash, Positive qf' hash → Positive qf1 hash) ∧
      (∀ y, ¬ T.Has qf.metadata y → log.count (y, true) ≤ T.minirunCount qf.metadata y) ∧
      log.Pairwise fun a c => c.1 = a.1 → a.2 = false → c.2 = false := by
  have hstep : ∀ mid, ∀ y s, (∃ T', Attacked qf T mid s T') →
      (y < 2^64 ∧ AllNear s.1 ∧ AttackFindsSpace T y s.1) →
        ∃ s', attackStep T y s = some s' ∧ ∃ T', Attacked qf T mid s' T' := by
    rintro mid y s ⟨T1, h1⟩ ⟨hy, hn, hsp⟩
    exact h1.step hy (hn _ h1.represents.layout y) hsp
  have hs2 : Runs.Along (fun y s => y < 2^64 ∧ AllNear s.1 ∧ AttackFindsSpace T y s.1)
      (attackStep T) ys (qf, []) :=
    Runs.along_mono (fun y s h => ⟨h.2, h.1⟩) (Runs.along_mem hs hys)
  obtain ⟨⟨qf', log⟩, hrun, T', hT'⟩ :=
    Runs.invariant (hstep T) ⟨T, h.attacked hp⟩ hs2
  refine ⟨qf', log, hrun, ?_, fun y hy => ?_, hT'.order⟩
  · rintro ys1 ys2 qf1 log1 rfl hrun1 hash hpos
    cases ys2 with
    | nil =>
      rw [List.append_nil, hrun1, Option.some.injEq, Prod.mk.injEq] at hrun
      rw [hrun.1]
      exact hpos
    | cons y ys2 =>
      obtain ⟨halong1, halong2⟩ := Runs.along_append hs2
      obtain ⟨s1, hs1, T1, hT1⟩ := Runs.invariant (hstep T) ⟨T, h.attacked hp⟩ halong1
      obtain rfl : s1 = (qf1, log1) := Option.some.inj (hs1.symm.trans hrun1)
      obtain ⟨s2, hrun2, T2, hT2⟩ := Runs.invariant (hstep T1) ⟨T1, hT1.restart⟩ (halong2 _ hs1)
      rw [Runs.run_append, hs1, Option.bind_some, hrun2, Option.some.injEq] at hrun
      rw [hrun] at hT2
      exact hT2.positive hT1.represents hT1.keeps (halong2 _ hs1).1.2.1 hpos
  · exact (Nat.le_add_right _ _).trans (hT'.budget y hy)

theorem allNear_of_xnslots {qf : QF} (h : qf.xnslots < 2^31) : AllNear qf :=
  fun _ hA hash => hA.near (hA.fits.trans_lt h) hash

/-! 8 slots of 2 bits, with the item of hash 0. -/

def smallMetadata : QFMetadata := QFMetadata.init 3 2 36

theorem smallMetadata_geometry : Geometry smallMetadata :=
  Geometry.init (by decide) (by decide) (by decide) (by decide) (by decide)

def zeroTable : Table := Table.single smallMetadata ⟨0, 0, 0, []⟩

def zeroFilter : QF := QF.ofContents smallMetadata (zeroTable.contents smallMetadata)

theorem monotone_adaptivity_zero : ∃ qf' log,
    Runs.run (attackStep zeroTable) [64] (zeroFilter, []) = some (qf', log) ∧
      (∀ ys1 ys2 qf1 log1, [64] = ys1 ++ ys2 →
        Runs.run (attackStep zeroTable) ys1 (zeroFilter, []) = some (qf1, log1) →
          ∀ hash, Positive qf' hash → Positive qf1 hash) ∧
      (∀ y, ¬ zeroTable.Has zeroFilter.metadata y →
        log.count (y, true) ≤ zeroTable.minirunCount zeroFilter.metadata y) ∧
      log.Pairwise fun a c => c.1 = a.1 → a.2 = false → c.2 = false := by
  have hspace : ∀ q ∈ qfQuery zeroFilter 64 QF_KEY_IS_HASH, ∀ hit ∈ q.2,
      ∀ r ∈ qfQueryUsingLlTable zeroFilter 64 QF_KEY_IS_HASH,
      ∀ g ∈ zeroTable.hashAt zeroFilter.metadata 64 r.1.toNat,
      ∀ a ∈ adapt zeroFilter hit.index (zeroFilter.metadata.bucket 64) g 64, a.1 ≠ noSpace := by
    decide +kernel
  refine monotone_adaptivity (Table.single_represents smallMetadata_geometry (by decide))
    (fun b e he => ?_)
    (by decide) ⟨⟨allNear_of_xnslots (by decide), ?_⟩, fun _ _ => trivial⟩
  · rw [(Table.mem_single he).2]
  · intro count hit rank x g h1 h2 h3 ret retHash qf' h4
    exact hspace _ h1 _ rfl _ h2 _ h3 _ h4

/-! A filter of 2^32 slots of 8 bits, with an item in slot 2^31. -/

def farTable : Table := Table.single farMetadata ⟨2^39, 2^39, 0, []⟩

def farFilter : QF := QF.ofContents farMetadata (farTable.contents farMetadata)

theorem farFilter_represents : Represents farFilter farTable :=
  Table.single_represents farMetadata_geometry (by decide)

theorem farTable_far (hash : Nat) (hb : farMetadata.bucket hash = 2^31)
    (hr : farMetadata.remainder hash = 0) :
    ¬ Near farMetadata (farTable.contents farMetadata) hash := by
  have hrem : farMetadata.remainder (2^39) = farMetadata.remainder hash := by
    rw [hr]
    decide
  refine Table.far (e := ⟨2^39, 2^39, 0, []⟩) ?_ hrem (Nat.le_of_eq hb.symm)
  have hsame : farMetadata.bucket hash = farMetadata.bucket (2^39) := hb
  rw [hsame]
  exact Table.single_self farMetadata ⟨2^39, 2^39, 0, []⟩

theorem attackStep_far (T0 : Table) {qf : QF} {T : Table} {y : Nat} (h : Represents qf T)
    (hn : ¬ Near qf.metadata (T.contents qf.metadata) y) (log : List (Nat × Bool)) :
    attackStep T0 y (qf, log) = none := by
  unfold attackStep
  rw [h.wf.llTable_far (keyToHash_self qf y) hn]
  rfl

/-- The query does not answer for a hash whose item is in slot 2^31. -/
theorem monotone_adaptivity_far : Represents farFilter farTable ∧
    (∀ b, ∀ e ∈ farTable b, e.cnt = []) ∧
    Runs.Along (fun y s => y < 2^64 ∧ AttackFindsSpace farTable y s.1) (attackStep farTable)
      [2^40 + 2^39] (farFilter, []) ∧
    Runs.run (attackStep farTable) [2^40 + 2^39] (farFilter, []) = none := by
  have hn := farTable_far (2^40 + 2^39) (by decide) (by decide)
  have hstep := attackStep_far farTable farFilter_represents hn []
  have hquery := farFilter_represents.wf.qfQuery_far (keyToHash_self farFilter (2^40 + 2^39)) hn
  refine ⟨farFilter_represents, fun b e he => ?_, ⟨⟨by decide, ?_⟩, fun s' hs => ?_⟩, ?_⟩
  · rw [(Table.mem_single he).2]
  · intro count hit rank x g hq
    rw [hquery] at hq
    exact absurd hq (Option.some_ne_none _).symm
  · rw [hstep] at hs
    exact absurd hs (Option.some_ne_none _).symm
  · rw [Runs.run, hstep]
    rfl

end AdaptiveQF
