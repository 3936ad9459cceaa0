import AdaptiveQF.Monotone

/-! qf_adapt makes a fingerprint just long enough to tell two hashes apart. -/
namespace AdaptiveQF
open RunLayout

structure FirstDifference (m : QFMetadata) (h g j : Nat) : Prop where
  differ : m.digit h j ≠ m.digit g j
  same : ∀ i < j, m.digit h i = m.digit g i

section
variable {m : QFMetadata} {h g n j : Nat}

theorem QFMetadata.extension_congr (hd : ∀ i < n, m.digit h i = m.digit g i) :
    m.extension h n = m.extension g n := by
  induction n with
  | zero =>
    have hnil : ∀ x, m.extension x 0 = [] := fun x => List.length_eq_zero_iff.mp (by simp)
    rw [hnil, hnil]
  | succ n ih =>
    rw [m.extension_succ, m.extension_succ, ih fun i hi => hd i (by omega), hd n (by omega)]

theorem Digging.stops_at {ds : List Nat} (hd : Digging m h g n ds) (hh : h < 2^64) (hg : g < 2^64)
    (hne : h ≠ g) (hb : m.bucket h = m.bucket g) (hr : m.remainder h = m.remainder g)
    (he : m.extension h n = m.extension g n) (hj : FirstDifference m h g j) :
    n + ds.length = j + 1 := by
  have hpos := hd.pos
  have hsame : ∀ i, i + 1 < n + ds.length → m.digit h i = m.digit g i := by
    intro i hi
    by_cases hin : i < n
    · exact QFMetadata.digit_of_extension he hin
    · exact hd.same i (by omega) hi
  have hlast : m.digit h (n + ds.length - 1) ≠ m.digit g (n + ds.length - 1) := by
    intro hl
    apply hd.separates hh hg hne hb
    refine ⟨hr, QFMetadata.extension_congr fun i hi => ?_⟩
    by_cases hi2 : i + 1 < n + ds.length
    · exact hsame i hi2
    · have hik : i = n + ds.length - 1 := by omega
      rw [hik]
      exact hl
  rcases Nat.lt_trichotomy (n + ds.length - 1) j with hlt | heq | hgt
  · exact absurd (hj.same _ hlt) hlast
  · omega
  · exact absurd (hsame j (by omega)) hj.differ

end

section
variable {qf : QF} {A : Contents} {b : Nat} {l1 l2 : List Item} {it : Item} {hash other j : Nat}

/-- The item gets the extension slots of `hash` up to slot `j`, and the count 1. It goes on to match
`hash`, and no longer matches `other`. The other items stay. -/
def AdaptsExactly (qf : QF) (A : Contents) (b : Nat) (l1 : List Item) (it : Item) (l2 : List Item)
    (hash other j : Nat) (result : Option (Int × Nat × QF)) : Prop :=
  ∃ qf', result = some
    ((qf.metadata.fingerprintLen (j+1) : Int), qf.metadata.fingerprint hash (j+1),
      qf') ∧
    WF qf' (Function.update A b (l1 ++ qf.metadata.item hash (j+1) :: l2)) ∧
    it.ext.length < j + 1 ∧ (qf.metadata.item hash (j+1)).count qf.bits = 1 ∧
    (qf.metadata.item hash (j+1)).Matches qf.metadata hash ∧
    ¬ (qf.metadata.item hash (j+1)).Matches qf.metadata other

theorem Contents.le_pos (A : Contents) (b : Nat) (l : List Item) : b ≤ A.pos b l :=
  (le_start b).trans (Nat.le_add_right _ _)

/-- Adaptation is exact and minimal if and only if the item ends in front of slot 2^31 and there is
an empty slot behind it, be it needed or not. -/
theorem adapt_exact_iff (h : WF qf A) (hb : A b = l1 ++ it :: l2) (hc : it.cnt.length ≤ 1)
    {key otherKey flags : Nat} (hkey : keyToHash qf key flags = hash)
    (hother : keyToHash qf otherKey flags = other) (hh : hash < 2^64) (hg : other < 2^64)
    (hne : hash ≠ other) (hbk : qf.metadata.bucket hash = b) (hbk2 : qf.metadata.bucket other = b)
    (hm : it.Matches qf.metadata hash) (hm2 : it.Matches qf.metadata other)
    (hj : FirstDifference qf.metadata hash other j)
    (hfree : j + 1 ≤ it.ext.length + it.cnt.length + A.free qf (A.pos b l1)) (retHash : Nat) :
    AdaptsExactly qf A b l1 it l2 hash other j
        (qfAdapt qf (A.pos b l1) key otherKey retHash flags) ↔
      A.pos b l1 + it.len < 2^31 ∧ 0 < A.free qf (A.pos b l1) := by
  have hcall := h.qfAdapt_eq hkey hother hne (A.pos b l1) retHash
  rw [hcall, hbk]
  constructor
  · rintro ⟨qf', hres, -⟩
    constructor
    · by_contra hfar
      rw [h.adapt_far hb (by omega)] at hres
      exact absurd hres (Option.some_ne_none _).symm
    · by_contra hzero
      have hret := h.adapt_full hb (by omega) b hash other _ hres
      have : (qf.metadata.fingerprintLen (j+1) : Int) = -1 := hret
      omega
  · rintro ⟨hs, hpos⟩
    have hroom := fingerprintLen_lt hh hg hne (hbk.trans hbk2.symm) hm hm2
    obtain ⟨qf', ret, retHash', done, rest, heq, had, hrest⟩ :=
      h.adapt_matching hb hc hs hbk hm hh hroom other
    have hbuckets := hbk.trans hbk2.symm
    have hlen : it.ext.length + (done ++ rest).length = j + 1 :=
      had.digging.stops_at hh hg hne hbuckets (hm.1.symm.trans hm2.1) (hm.2.symm.trans hm2.2) hj
    have hnil := hrest hpos (by omega)
    have hret : ret ≠ noSpace := by
      rw [had.ret_eq, if_pos hnil]
      unfold noSpace
      omega
    obtain ⟨-, hsep⟩ := had.separated hret hh hg hne hbuckets
    have hj1 : it.ext.length + done.length = j + 1 := by
      rw [hnil, List.append_nil] at hlen
      exact hlen
    rw [hj1] at hsep
    rw [heq, hsep.retHash_eq, hsep.ret_eq]
    exact ⟨qf', rfl, hsep.wf, hsep.longer, rfl, QFMetadata.item_matches _ _ _, hsep.apart⟩

end

/-! One item, of the hash 0 in a small filter, and in slot 2^31 of a large one. -/

theorem Contents.single_free_pos {m : QFMetadata} {b : Nat} {it : Item} (hf : (single b it).Fits m)
    (hx : b + it.len < m.xnslots) :
    0 < (single b it).free (QF.ofContents m (single b it)) ((single b it).pos b []) := by
  have hlens : (single b it).lens = Function.update (fun _ => 0) b it.len := by
    rw [single, Contents.lens_update, Contents.lens_empty]
    rfl
  have hb : b < m.nslots := by
    by_contra hc
    have hout := hf.outside b (by omega)
    simp [single] at hout
  have hpos : (single b it).pos b [] = b := by
    rw [pos, hlens, start, ends_single it.len_pos, if_pos (Nat.le_refl b)]
    simp
  have hzero : ∀ c, m.nslots ≤ c → (single b it).lens c = 0 := fun c hc => by
    rw [lens, hf.outside c hc]
    rfl
  obtain ⟨e, he, hle⟩ := exists_firstUnused hzero b
  rw [hlens, ends_single it.len_pos, if_neg (by omega)] at hle
  have hend : e < m.xnslots := by omega
  rw [hpos]
  exact free_pos_iff.mpr ⟨e, he, hend⟩

def exactContents : Contents := Contents.single 0 ⟨0, [], []⟩

theorem exactContents_wf : WF (QF.ofContents smallMetadata exactContents) exactContents := by
  refine Contents.Fits.wf ?_ smallMetadata_geometry
  exact Contents.single_fits (by decide) (by decide) ⟨by decide, by decide, by decide⟩
    (show 3 + 2 * 0 < 64 by decide)

theorem adapt_exact_iff_small : AdaptsExactly (QF.ofContents smallMetadata exactContents)
      exactContents 0 [] ⟨0, [], []⟩ [] 0 64 0 (qfAdapt (QF.ofContents smallMetadata exactContents)
        (exactContents.pos 0 []) 0 64 0 QF_KEY_IS_HASH) ↔
    exactContents.pos 0 [] + Item.len ⟨0, [], []⟩ < 2^31 ∧
      0 < exactContents.free (QF.ofContents smallMetadata exactContents)
        (exactContents.pos 0 []) := by
  have hb : exactContents 0 = [] ++ ⟨0, [], []⟩ :: [] := Contents.single_self _ _
  have hkey : ∀ x, keyToHash (QF.ofContents smallMetadata exactContents) x QF_KEY_IS_HASH = x :=
    fun x => keyToHash_self _ x
  have hm : ∀ x, x = 0 ∨ x = 64 → Item.Matches smallMetadata ⟨0, [], []⟩ x := by
    rintro x (rfl | rfl)
    · decide
    · decide
  have hj : FirstDifference smallMetadata 0 64 0 := ⟨by decide, by decide⟩
  have hfree : 0 < exactContents.free (QF.ofContents smallMetadata exactContents)
      (exactContents.pos 0 []) :=
    Contents.single_free_pos ⟨exactContents_wf.outside, exactContents_wf.fits,
      exactContents_wf.bounded, exactContents_wf.sorted, exactContents_wf.fingerprint⟩ (by decide)
  refine adapt_exact_iff exactContents_wf hb (by decide) (hkey 0) (hkey 64) (by decide) (by decide)
    (by decide) (by decide) (by decide) (hm 0 (.inl rfl)) (hm 64 (.inr rfl)) hj ?_ 0
  exact Nat.add_le_add_left hfree 0

def farContents : Contents := Contents.single (2^31) ⟨0, [], []⟩

theorem farContents_fits : farContents.Fits farMetadata :=
  Contents.single_fits (by decide) (by decide) ⟨by decide, by decide, by decide⟩
    (show 32 + 8 * 0 < 64 by decide)

theorem farContents_wf : WF (QF.ofContents farMetadata farContents) farContents :=
  farContents_fits.wf farMetadata_geometry

theorem farContents_free :
    0 < farContents.free (QF.ofContents farMetadata farContents) (farContents.pos (2^31) []) :=
  Contents.single_free_pos farContents_fits (by decide)

theorem qfAdapt_far : qfAdapt (QF.ofContents farMetadata farContents) (farContents.pos (2^31) [])
    (2^39) (2^40 + 2^39) 0 QF_KEY_IS_HASH = none := by
  have hb : farContents (2^31) = [] ++ ⟨0, [], []⟩ :: [] := Contents.single_self _ _
  have hkey : ∀ x, keyToHash (QF.ofContents farMetadata farContents) x QF_KEY_IS_HASH = x :=
    fun x => keyToHash_self _ x
  have hfar : 2^31 ≤ farContents.pos (2^31) [] + Item.len ⟨0, [], []⟩ :=
    (Contents.le_pos _ _ _).trans (Nat.le_add_right _ _)
  have hcall := farContents_wf.qfAdapt_eq (hkey (2^39)) (hkey (2^40 + 2^39)) (by decide)
    (farContents.pos (2^31) []) 0
  exact hcall.trans (farContents_wf.adapt_far hb hfar _ _ _)

/-- In slot 2^31 no fingerprint is extended. -/
theorem adapt_exact_far : WF (QF.ofContents farMetadata farContents) farContents ∧
    farContents (2^31) = [⟨0, [], []⟩] ∧ FirstDifference farMetadata (2^39) (2^40 + 2^39) 0 ∧
    0 < farContents.free (QF.ofContents farMetadata farContents) (farContents.pos (2^31) []) ∧
    qfAdapt (QF.ofContents farMetadata farContents) (farContents.pos (2^31) []) (2^39)
      (2^40 + 2^39) 0 QF_KEY_IS_HASH = none ∧
    ¬ AdaptsExactly (QF.ofContents farMetadata farContents) farContents (2^31) [] ⟨0, [], []⟩ []
      (2^39) (2^40 + 2^39) 0 (qfAdapt (QF.ofContents farMetadata farContents)
        (farContents.pos (2^31) []) (2^39) (2^40 + 2^39) 0 QF_KEY_IS_HASH) := by
  refine ⟨farContents_wf, Contents.single_self _ _, ⟨by decide, by decide⟩, farContents_free,
    qfAdapt_far, ?_⟩
  rintro ⟨qf', hres, -⟩
  rw [qfAdapt_far] at hres
  exact absurd hres (Option.some_ne_none _).symm

end AdaptiveQF
