import Mathlib.Algebra.Order.BigOperators.Group.Finset
import AdaptiveQF.Checks

/-! nelts and ndistinct_elts over whole runs of calls. -/
namespace AdaptiveQF
open RunLayout Finset

def Contents.total (f : Item → Nat) (n : Nat) (A : Contents) : Nat :=
  ∑ b ∈ range n, ((A b).map f).sum

structure Exact (qf : QF) (A : Contents) : Prop where
  ndistinctElts : qf.metadata.ndistinctElts = A.total (fun _ => 1) qf.metadata.nslots
  nelts : qf.metadata.nelts = A.total (Item.count qf.bits) qf.metadata.nslots

def QF.CountsExact (qf : QF) : Prop := ∃ A, Layout qf A ∧ Exact qf A

def Call.CountsOnce : Call → QF → Prop
  | .insertRet _ count _ _, qf => full qf = false → qf.metadata.nelts + count < 2^64
  | .insertUsingLlTable key count _ flags, qf => full qf = false →
    (1 < count → isOccupied qf (qf.metadata.bucket (keyToHash qf key flags)) = false) ∧
      qf.metadata.nelts + count < 2^64
  | .insertAndExtend _ _ count _ _ _ _, qf => qf.metadata.nelts + count < 2^64
  | _, _ => True

instance (qf : QF) : ∀ c : Call, Decidable (c.CountsOnce qf)
  | .insertRet .. => inferInstanceAs (Decidable (_ → _))
  | .insertUsingLlTable .. => inferInstanceAs (Decidable (_ → _ ∧ _))
  | .insertAndExtend .. => inferInstanceAs (Decidable (_ < _))
  | .adapt .. => inferInstanceAs (Decidable True)
  | .adaptUsingLlTable .. => inferInstanceAs (Decidable True)
  | .remove .. => inferInstanceAs (Decidable True)

section
variable {qf qf' : QF} {A : Contents} {b n : Nat} {l1 l2 old new : List Item}

theorem Contents.total_update (f : Item → Nat) (A : Contents) (hb : b < n) (l : List Item) :
    Contents.total f n (Function.update A b l) + ((A b).map f).sum =
      A.total f n + (l.map f).sum := by
  have hsum := sum_update_add (fun c => ((A c).map f).sum) hb (l.map f).sum
  have hfun : (fun c => ((Function.update A b l c).map f).sum) =
      Function.update (fun c => ((A c).map f).sum) b (l.map f).sum := by
    funext c
    by_cases hc : c = b
    · subst hc
      rw [Function.update_self, Function.update_self]
    · rw [Function.update_of_ne hc, Function.update_of_ne hc]
  unfold Contents.total
  rw [hfun]
  exact hsum

/-- Every item takes a slot at least. -/
theorem Layout.total_le (h : Layout qf A) :
    A.total (fun _ => 1) qf.metadata.nslots ≤ qf.xnslots := by
  have hends : ends A.lens qf.metadata.nslots ≤ qf.xnslots := h.fits
  have hlen : ∀ l : List Item, (l.map fun _ => 1).sum ≤ itemsLen l := by
    intro l
    induction l with
    | nil => exact Nat.zero_le _
    | cons it l ih =>
      have := it.len_pos
      rw [List.map_cons, List.sum_cons, itemsLen_cons]
      omega
  calc A.total (fun _ => 1) qf.metadata.nslots
    _ ≤ ∑ c ∈ range qf.metadata.nslots, A.lens c := sum_le_sum fun c _ => hlen (A c)
    _ ≤ qf.xnslots := (sum_le_ends _ _).trans hends

theorem Swapped.total (f : Item → Nat) (h : Swapped qf A b l1 old new l2 qf')
    (hb : b < qf.metadata.nslots) :
    Contents.total f qf'.metadata.nslots (Function.update A b (l1 ++ new ++ l2)) + (old.map f).sum =
      A.total f qf.metadata.nslots + (new.map f).sum := by
  have htotal := Contents.total_update f A hb (l1 ++ new ++ l2)
  rw [h.split] at htotal
  simp only [List.map_append, List.sum_append] at htotal
  rw [h.keeps.nslots]
  omega

/-- The counters stay exact if as much is counted as the items have become more. -/
theorem Exact.swapped (h : Exact qf A) (hb : b < qf.metadata.nslots)
    (hsw : Swapped qf A b l1 old new l2 qf') {d : Nat} (ht : qf.Tallied n d qf')
    (hn : (new.map (Item.count qf.bits)).sum = (old.map (Item.count qf.bits)).sum + n)
    (hd : new.length = old.length + d) (hlt : qf.metadata.nelts + n < 2^64) :
    Exact qf' (Function.update A b (l1 ++ new ++ l2)) ∧ qf'.metadata.nelts < 2^64 := by
  have hitems := hsw.total (fun _ => 1) hb
  have hcounts := hsw.total (Item.count qf.bits) hb
  have hone : ∀ l : List Item, (l.map fun _ => 1).sum = l.length := by simp
  rw [hone, hone, ← h.ndistinctElts, hd] at hitems
  rw [← h.nelts, hn] at hcounts
  have hword := hsw.tidy.geometry.word
  have hle := hsw.tidy.toLayout.total_le
  unfold QF.xnslots at hle
  refine ⟨⟨?_, ?_⟩, ?_⟩
  · rw [ht.ndistinctElts (by omega)]
    omega
  · rw [ht.nelts hlt, hsw.keeps.bits]
    omega
  · rw [ht.nelts hlt]
    exact hlt

theorem Exact.removed (h : Exact qf A) (hb : b < qf.metadata.nslots) {it : Item}
    (hsw : Swapped qf A b l1 [it] [] l2 qf')
    (hn : qf'.metadata.nelts = sub64 qf.metadata.nelts (it.count qf.bits))
    (hd : qf'.metadata.ndistinctElts = sub64 qf.metadata.ndistinctElts 1)
    (hlt : qf.metadata.nelts < 2^64) (hlay : Layout qf A) :
    Exact qf' (Function.update A b (l1 ++ [] ++ l2)) ∧ qf'.metadata.nelts < 2^64 := by
  have hitems := hsw.total (fun _ => 1) hb
  have hcounts := hsw.total (Item.count qf.bits) hb
  simp only [List.map_cons, List.map_nil, List.sum_cons, List.sum_nil,
    Nat.add_zero] at hitems hcounts
  have hword := hlay.geometry.word
  have hle := hlay.total_le
  unfold QF.xnslots at hle
  have hold := h.ndistinctElts
  have hold2 := h.nelts
  have hsub : ∀ a c : Nat, c ≤ a → a < 2^64 → sub64 a c = a - c := by
    intro a c hc ha
    unfold sub64
    omega
  rw [hsub _ _ (by omega) hlt] at hn
  rw [hsub _ _ (by omega) (by omega)] at hd
  refine ⟨⟨by omega, ?_⟩, by omega⟩
  rw [hsw.keeps.bits]
  omega

end

/-! The steps. -/

structure Tallying (qf : QF) (A : Contents) : Prop extends Tidy qf A, Exact qf A where
  lt : qf.metadata.nelts < 2^64

section
variable {qf qf' : QF} {A : Contents} {hash count n d : Nat} {l1 l2 old new : List Item}

theorem QF.Zeroed.tallying (h : qf.Zeroed) : Tallying qf Contents.empty := by
  refine ⟨h.tidy, ⟨?_, ?_⟩, ?_⟩
  · rw [h.ndistinctElts]
    simp [Contents.total]
  · rw [h.nelts]
    simp [Contents.total]
  · rw [h.nelts]
    exact Nat.two_pow_pos 64

theorem Tallying.swapped (h : Tallying qf A)
    (hsw : Swapped qf A (qf.metadata.bucket hash) l1 old new l2 qf') (ht : qf.Tallied n d qf')
    (hn : (new.map (Item.count qf.bits)).sum = (old.map (Item.count qf.bits)).sum + n)
    (hd : new.length = old.length + d) (hlt : qf.metadata.nelts + n < 2^64) :
    ∃ A', Tallying qf' A' := by
  obtain ⟨hexact, hlt'⟩ := h.toExact.swapped (h.geometry.bucket_lt hash) hsw ht hn hd hlt
  exact ⟨_, hsw.tidy, hexact, hlt'⟩

/-- A new item is counted once. -/
theorem Tallying.inserted (h : Tallying qf A) (h0 : 0 < count) (hc : count < 2^64)
    (hsw : Swapped qf A (qf.metadata.bucket hash) l1 [] [newItem qf hash count] l2 qf')
    (ht : qf.Tallied count 1 qf') (hlt : qf.metadata.nelts + count < 2^64) :
    ∃ A', Tallying qf' A' := by
  refine h.swapped hsw ht ?_ rfl hlt
  simp only [List.map_cons, List.map_nil, List.sum_cons, List.sum_nil, newItem,
    Item.count_counterOf h.bits_pos h0 hc]
  omega

theorem Tallying.extended (h : Tallying qf A) {it : Item} {done : List Nat}
    (hsw : Swapped qf A (qf.metadata.bucket hash) l1 [it] [it.extend done] l2 qf')
    (ht : qf.KeepsTally qf') (hc : it.cnt = []) : ∃ A', Tallying qf' A' := by
  refine h.swapped hsw (.of_keepsTally ht) ?_ rfl h.lt
  have hone : it.count qf.bits = 1 := if_pos hc
  simp only [List.map_cons, List.map_nil, List.sum_cons, List.sum_nil, Item.count_extend hc, hone,
    Nat.add_zero]

theorem Tallying.step (h : Tallying qf A) (resize : QF → Nat → Option (Int × QF)) (c : Call)
    (hl : c.Legal qf) (hr : c.HasRoom qf) (hs : c.Sound qf) (ho : c.CountsOnce qf) :
    ∃ qf', c.step resize qf = some qf' ∧ ∃ A', Tallying qf' A' := by
  cases c with
  | insertRet key count out flags =>
    obtain ⟨h0, hc⟩ := hl
    obtain ⟨r, out', qf', hcall, hcase⟩ := h.toTidy.insertRet rfl h0 hc
      (fun hf => (hs hf A h.toLayout).1) (fun hf l1 l2 p hp hpl =>
        ⟨hr hf A l1 l2 p h.toLayout hp hpl, (hs hf A h.toLayout).2 l1 l2 p hp hpl⟩) resize out
    refine ⟨qf', by simp [Call.step, Call.exec, hcall], ?_⟩
    rcases hcase with ⟨rfl, -⟩ | ⟨hf, rfl, ht, l1, l2, hsw⟩
    · exact ⟨A, h⟩
    · exact h.inserted h0 hc hsw ht (ho hf)
  | insertUsingLlTable key count result flags =>
    obtain ⟨h0, hc⟩ := hl
    obtain ⟨r, result', qf', hcall, hcase⟩ := h.toTidy.insertUsingLlTable rfl h0 hc
      (fun hf => (hs hf A h.toLayout).1) (fun hf l1 l2 p hp hpl =>
        ⟨hr hf A l1 l2 p h.toLayout hp hpl, (hs hf A h.toLayout).2 l1 l2 p hp hpl⟩) resize result
    refine ⟨qf', by simp [Call.step, Call.exec, hcall], ?_⟩
    rcases hcase with ⟨rfl, -⟩ | ⟨hf, rfl, ht, l1, l2, hsw⟩
    · exact ⟨A, h⟩
    · obtain ⟨hempty, hlt⟩ := ho hf
      -- the bucket was empty, or there is no rest of the count
      have honce : (if A (qf.metadata.bucket (keyToHash qf key flags)) = [] then 1 else count) +
          (count - 1) = count := by
        by_cases hone : count = 1
        · rw [hone]
          split <;> rfl
        · have hocc : qf.view.occupied (qf.metadata.bucket (keyToHash qf key flags)) = false :=
            hempty (by omega)
          rw [h.occupied, decide_eq_false_iff_not, not_not] at hocc
          rw [if_pos hocc]
          omega
      rw [honce] at ht
      exact h.inserted h0 hc hsw ht hlt
  | insertAndExtend index key count otherKey retHash retOtherHash flags =>
    obtain ⟨⟨h0, hc⟩, hid, B, l1, it, l2, hst, hlen⟩ := hl
    obtain rfl := h.toLayout.unique hst.layout
    obtain ⟨hnear, hsame, hother⟩ := hs _ _ _ _ hst
    obtain ⟨hroom, hroom2⟩ := hr _ _ _ _ hst
    by_cases heq : keyToHash qf key flags = keyToHash qf otherKey flags
    · obtain ⟨hcnt, hfits⟩ := hsame heq
      obtain ⟨qf', hcall, ht, hsw⟩ := h.toTidy.insertAndExtend_same rfl heq.symm hst hnear hcnt h0
        hfits (hroom heq) retHash retOtherHash
      refine ⟨qf', by simp [Call.step, Call.exec, hcall], h.swapped hsw ht ?_ rfl ho⟩
      simp only [List.map_cons, List.map_nil, List.sum_cons, List.sum_nil, Nat.add_zero]
      exact Item.count_withCounter_digits h.bits_pos (by omega) hfits it
    · obtain ⟨hcnt, hrest⟩ := hother heq
      obtain ⟨ret, qf', hcall, -, ht, hsw⟩ := h.toTidy.insertAndExtend_other rfl rfl heq hid hst
        hnear hcnt (hlen heq) h0 hc hrest (hroom2 heq) retHash retOtherHash
      refine ⟨qf', by simp [Call.step, Call.exec, hcall], h.swapped hsw ht ?_ rfl ho⟩
      have hone : it.count qf.bits = 1 := if_pos hcnt
      simp only [List.map_cons, List.map_nil, List.sum_cons, List.sum_nil,
        Item.count_counterOf h.bits_pos h0 hc, Item.count_extend hcnt, hone]
      omega
  | adapt index key otherKey retHash flags =>
    obtain ⟨B, l1, it, l2, hst, hlen⟩ := hl
    obtain rfl := h.toLayout.unique hst.layout
    obtain ⟨hnear, hcnt⟩ := hs _ _ _ _ hst
    obtain ⟨r, rh, qf', hcall, hcase⟩ := h.toTidy.adapt rfl rfl hst hlen hnear hcnt retHash
    refine ⟨qf', by simp [Call.step, Call.exec, hcall], ?_⟩
    rcases hcase with ⟨-, -, rfl⟩ | ⟨hne, done, rest, hgrew⟩
    · exact ⟨A, h⟩
    · exact h.extended hgrew.swapped hgrew.tally (hcnt hne)
  | adaptUsingLlTable origKey fpKey minirunRank flags =>
    obtain ⟨hid, B, l1, it, l2, hst, rfl, hlen⟩ := hl
    obtain rfl := h.toLayout.unique hst.layout
    obtain ⟨hnear, hcnt⟩ := hs _ _ _ _ hst rfl
    obtain ⟨qf', hcall, ht, hcase⟩ := h.toTidy.adaptUsingLlTable rfl rfl hid hst hlen hnear hcnt
    refine ⟨qf', by simp [Call.step, Call.exec, hcall], ?_⟩
    rcases hcase with rfl | ⟨hne, done, hsw⟩
    · exact ⟨A, h⟩
    · exact h.extended hsw ht (hcnt hne)
  | remove key out flags =>
    obtain ⟨r, out', qf', hcall, hcase⟩ := h.toTidy.remove rfl (hs A h.toLayout) out
    refine ⟨qf', by simp [Call.step, Call.exec, hcall], ?_⟩
    rcases hcase with ⟨rfl, -⟩ | ⟨l1, it, l2, -, hn, hd, hsw⟩
    · exact ⟨A, h⟩
    · obtain ⟨hexact, hlt⟩ := h.toExact.removed (h.geometry.bucket_lt _) hsw hn hd h.lt h.toLayout
      exact ⟨_, hsw.tidy, hexact, hlt⟩

end

/-- In every run that counts once both counters are exact behind each call. -/
theorem counters_exact {qf : QF} (h : qf.Zeroed) (resize : QF → Nat → Option (Int × QF))
    {calls : List Call} (hcalls : Runs.Along
      (fun c qf => c.Legal qf ∧ c.HasRoom qf ∧ c.Sound qf ∧ c.CountsOnce qf) (Call.step resize)
        calls qf) :
    ∃ qf', Runs.run (Call.step resize) calls qf = some qf' ∧ qf'.CountsExact := by
  have hstep : ∀ (c : Call) (qf : QF), (∃ A, Tallying qf A) →
      (c.Legal qf ∧ c.HasRoom qf ∧ c.Sound qf ∧ c.CountsOnce qf) →
        ∃ qf', c.step resize qf = some qf' ∧ ∃ A, Tallying qf' A := by
    rintro c qf ⟨A, hA⟩ ⟨hl, hr, hs, ho⟩
    exact hA.step resize c hl hr hs ho
  obtain ⟨qf', hrun, A, hA⟩ := Runs.invariant hstep ⟨_, h.tallying⟩ hcalls
  exact ⟨qf', hrun, A, hA.toLayout, hA.toExact⟩

/-! 64 slots of 2 bits. The second hash is told apart from the first one, and gets a larger count.
The first one's item is adapted, and the second one's removed. -/

def countedFilter : QF := QF.zero (QFMetadata.init 6 2 144)

theorem countedFilter_zeroed : countedFilter.Zeroed :=
  QF.zeroed_init (Geometry.init (by decide) (by decide) (by decide) (by decide) (by decide))

def countedRun : List (Call × List (List Item)) :=
  [(HashCall.insert 0 1, []),
    (HashCall.extend 0 256 5 0, [[⟨0, [], []⟩]]),
    (HashCall.extend 0 256 2 256, [[⟨0, [1], [1, 1]⟩, ⟨0, [0], []⟩]]),
    (HashCall.adapt 4 0 1024, [[⟨0, [1], [3, 1]⟩, ⟨0, [0], []⟩]]),
    (HashCall.insert 64 3, [[⟨0, [1], [3, 1]⟩, ⟨0, [0, 0], []⟩]]),
    (HashCall.remove 256, [[⟨0, [1], [3, 1]⟩, ⟨0, [0, 0], []⟩]] ++ List.replicate 15 [] ++
      [[⟨0, [], [3]⟩]])]

theorem counters_exact_run : ∃ qf', Runs.run (Call.step noResize) (countedRun.map Prod.fst)
    countedFilter = some qf' ∧ qf'.CountsExact ∧ qf'.metadata.nelts = 4 := by
  have hok := countedFilter_zeroed.tidy.along_checked (fun c q A h hc => hc.ok h)
    (show Runs.Along ShowsChecked (fun op => op.1.step noResize) countedRun countedFilter by
      decide +kernel)
  have honce : Runs.Along Call.CountsOnce (Call.step noResize) (countedRun.map Prod.fst)
      countedFilter := by decide +kernel
  obtain ⟨qf', hrun, hexact⟩ := counters_exact countedFilter_zeroed noResize
    (Runs.along_mono (fun c q h => ⟨h.1.1, h.1.2.1, h.1.2.2, h.2⟩) (Runs.along_and hok honce))
  have hnelts : ∀ q ∈ Runs.run (Call.step noResize) (countedRun.map Prod.fst) countedFilter,
      q.metadata.nelts = 4 := by decide +kernel
  exact ⟨qf', hrun, hexact, hnelts qf' hrun⟩

/-! A count of 2 into a bucket that holds an item. It is added to `nelts` when the item is put
there, and all but 1 of it once more with the counter. -/

def countedTwice : List (Call × List (List Item)) :=
  [(HashCall.insertLl 0 1, []), (HashCall.insertLl 1 2, [[⟨0, [], []⟩]])]

def countedItems : List (List Item) := [[⟨0, [], []⟩, ⟨1, [], [2]⟩]]

theorem counters_exact_fails : smallFilter.Zeroed ∧
    Runs.Along (fun c qf => c.Legal qf ∧ c.HasRoom qf) (Call.step noResize)
      (countedTwice.map Prod.fst) smallFilter ∧
    ∃ qf', Runs.run (Call.step noResize) (countedTwice.map Prod.fst) smallFilter = some qf' ∧
      ¬ qf'.CountsExact := by
  have hok := smallFilter_zeroed.tidy.along_checked (fun c q A h hc => hc.ok h)
    (show Runs.Along ShowsChecked (fun op => op.1.step noResize) countedTwice smallFilter by
      decide +kernel)
  have hsome : (Runs.run (Call.step noResize) (countedTwice.map Prod.fst) smallFilter).isSome := by
    decide +kernel
  have hfacts : ∀ q ∈ Runs.run (Call.step noResize) (countedTwice.map Prod.fst) smallFilter,
      countedItems.length ≤ q.metadata.nslots ∧ (Contents.ofList countedItems).Shown q ∧
        q.metadata.nelts ≠ (Contents.ofList countedItems).total (Item.count q.bits)
          q.metadata.nslots := by decide +kernel
  obtain ⟨q, hq⟩ := Option.isSome_iff_exists.mp hsome
  obtain ⟨hlen, hshown, hnelts⟩ := hfacts q hq
  refine ⟨smallFilter_zeroed, Runs.along_mono (fun c q h => ⟨h.1, h.2.1⟩) hok, q, hq, ?_⟩
  rintro ⟨B, hB, hexact⟩
  obtain rfl := hB.eq_ofList hlen hshown
  exact hnelts hexact.nelts

end AdaptiveQF
