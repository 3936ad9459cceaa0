import AdaptiveQF.MergeRun

/-! The rest of `qf_merge_ret`: its start, the items that are left in one input, and the result. -/
namespace AdaptiveQF
open RunLayout Meld Outcome

section
variable {inputs : Bool → QF} {D : Bool → Contents} {qfc : QF} {done : List (Nat × Item)}
  {l : Bool → List (Nat × Item)} {x : Bool} {e : Nat × Item} {t : List (Nat × Item)}
  {s : MergeState}

namespace Progress

theorem enter (h : Progress inputs D qfc s done l) (hx : l x = e :: t) (hother : l (!x) = [])
    (hrun : s.run x = e.1) :
    ∃ s', (if s.run x ≠ s.currentRun then s.openRun (s.run x) else s) = s' ∧
      Progress inputs D qfc s' done l ∧ s'.currentRun = e.1 ∧ s'.heads = s.heads := by
  by_cases hsame : s.run x = s.currentRun
  · rw [if_neg (not_not.mpr hsame)]
    exact ⟨s, rfl, h, by rw [← hsame, hrun], rfl⟩
  · rw [if_pos hsame, hrun]
    have hge := h.pending.ahead x e (by rw [hx]; exact List.mem_cons_self)
    have hsorted := h.pending.sorted x
    refine ⟨_, rfl, h.openRun (by omega) ⟨x, e, by rw [hx]; exact List.mem_cons_self, rfl⟩
      fun y f hf => ?_, rfl, rfl⟩
    by_cases hyx : y = x
    · rw [hyx, hx] at hf
      rw [hx] at hsorted
      rcases List.mem_cons.mp hf with rfl | hf
      · exact le_refl _
      · exact List.rel_of_pairwise_cons hsorted hf
    · obtain rfl : y = !x := by cases x <;> cases y <;> simp at hyx ⊢
      rw [hother] at hf
      exact absurd hf List.not_mem_nil

/-- The do-while loop over the items that are left in one input. -/
theorem drainLoop (h : Progress inputs D qfc s done l) (hs : MergeSetting inputs D qfc)
    (hx : l x = e :: t) (hother : l (!x) = [])
    (hleft : Left (inputs x) (D x) (s.heads x).qfi (l x)) {fuel : Nat}
    (hfuel : (l x).length ≤ fuel) :
    Delivers (MergeEnds inputs D qfc) (MergeState.drainLoop inputs x fuel s) fun s' =>
      (∃ done', Progress inputs D qfc s' done' fun _ => []) ∧ s'.heads (!x) = s.heads (!x) ∧
        Left (inputs x) (D x) (s'.heads x).qfi [] ∧
        (D x).extent (inputs x).metadata.nslots < 2^31 := by
  induction fuel generalizing s done l e t with
  | zero =>
    rw [hx, List.length_cons] at hfuel
    omega
  | succ fuel ih =>
    have hnot : (!x) ≠ x := by cases x <;> decide
    have hl := (hs.wf x).toLayout
    rw [hx] at hleft
    obtain ⟨s1, hs1, h1, hr1, hh1⟩ := h.enter hx hother hleft.run_eq
    have hrun1 : s1.run x = s1.currentRun := by
      rw [hr1, MergeState.run, hh1]
      exact hleft.run_eq
    have hmem : e ∈ mergeItems inputs D x := h.pending.mem (by rw [hx]; exact List.mem_cons_self)
    have hw := hs.bits_ge
    have hbuilt : (mergedOne qfc.bits e).2 = builtItem qfc.bits e.2.rem (e.2.packedExt qfc.bits)
        e.2.ext.length (e.2.count qfc.bits) :=
      ((hs.stored hmem).builtItem_eq (by exact (by omega : 0 < qfc.bits)) _).symm
    obtain ⟨stop, hle, hlast, hget⟩ := hleft.qfiGetHash_eq hl
    obtain ⟨ret, qfi', hnext, hleft', hret, -⟩ := hleft.next hl (hs.runsOn x)
    have hlt : ∀ f ∈ (l !x).head?, fingerKey qfc.bits e < fingerKey qfc.bits f := by
      rw [hother]
      simp
    rw [MergeState.drainLoop]
    simp only [hs1, hh1, hget, hrun1, Option.bind_eq_bind]
    by_cases hstop : stop < 2^31
    · simp only [if_pos hstop, Option.bind_some, hs.bits x]
      refine (h1.write hs (melded_one hx hlt).1 hr1.symm (hs.count_lt hmem) hbuilt).bind ?_
      rintro s2 ⟨hw2, hh2, hr2, hc2⟩
      have hp := h1.pending.one hx hlt (.inr (.inr (by rw [hother]; simp)))
      rw [← hr2, ← hc2] at hp
      simp only [hh2, hh1, hnext, Option.bind_some]
      have hother2 : Function.update l x t (!x) = [] := by rw [Function.update_of_ne hnot, hother]
      have hlen : (Function.update l x t x).length ≤ fuel := by
        rw [Function.update_self]
        rw [hx, List.length_cons] at hfuel
        omega
      have hgo : ∀ s3 : MergeState,
          s3 = { s2 with heads := Function.update s.heads x ⟨qfi', e.2.entry qfc.bits⟩ } →
          Progress inputs D qfc s3 (done ++ [mergedOne qfc.bits e]) (Function.update l x t) := by
        rintro s3 rfl
        exact ⟨hw2.congr rfl rfl rfl rfl, hp⟩
      cases ht : t with
      | nil =>
        rw [if_neg (fun h0 => hret.mp h0 ht)]
        have hnone : Function.update l x t = fun _ => [] := by
          funext y
          by_cases hyx : y = x
          · rw [hyx, Function.update_self, ht]
          · obtain rfl : y = !x := by cases x <;> cases y <;> simp at hyx ⊢
            exact hother2
        refine .some ⟨⟨_, hnone ▸ hgo _ rfl⟩, Function.update_of_ne hnot .., ?_, ?_⟩
        · simp only [Function.update_self]
          exact ht ▸ hleft'
        · rw [← hlast ht]
          exact hstop
      | cons f t' =>
        rw [if_pos (hret.mpr (by rw [ht]; simp))]
        refine (ih (hgo _ rfl) (by rw [Function.update_self, ht]) hother2 ?_ hlen).mono ?_
        · simp only [Function.update_self]
          exact hleft'
        · rintro s' ⟨hdone, hh, hrest⟩
          exact ⟨hdone, hh.trans (Function.update_of_ne hnot ..), hrest⟩
    · simp only [if_neg hstop, Option.bind_none]
      exact .none fun hok => hstop (by have := hok.near x; omega)

end Progress

/-- The two loops over what is left: at most one of them runs. -/
theorem Merging.drains (h : Merging inputs D qfc s done l) (hs : MergeSetting inputs D qfc)
    (hx : l x = []) :
    Delivers (MergeEnds inputs D qfc)
      (s.drain inputs false >>= fun s => s.drain inputs true) fun s' =>
        (∃ done', Progress inputs D qfc s' done' fun _ => []) ∧
          ∀ x, (D x).extent (inputs x).metadata.nslots < 2^31 := by
  have hfuel : ∀ y, (l y).length ≤ s.qfc.xnslots + 1 := by
    intro y
    have hkeep := QF.Keeps.of_sameFrame h.writing.frame
    have hall := h.length_le hs
    rw [hkeep.xnslots]
    cases y <;> omega
  have hended := h.ended_eq hs
  -- the input with items that are left
  have hdrain : ∀ y e t, l y = e :: t → l (!y) = [] → Delivers (MergeEnds inputs D qfc)
      (s.drain inputs y) fun s' => (∃ done', Progress inputs D qfc s' done' fun _ => []) ∧
        s'.heads (!y) = s.heads (!y) ∧ Left (inputs y) (D y) (s'.heads y).qfi [] ∧
        (D y).extent (inputs y).metadata.nslots < 2^31 := by
    intro y e t hy hother
    unfold MergeState.drain
    rw [hended, hy, List.isEmpty_cons, if_neg Bool.false_ne_true]
    exact h.drainLoop hs hy hother (h.heads y).left (hfuel y)
  cases ha : l false with
  | nil =>
    have hskip : s.drain inputs false = some s := by
      rw [MergeState.drain, hended, ha, List.isEmpty_nil, if_pos rfl]
    rw [hskip, Option.bind_eq_bind, Option.bind_some]
    cases hb : l true with
    | nil =>
      have hskip2 : s.drain inputs true = some s := by
        rw [MergeState.drain, hended, hb, List.isEmpty_nil, if_pos rfl]
      have hnone : l = fun _ => [] := by
        funext y
        cases y <;> assumption
      rw [hskip2]
      refine .some ⟨⟨done, hnone ▸ h.toProgress⟩, fun y => (h.heads y).near ?_⟩
      rw [hnone]
    | cons e t =>
      refine (hdrain true e t hb ha).mono ?_
      rintro s' ⟨hdone, -, -, hnear⟩
      refine ⟨hdone, fun y => ?_⟩
      cases y with
      | false => exact (h.heads false).near ha
      | true => exact hnear
  | cons e t =>
    have hb : l true = [] := by
      cases x with
      | false => rw [ha] at hx; simp at hx
      | true => exact hx
    refine (hdrain false e t ha hb).bind ?_
    rintro s1 ⟨hdone, hheads, -, hnear⟩
    have hskip : s1.drain inputs true = some s1 := by
      have hend : s1.ended inputs true = s.ended inputs true := by
        unfold MergeState.ended
        rw [show s1.heads true = s.heads true from hheads]
      rw [MergeState.drain, hend, hended, hb, List.isEmpty_nil, if_pos rfl]
    rw [hskip]
    refine .some ⟨hdone, fun y => ?_⟩
    cases y with
    | false => exact hnear
    | true => exact (h.heads true).near hb

/-! The start. -/

theorem mergeHead_delivers (hs : MergeSetting inputs D qfc) (x : Bool) (qfi : QFi) :
    Delivers (MergeEnds inputs D qfc) (mergeHead (inputs x) qfi) fun g =>
      Head (inputs x) (D x) g (mergeItems inputs D x) ∧
        (mergeItems inputs D x = [] → qfc.metadata.nslots ≤ g.qfi.run) := by
  have hl := (hs.wf x).toLayout
  have hpos : 0 < (inputs x).metadata.nslots := by
    rw [(hs.wf x).geometry.nslots]
    exact Nat.two_pow_pos _
  cases hitems : mergeItems inputs D x with
  | nil =>
    have hgap : ∀ b, D x b = [] := fun b =>
      (Contents.itemsFrom_eq_nil_iff hl.outside).mp hitems b (Nat.zero_le b)
    obtain ⟨ret, hcall⟩ := hl.iteratorFromPosition_none hpos (hgap 0) (Nat.zero_le _)
      (fun b _ => hgap b) qfi
    have hx := hl.geometry.xnslots
    have hblocks := hl.row.blocks
    have hstart := @le_start (D x).lens ((inputs x).metadata.nblocks * 64 + 64)
    unfold QF.xnslots at hblocks
    have hend : (inputs x).xnslots ≤
        start (D x).lens ((inputs x).metadata.nblocks * 64 + 64) := by
      unfold QF.xnslots
      omega
    have hget : qfiGetHash (inputs x) ⟨(inputs x).metadata.nblocks * 64 + 64,
        start (D x).lens ((inputs x).metadata.nblocks * 64 + 64)⟩ =
        some (QFI_INVALID, ⟨0, 0, 0, 0⟩) := by
      unfold qfiGetHash qfiEnd
      rw [if_pos (by simpa using hend)]
    rw [mergeHead, hcall]
    simp only [Option.bind_eq_bind, Option.bind_some, hget]
    refine .some ⟨⟨.ended hend, ⟨_, hget⟩, fun _ => ?_⟩, fun _ => ?_⟩
    · have hnone : (D x).extent (inputs x).metadata.nslots = 0 := by
        have hzero : (D x).lens = fun _ => 0 := by
          funext b
          rw [Contents.lens, hgap b]
          rfl
        rw [Contents.extent, hzero, ends_zero]
      omega
    · have hn := hs.nslots x
      show qfc.metadata.nslots ≤ (inputs x).metadata.nblocks * 64 + 64
      omega
  | cons e t =>
    obtain ⟨ret, qfi', hcall, hat⟩ := hl.iteratorFromPosition_at hpos (fun _ => Nat.zero_le _) qfi
    have hleft := hat.left hl
    rw [Nat.mul_zero, ite_self] at hleft
    have hleft' : Left (inputs x) (D x) qfi' (e :: t) := hitems ▸ hleft
    obtain ⟨stop, hle, -, hget⟩ := hleft'.qfiGetHash_eq hl
    rw [mergeHead, hcall]
    simp only [Option.bind_eq_bind, Option.bind_some, hget]
    by_cases hstop : stop < 2^31
    · rw [if_pos hstop, Option.bind_some]
      refine .some ⟨⟨hleft', ⟨0, ?_⟩, fun h => by simp at h⟩, fun h => by simp at h⟩
      rw [hget, if_pos hstop]
    · rw [if_neg hstop, Option.bind_none]
      exact .none fun hok => hstop (by have := hok.near x; omega)

theorem mergeStart_delivers (hs : MergeSetting inputs D qfc) (qfi : QFi) :
    Delivers (MergeEnds inputs D qfc) (mergeStart inputs qfi qfc) fun s =>
      Merging inputs D qfc s [] (mergeItems inputs D) ∧
        Merging.Behind s (mergeItems inputs D) ∧ s.currentRun = 0 := by
  have hword := hs.zeroed.geometry.nslots
  have hpos : 0 < qfc.metadata.nslots := by
    rw [hword]
    exact Nat.two_pow_pos _
  rw [mergeStart]
  refine (mergeHead_delivers hs false qfi).bind ?_
  rintro a ⟨ha, hafar⟩
  refine (mergeHead_delivers hs true qfi).bind ?_
  rintro b ⟨hb, hbfar⟩
  obtain ⟨g, hg⟩ : ∃ g : Bool → MergeHead, g = fun x => bif x then b else a := ⟨_, rfl⟩
  have hheads : ∀ x, Head (inputs x) (D x) (g x) (mergeItems inputs D x) := by
    intro x
    rw [hg]
    cases x with
    | false => exact ha
    | true => exact hb
  have hfar : ∀ x, mergeItems inputs D x = [] → qfc.metadata.nslots ≤ (g x).qfi.run := by
    intro x
    rw [hg]
    cases x with
    | false => exact hafar
    | true => exact hbfar
  have hzero : (a.qfi.run = 0 ∨ b.qfi.run = 0) ↔
      ∃ e ∈ melded qfc.bits (mergeItems inputs D), e.1 = 0 := by
    have hany : (a.qfi.run = 0 ∨ b.qfi.run = 0) ↔ ∃ x, (g x).qfi.run = 0 := by
      rw [Bool.exists_bool, hg]
      rfl
    rw [hany, mem_fst_melded]
    apply exists_congr
    intro x
    constructor
    · intro h0
      cases hitems : mergeItems inputs D x with
      | nil => have := hfar x hitems; omega
      | cons e t =>
        have hleft : Left (inputs x) (D x) (g x).qfi (e :: t) := hitems ▸ (hheads x).left
        exact ⟨e, List.mem_cons_self, by rw [← hleft.run_eq, h0]⟩
    · rintro ⟨e, he, h0⟩
      cases hitems : mergeItems inputs D x with
      | nil => rw [hitems] at he; exact absurd he List.not_mem_nil
      | cons f t =>
        have hleft : Left (inputs x) (D x) (g x).qfi (f :: t) := hitems ▸ (hheads x).left
        have hsorted := (D x).itemsFrom_sorted (inputs x).metadata.nslots 0
        have hcons : (D x).itemsFrom (inputs x).metadata.nslots 0 = f :: t := hitems
        rw [hcons] at hsorted
        rw [hitems] at he
        rw [hleft.run_eq]
        rcases List.mem_cons.mp he with rfl | he
        · exact h0
        · have := List.rel_of_pairwise_cons hsorted he
          omega
  have hview : (if a.qfi.run = 0 ∨ b.qfi.run = 0 then orOccupied qfc 0 else qfc).view.cell =
      qfc.view.cell := by
    split
    · rw [view_orOccupied]
      rfl
    · rfl
  have hframe :
      qfc.SameFrame (if a.qfi.run = 0 ∨ b.qfi.run = 0 then orOccupied qfc 0 else qfc) := by
    split
    · exact ⟨rfl, rfl, rfl⟩
    · exact .refl qfc
  have hwritten := (hs.zeroed.building 0).written.congr hframe.metadata hview
  refine .some ⟨⟨⟨⟨hframe, hwritten, hwritten, rfl, fun c => ?_, fun l1 e l2 h => ?_⟩,
    ⟨fun x => List.suffix_refl _, fun x e _ => Nat.zero_le _, rfl, rfl, Nat.two_pow_pos 8,
        fun x _ => .rfl⟩⟩,
    ?_⟩, fun x hx => ?_, rfl⟩
  · show (if a.qfi.run = 0 ∨ b.qfi.run = 0 then orOccupied qfc 0 else qfc).view.occupied c = _
    have hfree : qfc.view.occupied c = false := hs.zeroed.wf.occupied c
    by_cases hc : c = 0
    · subst hc
      simp only [le_refl, true_and]
      by_cases h0 : a.qfi.run = 0 ∨ b.qfi.run = 0
      · rw [if_pos h0, decide_eq_true (hzero.mp h0), view_orOccupied]
        exact Function.update_self 0 true qfc.view.occupied
      · rw [if_neg h0, decide_eq_false (fun h => h0 (hzero.mpr h))]
        exact hfree
    · have hnot : ¬ (c ≤ 0 ∧ ∃ e ∈ melded qfc.bits (mergeItems inputs D), e.1 = c) :=
        fun h => hc (Nat.le_zero.mp h.1)
      rw [decide_eq_false hnot]
      split
      · rw [view_orOccupied]
        exact (Function.update_of_ne hc true qfc.view.occupied).trans hfree
      · exact hfree
  · simp at h
  · rw [← hg]
    exact hheads
  · show 0 < (((fun x => bif x then b else a : Bool → MergeHead) x).qfi.run) ∧ _
    rw [← hg]
    have hlt := hfar x hx
    refine ⟨hpos.trans_le hlt, fun e he => ?_⟩
    obtain ⟨-, hmem⟩ := Contents.mem_itemsFrom he
    have hin : e.1 < qfc.metadata.nslots := by
      by_contra hc
      rw [hs.outside (!x) e.1 (by omega)] at hmem
      exact absurd hmem List.not_mem_nil
    exact hin.trans_le hlt

/-! The result. -/

theorem Progress.laid (h : Progress inputs D qfc s done fun _ => [])
    (hs : MergeSetting inputs D qfc) :
    Laid s.closeRun.qfc (gather (melded qfc.bits (mergeItems inputs D))) := by
  have hdone : done = melded qfc.bits (mergeItems inputs D) := by
    rw [← h.pending.split, melded, meld_nil_left, List.map_nil, List.append_nil]
  have hframe : qfc.SameFrame s.closeRun.qfc := h.writing.frame.trans s.closeRun_frame
  have hout : ∀ b, qfc.metadata.nslots ≤ b →
      gather (melded qfc.bits (mergeItems inputs D)) b = [] := by
    intro b hb
    have hle := hs.lens_melded_le b
    have hzero : Contents.lens (fun b => D false b ++ D true b) b = 0 := by
      simp only [Contents.lens, hs.outside false b hb, hs.outside true b hb, List.append_nil,
        itemsLen_nil]
    by_contra hne
    have := Contents.lens_pos.mpr hne
    omega
  have hclosed := h.writing.closed
  rw [hdone] at hclosed
  have hself : Function.update (gather (melded qfc.bits (mergeItems inputs D))).runs s.currentRun
      (runCells (gather (melded qfc.bits (mergeItems inputs D)) s.currentRun)) =
      (gather (melded qfc.bits (mergeItems inputs D))).runs := Function.update_eq_self _ _
  refine ⟨hclosed.geometry, ?_, fun b => ?_, ?_, ?_⟩
  · rw [← hself]
    exact hclosed.holds
  · rw [s.closeRun_occupied, h.writing.occupied]
    apply decide_eq_decide.mpr
    rw [gather_ne_nil]
    refine and_iff_right_of_imp fun hb => ?_
    by_contra hlt
    exact gather_ne_nil.mpr hb (hclosed.last b (by omega))
  · rw [hframe.metadata]
    exact hout
  · rw [hframe.metadata, (QF.Keeps.of_sameFrame hframe).xnslots]
    exact (ends_le_of_le hs.lens_melded_le _).trans hs.room

/-- `qf_merge_ret` comes back exactly under the conditions of `MergeEnds`, with the melded items and
the pairs that have met. -/
theorem qfMergeRet_delivers {qfa qfb : QF} (hs : MergeSetting (mergeInputs qfa qfb) D qfc)
    (hm : Mergeable qfa qfb qfc) (hne : ∃ x, mergeItems (mergeInputs qfa qfb) D x ≠ [])
    (qfi : QFi) :
    Delivers (MergeEnds (mergeInputs qfa qfb) D qfc) (qfMergeRet qfa qfb qfc qfi true) fun r =>
      MergeEnds (mergeInputs qfa qfb) D qfc ∧
        Laid r.1 (gather (melded qfc.bits (mergeItems (mergeInputs qfa qfb) D))) ∧
        r.2 = (paired qfc.bits (mergeItems (mergeInputs qfa qfb) D)).map
          fun p => reported qfc p.1 := by
  unfold qfMergeRet
  rw [if_pos hm]
  refine (mergeStart_delivers hs qfi).bind ?_
  rintro s ⟨h, hbehind, h0⟩
  have hstop : MergeEnds (mergeInputs qfa qfb) D qfc →
      Merging.Leaves (mergeInputs qfa qfb) D s (mergeItems (mergeInputs qfa qfb) D) := by
    intro hok x hx hlast
    rw [h0]
    exact hok.first x hlast hx
  have hfuel : Merging.measure s (mergeItems (mergeInputs qfa qfb) D) < 2*qfc.xnslots + 3 := by
    have hall := hs.length_items_le
    unfold Merging.measure
    split <;> omega
  refine (h.mergeLoop hs hbehind hne hstop hfuel).bind ?_
  rintro s1 ⟨⟨done, l, x, h1, hx⟩, hleave⟩
  have hdrains := h1.drains hs hx
  simp only [Option.bind_eq_bind] at hdrains ⊢
  rw [← Option.bind_assoc]
  refine hdrains.bind ?_
  rintro s2 ⟨⟨done', h2⟩, hnear⟩
  have hdone : done' = melded qfc.bits (mergeItems (mergeInputs qfa qfb) D) := by
    rw [← h2.pending.split, melded, meld_nil_left, List.map_nil, List.append_nil]
  have hcoll := h2.pending.reports
  rw [paired, met, List.map_nil, List.append_nil] at hcoll
  refine .some ⟨⟨hnear, fun x hlast hgo => ?_, fun x hlast hnil => ?_, fun l1 e l2 hl => ?_, ?_⟩,
    h2.laid hs, hcoll⟩
  · exact goesOn_nil_left _ _ ((h2.pending.goesOn x hlast).mpr hgo)
  · rw [← h0]
    exact hleave x hnil hlast
  · exact h2.writing.placed l1 e l2 (hdone.trans hl)
  · have hlen := congrArg List.length hcoll
    rw [List.length_map] at hlen
    rw [← hlen]
    exact h2.pending.few

end

end AdaptiveQF
