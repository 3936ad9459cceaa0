import AdaptiveQF.MergeItems

/-! The loops of `qf_merge_ret`: every turn writes what the heads become, or opens a run. -/
namespace AdaptiveQF
open RunLayout Meld Outcome

structure Head (qf : QF) (A : Contents) (h : MergeHead) (l : List (Nat × Item)) : Prop where
  left : Left qf A h.qfi l
  read : ∃ ret, qfiGetHash qf h.qfi = some (ret, h.item)
  near : l = [] → A.extent qf.metadata.nslots < 2^31

theorem Head.item_eq {qf : QF} {A : Contents} {h : MergeHead} {e : Nat × Item}
    {t : List (Nat × Item)} (hh : Head qf A h (e :: t)) (hl : Layout qf A) :
    h.item = e.2.entry qf.bits ∧ (t = [] → A.extent qf.metadata.nslots < 2^31) := by
  obtain ⟨stop, -, hlast, hget⟩ := hh.left.qfiGetHash_eq hl
  obtain ⟨ret, hread⟩ := hh.read
  rw [hread] at hget
  by_cases hs : stop < 2^31
  · rw [if_pos hs] at hget
    exact ⟨(Prod.mk.inj (Option.some.inj hget)).2, fun ht => hlast ht ▸ hs⟩
  · rw [if_neg hs] at hget
    exact absurd hget (Option.some_ne_none _)

structure MergeEnds (inputs : Bool → QF) (D : Bool → Contents) (qfc : QF) : Prop where
  near : ∀ x, (D x).extent (inputs x).metadata.nslots < 2^31
  goesOn : ∀ x, EndsLast inputs D x →
    ¬ GoesOn qfc.bits (mergeItems inputs D x) (mergeItems inputs D !x)
  first : ∀ x, EndsLast inputs D x → mergeItems inputs D (!x) = [] →
    ∃ e ∈ mergeItems inputs D x, e.1 ≠ 0
  offsets : ∀ l1 e l2, melded qfc.bits (mergeItems inputs D) = l1 ++ e :: l2 →
    (gather l1).OffsetsCount e
  few : (paired qfc.bits (mergeItems inputs D)).length < collSize

structure Pending (inputs : Bool → QF) (D : Bool → Contents) (qfc : QF) (run : Nat)
    (collisions : List (Nat × Nat)) (done : List (Nat × Item)) (l : Bool → List (Nat × Item)) :
    Prop where
  suffix : ∀ x, l x <:+ mergeItems inputs D x
  ahead : ∀ x, ∀ e ∈ l x, run ≤ e.1
  split : done ++ melded qfc.bits l = melded qfc.bits (mergeItems inputs D)
  reports : collisions ++ (paired qfc.bits l).map (fun p => reported qfc p.1) =
    (paired qfc.bits (mergeItems inputs D)).map fun p => reported qfc p.1
  few : collisions.length < collSize
  goesOn : ∀ x, EndsLast inputs D x → (GoesOn qfc.bits (l x) (l !x) ↔
    GoesOn qfc.bits (mergeItems inputs D x) (mergeItems inputs D !x))

section
variable {inputs : Bool → QF} {D : Bool → Contents} {qfc : QF} {run : Nat}
  {collisions : List (Nat × Nat)} {done : List (Nat × Item)} {l : Bool → List (Nat × Item)}
  {x : Bool} {e f : Nat × Item} {t : List (Nat × Item)}

namespace Pending

theorem mem (h : Pending inputs D qfc run collisions done l) (he : e ∈ l x) :
    e ∈ mergeItems inputs D x := (h.suffix x).subset he

theorem sorted (h : Pending inputs D qfc run collisions done l) (x : Bool) :
    (l x).Pairwise fun e f => e.1 ≤ f.1 :=
  (Contents.itemsFrom_sorted ..).sublist (h.suffix x).sublist

/-- The head of one input is written alone. -/
theorem one (h : Pending inputs D qfc run collisions done l) (hx : l x = e :: t)
    (hlt : ∀ f ∈ (l !x).head?, fingerKey qfc.bits e < fingerKey qfc.bits f)
    (hne : t ≠ [] ∨ ¬ EndsLast inputs D x ∨ ∀ f ∈ (l !x).head?, f.1 ≤ e.1) :
    Pending inputs D qfc run collisions (done ++ [mergedOne qfc.bits e])
      (Function.update l x t) := by
  obtain ⟨hmeld, hmet⟩ := melded_one hx hlt
  have hnot : (!x) ≠ x := by cases x <;> decide
  refine ⟨fun y => ?_, fun y => ?_, ?_, ?_, h.few, fun y hy => ?_⟩
  · by_cases hyx : y = x
    · subst hyx
      rw [Function.update_self]
      exact (hx ▸ List.suffix_cons e t).trans (h.suffix y)
    · rw [Function.update_of_ne hyx]
      exact h.suffix y
  · by_cases hyx : y = x
    · subst hyx
      rw [Function.update_self]
      exact fun f hf => h.ahead y f (by rw [hx]; exact .tail _ hf)
    · rw [Function.update_of_ne hyx]
      exact h.ahead y
  · rw [← h.split, hmeld, List.append_assoc]
    rfl
  · rw [← h.reports, hmet]
  · rw [← h.goesOn y hy]
    by_cases hyx : y = x
    · subst hyx
      rw [Function.update_self, Function.update_of_ne hnot, hx]
      refine (goesOn_one hlt ?_).symm
      rcases hne with hne | hne | hne
      · exact .inl hne
      · exact absurd hy hne
      · exact .inr hne
    · obtain rfl : y = !x := by cases x <;> cases y <;> simp at hyx ⊢
      rw [Bool.not_not]
      rw [Function.update_self, Function.update_of_ne hnot, hx]
      exact (goesOn_other hlt).symm

/-- The two heads become one, which is reported. -/
theorem two (h : Pending inputs D qfc run collisions done l) {ta tb : List (Nat × Item)}
    (ha : l false = e :: ta) (hb : l true = f :: tb)
    (hk : fingerKey qfc.bits e = fingerKey qfc.bits f)
    (hlt : (collisions ++ [reported qfc e]).length < collSize) :
    Pending inputs D qfc run (collisions ++ [reported qfc e])
      (done ++ [mergedTwo qfc.bits e f]) (fun x => bif x then tb else ta) := by
  have hmeld : melded qfc.bits l = mergedTwo qfc.bits e f ::
      melded qfc.bits (fun x => bif x then tb else ta) := by
    unfold melded
    rw [ha, hb, meld_cons_of_eq hk]
    rfl
  have hmet : paired qfc.bits l = (e, f) ::
      paired qfc.bits (fun x => bif x then tb else ta) := by
    unfold paired
    rw [ha, hb, met_cons_of_eq hk]
    rfl
  refine ⟨fun y => ?_, fun y => ?_, ?_, ?_, hlt, fun y hy => ?_⟩
  · cases y with
    | false => exact (ha ▸ List.suffix_cons e ta).trans (h.suffix false)
    | true => exact (hb ▸ List.suffix_cons f tb).trans (h.suffix true)
  · cases y with
    | false => exact fun g hg => h.ahead false g (by rw [ha]; exact .tail _ hg)
    | true => exact fun g hg => h.ahead true g (by rw [hb]; exact .tail _ hg)
  · rw [← h.split, hmeld, List.append_assoc]
    rfl
  · rw [← h.reports, hmet, List.append_assoc]
    rfl
  · rw [← h.goesOn y hy]
    cases y with
    | false =>
      rw [Bool.not_false, ha, hb]
      exact (goesOn_both hk).symm
    | true =>
      rw [Bool.not_true, ha, hb]
      exact (goesOn_both hk.symm).symm

theorem openRun (h : Pending inputs D qfc run collisions done l) {r : Nat}
    (hr : ∀ x, ∀ e ∈ l x, r ≤ e.1) : Pending inputs D qfc r collisions done l :=
  ⟨h.suffix, hr, h.split, h.reports, h.few, h.goesOn⟩

end Pending

structure Progress (inputs : Bool → QF) (D : Bool → Contents) (qfc : QF) (s : MergeState)
    (done : List (Nat × Item)) (l : Bool → List (Nat × Item)) : Prop where
  writing : s.Writing qfc (melded qfc.bits (mergeItems inputs D)) done
  pending : Pending inputs D qfc s.currentRun s.collisions done l

structure Merging (inputs : Bool → QF) (D : Bool → Contents) (qfc : QF) (s : MergeState)
    (done : List (Nat × Item)) (l : Bool → List (Nat × Item)) : Prop
    extends Progress inputs D qfc s done l where
  heads : ∀ x, Head (inputs x) (D x) (s.heads x) (l x)

theorem advance_delivers {s : MergeState} {ok : Prop}
    (hh : Head (inputs x) (D x) (s.heads x) (e :: t)) (hl : Layout (inputs x) (D x))
    (hon : RunsOn (inputs x) (D x) 0)
    (hok : ok → (D x).extent (inputs x).metadata.nslots < 2^31) :
    Delivers ok (s.advance inputs x) fun s' =>
      ∃ g, s' = { s with heads := Function.update s.heads x g } ∧ Head (inputs x) (D x) g t ∧
        (t = [] → (g.qfi.run = e.1 ↔ EndsLast inputs D x)) := by
  obtain ⟨ret, qfi', hnext, hleft, -, hrun⟩ := hh.left.next hl hon
  obtain ⟨-, hnear⟩ := hh.item_eq hl
  have hcall : s.advance inputs x = (qfiGetHash (inputs x) qfi').map fun r =>
      { s with heads := Function.update s.heads x ⟨qfi', r.2⟩ } := by
    unfold MergeState.advance
    rw [hnext]
    simp only [Option.bind_eq_bind, Option.bind_some]
    cases qfiGetHash (inputs x) qfi' <;> rfl
  rw [hcall]
  cases t with
  | nil =>
    have hend := hleft.qfiEnd_eq hl
    have hget : qfiGetHash (inputs x) qfi' = some (QFI_INVALID, ⟨0, 0, 0, 0⟩) := by
      unfold qfiGetHash
      rw [hend]
      rfl
    rw [hget]
    exact .some ⟨_, rfl, ⟨hleft, ⟨_, hget⟩, fun _ => hnear rfl⟩, hrun⟩
  | cons f t =>
    obtain ⟨stop, hle, -, hget⟩ := hleft.qfiGetHash_eq hl
    rw [hget]
    by_cases hstop : stop < 2^31
    · rw [if_pos hstop]
      refine .some ⟨_, rfl, ⟨hleft, ⟨0, ?_⟩, fun h => by simp at h⟩, fun h => by simp at h⟩
      rw [hget, if_pos hstop]
    · rw [if_neg hstop]
      exact .none fun hyes => hstop (by have := hok hyes; omega)

variable {s : MergeState}

namespace Progress

theorem write (h : Progress inputs D qfc s done l) (hs : MergeSetting inputs D qfc)
    {rest : List (Nat × Item)} (hm : melded qfc.bits l = e :: rest) (hrun : e.1 = s.currentRun)
    {rem ext extLen count : Nat} (hcount : count < 2^64)
    (hit : e.2 = builtItem qfc.bits rem ext extLen count) :
    Delivers (MergeEnds inputs D qfc) (s.insert s.currentRun ⟨rem, ext, extLen, count⟩) fun s' =>
      s'.Writing qfc (melded qfc.bits (mergeItems inputs D)) (done ++ [e]) ∧ s'.heads = s.heads ∧
        s'.currentRun = s.currentRun ∧ s'.collisions = s.collisions := by
  obtain ⟨b, it⟩ := e
  obtain rfl : b = s.currentRun := hrun
  have hsplit := h.pending.split
  rw [hm] at hsplit
  have hle : ∀ c, (gather (done ++ [(s.currentRun, it)])).lens c ≤
      Contents.lens (fun b => D false b ++ D true b) c := by
    intro c
    refine le_trans ?_ (hs.lens_melded_le c)
    have hpart := lens_gather_append_le (done ++ [(s.currentRun, it)]) rest c
    rw [List.append_assoc] at hpart
    exact hsplit ▸ hpart
  have hout : ∀ c, qfc.metadata.nslots ≤ c → (fun b => D false b ++ D true b) c = [] := by
    intro c hc
    simp only [hs.outside false c hc, hs.outside true c hc, List.append_nil]
  have hend := Contents.end_le hout hs.room hle (b := s.currentRun)
    (gather_ne_nil.mpr ⟨(s.currentRun, it), by simp, rfl⟩)
  rw [gather_concat, Function.update_self, Contents.pos_update] at hend
  exact h.writing.insert hcount hit hend fun hok => hok.offsets done _ rest hsplit.symm

theorem openRun (h : Progress inputs D qfc s done l) {r : Nat} (hr : s.currentRun < r)
    (hmem : ∃ x, ∃ e ∈ l x, e.1 = r) (hle : ∀ x, ∀ e ∈ l x, r ≤ e.1) :
    Progress inputs D qfc (s.openRun r) done l := by
  refine ⟨h.writing.openRun hr ?_ fun e he hlt => ?_, h.pending.openRun hle⟩
  · obtain ⟨x, e, he, her⟩ := hmem
    exact (mem_fst_melded ..).mpr ⟨x, e, h.pending.mem he, her⟩
  · rw [← h.pending.split, List.mem_append] at he
    rcases he with he | he
    · have hnil := h.writing.opened.last e.1 hlt
      have hmem : e.2 ∈ gather done e.1 := mem_gather.mpr he
      rw [hnil] at hmem
      exact absurd hmem List.not_mem_nil
    · obtain ⟨x, f, hf, hfe⟩ := (mem_fst_melded ..).mp ⟨e, he, rfl⟩
      exact hfe ▸ hle x f hf

end Progress

namespace Merging

theorem take (h : Merging inputs D qfc s done l) (hs : MergeSetting inputs D qfc)
    (hx : l x = e :: t) (hrun : e.1 = s.currentRun)
    (hlt : ∀ f ∈ (l !x).head?, fingerKey qfc.bits e < fingerKey qfc.bits f) :
    Delivers (MergeEnds inputs D qfc)
      (s.insert s.currentRun (s.heads x).item >>= fun s => s.advance inputs x) fun s' =>
        s'.Writing qfc (melded qfc.bits (mergeItems inputs D)) (done ++ [mergedOne qfc.bits e]) ∧
        (∀ y, Head (inputs y) (D y) (s'.heads y) (Function.update l x t y)) ∧
        s'.currentRun = s.currentRun ∧ s'.collisions = s.collisions ∧
        s'.heads (!x) = s.heads (!x) ∧ (t = [] → (s'.run x = e.1 ↔ EndsLast inputs D x)) := by
  have hl := (hs.wf x).toLayout
  have hhead : Head (inputs x) (D x) (s.heads x) (e :: t) := hx ▸ h.heads x
  have hmem : e ∈ mergeItems inputs D x := h.pending.mem (by rw [hx]; exact List.mem_cons_self)
  have hw := hs.bits_ge
  obtain ⟨hitem, -⟩ := hhead.item_eq hl
  have hbuilt : (mergedOne qfc.bits e).2 = builtItem qfc.bits e.2.rem (e.2.packedExt qfc.bits)
      e.2.ext.length (e.2.count qfc.bits) :=
    ((hs.stored hmem).builtItem_eq (by have := hs.bits_ge; exact (by omega : 0 < qfc.bits)) _).symm
  rw [hitem, hs.bits x]
  refine (h.write hs (melded_one hx hlt).1 hrun (hs.count_lt hmem) hbuilt).bind ?_
  rintro s1 ⟨hw1, hh1, hr1, hc1⟩
  have hhead1 : Head (inputs x) (D x) (s1.heads x) (e :: t) := by rw [hh1]; exact hhead
  refine (advance_delivers hhead1 hl (hs.runsOn x) fun hok => hok.near x).mono ?_
  rintro s' ⟨g, rfl, hg, hgrun⟩
  have hnot : (!x) ≠ x := by cases x <;> decide
  refine ⟨hw1.congr rfl rfl rfl rfl, fun y => ?_, hr1, hc1, ?_, fun ht => ?_⟩
  · by_cases hyx : y = x
    · subst hyx
      simp only [Function.update_self]
      exact hg
    · simp only [Function.update_of_ne hyx, hh1]
      exact h.heads y
  · simp only [Function.update_of_ne hnot, hh1]
  · simp only [MergeState.run, Function.update_self]
    exact hgrun ht

theorem run_eq (h : Merging inputs D qfc s done l) (hx : l x = e :: t) : s.run x = e.1 :=
  (hx ▸ (h.heads x).left : Left (inputs x) (D x) (s.heads x).qfi (e :: t)).run_eq

theorem ended_eq (h : Merging inputs D qfc s done l) (hs : MergeSetting inputs D qfc) (x : Bool) :
    s.ended inputs x = (l x).isEmpty :=
  (h.heads x).left.qfiEnd_eq (hs.wf x).toLayout

/-- An iterator at the end that has kept the run of its last item never leaves it. -/
theorem drainRun_stuck (hend : s.ended inputs x = true) (hrun : s.run x = s.currentRun)
    (fuel : Nat) : MergeState.drainRun inputs x fuel s = none := by
  induction fuel generalizing s with
  | zero => rfl
  | succ fuel ih =>
    have hend' : qfiEnd (inputs x) (s.heads x).qfi = true := hend
    rw [MergeState.drainRun]
    simp only [MergeState.insert, Option.bind_eq_bind]
    cases mergeInsert s.qfc s.currentIndex (s.run x) (s.heads x).item.rem (s.heads x).item.ext
        (s.heads x).item.extLen (s.heads x).item.count with
    | none => rfl
    | some r =>
      simp only [Option.bind_some, MergeState.advance, qfiNext, qfiGetHash, hend', if_true,
        Option.bind_eq_bind]
      rw [if_pos (by simpa [MergeState.run] using hrun)]
      apply ih
      · simpa [MergeState.ended] using hend
      · simpa [MergeState.run] using hrun

/-- The rest of a run that only one input has. It is not the end of the array. -/
theorem drainRun (h : Merging inputs D qfc s done l) (hs : MergeSetting inputs D qfc)
    (hx : l x = e :: t) (hrun : e.1 = s.currentRun)
    (hother : ∀ f ∈ (l !x).head?, s.currentRun < f.1)
    (hstop : MergeEnds inputs D qfc → EndsLast inputs D x → ∃ f ∈ l x, f.1 ≠ s.currentRun)
    {fuel : Nat} (hfuel : (l x).length ≤ fuel) :
    Delivers (MergeEnds inputs D qfc) (MergeState.drainRun inputs x fuel s) fun s' =>
      (∃ done' l', Merging inputs D qfc s' done' l' ∧ l' (!x) = l (!x) ∧
        (l' x).length < (l x).length) ∧
      (EndsLast inputs D x → ∃ f ∈ l x, f.1 ≠ s.currentRun) := by
  induction fuel generalizing s done l e t with
  | zero =>
    rw [hx, List.length_cons] at hfuel
    omega
  | succ fuel ih =>
    have hnot : (!x) ≠ x := by cases x <;> decide
    have hlt : ∀ f ∈ (l !x).head?, fingerKey qfc.bits e < fingerKey qfc.bits f :=
      fun f hf => key_lt_of_fst_lt (hrun ▸ hother f hf)
    have hcall : MergeState.drainRun inputs x (fuel+1) s =
        (s.insert s.currentRun (s.heads x).item >>= fun s => s.advance inputs x) >>= fun s' =>
          if s'.run x = s'.currentRun then MergeState.drainRun inputs x fuel s' else some s' := by
      rw [MergeState.drainRun, h.run_eq hx, hrun, bind_assoc]
    rw [hcall]
    refine (h.take hs hx hrun hlt).bind ?_
    rintro s1 ⟨hw1, hheads1, hr1, hc1, hother1, hend1⟩
    have hlen : (Function.update l x t x).length < (l x).length := by
      rw [Function.update_self, hx]
      exact Nat.lt_succ_self _
    -- what is left, unless the iterator is stuck
    have hnext : (t ≠ [] ∨ ¬ EndsLast inputs D x) →
        Merging inputs D qfc s1 (done ++ [mergedOne qfc.bits e]) (Function.update l x t) := by
      intro hne
      have hp := h.pending.one hx hlt (hne.imp_right .inl)
      rw [← hr1, ← hc1] at hp
      exact ⟨⟨hw1, hp⟩, hheads1⟩
    cases ht : t with
    | nil =>
      have hrun1 := hend1 ht
      by_cases hlast : EndsLast inputs D x
      · have hno : ¬ ∃ f ∈ l x, f.1 ≠ s.currentRun := by
          rintro ⟨f, hf, hne⟩
          rw [hx, ht, List.mem_singleton] at hf
          exact hne (hf ▸ hrun)
        have hstuck : s1.ended inputs x = true := by
          have hleft := (hheads1 x).left.qfiEnd_eq (hs.wf x).toLayout
          rw [Function.update_self, ht] at hleft
          exact hleft
        rw [if_pos (by rw [hrun1.mpr hlast, hr1, hrun]),
          drainRun_stuck hstuck (by rw [hrun1.mpr hlast, hr1, hrun])]
        exact .none fun hok => hno (hstop hok hlast)
      · have hoff : s1.run x ≠ s1.currentRun := fun hc => hlast (hrun1.mp (by rw [hc, hr1, hrun]))
        rw [if_neg hoff]
        exact .some ⟨⟨_, _, hnext (.inr hlast), Function.update_of_ne hnot .., hlen⟩,
          fun hl => absurd hl hlast⟩
    | cons f t' =>
      have h1 := hnext (.inl (by simp [ht]))
      have hx1 : Function.update l x t x = f :: t' := by rw [Function.update_self, ht]
      have hrun1 := h1.run_eq hx1
      have hmem : ∀ g ∈ f :: t', g ∈ l x := fun g hg => by
        rw [hx, ht]
        exact .tail _ hg
      by_cases hsame : s1.run x = s1.currentRun
      · rw [if_pos hsame]
        refine (ih h1 hx1 (hrun1 ▸ hsame) ?_ (fun hok hl => ?_) (by omega)).mono ?_
        · rw [Function.update_of_ne hnot, hr1]
          exact hother
        · obtain ⟨g, hg, hne⟩ := hstop hok hl
          rw [hx, ht, List.mem_cons] at hg
          rcases hg with rfl | hg
          · exact absurd hrun hne
          · exact ⟨g, hx1 ▸ hg, by rw [hr1]; exact hne⟩
        · rintro s' ⟨⟨done', l', h', hl1, hl2⟩, hleave⟩
          refine ⟨⟨done', l', h', by rw [hl1, Function.update_of_ne hnot], hl2.trans hlen⟩,
            fun hl => ?_⟩
          obtain ⟨g, hg, hne⟩ := hleave hl
          exact ⟨g, hmem g (hx1 ▸ hg), by rw [← hr1]; exact hne⟩
      · rw [if_neg hsame]
        refine .some ⟨⟨_, _, h1, Function.update_of_ne hnot .., hlen⟩, fun _ => ?_⟩
        exact ⟨f, hmem f List.mem_cons_self, by rw [← hr1, ← hrun1]; exact hsame⟩

def Advanced (inputs : Bool → QF) (D : Bool → Contents) (qfc : QF) (l : Bool → List (Nat × Item))
    (s' : MergeState) : Prop :=
  ∃ done' l', Merging inputs D qfc s' done' l' ∧
    (l' false).length + (l' true).length < (l false).length + (l true).length

theorem takeSmaller (h : Merging inputs D qfc s done l) (hs : MergeSetting inputs D qfc)
    (hx : l x = e :: t) (hrun : e.1 = s.currentRun)
    (hlt : ∀ f ∈ (l !x).head?, fingerKey qfc.bits e < fingerKey qfc.bits f)
    (hle : ∀ f ∈ (l !x).head?, f.1 ≤ e.1) :
    Delivers (MergeEnds inputs D qfc)
      (s.insert s.currentRun (s.heads x).item >>= fun s => s.advance inputs x)
      (Advanced inputs D qfc l) := by
  refine (h.take hs hx hrun hlt).mono ?_
  rintro s' ⟨hw, hheads, hr, hc, -, -⟩
  have hp := h.pending.one hx hlt (.inr (.inr hle))
  rw [← hr, ← hc] at hp
  refine ⟨_, _, ⟨⟨hw, hp⟩, hheads⟩, ?_⟩
  cases x with
  | false =>
    rw [hx, Function.update_self, Function.update_of_ne (by decide), List.length_cons]
    omega
  | true =>
    rw [hx, Function.update_self, Function.update_of_ne (by decide), List.length_cons]
    omega

theorem takeBoth (h : Merging inputs D qfc s done l) (hs : MergeSetting inputs D qfc)
    {ta tb : List (Nat × Item)} (ha : l false = e :: ta) (hb : l true = f :: tb)
    (hrun : e.1 = s.currentRun) (hk : fingerKey qfc.bits e = fingerKey qfc.bits f) :
    Delivers (MergeEnds inputs D qfc)
      (s.insert s.currentRun { (s.heads false).item with
          count := add64 (s.heads false).item.count (s.heads true).item.count } >>= fun s =>
        s.collide inputs >>= fun s => s.advance inputs false >>= fun s => s.advance inputs true)
      (Advanced inputs D qfc l) := by
  have hw := hs.bits_ge
  have hmem : e ∈ mergeItems inputs D false :=
    h.pending.mem (by rw [ha]; exact List.mem_cons_self)
  have hheada : Head (inputs false) (D false) (s.heads false) (e :: ta) := ha ▸ h.heads false
  have hheadb : Head (inputs true) (D true) (s.heads true) (f :: tb) := hb ▸ h.heads true
  obtain ⟨hitema, -⟩ := hheada.item_eq (hs.wf false).toLayout
  obtain ⟨hitemb, -⟩ := hheadb.item_eq (hs.wf true).toLayout
  have hbuilt : (mergedTwo qfc.bits e f).2 = builtItem qfc.bits e.2.rem (e.2.packedExt qfc.bits)
      e.2.ext.length (add64 (e.2.count qfc.bits) (f.2.count qfc.bits)) :=
    ((hs.stored hmem).builtItem_eq (by exact (by omega : 0 < qfc.bits)) _).symm
  have hrest : melded qfc.bits l = mergedTwo qfc.bits e f ::
      meld (fingerKey qfc.bits) (mergedOne qfc.bits) (mergedTwo qfc.bits) ta tb := by
    unfold melded
    rw [ha, hb, meld_cons_of_eq hk]
  rw [hitema, hitemb, hs.bits, hs.bits]
  refine (h.write hs hrest hrun (Nat.mod_lt _ (Nat.two_pow_pos 64)) hbuilt).bind ?_
  rintro s1 ⟨hw1, hh1, hr1, hc1⟩
  have hcoll : s1.collide inputs = if (s.collisions ++ [reported qfc e]).length = collSize then none
      else some { s1 with collisions := s.collisions ++ [reported qfc e] } := by
    unfold MergeState.collide reported
    simp only [hh1, hitema, hs.bits, hs.qbits, hr1, ← hrun, hc1]
    rfl
  have hreports := congrArg List.length h.pending.reports
  have hpair : paired qfc.bits l = (e, f) :: met (fingerKey qfc.bits) ta tb := by
    unfold paired
    rw [ha, hb, met_cons_of_eq hk]
  rw [hpair] at hreports
  simp only [List.length_append, List.length_map, List.length_cons] at hreports
  have hfew := h.pending.few
  have hlen : (s.collisions ++ [reported qfc e]).length = s.collisions.length + 1 := by simp
  rw [hcoll]
  by_cases hfull : (s.collisions ++ [reported qfc e]).length = collSize
  · rw [if_pos hfull]
    refine .none fun hok => ?_
    have := hok.few
    omega
  · rw [if_neg hfull, Option.bind_eq_bind, Option.bind_some]
    refine (advance_delivers (by simp only [hh1]; exact hheada) (hs.wf false).toLayout
      (hs.runsOn false) fun hok => hok.near false).bind ?_
    rintro s2 ⟨ga, rfl, hga, -⟩
    refine (advance_delivers (by simp only [hh1]; exact hheadb) (hs.wf true).toLayout
      (hs.runsOn true) fun hok => hok.near true).mono ?_
    rintro s3 ⟨gb, rfl, hgb, -⟩
    refine ⟨_, fun x => bif x then tb else ta, ⟨⟨hw1.congr rfl rfl rfl rfl, ?_⟩, fun y => ?_⟩, ?_⟩
    · have hp := h.pending.two ha hb hk (by omega)
      simp only [hr1]
      exact hp
    · cases y with
      | false => simpa using hga
      | true => simpa using hgb
    · rw [ha, hb, List.length_cons, List.length_cons]
      simp only [cond_false, cond_true]
      omega

theorem mergeHeads (h : Merging inputs D qfc s done l) (hs : MergeSetting inputs D qfc)
    {ta tb : List (Nat × Item)} (ha : l false = e :: ta) (hb : l true = f :: tb)
    (hea : e.1 = s.currentRun) (heb : f.1 = s.currentRun) :
    Delivers (MergeEnds inputs D qfc) (s.mergeHeads inputs true) (Advanced inputs D qfc l) := by
  have hw := hs.bits_ge
  have hw' := hs.bits_le
  have hmema : e ∈ mergeItems inputs D false :=
    h.pending.mem (by rw [ha]; exact List.mem_cons_self)
  have hmemb : f ∈ mergeItems inputs D true :=
    h.pending.mem (by rw [hb]; exact List.mem_cons_self)
  have hheada : Head (inputs false) (D false) (s.heads false) (e :: ta) := ha ▸ h.heads false
  have hheadb : Head (inputs true) (D true) (s.heads true) (f :: tb) := hb ▸ h.heads true
  obtain ⟨hitema, -⟩ := hheada.item_eq (hs.wf false).toLayout
  obtain ⟨hitemb, -⟩ := hheadb.item_eq (hs.wf true).toLayout
  obtain ⟨o, hcmp, ho⟩ := fingerCmp_compares (w := qfc.bits) (by omega) (by omega)
    ((hs.stored hmema).packedExt_lt (by exact (by omega : 0 < qfc.bits)))
    ((hs.stored hmemb).packedExt_lt (by exact (by omega : 0 < qfc.bits))) e.1
  have hkeep := QF.Keeps.of_sameFrame h.writing.frame
  have hcall : fingerCmp s.qfc.bits (s.heads false).item (s.heads true).item = some o := by
    rw [hkeep.bits, hitema, hitemb, hs.bits, hs.bits]
    exact hcmp
  have hsame : e.1 = f.1 := hea.trans heb.symm
  have hko : o.Compares (fingerKey qfc.bits e) (fingerKey qfc.bits f) := by
    rw [hsame] at ho
    have he : ((f.1, e.2) : Nat × Item) = e := Prod.ext hsame.symm rfl
    rw [he] at ho
    exact ho
  unfold MergeState.mergeHeads
  simp only [hcall, Option.bind_eq_bind, Option.bind_some]
  cases o with
  | eq => exact h.takeBoth hs ha hb hea hko
  | lt =>
    refine h.takeSmaller hs ha hea (fun g hg => ?_) fun g hg => ?_
    · rw [Bool.not_false, hb, List.head?_cons, Option.mem_some_iff] at hg
      exact hg ▸ hko
    · rw [Bool.not_false, hb, List.head?_cons, Option.mem_some_iff] at hg
      exact hg ▸ hsame.ge
  | gt =>
    refine h.takeSmaller hs hb heb (fun g hg => ?_) fun g hg => ?_
    · rw [Bool.not_true, ha, List.head?_cons, Option.mem_some_iff] at hg
      exact hg ▸ hko
    · rw [Bool.not_true, ha, List.head?_cons, Option.mem_some_iff] at hg
      exact hg ▸ hsame.le

def measure (s : MergeState) (l : Bool → List (Nat × Item)) : Nat :=
  2*((l false).length + (l true).length) +
    if s.run false = s.currentRun ∨ s.run true = s.currentRun then 0 else 1

def Behind (s : MergeState) (l : Bool → List (Nat × Item)) : Prop :=
  ∀ x, l x = [] → s.currentRun < s.run x ∧ ∀ e ∈ l !x, e.1 < s.run x

/-- An input that ends with the array has another run behind this one if the other has no items. -/
def Leaves (inputs : Bool → QF) (D : Bool → Contents) (s : MergeState)
    (l : Bool → List (Nat × Item)) : Prop :=
  ∀ x, l (!x) = [] → EndsLast inputs D x → ∃ e ∈ l x, e.1 ≠ s.currentRun

/-- The head of an input that has not the current run is in a later one. -/
theorem head_gt (h : Merging inputs D qfc s done l) (hoff : s.run x ≠ s.currentRun) :
    ∀ f ∈ (l x).head?, s.currentRun < f.1 := by
  intro f hf
  obtain ⟨t, ht⟩ := List.head?_eq_some_iff.mp hf
  have hrun := h.run_eq ht
  have hge := h.pending.ahead x f (by rw [ht]; exact List.mem_cons_self)
  omega

theorem length_le (h : Merging inputs D qfc s done l) (hs : MergeSetting inputs D qfc) :
    (l false).length + (l true).length ≤ qfc.xnslots :=
  le_trans (Nat.add_le_add (h.pending.suffix false).length_le (h.pending.suffix true).length_le)
    hs.length_items_le

theorem drainStep (h : Merging inputs D qfc s done l) (hs : MergeSetting inputs D qfc)
    (hbehind : Behind s l) (hstop : MergeEnds inputs D qfc → Leaves inputs D s l)
    (hx : s.run x = s.currentRun) (hoff : s.run (!x) ≠ s.currentRun) :
    Delivers (MergeEnds inputs D qfc) (MergeState.drainRun inputs x (s.qfc.xnslots+1) s) fun s' =>
      Advanced inputs D qfc l s' ∧ Leaves inputs D s l := by
  have hne : l x ≠ [] := fun hnil => by
    have := (hbehind x hnil).1
    omega
  obtain ⟨e, t, ht⟩ := List.exists_cons_of_ne_nil hne
  have hrun : e.1 = s.currentRun := by rw [← h.run_eq ht, hx]
  have hother := h.head_gt hoff
  have hlen : (l x).length ≤ s.qfc.xnslots + 1 := by
    have hkeep := QF.Keeps.of_sameFrame h.writing.frame
    have hall := h.length_le hs
    rw [hkeep.xnslots]
    cases x <;> omega
  have hleave : MergeEnds inputs D qfc → EndsLast inputs D x → ∃ f ∈ l x, f.1 ≠ s.currentRun := by
    intro hok hlast
    cases hnext : l !x with
    | nil => exact hstop hok x hnext hlast
    | cons f fs =>
      -- the iterator would not leave the run
      by_contra hno
      push Not at hno
      have hgo : GoesOn qfc.bits (l x) (l !x) := by
        rw [hnext]
        exact goesOn_of_run hne hno (hother f (by rw [hnext]; rfl))
      exact hok.goesOn x hlast ((h.pending.goesOn x hlast).mp hgo)
  refine (h.drainRun hs ht hrun hother hleave hlen).mono ?_
  rintro s' ⟨⟨done', l', h', hsame, hless⟩, hleft⟩
  refine ⟨⟨done', l', h', ?_⟩, fun y hy hlast => ?_⟩
  · cases x with
    | false =>
      rw [Bool.not_false] at hsame
      rw [hsame]
      omega
    | true =>
      rw [Bool.not_true] at hsame
      rw [hsame]
      omega
  · by_cases hyx : y = x
    · exact hyx ▸ hleft (hyx ▸ hlast)
    · have hxy : (!y) = x := by cases x <;> cases y <;> simp at hyx ⊢
      exact absurd (hxy ▸ hy) hne

/-- The next run is that of the head in the smaller bucket. -/
theorem openStep (h : Merging inputs D qfc s done l) (hbehind : Behind s l)
    (hne : ∃ x, l x ≠ []) (ha : s.run false ≠ s.currentRun) (hb : s.run true ≠ s.currentRun) :
    let s' := s.openRun (if s.run false < s.run true then s.run false else s.run true)
    Merging inputs D qfc s' done l ∧ measure s' l < measure s l := by
  have hoff : ∀ x, s.run x ≠ s.currentRun := fun x => by cases x <;> assumption
  -- an input in front of the other one has items
  have hfirst : ∀ x, s.run x ≤ s.run (!x) → ∃ e t, l x = e :: t := by
    intro x hle
    apply List.exists_cons_of_ne_nil
    intro hnil
    obtain ⟨y, hy⟩ := hne
    obtain ⟨f, t, ht⟩ := List.exists_cons_of_ne_nil hy
    by_cases hyx : y = x
    · exact hy (hyx ▸ hnil)
    · obtain rfl : y = !x := by cases x <;> cases y <;> simp at hyx ⊢
      have hlt := (hbehind x hnil).2 f (by rw [ht]; exact List.mem_cons_self)
      have hrun := h.run_eq ht
      omega
  have hopen : ∀ x, s.run x ≤ s.run (!x) → Merging inputs D qfc (s.openRun (s.run x)) done l := by
    intro x hle
    obtain ⟨e, t, ht⟩ := hfirst x hle
    have hrun := h.run_eq ht
    have hgt := h.head_gt (hoff x) e (by rw [ht]; rfl)
    have hall : ∀ y, s.run x ≤ s.run y → ∀ f ∈ l y, s.run x ≤ f.1 := by
      intro y hxy f hf
      cases hly : l y with
      | nil => rw [hly] at hf; exact absurd hf List.not_mem_nil
      | cons g tg =>
        have hsorted := h.pending.sorted y
        rw [hly] at hf hsorted
        have hg := h.run_eq hly
        rcases List.mem_cons.mp hf with rfl | hf
        · omega
        · have := List.rel_of_pairwise_cons hsorted hf
          omega
    refine ⟨h.toProgress.openRun (hrun ▸ hgt)
      ⟨x, e, by rw [ht]; exact List.mem_cons_self, hrun.symm⟩ fun y => ?_, h.heads⟩
    by_cases hyx : y = x
    · exact hall y (by rw [hyx])
    · obtain rfl : y = !x := by cases x <;> cases y <;> simp at hyx ⊢
      exact hall _ hle
  have hmeasure : ∀ x, measure (s.openRun (s.run x)) l < measure s l := by
    intro x
    have h1 : measure s l = 2*((l false).length + (l true).length) + 1 := by
      rw [measure, if_neg (by tauto)]
    have hrun : (s.openRun (s.run x)).run false = (s.openRun (s.run x)).currentRun ∨
        (s.openRun (s.run x)).run true = (s.openRun (s.run x)).currentRun := by
      cases x with
      | false => exact .inl rfl
      | true => exact .inr rfl
    have h2 : measure (s.openRun (s.run x)) l = 2*((l false).length + (l true).length) := by
      rw [measure, if_pos hrun, Nat.add_zero]
    omega
  by_cases hlt : s.run false < s.run true
  · rw [if_pos hlt]
    exact ⟨hopen false hlt.le, hmeasure false⟩
  · rw [if_neg hlt]
    exact ⟨hopen true (not_lt.mp hlt), hmeasure true⟩

theorem mergeStep (h : Merging inputs D qfc s done l) (hs : MergeSetting inputs D qfc)
    (hbehind : Behind s l) (hne : ∃ x, l x ≠ [])
    (hstop : MergeEnds inputs D qfc → Leaves inputs D s l) :
    Delivers (MergeEnds inputs D qfc) (s.mergeStep inputs true) fun s' =>
      (∃ done' l', Merging inputs D qfc s' done' l' ∧ measure s' l' < measure s l) ∧
        Leaves inputs D s l := by
  have hless : ∀ s', Advanced inputs D qfc l s' →
      ∃ done' l', Merging inputs D qfc s' done' l' ∧ measure s' l' < measure s l := by
    rintro s' ⟨done', l', h', hlen⟩
    refine ⟨done', l', h', ?_⟩
    unfold measure
    split <;> split <;> omega
  unfold MergeState.mergeStep
  by_cases ha : s.run false = s.currentRun
  · rw [if_pos ha]
    by_cases hb : s.run true = s.currentRun
    · rw [if_pos hb]
      have hcons : ∀ x, s.run x = s.currentRun → l x ≠ [] := fun x hx hnil => by
        have := (hbehind x hnil).1
        omega
      obtain ⟨e, ta, hta⟩ := List.exists_cons_of_ne_nil (hcons false ha)
      obtain ⟨f, tb, htb⟩ := List.exists_cons_of_ne_nil (hcons true hb)
      refine (h.mergeHeads hs hta htb (by rw [← h.run_eq hta, ha])
        (by rw [← h.run_eq htb, hb])).mono fun s' hs' => ⟨hless s' hs', fun x hx => ?_⟩
      cases x with
      | false => exact absurd hx (hcons true hb)
      | true => exact absurd hx (hcons false ha)
    · rw [if_neg hb]
      exact (h.drainStep hs hbehind hstop ha hb).mono fun s' h' => ⟨hless s' h'.1, h'.2⟩
  · rw [if_neg ha]
    by_cases hb : s.run true = s.currentRun
    · rw [if_pos hb]
      exact (h.drainStep hs hbehind hstop hb ha).mono fun s' h' => ⟨hless s' h'.1, h'.2⟩
    · rw [if_neg hb]
      refine .some ⟨⟨_, _, h.openStep hbehind hne ha hb⟩, fun x hx _ => ?_⟩
      obtain ⟨y, hy⟩ := hne
      have hyx : y = x := by
        by_contra hyx
        obtain rfl : y = !x := by cases x <;> cases y <;> simp at hyx ⊢
        exact hy hx
      obtain ⟨e, t, ht⟩ := List.exists_cons_of_ne_nil hy
      have hoff : s.run y ≠ s.currentRun := by cases y <;> assumption
      exact ⟨e, by rw [← hyx, ht]; exact List.mem_cons_self, by rwa [← h.run_eq ht]⟩

theorem mergeLoop (h : Merging inputs D qfc s done l) (hs : MergeSetting inputs D qfc)
    (hbehind : Behind s l) (hne : ∃ x, l x ≠ [])
    (hstop : MergeEnds inputs D qfc → Leaves inputs D s l) {fuel : Nat}
    (hfuel : measure s l < fuel) :
    Delivers (MergeEnds inputs D qfc) (MergeState.mergeLoop inputs true fuel s) fun s' =>
      (∃ done' l' x, Merging inputs D qfc s' done' l' ∧ l' x = []) ∧ Leaves inputs D s l := by
  induction fuel generalizing s done l with
  | zero => omega
  | succ fuel ih =>
    rw [MergeState.mergeLoop, Option.bind_eq_bind]
    refine (h.mergeStep hs hbehind hne hstop).bind ?_
    rintro s1 ⟨⟨done1, l1, h1, hless⟩, hleave⟩
    rw [h1.ended_eq hs, h1.ended_eq hs]
    by_cases hany : ∃ x, l1 x = []
    · obtain ⟨x, hx⟩ := hany
      have hstopped : ¬ (!(l1 false).isEmpty && !(l1 true).isEmpty) = true := by
        cases x <;> simp [hx]
      rw [if_neg hstopped]
      exact .some ⟨⟨done1, l1, x, h1, hx⟩, hleave⟩
    · push Not at hany
      have hgo : (!(l1 false).isEmpty && !(l1 true).isEmpty) = true := by
        simp [hany false, hany true]
      rw [if_pos hgo]
      exact (ih h1 (fun x hx => absurd hx (hany x)) ⟨false, hany false⟩
        (fun _ x hx => absurd hx (hany _)) (by omega)).mono fun s' h' => ⟨h'.1, hleave⟩

end Merging

end

end AdaptiveQF
