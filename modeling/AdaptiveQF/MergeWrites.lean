import AdaptiveQF.Lib.Outcome
import AdaptiveQF.MergeHeads

/-! What a merge has written, as long as no item is too long for the offsets. -/
namespace AdaptiveQF
open RunLayout Outcome

/-! Contents from a list of items with their buckets. -/

def gather (l : List (Nat × Item)) : Contents := fun b => (l.filter fun e => e.1 = b).map Prod.snd

section
variable {l : List (Nat × Item)} {b n p : Nat} {it : Item}

theorem gather_concat (l : List (Nat × Item)) (b : Nat) (it : Item) :
    gather (l ++ [(b, it)]) = Function.update (gather l) b (gather l b ++ [it]) := by
  funext c
  by_cases hc : c = b
  · subst hc
    simp [gather]
  · rw [Function.update_of_ne hc]
    simp [gather, Ne.symm hc]

theorem mem_gather : it ∈ gather l b ↔ (b, it) ∈ l := by
  simp [gather]

theorem gather_ne_nil : gather l b ≠ [] ↔ ∃ e ∈ l, e.1 = b := by
  constructor
  · intro h
    obtain ⟨it, hit⟩ := List.exists_mem_of_ne_nil _ h
    exact ⟨_, mem_gather.mp hit, rfl⟩
  · rintro ⟨e, he, rfl⟩ hnil
    have hmem : e.2 ∈ gather l e.1 := mem_gather.mpr he
    rw [hnil] at hmem
    exact absurd hmem List.not_mem_nil

theorem sum_gather (g : Item → Nat) (l : List (Nat × Item)) (b : Nat) :
    ((gather l b).map g).sum = (l.map fun e => if e.1 = b then g e.2 else 0).sum := by
  induction l with
  | nil => rfl
  | cons e l ih =>
    rw [List.map_cons, List.sum_cons, ← ih]
    by_cases hb : e.1 = b
    · simp [gather, hb]
    · simp [gather, hb]

theorem lens_gather (l : List (Nat × Item)) (b : Nat) :
    (gather l).lens b = (l.map fun e => if e.1 = b then e.2.len else 0).sum := sum_gather ..

theorem lens_gather_append_le (l l2 : List (Nat × Item)) (b : Nat) :
    (gather l).lens b ≤ (gather (l ++ l2)).lens b := by
  rw [lens_gather, lens_gather, List.map_append, List.sum_append]
  exact Nat.le_add_right _ _

end

/-! The offsets. -/

def Contents.OffsetsCount (A : Contents) (e : Nat × Item) : Prop :=
  (A.pos e.1 (A e.1) + e.2.len - 1) / 64 = e.1 / 64 ∨ toInt (A.pos e.1 (A e.1)) < 0 ∨
    A.pos e.1 (A e.1) + e.2.len ≤ intMax

section
variable {qf qf' : QF} {index current run : Nat}

theorem bumpOtherBlocks_view (j n i : Nat) (qf : QF) : qf.SameFrame (bumpOtherBlocks j n i qf) ∧
    (bumpOtherBlocks j n i qf).view.cell = qf.view.cell ∧
    (bumpOtherBlocks j n i qf).view.occupied = qf.view.occupied := by
  induction n generalizing i qf with
  | zero => exact ⟨.refl qf, rfl, rfl⟩
  | succ n ih =>
    obtain ⟨hf, hc, ho⟩ := ih (i+1) (if i / 64 ≠ j then bumpOffset qf (i / 64) else qf)
    rw [bumpOtherBlocks]
    split at hf
    · next hj =>
      rw [if_pos hj] at hc ho ⊢
      have hv : (bumpOffset qf (i / 64)).view =
          qf.view.setOffset (i / 64) ((blockOffsetField qf (i / 64) + 1) % 256) := view_setOffset ..
      have hf1 : qf.SameFrame (bumpOffset qf (i / 64)) := ⟨rfl, rfl, rfl⟩
      exact ⟨hf1.trans hf, hc.trans (by rw [hv]; rfl), ho.trans (by rw [hv]; rfl)⟩
    · next hj =>
      rw [if_neg hj] at hc ho ⊢
      exact ⟨hf, hc, ho⟩

theorem mergeOffsets_view (h : mergeOffsets index current run qf = some qf') :
    qf.SameFrame qf' ∧ qf'.view.cell = qf.view.cell ∧ qf'.view.occupied = qf.view.occupied := by
  unfold mergeOffsets at h
  split at h
  · rw [← Option.some.inj h]
    exact ⟨.refl qf, rfl, rfl⟩
  · split at h
    · exact absurd h (Option.some_ne_none _).symm
    · rw [← Option.some.inj h]
      exact bumpOtherBlocks_view ..

theorem mergeOffsets_isSome : (mergeOffsets index current run qf).isSome ↔
    (current - 1) / 64 = run / 64 ∨ toInt index < 0 ∨ current ≤ intMax := by
  unfold mergeOffsets
  split
  · next h => simp only [Option.isSome_some, true_iff]; tauto
  · next h =>
    split
    · next h2 =>
      simp only [Option.isSome_none, Bool.false_eq_true, false_iff]
      rintro (h3 | h3 | h3)
      · exact h (.inl h3)
      · exact h (.inr h3)
      · omega
    · next h2 =>
      simp only [Option.isSome_some, true_iff]
      exact .inr (.inr (by omega))

end

/-! A run is closed when its last item is marked. -/

theorem Written.close {qf : QF} {A : Contents} {b : Nat} {l : List Item} {it : Item}
    (h : Written qf A b (initCells (l ++ [it]))) (hb : A b = l ++ [it]) :
    Written (orRunend qf (A.pos b l)) A b (runCells (l ++ [it])) := by
  have hview := view_orRunend qf (A.pos b l)
  have hcells : Function.update A.runs b (initCells (l ++ [it])) b =
      initCells l ++ it.baseCell false :: it.tail := by
    rw [Function.update_self, initCells_concat]
    rfl
  have hmod := h.holds.modify hcells (it.baseCell true)
  have hat := h.holds.at hcells
  rw [h.lens, length_initCells] at hmod hat
  rw [Function.update_idem] at hmod
  have hcell : (orRunend qf (A.pos b l)).view.cell =
      Function.update qf.view.cell (start A.lens b + itemsLen l) (it.baseCell true) := by
    rw [hview]
    unfold View.setRunend Contents.pos
    rw [hat]
    rfl
  refine ⟨h.geometry, ?_, ?_, h.last⟩
  · rw [hcell, runCells_concat]
    exact hmod
  · rw [length_runCells, Contents.lens, hb]

namespace MergeState

variable {s : MergeState} {done : List (Nat × Item)} {qfc : QF} {T : List (Nat × Item)} {r : Nat}

theorem closeRun_frame (s : MergeState) : s.qfc.SameFrame s.closeRun.qfc := by
  unfold closeRun
  cases s.lastIndex <;> exact ⟨rfl, rfl, rfl⟩

theorem closeRun_occupied (s : MergeState) :
    s.closeRun.qfc.view.occupied = s.qfc.view.occupied := by
  unfold closeRun
  cases s.lastIndex with
  | none => rfl
  | some i =>
    rw [view_orRunend]
    rfl

def markLast (lastIndex : Option Nat) (c : Nat → Cell) : Nat → Cell :=
  match lastIndex with
  | some i => Function.update c i { c i with runend := true }
  | none => c

theorem closeRun_cell (s : MergeState) :
    s.closeRun.qfc.view.cell = markLast s.lastIndex s.qfc.view.cell := by
  unfold closeRun markLast
  cases s.lastIndex with
  | none => rfl
  | some i =>
    rw [view_orRunend]
    rfl

theorem markLast_idem (lastIndex : Option Nat) (c : Nat → Cell) :
    markLast lastIndex (markLast lastIndex c) = markLast lastIndex c := by
  cases lastIndex with
  | none => rfl
  | some i => simp [markLast]

structure Writing (qfc : QF) (T : List (Nat × Item)) (s : MergeState) (done : List (Nat × Item)) :
    Prop where
  frame : qfc.SameFrame s.qfc
  opened : Written s.qfc (gather done) s.currentRun (initCells (gather done s.currentRun))
  closed : Written s.closeRun.qfc (gather done) s.currentRun (runCells (gather done s.currentRun))
  index : s.currentIndex = (gather done).pos s.currentRun (gather done s.currentRun)
  occupied : ∀ c, s.qfc.view.occupied c = decide (c ≤ s.currentRun ∧ ∃ e ∈ T, e.1 = c)
  placed : ∀ l1 e l2, done = l1 ++ e :: l2 → (gather l1).OffsetsCount e

namespace Writing

theorem congr {s' : MergeState} (h : Writing qfc T s done) (hq : s'.qfc = s.qfc)
    (hr : s'.currentRun = s.currentRun) (hi : s'.currentIndex = s.currentIndex)
    (hl : s'.lastIndex = s.lastIndex) : Writing qfc T s' done := by
  cases s
  cases s'
  simp only at hq hr hi hl
  subst hq hr hi hl
  exact ⟨h.frame, h.opened, h.closed, h.index, h.occupied, h.placed⟩

theorem openRun (h : Writing qfc T s done) (hr : s.currentRun < r) (hmem : ∃ e ∈ T, e.1 = r)
    (hgap : ∀ e ∈ T, s.currentRun < e.1 → r ≤ e.1) : Writing qfc T (s.openRun r) done := by
  have hview : (s.enterRun r).qfc.view = s.qfc.view.setOccupied r true := view_orOccupied ..
  have hcell : (s.openRun r).qfc.view.cell = s.closeRun.qfc.view.cell := by
    rw [MergeState.openRun, closeRun_cell, closeRun_cell, hview]
    rfl
  have hframe : s.qfc.SameFrame (s.openRun r).qfc :=
    QF.SameFrame.trans (b := (s.enterRun r).qfc) ⟨rfl, rfl, rfl⟩ (closeRun_frame _)
  have hempty := h.opened.last r hr
  have hopened : Written (s.openRun r).qfc (gather done) r (initCells (gather done r)) := by
    rw [hempty]
    refine (h.closed.next rfl hr).congr ?_ hcell
    rw [hframe.metadata, (closeRun_frame s).metadata]
  refine ⟨h.frame.trans hframe, hopened, ?_, ?_, fun c => ?_, h.placed⟩
  · have hclosed : Written (s.openRun r).closeRun.qfc (gather done) r
        (initCells (gather done r)) := by
      refine hopened.congr (closeRun_frame _).metadata ?_
      rw [closeRun_cell, hcell, closeRun_cell]
      exact markLast_idem ..
    show Written _ _ r (runCells (gather done r))
    rw [hempty] at hclosed ⊢
    exact hclosed
  · have hnext := h.opened.pos_next hr
    show (if s.currentIndex < r then r else s.currentIndex) = (gather done).pos r (gather done r)
    rw [hnext, h.index]
    split <;> omega
  · have hocc : (s.openRun r).qfc.view.occupied = Function.update s.qfc.view.occupied r true := by
      rw [MergeState.openRun, closeRun_occupied, hview]
      rfl
    rw [hocc]
    by_cases hc : c = r
    · rw [hc, Function.update_self]
      exact (decide_eq_true ⟨le_refl r, hmem⟩).symm
    · rw [Function.update_of_ne hc, h.occupied]
      apply decide_eq_decide.mpr
      constructor
      · exact fun h1 => ⟨h1.1.trans hr.le, h1.2⟩
      · rintro ⟨h1, e, he, rfl⟩
        refine ⟨?_, e, he, rfl⟩
        by_contra hlt
        have h1r : e.1 ≤ r := h1
        have := hgap e he (by omega)
        omega

theorem insert (h : Writing qfc T s done) {ok : Prop} {rem ext extLen count : Nat} {it : Item}
    (hcount : count < 2^64) (hit : it = builtItem qfc.bits rem ext extLen count)
    (hfit : (gather done).pos s.currentRun (gather done s.currentRun ++ [it]) ≤ qfc.xnslots)
    (hok : ok → (gather done).OffsetsCount (s.currentRun, it)) :
    Delivers ok (s.insert s.currentRun ⟨rem, ext, extLen, count⟩) fun s' =>
      Writing qfc T s' (done ++ [(s.currentRun, it)]) ∧ s'.heads = s.heads ∧
        s'.currentRun = s.currentRun ∧ s'.collisions = s.collisions := by
  have hkeep := QF.Keeps.of_sameFrame h.frame
  have hit' : it = builtItem s.qfc.bits rem ext extLen count := by
    rw [hkeep.bits]
    exact hit
  obtain ⟨q1, hput, hf1, ho1, -, hw1⟩ := h.opened.put
    (Readied.refl (h.opened.blank (Nat.le_refl _))) hcount hit' (by rw [hkeep.xnslots]; exact hfit)
  rw [← initCells_concat] at hw1
  rw [← h.index] at hput
  have hpos : (gather done).pos s.currentRun (gather done s.currentRun ++ [it]) =
      s.currentIndex + it.len := by
    rw [h.index]
    exact Contents.pos_append ..
  have hcall : s.insert s.currentRun ⟨rem, ext, extLen, count⟩ =
      (mergeOffsets s.currentIndex (s.currentIndex + it.len) s.currentRun q1).map fun q2 =>
        { s with
          qfc := q2, currentIndex := s.currentIndex + it.len,
          lastIndex := some s.currentIndex } := by
    rw [MergeState.insert, hput, hpos]
    cases mergeOffsets s.currentIndex (s.currentIndex + it.len) s.currentRun q1 <;> rfl
  have hrange := @mergeOffsets_isSome q1 s.currentIndex (s.currentIndex + it.len) s.currentRun
  rw [hcall]
  constructor
  · intro s' hs'
    obtain ⟨q2, hq2, rfl⟩ := Option.map_eq_some_iff.mp hs'
    obtain ⟨hf2, hc2, ho2⟩ := mergeOffsets_view hq2
    have hself : Function.update (gather done) s.currentRun (gather done s.currentRun ++ [it])
        s.currentRun = gather done s.currentRun ++ [it] := Function.update_self ..
    have hw2 := hw1.congr hf2.metadata hc2
    refine ⟨⟨?_, ?_, ?_, ?_, fun c => ?_, fun l1 e l2 hl => ?_⟩, rfl, rfl, rfl⟩
    · exact (h.frame.trans hf1).trans hf2
    · rw [gather_concat, hself]
      exact hw2
    · have hclose := hw2.close hself
      rw [Contents.pos_update, ← h.index] at hclose
      rw [gather_concat, hself]
      exact hclose
    · rw [gather_concat, hself, Contents.pos_update, hpos]
    · show q2.view.occupied c = _
      rw [ho2, ho1]
      exact h.occupied c
    · rcases List.eq_nil_or_concat l2 with rfl | ⟨l3, f, rfl⟩
      · obtain ⟨rfl, he⟩ := List.append_inj' hl rfl
        rw [← (List.cons.inj he).1]
        unfold Contents.OffsetsCount
        rw [← h.index]
        exact hrange.mp (by rw [hq2]; rfl)
      · rw [List.concat_eq_append, ← List.cons_append, ← List.append_assoc] at hl
        exact h.placed l1 e l3 (List.append_inj' hl rfl).1
  · intro hyes
    have hsome := hrange.mpr (by
      have := hok hyes
      unfold Contents.OffsetsCount at this
      rw [← h.index] at this
      exact this)
    obtain ⟨q2, hq2⟩ := Option.isSome_iff_exists.mp hsome
    exact ⟨_, by rw [hq2]; rfl⟩

end Writing

end MergeState

end AdaptiveQF
