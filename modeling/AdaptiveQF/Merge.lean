import AdaptiveQF.Canonical
import AdaptiveQF.Iterator

/-! qf_merge_ret: the items of two filters are written into an empty one, run by run, and those with
the same fingerprint are put together. -/
namespace AdaptiveQF
open RunLayout

def extCmp (bitsPerItem : Nat) : Nat → Nat → Nat → Option Ordering
  | 0, _, _ => none
  | fuel+1, exta, extb =>
    if exta = extb then some .eq
    else
      let a := exta &&& bitmask bitsPerItem
      let b := extb &&& bitmask bitsPerItem
      if a < b then some .lt
      else if b < a then some .gt
      else extCmp bitsPerItem fuel (shr64 exta bitsPerItem) (shr64 extb bitsPerItem)

def fingerCmp (bitsPerItem : Nat) (a b : QFiItem) : Option Ordering :=
  if a.rem < b.rem then some .lt
  else if b.rem < a.rem then some .gt
  else do
    let c ← extCmp bitsPerItem 65 a.ext b.ext
    some (if c = .eq then compare a.extLen b.extLen else c)

def collSize : Nat := 2^8

structure MergeHead where
  qfi : QFi
  item : QFiItem

/-- The variables of `qf_merge_ret`. `last_index` is absent while it is -1. Collisions come with
their length in bits. -/
structure MergeState where
  qfc : QF
  heads : Bool → MergeHead
  currentRun : Nat
  currentIndex : Nat
  lastIndex : Option Nat
  collisions : List (Nat × Nat)

namespace MergeState

def run (s : MergeState) (x : Bool) : Nat := (s.heads x).qfi.run

def closeRun (s : MergeState) : MergeState :=
  { s with qfc := match s.lastIndex with
      | some i => orRunend s.qfc i
      | none => s.qfc }

def enterRun (s : MergeState) (run : Nat) : MergeState :=
  { s with
    currentRun := run
    currentIndex := if s.currentIndex < run then run else s.currentIndex
    qfc := orOccupied s.qfc run }

/-- A new run begins. Its bucket is marked before the last item of the run in front of it. -/
def openRun (s : MergeState) (run : Nat) : MergeState := (s.enterRun run).closeRun

def insert (s : MergeState) (run : Nat) (it : QFiItem) : Option MergeState := do
  let (qfc, currentIndex) ← mergeInsert s.qfc s.currentIndex run it.rem it.ext it.extLen it.count
  some { s with qfc := qfc, currentIndex := currentIndex, lastIndex := some s.currentIndex }

def advance (s : MergeState) (inputs : Bool → QF) (x : Bool) : Option MergeState := do
  let (_, qfi) ← qfiNext (inputs x) (s.heads x).qfi
  let (_, item) ← qfiGetHash (inputs x) qfi
  some { s with heads := Function.update s.heads x ⟨qfi, item⟩ }

/-- The collision of the two heads. The list that is full is resized to as many bytes as it should
get entries, and the list of the lengths is then put in its place. -/
def collide (s : MergeState) (inputs : Bool → QF) : Option MergeState :=
  let qfa := inputs false
  let it := (s.heads false).item
  let hash := it.rem ||| shl64 s.currentRun qfa.bits ||| shl64 it.ext (qfa.qbits + qfa.bits)
  let collisions := s.collisions ++ [(hash, it.extLen * qfa.bits + qfa.qbits + qfa.bits)]
  if collisions.length = collSize then none else some { s with collisions := collisions }

def mergeHeads (s : MergeState) (inputs : Bool → QF) (collect : Bool) : Option MergeState := do
  let a := (s.heads false).item
  let b := (s.heads true).item
  match ← fingerCmp s.qfc.bits a b with
  | .eq => do
    let s ← s.insert s.currentRun { a with count := add64 a.count b.count }
    let s ← (if collect then s.collide inputs else some s)
    let s ← s.advance inputs false
    s.advance inputs true
  | .lt => do
    let s ← s.insert s.currentRun a
    s.advance inputs false
  | .gt => do
    let s ← s.insert s.currentRun b
    s.advance inputs true

def drainRun (inputs : Bool → QF) (x : Bool) : Nat → MergeState → Option MergeState
  | 0, _ => none
  | fuel+1, s => do
    let s ← s.insert (s.run x) (s.heads x).item
    let s ← s.advance inputs x
    if s.run x = s.currentRun then drainRun inputs x fuel s else some s

def mergeStep (s : MergeState) (inputs : Bool → QF) (collect : Bool) : Option MergeState :=
  if s.run false = s.currentRun then
    if s.run true = s.currentRun then s.mergeHeads inputs collect
    else drainRun inputs false (s.qfc.xnslots+1) s
  else if s.run true = s.currentRun then drainRun inputs true (s.qfc.xnslots+1) s
  else some (s.openRun (if s.run false < s.run true then s.run false else s.run true))

def ended (s : MergeState) (inputs : Bool → QF) (x : Bool) : Bool :=
  qfiEnd (inputs x) (s.heads x).qfi

def mergeLoop (inputs : Bool → QF) (collect : Bool) : Nat → MergeState → Option MergeState
  | 0, _ => none
  | fuel+1, s => do
    let s ← s.mergeStep inputs collect
    if !s.ended inputs false && !s.ended inputs true then mergeLoop inputs collect fuel s
    else some s

def drainLoop (inputs : Bool → QF) (x : Bool) : Nat → MergeState → Option MergeState
  | 0, _ => none
  | fuel+1, s => do
    let s := if s.run x ≠ s.currentRun then s.openRun (s.run x) else s
    let (_, item) ← qfiGetHash (inputs x) (s.heads x).qfi
    let s ← s.insert (s.run x) item
    let (ret, qfi) ← qfiNext (inputs x) (s.heads x).qfi
    let s := { s with heads := Function.update s.heads x ⟨qfi, item⟩ }
    if ret = 0 then drainLoop inputs x fuel s else some s

def drain (s : MergeState) (inputs : Bool → QF) (x : Bool) : Option MergeState :=
  if s.ended inputs x then some s else drainLoop inputs x (s.qfc.xnslots+1) s

end MergeState

def mergeHead (qf : QF) (qfi : QFi) : Option MergeHead := do
  let (_, qfi) ← qfIteratorFromPosition qf qfi 0
  let (_, item) ← qfiGetHash qf qfi
  some ⟨qfi, item⟩

def mergeStart (inputs : Bool → QF) (qfi : QFi) (qfc : QF) : Option MergeState := do
  let a ← mergeHead (inputs false) qfi
  let b ← mergeHead (inputs true) qfi
  some {
    qfc := if a.qfi.run = 0 ∨ b.qfi.run = 0 then orOccupied qfc 0 else qfc
    heads := fun x => bif x then b else a
    currentRun := 0
    currentIndex := 0
    lastIndex := none
    collisions := [] }

def Mergeable (qfa qfb qfc : QF) : Prop :=
  qfc.metadata.noccupiedSlots = 0 ∧
    qfa.metadata.noccupiedSlots + qfb.metadata.noccupiedSlots < qfc.xnslots ∧
    qfa.bits = qfb.bits ∧ qfb.bits = qfc.bits

instance (qfa qfb qfc : QF) : Decidable (Mergeable qfa qfb qfc) :=
  inferInstanceAs (Decidable (_ ∧ _ ∧ _ ∧ _))

def mergeInputs (qfa qfb : QF) (x : Bool) : QF := bif x then qfb else qfa

/-- Every turn of the loops writes a slot of `qfc` or opens a run. `collect` says whether the
pointers for the collisions are given, `qfi` is what the iterators hold before. -/
def qfMergeRet (qfa qfb qfc : QF) (qfi : QFi) (collect : Bool) :
    Option (QF × List (Nat × Nat)) :=
  if Mergeable qfa qfb qfc then do
    let s ← mergeStart (mergeInputs qfa qfb) qfi qfc
    let s ← MergeState.mergeLoop (mergeInputs qfa qfb) collect (2*qfc.xnslots+3) s
    let s ← s.drain (mergeInputs qfa qfb) false
    let s ← s.drain (mergeInputs qfa qfb) true
    some (s.closeRun.qfc, s.collisions)
  else none

def qfMerge (qfa qfb qfc : QF) (qfi : QFi) : Option QF :=
  (qfMergeRet qfa qfb qfc qfi false).map Prod.fst

/-! The merge marks buckets and counts nothing. -/

namespace MergeState

variable {s s' : MergeState} {inputs : Bool → QF} {collect x : Bool}

theorem closeRun_marks (s : MergeState) : s.qfc.Marks s.closeRun.qfc := by
  unfold closeRun
  cases s.lastIndex with
  | none => exact .refl _
  | some i => exact .orRunend _ i

theorem openRun_marks (s : MergeState) (run : Nat) :
    (orOccupied s.qfc run).Marks (s.openRun run).qfc := closeRun_marks (s.enterRun run)

theorem openRun_occupied (s : MergeState) (run : Nat) : isOccupied (s.openRun run).qfc run = true :=
  (s.openRun_marks run).occupied run (isOccupied_orOccupied s.qfc run)

theorem insert_marks {run : Nat} {it : QFiItem} (h : s.insert run it = some s') :
    s.qfc.Marks s'.qfc := by
  simp only [insert, Option.bind_eq_bind, Option.bind_eq_some_iff, Prod.exists,
    Option.some.injEq] at h
  obtain ⟨qfc, n, h1, rfl⟩ := h
  exact mergeInsert_marks h1

theorem advance_qfc (h : s.advance inputs x = some s') : s'.qfc = s.qfc := by
  simp only [advance, Option.bind_eq_bind, Option.bind_eq_some_iff, Prod.exists,
    Option.some.injEq] at h
  obtain ⟨_, qfi, _, _, item, _, rfl⟩ := h
  rfl

theorem collide_qfc (h : s.collide inputs = some s') : s'.qfc = s.qfc := by
  simp only [collide] at h
  split at h
  · exact absurd h (Option.some_ne_none _).symm
  · rw [← Option.some.inj h]

theorem mergeHeads_marks (h : s.mergeHeads inputs collect = some s') : s.qfc.Marks s'.qfc := by
  simp only [mergeHeads, Option.bind_eq_bind, Option.bind_eq_some_iff] at h
  obtain ⟨c, _, h⟩ := h
  cases c with
  | eq =>
    simp only [Option.bind_eq_some_iff] at h
    obtain ⟨s1, h1, s2, h2, s3, h3, h4⟩ := h
    have hcoll : s2.qfc = s1.qfc := by
      split at h2
      · exact collide_qfc h2
      · rw [Option.some.inj h2]
    rw [advance_qfc h4, advance_qfc h3, hcoll]
    exact insert_marks h1
  | lt =>
    simp only [Option.bind_eq_some_iff] at h
    obtain ⟨s1, h1, h2⟩ := h
    rw [advance_qfc h2]
    exact insert_marks h1
  | gt =>
    simp only [Option.bind_eq_some_iff] at h
    obtain ⟨s1, h1, h2⟩ := h
    rw [advance_qfc h2]
    exact insert_marks h1

theorem drainRun_marks {fuel : Nat} (h : drainRun inputs x fuel s = some s') :
    s.qfc.Marks s'.qfc := by
  induction fuel generalizing s with
  | zero => exact absurd h (Option.some_ne_none _).symm
  | succ fuel ih =>
    simp only [drainRun, Option.bind_eq_bind, Option.bind_eq_some_iff] at h
    obtain ⟨s1, h1, s2, h2, h3⟩ := h
    have hstep := insert_marks h1
    rw [← advance_qfc h2] at hstep
    split at h3
    · exact hstep.trans (ih h3)
    · rw [← Option.some.inj h3]
      exact hstep

theorem mergeStep_marks (h : s.mergeStep inputs collect = some s') : s.qfc.Marks s'.qfc := by
  unfold mergeStep at h
  split at h
  · split at h
    · exact mergeHeads_marks h
    · exact drainRun_marks h
  · split at h
    · exact drainRun_marks h
    · rw [← Option.some.inj h]
      exact (QF.Marks.orOccupied s.qfc _).trans (openRun_marks ..)

/-- If no input has a run of its own yet, the first step opens one. -/
theorem mergeStep_occupied (h : s.mergeStep inputs collect = some s')
    (hs : s.run false = s.currentRun ∨ s.run true = s.currentRun → ∃ b, isOccupied s.qfc b = true) :
    ∃ b, isOccupied s'.qfc b = true := by
  by_cases hrun : s.run false = s.currentRun ∨ s.run true = s.currentRun
  · obtain ⟨b, hb⟩ := hs hrun
    exact ⟨b, (mergeStep_marks h).occupied b hb⟩
  · obtain ⟨ha, hb⟩ := not_or.mp hrun
    rw [mergeStep, if_neg ha, if_neg hb] at h
    rw [← Option.some.inj h]
    exact ⟨_, openRun_occupied ..⟩

theorem mergeLoop_marks {fuel : Nat} (h : mergeLoop inputs collect fuel s = some s') :
    s.qfc.Marks s'.qfc := by
  induction fuel generalizing s with
  | zero => exact absurd h (Option.some_ne_none _).symm
  | succ fuel ih =>
    simp only [mergeLoop, Option.bind_eq_bind, Option.bind_eq_some_iff] at h
    obtain ⟨s1, h1, h2⟩ := h
    split at h2
    · exact (mergeStep_marks h1).trans (ih h2)
    · rw [← Option.some.inj h2]
      exact mergeStep_marks h1

theorem mergeLoop_occupied {fuel : Nat} (h : mergeLoop inputs collect fuel s = some s')
    (hs : s.run false = s.currentRun ∨ s.run true = s.currentRun → ∃ b, isOccupied s.qfc b = true) :
    ∃ b, isOccupied s'.qfc b = true := by
  cases fuel with
  | zero => exact absurd h (Option.some_ne_none _).symm
  | succ fuel =>
    simp only [mergeLoop, Option.bind_eq_bind, Option.bind_eq_some_iff] at h
    obtain ⟨s1, h1, h2⟩ := h
    obtain ⟨b, hb⟩ := mergeStep_occupied h1 hs
    split at h2
    · exact ⟨b, (mergeLoop_marks h2).occupied b hb⟩
    · rw [← Option.some.inj h2]
      exact ⟨b, hb⟩

theorem drainLoop_marks {fuel : Nat} (h : drainLoop inputs x fuel s = some s') :
    s.qfc.Marks s'.qfc := by
  induction fuel generalizing s with
  | zero => exact absurd h (Option.some_ne_none _).symm
  | succ fuel ih =>
    obtain ⟨s0, hs0⟩ : ∃ s0, s0 = if s.run x ≠ s.currentRun then s.openRun (s.run x) else s :=
      ⟨_, rfl⟩
    simp only [drainLoop, ← hs0, Option.bind_eq_bind, Option.bind_eq_some_iff, Prod.exists] at h
    obtain ⟨_, item, _, s1, h1, ret, qfi, _, h2⟩ := h
    have hopen : s.qfc.Marks s0.qfc := by
      rw [hs0]
      split
      · exact (QF.Marks.orOccupied s.qfc _).trans (openRun_marks ..)
      · exact .refl _
    have hstep := hopen.trans (insert_marks h1)
    split at h2
    · have hrest := ih h2
      exact hstep.trans hrest
    · rw [← Option.some.inj h2]
      exact hstep

theorem drain_marks (h : s.drain inputs x = some s') : s.qfc.Marks s'.qfc := by
  unfold drain at h
  split at h
  · rw [← Option.some.inj h]
    exact .refl _
  · exact drainLoop_marks h

end MergeState

section
variable {qfa qfb qfc qf' : QF} {qfi : QFi}

theorem qfMerge_marks (h : qfMerge qfa qfb qfc qfi = some qf') :
    qf'.metadata = qfc.metadata ∧ ∃ b, isOccupied qf' b = true := by
  obtain ⟨⟨q, coll⟩, hret, rfl⟩ := Option.map_eq_some_iff.mp h
  unfold qfMergeRet at hret
  split at hret
  case isFalse => exact absurd hret (Option.some_ne_none _).symm
  simp only [Option.bind_eq_bind, Option.bind_eq_some_iff, Option.some.injEq,
    Prod.mk.injEq] at hret
  obtain ⟨s0, h0, s1, h1, s2, h2, s3, h3, rfl, rfl⟩ := hret
  simp only [mergeStart, Option.bind_eq_bind, Option.bind_eq_some_iff, Option.some.injEq] at h0
  obtain ⟨a, _, b, _, rfl⟩ := h0
  have hstart : qfc.Marks (if a.qfi.run = 0 ∨ b.qfi.run = 0 then orOccupied qfc 0 else qfc) := by
    split
    · exact .orOccupied ..
    · exact .refl _
  have hrest := ((MergeState.drain_marks h2).trans (MergeState.drain_marks h3)).trans
    (MergeState.closeRun_marks s3)
  obtain ⟨c, hc⟩ := MergeState.mergeLoop_occupied h1 fun hrun => by
    refine ⟨0, ?_⟩
    have h0 : a.qfi.run = 0 ∨ b.qfi.run = 0 := hrun
    simp only [if_pos h0]
    exact isOccupied_orOccupied qfc 0
  exact ⟨((hstart.trans (MergeState.mergeLoop_marks h1)).trans hrest).metadata, c,
    hrest.occupied c hc⟩

def Answers (qf : QF) (hash : Nat) : Prop :=
  ∃ count hit, qfQuery qf hash QF_KEY_IS_HASH = some (count, some hit)

/-- The merge comes back with a well-formed filter that answers for the hashes of both inputs, and
for no others, and has counted its slots. -/
def MergeKeeps (qfa qfb qfc : QF) (qfi : QFi) : Prop :=
  ∃ qf' C, qfMerge qfa qfb qfc qfi = some qf' ∧ WF qf' C ∧
    (∀ hash < 2^64, Answers qf' hash ↔ Answers qfa hash ∨ Answers qfb hash) ∧
    qf'.metadata.noccupiedSlots = C.usedSlots qf'.metadata.nslots

theorem merge_uncounted (qfa qfb : QF) (qfi : QFi) (hc : qfc.Zeroed) :
    ¬ MergeKeeps qfa qfb qfc qfi := by
  rintro ⟨qf', C, hmerge, hwf, _, hcount⟩
  obtain ⟨hm, b, hb⟩ := qfMerge_marks hmerge
  have hpos := hwf.toLayout.usedSlots_pos hb
  rw [hm, hc.noccupiedSlots] at hcount
  rw [hm] at hpos
  omega

end

/-! One item and an empty filter. -/

def mergeMetadata : QFMetadata := QFMetadata.init 3 2 36

def mergeContents : Contents := Contents.single 1 ⟨2, [], []⟩

def mergeInput : QF := QF.ofContents mergeMetadata mergeContents

def mergeEmpty : QF := QF.zero mergeMetadata

theorem mergeMetadata_geometry : Geometry mergeMetadata :=
  Geometry.init (by decide) (by decide) (by decide) (by decide) (by decide)

theorem mergeEmpty_zeroed : mergeEmpty.Zeroed := QF.zeroed_init mergeMetadata_geometry

theorem merge_uncounted_small : ¬ MergeKeeps mergeInput mergeEmpty mergeEmpty ⟨0, 0⟩ :=
  merge_uncounted mergeInput mergeEmpty ⟨0, 0⟩ mergeEmpty_zeroed

theorem mergeInput_wf : WF mergeInput mergeContents := by
  refine Contents.Fits.wf ?_ mergeMetadata_geometry
  exact Contents.single_fits (by decide) (by decide) ⟨by decide, by decide, by decide⟩
    (show 3 + 2 * 0 < 64 by decide)

/-- The result has the one item, in slot 1, and `noccupied_slots` is 0. -/
theorem merge_uncounted_single : WF mergeInput mergeContents ∧ mergeEmpty.Zeroed ∧
    (∃ qf' ∈ qfMerge mergeInput mergeEmpty mergeEmpty ⟨0, 0⟩,
      qf'.metadata.noccupiedSlots = 0 ∧ isOccupied qf' 1 = true ∧ getSlot qf' 1 = some 2) ∧
    ¬ MergeKeeps mergeInput mergeEmpty mergeEmpty ⟨0, 0⟩ := by
  have hrun : ∃ qf' ∈ qfMerge mergeInput mergeEmpty mergeEmpty ⟨0, 0⟩,
      qf'.metadata.noccupiedSlots = 0 ∧ isOccupied qf' 1 = true ∧ getSlot qf' 1 = some 2 := by
    obtain ⟨qf', hq⟩ : ∃ qf', qfMerge mergeInput mergeEmpty mergeEmpty ⟨0, 0⟩ = some qf' :=
      Option.isSome_iff_exists.mp (by decide +kernel)
    have hall : ∀ qf' ∈ qfMerge mergeInput mergeEmpty mergeEmpty ⟨0, 0⟩,
        qf'.metadata.noccupiedSlots = 0 ∧ isOccupied qf' 1 = true ∧ getSlot qf' 1 = some 2 := by
      decide +kernel
    exact ⟨qf', hq, hall qf' hq⟩
  refine ⟨mergeInput_wf, mergeEmpty_zeroed, hrun, ?_⟩
  rintro ⟨qf', C, hmerge, hwf, _, hcount⟩
  obtain ⟨q, hq, h0, hocc, _⟩ := hrun
  obtain rfl : q = qf' := Option.some.inj (hq.symm.trans hmerge)
  have hpos := hwf.toLayout.usedSlots_pos hocc
  omega

end AdaptiveQF
