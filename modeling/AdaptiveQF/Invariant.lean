import AdaptiveQF.Canonical
import AdaptiveQF.Decode
import AdaptiveQF.Insert
import AdaptiveQF.Lib.Runs

/-! The layout over whole runs of insertions and adaptations without counts. -/
namespace AdaptiveQF
open RunLayout

/-- A call, with what its out-parameters hold before. Counts are 1. -/
inductive Op
  | insertUsingLlTable (key : Nat) (result : InsertResult) (flags : Nat)
  | insertRet (key : Nat) (out : InsertOut) (flags : Nat)
  | insertAndExtend (index key otherKey retHash retOtherHash flags : Nat)
  | adapt (index key otherKey retHash flags : Nat)
  | adaptUsingLlTable (origKey fpKey minirunRank flags : Nat)

def Op.step (resize : QF → Nat → Option (Int × QF)) : Op → QF → Option QF
  | .insertUsingLlTable key result flags, qf =>
    (qfInsertUsingLlTable resize qf key 1 result flags).map Prod.snd
  | .insertRet key out flags, qf => (qfInsertRet resize qf key 1 out flags).map Prod.snd
  | .insertAndExtend index key otherKey retHash retOtherHash flags, qf =>
    (AdaptiveQF.insertAndExtend qf index key 1 otherKey retHash retOtherHash flags).map Prod.snd
  | .adapt index key otherKey retHash flags, qf =>
    (qfAdapt qf index key otherKey retHash flags).map fun r => r.2.2
  | .adaptUsingLlTable origKey fpKey minirunRank flags, qf =>
    (qfAdaptUsingLlTable qf origKey fpKey minirunRank flags).map Prod.snd

structure InMinirun (qf : QF) (A : Contents) (hash : Nat) (l1 : List Item) (it : Item)
    (l2 : List Item) :
    Prop where
  layout : Layout qf A
  split : A (qf.metadata.bucket hash) = l1 ++ it :: l2
  rem : it.rem = qf.metadata.remainder hash

/-- What the caller of a step sees to: no insertion is out of space, two hashes have the same
minirun where the code asserts it, and there is an item at the index or rank. -/
def Op.Legal : Op → QF → Prop
  | .insertUsingLlTable key _ flags, qf => LlFindsSpace qf (keyToHash qf key flags)
  | .insertRet key _ flags, qf => InsertFindsSpace qf (keyToHash qf key flags) flags
  | .insertAndExtend index key otherKey _ _ flags, qf =>
    keyToHash qf key flags ≠ keyToHash qf otherKey flags ∧
      minirunId qf (keyToHash qf key flags) = minirunId qf (keyToHash qf otherKey flags) ∧
      ExtendInserts qf index (keyToHash qf key flags) (keyToHash qf otherKey flags) ∧
      ∃ A l1 it l2, InMinirun qf A (keyToHash qf key flags) l1 it l2 ∧
        index = A.pos (qf.metadata.bucket (keyToHash qf key flags)) l1
  | .adapt index key _ _ flags, qf =>
    ∃ A l1 it l2, InMinirun qf A (keyToHash qf key flags) l1 it l2 ∧
      index = A.pos (qf.metadata.bucket (keyToHash qf key flags)) l1
  | .adaptUsingLlTable origKey fpKey minirunRank flags, qf =>
    minirunId qf (keyToHash qf origKey flags) = minirunId qf (keyToHash qf fpKey flags) ∧
      ∃ A l1 it l2, InMinirun qf A (keyToHash qf fpKey flags) l1 it l2 ∧
        minirunRank = rankOf qf.metadata (keyToHash qf fpKey flags) l1

/-- The decoded items end in front of slot 2^31, and the rank loop of `insert_using_ll_table` is not
misled by an extension slot. -/
def Op.Sound : Op → QF → Prop
  | .insertUsingLlTable key _ flags, qf => ∀ A, Layout qf A →
      RankStops (qf.metadata.remainder (keyToHash qf key flags))
        (A (qf.metadata.bucket (keyToHash qf key flags)))
  | .insertRet key _ flags, qf => hasFlag flags QF_TRY_ONCE_LOCK = false →
      ∀ A, Layout qf A → CodeNear qf A (keyToHash qf key flags)
  | .insertAndExtend index key _ _ _ flags, qf => ∀ A l1 it l2,
      InMinirun qf A (keyToHash qf key flags) l1 it l2 →
        index = A.pos (qf.metadata.bucket (keyToHash qf key flags)) l1 → index + it.len < 2^31
  | .adapt index key _ _ flags, qf => ∀ A l1 it l2,
      InMinirun qf A (keyToHash qf key flags) l1 it l2 →
        index = A.pos (qf.metadata.bucket (keyToHash qf key flags)) l1 → index + it.len < 2^31
  | .adaptUsingLlTable _ fpKey minirunRank flags, qf => ∀ A l1 it l2,
      InMinirun qf A (keyToHash qf fpKey flags) l1 it l2 →
        minirunRank = rankOf qf.metadata (keyToHash qf fpKey flags) l1 →
          A.pos (qf.metadata.bucket (keyToHash qf fpKey flags)) l1 + it.len < 2^31

structure Regular (qf : QF) (A : Contents) : Prop where
  layout : Layout qf A
  idle : qf.Idle
  plain : ∀ b, ∀ it ∈ A b, it.cnt = []

def QF.WellFormed (qf : QF) : Prop := ∃ A, Layout qf A

section
variable {qf : QF} {A : Contents} {b : Nat} {l1 l2 : List Item} {it : Item} {hash : Nat}

theorem QF.Zeroed.regular (h : qf.Zeroed) : Regular qf Contents.empty :=
  ⟨h.wf.toLayout, ⟨h.autoResize, funext h.locks⟩, by simp⟩

theorem Regular.replace (h : Regular qf A) {qf' : QF} {l : List Item} (hk : qf.Keeps qf')
    (hl : Layout qf' (Function.update A b l)) (hp : ∀ x ∈ l, x.cnt = []) :
    Regular qf' (Function.update A b l) := by
  refine ⟨hl, hk.idle h.idle, fun c x hx => ?_⟩
  by_cases hc : c = b
  · subst hc
    rw [Function.update_self] at hx
    exact hp x hx
  · rw [Function.update_of_ne hc] at hx
    exact h.plain c x hx

theorem Regular.plain_left (h : Regular qf A) (hb : A b = l1 ++ l2) : ∀ x ∈ l1, x.cnt = [] :=
  fun x hx => h.plain b x (by simp [hb, hx])

theorem Regular.plain_right (h : Regular qf A) (hb : A b = l1 ++ l2) : ∀ x ∈ l2, x.cnt = [] :=
  fun x hx => h.plain b x (by simp [hb, hx])

theorem Item.extend_plain (it : Item) (hc : it.cnt = []) (l : List Nat) :
    (it.extend l).cnt = [] := by
  by_cases hl : l = []
  · subst hl
    exact hc
  · rw [Item.extend_of_ne_nil _ hl]

theorem Regular.inserted (h : Regular qf A) {qf' : QF} {p : Placement} (hk : qf.Keeps qf')
    (hi : Inserted qf A hash l1 l2 p qf') : ∃ A', Regular qf' A' := by
  have hsplit := hi.places.placed.split
  refine ⟨_, h.replace hk hi.layout fun x hx => ?_⟩
  rcases List.mem_append.mp hx with hx | hx
  · exact h.plain_left hsplit x hx
  · rcases List.mem_cons.mp hx with rfl | hx
    · rfl
    · exact h.plain_right hsplit x hx

/-! The steps. -/

variable (resize : QF → Nat → Option (Int × QF))

theorem Regular.insertUsingLlTable (h : Regular qf A) (key : Nat) (result : InsertResult)
    (flags : Nat) (hs : LlFindsSpace qf (keyToHash qf key flags))
    (hr : RankStops (qf.metadata.remainder (keyToHash qf key flags))
      (A (qf.metadata.bucket (keyToHash qf key flags)))) :
    ∃ qf', Op.step resize (.insertUsingLlTable key result flags) qf = some qf' ∧
      ∃ A', Regular qf' A' := by
  obtain ⟨hash, hhash⟩ : ∃ x, x = keyToHash qf key flags := ⟨_, rfl⟩
  rw [← hhash] at hs hr
  have hcheck := checkLoad_idle h.idle resize
  by_cases hf : full qf = true
  · refine ⟨qf, ?_, A, h⟩
    simp [Op.step, qfInsertUsingLlTable, hcheck, hf]
  · obtain ⟨⟨rank, existed⟩, hrank⟩ := Option.isSome_iff_exists.mp (h.layout.llRank_isSome hr)
    obtain ⟨qf', l1, l2, p, h1, h2, h3, _⟩ :=
      h.layout.insertUsingLlTableWork_eq ⟨hash, minirunId qf hash, 0, false⟩ hs hrank
    have hk : qf.Keeps qf' := ⟨_, _, _, h2⟩
    have hins := insertUsingLlTable_eq h.idle _ 1 flags h1 hk.locks
    refine ⟨qf', ?_, h.inserted hk h3⟩
    simp [Op.step, qfInsertUsingLlTable, hcheck, hf, ← hhash, hins]

theorem Regular.insertRet (h : Regular qf A) (key : Nat) (out : InsertOut) (flags : Nat)
    (hs : InsertFindsSpace qf (keyToHash qf key flags) flags)
    (hn : hasFlag flags QF_TRY_ONCE_LOCK = false → CodeNear qf A (keyToHash qf key flags)) :
    ∃ qf', Op.step resize (.insertRet key out flags) qf = some qf' ∧ ∃ A', Regular qf' A' := by
  obtain ⟨hash, hhash⟩ : ∃ x, x = keyToHash qf key flags := ⟨_, rfl⟩
  rw [← hhash] at hs hn
  have hcheck := checkLoad_idle h.idle resize
  by_cases hf : full qf = true
  · refine ⟨qf, ?_, A, h⟩
    simp [Op.step, qfInsertRet, hcheck, hf]
  · obtain ⟨p, hp, hcase⟩ := h.layout.locateInsert_eq flags hn
    rcases hcase with ⟨l1, it, l2, _, _, _, rfl⟩ | ⟨l1, l2, hpl, _⟩
    · have hins := insert_eq h.idle 1 out flags (insertWork_matched hp 1 out) rfl
      refine ⟨qf, ?_, A, h⟩
      simp [Op.step, qfInsertRet, hcheck, hf, ← hhash, hins]
    · obtain ⟨qf', h1, h2, h3⟩ := h.layout.insertWork_placed hp hpl hs out
      have hk : qf.Keeps qf' := ⟨_, _, _, h2⟩
      have hins := insert_eq h.idle 1 out flags h1 hk.locks
      refine ⟨qf', ?_, h.inserted hk h3⟩
      simp [Op.step, qfInsertRet, hcheck, hf, ← hhash, hins]

theorem Regular.insertAndExtend (h : Regular qf A) {key otherKey flags : Nat}
    (hst : InMinirun qf A (keyToHash qf key flags) l1 it l2)
    (hs : A.pos (qf.metadata.bucket (keyToHash qf key flags)) l1 + it.len < 2^31)
    (hne : keyToHash qf key flags ≠ keyToHash qf otherKey flags)
    (hid : minirunId qf (keyToHash qf key flags) = minirunId qf (keyToHash qf otherKey flags))
    (hsp : ExtendInserts qf (A.pos (qf.metadata.bucket (keyToHash qf key flags)) l1)
      (keyToHash qf key flags) (keyToHash qf otherKey flags)) (retHash retOtherHash : Nat) :
    ∃ qf', Op.step resize (.insertAndExtend
      (A.pos (qf.metadata.bucket (keyToHash qf key flags)) l1) key otherKey retHash retOtherHash
        flags) qf = some qf' ∧ ∃ A', Regular qf' A' := by
  obtain ⟨hash, hhash⟩ : ∃ x, x = keyToHash qf key flags := ⟨_, rfl⟩
  obtain ⟨other, hother⟩ : ∃ x, x = keyToHash qf otherKey flags := ⟨_, rfl⟩
  rw [← hhash] at hst hs hne hid hsp ⊢
  rw [← hother] at hne hid hsp
  obtain ⟨hb, hr⟩ := h.layout.geometry.minirunId_eq_iff.mp hid
  have hplain := h.plain _ it (by rw [hst.split]; simp)
  obtain ⟨q, ret, rh, roh, d1, r1, d2, r2, h1, hp⟩ := h.layout.extendOther_eq hst.split
    (by simp [hplain]) hs rfl hb.symm hst.rem (hst.rem.trans hr) hsp
  have hk : qf.Keeps (q.countItem 1) := hp.tally.keeps.trans (.setCounts ..)
  have hlay := hp.layout.setCounts (add64 q.metadata.nelts 1) (add64 q.metadata.ndistinctElts 1)
    (add64 q.metadata.noccupiedSlots 1)
  obtain ⟨index, hindex⟩ : ∃ x, x = A.pos (qf.metadata.bucket hash) l1 := ⟨_, rfl⟩
  rw [← hindex] at h1 ⊢
  have hwork : AdaptiveQF.insertAndExtend qf index key 1 otherKey retHash retOtherHash flags =
      some (⟨ret, rh, roh⟩, q.countItem 1) := by
    apply withLock_eq h.idle _ _ _ _ _ hk.locks
    simp only [← hhash, ← hother, hid, ne_eq, not_true, if_false, hne, h1]
    rfl
  refine ⟨q.countItem 1, by simp [Op.step, hwork], _, h.replace hk hlay fun x hx => ?_⟩
  rcases List.mem_append.mp hx with hx | hx
  · exact h.plain_left hst.split x hx
  · rcases List.mem_cons.mp hx with rfl | hx
    · exact Item.extend_plain _ rfl _
    · rcases List.mem_cons.mp hx with rfl | hx
      · exact Item.extend_plain _ hplain _
      · exact h.plain_right hst.split x (by simp [hx])

def Contents.SameRems (A A' : Contents) : Prop := ∀ c, (A' c).map Item.rem = (A c).map Item.rem

theorem Contents.SameRems.rankOf {A' : Contents} (h : A.SameRems A') (m : QFMetadata)
    (hash c : Nat) :
    rankOf m hash (A' c) = rankOf m hash (A c) := by
  have hcount : ∀ l : List Item, AdaptiveQF.rankOf m hash l =
      (l.map Item.rem).countP fun r => r = m.remainder hash := by
    intro l
    rw [List.countP_map]
    rfl
  rw [hcount, hcount, h c]

theorem Regular.adapt (h : Regular qf A) {key flags : Nat}
    (hst : InMinirun qf A (keyToHash qf key flags) l1 it l2)
    (hs : A.pos (qf.metadata.bucket (keyToHash qf key flags)) l1 + it.len < 2^31)
    (otherKey retHash : Nat) :
    ∃ r qf', qfAdapt qf (A.pos (qf.metadata.bucket (keyToHash qf key flags)) l1) key otherKey
      retHash flags = some (r, qf') ∧ qf.Keeps qf'.2 ∧
        ∃ A', Regular qf'.2 A' ∧ A.SameRems A' := by
  unfold qfAdapt
  simp only
  obtain ⟨hash, hhash⟩ : ∃ x, x = keyToHash qf key flags := ⟨_, rfl⟩
  rw [← hhash] at hst hs ⊢
  by_cases hne : hash = keyToHash qf otherKey flags
  · rw [if_pos hne]
    exact ⟨_, _, rfl, .refl qf, A, h, fun _ => rfl⟩
  · have hplain := h.plain _ it (by rw [hst.split]; simp)
    obtain ⟨qf', r, done, rest, h1, had, _⟩ := h.layout.adapt_eq hst.split (by simp [hplain]) hs rfl
      hst.rem (keyToHash qf otherKey flags)
    rw [if_neg hne, h.layout.geometry.rangeBucket_eq, h1]
    refine ⟨_, _, rfl, had.keeps, _, h.replace had.keeps had.layout fun x hx => ?_, fun c => ?_⟩
    · rcases List.mem_append.mp hx with hx | hx
      · exact h.plain_left hst.split x hx
      · rcases List.mem_cons.mp hx with rfl | hx
        · exact Item.extend_plain _ hplain _
        · exact h.plain_right hst.split x (by simp [hx])
    · by_cases hc : c = qf.metadata.bucket hash
      · rw [hc, Function.update_self, hst.split]
        simp [Item.extend_rem]
      · rw [Function.update_of_ne hc]

theorem Regular.adaptUsingLlTable (h : Regular qf A) {origKey fpKey flags : Nat}
    (hid : minirunId qf (keyToHash qf origKey flags) = minirunId qf (keyToHash qf fpKey flags))
    (hst : InMinirun qf A (keyToHash qf fpKey flags) l1 it l2)
    (hs : A.pos (qf.metadata.bucket (keyToHash qf fpKey flags)) l1 + it.len < 2^31) :
    ∃ qf', qfAdaptUsingLlTable qf origKey fpKey
        (rankOf qf.metadata (keyToHash qf fpKey flags) l1) flags = some (1, qf') ∧
      qf.Keeps qf' ∧ ∃ A', Regular qf' A' ∧ A.SameRems A' := by
  obtain ⟨hb, hr⟩ := h.layout.geometry.minirunId_eq_iff.mp hid
  have hst2 : InMinirun qf A (keyToHash qf origKey flags) l1 it l2 :=
    ⟨h.layout, by rw [hb]; exact hst.split, by rw [hr]; exact hst.rem⟩
  obtain ⟨r, qf', h1, hk, hreg⟩ := h.adapt hst2 (by rw [hb]; exact hs) fpKey 0
  have hcall := h.layout.qfAdaptUsingLlTable_hit rfl hst.split hs hst.rem origKey
  rw [← hb, h1] at hcall
  exact ⟨qf'.2, hcall, hk, hreg⟩

theorem Regular.step (h : Regular qf A) (op : Op) (hl : op.Legal qf) (hs : op.Sound qf) :
    ∃ qf', op.step resize qf = some qf' ∧ ∃ A', Regular qf' A' := by
  cases op with
  | insertUsingLlTable key result flags =>
    exact h.insertUsingLlTable resize key result flags hl (hs A h.layout)
  | insertRet key out flags =>
    exact h.insertRet resize key out flags hl fun hf => hs hf A h.layout
  | insertAndExtend index key otherKey retHash retOtherHash flags =>
    obtain ⟨hne, hid, hsp, B, l1, it, l2, hst, rfl⟩ := hl
    obtain rfl := h.layout.unique hst.layout
    exact h.insertAndExtend resize hst (hs _ _ _ _ hst rfl) hne hid hsp retHash retOtherHash
  | adapt index key otherKey retHash flags =>
    obtain ⟨B, l1, it, l2, hst, rfl⟩ := hl
    obtain rfl := h.layout.unique hst.layout
    obtain ⟨r, qf', h1, -, A', hreg, -⟩ := h.adapt hst (hs _ _ _ _ hst rfl) otherKey retHash
    exact ⟨qf'.2, by simp [Op.step, h1], A', hreg⟩
  | adaptUsingLlTable origKey fpKey minirunRank flags =>
    obtain ⟨hid, B, l1, it, l2, hst, rfl⟩ := hl
    obtain rfl := h.layout.unique hst.layout
    obtain ⟨qf', h1, -, A', hreg, -⟩ := h.adaptUsingLlTable hid hst (hs _ _ _ _ hst rfl)
    exact ⟨qf', by simp [Op.step, h1], A', hreg⟩

theorem Regular.reported (h : Regular qf A) {key flags : Nat} {out out' : InsertOut} {qf' : QF}
    (hn : hasFlag flags QF_TRY_ONCE_LOCK = false → CodeNear qf A (keyToHash qf key flags))
    (hs : InsertFindsSpace qf (keyToHash qf key flags) flags)
    (hr : qfInsertRet resize qf key 1 out flags = some ((0, out'), qf')) :
    ∃ l1 it l2, InMinirun qf' A (keyToHash qf key flags) l1 it l2 ∧
      out'.index = A.pos (qf'.metadata.bucket (keyToHash qf key flags)) l1 := by
  obtain ⟨hash, hhash⟩ : ∃ x, x = keyToHash qf key flags := ⟨_, rfl⟩
  rw [← hhash] at hs hn ⊢
  have hcheck := checkLoad_idle h.idle resize
  by_cases hf : full qf = true
  · simp [qfInsertRet, hcheck, hf, noSpace] at hr
  · obtain ⟨p, hp, hcase⟩ := h.layout.locateInsert_eq flags hn
    rcases hcase with ⟨l1, it, l2, hsplit, hm, _, rfl⟩ | ⟨l1, l2, hpl, _⟩
    · have hins := insert_eq h.idle 1 out flags (insertWork_matched hp 1 out) rfl
      simp only [qfInsertRet, hcheck, hf, Option.bind_eq_bind, Option.bind_some, ← hhash, hins,
        Bool.not_not, Bool.false_eq_true, if_false, one_ne_zero, Option.some.injEq,
        Prod.mk.injEq, true_and] at hr
      obtain ⟨rfl, rfl⟩ := hr
      exact ⟨l1, it, l2, ⟨h.layout, hsplit, hm.1⟩, rfl⟩
    · obtain ⟨qf2, h1, h2, h3⟩ := h.layout.insertWork_placed hp hpl hs out
      have hk : qf.Keeps qf2 := ⟨_, _, _, h2⟩
      have hins := insert_eq h.idle 1 out flags h1 hk.locks
      simp [qfInsertRet, hcheck, hf, ← hhash, hins] at hr

end

/-- Every run of legal calls keeps the layout, as long as the decoded items are in front of slot
2^31 and no extension slot misleads the rank loop of `insert_using_ll_table`. -/
theorem layout_over_runs {qf : QF} (h : qf.Zeroed) (resize : QF → Nat → Option (Int × QF))
    {ops : List Op} (hops : Runs.Along (fun op qf => op.Legal qf ∧ op.Sound qf) (Op.step resize)
      ops qf) :
    ∃ qf', Runs.run (Op.step resize) ops qf = some qf' ∧ qf'.WellFormed := by
  have hstep : ∀ op qf, (∃ A, Regular qf A) → (op.Legal qf ∧ op.Sound qf) →
      ∃ qf', Op.step resize op qf = some qf' ∧ ∃ A, Regular qf' A := by
    rintro op qf ⟨A, hA⟩ ⟨hl, hs⟩
    exact hA.step resize op hl hs
  obtain ⟨qf', hrun, A, hreg⟩ := Runs.invariant hstep ⟨_, h.regular⟩ hops
  exact ⟨qf', hrun, A, hreg.layout⟩

/-! A filter of 8 slots, with two items of one remainder, the first of them extended. -/

def noResize : QF → Nat → Option (Int × QF) := fun _ _ => none

def smallFilter : QF := QF.zero (QFMetadata.init 3 2 36)

theorem smallFilter_zeroed : smallFilter.Zeroed :=
  QF.zeroed_init (Geometry.init (by decide) (by decide) (by decide) (by decide) (by decide))

def adaptedMinirun : List Op :=
  [.insertUsingLlTable 32 ⟨0, 0, 0, false⟩ QF_KEY_IS_HASH,
    .insertUsingLlTable 0 ⟨0, 0, 0, false⟩ QF_KEY_IS_HASH, .adaptUsingLlTable 0 64 0 QF_KEY_IS_HASH]

theorem adaptedMinirun_ok : Runs.Along (fun op qf => op.Legal qf ∧ op.Sound qf) (Op.step noResize)
    adaptedMinirun smallFilter := by
  have hfirst : LlFindsSpace smallFilter 32 := by decide +kernel
  have hok1 : (Op.insertUsingLlTable 32 ⟨0, 0, 0, false⟩ QF_KEY_IS_HASH).Sound smallFilter := by
    intro A hA
    rw [hA.unique smallFilter_zeroed.wf.toLayout]
    exact .nil
  refine ⟨⟨hfirst, hok1⟩, fun qf1 h1 => ?_⟩
  have hsecond : ∀ q ∈ Runs.run (Op.step noResize) (adaptedMinirun.take 1) smallFilter,
      LlFindsSpace q 0 ∧ q.metadata.nslots = 8 ∧ (Contents.ofList [[⟨0, [], []⟩]]).Shown q ∧
        q.metadata.bucket 0 = 0 := by decide +kernel
  obtain ⟨hspace, hn1, hs1, hb1⟩ := hsecond qf1 (Runs.run_cons h1)
  have hok2 : (Op.insertUsingLlTable 0 ⟨0, 0, 0, false⟩ QF_KEY_IS_HASH).Sound qf1 := by
    intro A hA
    rw [hA.eq_ofList (by rw [hn1]; decide) hs1]
    show RankStops _ (Contents.ofList [[⟨0, [], []⟩]] (qf1.metadata.bucket 0))
    rw [hb1]
    exact List.isChain_singleton _
  refine ⟨⟨hspace, hok2⟩, fun qf2 h2 => ⟨?_, fun _ _ => trivial⟩⟩
  have hthird : ∀ q ∈ Runs.run (Op.step noResize) (adaptedMinirun.take 2) smallFilter,
      q.metadata.nslots = 8 ∧ q.xnslots = 36 ∧ minirunId q 0 = minirunId q 64 ∧
        (Contents.ofList [[⟨0, [], []⟩, ⟨0, [], []⟩]]).Shown q ∧ q.metadata.bucket 64 = 0 ∧
        q.metadata.remainder 64 = 0 := by decide +kernel
  obtain ⟨hn2, hx2, hid, hs2, hb2, hr2⟩ := hthird qf2 ((Runs.run_cons h1).trans (Runs.run_cons h2))
  obtain ⟨q1, hq1, A1, hreg1⟩ := smallFilter_zeroed.regular.step noResize
    (.insertUsingLlTable 32 ⟨0, 0, 0, false⟩ QF_KEY_IS_HASH) hfirst hok1
  obtain rfl : q1 = qf1 := Option.some.inj (hq1.symm.trans h1)
  obtain ⟨q2, hq2, A2, hreg2⟩ := hreg1.step noResize
    (.insertUsingLlTable 0 ⟨0, 0, 0, false⟩ QF_KEY_IS_HASH) hspace hok2
  obtain rfl : q2 = qf2 := Option.some.inj (hq2.symm.trans h2)
  obtain rfl := hreg2.layout.eq_ofList (by rw [hn2]; decide) hs2
  have hst : InMinirun q2 (Contents.ofList [[⟨0, [], []⟩, ⟨0, [], []⟩]])
      (keyToHash q2 64 QF_KEY_IS_HASH) [] ⟨0, [], []⟩ [⟨0, [], []⟩] := by
    refine ⟨hreg2.layout, ?_, hr2.symm⟩
    rw [keyToHash_self, hb2]
    rfl
  refine ⟨⟨hid, _, _, _, _, hst, rfl⟩, fun B k1 x k2 hst2 _ => ?_⟩
  have hend := (hst2.layout.pos_add_len_le hst2.split).trans hst2.layout.fits
  rw [hx2] at hend
  exact hend.trans_lt (by norm_num)

theorem layout_over_runs_adapted : ∃ qf', Runs.run (Op.step noResize) adaptedMinirun smallFilter =
    some qf' ∧ qf'.WellFormed :=
  layout_over_runs smallFilter_zeroed noResize adaptedMinirun_ok

/-- The first hash goes to its home slot. -/
theorem Places.of_empty {qf : QF} {hash : Nat} {l1 l2 : List Item} {p : Placement}
    (hp : Places qf Contents.empty hash l1 l2 p) : p = .home ∧ l1 = [] := by
  have hunused : ∀ s, ¬ Used Contents.empty.lens s := by
    rintro s ⟨c, hc, hlt⟩
    simp [Contents.lens] at hlt
    omega
  have hplaced := hp.placed
  cases hplaced with
  | home hu => exact ⟨rfl, rfl⟩
  | first hu hb => exact absurd hu (hunused _)
  | between hb => simp at hb
  | behind hb => simp at hb

/-! 2^32 slots, with an item in slot 2^31. -/

theorem QF.Zeroed.insertRet_first {qf : QF} (h : qf.Zeroed) (resize : QF → Nat → Option (Int × QF))
    (key flags : Nat) (hf : full qf = false) (out : InsertOut) :
    InsertFindsSpace qf (keyToHash qf key flags) flags ∧
    ∃ qf', Op.step resize (.insertRet key out flags) qf = some qf' ∧ qf.Keeps qf' ∧
      Layout qf' (Contents.single (qf.metadata.bucket (keyToHash qf key flags))
        (Item.fresh (qf.metadata.remainder (keyToHash qf key flags)))) := by
  obtain ⟨hash, hhash⟩ : ∃ x, x = keyToHash qf key flags := ⟨_, rfl⟩
  rw [← hhash]
  have hlay := h.wf.toLayout
  have hnear : hasFlag flags QF_TRY_ONCE_LOCK = false → CodeNear qf Contents.empty hash := by
    intro _ k1 x k2 hx
    simp at hx
  obtain ⟨p, hp, hcase⟩ := hlay.locateInsert_eq flags hnear
  have hplace : ∃ l1 l2, Places qf Contents.empty hash l1 l2 p := by
    rcases hcase with ⟨l1, it, l2, hsplit, -⟩ | ⟨l1, l2, hpl, -⟩
    · simp at hsplit
    · exact ⟨l1, l2, hpl⟩
  obtain ⟨l1, l2, hpl⟩ := hplace
  obtain ⟨rfl, rfl⟩ := hpl.of_empty
  have hnil : l2 = [] := by simpa using hpl.placed.split.symm
  subst hnil
  have hspace : InsertFindsSpace qf hash flags := by
    intro p x hp2 hx
    rw [hp, Option.some.injEq] at hp2
    rw [← hp2] at hx
    exact absurd hx (Option.some_ne_none _).symm
  obtain ⟨qf', h1, h2, h3⟩ := hlay.insertWork_placed hp hpl hspace out
  have hk : qf.Keeps qf' := ⟨_, _, _, h2⟩
  have hidle : qf.Idle := ⟨h.autoResize, funext h.locks⟩
  have hins := insert_eq hidle 1 out flags h1 hk.locks
  have hcheck := checkLoad_idle hidle resize
  refine ⟨hspace, qf', ?_, hk, h3.layout⟩
  simp [Op.step, qfInsertRet, hcheck, hf, ← hhash, hins]

def farRun : List Op := [.insertRet (2^39) ⟨0, 0, 0⟩ QF_KEY_IS_HASH,
  .adapt (2^31) (2^39) (2^40 + 2^39) 0 QF_KEY_IS_HASH]

/-- The item of the first call is in slot 2^31, where the second call cannot decode it. -/
theorem layout_over_runs_fails : (QF.zero farMetadata).Zeroed ∧
    Runs.Along Op.Legal (Op.step noResize) farRun (QF.zero farMetadata) ∧
    ¬ ∃ qf', Runs.run (Op.step noResize) farRun (QF.zero farMetadata) = some qf' ∧
      qf'.WellFormed := by
  have hz : (QF.zero farMetadata).Zeroed := QF.zeroed_init farMetadata_geometry
  obtain ⟨hspace, qf1, h1, hk, hlay⟩ :=
    hz.insertRet_first noResize (2^39) QF_KEY_IS_HASH (by decide) ⟨0, 0, 0⟩
  have hb : qf1.metadata.bucket (2^39) = 2^31 := by
    rw [hk.bucket]
    decide
  have hr : qf1.metadata.remainder (2^39) = 0 := by
    rw [hk.remainder]
    decide
  have hkey : ∀ x, keyToHash qf1 x QF_KEY_IS_HASH = x := fun x => keyToHash_self qf1 x
  have hsplit : Contents.single (2^31) (Item.fresh 0) (2^31) = [] ++ Item.fresh 0 :: [] :=
    Contents.single_self _ _
  have hlay1 : Layout qf1 (Contents.single (2^31) (Item.fresh 0)) := hlay
  have hfar : qfAdapt qf1 (2^31) (2^39) (2^40 + 2^39) 0 QF_KEY_IS_HASH = none := by
    have hnone := hlay1.adapt_far hsplit (by rw [Contents.single_pos]; decide)
      (rangeBucket qf1 (2^39)) (2^39) (2^40 + 2^39)
    rw [Contents.single_pos] at hnone
    unfold qfAdapt
    simp only [hkey]
    rw [if_neg (by decide), hnone]
  refine ⟨hz, ⟨hspace, fun q hq => ⟨?_, fun _ _ => trivial⟩⟩, ?_⟩
  · obtain rfl : qf1 = q := Option.some.inj (h1.symm.trans hq)
    refine ⟨_, [], Item.fresh 0, [], ⟨hlay1, ?_, ?_⟩, ?_⟩
    · rw [hkey, hb]
      exact hsplit
    · rw [hkey, hr]
      rfl
    · rw [hkey, hb, Contents.single_pos]
  · rw [farRun, Runs.run_cons h1, Runs.run, Op.step, hfar]
    simp

end AdaptiveQF
