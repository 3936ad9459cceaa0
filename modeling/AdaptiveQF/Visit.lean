import AdaptiveQF.Walk

/-! Iterating over a filter: the items that `qfi_get_hash` and `qfi_next` pass until `qfi_end`. -/
namespace AdaptiveQF
open RunLayout

def qfiVisit (qf : QF) : Nat → QFi → Option (List (Nat × QFiItem))
  | 0, _ => none
  | fuel+1, qfi =>
    if qfiEnd qf qfi then some []
    else do
      let (_, item) ← qfiGetHash qf qfi
      let (_, next) ← qfiNext qf qfi
      let rest ← qfiVisit qf fuel next
      some ((qfi.run, item) :: rest)

def Item.entry (w : Nat) (it : Item) : QFiItem :=
  ⟨it.rem, it.packedExt w, it.ext.length, it.count w⟩

def runEntries (w b : Nat) (l : List Item) : List (Nat × QFiItem) := l.map fun it => (b, it.entry w)

def Contents.entriesFrom (A : Contents) (w n p : Nat) : List (Nat × QFiItem) :=
  (List.range' p (n - p)).flatMap fun b => runEntries w b (A b)

section
variable {qf : QF} {A : Contents} {p c b w n : Nat}

theorem Contents.entriesFrom_eq (A : Contents) (w n p : Nat) :
    A.entriesFrom w n p = (A.itemsFrom n p).map fun e => (e.1, e.2.entry w) := by
  rw [entriesFrom, itemsFrom, List.map_flatMap]
  refine List.flatMap_congr fun b _ => ?_
  rw [List.map_map]
  rfl

theorem Contents.entriesFrom_nil (hgap : ∀ b, p ≤ b → A b = []) : A.entriesFrom w n p = [] := by
  rw [entriesFrom_eq, itemsFrom_nil hgap]
  rfl

theorem FirstBucket.entriesFrom_eq (hc : FirstBucket A p c) (hn : c < n) :
    A.entriesFrom w n p = runEntries w c (A c) ++ A.entriesFrom w n (c+1) := by
  rw [Contents.entriesFrom_eq, Contents.entriesFrom_eq, hc.itemsFrom_eq hn, List.map_append,
    List.map_map]
  rfl

theorem Layout.qfiGetHash_eq (h : Layout qf A) {l1 l2 : List Item} {it : Item}
    (hb : A b = l1 ++ it :: l2) : qfiEnd qf ⟨b, A.pos b l1⟩ = false ∧
      qfiGetHash qf ⟨b, A.pos b l1⟩ =
        if A.pos b l1 + it.len < 2^31 then some (0, it.entry qf.bits) else none := by
  have hat := h.itemAt hb
  have hfit := hat.fits
  have hlen := it.len_pos
  have hend : qfiEnd qf ⟨b, A.pos b l1⟩ = false := by
    unfold qfiEnd
    simp
    omega
  refine ⟨hend, ?_⟩
  unfold qfiGetHash
  rw [hend, if_neg Bool.false_ne_true, hat.getSlotInfo_eq h.row.blocks, hat.getSlot_eq]
  split <;> rfl

theorem Layout.visit_run (h : Layout qf A) (hnear : A.extent qf.metadata.nslots < 2^31)
    {l1 l2 : List Item} {it : Item} {tail : List (Nat × QFiItem)} (hb : A b = l1 ++ it :: l2)
    (hback : A.TurnsBack b → qf.xnslots ≤ start A.lens b + A.lens b)
    (htail : ∀ qfi, AtFirst qf A (b+1) qfi → ∃ n, qfiVisit qf n qfi = some tail) :
    ∃ n, qfiVisit qf n ⟨b, A.pos b l1⟩ = some (runEntries qf.bits b (it :: l2) ++ tail) := by
  induction l2 generalizing l1 it with
  | nil =>
    obtain ⟨hend, hget⟩ := h.qfiGetHash_eq hb
    have hle := h.pos_add_len_le hb
    rw [← Contents.pos_last hb] at hback
    obtain ⟨ret, qfi, hnext, hat⟩ := h.nextBucket_at hb hback
    obtain ⟨n, hn⟩ := htail qfi hat
    refine ⟨n+1, ?_⟩
    rw [qfiVisit, hend, if_neg Bool.false_ne_true, hget, if_pos (by omega)]
    simp only [hnext, hn, Option.bind_eq_bind, Option.bind_some]
    rfl
  | cons next l2 ih =>
    obtain ⟨hend, hget⟩ := h.qfiGetHash_eq hb
    have hle := h.pos_add_len_le hb
    obtain ⟨n, hn⟩ := ih (show A b = (l1 ++ [it]) ++ next :: l2 by simp [hb])
    refine ⟨n+1, ?_⟩
    rw [qfiVisit, hend, if_neg Bool.false_ne_true, hget, if_pos (by omega)]
    simp only [h.nextItem_at hb, hn, Option.bind_eq_bind,
      Option.bind_some]
    rfl

theorem Layout.visit_from (h : Layout qf A)
    (hnear : (∃ b, p ≤ b ∧ A b ≠ []) → A.extent qf.metadata.nslots < 2^31)
    (hon : RunsOn qf A p) {qfi : QFi} (hat : AtFirst qf A p qfi) :
    ∃ n, qfiVisit qf n qfi = some (A.entriesFrom qf.bits qf.metadata.nslots p) := by
  induction hd : qf.metadata.nslots - p using Nat.strong_induction_on generalizing p qfi with
  | _ d ih =>
    cases hat with
    | inr hend =>
      refine ⟨1, ?_⟩
      rw [Contents.entriesFrom_nil hend.1, qfiVisit, qfiEnd, decide_eq_true hend.2, if_pos rfl]
    | inl hat =>
      obtain ⟨c, hc, rfl⟩ := hat
      have hlt := hc.lt_nslots h
      have hle := hc.le
      obtain ⟨it, l, hl⟩ := List.exists_cons_of_ne_nil hc.items
      have hclose := hnear ⟨c, hc.le, hc.items⟩
      rw [hc.entriesFrom_eq hlt, hl]
      exact h.visit_run hclose (show A c = [] ++ it :: l from hl) (hon c hle) fun qfi hqfi =>
        ih _ (by omega) (fun _ => hclose) (hon.mono (by omega)) hqfi rfl

theorem qfiVisit_cons {n : Nat} {qfi : QFi} {e : Nat × QFiItem} {l : List (Nat × QFiItem)}
    (hv : qfiVisit qf n qfi = some (e :: l)) : e.1 = qfi.run ∧ qfiEnd qf qfi = false ∧
      ∃ n' next, qfiNext qf qfi = some next ∧ qfiVisit qf n' next.2 = some l := by
  cases n with
  | zero => exact absurd hv (Option.some_ne_none _).symm
  | succ n =>
    rw [qfiVisit] at hv
    split at hv
    · exact absurd hv (by simp)
    · next hend =>
      simp only [Option.bind_eq_bind, Option.bind_eq_some_iff, Option.some.injEq, List.cons.injEq]
        at hv
      obtain ⟨_, _, next, hnext, rest, hrest, rfl, rfl⟩ := hv
      exact ⟨rfl, eq_false_of_ne_true hend, n, next, hnext, hrest⟩

/-- A walk to the end that passes the rest of a run decodes its last item and goes on behind it. -/
theorem Layout.visit_run_inv (h : Layout qf A) {n : Nat} {l1 l2 : List Item} {it : Item}
    {l : List (Nat × QFiItem)} (hb : A b = l1 ++ it :: l2)
    (hv : qfiVisit qf n ⟨b, A.pos b l1⟩ = some (runEntries qf.bits b (it :: l2) ++ l)) :
    ∃ k1 x n' next, A b = k1 ++ [x] ∧ A.pos b k1 + x.len < 2^31 ∧
      qfiNext qf ⟨b, A.pos b k1⟩ = some next ∧ qfiVisit qf n' next.2 = some l := by
  induction l2 generalizing n l1 it with
  | nil =>
    obtain ⟨-, -, n', next, hnext, hrest⟩ := qfiVisit_cons hv
    refine ⟨l1, it, n', next, hb, ?_, hnext, hrest⟩
    obtain ⟨hend, hget⟩ := h.qfiGetHash_eq hb
    by_contra hfar
    cases n with
    | zero => exact absurd hv (Option.some_ne_none _).symm
    | succ n =>
      rw [qfiVisit, hend, if_neg Bool.false_ne_true, hget, if_neg hfar] at hv
      exact absurd hv (Option.some_ne_none _).symm
  | cons it2 l2 ih =>
    obtain ⟨-, -, n', next, hnext, hrest⟩ := qfiVisit_cons hv
    rw [h.nextItem_at hb, Option.some.injEq] at hnext
    rw [← hnext] at hrest
    exact ih (show A b = (l1 ++ [it]) ++ it2 :: l2 by simp [hb]) hrest

theorem qfiVisit_end {n : Nat} {qfi : QFi} (hv : qfiVisit qf n qfi = some []) :
    qfiEnd qf qfi = true := by
  cases n with
  | zero => exact absurd hv (Option.some_ne_none _).symm
  | succ n =>
    rw [qfiVisit] at hv
    split at hv
    · assumption
    · simp [Option.bind_eq_some_iff] at hv

theorem Contents.le_of_mem_entriesFrom {e : Nat × QFiItem} (he : e ∈ A.entriesFrom w n p) :
    p ≤ e.1 := by
  unfold entriesFrom runEntries at he
  simp only [List.mem_flatMap, List.mem_range'_1, List.mem_map] at he
  obtain ⟨b, hb, _, _, rfl⟩ := he
  exact hb.1

/-- The search behind the last bucket of a full block comes to a bucket that has been passed. -/
theorem Layout.not_visit_back (h : Layout qf A) {l1 : List Item} {it : Item} {next : Int × QFi}
    (hb : A b = l1 ++ [it]) (hturn : A.TurnsBack b) (hend : A.pos b l1 + it.len < qf.xnslots)
    (hnext : qfiNext qf ⟨b, A.pos b l1⟩ = some next) :
    qfiVisit qf n next.2 ≠ some (A.entriesFrom w qf.metadata.nslots (b+1)) := by
  obtain ⟨run, hrun, hcall⟩ := h.nextBucket_back hb hturn hend
  rw [hcall, Option.some.injEq] at hnext
  rw [← hnext]
  have hlast := hturn.1
  intro hv
  cases hl : A.entriesFrom w qf.metadata.nslots (b+1) with
  | nil =>
    rw [hl] at hv
    have hstop := qfiVisit_end hv
    unfold qfiEnd at hstop
    rw [decide_eq_true_iff] at hstop
    exact absurd hend (Nat.not_lt.mpr hstop)
  | cons e l =>
    have hle := Contents.le_of_mem_entriesFrom (hl ▸ List.mem_cons_self)
    rw [hl] at hv
    have hfirst := (qfiVisit_cons hv).1
    dsimp only at hfirst
    omega

theorem Layout.visit_from_inv (h : Layout qf A) {n : Nat} {qfi : QFi} (hat : AtFirst qf A p qfi)
    (hv : qfiVisit qf n qfi = some (A.entriesFrom qf.bits qf.metadata.nslots p)) :
    ((∃ b, p ≤ b ∧ A b ≠ []) → A.extent qf.metadata.nslots < 2^31) ∧ RunsOn qf A p := by
  induction hd : qf.metadata.nslots - p using Nat.strong_induction_on generalizing n p qfi with
  | _ d ih =>
    cases hat with
    | inr hend =>
      refine ⟨fun ⟨b, hb, hne⟩ => absurd (hend.1 b hb) hne, fun b hb hturn => ?_⟩
      exact absurd (hend.1 b hb) (hturn.2 b (by omega) (Nat.le_refl b))
    | inl hat =>
      obtain ⟨c, hc, rfl⟩ := hat
      have hlt := hc.lt_nslots h
      have hle := hc.le
      obtain ⟨it, l, hl⟩ := List.exists_cons_of_ne_nil hc.items
      rw [hc.entriesFrom_eq hlt, hl] at hv
      obtain ⟨k1, x, n', next, hb, hnear, hnext, hrest⟩ :=
        h.visit_run_inv (show A c = [] ++ it :: l from hl) hv
      have hback : A.TurnsBack c → qf.xnslots ≤ A.pos c k1 + x.len := fun hturn => by
        by_contra hend
        exact h.not_visit_back hb hturn (by omega) hnext hrest
      obtain ⟨_, _, hcall, hat⟩ := h.nextBucket_at hb hback
      rw [hnext, Option.some.injEq] at hcall
      rw [hcall] at hrest
      obtain ⟨hclose, hon⟩ := ih _ (by omega) hat hrest rfl
      refine ⟨fun _ => ?_, fun b hb' hturn => ?_⟩
      · by_cases hany : ∃ b, c + 1 ≤ b ∧ A b ≠ []
        · exact hclose hany
        · rw [h.extent_eq hb fun b hbc => by
            by_contra hne
            exact hany ⟨b, hbc, hne⟩]
          exact hnear
      · by_cases hcb : b < c
        · exact absurd (hc.gap b hb' hcb) (hturn.2 b (by omega) (Nat.le_refl b))
        · by_cases hbc : b = c
          · subst hbc
            rw [← Contents.pos_last hb]
            exact hback hturn
          · exact hon b (by omega) hturn

theorem AtFirst.of_gap {q : Nat} {qfi : QFi} (hat : AtFirst qf A q qfi) (hpq : p ≤ q)
    (hgap : ∀ b, p ≤ b → b < q → A b = []) : AtFirst qf A p qfi := by
  have hall : ∀ c, (∀ b, q ≤ b → b < c → A b = []) → ∀ b, p ≤ b → b < c → A b = [] := by
    intro c hc b h1 h2
    by_cases hb : b < q
    · exact hgap b h1 hb
    · exact hc b (by omega) h2
  cases hat with
  | inl hat =>
    obtain ⟨c, hc, rfl⟩ := hat
    exact .inl ⟨c, ⟨hpq.trans hc.le, hc.items, hall c hc.gap⟩, rfl⟩
  | inr hat =>
    exact .inr ⟨fun b hb => hall (b+1) (fun a h1 _ => hat.1 a h1) b hb (Nat.lt_succ_self b), hat.2⟩

def StartsRight (qf : QF) (A : Contents) (p : Nat) : Prop :=
  A p ≠ [] ∨ p ≤ qf.metadata.nblocks ∧ ∀ b, p ≤ b → b < 64*p → A b = []

theorem StartsRight.iterator (hr : StartsRight qf A p) (h : Layout qf A)
    (hp : p < qf.metadata.nslots) (qfi : QFi) :
    ∃ ret qfi', qfIteratorFromPosition qf qfi p = some (ret, qfi') ∧ AtFirst qf A p qfi' := by
  have hblock : A p = [] → p ≤ qf.metadata.nblocks := fun hempty =>
    (hr.resolve_left fun hne => hne hempty).1
  obtain ⟨ret, qfi', hcall, hat⟩ := h.iteratorFromPosition_at hp hblock qfi
  refine ⟨ret, qfi', hcall, ?_⟩
  by_cases hempty : A p = []
  · rw [if_pos hempty] at hat
    exact hat.of_gap (by omega) (hr.resolve_left fun hne => hne hempty).2
  · rwa [if_neg hempty] at hat

def IteratesFrom (qf : QF) (A : Contents) (p : Nat) : Prop :=
  ∀ qfi, ∃ ret qfi' n, qfIteratorFromPosition qf qfi p = some (ret, qfi') ∧
    qfiVisit qf n qfi' = some (A.entriesFrom qf.bits qf.metadata.nslots p)

theorem IteratesFrom.startsRight (hiter : IteratesFrom qf A p) (h : Layout qf A)
    (hp : p < qf.metadata.nslots) : StartsRight qf A p := by
  obtain ⟨ret, qfi, n, hcall, hvisit⟩ := hiter ⟨0, 0⟩
  by_cases hempty : A p = []
  case neg => exact .inl hempty
  have hfree : isOccupied qf p = false := by
    rw [h.isOccupied_eq, hempty]
    rfl
  have hblock : p ≤ qf.metadata.nblocks := by
    by_contra hfar
    have hword := h.geometry.word
    have hx := h.geometry.xnslots
    unfold qfIteratorFromPosition at hcall
    rw [if_neg (by omega), if_neg (by omega), if_pos ⟨hfree, by omega⟩] at hcall
    exact absurd hcall (Option.some_ne_none _).symm
  refine .inr ⟨hblock, fun b h1 h2 => ?_⟩
  by_contra hne
  obtain ⟨_, _, hcall', hat⟩ := h.iteratorFromPosition_at hp (fun _ => hblock) ⟨0, 0⟩
  rw [hcall'] at hcall
  obtain ⟨-, rfl⟩ := Prod.mk.inj (Option.some.inj hcall)
  rw [if_pos hempty] at hat
  -- The first entry is of a bucket below `64*p`, the iterator is behind it.
  obtain ⟨c, hc, hcb⟩ := exists_firstBucket h1 hne
  obtain ⟨it, l, hl⟩ := List.exists_cons_of_ne_nil hc.items
  rw [hc.entriesFrom_eq (hc.lt_nslots h), hl] at hvisit
  obtain ⟨hrun, hend, -⟩ := qfiVisit_cons hvisit
  cases hat with
  | inl hat =>
    obtain ⟨c', hc', rfl⟩ := hat
    have hle := hc'.le
    simp only at hrun
    omega
  | inr hat =>
    rw [qfiEnd, decide_eq_true hat.2] at hend
    exact absurd hend (by decide)

/-- The iteration is complete if and only if it starts at an occupied bucket, or with no item
between bucket `p` and block `p`, and it comes to the last bucket of a full block at the end of the
array at most. If there is an item, the slots must be in the range of an `int`. -/
theorem iterates_from_iff (h : Layout qf A) (hp : p < qf.metadata.nslots) :
    IteratesFrom qf A p ↔ StartsRight qf A p ∧ RunsOn qf A p ∧
      ((∃ b, p ≤ b ∧ A b ≠ []) → A.extent qf.metadata.nslots < 2^31) := by
  constructor
  · intro hiter
    have hr := hiter.startsRight h hp
    obtain ⟨ret, qfi, n, hcall, hvisit⟩ := hiter ⟨0, 0⟩
    obtain ⟨_, _, hcall', hat⟩ := hr.iterator h hp ⟨0, 0⟩
    rw [hcall'] at hcall
    obtain ⟨-, rfl⟩ := Prod.mk.inj (Option.some.inj hcall)
    obtain ⟨hnear, hon⟩ := h.visit_from_inv hat hvisit
    exact ⟨hr, hon, hnear⟩
  · rintro ⟨hr, hon, hnear⟩ qfi
    obtain ⟨ret, qfi', hcall, hat⟩ := hr.iterator h hp qfi
    obtain ⟨n, hn⟩ := h.visit_from hnear hon hat
    exact ⟨ret, qfi', n, hcall, hn⟩

end

/-! 8 slots with one item, in bucket 2. -/

def visitContents : Contents := Contents.single 2 ⟨1, [], []⟩

def visitFilter : QF := QF.ofContents (QFMetadata.init 3 2 36) visitContents

theorem visitFilter_wf : WF visitFilter visitContents := by
  refine Contents.Fits.wf ?_ (Geometry.init (by decide) (by decide) (by decide) (by decide)
    (by decide))
  exact Contents.single_fits (by decide) (by decide) ⟨by decide, by decide, by decide⟩
    (show 3 + 2 * 0 < 64 by decide)

theorem iterates_from_iff_occupied : IteratesFrom visitFilter visitContents 2 ↔
    StartsRight visitFilter visitContents 2 ∧ RunsOn visitFilter visitContents 2 ∧
      ((∃ b, 2 ≤ b ∧ visitContents b ≠ []) →
        visitContents.extent visitFilter.metadata.nslots < 2^31) :=
  iterates_from_iff visitFilter_wf.toLayout (by decide)

/-- From bucket 1 on, the iterator is at the end at once. -/
theorem iterates_from_fails : WF visitFilter visitContents ∧
    (∃ ret qfi, qfIteratorFromPosition visitFilter ⟨0, 0⟩ 1 = some (ret, qfi) ∧
      qfiEnd visitFilter qfi = true) ∧
    ¬ IteratesFrom visitFilter visitContents 1 := by
  have hcall : qfIteratorFromPosition visitFilter ⟨0, 0⟩ 1 = some (QFI_INVALID, ⟨128, 128⟩) := by
    decide +kernel
  refine ⟨visitFilter_wf, ⟨_, _, hcall, by decide⟩, fun hiter => ?_⟩
  obtain ⟨ret, qfi, n, hcall', hvisit⟩ := hiter ⟨0, 0⟩
  rw [hcall] at hcall'
  obtain ⟨-, rfl⟩ := Prod.mk.inj (Option.some.inj hcall')
  have hentries : visitContents.entriesFrom visitFilter.bits visitFilter.metadata.nslots 1 =
      [(2, ⟨1, 0, 0, 1⟩)] := by
    decide
  rw [hentries] at hvisit
  exact absurd (qfiVisit_cons hvisit).2.1 (by decide)

end AdaptiveQF
