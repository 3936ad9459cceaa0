import AdaptiveQF.OwnItem

/-! What the calls of a session report to the caller, against what queries report. -/
namespace AdaptiveQF
open RunLayout

/-- The length of a fingerprint is lost for a count above 1 that goes into a non-empty bucket. -/
def Action.Measures (a : Action) (s : Session) : Prop :=
  match a with
  | .insert key count _ _ flags =>
    (∀ x ∈ s.table (s.qf.metadata.bucket (keyToHash s.qf key flags)),
      ¬ x.Matches s.qf.metadata (keyToHash s.qf key flags)) →
        count = 1 ∨ s.table (s.qf.metadata.bucket (keyToHash s.qf key flags)) = []
  | _ => True

instance (s : Session) : ∀ a : Action, Decidable (a.Measures s)
  | .insert .. => inferInstanceAs (Decidable (_ → _))
  | .challenge .. => inferInstanceAs (Decidable True)
  | .remove .. => inferInstanceAs (Decidable True)

def Session.Confirms (s : Session) (r : Report) (flags : Nat) : Prop :=
  ∃ count hit, qfQuery s.qf r.key flags = some (count, some hit) ∧ hit.hash = r.hash ∧
    (hit.hashLen : Int) = r.hashLen

section
variable {isHash : Bool} {s : Session}

theorem Session.Reported.confirms_iff {r : Report} (hr : s.Reported r) (h : s.Owned isHash)
    {flags : Nat} (hflag : hasFlag flags QF_KEY_IS_HASH = isHash) : s.Confirms r flags ↔
      Near s.qf.metadata (s.table.contents s.qf.metadata) (keyToHash s.qf r.key flags) := by
  obtain ⟨b, t1, e, t2, hT, hkey, hhash, hlen⟩ := hr
  have hmem : e ∈ s.table b := by simp [hT]
  rw [← hkey, keyToHash_eq, hflag, ← (h.hashed b e hmem).2]
  constructor
  · rintro ⟨count, hit, hq, -⟩
    by_contra hn
    rw [← hkey, h.query_far hmem hflag hn] at hq
    exact absurd hq (Option.some_ne_none _).symm
  · intro hn
    have hq := h.query hT hflag hn
    rw [hkey] at hq
    exact ⟨_, _, hq, hhash.symm, hlen.symm⟩

theorem Session.Moved.reported {a : Action} {s' : Session} (h : s.Moved a s')
    (hm : a.Measures s) : ∀ r ∈ s'.reports, s'.Reported r := by
  cases h with
  | added miss _ _ reported => exact reported (hm miss)
  | paired _ _ _ _ reported => exact reported
  | missed => exact fun r hr => absurd hr List.not_mem_nil
  | grown _ _ _ _ reported => exact reported
  | removed _ _ _ _ reports =>
    rw [reports]
    exact fun r hr => absurd hr List.not_mem_nil

end

/-- In every session whose calls are sound and measure what they insert, each fingerprint that a
call reports is confirmed by a query for its key, if and only if no item from slot 2^31 on is
decoded for it. -/
theorem reports_confirmed {qf : QF} (h : qf.Zeroed) (h1 : qf.metadata.OneToOne) (isHash : Bool)
    (resize : QF → Nat → Option (Int × QF)) {actions : List Action}
    (ha : Runs.Along (fun a s => a.Legal isHash s ∧ a.Sound s ∧ a.Measures s) (Action.step resize)
      actions qf.session) :
    ∃ s, Runs.run (Action.step resize) actions qf.session = some s ∧
      ∀ r ∈ s.reports, ∀ flags, hasFlag flags QF_KEY_IS_HASH = isHash → (s.Confirms r flags ↔
        Near s.qf.metadata (s.table.contents s.qf.metadata) (keyToHash s.qf r.key flags)) := by
  have hstep : ∀ (a : Action) (s : Session), (s.Owned isHash ∧ ∀ r ∈ s.reports, s.Reported r) →
      (a.Legal isHash s ∧ a.Sound s ∧ a.Measures s) → ∃ s', a.step resize s = some s' ∧
        s'.Owned isHash ∧ ∀ r ∈ s'.reports, s'.Reported r := by
    rintro a s ⟨hs, -⟩ ⟨hl, hsound, hm⟩
    obtain ⟨s', h1, h2, hmoved⟩ := hs.step resize a hl hsound
    exact ⟨s', h1, h2, hmoved.reported hm⟩
  obtain ⟨s, hrun, hs, hr⟩ := Runs.invariant hstep
    ⟨h.owned h1 isHash, fun r hr => absurd hr List.not_mem_nil⟩ ha
  exact ⟨s, hrun, fun r hmem flags hflag => (hr r hmem).confirms_iff hs hflag⟩

/-! 8 slots of 2 bits. -/

def measuredSession : List Action :=
  [insertHash 0 1, insertHash 8 2, insertHash 32 2, challengeHash 128]

theorem reports_confirmed_measured :
    ∃ s, Runs.run (Action.step noResize) measuredSession smallFilter.session = some s ∧
      s.reports = [⟨0, 0, 9⟩] ∧ s.Confirms ⟨0, 0, 9⟩ QF_KEY_IS_HASH := by
  obtain ⟨s, hrun, hconfirms⟩ := reports_confirmed smallFilter_zeroed smallFilter_oneToOne true
    noResize (show Runs.Along _ _ measuredSession _ by decide +kernel)
  have hfacts : ∀ s ∈ Runs.run (Action.step noResize) measuredSession smallFilter.session,
      s.reports = [⟨0, 0, 9⟩] ∧ Near s.qf.metadata (s.table.contents s.qf.metadata)
        (keyToHash s.qf 0 QF_KEY_IS_HASH) := by decide +kernel
  obtain ⟨hreports, hnear⟩ := hfacts s hrun
  refine ⟨s, hrun, hreports, (hconfirms _ ?_ QF_KEY_IS_HASH (by decide)).mpr hnear⟩
  rw [hreports]
  exact List.mem_singleton_self _

/-- The count 2 for hash 1 goes behind the item of hash 0. A length of 0 is reported. -/
theorem reports_lose_length : smallFilter.Zeroed ∧ smallFilter.metadata.OneToOne ∧
    Runs.Along (fun a s => a.Legal true s) (Action.step noResize) [insertHash 0 1, insertHash 1 2]
      smallFilter.session ∧
    ∃ s r, Runs.run (Action.step noResize) [insertHash 0 1, insertHash 1 2] smallFilter.session =
      some s ∧ r ∈ s.reports ∧ ¬ s.Confirms r QF_KEY_IS_HASH := by
  have hsome : (Runs.run (Action.step noResize) [insertHash 0 1, insertHash 1 2]
      smallFilter.session).isSome := by decide +kernel
  have hall : ∀ s ∈ Runs.run (Action.step noResize) [insertHash 0 1, insertHash 1 2]
      smallFilter.session, s.reports = [⟨1, 1, 0⟩] ∧
        qfQuery s.qf 1 QF_KEY_IS_HASH = some (2, some ⟨1, 1, 5⟩) := by decide +kernel
  obtain ⟨s, hs⟩ := Option.isSome_iff_exists.mp hsome
  obtain ⟨hreports, hquery⟩ := hall s hs
  refine ⟨smallFilter_zeroed, smallFilter_oneToOne, by decide +kernel, s, ⟨1, 1, 0⟩, hs,
    by rw [hreports]; exact List.mem_singleton_self _, ?_⟩
  rintro ⟨count, hit, hq, -, hlen⟩
  have hhit := (Prod.mk.inj (Option.some.inj (hquery.symm.trans hq))).2
  rw [← Option.some.inj hhit] at hlen
  exact absurd hlen (by decide)

end AdaptiveQF
