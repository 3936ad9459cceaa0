import AdaptiveQF.Lib.Meld
import AdaptiveQF.MergeWrites

/-! The items of a merge: those that are left in the two inputs, and what they become. -/
namespace AdaptiveQF
open RunLayout Meld

def melded (w : Nat) (l : Bool → List (Nat × Item)) : List (Nat × Item) :=
  meld (fingerKey w) (mergedOne w) (mergedTwo w) (l false) (l true)

def paired (w : Nat) (l : Bool → List (Nat × Item)) : List ((Nat × Item) × (Nat × Item)) :=
  met (fingerKey w) (l false) (l true)

/-- When the last of the items `la` is written, the next one of `lb` is in a later bucket. -/
def GoesOn (w : Nat) (la lb : List (Nat × Item)) : Prop :=
  ∃ z ∈ la.getLast?, ∃ f ∈ facing (fingerKey w) la lb, z.1 < f.1

section
variable {w b : Nat} {l : Bool → List (Nat × Item)} {x : Bool} {e f : Nat × Item}
  {t la lb : List (Nat × Item)}

theorem fst_eq_of_key (h : fingerKey w e = fingerKey w f) : e.1 = f.1 :=
  (List.cons.inj (Prod.mk.inj h).1).1

theorem key_lt_of_fst_lt (h : e.1 < f.1) : fingerKey w e < fingerKey w f :=
  Prod.Lex.toLex_lt_toLex.mpr (.inl (List.cons_lt_cons_iff.mpr (.inl h)))

theorem mem_fst_melded (w : Nat) (l : Bool → List (Nat × Item)) :
    (∃ e ∈ melded w l, e.1 = b) ↔ ∃ x, ∃ e ∈ l x, e.1 = b := by
  have h := @mem_map_meld _ _ _ (fingerKey w) (mergedOne w) (mergedTwo w) (l false) (l true) _
    Prod.fst (fun _ => rfl) (fun _ _ => rfl) (fun _ _ => fst_eq_of_key) b
  simp only [List.mem_map] at h
  rw [Bool.exists_bool]
  exact h

section Steps

theorem melded_one (hx : l x = e :: t) (hlt : ∀ f ∈ (l !x).head?, fingerKey w e < fingerKey w f) :
    melded w l = mergedOne w e :: melded w (Function.update l x t) ∧
      paired w l = paired w (Function.update l x t) := by
  unfold melded paired
  cases x with
  | false =>
    rw [hx, Function.update_self, Function.update_of_ne (by decide)]
    cases hl : l true with
    | nil => simp [meld_nil_right, met_nil_right]
    | cons f fs =>
      have h := hlt f (by simp [hl])
      exact ⟨meld_cons_of_lt h, met_cons_of_lt h⟩
  | true =>
    rw [hx, Function.update_self, Function.update_of_ne (by decide)]
    cases hl : l false with
    | nil => simp [meld_nil_left, met]
    | cons f fs =>
      have h := hlt f (by simp [hl])
      exact ⟨meld_cons_of_gt h, met_cons_of_gt h⟩

theorem goesOn_nil_left (w : Nat) (lb : List (Nat × Item)) : ¬ GoesOn w [] lb := by
  rintro ⟨z, hz, -⟩
  simp at hz

theorem goesOn_nil_right (w : Nat) (la : List (Nat × Item)) : ¬ GoesOn w la [] := by
  rintro ⟨z, -, f, hf, -⟩
  rw [facing_nil_right] at hf
  simp at hf

/-- Without its first item the list still goes on, if it did. -/
theorem goesOn_one (hlt : ∀ f ∈ lb.head?, fingerKey w e < fingerKey w f)
    (hne : t ≠ [] ∨ ∀ f ∈ lb.head?, f.1 ≤ e.1) : GoesOn w (e :: t) lb ↔ GoesOn w t lb := by
  cases lb with
  | nil => exact iff_of_false (goesOn_nil_right w _) (goesOn_nil_right w _)
  | cons f fs =>
    unfold GoesOn
    rw [facing_cons_of_lt (hlt f (by simp))]
    cases t with
    | nil =>
      have hle := (hne.resolve_left fun h => h rfl) f (by simp)
      simp
      omega
    | cons g t =>
      rw [List.getLast?_cons_cons]
      rfl

theorem goesOn_other (hlt : ∀ f ∈ la.head?, fingerKey w e < fingerKey w f) :
    GoesOn w la (e :: t) ↔ GoesOn w la t := by
  cases la with
  | nil => exact iff_of_false (goesOn_nil_left w _) (goesOn_nil_left w _)
  | cons f fs =>
    unfold GoesOn
    rw [facing_cons_of_gt (hlt f (by simp))]

theorem goesOn_both (h : fingerKey w e = fingerKey w f) :
    GoesOn w (e :: la) (f :: lb) ↔ GoesOn w la lb := by
  unfold GoesOn
  rw [facing_cons_of_eq h]
  cases la with
  | nil => simp [facing]
  | cons g la => rw [List.getLast?_cons_cons]

theorem goesOn_of_run (hne : la ≠ []) (hrun : ∀ e ∈ la, e.1 = b) (hb : b < f.1) :
    GoesOn w la (f :: lb) := by
  have hlast := List.getLast?_eq_some_getLast hne
  refine ⟨_, hlast, f, facing_of_lt hne fun a ha => key_lt_of_fst_lt ?_, ?_⟩
  · rw [hrun a ha]
    exact hb
  · rw [hrun _ (List.getLast_mem hne)]
    exact hb

end Steps

end

/-! The items of the two inputs. -/

def mergeItems (inputs : Bool → QF) (D : Bool → Contents) (x : Bool) : List (Nat × Item) :=
  (D x).itemsFrom (inputs x).metadata.nslots 0

def EndsLast (inputs : Bool → QF) (D : Bool → Contents) (x : Bool) : Prop :=
  (inputs x).xnslots ≤ (D x).extent (inputs x).metadata.nslots

def reported (qf : QF) (e : Nat × Item) : Nat × Nat :=
  (e.2.rem ||| shl64 e.1 qf.bits ||| shl64 (e.2.packedExt qf.bits) (qf.qbits + qf.bits),
    e.2.ext.length * qf.bits + qf.qbits + qf.bits)

/-- Two filters that can be iterated over, and one that has the room for all their items. -/
structure MergeSetting (inputs : Bool → QF) (D : Bool → Contents) (qfc : QF) : Prop where
  wf : ∀ x, WF (inputs x) (D x)
  runsOn : ∀ x, RunsOn (inputs x) (D x) 0
  counts : ∀ x b, ∀ it ∈ D x b, it.Counts qfc.bits
  zeroed : qfc.Zeroed
  bits : ∀ x, (inputs x).bits = qfc.bits
  qbits : ∀ x, (inputs x).qbits = qfc.qbits
  room : Contents.extent (fun b => D false b ++ D true b) qfc.metadata.nslots ≤ qfc.xnslots

section
variable {A : Contents} {n p b : Nat}

theorem gather_append (l1 l2 : List (Nat × Item)) (b : Nat) :
    gather (l1 ++ l2) b = gather l1 b ++ gather l2 b := by
  simp [gather]

theorem gather_itemsFrom (hout : ∀ b, n ≤ b → A b = []) : gather (A.itemsFrom n 0) = A := by
  have hall : ∀ d p, n - p = d → ∀ b, gather (A.itemsFrom n p) b = if p ≤ b then A b else [] := by
    intro d
    induction d with
    | zero =>
      intro p hp b
      rw [Contents.itemsFrom, hp]
      by_cases hb : p ≤ b
      · rw [if_pos hb, hout b (by omega)]
        rfl
      · rw [if_neg hb]
        rfl
    | succ d ih =>
      intro p hp b
      rw [A.itemsFrom_step (by omega), gather_append, ih (p+1) (by omega)]
      by_cases hb : b = p
      · subst hb
        simp [gather, List.filter_map, Function.comp_def]
      · have hnone : gather ((A p).map (Prod.mk p)) b = [] := by
          simp [gather, List.filter_map, Function.comp_def, Ne.symm hb]
        rw [hnone, List.nil_append]
        split <;> split <;> first | rfl | omega
  funext b
  rw [hall n 0 (by omega) b, if_pos (Nat.zero_le b)]

theorem length_le_itemsLen (l : List Item) : l.length ≤ itemsLen l := by
  induction l with
  | nil => exact Nat.le_refl 0
  | cons it l ih =>
    have hlen := it.len_pos
    rw [List.length_cons, itemsLen_cons]
    omega

/-- Every item has a slot. -/
theorem length_itemsFrom_le {B C : Contents} (hC : ∀ b, C b = A b ++ B b) (hp : p ≤ n) :
    (A.itemsFrom n p).length + (B.itemsFrom n p).length + ends C.lens p ≤ C.extent n := by
  induction hd : n - p generalizing p with
  | zero =>
    obtain rfl : p = n := by omega
    simp [Contents.itemsFrom, Contents.extent]
  | succ d ih =>
    have ih := ih (p := p+1) (by omega) (by omega)
    have hlens : C.lens p = itemsLen (A p) + itemsLen (B p) := by
      rw [Contents.lens, hC, itemsLen_append]
    have hstep : ends C.lens p + C.lens p ≤ ends C.lens (p+1) := by
      rcases Nat.eq_zero_or_pos (C.lens p) with h0 | hpos
      · rw [ends_succ_of_zero h0]
        omega
      · rw [ends_succ_of_pos hpos]
        have := @ends_le_start C.lens p
        omega
    have ha := length_le_itemsLen (A p)
    have hb := length_le_itemsLen (B p)
    rw [A.itemsFrom_step (by omega), B.itemsFrom_step (by omega), List.length_append,
      List.length_append, List.length_map, List.length_map]
    omega

end

namespace MergeSetting

variable {inputs : Bool → QF} {D : Bool → Contents} {qfc : QF} {x : Bool} {e : Nat × Item}
variable (h : MergeSetting inputs D qfc)
include h

theorem nslots (x : Bool) : (inputs x).metadata.nslots = qfc.metadata.nslots := by
  have h1 := (h.wf x).geometry.nslots
  have h2 := h.zeroed.geometry.nslots
  have hq : (inputs x).metadata.quotientBits = qfc.metadata.quotientBits := h.qbits x
  rw [h1, h2, hq]

theorem bits_ge : 2 ≤ qfc.bits := h.zeroed.geometry.bits

theorem bits_le : qfc.bits ≤ 56 := h.zeroed.geometry.slotBits

theorem outside (x : Bool) (b : Nat) (hb : qfc.metadata.nslots ≤ b) : D x b = [] :=
  (h.wf x).outside b (by rw [h.nslots x]; exact hb)

theorem mem_items {b : Nat} {it : Item} : (b, it) ∈ mergeItems inputs D x ↔ it ∈ D x b :=
  Contents.mem_itemsFrom_zero (h.wf x).outside

theorem stored (he : e ∈ mergeItems inputs D x) : e.2.Stored qfc.metadata := by
  have hmem := h.mem_items.mp (show (e.1, e.2) ∈ mergeItems inputs D x from he)
  have hw : (inputs x).metadata.bitsPerSlot = qfc.metadata.bitsPerSlot := h.bits x
  have hq : (inputs x).metadata.quotientBits = qfc.metadata.quotientBits := h.qbits x
  have hfit := (h.wf x).fingerprint e.1 e.2 hmem
  have hbd := (h.wf x).bounded e.1 e.2 hmem
  rw [Item.Fits, hw, hq] at hfit
  rw [QF.bits, hw] at hbd
  exact ⟨hbd, hfit, h.counts x e.1 e.2 hmem⟩

theorem count_lt (he : e ∈ mergeItems inputs D x) : e.2.count qfc.bits < 2^64 := by
  have hw := h.bits_ge
  rcases (h.stored he).counts with hc | ⟨c, h0, hc, hd⟩
  · have hone : e.2.count qfc.bits = 1 := if_pos hc
    omega
  · have hcount := Item.count_withCounter_digits (w := qfc.bits) (by omega) h0 hc e.2
    have hd' : e.2.cnt = Nat.digits (2^qfc.bits) c := hd
    rw [← hd'] at hcount
    exact (show e.2.count qfc.bits = c from hcount) ▸ hc

/-- What is written takes no more slots than the items have. -/
theorem lens_melded_le (b : Nat) : (gather (melded qfc.bits (mergeItems inputs D))).lens b ≤
    Contents.lens (fun b => D false b ++ D true b) b := by
  have hw := h.bits_ge
  have hgather : ∀ x, gather (mergeItems inputs D x) = D x :=
    fun x => gather_itemsFrom (h.wf x).outside
  have hlens : Contents.lens (fun b => D false b ++ D true b) b = (D false).lens b +
      (D true).lens b :=
    itemsLen_append ..
  rw [hlens, ← hgather false, ← hgather true, lens_gather, lens_gather, lens_gather]
  refine sum_meld_le (fun e he => ?_) fun e he f hf hk => ?_
  · have hst : e.2.Stored qfc.metadata :=
      (List.mem_append.mp he).elim (fun he => h.stored he) fun he => h.stored he
    have hlen := len_mergedOne hst.counts (by omega : 0 < qfc.bits)
    show (if e.1 = b then (mergedOne qfc.bits e).2.len else 0) ≤ _
    split <;> omega
  · have hlen := len_mergedTwo (h.stored he).counts (h.stored hf).counts hw
    have hfst := fst_eq_of_key hk
    show (if e.1 = b then (mergedTwo qfc.bits e f).2.len else 0) ≤ _
    rw [← hfst]
    split
    · exact hlen
    · exact Nat.zero_le _

theorem length_items_le :
    (mergeItems inputs D false).length + (mergeItems inputs D true).length ≤ qfc.xnslots := by
  have hlen := length_itemsFrom_le (A := D false) (B := D true) (n := qfc.metadata.nslots)
    (fun _ => rfl) (Nat.zero_le _)
  have hroom := h.room
  rw [mergeItems, mergeItems, h.nslots, h.nslots]
  omega

end MergeSetting

end AdaptiveQF
