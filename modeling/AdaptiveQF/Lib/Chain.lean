import Mathlib.Data.List.InsertIdx

/-! Linked lists in memory. The pointer behind the last node is null, or was never written. To
follow a pointer that leads to no node is undefined. -/

inductive Chain (α : Type*) where
  | null
  | wild
  | node (a : α) (next : Chain α)
deriving DecidableEq

namespace Chain
variable {α : Type*} {c : Chain α} {a : α} {k : Nat}

def toList : Chain α → List α
  | .null => []
  | .wild => []
  | .node a next => a :: next.toList

def Closed : Chain α → Prop
  | .null => True
  | .wild => False
  | .node _ next => next.Closed

def get : Chain α → Nat → Option α
  | .null, _ => none
  | .wild, _ => none
  | .node a _, 0 => some a
  | .node _ next, k+1 => next.get k

def insertAfter (a : α) : Chain α → Nat → Option (Chain α)
  | .null, _ => none
  | .wild, _ => none
  | .node b next, 0 => some (.node b (.node a next))
  | .node b next, k+1 => (next.insertAfter a k).map (.node b)

@[simp] theorem toList_null : (null : Chain α).toList = [] := rfl

@[simp] theorem toList_wild : (wild : Chain α).toList = [] := rfl

@[simp] theorem toList_node (a : α) (c : Chain α) : (node a c).toList = a :: c.toList := rfl

theorem get_eq (c : Chain α) (k : Nat) : c.get k = c.toList[k]? := by
  induction c generalizing k with
  | null => rfl
  | wild => rfl
  | node a next ih =>
    cases k with
    | zero => rfl
    | succ k => exact ih k

theorem insertAfter_eq (hk : k < c.toList.length) :
    ∃ c', c.insertAfter a k = some c' ∧ c'.toList = c.toList.insertIdx (k+1) a := by
  induction c generalizing k with
  | null => simp at hk
  | wild => simp at hk
  | node b next ih =>
    cases k with
    | zero => exact ⟨_, rfl, rfl⟩
    | succ k =>
      obtain ⟨c', h1, h2⟩ := ih (by simpa using hk)
      refine ⟨.node b c', by rw [insertAfter, h1]; rfl, ?_⟩
      rw [toList_node, toList_node, h2, List.insertIdx_succ_cons]

end Chain
