import MetamathKnife.Formula.Tree
import Mathlib.Logic.Function.Iterate

/-!
# Iterating the labels of a formula

`Formula::labels_iter` returns a `LabelIter`: the formula, a stack of sibling iterators and the
root while it is not visited. Its `next` visits the root first; afterwards it takes the next node
of the sibling iterator on top of the stack, popping the iterators that are done, and visiting a
node pushes the iterator of its children. The doc comment of `labels_iter` says pre-order and
the one of `LabelIter` says post-order; the code enumerates in pre-order:

* `next_pending`: `next` yields the first entry of `pending` (the pre-order of the root while it
  is not visited, then of each sibling left on the stack, top first) and leaves the rest;
* `labelsIter_spec`: call `k` of `next` on `labels_iter` yields the `k`-th node of the formula's
  tree in pre-order, with its variable flag, and `None` once they are all yielded.
-/

namespace MetamathKnife

namespace Term

variable {α : Type}

mutual
/-- The labels of a tree in pre-order: the root's, then each child's tree's, left to right. -/
def preorder : Term α → List α
  | node a cs => a :: preorderList cs
/-- The pre-orders of a list of trees, concatenated. -/
def preorderList : List (Term α) → List α
  | [] => []
  | c :: cs => c.preorder ++ preorderList cs
end

@[simp] theorem preorderList_eq (cs : List (Term α)) : preorderList cs = cs.flatMap preorder := by
  induction cs with
  | nil => rfl
  | cons c cs ih => rw [preorderList, ih, List.flatMap_cons]

@[simp] theorem preorder_node (a : α) (cs : List (Term α)) :
    (node a cs).preorder = a :: cs.flatMap preorder := by
  rw [preorder, preorderList_eq]

end Term

/-- `LabelIter`: the formula, the stack of sibling iterators (`SiblingIter`: the children left to
visit; the top of the stack, the vector's last element, first), and the root while it is not
visited. -/
structure LabelIter (L : Type) where
  formula : Formula L
  stack : List (List Nat)
  root : Option Nat

/-- `Formula::labels_iter`. -/
def Formula.labelsIter {L : Type} (F : Formula L) : LabelIter L := ⟨F, [], some F.root⟩

namespace LabelIter

variable {L : Type} [Inhabited L]

/-- `visit_children(node_id)`: push the iterator of the node's children; the node's label and
whether it is a variable. -/
def visitChildren (it : LabelIter L) (nodeId : Nat) : (L × Bool) × LabelIter L :=
  ((it.formula.tree.label nodeId, it.formula.isVariable nodeId),
    { it with stack := it.formula.tree.childrenIter nodeId :: it.stack })

/-- The loop of `next` on the stack `stack`: the next node of the iterator on top, visited, or,
if that iterator is done, the same on the stack below it; `None` once the stack is empty. -/
def nextInStack (it : LabelIter L) : List (List Nat) → Option (L × Bool) × LabelIter L
  | [] => (none, { it with stack := [] })
  | (nodeId :: iter) :: rest =>
    let r := ({ it with stack := iter :: rest } : LabelIter L).visitChildren nodeId
    (some r.1, r.2)
  | [] :: rest => it.nextInStack rest

/-- `LabelIter::next`. -/
def next (it : LabelIter L) : Option (L × Bool) × LabelIter L :=
  match it.root with
  | some nodeId =>
    let r := ({ it with root := none } : LabelIter L).visitChildren nodeId
    (some r.1, r.2)
  | none => it.nextInStack it.stack

/-- What is left to yield: the pre-order of the root while it is not visited, then of every
sibling left on the stack, from the top down. -/
def pending (it : LabelIter L) : List (L × Bool) :=
  (it.root.toList ++ it.stack.flatten).flatMap fun n => (it.formula.nodeView n).preorder

theorem pending_cons_cons (it : LabelIter L) (hroot : it.root = none) (nodeId : Nat)
    (iter : List Nat) (rest : List (List Nat)) :
    ({ it with stack := (nodeId :: iter) :: rest } : LabelIter L).pending =
      (it.formula.nodeView nodeId).preorder ++
        ({ it with stack := iter :: rest } : LabelIter L).pending := by
  simp [pending, hroot]

/-- Visiting a node yields its label and flag, followed by its children's pre-orders, then what
was left. -/
theorem visitChildren_pending (it : LabelIter L) (hroot : it.root = none) (nodeId : Nat) :
    (it.visitChildren nodeId).1 :: (it.visitChildren nodeId).2.pending =
      (it.formula.nodeView nodeId).preorder ++ it.pending := by
  rw [Formula.nodeView_eq, Term.preorder_node]
  simp [visitChildren, pending, hroot, List.flatMap_map, Function.comp_def]

theorem nextInStack_pending (it : LabelIter L) (hroot : it.root = none) :
    ∀ stack : List (List Nat),
      (it.nextInStack stack).1 = ({ it with stack } : LabelIter L).pending.head? ∧
        (it.nextInStack stack).2.pending = ({ it with stack } : LabelIter L).pending.tail
  | [] => by simp [nextInStack, pending, hroot]
  | (nodeId :: iter) :: rest => by
    rw [pending_cons_cons it hroot,
      ← visitChildren_pending ({ it with stack := iter :: rest } : LabelIter L) hroot nodeId]
    exact ⟨rfl, rfl⟩
  | [] :: rest => by
    rw [show ({ it with stack := [] :: rest } : LabelIter L).pending =
      ({ it with stack := rest } : LabelIter L).pending by simp [pending]]
    exact it.nextInStack_pending hroot rest

/-- **`next` yields the first node of what is left and leaves the rest.** -/
theorem next_pending (it : LabelIter L) :
    it.next.1 = it.pending.head? ∧ it.next.2.pending = it.pending.tail := by
  unfold next
  split
  · rename_i nodeId hroot
    have hp : it.pending = (it.formula.nodeView nodeId).preorder ++
        ({ it with root := none } : LabelIter L).pending := by
      simp [pending, hroot]
    rw [hp, ← visitChildren_pending ({ it with root := none } : LabelIter L) rfl nodeId]
    exact ⟨rfl, rfl⟩
  · rename_i hroot
    exact it.nextInStack_pending hroot it.stack

/-- Call `k` of `next` yields the `k`-th entry of what is left, `None` past its end. -/
theorem next_iterate (it : LabelIter L) (k : Nat) :
    ((fun it : LabelIter L => it.next.2)^[k] it).next.1 = it.pending[k]? := by
  induction k generalizing it with
  | zero => rw [Function.iterate_zero_apply, (next_pending it).1, List.head?_eq_getElem?]
  | succ k ih =>
    rw [Function.iterate_succ_apply, ih, (next_pending it).2, List.getElem?_tail]

end LabelIter

/-- **`labels_iter` enumerates the formula's tree in pre-order**: call `k` of `next` yields the
`k`-th node (its label and whether it is a variable) in pre-order (a node before its children,
children left to right), and every call after the last node yields `None`. -/
theorem Formula.labelsIter_spec {L : Type} [Inhabited L] (F : Formula L) (k : Nat) :
    ((fun it : LabelIter L => it.next.2)^[k] F.labelsIter).next.1 = F.view.preorder[k]? := by
  rw [LabelIter.next_iterate]
  simp [LabelIter.pending, Formula.labelsIter, Formula.view]

end MetamathKnife
