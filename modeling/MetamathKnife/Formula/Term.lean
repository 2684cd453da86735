import Mathlib.Data.List.Basic

/-!
# Labelled ordered trees

What a formula denotes: a tree of labels, each node with its children in order. A formula of
`formula.rs` is a node of a shared arena (`Tree`); `Tree.view` reads the tree below a node as a
`Term`, and the theorems about formulas are stated over these trees:

* `zipEq`: the comparison `sub_eq` makes, read on trees: labels agree, both nodes have children
  or neither has, and the children it pairs up (`zip`) agree. With one number of children per
  label (`HasArity`) it is equality (`zipEq_iff_eq`);
* the label trees of formulas carry a variable flag on each node (`Term (L × Bool)`); `strip`
  forgets it.

Functions over trees recurse over a node and the list of its children together (`map` and
`mapList`), so that they compute by `decide`.
-/

namespace MetamathKnife

/-- A labelled ordered tree. -/
inductive Term (α : Type) where
  | node (a : α) (children : List (Term α))
  deriving Repr

namespace Term

variable {α β γ : Type}

/-- The label of the root. -/
def label : Term α → α
  | node a _ => a

/-- The children of the root. -/
def children : Term α → List (Term α)
  | node _ cs => cs

@[simp] theorem label_node (a : α) (cs : List (Term α)) : (node a cs).label = a := rfl

@[simp] theorem children_node (a : α) (cs : List (Term α)) : (node a cs).children = cs := rfl

instance [Inhabited α] : Inhabited (Term α) := ⟨node default []⟩

mutual
/-- Equality of trees is decidable. -/
def decEq [DecidableEq α] : (s t : Term α) → Decidable (s = t)
  | node a cs, node b ds =>
    if h : a = b then
      match decEqList cs ds with
      | isTrue h' => isTrue (by rw [h, h'])
      | isFalse h' => isFalse fun e => by cases e; exact h' rfl
    else isFalse fun e => by cases e; exact h rfl
/-- Equality of lists of trees is decidable. -/
def decEqList [DecidableEq α] : (s t : List (Term α)) → Decidable (s = t)
  | [], [] => isTrue rfl
  | [], _ :: _ => isFalse nofun
  | _ :: _, [] => isFalse nofun
  | s :: ss, t :: ts =>
    match decEq s t, decEqList ss ts with
    | isTrue h, isTrue h' => isTrue (by rw [h, h'])
    | isFalse h, _ => isFalse fun e => by cases e; exact h rfl
    | _, isFalse h' => isFalse fun e => by cases e; exact h' rfl
end

instance [DecidableEq α] : DecidableEq (Term α) := decEq

/-! ## Relabelling -/

mutual
/-- The tree with every label mapped by `f`. -/
def map (f : α → β) : Term α → Term β
  | node a cs => node (f a) (mapList f cs)
/-- `map` on each tree of a list. -/
def mapList (f : α → β) : List (Term α) → List (Term β)
  | [] => []
  | t :: ts => map f t :: mapList f ts
end

@[simp] theorem mapList_eq (f : α → β) (ts : List (Term α)) : mapList f ts = ts.map (map f) := by
  induction ts with
  | nil => rfl
  | cons t ts ih => rw [mapList, ih, List.map_cons]

@[simp] theorem map_node (f : α → β) (a : α) (cs : List (Term α)) :
    (node a cs).map f = node (f a) (cs.map (map f)) := by
  rw [map, mapList_eq]

/-- A formula's tree without its variable flags. -/
abbrev strip (t : Term (α × Bool)) : Term α := t.map Prod.fst

/-! ## One number of children per label -/

/-- Every node labelled `a` has `ar a` children. -/
inductive HasArity (ar : α → Nat) : Term α → Prop
  | node {a : α} {cs : List (Term α)} :
    cs.length = ar a → (∀ c ∈ cs, HasArity ar c) → HasArity ar (node a cs)

@[simp] theorem hasArity_node_iff {ar : α → Nat} {a : α} {cs : List (Term α)} :
    HasArity ar (Term.node a cs) ↔ cs.length = ar a ∧ ∀ c ∈ cs, HasArity ar c :=
  ⟨fun h => by cases h with | node hl hc => exact ⟨hl, hc⟩, fun h => .node h.1 h.2⟩

theorem HasArity.length_eq {ar : α → Nat} {a : α} {cs : List (Term α)}
    (h : HasArity ar (Term.node a cs)) : cs.length = ar a := by
  cases h; assumption

theorem HasArity.of_mem {ar : α → Nat} {a : α} {cs : List (Term α)}
    (h : HasArity ar (Term.node a cs)) {c : Term α} (hc : c ∈ cs) : HasArity ar c := by
  cases h with
  | node _ h => exact h c hc

/-! ## The comparison of `sub_eq` -/

mutual
/-- `sub_eq` on trees: the labels agree, both roots have children or neither has, and the
children `zip` pairs up agree. -/
def zipEq [DecidableEq α] : Term α → Term α → Bool
  | node a cs, node b ds => decide (a = b) && (cs.isEmpty == ds.isEmpty) && zipEqList cs ds
/-- `zipEq` on the pairs `zip` makes, the longer list's extra trees left out. -/
def zipEqList [DecidableEq α] : List (Term α) → List (Term α) → Bool
  | [], _ => true
  | _ :: _, [] => true
  | c :: cs, d :: ds => zipEq c d && zipEqList cs ds
end

section ZipEq

variable [DecidableEq α]

@[simp] theorem zipEq_node (a b : α) (cs ds : List (Term α)) :
    zipEq (node a cs) (node b ds) =
      (decide (a = b) && (cs.isEmpty == ds.isEmpty) && zipEqList cs ds) := by
  rw [zipEq]

@[simp] theorem zipEqList_cons (c d : Term α) (cs ds : List (Term α)) :
    zipEqList (c :: cs) (d :: ds) = (zipEq c d && zipEqList cs ds) := by
  rw [zipEqList]

@[simp] theorem zipEqList_nil_left (ds : List (Term α)) : zipEqList [] ds = true := by
  rw [zipEqList]

@[simp] theorem zipEqList_nil_right (cs : List (Term α)) : zipEqList cs [] = true := by
  cases cs <;> rw [zipEqList]

/-- `zipEqList` is `zipEq` over the pairs `zip` makes. -/
theorem zipEqList_eq_all : ∀ (cs ds : List (Term α)),
    zipEqList cs ds = (cs.zip ds).all fun p => zipEq p.1 p.2
  | [], _ => by simp
  | _ :: _, [] => by simp
  | c :: cs, d :: ds => by simp [zipEqList_eq_all cs ds]

mutual
theorem zipEq_self : (t : Term α) → zipEq t t = true
  | node a cs => by simp [zipEqList_self cs]
theorem zipEqList_self : (ts : List (Term α)) → zipEqList ts ts = true
  | [] => rfl
  | t :: ts => by simp [zipEq_self t, zipEqList_self ts]
end

mutual
theorem zipEq_comm : (s t : Term α) → zipEq s t = zipEq t s
  | node a cs, node b ds => by
    simp only [zipEq_node, zipEqList_comm cs ds, @eq_comm _ a b, Bool.beq_comm]
theorem zipEqList_comm : (ss ts : List (Term α)) → zipEqList ss ts = zipEqList ts ss
  | [], ts => by simp
  | ss, [] => by simp
  | s :: ss, t :: ts => by simp only [zipEqList_cons, zipEq_comm s t, zipEqList_comm ss ts]
end

mutual
/-- With one number of children per label, `zipEq` is equality: the children lists it zips
have the same length. -/
theorem zipEq_iff_eq {ar : α → Nat} :
    (s t : Term α) → HasArity ar s → HasArity ar t → (zipEq s t = true ↔ s = t)
  | node a cs, node b ds, hs, ht => by
    simp only [zipEq_node, Bool.and_eq_true, decide_eq_true_eq, node.injEq]
    constructor
    · rintro ⟨⟨rfl, -⟩, h⟩
      exact ⟨rfl, (zipEqList_iff_eq cs ds (hs.length_eq.trans ht.length_eq.symm)
        (fun _ hc => hs.of_mem hc) (fun _ hd => ht.of_mem hd)).mp h⟩
    · rintro ⟨rfl, rfl⟩
      exact ⟨⟨rfl, beq_self_eq_true _⟩, zipEqList_self cs⟩
theorem zipEqList_iff_eq {ar : α → Nat} :
    (ss ts : List (Term α)) → ss.length = ts.length → (∀ s ∈ ss, HasArity ar s) →
      (∀ t ∈ ts, HasArity ar t) → (zipEqList ss ts = true ↔ ss = ts)
  | [], [], _, _, _ => by simp
  | s :: ss, t :: ts, hl, hs, ht => by
    rw [zipEqList_cons, Bool.and_eq_true, List.cons.injEq,
      zipEq_iff_eq s t (hs s (List.mem_cons_self _ _)) (ht t (List.mem_cons_self _ _)),
      zipEqList_iff_eq ss ts (Nat.succ.inj hl) (fun x hx => hs x (List.mem_cons_of_mem _ hx))
        (fun x hx => ht x (List.mem_cons_of_mem _ hx))]
end

end ZipEq

end Term

end MetamathKnife
