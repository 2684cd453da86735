import MetamathKnife.Formula.Term
import MetamathKnife.Verify.State

/-!
# Trees and formulas

A `Formula` of `formula.rs` is a node (`root`) of a tree shared with other formulas, with the
set of the tree's nodes that are variables. The tree is an append-only arena (`tree.rs`, of
which the sources hold only the callers), so a node's children, added before it, have smaller
ids; `Tree.view` reads the tree below a node, with its variable flags, as a `Term`. The
theorems about formulas are stated over these views:

* `Tree.view_eq`: a node's view is its label and flag over its children's views;
* `Tree.view_congr`: a view reads only the nodes up to its root, so growing the arena or the
  variable set beyond the nodes of a view does not change it.

`bit_set::Bitset` (bit_set.rs is not among the sources either) has the contract of the
`Bitset` of `verify.rs`, which models it.
-/

namespace MetamathKnife

open Verify (Fault)

/-- `nameck::Atom`: an interned name. -/
abbrev Atom := Nat

/-- `TypeCode`: the atom of a typecode. -/
abbrev TypeCode := Atom

/-- Modelled from the spec: `tree::Tree`, an append-only arena written by
`add_node(label, children)`. Node `i` (a `NodeId`) is the `i`-th added, with its label and the
ids of its children, each added before it. -/
structure Tree (L : Type) where
  nodes : List (L × List Nat)
  child_lt : ∀ i (h : i < nodes.length), ∀ c ∈ (nodes.get ⟨i, h⟩).2, c < i

namespace Tree

variable {L : Type}

/-- The number of nodes. -/
def size (t : Tree L) : Nat := t.nodes.length

/-- `Tree::default()`, the empty arena. -/
instance : Inhabited (Tree L) := ⟨⟨[], nofun⟩⟩

@[simp] theorem size_default : (default : Tree L).size = 0 := rfl

theorem addNode_child_lt (t : Tree L) (label : L) (children : List Nat)
    (h : ∀ c ∈ children, c < t.size) :
    ∀ i (hi : i < (t.nodes ++ [(label, children)]).length),
      ∀ c ∈ ((t.nodes ++ [(label, children)]).get ⟨i, hi⟩).2, c < i := by
  intro i hi c hc
  simp only [List.get_eq_getElem] at hc
  rcases Nat.lt_or_ge i t.nodes.length with hlt | hge
  · rw [List.getElem_append_left hlt] at hc
    exact t.child_lt i hlt c (by simpa using hc)
  · have hi' : i = t.nodes.length := by simp at hi; omega
    subst hi'
    rw [List.getElem_append_right (Nat.le_refl _)] at hc
    exact h c (by simpa using hc)

/-- `add_node(label, children)`: the tree with the new node, and its id. -/
def addNode (t : Tree L) (label : L) (children : List Nat)
    (h : ∀ c ∈ children, c < t.size) : Tree L × Nat :=
  (⟨t.nodes ++ [(label, children)], addNode_child_lt t label children h⟩, t.size)

/-- `children_iter(node_id)`: the children in the order they were given; none past the
arena. -/
def childrenIter (t : Tree L) (n : Nat) : List Nat := (t.nodes[n]?.map Prod.snd).getD []

@[simp] theorem childrenIter_default (n : Nat) : (default : Tree L).childrenIter n = [] := rfl

/-- `tree[node_id]`, the label; an id past the arena, which no formula reaches, reads as
`default`. -/
def label [Inhabited L] (t : Tree L) (n : Nat) : L := (t.nodes[n]?.map Prod.fst).getD default

/-- `has_children(node_id)`. -/
def hasChildren (t : Tree L) (n : Nat) : Bool := !(t.childrenIter n).isEmpty

/-- `nth_child(node_id, index)`. -/
def nthChild (t : Tree L) (n : Nat) (index : Nat) : Option Nat := (t.childrenIter n)[index]?

theorem lt_of_mem_childrenIter (t : Tree L) {n c : Nat} (h : c ∈ t.childrenIter n) : c < n := by
  unfold childrenIter at h
  cases hn : t.nodes[n]? with
  | none => simp [hn] at h
  | some p =>
    obtain ⟨hlt, rfl⟩ := List.getElem?_eq_some_iff.mp hn
    simp only [hn, Option.map_some', Option.getD_some] at h
    exact t.child_lt n hlt c h

theorem childrenIter_of_size_le (t : Tree L) {n : Nat} (h : t.size ≤ n) : t.childrenIter n = [] := by
  simp [childrenIter, List.getElem?_eq_none_iff.mpr h]

/-- A fact of every children list holds of all when it holds of the nodes' and of `[]`. -/
theorem forall_childrenIter (t : Tree L) {P : List Nat → Prop} (hnil : P [])
    (h : ∀ i < t.size, P (t.childrenIter i)) : ∀ n, P (t.childrenIter n) := fun n =>
  if hn : n < t.size then h n hn else t.childrenIter_of_size_le (Nat.le_of_not_lt hn) ▸ hnil

@[simp] theorem size_addNode (t : Tree L) (label : L) (cs : List Nat) (h) :
    (t.addNode label cs h).1.size = t.size + 1 := by
  simp [addNode, size]

@[simp] theorem id_addNode (t : Tree L) (label : L) (cs : List Nat) (h) :
    (t.addNode label cs h).2 = t.size := rfl

theorem getElem?_addNode (t : Tree L) (label : L) (cs : List Nat) (h) (n : Nat) :
    (t.addNode label cs h).1.nodes[n]? = if n = t.size then some (label, cs) else t.nodes[n]? := by
  simp only [addNode, size]
  split_ifs with hn
  · subst hn; simp
  · rcases Nat.lt_or_ge n t.nodes.length with hlt | hge
    · exact List.getElem?_append_left hlt
    · have hne : n ≠ t.nodes.length := hn
      rw [List.getElem?_append_right hge, List.getElem?_eq_none_iff.mpr hge,
        List.getElem?_eq_none_iff.mpr (by simp; omega)]

@[simp] theorem childrenIter_addNode (t : Tree L) (label : L) (cs : List Nat) (h) (n : Nat) :
    (t.addNode label cs h).1.childrenIter n = if n = t.size then cs else t.childrenIter n := by
  simp only [childrenIter, getElem?_addNode]
  split_ifs <;> simp

@[simp] theorem label_addNode [Inhabited L] (t : Tree L) (label : L) (cs : List Nat) (h)
    (n : Nat) :
    (t.addNode label cs h).1.label n = if n = t.size then label else t.label n := by
  simp only [Tree.label, getElem?_addNode]
  split_ifs <;> simp

/-! ## The tree below a node -/

variable [Inhabited L]

/-- The tree below node `n`, each node flagged by its membership in `vars`. -/
def view (t : Tree L) (vars : Bitset) (n : Nat) : Term (L × Bool) :=
  .node (t.label n, vars.hasBit n) ((t.childrenIter n).attach.map fun c => t.view vars c.1)
termination_by n
decreasing_by exact t.lt_of_mem_childrenIter c.2

theorem view_eq (t : Tree L) (vars : Bitset) (n : Nat) :
    t.view vars n = .node (t.label n, vars.hasBit n) ((t.childrenIter n).map (t.view vars)) := by
  rw [view, List.attach_map_coe]

/-- **A view reads only the nodes up to its root.** -/
theorem view_congr {t t' : Tree L} {vars vars' : Bitset} {b : Nat}
    (hl : ∀ i < b, t'.label i = t.label i) (hc : ∀ i < b, t'.childrenIter i = t.childrenIter i)
    (hv : ∀ i < b, vars'.hasBit i = vars.hasBit i) :
    ∀ n < b, t'.view vars' n = t.view vars n := by
  intro n
  induction n using Nat.strong_induction_on with
  | _ n ih =>
    intro hn
    rw [view_eq, view_eq, hl n hn, hc n hn, hv n hn]
    congr 1
    refine List.map_congr_left fun c hm => ?_
    have hcn := t.lt_of_mem_childrenIter hm
    exact ih c hcn (by omega)

/-- A view's labels and shape do not read the variable set. -/
theorem strip_view (t : Tree L) (vars vars' : Bitset) (n : Nat) :
    (t.view vars n).strip = (t.view vars' n).strip := by
  induction n using Nat.strong_induction_on with
  | _ n ih =>
    rw [view_eq, view_eq]
    simp only [Term.strip, Term.map_node, List.map_map]
    exact congrArg _ (List.map_congr_left fun c hc => ih c (t.lt_of_mem_childrenIter hc))

/-- Adding a node leaves the views of the nodes before it. -/
theorem view_addNode (t : Tree L) (label : L) (cs : List Nat) (h) {vars vars' : Bitset}
    (hv : ∀ i < t.size, vars'.hasBit i = vars.hasBit i) :
    ∀ n < t.size, (t.addNode label cs h).1.view vars' n = t.view vars n :=
  view_congr (fun i hi => by simp [Nat.ne_of_lt hi]) (fun i hi => by simp [Nat.ne_of_lt hi]) hv

end Tree

/-! ## Formulas -/

/-- `Formula<L>`: a typecode, a node `root` of a shared tree, and the set of the tree's nodes
that are variables. A formula is made by `from_float` or by `FormulaBuilder::build` (or shares
the tree of one, `sub_formula`), so its root is a node of its tree and, `reduce` taking its
count of children as a `u8`, no node has more than 255 children. The tree is an `Arc`: two
`Arc`s of one allocation hold one tree, and `Arc::ptr_eq` is read as the equality of the
trees. -/
structure Formula (L : Type) where
  typecode : TypeCode
  tree : Tree L
  root : Nat
  /-- `variables`. -/
  vars : Bitset
  root_lt : root < tree.size
  arity_le : ∀ n, (tree.childrenIter n).length ≤ 255

namespace Formula

variable {L : Type}

/-- `is_variable(node_id)`. -/
def isVariable (F : Formula L) (n : Nat) : Bool := F.vars.hasBit n

/-- `from_float(label, typecode)`: a formula of one node, a variable. -/
def fromFloat (label : L) (typecode : TypeCode) : Formula L :=
  let r := (default : Tree L).addNode label [] nofun
  { typecode, tree := r.1, root := r.2, vars := Bitset.new.setBit r.2
    root_lt := by simp [r]
    arity_le := fun n => by simp only [r, Tree.childrenIter_addNode]; split_ifs <;> simp }

@[simp] theorem typecode_fromFloat (label : L) (typecode : TypeCode) :
    (fromFloat label typecode).typecode = typecode := rfl

/-- `is_singleton()`: the root has no children. -/
def isSingleton (F : Formula L) : Bool := !F.tree.hasChildren F.root

/-- `sub_formula(node_id)`: the formula at another node of the same tree, with the same
typecode and variables. -/
def subFormula (F : Formula L) (n : Nat) (h : n < F.tree.size) : Formula L :=
  { F with root := n, root_lt := h }

variable [Inhabited L]

/-- The tree below node `n` of the formula's tree. -/
def nodeView (F : Formula L) (n : Nat) : Term (L × Bool) := F.tree.view F.vars n

/-- The tree the formula denotes. -/
def view (F : Formula L) : Term (L × Bool) := F.nodeView F.root

theorem nodeView_eq (F : Formula L) (n : Nat) :
    F.nodeView n =
      .node (F.tree.label n, F.isVariable n) ((F.tree.childrenIter n).map F.nodeView) :=
  Tree.view_eq _ _ _

@[simp] theorem view_fromFloat (label : L) (typecode : TypeCode) :
    (fromFloat label typecode).view = .node (label, true) [] := by
  simp [view, nodeView, fromFloat, Tree.view_eq]

@[simp] theorem view_subFormula (F : Formula L) (n : Nat) (h : n < F.tree.size) :
    (F.subFormula n h).view = F.nodeView n := rfl

end Formula

/-- `Substitutions<L, J>`: the formula each label is to be replaced with, a `HashMap`. -/
structure Substitutions (L J : Type) where
  get : L → Option (Formula J)

namespace Substitutions

variable {L J : Type}

/-- `Substitutions::new()`. -/
def new : Substitutions L J := ⟨fun _ => none⟩

/-- `insert(label, formula)`; the value it replaces, which no caller reads, is dropped. -/
def insert [DecidableEq L] (s : Substitutions L J) (label : L) (formula : Formula J) :
    Substitutions L J :=
  ⟨fun l => if l = label then some formula else s.get l⟩

@[simp] theorem get_insert [DecidableEq L] (s : Substitutions L J) (label l : L)
    (formula : Formula J) :
    (s.insert label formula).get l = if l = label then some formula else s.get l := rfl

/-- The trees the labels are to be replaced with. -/
def view [Inhabited J] (s : Substitutions L J) (l : L) : Option (Term (J × Bool)) :=
  (s.get l).map Formula.view

end Substitutions

end MetamathKnife
