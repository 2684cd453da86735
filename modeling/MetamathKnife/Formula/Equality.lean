import MetamathKnife.Formula.Builder

/-!
# Equality of formulas

`PartialEq for Formula` is `sub_eq` at the two roots: true at once when both formulas are at
the same node of one tree, and otherwise when the labels agree, both nodes have children or
neither has, and the children `zip` pairs up are equal in turn.

* `subEq_eq_zipEq`: `sub_eq` is the comparison `Term.zipEq` of the two trees. The shortcut
  changes nothing, a node being `zipEq` to itself;
* `beq_spec`: so `==` is reflexive and symmetric, and, when every label has one number of
  children across the formulas compared (as in formulas parsed with one grammar), it is the
  equality of the trees, hence transitive;
* `beq_ignores_extra_children`: without that premise `sub_eq` looks at no child past the
  shorter list, so that `f(x, y) == f(x)`, `f(x) == f(x, z)` and not `f(x, y) == f(x, z)`.
-/

namespace MetamathKnife

instance {L : Type} [DecidableEq L] : DecidableEq (Tree L) := fun s t =>
  decidable_of_iff (s.nodes = t.nodes) ⟨fun h => by cases s; cases t; cases h; rfl, congrArg _⟩

theorem all_map_comp {α β : Type} (f : α → β) (p : β → Bool) (l : List α) :
    (l.map f).all p = l.all (p ∘ f) := by
  induction l with
  | nil => rfl
  | cons a l ih => rw [List.map_cons, List.all_cons, List.all_cons, ih]; rfl

theorem all_zip_attach (l l' : List Nat) (f : Nat → Nat → Bool) :
    (l.attach.zip l').all (fun p => f p.1.1 p.2) = (l.zip l').all (fun p => f p.1 p.2) := by
  conv_rhs => rw [← List.attach_map_subtype_val l, List.zip_map_left, all_map_comp]
  rfl

theorem all_congr_mem {α : Type} {l : List α} {p q : α → Bool} (h : ∀ x ∈ l, p x = q x) :
    l.all p = l.all q := by
  induction l with
  | nil => rfl
  | cons a l ih =>
    rw [List.all_cons, List.all_cons, h a (List.mem_cons_self _ _),
      ih fun x hx => h x (List.mem_cons_of_mem _ hx)]

theorem isEmpty_map {α β : Type} (f : α → β) (l : List α) : (l.map f).isEmpty = l.isEmpty := by
  cases l <;> rfl

namespace Formula

variable {L : Type} [Inhabited L]

theorem strip_nodeView (F : Formula L) (n : Nat) :
    (F.nodeView n).strip =
      .node (F.tree.label n) ((F.tree.childrenIter n).map fun c => (F.nodeView c).strip) := by
  rw [nodeView_eq]
  simp only [Term.strip, Term.map_node, List.map_map]
  rfl

variable [DecidableEq L]

/-- `sub_eq(node_id, other, other_node_id)`. -/
def subEq (F : Formula L) (n : Nat) (G : Formula L) (m : Nat) : Bool :=
  (decide (F.tree = G.tree) && n == m) ||
    (F.tree.label n == G.tree.label m && F.tree.hasChildren n == G.tree.hasChildren m &&
      ((F.tree.childrenIter n).attach.zip (G.tree.childrenIter m)).all
        fun p => F.subEq p.1.1 G p.2)
termination_by n
decreasing_by exact F.tree.lt_of_mem_childrenIter p.1.2

/-- `PartialEq for Formula`: `sub_eq` at the two roots. -/
instance : BEq (Formula L) := ⟨fun F G => F.subEq F.root G G.root⟩

/-- **`sub_eq` compares the trees below the two nodes by `zipEq`.** -/
theorem subEq_eq_zipEq (F G : Formula L) (n m : Nat) :
    F.subEq n G m = Term.zipEq (F.nodeView n).strip (G.nodeView m).strip := by
  induction n using Nat.strong_induction_on generalizing m with
  | _ n ih =>
    have hcmp : (F.tree.label n == G.tree.label m && F.tree.hasChildren n == G.tree.hasChildren m &&
        ((F.tree.childrenIter n).attach.zip (G.tree.childrenIter m)).all
          fun p => F.subEq p.1.1 G p.2) = Term.zipEq (F.nodeView n).strip (G.nodeView m).strip := by
      rw [all_zip_attach _ _ (fun c d => F.subEq c G d), strip_nodeView, strip_nodeView,
        Term.zipEq_node, Term.zipEqList_eq_all, List.zip_map, all_map_comp, isEmpty_map, isEmpty_map]
      congr 1
      · simp only [Tree.hasChildren]
        cases (F.tree.childrenIter n).isEmpty <;> cases (G.tree.childrenIter m).isEmpty <;> rfl
      · exact all_congr_mem fun p hp =>
          ih p.1 (F.tree.lt_of_mem_childrenIter (List.of_mem_zip hp).1) p.2
    rw [subEq, hcmp]
    cases hs : (decide (F.tree = G.tree) && n == m)
    · rfl
    · simp only [Bool.and_eq_true, decide_eq_true_eq, beq_iff_eq] at hs
      obtain ⟨ht, rfl⟩ := hs
      rw [Bool.true_or, nodeView, nodeView, ht, Tree.strip_view G.tree F.vars G.vars n,
        Term.zipEq_self]

theorem beq_eq_zipEq (F G : Formula L) : (F == G) = Term.zipEq F.view.strip G.view.strip :=
  subEq_eq_zipEq F G F.root G.root

/-- **`==` on formulas**: reflexive and symmetric, and, when every label has one number of
children across the formulas compared, the equality of their trees, hence transitive. -/
theorem beq_spec (ar : L → Nat) :
    (∀ A : Formula L, (A == A) = true) ∧ (∀ A B : Formula L, (A == B) = (B == A)) ∧
    (∀ A B : Formula L, A.view.strip.HasArity ar → B.view.strip.HasArity ar →
      ((A == B) = true ↔ A.view.strip = B.view.strip)) ∧
    (∀ A B C : Formula L, A.view.strip.HasArity ar → B.view.strip.HasArity ar →
      C.view.strip.HasArity ar → (A == B) = true → (B == C) = true → (A == C) = true) := by
  have hiff : ∀ A B : Formula L, A.view.strip.HasArity ar → B.view.strip.HasArity ar →
      ((A == B) = true ↔ A.view.strip = B.view.strip) := fun A B hA hB => by
    rw [beq_eq_zipEq]; exact Term.zipEq_iff_eq _ _ hA hB
  refine ⟨fun A => by rw [beq_eq_zipEq, Term.zipEq_self], fun A B => by
    rw [beq_eq_zipEq, beq_eq_zipEq, Term.zipEq_comm], hiff, fun A B C hA hB hC hAB hBC => ?_⟩
  exact (hiff A C hA hC).mpr (((hiff A B hA hB).mp hAB).trans ((hiff B C hB hC).mp hBC))

end Formula

/-! ## Formulas whose labels have several numbers of children -/

/-- A formula over `Nat` labels of a tree of its own, rooted at its last node, with the
variable nodes `vars`. -/
def Formula.ofNodes (nodes : List (Nat × List Nat)) (vars : Bitset)
    (h : ∀ i (hi : i < nodes.length), ∀ c ∈ (nodes.get ⟨i, hi⟩).2, c < i)
    (hroot : nodes.length - 1 < nodes.length)
    (harity : ∀ i < nodes.length, ((⟨nodes, h⟩ : Tree Nat).childrenIter i).length ≤ 255) :
    Formula Nat :=
  ⟨0, ⟨nodes, h⟩, nodes.length - 1, vars, hroot,
    @Tree.forall_childrenIter Nat ⟨nodes, h⟩ (fun l => l.length ≤ 255) (Nat.zero_le _) harity⟩

/-- `f(x, y)`, the labels `f`, `x`, `y` being `0`, `1`, `2`. -/
def fxy : Formula Nat :=
  .ofNodes [(1, []), (2, []), (0, [0, 1])] .new (by decide) (by decide) (by decide)

/-- `f(x)`. -/
def fx : Formula Nat := .ofNodes [(1, []), (0, [0])] .new (by decide) (by decide) (by decide)

/-- `f(x, z)`, `z` being `3`. -/
def fxz : Formula Nat :=
  .ofNodes [(1, []), (3, []), (0, [0, 1])] .new (by decide) (by decide) (by decide)

/-- The builder's run for `f(x, y)`: `x` and `y` pushed, then `f` reduced over both. -/
def buildFxy : Except Verify.Fault (Formula Nat) := do
  let fb ← (default : FormulaBuilder Nat).reduce 1 0 0 false
  let fb ← fb.reduce 2 0 0 false
  let fb ← fb.reduce 0 2 0 false
  fb.build 0

/-- The builder's run for `f(x)`. -/
def buildFx : Except Verify.Fault (Formula Nat) := do
  let fb ← (default : FormulaBuilder Nat).reduce 1 0 0 false
  let fb ← fb.reduce 0 1 0 false
  fb.build 0

/-- The builder's run for `f(x, z)`. -/
def buildFxz : Except Verify.Fault (Formula Nat) := do
  let fb ← (default : FormulaBuilder Nat).reduce 1 0 0 false
  let fb ← fb.reduce 3 0 0 false
  let fb ← fb.reduce 0 2 0 false
  fb.build 0

/-- `FormulaBuilder::build` makes `f(x, y)`, `f(x)` and `f(x, z)`; `f(x, y) == f(x)` and
`f(x) == f(x, z)`, though the trees differ, and not `f(x, y) == f(x, z)`. -/
theorem beq_ignores_extra_children :
    buildFxy = .ok fxy ∧ buildFx = .ok fx ∧ buildFxz = .ok fxz ∧
    (fxy == fx) = true ∧ fxy.view.strip ≠ fx.view.strip ∧ (fx == fxz) = true ∧
      (fxy == fxz) = false := by
  refine ⟨rfl, rfl, rfl, ?_⟩
  simp [Formula.beq_eq_zipEq, Formula.view, Formula.nodeView, Tree.view_eq, fxy, fx, fxz,
    Formula.ofNodes, Tree.label, Tree.childrenIter]

end MetamathKnife
