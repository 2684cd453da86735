import MetamathKnife.Formula.Builder

/-!
# Substitution

`substitute(substitutions)` rebuilds a formula in a fresh `FormulaBuilder`: a variable node
that the substitutions bind is replaced by a copy of its formula (`copy_sub_formula`), and
every other node is rebuilt over its children, substituted. The tree it yields is the
reference substitution `Term.subst` of the formula's tree:

* `copySubFormula_pushes`, `subSubstitute_pushes`: each call leaves exactly one more entry on
  the builder's stack, whose tree is the copied, or the substituted, tree below its node (by
  induction over the node, the children's calls being the loop of `forChildren_reduce`);
* `substitute_ok`, `view_of_substitute`: so `build` finds one root and does not panic, and the
  result has the typecode of the formula and the substituted tree (together, `substitute_spec`).
-/

namespace MetamathKnife

open Verify (Fault ok_bind)

namespace Term

variable {L J : Type}

mutual
/-- The reference substitution: a variable node whose label `σ` binds becomes `σ`'s tree;
every other node keeps its label (through `into`), its flag and its children, substituted. -/
def subst (into : L → J) (σ : L → Option (Term (J × Bool))) : Term (L × Bool) → Term (J × Bool)
  | node (l, v) cs => (if v then σ l else none).getD (node (into l, v) (substList into σ cs))
/-- `subst` on each tree of a list. -/
def substList (into : L → J) (σ : L → Option (Term (J × Bool))) :
    List (Term (L × Bool)) → List (Term (J × Bool))
  | [] => []
  | t :: ts => subst into σ t :: substList into σ ts
end

@[simp] theorem substList_eq (into : L → J) (σ : L → Option (Term (J × Bool)))
    (ts : List (Term (L × Bool))) : substList into σ ts = ts.map (subst into σ) := by
  induction ts with
  | nil => rfl
  | cons t ts ih => rw [substList, ih, List.map_cons]

theorem subst_node (into : L → J) (σ : L → Option (Term (J × Bool))) (l : L) (v : Bool)
    (cs : List (Term (L × Bool))) :
    (node (l, v) cs).subst into σ =
      (if v then σ l else none).getD (node (into l, v) (cs.map (subst into σ))) := by
  rw [subst, substList_eq]

end Term

namespace Formula

variable {L J : Type} [Inhabited L] [Inhabited J]

/-- `copy_sub_formula(node_id, formula_builder)`: the tree below the node, rebuilt with its
labels and variable flags. -/
def copySubFormula (F : Formula L) (n : Nat) (fb : FormulaBuilder L) :
    Except Fault (FormulaBuilder L) := do
  let (fb, childrenCount) ← FormulaBuilder.forChildren (F.tree.childrenIter n)
    (fun c _ fb => F.copySubFormula c fb) fb
  fb.reduce (F.tree.label n) childrenCount 0 (F.isVariable n)
termination_by n
decreasing_by exact F.tree.lt_of_mem_childrenIter ‹_›

/-- `sub_substitute(node_id, substitutions, formula_builder)`. -/
def subSubstitute (F : Formula L) (subs : Substitutions L J) (into : L → J) (n : Nat)
    (fb : FormulaBuilder J) : Except Fault (FormulaBuilder J) :=
  match F.isVariable n, subs.get (F.tree.label n) with
  | true, some formula => formula.copySubFormula formula.root fb
  | _, _ => do
    let (fb, childrenCount) ← FormulaBuilder.forChildren (F.tree.childrenIter n)
      (fun c _ fb => F.subSubstitute subs into c fb) fb
    fb.reduce (into (F.tree.label n)) childrenCount 0 (F.isVariable n)
termination_by n
decreasing_by exact F.tree.lt_of_mem_childrenIter ‹_›

/-- `substitute(substitutions)`: the formula rebuilt with the substitutions made, its labels
converted by `into`. -/
def substitute (F : Formula L) (subs : Substitutions L J) (into : L → J) :
    Except Fault (Formula J) := do
  let fb ← F.subSubstitute subs into F.root default
  fb.build F.typecode

/-- Each call of `copy_sub_formula` leaves one more entry, the tree below its node. -/
theorem copySubFormula_pushes (F : Formula L) (n : Nat) :
    FormulaBuilder.Pushes F.copySubFormula F.nodeView n := by
  induction n using Nat.strong_induction_on with
  | _ n ih =>
    intro fb
    obtain ⟨fb', h, hle, r, hst, hr⟩ := FormulaBuilder.forChildren_reduce
      (fun c hc => ih c (F.tree.lt_of_mem_childrenIter hc)) (F.arity_le n) (F.tree.label n)
      (F.isVariable n) fb
    exact ⟨fb', by rw [copySubFormula]; exact h, hle, r, hst, by rw [hr, nodeView_eq]⟩

/-- Each call of `sub_substitute` leaves one more entry, the substituted tree below its node. -/
theorem subSubstitute_pushes (F : Formula L) (subs : Substitutions L J) (into : L → J)
    (n : Nat) :
    FormulaBuilder.Pushes (F.subSubstitute subs into) (fun n => (F.nodeView n).subst into subs.view)
      n := by
  induction n using Nat.strong_induction_on with
  | _ n ih =>
    intro fb
    dsimp only
    rw [nodeView_eq, Term.subst_node]
    obtain ⟨fb', h, hle, r, hst, hr⟩ := FormulaBuilder.forChildren_reduce
      (fun c hc => ih c (F.tree.lt_of_mem_childrenIter hc)) (F.arity_le n)
      (into (F.tree.label n)) (F.isVariable n) fb
    cases hv : F.isVariable n <;> rw [hv] at h
    · exact ⟨fb', by rw [subSubstitute.eq_def, hv]; exact h, hle, r, hst, by simp [hr, hv]⟩
    cases hs : subs.get (F.tree.label n) with
    | none =>
      exact ⟨fb', by rw [subSubstitute.eq_def, hv, hs]; exact h, hle, r, hst,
        by simp [hr, hv, Substitutions.view, hs]⟩
    | some G =>
      obtain ⟨fb', h, hle, r, hst, hr⟩ := G.copySubFormula_pushes G.root fb
      exact ⟨fb', by rw [subSubstitute.eq_def, hv, hs]; exact h, hle, r, hst,
        by simp [hr, Substitutions.view, hs, view]⟩

/-- `substitute` does not panic: the builder ends with one root. -/
theorem substitute_ok (F : Formula L) (subs : Substitutions L J) (into : L → J) :
    ∃ G, F.substitute subs into = .ok G := by
  obtain ⟨fb, h, -, r, hst, -⟩ := F.subSubstitute_pushes subs into F.root default
  obtain ⟨G, hG, -, -⟩ := fb.build_spec F.typecode (r := r) (by simpa using hst)
  exact ⟨G, by rw [substitute, h, ok_bind, hG]⟩

/-- What `substitute` returns has the formula's typecode and, as its tree, the reference
substitution of the formula's tree. -/
theorem view_of_substitute {F : Formula L} {subs : Substitutions L J} {into : L → J}
    {G : Formula J} (hG : F.substitute subs into = .ok G) :
    G.typecode = F.typecode ∧ G.view = F.view.subst into subs.view := by
  obtain ⟨fb, h, -, r, hst, hr⟩ := F.subSubstitute_pushes subs into F.root default
  obtain ⟨G', hG', htc, hv⟩ := fb.build_spec F.typecode (r := r) (by simpa using hst)
  rw [substitute, h, ok_bind, hG'] at hG
  cases hG
  exact ⟨htc, hv.trans hr⟩

/-- **`substitute` does not panic, and substitutes**: the builder ends with one root, and the
formula built has the typecode of the formula and, as its tree, the reference substitution of
the formula's tree, a bound variable node becoming its formula's tree with that tree's labels,
order and variable flags. -/
theorem substitute_spec (F : Formula L) (subs : Substitutions L J) (into : L → J) :
    ∃ G, F.substitute subs into = .ok G ∧ G.typecode = F.typecode ∧
      G.view = F.view.subst into subs.view := by
  obtain ⟨G, hG⟩ := F.substitute_ok subs into
  exact ⟨G, hG, view_of_substitute hG⟩

end Formula

end MetamathKnife
