import MetamathKnife.Formula.Substitute
import MetamathKnife.Formula.Equality

/-!
# Unification

`unify(other, substitutions)` matches the pattern `other` against the formula: a variable node
of the pattern is bound to the sub-formula it faces, or, when already bound, compared with its
binding by `sub_eq`; any other node must have the formula's label (through `Into`) and have
children exactly when the formula's node has, and the children `zip` pairs up are unified in
turn, the first failure ending the loop. The substitutions are changed in place, whether the
result is `Ok` or `Err`.

The development reads the unifier on the trees the formulas denote:

* `Term.unifyRef`: the same algorithm on trees, with the substitutions as trees;
* `subUnify_view`: `sub_unify` computes it, node by node (induction over the formula's node,
  the loop over the children being `tryForEach`);
* on trees: the unifier only adds bindings (`unifyRef_extends`); with one number of children
  per label, a success makes the pattern, substituted, the formula (`unifyRef_sound`); with
  variable nodes that are leaves, a substitution that makes the pattern the formula and agrees
  with the bindings makes it succeed (`unifyRef_complete`); a new binding is the subtree of the
  formula at the variable's first occurrence in the pattern (`unifyRef_binds`);
* `unify_spec`: all of it for `unify`;
* `unify_substitute`: unifying `substitute(F, σ)` with `F` succeeds and gives `σ` back on the
  variables of `F`;
* `getByPath_eq`: `get_by_path` reads the label at a path of the tree.
-/

namespace MetamathKnife

open Verify (ok_bind)

namespace Term

variable {α β : Type}

/-! ## Paths -/

/-- The subtree at a path, each entry of the path the index of a child. -/
def getByPath : Term α → List Nat → Option (Term α)
  | t, [] => some t
  | t, k :: p => t.children[k]?.bind fun c => c.getByPath p

@[simp] theorem getByPath_nil (t : Term α) : t.getByPath [] = some t := rfl

theorem getByPath_cons_zero (a : α) (c : Term α) (cs : List (Term α)) (p : List Nat) :
    (node a (c :: cs)).getByPath (0 :: p) = c.getByPath p := by
  simp [getByPath]

theorem getByPath_cons_succ (a : α) (c : Term α) (cs : List (Term α)) (k : Nat) (p : List Nat) :
    (node a (c :: cs)).getByPath ((k + 1) :: p) = (node a cs).getByPath (k :: p) := by
  simp [getByPath]

section FirstVarPath

variable [DecidableEq β]

mutual
/-- The path to the first node, in pre-order, that is a variable labelled `v`. -/
def firstVarPath (v : β) : Term (β × Bool) → Option (List Nat)
  | node (j, f) ds => if f = true ∧ j = v then some [] else firstVarPathList v ds
/-- `firstVarPath` over siblings, the path starting with the sibling's index. -/
def firstVarPathList (v : β) : List (Term (β × Bool)) → Option (List Nat)
  | [] => none
  | d :: ds =>
    match firstVarPath v d with
    | some p => some (0 :: p)
    | none => (firstVarPathList v ds).map (List.modifyHead (· + 1))
end

theorem firstVarPath_node (v j : β) (f : Bool) (ds : List (Term (β × Bool))) :
    (node (j, f) ds).firstVarPath v = if f = true ∧ j = v then some [] else firstVarPathList v ds := by
  rw [firstVarPath]

theorem firstVarPathList_cons (v : β) (d : Term (β × Bool)) (ds : List (Term (β × Bool))) :
    firstVarPathList v (d :: ds) = match firstVarPath v d with
      | some p => some (0 :: p)
      | none => (firstVarPathList v ds).map (List.modifyHead (· + 1)) := by
  rw [firstVarPathList]

theorem firstVarPathList_cons_eq {v : β} {ds : List (Term (β × Bool))} {p : List Nat}
    (h : firstVarPathList v ds = some p) : ∃ k q, p = k :: q := by
  induction ds generalizing p with
  | nil => rw [firstVarPathList] at h; cases h
  | cons d ds ih =>
    rw [firstVarPathList_cons] at h
    split at h
    · cases h; exact ⟨0, _, rfl⟩
    · obtain ⟨p', hp', rfl⟩ := Option.map_eq_some'.mp h
      obtain ⟨k, q, rfl⟩ := ih hp'
      exact ⟨k + 1, q, rfl⟩

end FirstVarPath

/-! ## Variable nodes that are leaves -/

/-- Every variable node is a leaf, as in a formula parsed from a statement. -/
inductive VarLeaves : Term (α × Bool) → Prop
  | node {a : α} {f : Bool} {cs : List (Term (α × Bool))} :
    (f = true → cs = []) → (∀ c ∈ cs, VarLeaves c) → VarLeaves (Term.node (a, f) cs)

theorem VarLeaves.nil_of_var {a : α} {cs : List (Term (α × Bool))}
    (h : VarLeaves (Term.node (a, true) cs)) : cs = [] := by
  cases h with
  | node h _ => exact h rfl

theorem VarLeaves.of_mem {a : α} {f : Bool} {cs : List (Term (α × Bool))}
    (h : VarLeaves (Term.node (a, f) cs)) {c : Term (α × Bool)} (hc : c ∈ cs) : VarLeaves c := by
  cases h with
  | node _ h => exact h c hc

/-! ## The variables of a tree -/

section VarLabels

variable {L : Type}

mutual
/-- The labels of the variable nodes, in pre-order. -/
def varLabels : Term (L × Bool) → List L
  | node (l, v) cs => (if v then [l] else []) ++ varLabelsList cs
/-- `varLabels` over siblings, concatenated. -/
def varLabelsList : List (Term (L × Bool)) → List L
  | [] => []
  | c :: cs => varLabels c ++ varLabelsList cs
end

theorem varLabelsList_eq (cs : List (Term (L × Bool))) :
    varLabelsList cs = cs.flatMap varLabels := by
  induction cs with
  | nil => rfl
  | cons c cs ih => rw [varLabelsList, ih, List.flatMap_cons]

@[simp] theorem varLabels_node (l : L) (v : Bool) (cs : List (Term (L × Bool))) :
    (node (l, v) cs).varLabels = (if v then [l] else []) ++ cs.flatMap varLabels := by
  rw [varLabels, varLabelsList_eq]

end VarLabels

section FirstVarPathNone

variable [DecidableEq β]

mutual
theorem firstVarPath_eq_none {v : β} :
    ∀ t : Term (β × Bool), v ∉ t.varLabels → t.firstVarPath v = none
  | node (j, f) ds, h => by
    rw [varLabels] at h
    rw [firstVarPath_node, if_neg (fun hjv => h (List.mem_append_left _ (by simp [hjv.1, hjv.2]))),
      firstVarPathList_eq_none ds fun hv => h (List.mem_append_right _ hv)]
theorem firstVarPathList_eq_none {v : β} :
    ∀ ds : List (Term (β × Bool)), v ∉ varLabelsList ds → firstVarPathList v ds = none
  | [], _ => by rw [firstVarPathList]
  | d :: ds, h => by
    rw [varLabelsList] at h
    rw [firstVarPathList_cons, firstVarPath_eq_none d fun hv => h (List.mem_append_left _ hv),
      firstVarPathList_eq_none ds fun hv => h (List.mem_append_right _ hv)]
    rfl
end

end FirstVarPathNone

@[simp] theorem strip_node (l : α) (g : Bool) (cs : List (Term (α × Bool))) :
    (node (l, g) cs).strip = node l (cs.map strip) :=
  map_node _ _ _

theorem hasArity_map_node {ar : β → Nat} (f : α → β) (a : α) (cs : List (Term α)) :
    ((node a cs).map f).HasArity ar ↔ cs.length = ar (f a) ∧ ∀ c ∈ cs, (c.map f).HasArity ar := by
  simp

/-! ## The unifier on trees -/

section Extends

variable {J : Type}

/-- `σ'` keeps every binding of `σ`. -/
def Extends (σ σ' : J → Option (Term α)) : Prop := ∀ v t, σ v = some t → σ' v = some t

theorem Extends.refl (σ : J → Option (Term α)) : Extends σ σ := fun _ _ h => h

theorem Extends.trans {σ₁ σ₂ σ₃ : J → Option (Term α)} (h₁ : Extends σ₁ σ₂) (h₂ : Extends σ₂ σ₃) :
    Extends σ₁ σ₃ := fun v t h => h₂ v t (h₁ v t h)

theorem extends_update [DecidableEq J] {σ : J → Option (Term α)} {j : J} (hj : σ j = none) (a : Term α) :
    Extends σ fun w => if w = j then some a else σ w := fun v t hv => by
  dsimp only
  rw [if_neg (by rintro rfl; rw [hj] at hv; cases hv)]
  exact hv

end Extends

variable {L J : Type} [DecidableEq L] [DecidableEq J] (into : J → L)

mutual
/-- The unification of `sub_unify` on trees, the substitutions as trees: a variable node of the
pattern `b` is bound to `a`, or compared with its binding by `zipEq`; any other node must have
`a`'s label and have children exactly when `a` has, and the children are unified pair by pair. -/
def unifyRef : Term (L × Bool) → Term (J × Bool) → (J → Option (Term (L × Bool))) →
    Bool × (J → Option (Term (L × Bool)))
  | a, node (j, f) ds, σ =>
    if f then
      match σ j with
      | some t => (zipEq a.strip t.strip, σ)
      | none => (true, fun w => if w = j then some a else σ w)
    else if a.label.1 = into j ∧ a.children.isEmpty = ds.isEmpty then unifyRefList a.children ds σ
    else (false, σ)
/-- The loop of `sub_unify` over the pairs of children `zip` makes, stopping at a failure. -/
def unifyRefList : List (Term (L × Bool)) → List (Term (J × Bool)) →
    (J → Option (Term (L × Bool))) → Bool × (J → Option (Term (L × Bool)))
  | c :: cs, d :: ds, σ =>
    let r := unifyRef c d σ
    if r.1 then unifyRefList cs ds r.2 else r
  | [], _, σ => (true, σ)
  | _ :: _, [], σ => (true, σ)
end

theorem unifyRef_var (a : Term (L × Bool)) (j : J) (ds : List (Term (J × Bool)))
    (σ : J → Option (Term (L × Bool))) :
    unifyRef into a (node (j, true) ds) σ = match σ j with
      | some t => (zipEq a.strip t.strip, σ)
      | none => (true, fun w => if w = j then some a else σ w) := by
  rw [unifyRef, if_pos rfl]

theorem unifyRef_nonvar (l : L) (g : Bool) (cs : List (Term (L × Bool))) (j : J)
    (ds : List (Term (J × Bool))) (σ : J → Option (Term (L × Bool))) :
    unifyRef into (node (l, g) cs) (node (j, false) ds) σ =
      if l = into j ∧ cs.isEmpty = ds.isEmpty then unifyRefList into cs ds σ else (false, σ) := by
  rw [unifyRef, if_neg Bool.false_ne_true]
  rfl

theorem unifyRefList_cons (c : Term (L × Bool)) (cs : List (Term (L × Bool))) (d : Term (J × Bool))
    (ds : List (Term (J × Bool))) (σ : J → Option (Term (L × Bool))) :
    unifyRefList into (c :: cs) (d :: ds) σ =
      if (unifyRef into c d σ).1 then unifyRefList into cs ds (unifyRef into c d σ).2
      else unifyRef into c d σ := by
  rw [unifyRefList]

theorem unifyRefList_nil_left (ds : List (Term (J × Bool))) (σ : J → Option (Term (L × Bool))) :
    unifyRefList into [] ds σ = (true, σ) := by
  rw [unifyRefList]

theorem unifyRefList_nil_right (cs : List (Term (L × Bool))) (σ : J → Option (Term (L × Bool))) :
    unifyRefList into cs [] σ = (true, σ) := by
  cases cs <;> rw [unifyRefList]

/-! ## What the unifier does to the bindings -/

mutual
theorem unifyRef_extends : ∀ (a : Term (L × Bool)) (b : Term (J × Bool)) σ,
    Extends σ (unifyRef into a b σ).2
  | node (l, g) cs, node (j, false) ds, σ => by
    rw [unifyRef_nonvar]
    split
    · exact unifyRefList_extends cs ds σ
    · exact Extends.refl σ
  | a, node (j, true) ds, σ => by
    rw [unifyRef_var]
    cases h : σ j
    · exact extends_update h a
    · exact Extends.refl σ
theorem unifyRefList_extends : ∀ (cs : List (Term (L × Bool))) (ds : List (Term (J × Bool))) σ,
    Extends σ (unifyRefList into cs ds σ).2
  | c :: cs, d :: ds, σ => by
    rw [unifyRefList_cons]
    split
    · exact (unifyRef_extends c d σ).trans (unifyRefList_extends cs ds _)
    · exact unifyRef_extends c d σ
  | [], ds, σ => by rw [unifyRefList_nil_left]; exact Extends.refl σ
  | _ :: _, [], σ => by rw [unifyRefList_nil_right]; exact Extends.refl σ
end

mutual
theorem unifyRef_of_firstVarPath : ∀ (a : Term (L × Bool)) (b : Term (J × Bool)) σ (v : J),
    b.firstVarPath v = none → (unifyRef into a b σ).2 v = σ v
  | node (l, g) cs, node (j, false) ds, σ, v, hv => by
    rw [firstVarPath_node, if_neg (by simp)] at hv
    rw [unifyRef_nonvar]
    split
    · exact unifyRefList_of_firstVarPathList cs ds σ v hv
    · rfl
  | a, node (j, true) ds, σ, v, hv => by
    rw [firstVarPath_node] at hv
    have hjv : j ≠ v := fun h => by rw [if_pos ⟨rfl, h⟩] at hv; cases hv
    rw [unifyRef_var]
    cases σ j
    · exact if_neg (Ne.symm hjv)
    · rfl
theorem unifyRefList_of_firstVarPathList : ∀ (cs : List (Term (L × Bool)))
    (ds : List (Term (J × Bool))) σ (v : J),
    firstVarPathList v ds = none → (unifyRefList into cs ds σ).2 v = σ v
  | c :: cs, d :: ds, σ, v, hv => by
    rw [firstVarPathList_cons] at hv
    split at hv
    · cases hv
    · rename_i hd
      have hr := unifyRef_of_firstVarPath c d σ v hd
      rw [unifyRefList_cons]
      split
      · rw [unifyRefList_of_firstVarPathList cs ds _ v (Option.map_eq_none'.mp hv), hr]
      · exact hr
  | [], ds, σ, v, _ => by rw [unifyRefList_nil_left]
  | _ :: _, [], σ, v, _ => by rw [unifyRefList_nil_right]
end

/-! ## Soundness -/

section Sound

variable {ar : L → Nat}

/-- Every tree the substitutions hold has one number of children per label, `ar`. -/
def ValsArity (ar : L → Nat) (σ : J → Option (Term (L × Bool))) : Prop :=
  ∀ v t, σ v = some t → t.strip.HasArity ar

mutual
theorem unifyRef_valsArity : ∀ (a : Term (L × Bool)) (b : Term (J × Bool)) σ,
    a.strip.HasArity ar → ValsArity ar σ → ValsArity ar (unifyRef into a b σ).2
  | node (l, g) cs, node (j, false) ds, σ, ha, hσ => by
    rw [unifyRef_nonvar]
    split
    · exact unifyRefList_valsArity cs ds σ ((hasArity_map_node _ _ _).mp ha).2 hσ
    · exact hσ
  | a, node (j, true) ds, σ, ha, hσ => by
    rw [unifyRef_var]
    cases σ j
    · intro v t hv
      dsimp only at hv
      split at hv
      · cases hv; exact ha
      · exact hσ v t hv
    · exact hσ
theorem unifyRefList_valsArity : ∀ (cs : List (Term (L × Bool))) (ds : List (Term (J × Bool))) σ,
    (∀ c ∈ cs, c.strip.HasArity ar) → ValsArity ar σ → ValsArity ar (unifyRefList into cs ds σ).2
  | c :: cs, d :: ds, σ, hcs, hσ => by
    have hr := unifyRef_valsArity c d σ (hcs c (List.mem_cons_self _ _)) hσ
    rw [unifyRefList_cons]
    split
    · exact unifyRefList_valsArity cs ds _ (fun c' hc' => hcs c' (List.mem_cons_of_mem _ hc')) hr
    · exact hr
  | [], ds, σ, _, hσ => by rw [unifyRefList_nil_left]; exact hσ
  | _ :: _, [], σ, _, hσ => by rw [unifyRefList_nil_right]; exact hσ
end

mutual
/-- A success makes the pattern, substituted with the final bindings or any extension of them,
the formula, when every label has one number of children. -/
theorem unifyRef_sound : ∀ (a : Term (L × Bool)) (b : Term (J × Bool)) σ,
    a.strip.HasArity ar → (b.map fun x => into x.1).HasArity ar → ValsArity ar σ →
    (unifyRef into a b σ).1 = true → ∀ σ', Extends (unifyRef into a b σ).2 σ' →
    (b.subst into σ').strip = a.strip
  | node (l, g) cs, node (j, false) ds, σ, ha, hb, hσ, hok, σ', hext => by
    rw [unifyRef_nonvar] at hok hext
    by_cases hc : l = into j ∧ cs.isEmpty = ds.isEmpty
    · rw [if_pos hc] at hok hext
      obtain ⟨hcl, hcs⟩ := (hasArity_map_node _ _ _).mp ha
      obtain ⟨hdl, hds⟩ := (hasArity_map_node _ _ _).mp hb
      rw [subst_node, if_neg Bool.false_ne_true, Option.getD_none, strip_node, strip_node, hc.1,
        List.map_map]
      exact congrArg _ (unifyRefList_sound cs ds σ hcs hds hσ (by rw [hcl, hdl, hc.1]) hok σ' hext)
    · rw [if_neg hc] at hok
      cases hok
  | a, node (j, true) ds, σ, ha, _, hσ, hok, σ', hext => by
    rw [unifyRef_var] at hok hext
    rw [subst_node, if_pos rfl]
    cases h : σ j with
    | none =>
      rw [h] at hext
      rw [hext j a (if_pos rfl)]
      rfl
    | some t =>
      rw [h] at hok hext
      rw [hext j t h, Option.getD_some]
      exact ((zipEq_iff_eq _ _ ha (hσ j t h)).mp hok).symm
/-- `unifyRef_sound` over the pairs of children. -/
theorem unifyRefList_sound : ∀ (cs : List (Term (L × Bool))) (ds : List (Term (J × Bool))) σ,
    (∀ c ∈ cs, c.strip.HasArity ar) → (∀ d ∈ ds, (d.map fun x => into x.1).HasArity ar) →
    ValsArity ar σ → cs.length = ds.length → (unifyRefList into cs ds σ).1 = true →
    ∀ σ', Extends (unifyRefList into cs ds σ).2 σ' →
    ds.map (fun d => (d.subst into σ').strip) = cs.map strip
  | c :: cs, d :: ds, σ, hcs, hds, hσ, hlen, hok, σ', hext => by
    rw [unifyRefList_cons] at hok hext
    by_cases hr : (unifyRef into c d σ).1 = true
    · rw [if_pos hr] at hok hext
      rw [List.map_cons, List.map_cons,
        unifyRef_sound c d σ (hcs c (List.mem_cons_self _ _)) (hds d (List.mem_cons_self _ _)) hσ hr
          σ' ((unifyRefList_extends into cs ds _).trans hext),
        unifyRefList_sound cs ds _ (fun c' hc' => hcs c' (List.mem_cons_of_mem _ hc'))
          (fun d' hd' => hds d' (List.mem_cons_of_mem _ hd'))
          (unifyRef_valsArity into c d σ (hcs c (List.mem_cons_self _ _)) hσ) (Nat.succ.inj hlen)
          hok σ' hext]
    · rw [if_neg hr] at hok
      exact absurd hok hr
  | [], [], _, _, _, _, _, _, _, _ => rfl
end

end Sound

/-! ## Completeness -/

section Complete

variable (τ : J → Option (Term (L × Bool)))

/-- What the substitution `τ` puts for a variable node, a leaf, labelled `v`. -/
def substLeaf (v : J) : Term (L × Bool) := (τ v).getD (node (into v, true) [])

/-- Each binding of `σ` is, up to variable flags, what `τ` substitutes for its variable. -/
def Consistent (σ : J → Option (Term (L × Bool))) : Prop :=
  ∀ v t, σ v = some t → t.strip = (substLeaf into τ v).strip

mutual
/-- A substitution consistent with the bindings that makes the pattern, a tree whose variable
nodes are leaves, the formula makes the unifier succeed, consistently with it, and bind every
variable of the pattern. -/
theorem unifyRef_complete : ∀ (a : Term (L × Bool)) (b : Term (J × Bool)) σ,
    b.VarLeaves → Consistent into τ σ → (b.subst into τ).strip = a.strip →
    (unifyRef into a b σ).1 = true ∧ Consistent into τ (unifyRef into a b σ).2 ∧
      ∀ v ∈ b.varLabels, ((unifyRef into a b σ).2 v).isSome
  | node (l, g) cs, node (j, false) ds, σ, hb, hσ, heq => by
    rw [subst_node, if_neg Bool.false_ne_true, Option.getD_none, strip_node, strip_node,
      node.injEq, List.map_map] at heq
    have hlen : cs.length = ds.length := by
      rw [← List.length_map cs strip, ← heq.2, List.length_map]
    rw [unifyRef_nonvar, if_pos ⟨heq.1.symm, by
      rw [Bool.eq_iff_iff, List.isEmpty_iff, List.isEmpty_iff, ← List.length_eq_zero,
        ← List.length_eq_zero, hlen]⟩, varLabels]
    simpa using unifyRefList_complete cs ds σ (fun d hd => hb.of_mem hd) hσ heq.2
  | a, node (j, true) ds, σ, hb, hσ, heq => by
    rw [hb.nil_of_var, subst_node, if_pos rfl, List.map_nil] at heq
    rw [unifyRef_var, hb.nil_of_var, varLabels_node, if_pos rfl]
    cases h : σ j with
    | none =>
      refine ⟨rfl, fun v t hv => ?_, by simp⟩
      dsimp only at hv
      split at hv
      · rename_i hvj
        cases hv
        rw [← heq, hvj]
        rfl
      · exact hσ v t hv
    | some t =>
      refine ⟨?_, hσ, by simp [h]⟩
      show zipEq a.strip t.strip = true
      rw [hσ j t h, substLeaf, ← heq]
      exact zipEq_self _
/-- `unifyRef_complete` over the pairs of children. -/
theorem unifyRefList_complete : ∀ (cs : List (Term (L × Bool))) (ds : List (Term (J × Bool))) σ,
    (∀ d ∈ ds, d.VarLeaves) → Consistent into τ σ →
    ds.map (fun d => (d.subst into τ).strip) = cs.map strip →
    (unifyRefList into cs ds σ).1 = true ∧ Consistent into τ (unifyRefList into cs ds σ).2 ∧
      ∀ v ∈ varLabelsList ds, ((unifyRefList into cs ds σ).2 v).isSome
  | c :: cs, d :: ds, σ, hds, hσ, heq => by
    rw [List.map_cons, List.map_cons, List.cons.injEq] at heq
    obtain ⟨hr, hrσ, hrb⟩ := unifyRef_complete c d σ (hds d (List.mem_cons_self _ _)) hσ heq.1
    obtain ⟨hl, hlσ, hlb⟩ := unifyRefList_complete cs ds _
      (fun d' hd' => hds d' (List.mem_cons_of_mem _ hd')) hrσ heq.2
    rw [unifyRefList_cons, if_pos hr, varLabelsList]
    refine ⟨hl, hlσ, fun v hv => ?_⟩
    rcases List.mem_append.mp hv with hv | hv
    · obtain ⟨t, ht⟩ := Option.isSome_iff_exists.mp (hrb v hv)
      rw [unifyRefList_extends into cs ds _ v t ht]
      rfl
    · exact hlb v hv
  | [], ds, σ, _, hσ, heq => by
    rw [List.map_nil, List.map_eq_nil_iff] at heq
    subst heq
    rw [unifyRefList_nil_left, varLabelsList]
    exact ⟨rfl, hσ, fun _ h => nomatch h⟩
  | _ :: _, [], σ, _, hσ, _ => by
    rw [unifyRefList_nil_right, varLabelsList]
    exact ⟨rfl, hσ, fun _ h => nomatch h⟩
end

end Complete

/-! ## The bindings a success adds -/

section Binds

variable {ar : L → Nat}

mutual
/-- A success binds a variable it found unbound to the subtree of the formula at the
variable's first occurrence in the pattern. -/
theorem unifyRef_binds : ∀ (a : Term (L × Bool)) (b : Term (J × Bool)) σ (v : J) (p : List Nat),
    a.strip.HasArity ar → (b.map fun x => into x.1).HasArity ar → b.VarLeaves →
    (unifyRef into a b σ).1 = true → σ v = none → b.firstVarPath v = some p →
    ∃ t, a.getByPath p = some t ∧ (unifyRef into a b σ).2 v = some t
  | node (l, g) cs, node (j, false) ds, σ, v, p, ha, hb, hl, hok, hv, hp => by
    rw [firstVarPath_node, if_neg (by simp)] at hp
    rw [unifyRef_nonvar] at hok ⊢
    by_cases hc : l = into j ∧ cs.isEmpty = ds.isEmpty
    · rw [if_pos hc] at hok ⊢
      obtain ⟨hcl, hcs⟩ := (hasArity_map_node _ _ _).mp ha
      obtain ⟨hdl, hds⟩ := (hasArity_map_node _ _ _).mp hb
      exact unifyRefList_binds cs ds σ v p (l, g) hcs hds (fun d hd => hl.of_mem hd)
        (by rw [hcl, hdl, hc.1]) hok hv hp
    · rw [if_neg hc] at hok
      cases hok
  | a, node (j, true) ds, σ, v, p, _, _, hl, _, hv, hp => by
    rw [hl.nil_of_var, firstVarPath_node] at hp
    split at hp
    · rename_i hjv
      cases hp
      obtain rfl := hjv.2
      rw [unifyRef_var, hv]
      exact ⟨a, rfl, if_pos rfl⟩
    · rw [firstVarPathList] at hp
      cases hp
/-- `unifyRef_binds` over the pairs of children, the path starting with the child's index. -/
theorem unifyRefList_binds : ∀ (cs : List (Term (L × Bool))) (ds : List (Term (J × Bool))) σ
    (v : J) (p : List Nat) (x : L × Bool),
    (∀ c ∈ cs, c.strip.HasArity ar) → (∀ d ∈ ds, (d.map fun x => into x.1).HasArity ar) →
    (∀ d ∈ ds, d.VarLeaves) → cs.length = ds.length → (unifyRefList into cs ds σ).1 = true →
    σ v = none → firstVarPathList v ds = some p →
    ∃ t, (node x cs).getByPath p = some t ∧ (unifyRefList into cs ds σ).2 v = some t
  | c :: cs, d :: ds, σ, v, p, x, hcs, hds, hl, hlen, hok, hv, hp => by
    rw [unifyRefList_cons] at hok ⊢
    by_cases hr : (unifyRef into c d σ).1 = true
    · rw [if_pos hr] at hok ⊢
      rw [firstVarPathList_cons] at hp
      split at hp
      · rename_i q hq
        cases hp
        obtain ⟨t, ht, hrt⟩ := unifyRef_binds c d σ v q (hcs c (List.mem_cons_self _ _))
          (hds d (List.mem_cons_self _ _)) (hl d (List.mem_cons_self _ _)) hr hv hq
        exact ⟨t, by rw [getByPath_cons_zero]; exact ht, unifyRefList_extends into cs ds _ v t hrt⟩
      · rename_i hq
        obtain ⟨p', hp', rfl⟩ := Option.map_eq_some'.mp hp
        obtain ⟨k, q, rfl⟩ := firstVarPathList_cons_eq hp'
        rw [List.modifyHead_cons, getByPath_cons_succ]
        exact unifyRefList_binds cs ds _ v (k :: q) x
          (fun c' hc' => hcs c' (List.mem_cons_of_mem _ hc'))
          (fun d' hd' => hds d' (List.mem_cons_of_mem _ hd'))
          (fun d' hd' => hl d' (List.mem_cons_of_mem _ hd')) (Nat.succ.inj hlen) hok
          ((unifyRef_of_firstVarPath into c d σ v hq).trans hv) hp'
    · rw [if_neg hr] at hok
      exact absurd hok hr
  | [], [], σ, v, p, x, _, _, _, _, _, _, hp => by rw [firstVarPathList] at hp; cases hp
end

end Binds

end Term

/-! ## `unify` -/

/-- `UnificationError`. -/
inductive UnificationError
  /-- `UnificationFailed`. -/
  | unificationFailed
  deriving DecidableEq, Repr

/-- `for p in pairs { step(p, state)?; } Ok(())`: the loop stops at the first error, keeping the
state the steps left, the failing one's included. -/
def tryForEach {α S E : Type} : (pairs : List α) → (∀ p ∈ pairs, S → Except E Unit × S) → S →
    Except E Unit × S
  | [], _, s => (.ok (), s)
  | p :: ps, step, s =>
    match step p (List.mem_cons_self _ _) s with
    | (.ok (), s) => tryForEach ps (fun q hq => step q (List.mem_cons_of_mem _ hq)) s
    | (.error e, s) => (.error e, s)

/-- A loop whose steps keep a property of the state keeps it. -/
theorem tryForEach_preserves {α S E : Type} {P : S → Prop} :
    ∀ {pairs : List α} {step : ∀ p ∈ pairs, S → Except E Unit × S} {s : S},
    (∀ p hp s, P s → P (step p hp s).2) → P s → P (tryForEach pairs step s).2
  | [], _, _, _, hs => hs
  | p :: ps, step, s, h, hs => by
    rw [tryForEach]
    have hp := h p (List.mem_cons_self _ _) s hs
    split
    · rename_i s' he
      rw [he] at hp
      exact tryForEach_preserves (fun q hq s => h q (List.mem_cons_of_mem _ hq) s) hp
    · rename_i e s' he
      rw [he] at hp
      exact hp

namespace Formula

theorem lt_size_of_mem_childrenIter {L : Type} (F : Formula L) {n c : Nat} (hn : n < F.tree.size)
    (hc : c ∈ F.tree.childrenIter n) : c < F.tree.size :=
  Nat.lt_trans (F.tree.lt_of_mem_childrenIter hc) hn

variable {L J : Type} [Inhabited L] [DecidableEq L] [Inhabited J] [DecidableEq J]

/-- `sub_unify(node_id, other, other_node_id, substitutions)`: its result, and the
substitutions as it leaves them. -/
def subUnify (A : Formula L) (n : Nat) (hn : n < A.tree.size) (B : Formula J) (m : Nat)
    (into : J → L) (subs : Substitutions J L) : Except UnificationError Unit × Substitutions J L :=
  if B.isVariable m then
    match subs.get (B.tree.label m) with
    | some formula =>
      (if A.subEq n formula formula.root then .ok () else .error .unificationFailed, subs)
    | none => (.ok (), subs.insert (B.tree.label m) (A.subFormula n hn))
  else if A.tree.label n == into (B.tree.label m) &&
      A.tree.hasChildren n == B.tree.hasChildren m then
    tryForEach ((A.tree.childrenIter n).zip (B.tree.childrenIter m))
      (fun p hp subs => A.subUnify p.1 (A.lt_size_of_mem_childrenIter hn (List.of_mem_zip hp).1)
        B p.2 into subs) subs
  else (.error .unificationFailed, subs)
termination_by n
decreasing_by exact A.tree.lt_of_mem_childrenIter (List.of_mem_zip hp).1

/-- `unify(other, substitutions)`: the substitutions to make in the pattern `B`, its labels
converted by `into`, for it to become the formula. -/
def unify (A : Formula L) (B : Formula J) (into : J → L) (subs : Substitutions J L) :
    Except UnificationError Unit × Substitutions J L :=
  A.subUnify A.root A.root_lt B B.root into subs

theorem tryForEach_zip_view (A : Formula L) (B : Formula J) (into : J → L) :
    ∀ {cs ds : List Nat}
    (step : ∀ p ∈ cs.zip ds, Substitutions J L → Except UnificationError Unit × Substitutions J L),
    (∀ p hp subs, ((step p hp subs).1.toBool, (step p hp subs).2.view) =
      Term.unifyRef into (A.nodeView p.1) (B.nodeView p.2) subs.view) →
    ∀ subs, ((tryForEach (cs.zip ds) step subs).1.toBool, (tryForEach (cs.zip ds) step subs).2.view) =
      Term.unifyRefList into (cs.map A.nodeView) (ds.map B.nodeView) subs.view
  | [], ds, _, _, subs => by rw [List.map_nil, Term.unifyRefList_nil_left]; rfl
  | _ :: _, [], _, _, subs => by rw [List.map_nil, Term.unifyRefList_nil_right]; rfl
  | c :: cs, d :: ds, step, hstep, subs => by
    have h := hstep (c, d) (List.mem_cons_self _ _) subs
    rw [List.map_cons, List.map_cons, Term.unifyRefList_cons, ← h]
    show ((tryForEach ((c, d) :: cs.zip ds) step subs).1.toBool,
      (tryForEach ((c, d) :: cs.zip ds) step subs).2.view) = _
    rw [tryForEach]
    split
    · rename_i s he
      rw [he]
      exact (tryForEach_zip_view A B into _ (fun p hp => hstep p (List.mem_cons_of_mem _ hp)) s).trans
        (if_pos rfl).symm
    · rename_i e s he
      rw [he]
      exact (if_neg Bool.false_ne_true).symm

omit [DecidableEq J] in
theorem subUnify_cond (A : Formula L) (B : Formula J) (into : J → L) (n m : Nat) :
    (A.tree.label n == into (B.tree.label m) && A.tree.hasChildren n == B.tree.hasChildren m) =
      decide (A.tree.label n = into (B.tree.label m) ∧
        ((A.tree.childrenIter n).map A.nodeView).isEmpty =
          ((B.tree.childrenIter m).map B.nodeView).isEmpty) := by
  rw [isEmpty_map, isEmpty_map, Tree.hasChildren, Tree.hasChildren]
  by_cases h : A.tree.label n = into (B.tree.label m) <;>
    cases (A.tree.childrenIter n).isEmpty <;> cases (B.tree.childrenIter m).isEmpty <;> simp [h]

/-- **`sub_unify` computes the unifier on trees**, its result and the trees of its
substitutions. -/
theorem subUnify_view (A : Formula L) (B : Formula J) (into : J → L) (n : Nat) :
    ∀ (hn : n < A.tree.size) (m : Nat) (subs : Substitutions J L),
    ((A.subUnify n hn B m into subs).1.toBool, (A.subUnify n hn B m into subs).2.view) =
      Term.unifyRef into (A.nodeView n) (B.nodeView m) subs.view := by
  induction n using Nat.strong_induction_on with
  | _ n ih =>
    intro hn m subs
    rw [subUnify.eq_def, B.nodeView_eq m]
    cases hv : B.isVariable m
    · rw [if_neg Bool.false_ne_true, A.nodeView_eq n, Term.unifyRef_nonvar, subUnify_cond]
      by_cases hc : A.tree.label n = into (B.tree.label m) ∧
          ((A.tree.childrenIter n).map A.nodeView).isEmpty =
            ((B.tree.childrenIter m).map B.nodeView).isEmpty
      · rw [if_pos hc, if_pos (decide_eq_true hc)]
        exact tryForEach_zip_view A B into _ (fun p hp subs =>
          ih p.1 (A.tree.lt_of_mem_childrenIter (List.of_mem_zip hp).1) _ p.2 subs) subs
      · rw [if_neg hc, if_neg (by simpa using hc)]
        rfl
    · rw [if_pos rfl, Term.unifyRef_var]
      cases hs : subs.get (B.tree.label m) with
      | none =>
        have hv' : subs.view (B.tree.label m) = none := by rw [Substitutions.view, hs]; rfl
        rw [hv']
        refine Prod.ext rfl (funext fun w => ?_)
        show ((subs.insert _ (A.subFormula n hn)).get w).map view =
          if w = B.tree.label m then some (A.nodeView n) else subs.view w
        rw [Substitutions.get_insert]
        split_ifs <;> rfl
      | some F =>
        have hv' : subs.view (B.tree.label m) = some F.view := by rw [Substitutions.view, hs]; rfl
        rw [hv']
        dsimp only
        rw [subEq_eq_zipEq, Formula.view]
        cases Term.zipEq (A.nodeView n).strip (F.nodeView F.root).strip <;> rfl

/-- A call of `sub_unify` changes no binding it finds. -/
theorem subUnify_get (A : Formula L) (B : Formula J) (into : J → L) {v : J} {F : Formula L}
    (n : Nat) : ∀ (hn : n < A.tree.size) (m : Nat) (subs : Substitutions J L),
    subs.get v = some F → (A.subUnify n hn B m into subs).2.get v = some F := by
  induction n using Nat.strong_induction_on with
  | _ n ih =>
    intro hn m subs hs
    rw [subUnify.eq_def]
    split
    · split
      · exact hs
      · rename_i hnone
        rw [Substitutions.get_insert, if_neg (by rintro rfl; rw [hs] at hnone; cases hnone)]
        exact hs
    · split
      · exact tryForEach_preserves (fun p hp s hs =>
          ih p.1 (A.tree.lt_of_mem_childrenIter (List.of_mem_zip hp).1) _ p.2 s hs) hs
      · exact hs

/-- `get_by_path(path)`: the label of the node the path leads to from the root, each entry the
index of a child. -/
def getByPath (F : Formula L) (path : List Nat) : Option L := do
  let nodeId ← path.foldlM (fun nodeId index => F.tree.nthChild nodeId index) F.root
  pure (F.tree.label nodeId)

omit [DecidableEq L] in
theorem foldlM_nthChild (F : Formula L) :
    ∀ (path : List Nat) (n : Nat),
      (path.foldlM (fun nodeId index => F.tree.nthChild nodeId index) n).map F.nodeView =
        (F.nodeView n).getByPath path
  | [], n => rfl
  | i :: path, n => by
    rw [List.foldlM_cons, nodeView_eq, Term.getByPath, Term.children_node, List.getElem?_map,
      Tree.nthChild]
    cases (F.tree.childrenIter n)[i]? with
    | none => rfl
    | some c => exact foldlM_nthChild F path c

omit [DecidableEq L] in
/-- **`get_by_path` reads the tree**: the label of the subtree at the path. -/
theorem getByPath_eq (F : Formula L) (path : List Nat) :
    F.getByPath path = (F.view.getByPath path).map fun t => t.label.1 := by
  rw [view, ← foldlM_nthChild, getByPath, Option.map_map]
  cases path.foldlM (fun nodeId index => F.tree.nthChild nodeId index) F.root with
  | none => rfl
  | some n => exact congrArg some (by rw [Function.comp_apply, nodeView_eq]; rfl)

theorem toBool_eq_true_iff {E : Type} (e : Except E Unit) : e.toBool = true ↔ e = .ok () := by
  cases e <;> simp [Except.toBool]

/-- What `unify` guarantees, for the formula `A`, the pattern `B`, the substitutions `σ0` it
starts from, and what it returns, `r`. -/
structure UnifyCorrect (A : Formula L) (B : Formula J) (into : J → L) (σ0 : Substitutions J L)
    (r : Except UnificationError Unit × Substitutions J L) : Prop where
  /-- No binding of `σ0` is changed or removed, whether the result is `Ok` or `Err`. -/
  keeps : ∀ v F, σ0.get v = some F → r.2.get v = some F
  /-- `Ok` exactly when a substitution that agrees with `σ0` on its bindings, up to structural
  equality, makes the pattern, substituted, structurally equal to the formula. -/
  ok_iff : r.1 = .ok () ↔ ∃ τ : Substitutions J L,
    (∀ v F, σ0.get v = some F → ∃ G, τ.get v = some G ∧ G.view.strip = F.view.strip) ∧
    ∃ G, B.substitute τ into = .ok G ∧ G.view.strip = A.view.strip
  /-- On `Ok`, a variable that `σ0` leaves unbound is bound exactly when it occurs in the
  pattern, to the sub-formula of `A` at its first occurrence in pre-order. -/
  binds : r.1 = .ok () → ∀ v, σ0.get v = none →
    (r.2.get v).map Formula.view = (B.view.firstVarPath v).bind A.view.getByPath
  /-- On `Ok`, the pattern substituted with the result is structurally equal to the formula. -/
  sound : r.1 = .ok () → ∃ G, B.substitute r.2 into = .ok G ∧ G.view.strip = A.view.strip

/-- **`unify` is sound and complete**, for a pattern whose variable nodes are leaves and labels
with one number of children across the formula, the pattern (through `into`) and the formulas
of the substitutions it starts from. -/
theorem unify_spec (A : Formula L) (B : Formula J) (into : J → L) (σ0 : Substitutions J L)
    (ar : L → Nat) (hA : A.view.strip.HasArity ar)
    (hB : (B.view.map fun x => into x.1).HasArity ar)
    (hσ0 : ∀ v F, σ0.get v = some F → F.view.strip.HasArity ar) (hleaves : B.view.VarLeaves) :
    UnifyCorrect A B into σ0 (A.unify B into σ0) := by
  have hsim : ((A.unify B into σ0).1.toBool, (A.unify B into σ0).2.view) =
      Term.unifyRef into A.view B.view σ0.view :=
    A.subUnify_view B into A.root A.root_lt B.root σ0
  have hok : (A.unify B into σ0).1 = .ok () ↔ (Term.unifyRef into A.view B.view σ0.view).1 = true :=
    by rw [← hsim, toBool_eq_true_iff]
  have hview : (A.unify B into σ0).2.view = (Term.unifyRef into A.view B.view σ0.view).2 := by
    rw [← hsim]
  have hvals : Term.ValsArity ar σ0.view := fun v t ht => by
    obtain ⟨F, hF, rfl⟩ := Option.map_eq_some'.mp ht
    exact hσ0 v F hF
  have hsound : (A.unify B into σ0).1 = .ok () →
      ∃ G, B.substitute (A.unify B into σ0).2 into = .ok G ∧ G.view.strip = A.view.strip := by
    intro h
    obtain ⟨G, hG⟩ := B.substitute_ok (A.unify B into σ0).2 into
    refine ⟨G, hG, ?_⟩
    rw [(view_of_substitute hG).2]
    exact Term.unifyRef_sound into A.view B.view σ0.view hA hB hvals (hok.mp h) _
      (hview ▸ Term.Extends.refl _)
  have hkeeps : ∀ v F, σ0.get v = some F → (A.unify B into σ0).2.get v = some F :=
    fun v F hF => A.subUnify_get B into A.root A.root_lt B.root σ0 hF
  refine ⟨hkeeps, ⟨fun h => ⟨_, fun v F hF => ⟨F, hkeeps v F hF, rfl⟩, hsound h⟩, ?_⟩, ?_, hsound⟩
  · rintro ⟨τ, hτ, G, hG, hGA⟩
    have hcons : Term.Consistent into τ.view σ0.view := fun v t ht => by
      obtain ⟨F, hF, rfl⟩ := Option.map_eq_some'.mp ht
      obtain ⟨G', hG', hs⟩ := hτ v F hF
      rw [Term.substLeaf, Substitutions.view, hG']
      exact hs.symm
    exact hok.mpr (Term.unifyRef_complete into τ.view A.view B.view σ0.view hleaves hcons
      (by rw [← (view_of_substitute hG).2]; exact hGA)).1
  · intro h v hv
    have hv' : σ0.view v = none := by rw [Substitutions.view, hv]; rfl
    show (A.unify B into σ0).2.view v = _
    cases hp : B.view.firstVarPath v with
    | none => rw [hview, Term.unifyRef_of_firstVarPath into _ _ _ v hp, hv']; rfl
    | some p =>
      obtain ⟨t, ht, hrt⟩ := Term.unifyRef_binds into A.view B.view σ0.view v p hA hB hleaves
        (hok.mp h) hv' hp
      rw [hview, hrt]
      exact ht.symm

/-- **Unifying a substitution instance with its pattern gives the substitution back**: for a
pattern whose variable nodes are leaves and any substitution, `unify(substitute(F, σ), F)` from
no bindings succeeds and binds exactly the variables of `F`, each one `σ` binds to a formula
structurally equal to its formula in `σ`. -/
theorem unify_substitute (F : Formula J) (σ : Substitutions J L) (into : J → L)
    (hleaves : F.view.VarLeaves) :
    ∃ A, F.substitute σ into = .ok A ∧ (A.unify F into .new).1 = .ok () ∧
      ∀ v, (((A.unify F into .new).2.get v).isSome ↔ v ∈ F.view.varLabels) ∧
        ∀ G H, (A.unify F into .new).2.get v = some G → σ.get v = some H →
          G.view.strip = H.view.strip := by
  obtain ⟨A, hA⟩ := F.substitute_ok σ into
  have hsim : ((A.unify F into .new).1.toBool, (A.unify F into .new).2.view) =
      Term.unifyRef into A.view F.view (fun _ => none) :=
    A.subUnify_view F into A.root A.root_lt F.root .new
  obtain ⟨hok, hcons, hbound⟩ := Term.unifyRef_complete into σ.view A.view F.view (fun _ => none)
    hleaves (fun _ _ h => nomatch h) (by rw [(view_of_substitute hA).2])
  have hview : ∀ v, ((A.unify F into .new).2.get v).map view =
      (Term.unifyRef into A.view F.view (fun _ => none)).2 v := fun v => by rw [← hsim]; rfl
  have hsome : ∀ v, ((A.unify F into .new).2.get v).isSome =
      ((Term.unifyRef into A.view F.view (fun _ => none)).2 v).isSome := fun v => by
    rw [← hview]
    cases (A.unify F into .new).2.get v <;> rfl
  refine ⟨A, hA, (toBool_eq_true_iff _).mp ((congrArg Prod.fst hsim).trans hok),
    fun v => ⟨⟨fun h => ?_, fun hv => (hsome v).trans (hbound v hv)⟩, fun G H hG hH => ?_⟩⟩
  · by_contra hv
    rw [hsome, Term.unifyRef_of_firstVarPath into _ _ _ v (Term.firstVarPath_eq_none _ hv)] at h
    cases h
  · have h := hcons v G.view (by rw [← hview, hG]; rfl)
    rw [h, Term.substLeaf, Substitutions.view, hH]
    rfl

end Formula

/-- `( ph -> ph )`, the labels `->` and `ph` being `0` and `1`. -/
def phImpPh : Formula Nat :=
  .ofNodes [(1, []), (1, []), (0, [0, 1])] .new (by decide) (by decide) (by decide)

/-- The pattern `( x -> x )`, `x` being the variable `2`. -/
def xImpX : Formula Nat :=
  .ofNodes [(2, []), (2, []), (0, [0, 1])] ((Bitset.new.setBit 0).setBit 1) (by decide)
    (by decide) (by decide)

/-- Two children for `->`, none for the other labels. -/
def impArity (l : Nat) : Nat := if l = 0 then 2 else 0

theorem view_phImpPh :
    phImpPh.view = .node (0, false) [.node (1, false) [], .node (1, false) []] := by
  simp [Formula.view, Formula.nodeView, Tree.view_eq, phImpPh, Formula.ofNodes, Tree.label,
    Tree.childrenIter]

theorem view_xImpX : xImpX.view = .node (0, false) [.node (2, true) [], .node (2, true) []] := by
  simp [Formula.view, Formula.nodeView, Tree.view_eq, xImpX, Formula.ofNodes, Tree.label,
    Tree.childrenIter]

theorem varLeaves_xImpX : xImpX.view.VarLeaves := by
  rw [view_xImpX]
  exact .node (fun h => nomatch h) (by simp [Term.VarLeaves.node])

/-- The spec's example: `( ph -> ph )` against the pattern `( x -> x )`, from no bindings. -/
theorem unify_phImpPh_xImpX :
    (phImpPh.view.strip.HasArity impArity ∧ (xImpX.view.map fun x => id x.1).HasArity impArity ∧
      (∀ v F, (Substitutions.new : Substitutions Nat Nat).get v = some F →
        F.view.strip.HasArity impArity) ∧ xImpX.view.VarLeaves) ∧
    Formula.UnifyCorrect phImpPh xImpX id .new (phImpPh.unify xImpX id .new) :=
  have h : phImpPh.view.strip.HasArity impArity ∧
      (xImpX.view.map fun x => id x.1).HasArity impArity ∧
      (∀ v F, (Substitutions.new : Substitutions Nat Nat).get v = some F →
        F.view.strip.HasArity impArity) ∧ xImpX.view.VarLeaves := by
    refine ⟨?_, ?_, fun _ _ h => (by cases h), varLeaves_xImpX⟩
    · rw [view_phImpPh]; simp [impArity]
    · rw [view_xImpX]; simp [impArity]
  ⟨h, Formula.unify_spec phImpPh xImpX id .new impArity h.1 h.2.1 h.2.2.1 h.2.2.2⟩

/-- `( x -> x )` with `x` replaced by the variable `ph`, unified with `( x -> x )` again. -/
theorem unify_substitute_xImpX :
    xImpX.view.VarLeaves ∧
    ∃ A, xImpX.substitute (Substitutions.new.insert 2 (Formula.fromFloat 1 0)) id = .ok A ∧
      (A.unify xImpX id .new).1 = .ok () ∧
      ∀ v, (((A.unify xImpX id .new).2.get v).isSome ↔ v ∈ xImpX.view.varLabels) ∧
        ∀ G H, (A.unify xImpX id .new).2.get v = some G →
          (Substitutions.new.insert 2 (Formula.fromFloat 1 0)).get v = some H →
          G.view.strip = H.view.strip :=
  ⟨varLeaves_xImpX, Formula.unify_substitute xImpX _ id varLeaves_xImpX⟩

end MetamathKnife
