import MetamathKnife.Formula.Unify

/-!
# Completing substitutions with work variables

`complete_substitutions(substitutions, wvp)` walks the formula in pre-order; at a variable node
whose label the substitutions do not bind, it asks the provider `wvp` for a work variable and
binds the label to it, as a formula of one node (`from_float`). It does not descend into a
variable node, and stops at the provider's first error.

* `subCompleteSubstitutions_eq`: on a formula whose variable nodes are leaves, the walk is the
  loop `completeList` over the formula's variable labels in pre-order (induction over the node,
  the children being `tryForEach`);
* `completeList_eq`: when the provider always answers, the loop calls it once for each label
  not yet bound, at its first occurrence (`firstNew`), and binds that label to the answer
  (`provideAll`);
* `completeSubstitutions_spec`: so the result is `Ok`, the bindings there before stay, every
  variable label of the formula is bound, and `substitute` then replaces every variable node
  of the formula (`Term.replaceVars`).
-/

namespace MetamathKnife

namespace Term

variable {L J : Type}

mutual
/-- The tree with every variable node replaced by `f` of its label, and every other label
converted by `into`. -/
def replaceVars (into : L → J) (f : L → Term (J × Bool)) : Term (L × Bool) → Term (J × Bool)
  | node (l, v) cs => if v then f l else node (into l, v) (replaceVarsList into f cs)
/-- `replaceVars` on each tree of a list. -/
def replaceVarsList (into : L → J) (f : L → Term (J × Bool)) :
    List (Term (L × Bool)) → List (Term (J × Bool))
  | [] => []
  | c :: cs => replaceVars into f c :: replaceVarsList into f cs
end

mutual
/-- A substitution binding every variable label to `f` of it replaces every variable node. -/
theorem subst_eq_replaceVars (into : L → J) (f : L → Term (J × Bool))
    (σ : L → Option (Term (J × Bool))) :
    ∀ t : Term (L × Bool), (∀ l ∈ t.varLabels, σ l = some (f l)) →
      t.subst into σ = t.replaceVars into f
  | node (l, v) cs, h => by
    rw [subst_node, replaceVars]
    cases v with
    | false =>
      rw [if_neg Bool.false_ne_true, if_neg Bool.false_ne_true, Option.getD_none,
        subst_eq_replaceVarsList into f σ cs fun l' hl' => h l' (by rw [varLabels]; simpa using hl')]
    | true => rw [if_pos rfl, if_pos rfl, h l (by simp), Option.getD_some]
theorem subst_eq_replaceVarsList (into : L → J) (f : L → Term (J × Bool))
    (σ : L → Option (Term (J × Bool))) :
    ∀ cs : List (Term (L × Bool)), (∀ l ∈ varLabelsList cs, σ l = some (f l)) →
      cs.map (subst into σ) = replaceVarsList into f cs
  | [], _ => by rw [replaceVarsList]; rfl
  | c :: cs, h => by
    rw [List.map_cons, replaceVarsList,
      subst_eq_replaceVars into f σ c fun l hl => h l (by rw [varLabelsList]; exact List.mem_append_left _ hl),
      subst_eq_replaceVarsList into f σ cs fun l hl => h l (by rw [varLabelsList]; exact List.mem_append_right _ hl)]
end

end Term

/-! ## `complete_substitutions` -/

/-- `WorkVariableProvider<L, J, E>`: `new_work_variable(label)` gives a typecode and a work
variable, or an error, and may change the provider, whose state is `S`. -/
structure WorkVariableProvider (L J E S : Type) where
  newWorkVariable : S → L → Except E (TypeCode × J) × S

namespace Formula

variable {L J E S : Type} [Inhabited L] [DecidableEq L] [Inhabited J]

/-- `sub_complete_substitutions(node_id, substitutions, wvp)`, over the substitutions and the
provider's state. -/
def subCompleteSubstitutions (F : Formula L) (n : Nat) (wvp : WorkVariableProvider L J E S)
    (st : Substitutions L J × S) : Except E Unit × (Substitutions L J × S) :=
  if F.isVariable n then
    let label := F.tree.label n
    if (st.1.get label).isNone then
      match wvp.newWorkVariable st.2 label with
      | (.ok (typecode, workVar), s) => (.ok (), st.1.insert label (fromFloat workVar typecode), s)
      | (.error e, s) => (.error e, st.1, s)
    else (.ok (), st)
  else
    tryForEach (F.tree.childrenIter n) (fun c _ st => F.subCompleteSubstitutions c wvp st) st
termination_by n
decreasing_by exact F.tree.lt_of_mem_childrenIter ‹_›

/-- `complete_substitutions(substitutions, wvp)`. -/
def completeSubstitutions (F : Formula L) (subs : Substitutions L J)
    (wvp : WorkVariableProvider L J E S) (s : S) : Except E Unit × (Substitutions L J × S) :=
  F.subCompleteSubstitutions F.root wvp (subs, s)

end Formula

section Loop

variable {L J E S : Type} [DecidableEq L]

/-- The walk of `sub_complete_substitutions` over a list of variable labels: each label not
yet bound gets a work variable, the first error ending the loop. -/
def completeList (wvp : WorkVariableProvider L J E S) :
    List L → Substitutions L J × S → Except E Unit × (Substitutions L J × S)
  | [], st => (.ok (), st)
  | l :: ls, st =>
    if (st.1.get l).isNone then
      match wvp.newWorkVariable st.2 l with
      | (.ok (typecode, workVar), s) =>
        completeList wvp ls (st.1.insert l (Formula.fromFloat workVar typecode), s)
      | (.error e, s) => (.error e, st.1, s)
    else completeList wvp ls st

theorem completeList_append (wvp : WorkVariableProvider L J E S) (ls ls' : List L)
    (st : Substitutions L J × S) :
    completeList wvp (ls ++ ls') st = match completeList wvp ls st with
      | (.ok (), st) => completeList wvp ls' st
      | (.error e, st) => (.error e, st) := by
  induction ls generalizing st with
  | nil => rfl
  | cons l ls ih =>
    rw [List.cons_append, completeList, completeList]
    split
    · split
      · exact ih _
      · rfl
    · exact ih st

/-- The labels of `ls` that `seen` does not hold, each at its first occurrence. -/
def firstNew (seen : L → Bool) : List L → List L
  | [] => []
  | l :: ls => if seen l then firstNew seen ls else l :: firstNew (fun x => seen x || x == l) ls

/-- The provider called on each label in turn, each label bound to its answer as a work
variable. -/
def provideAll (wvp : WorkVariableProvider L J E S) :
    List L → Substitutions L J × S → Substitutions L J × S
  | [], st => st
  | l :: ls, st =>
    match wvp.newWorkVariable st.2 l with
    | (.ok (typecode, workVar), s) =>
      provideAll wvp ls (st.1.insert l (Formula.fromFloat workVar typecode), s)
    | (.error _, s) => (st.1, s)

/-- The labels bound in `subs`. -/
def boundIn (subs : Substitutions L J) (l : L) : Bool := (subs.get l).isSome

theorem boundIn_insert (subs : Substitutions L J) (l : L) (F : Formula J) :
    boundIn (subs.insert l F) = fun x => boundIn subs x || x == l := by
  funext x
  by_cases h : x = l <;> simp [boundIn, h]

variable {wvp : WorkVariableProvider L J E S}

omit [DecidableEq L] in
theorem newWorkVariable_eq_ok (hwvp : ∀ s l, ∃ r, (wvp.newWorkVariable s l).1 = .ok r) (s : S)
    (l : L) : ∃ typecode workVar s', wvp.newWorkVariable s l = (.ok (typecode, workVar), s') := by
  obtain ⟨⟨typecode, workVar⟩, hr⟩ := hwvp s l
  exact ⟨typecode, workVar, _, Prod.ext hr rfl⟩

/-- **When the provider always answers, the loop calls it once for each label not yet bound,
at its first occurrence, in order.** -/
theorem completeList_eq (hwvp : ∀ s l, ∃ r, (wvp.newWorkVariable s l).1 = .ok r) :
    ∀ (ls : List L) (st : Substitutions L J × S),
      completeList wvp ls st = (.ok (), provideAll wvp (firstNew (boundIn st.1) ls) st)
  | [], st => rfl
  | l :: ls, st => by
    rw [completeList, firstNew]
    by_cases hl : (st.1.get l).isNone
    · rw [if_pos hl, if_neg (by cases h : st.1.get l <;> simp_all [boundIn]), provideAll]
      obtain ⟨typecode, workVar, s', he⟩ := newWorkVariable_eq_ok hwvp st.2 l
      rw [he]
      dsimp only
      rw [completeList_eq hwvp ls, boundIn_insert]
    · rw [if_neg hl, if_pos (by cases h : st.1.get l <;> simp_all [boundIn]),
        completeList_eq hwvp ls]

theorem provideAll_get_of_not_mem {v : L} :
    ∀ {ls : List L} (st : Substitutions L J × S), v ∉ ls →
      (provideAll wvp ls st).1.get v = st.1.get v
  | [], _, _ => rfl
  | l :: ls, st, hv => by
    rw [provideAll]
    have hvl : v ≠ l := fun h => hv (h ▸ List.mem_cons_self _ _)
    split
    · rw [provideAll_get_of_not_mem _ fun h => hv (List.mem_cons_of_mem _ h),
        Substitutions.get_insert, if_neg hvl]
    · rfl

theorem provideAll_bound (hwvp : ∀ s l, ∃ r, (wvp.newWorkVariable s l).1 = .ok r) {v : L} :
    ∀ {ls : List L} (st : Substitutions L J × S), v ∈ ls ∨ boundIn st.1 v = true →
      boundIn (provideAll wvp ls st).1 v = true
  | [], _, h => h.resolve_left (List.not_mem_nil _)
  | l :: ls, st, h => by
    rw [provideAll]
    obtain ⟨typecode, workVar, s', he⟩ := newWorkVariable_eq_ok hwvp st.2 l
    rw [he]
    refine provideAll_bound hwvp _ ?_
    rw [boundIn_insert]
    rcases h with h | h
    · rcases List.mem_cons.mp h with rfl | h
      · simp
      · exact .inl h
    · simp [h]

theorem mem_firstNew {seen : L → Bool} {v : L} :
    ∀ {ls : List L}, v ∈ ls → seen v = false → v ∈ firstNew seen ls
  | l :: ls, hv, hs => by
    rw [firstNew]
    split
    · rename_i hl
      rcases List.mem_cons.mp hv with rfl | hv
      · rw [hs] at hl; cases hl
      · exact mem_firstNew hv hs
    · by_cases hvl : v = l
      · exact hvl ▸ List.mem_cons_self _ _
      · rcases List.mem_cons.mp hv with rfl | hv
        · exact absurd rfl hvl
        · exact List.mem_cons_of_mem _ (mem_firstNew hv (by simp [hs, hvl]))

theorem not_mem_firstNew {seen : L → Bool} {v : L} (hs : seen v = true) :
    ∀ {ls : List L}, v ∉ firstNew seen ls
  | [] => List.not_mem_nil _
  | l :: ls => by
    rw [firstNew]
    split
    · exact not_mem_firstNew hs
    · rename_i hl
      rintro (_ | ⟨_, h⟩)
      · exact hl hs
      · exact not_mem_firstNew (by simp [hs]) h

end Loop

namespace Formula

variable {L J E S : Type} [Inhabited L] [DecidableEq L] [Inhabited J]

omit [Inhabited J] in
theorem tryForEach_completeList (F : Formula L) (wvp : WorkVariableProvider L J E S) :
    ∀ {cs : List Nat} (step : ∀ c ∈ cs, Substitutions L J × S → Except E Unit × (Substitutions L J × S)),
    (∀ c hc st, step c hc st = completeList wvp (F.nodeView c).varLabels st) →
    ∀ st, tryForEach cs step st = completeList wvp (cs.flatMap fun c => (F.nodeView c).varLabels) st
  | [], _, _, st => rfl
  | c :: cs, step, hstep, st => by
    rw [tryForEach, List.flatMap_cons, completeList_append, hstep]
    split
    · rename_i st' he
      rw [he]
      exact tryForEach_completeList F wvp _ (fun c' hc' => hstep c' (List.mem_cons_of_mem _ hc')) st'
    · rename_i e st' he
      rw [he]

omit [Inhabited J] in
/-- **`sub_complete_substitutions` walks the variable labels in pre-order**, on a node whose
tree has its variable nodes as leaves. -/
theorem subCompleteSubstitutions_eq (F : Formula L) (wvp : WorkVariableProvider L J E S)
    (n : Nat) : ∀ st, (F.nodeView n).VarLeaves →
      F.subCompleteSubstitutions n wvp st = completeList wvp (F.nodeView n).varLabels st := by
  induction n using Nat.strong_induction_on with
  | _ n ih =>
    intro st hl
    rw [nodeView_eq] at hl
    rw [subCompleteSubstitutions.eq_def, nodeView_eq]
    cases hv : F.isVariable n
    · rw [hv] at hl
      rw [if_neg Bool.false_ne_true, Term.varLabels_node, if_neg Bool.false_ne_true,
        List.nil_append, List.flatMap_map]
      exact tryForEach_completeList F wvp _ (fun c hc st => ih c (F.tree.lt_of_mem_childrenIter hc) st
        (hl.of_mem (List.mem_map_of_mem _ hc))) st
    · rw [hv] at hl
      rw [if_pos rfl, Term.varLabels_node, if_pos rfl, List.map_eq_nil_iff.mp hl.nil_of_var]
      rfl

/-- What `complete_substitutions` guarantees, from the substitutions `σ0` and the provider's
state `s0`, for what it returns, `r`. -/
structure CompleteCorrect (F : Formula L) (into : L → J) (σ0 : Substitutions L J)
    (wvp : WorkVariableProvider L J E S) (s0 : S) (r : Except E Unit × (Substitutions L J × S)) :
    Prop where
  /-- The result is `Ok`. -/
  ok : r.1 = .ok ()
  /-- The provider is called once for each variable label of the formula that `σ0` does not
  bind, in the order of their first occurrences in pre-order, and each such label is bound to
  `from_float` of the work variable and typecode that call returned. -/
  calls : r.2 = provideAll wvp (firstNew (boundIn σ0) F.view.varLabels) (σ0, s0)
  /-- The bindings of `σ0` are unchanged. -/
  keeps : ∀ l G, σ0.get l = some G → r.2.1.get l = some G
  /-- Every variable label of the formula is bound. -/
  bound : ∀ l ∈ F.view.varLabels, (r.2.1.get l).isSome
  /-- `substitute` then replaces every variable node of the formula by its binding. -/
  replaces : ∃ G, F.substitute r.2.1 into = .ok G ∧
    G.view = F.view.replaceVars into fun l => ((r.2.1.get l).map Formula.view).getD default

/-- **`complete_substitutions` binds every variable of the formula**, when the provider always
answers and the formula's variable nodes are leaves. -/
theorem completeSubstitutions_spec (F : Formula L) (into : L → J) (σ0 : Substitutions L J)
    (wvp : WorkVariableProvider L J E S) (s0 : S)
    (hwvp : ∀ s l, ∃ r, (wvp.newWorkVariable s l).1 = .ok r) (hleaves : F.view.VarLeaves) :
    CompleteCorrect F into σ0 wvp s0 (F.completeSubstitutions σ0 wvp s0) := by
  have heq : F.completeSubstitutions σ0 wvp s0 =
      (.ok (), provideAll wvp (firstNew (boundIn σ0) F.view.varLabels) (σ0, s0)) :=
    (F.subCompleteSubstitutions_eq wvp F.root (σ0, s0) hleaves).trans
      (completeList_eq hwvp _ (σ0, s0))
  have hbound : ∀ l ∈ F.view.varLabels, ((F.completeSubstitutions σ0 wvp s0).2.1.get l).isSome :=
    fun l hl => by
      rw [heq]
      refine provideAll_bound hwvp _ ?_
      cases hs : boundIn σ0 l
      · exact .inl (mem_firstNew hl hs)
      · exact .inr rfl
  refine ⟨by rw [heq], by rw [heq], fun l G hG => ?_, hbound, ?_⟩
  · rw [heq, provideAll_get_of_not_mem _ (not_mem_firstNew (by simp [boundIn, hG])), hG]
  · obtain ⟨G, hG⟩ := F.substitute_ok (F.completeSubstitutions σ0 wvp s0).2.1 into
    refine ⟨G, hG, (view_of_substitute hG).2.trans (Term.subst_eq_replaceVars _ _ _ _ ?_)⟩
    intro l hl
    obtain ⟨H, hH⟩ := Option.isSome_iff_exists.mp (hbound l hl)
    simp [Substitutions.view, hH]

end Formula

/-- `( ph -> ps )`, the labels `->`, `ph` and `ps` being `0`, `1` and `2`, `ph` and `ps`
variables. -/
def phImpPs : Formula Nat :=
  .ofNodes [(1, []), (2, []), (0, [0, 1])] ((Bitset.new.setBit 0).setBit 1) (by decide)
    (by decide) (by decide)

/-- A provider that numbers its work variables from `100`, of typecode `5`. -/
def countingProvider : WorkVariableProvider Nat Nat Unit Nat :=
  ⟨fun s _ => (.ok (5, 100 + s), s + 1)⟩

theorem view_phImpPs : phImpPs.view = .node (0, false) [.node (1, true) [], .node (2, true) []] := by
  simp [Formula.view, Formula.nodeView, Tree.view_eq, phImpPs, Formula.ofNodes, Tree.label,
    Tree.childrenIter]

/-- Completing `( ph -> ps )` from no bindings: `ph` and `ps` get the work variables `100`
and `101`. -/
theorem complete_phImpPs :
    ((∀ s l, ∃ r, (countingProvider.newWorkVariable s l).1 = .ok r) ∧ phImpPs.view.VarLeaves) ∧
    Formula.CompleteCorrect phImpPs id .new countingProvider 0
      (phImpPs.completeSubstitutions .new countingProvider 0) :=
  have h : (∀ s l, ∃ r, (countingProvider.newWorkVariable s l).1 = .ok r) ∧
      phImpPs.view.VarLeaves :=
    ⟨fun s _ => ⟨(5, 100 + s), rfl⟩, by
      rw [view_phImpPs]
      exact .node (fun h => nomatch h) (by simp [Term.VarLeaves.node])⟩
  ⟨h, Formula.completeSubstitutions_spec phImpPs id .new countingProvider 0 h.1 h.2⟩

end MetamathKnife
