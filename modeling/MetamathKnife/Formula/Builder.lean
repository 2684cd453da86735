import MetamathKnife.Formula.Tree

/-!
# The formula builder

`FormulaBuilder` makes a formula bottom-up: `reduce(label, var_count, offset, is_variable)`
replaces `var_count` entries of its stack (`offset` entries below the top) by one new node
having them as children, and `build` makes a formula of the one entry left.

* `reduce_offset_spec`: when `var_count + offset` is at most the stack's length and at most
  `255`, `reduce` replaces the `var_count` entries `offset` below the top by a new node having
  them as children; `reduce_panics_of_overflow`: when the sum exceeds `255`, the `u8` addition
  overflows and `reduce` panics, however deep the stack;
* `reduce_spec`: with no offset and at most the stack's length as count, `reduce` does not
  panic; it pops the last `var_count` entries and pushes the new node, whose tree has theirs
  as children, and it keeps every tree built before (`Le`);
* `forChildren_reduce`: the body of `sub_substitute` and `copy_sub_formula`, the loop
  `for c in children { step(c); count += 1 }` and the `reduce` of `count` entries, leaves one
  more entry, a node over the children's trees in order, when each step leaves one entry.
-/

namespace MetamathKnife

open Verify (Fault ok_bind)

/-- `FormulaBuilder<L>`: a stack of nodes, the set of the nodes that are variables, and the
tree being built. Every node on the stack or in the set is in the tree, and, `reduce` taking a
`u8` count, no node of the tree has more than 255 children. -/
structure FormulaBuilder (L : Type) where
  stack : List Nat
  /-- `variables`. -/
  vars : Bitset
  tree : Tree L
  stack_lt : ∀ i ∈ stack, i < tree.size
  vars_lt : ∀ i, vars.hasBit i = true → i < tree.size
  arity_le : ∀ n, (tree.childrenIter n).length ≤ 255

theorem uint8_toNat_le (x : UInt8) : x.toNat ≤ 255 := Nat.le_of_lt_succ x.toNat_lt_size

theorem uint8_toNat_add (x y : UInt8) : (x + y).toNat = (x.toNat + y.toNat) % 256 := by
  simp [UInt8.add_def, UInt8.toNat, Fin.val_add]

namespace FormulaBuilder

variable {L : Type}

/-- `FormulaBuilder::default()`. -/
instance : Inhabited (FormulaBuilder L) :=
  ⟨⟨[], Bitset.new, default, nofun, fun i h => absurd h (by rw [Bitset.hasBit_new]; decide),
    fun _ => Nat.zero_le _⟩⟩

@[simp] theorem stack_default : (default : FormulaBuilder L).stack = [] := rfl

/-! ## `reduce` -/

theorem reduce_children_lt (fb : FormulaBuilder L) (s e : Nat) :
    ∀ c ∈ (fb.stack.take e).drop s, c < fb.tree.size :=
  fun c hc => fb.stack_lt c (List.mem_of_mem_take (List.mem_of_mem_drop hc))

theorem reduce_stack_lt (fb : FormulaBuilder L) (t : Tree L) (ht : t.size = fb.tree.size + 1)
    (s e : Nat) : ∀ i ∈ fb.stack.take s ++ fb.tree.size :: fb.stack.drop e, i < t.size := by
  intro i hi
  simp only [List.mem_append, List.mem_cons] at hi
  rcases hi with hi | rfl | hi
  · have := fb.stack_lt i (List.mem_of_mem_take hi); omega
  · omega
  · have := fb.stack_lt i (List.mem_of_mem_drop hi); omega

theorem reduce_vars_lt (fb : FormulaBuilder L) (t : Tree L) (ht : t.size = fb.tree.size + 1)
    (isVariable : Bool) :
    ∀ i, (if isVariable then fb.vars.setBit fb.tree.size else fb.vars).hasBit i = true →
      i < t.size := by
  intro i hi
  have h := fb.vars_lt i
  split_ifs at hi
  · rw [Bitset.hasBit_setBit, Bool.or_eq_true, decide_eq_true_eq] at hi
    rcases hi with hi | rfl
    · have := h hi; omega
    · omega
  · have := h hi; omega

theorem reduce_arity_le (fb : FormulaBuilder L) (label : L) {cs : List Nat} (h)
    (hcs : cs.length ≤ 255) : ∀ n, ((fb.tree.addNode label cs h).1.childrenIter n).length ≤ 255 := by
  intro n
  rw [Tree.childrenIter_addNode]
  split_ifs
  exacts [hcs, fb.arity_le n]

theorem length_reduce_children (stack : List Nat) (k off : UInt8)
    (hk : (k + off).toNat ≤ stack.length)
    (hse : stack.length - (k + off).toNat ≤ stack.length - off.toNat) :
    ((stack.take (stack.length - off.toNat)).drop (stack.length - (k + off).toNat)).length ≤ 255 := by
  have := uint8_toNat_le (k + off)
  simp only [List.length_drop, List.length_take]
  omega

/-- `reduce(label, var_count, offset, is_variable)`: the nodes at
`[len - (var_count + offset), len - offset)` of the stack become the children of a new node,
which takes their place. The `assert!` and `drain`'s range check panic. -/
def reduce (fb : FormulaBuilder L) (label : L) (varCount offset : UInt8) (isVariable : Bool) :
    Except Fault (FormulaBuilder L) :=
  if hk : fb.stack.length < (varCount + offset).toNat then throw .panic else
  let reduceStart := fb.stack.length - (varCount + offset).toNat
  let reduceEnd := fb.stack.length - offset.toNat
  if hse : reduceEnd < reduceStart then throw .panic else
  let children := (fb.stack.take reduceEnd).drop reduceStart
  let r := fb.tree.addNode label children (fb.reduce_children_lt _ _)
  pure
    { stack := fb.stack.take reduceStart ++ r.2 :: fb.stack.drop reduceEnd
      vars := if isVariable then fb.vars.setBit r.2 else fb.vars
      tree := r.1
      stack_lt := fb.reduce_stack_lt r.1 (Tree.size_addNode ..) _ _
      vars_lt := fb.reduce_vars_lt r.1 (Tree.size_addNode ..) isVariable
      arity_le := fb.reduce_arity_le label _
        (length_reduce_children fb.stack varCount offset (Nat.le_of_not_lt hk)
          (Nat.le_of_not_lt hse)) }

/-- **`reduce` with counts whose sum fits in a `u8`**: when `var_count + offset` is at most the
stack's length `n`, `reduce` does not panic; the stack becomes `s[0..i] ++ [m] ++ s[j..n]`, for
`i = n - var_count - offset` and `j = n - offset`, `m` a node added to the tree, labelled `label`
with the children `s[i..j]` in order, and a variable exactly when `is_variable`; the nodes
before it and their flags are unchanged. -/
theorem reduce_offset_spec (fb : FormulaBuilder L) (label : L) {varCount offset : UInt8}
    (isVariable : Bool) (h : varCount.toNat + offset.toNat ≤ fb.stack.length)
    (h255 : varCount.toNat + offset.toNat ≤ 255) :
    ∃ fb', fb.reduce label varCount offset isVariable = .ok fb' ∧
      fb'.stack = fb.stack.take (fb.stack.length - varCount.toNat - offset.toNat) ++
        fb.tree.size :: fb.stack.drop (fb.stack.length - offset.toNat) ∧
      fb'.tree.nodes = fb.tree.nodes ++ [(label, (fb.stack.take (fb.stack.length - offset.toNat)).drop
        (fb.stack.length - varCount.toNat - offset.toNat))] ∧
      fb'.vars.hasBit fb.tree.size = isVariable ∧
      ∀ i < fb.tree.size, fb'.vars.hasBit i = fb.vars.hasBit i := by
  have hsum : (varCount + offset).toNat = varCount.toNat + offset.toNat := by
    rw [uint8_toNat_add]; exact Nat.mod_eq_of_lt (by omega)
  have hsub : fb.stack.length - (varCount + offset).toNat =
      fb.stack.length - varCount.toNat - offset.toNat := by omega
  rw [reduce, dif_neg (by omega), dif_neg (by omega)]
  refine ⟨_, rfl, by simp only [Tree.id_addNode, hsub], by simp only [Tree.addNode, hsub], ?_,
    fun i hi => ?_⟩
  · have hnew : fb.vars.hasBit fb.tree.size = false :=
      Bool.eq_false_iff.mpr fun hb => Nat.lt_irrefl _ (fb.vars_lt _ hb)
    cases isVariable <;> simp [hnew]
  · cases isVariable <;> simp [Nat.ne_of_gt hi]

/-- **`reduce` panics when the `u8` sum `var_count + offset` overflows**, on every stack at least
that deep: with overflow checks the addition panics; without them it wraps to
`var_count + offset - 256`, so `reduce_start = n - var_count - offset + 256` passes
`reduce_end = n - offset` and `drain` panics. The model computes the wrapped sum. -/
theorem reduce_panics_of_overflow (fb : FormulaBuilder L) (label : L) {varCount offset : UInt8}
    (isVariable : Bool) (h : varCount.toNat + offset.toNat ≤ fb.stack.length)
    (hover : 256 ≤ varCount.toNat + offset.toNat) :
    fb.reduce label varCount offset isVariable = .error .panic := by
  have hv := uint8_toNat_le varCount
  have ho := uint8_toNat_le offset
  have hsum : (varCount + offset).toNat = varCount.toNat + offset.toNat - 256 := by
    rw [uint8_toNat_add]; omega
  rw [reduce, dif_neg (by omega), dif_pos (by omega)]
  rfl

/-! ## What was built stays -/

variable [Inhabited L]

/-- The tree below node `n` of the tree being built. -/
def nodeView (fb : FormulaBuilder L) (n : Nat) : Term (L × Bool) := fb.tree.view fb.vars n

/-- `fb'` grows `fb`: it has the nodes of `fb`, with the same trees below them. -/
def Le (fb fb' : FormulaBuilder L) : Prop :=
  fb.tree.size ≤ fb'.tree.size ∧ ∀ n < fb.tree.size, fb'.nodeView n = fb.nodeView n

theorem Le.refl (fb : FormulaBuilder L) : fb.Le fb := ⟨Nat.le_refl _, fun _ _ => rfl⟩

theorem Le.trans {fb₁ fb₂ fb₃ : FormulaBuilder L} (h₁ : fb₁.Le fb₂) (h₂ : fb₂.Le fb₃) :
    fb₁.Le fb₃ :=
  ⟨Nat.le_trans h₁.1 h₂.1, fun n hn => (h₂.2 n (Nat.lt_of_lt_of_le hn h₁.1)).trans (h₁.2 n hn)⟩

/-- A node on the stack of `fb` has the same tree in a builder that grows it. -/
theorem Le.nodeView_stack {fb fb' : FormulaBuilder L} (h : fb.Le fb') {r : Nat}
    (hr : r ∈ fb.stack) : fb'.nodeView r = fb.nodeView r :=
  h.2 r (fb.stack_lt r hr)

/-- **`reduce` with no offset** pops the last `var_count` entries and pushes a node having
them as children, flagged `is_variable`. -/
theorem reduce_spec (fb : FormulaBuilder L) (label : L) {k : UInt8} (isVariable : Bool)
    (hk : k.toNat ≤ fb.stack.length) :
    ∃ fb', fb.reduce label k 0 isVariable = .ok fb' ∧ fb.Le fb' ∧
      fb'.stack = fb.stack.take (fb.stack.length - k.toNat) ++ [fb.tree.size] ∧
      fb'.nodeView fb.tree.size =
        .node (label, isVariable) ((fb.stack.drop (fb.stack.length - k.toNat)).map fb.nodeView) := by
  have hk0 : (k + 0).toNat = k.toNat := by
    rw [uint8_toNat_add, UInt8.toNat_zero, Nat.add_zero]
    exact Nat.mod_eq_of_lt (Nat.lt_succ_of_le (uint8_toNat_le k))
  have hvars : ∀ i < fb.tree.size,
      (if isVariable then fb.vars.setBit fb.tree.size else fb.vars).hasBit i = fb.vars.hasBit i := by
    intro i hi; split_ifs <;> simp [Nat.ne_of_gt hi]
  rw [reduce, dif_neg (by rw [hk0]; omega), dif_neg (by simp only [hk0, UInt8.toNat_zero]; omega)]
  refine ⟨_, rfl, ⟨by simp, fun n hn => ?_⟩, by simp [hk0], ?_⟩
  · exact Tree.view_addNode _ _ _ (fb.reduce_children_lt _ _) hvars n hn
  simp only [nodeView, Tree.view_eq, Tree.label_addNode, Tree.childrenIter_addNode,
    if_true, Tree.id_addNode, hk0, UInt8.toNat_zero, Nat.sub_zero, List.take_length]
  refine congrArg₂ Term.node (Prod.ext rfl ?_) (List.map_congr_left fun c hc => ?_)
  · split_ifs with hv
    · simp [hv]
    · simpa [hv] using fun h => Nat.lt_irrefl _ (fb.vars_lt _ h)
  · exact Tree.view_addNode _ _ _ (fun c hc => fb.stack_lt c (List.mem_of_mem_drop hc)) hvars c
      (fb.stack_lt c (List.mem_of_mem_drop hc))

end FormulaBuilder

/-- `n` leaves labelled `0` pushed on `FormulaBuilder::default()`, each by
`reduce(0, 0, 0, false)`. -/
def pushLeaves : Nat → Except Fault (FormulaBuilder Nat)
  | 0 => pure default
  | n + 1 => do
    let fb ← pushLeaves n
    fb.reduce 0 0 0 false

theorem pushLeaves_length : ∀ n, ∃ fb, pushLeaves n = .ok fb ∧ fb.stack.length = n
  | 0 => ⟨default, rfl, rfl⟩
  | n + 1 => by
    obtain ⟨fb, hfb, hlen⟩ := pushLeaves_length n
    obtain ⟨fb', hred, -, hst, -⟩ := fb.reduce_spec 0 (k := 0) false (Nat.zero_le _)
    refine ⟨fb', by rw [pushLeaves, hfb, ok_bind, hred], ?_⟩
    simp [hst, hlen]

/-- The stack of 256 leaves, reduced over `128` entries `128` below the top. -/
theorem reduce_pushLeaves_panics :
    ∃ fb, pushLeaves 256 = .ok fb ∧
      (128 : UInt8).toNat + (128 : UInt8).toNat ≤ fb.stack.length ∧
      256 ≤ (128 : UInt8).toNat + (128 : UInt8).toNat ∧
      fb.reduce 0 128 128 false = .error .panic := by
  obtain ⟨fb, hfb, hlen⟩ := pushLeaves_length 256
  have h : (128 : UInt8).toNat + (128 : UInt8).toNat ≤ fb.stack.length := by rw [hlen]; decide
  exact ⟨fb, hfb, h, by decide, FormulaBuilder.reduce_panics_of_overflow fb 0 false h (by decide)⟩

/-- The stack of four leaves, the two below the top reduced into a variable node. -/
theorem reduce_pushLeaves_offset :
    ∃ fb, pushLeaves 4 = .ok fb ∧
      (2 : UInt8).toNat + (1 : UInt8).toNat ≤ fb.stack.length ∧
      (2 : UInt8).toNat + (1 : UInt8).toNat ≤ 255 ∧
      ∃ fb', fb.reduce 7 2 1 true = .ok fb' ∧
        fb'.stack = fb.stack.take (fb.stack.length - (2 : UInt8).toNat - (1 : UInt8).toNat) ++
          fb.tree.size :: fb.stack.drop (fb.stack.length - (1 : UInt8).toNat) ∧
        fb'.tree.nodes = fb.tree.nodes ++
          [(7, (fb.stack.take (fb.stack.length - (1 : UInt8).toNat)).drop
            (fb.stack.length - (2 : UInt8).toNat - (1 : UInt8).toNat))] ∧
        fb'.vars.hasBit fb.tree.size = true ∧
        ∀ i < fb.tree.size, fb'.vars.hasBit i = fb.vars.hasBit i := by
  obtain ⟨fb, hfb, hlen⟩ := pushLeaves_length 4
  have h : (2 : UInt8).toNat + (1 : UInt8).toNat ≤ fb.stack.length := by rw [hlen]; decide
  exact ⟨fb, hfb, h, by decide, FormulaBuilder.reduce_offset_spec fb 7 true h (by decide)⟩

namespace FormulaBuilder

variable {L : Type} [Inhabited L]

/-! ## `build` -/

/-- `build(typecode)`: the formula of the one node left on the stack; its `assert!` panics
on any other stack. -/
def build (fb : FormulaBuilder L) (typecode : TypeCode) : Except Fault (Formula L) :=
  match h : fb.stack with
  | [root] => pure ⟨typecode, fb.tree, root, fb.vars, fb.stack_lt root (by simp [h]), fb.arity_le⟩
  | _ => throw .panic

theorem build_spec (fb : FormulaBuilder L) (typecode : TypeCode) {r : Nat} (h : fb.stack = [r]) :
    ∃ F, fb.build typecode = .ok F ∧ F.typecode = typecode ∧ F.view = fb.nodeView r := by
  unfold build
  split
  · rename_i r' h'
    obtain rfl : r' = r := by simpa [h] using h'.symm
    exact ⟨_, rfl, rfl, rfl⟩
  · rename_i hne; exact absurd h (hne r)

/-! ## Loops of steps -/

/-- The loop `for c in children { step(c); children_count += 1 }` of `copy_sub_formula` and
`sub_substitute`, its count a `u8`; a step may use that `c` is one of the children. -/
def forChildren (cs : List Nat) (step : ∀ c ∈ cs, FormulaBuilder L → Except Fault (FormulaBuilder L))
    (fb : FormulaBuilder L) : Except Fault (FormulaBuilder L × UInt8) :=
  cs.attach.foldlM (fun acc c => do
    let fb ← step c.1 c.2 acc.1
    pure (fb, acc.2 + 1)) (fb, 0)

/-- A step that leaves one more entry on the stack, the tree `T c`, and keeps what was built. -/
def Pushes (step : Nat → FormulaBuilder L → Except Fault (FormulaBuilder L))
    (T : Nat → Term (L × Bool)) (c : Nat) : Prop :=
  ∀ fb, ∃ fb', step c fb = .ok fb' ∧ fb.Le fb' ∧ ∃ r, fb'.stack = fb.stack ++ [r] ∧ fb'.nodeView r = T c

theorem foldlM_pushes {step : Nat → FormulaBuilder L → Except Fault (FormulaBuilder L)}
    {T : Nat → Term (L × Bool)} :
    ∀ (cs : List Nat) (fb : FormulaBuilder L) (k : UInt8), (∀ c ∈ cs, Pushes step T c) →
    ∃ fb' k', cs.foldlM (fun acc c => do let fb ← step c acc.1; pure (fb, acc.2 + 1)) (fb, k) =
        .ok (fb', k') ∧ k'.toNat = (k.toNat + cs.length) % 256 ∧ fb.Le fb' ∧
      ∃ rs, fb'.stack = fb.stack ++ rs ∧ rs.map fb'.nodeView = cs.map T
  | [], fb, k, _ =>
    ⟨fb, k, rfl, by have := uint8_toNat_le k; simp only [List.length_nil, Nat.add_zero]; omega,
      Le.refl fb, [], by simp, rfl⟩
  | c :: cs, fb, k, hcs => by
    obtain ⟨fb₁, h₁, hle₁, r, hst₁, hr⟩ := hcs c (List.mem_cons_self _ _) fb
    obtain ⟨fb', k', hrun, hk', hle', rs, hst', hrs⟩ :=
      foldlM_pushes cs fb₁ (k + 1) fun c' hc' => hcs c' (List.mem_cons_of_mem _ hc')
    refine ⟨fb', k', ?_, ?_, hle₁.trans hle', r :: rs, by simp [hst', hst₁], ?_⟩
    · simp only [List.foldlM_cons, h₁]
      exact hrun
    · rw [hk', uint8_toNat_add, show (1 : UInt8).toNat = 1 from rfl, List.length_cons]
      omega
    · rw [List.map_cons, List.map_cons, hrs, hle'.nodeView_stack (by simp [hst₁]), hr]

/-- **The body of `copy_sub_formula` and `sub_substitute`**: when each child's step leaves one
entry, the loop and the `reduce` of as many entries leave one entry, a node over the children's
trees in order. -/
theorem forChildren_reduce {step : Nat → FormulaBuilder L → Except Fault (FormulaBuilder L)}
    {T : Nat → Term (L × Bool)} {cs : List Nat} (hcs : ∀ c ∈ cs, Pushes step T c)
    (hlen : cs.length ≤ 255) (label : L) (isVariable : Bool) (fb : FormulaBuilder L) :
    ∃ fb', (do
        let (fb, childrenCount) ← forChildren cs (fun c _ => step c) fb
        fb.reduce label childrenCount 0 isVariable) = .ok fb' ∧ fb.Le fb' ∧
      ∃ r, fb'.stack = fb.stack ++ [r] ∧ fb'.nodeView r = .node (label, isVariable) (cs.map T) := by
  obtain ⟨fb₁, k, hrun, hk, hle₁, rs, hst₁, hrs⟩ := foldlM_pushes cs fb 0 hcs
  have hrun' : forChildren cs (fun c _ => step c) fb = .ok (fb₁, k) := by
    rw [forChildren]
    refine (List.foldlM_map Subtype.val (fun (acc : FormulaBuilder L × UInt8) c => do
      let fb ← step c acc.1
      pure (fb, acc.2 + 1)) cs.attach (fb, 0)).symm.trans ?_
    rw [List.attach_map_subtype_val]
    exact hrun
  have hk' : k.toNat = rs.length := by
    rw [hk, UInt8.toNat_zero, Nat.zero_add, Nat.mod_eq_of_lt (by omega), ← List.length_map rs,
      hrs, List.length_map]
  have hsplit : fb₁.stack.length - k.toNat = fb.stack.length := by simp [hst₁, hk']
  obtain ⟨fb', hred, hle', hst', hv'⟩ :=
    @reduce_spec _ _ fb₁ label k isVariable (by simp [hst₁, hk'])
  refine ⟨fb', by rw [hrun', ok_bind]; exact hred, hle₁.trans hle', fb₁.tree.size, ?_, ?_⟩
  · rw [hst', hsplit, hst₁, List.take_left]
  · rw [hv', hsplit, hst₁, List.drop_left, hrs]

end FormulaBuilder

end MetamathKnife
