import MetamathKnife.Formula.Flatten
import Mathlib.Data.List.Forall2

/-!
# Syntax proofs

`FormulaRef::build_syntax_proof` turns a formula into the proof that it is a well-formed
formula: at each node, the proofs of the children in order, then the statement of the node's
label applied to them through a `ProofBuilder`. Children are stored in the order in which their
variables appear in the statement, a proof lists the floating hypotheses in the frame's order:
the proof of the hypothesis of variable index `i` is the `i`-th child's. Each node's expression
is its subformula (`to_rerooted`) appended to the stack buffer by `append_to_stack_buffer`.

* `SyntaxTyped`: a syntax tree of the database proving a typecode, a leaf labelled by a
  hypothesis or a node labelled by a syntax axiom whose target spells its statement, with one
  child per variable, typed as the floating hypotheses of its index;
* `ProofTree.steps`: a proof tree read as the steps of the reference machine of
  `Verify.Reference`, each node citing the statement at its address as a proof cites its label;
* `refRun_steps_syntaxAxiom`: one node of the replay, a syntax axiom applied to the entries its
  hypotheses' proofs push;
* `subBuildSyntaxProof_proves`: on every node of a formula whose tree there is typed, with the
  builder of proof trees, `sub_build_syntax_proof` does not panic, only appends to the stack
  buffer, and returns a tree whose replay, from any stack, pushes the node's typecode and the
  tokens of its subformula, the canonical encoding of which is the root's expression;
* `buildSyntaxProof_proves`: so for the formula itself.
-/

namespace MetamathKnife

open Verify (Fault Token StatementAddress Range Frame Hyp ScopeReader ExprFragment RefStep
  RefEntry refRun refRun_append refExec refSubst refFloats HypsOk DvOk labelStep unspace getIdx ok_bind
  bind_eq_ok)

/-- Modelled from the spec: the database as `build_syntax_proof` reads it: what `Flatten` reads,
the typecode of the statement a label names (`label_typecode`), and the frames of the scope
analysis (`scope_result().get`). -/
structure ProofDb extends Database where
  labelTypecode : Label → TypeCode
  scopes : ScopeReader

/-- `compute_typecode_at(node_id)`: the typecode of the statement labelling the node. -/
def computeTypecodeAt (pdb : ProofDb) (F : Formula Label) (n : Nat) : TypeCode :=
  pdb.labelTypecode (F.tree.label n)

/-- `to_rerooted(new_root)`: the formula at another node of the same tree, with the same
variables and the typecode of that node's statement. -/
def toRerooted (pdb : ProofDb) (F : Formula Label) (n : Nat) (h : n < F.tree.size) :
    Formula Label :=
  { F with typecode := computeTypecodeAt pdb F n, root := n, root_lt := h }

@[simp] theorem view_toRerooted (pdb : ProofDb) (F : Formula Label) (n : Nat)
    (h : n < F.tree.size) : (toRerooted pdb F n h).view = F.nodeView n := rfl

/-- Modelled from the spec: a `ProofBuilder` (`proof.rs` is not among the sources) as
`build_syntax_proof` uses it: `build(address, hyps, stack_buffer, range)` makes the node of the
statement at `address` over the items of its hypotheses' proofs, with the expression
`stack_buffer[range]`, and returns its item; the builder's state `σ` is threaded through. -/
structure ProofBuilder (σ I : Type) where
  build : σ → StatementAddress → List I → List UInt8 → Range → Except Fault (I × σ)

section Build

variable {σ I : Type}

/-- `sub_build_syntax_proof(node_id, stack_buffer, arr)`: the items of the children's proofs in
order, then the node's, over the items its floating hypotheses pick by variable index, with the
subformula at the node appended to the stack buffer as its expression. `lookup_label` and
`scope_result().get` are unwrapped and `children_hyps[index]` indexed, each a panic on a miss;
an id past the arena, which no formula reaches, is a panic of `tree[node_id]`. -/
def subBuildSyntaxProof (pdb : ProofDb) (F : Formula Label) (arr : ProofBuilder σ I) (n : Nat)
    (stackBuffer : List UInt8) (s : σ) : Except Fault (I × List UInt8 × σ) :=
  if hn : n < F.tree.size then do
    let token := pdb.atomName (F.tree.label n)
    let some address := pdb.lookupLabel token | throw .panic
    let some frame := pdb.scopes token | throw .panic
    let (childrenHyps, stackBuffer, s) ← (F.tree.childrenIter n).attach.foldlM
      (fun acc c => do
        let (i, stackBuffer, s) ← subBuildSyntaxProof pdb F arr c.1 acc.2.1 acc.2.2
        pure (acc.1 ++ [i], stackBuffer, s)) ([], stackBuffer, s)
    let hyps ← (frame.hypotheses.filter (·.isFloat)).mapM fun hyp =>
      getIdx childrenHyps hyp.variableIndex
    let (stackBuffer, range) ←
      (FormulaRef.mk pdb.toDatabase (toRerooted pdb F n hn)).appendToStackBuffer stackBuffer
    let (i, s) ← arr.build s address hyps stackBuffer range
    pure (i, stackBuffer, s)
  else throw .panic
termination_by n
decreasing_by exact F.tree.lt_of_mem_childrenIter c.2

/-- `build_syntax_proof(stack_buffer, arr)`: the syntax proof of the root. -/
def buildSyntaxProof (pdb : ProofDb) (F : Formula Label) (stackBuffer : List UInt8)
    (arr : ProofBuilder σ I) (s : σ) : Except Fault (I × List UInt8 × σ) :=
  subBuildSyntaxProof pdb F arr F.root stackBuffer s

/-- The loop over the children, without the membership proofs the recursion carries. -/
def childrenLoop (g : Nat → List UInt8 → σ → Except Fault (I × List UInt8 × σ)) (cs : List Nat)
    (acc : List I × List UInt8 × σ) : Except Fault (List I × List UInt8 × σ) :=
  cs.foldlM (fun acc c => do
    let (i, stackBuffer, s) ← g c acc.2.1 acc.2.2
    pure (acc.1 ++ [i], stackBuffer, s)) acc

/-- `sub_build_syntax_proof` on a node whose label resolves, its steps in order. -/
theorem subBuildSyntaxProof_eq (pdb : ProofDb) (F : Formula Label) (arr : ProofBuilder σ I)
    {n : Nat} (hn : n < F.tree.size) {address : StatementAddress} {frame : Frame}
    (ha : pdb.lookupLabel (pdb.atomName (F.tree.label n)) = some address)
    (hf : pdb.scopes (pdb.atomName (F.tree.label n)) = some frame)
    (stackBuffer : List UInt8) (s : σ) :
    subBuildSyntaxProof pdb F arr n stackBuffer s = (do
      let (childrenHyps, stackBuffer, s) ← childrenLoop (subBuildSyntaxProof pdb F arr)
        (F.tree.childrenIter n) ([], stackBuffer, s)
      let hyps ← (frame.hypotheses.filter (·.isFloat)).mapM fun hyp =>
        getIdx childrenHyps hyp.variableIndex
      let (stackBuffer, range) ←
        (FormulaRef.mk pdb.toDatabase (toRerooted pdb F n hn)).appendToStackBuffer stackBuffer
      let (i, s) ← arr.build s address hyps stackBuffer range
      pure (i, stackBuffer, s)) := by
  rw [subBuildSyntaxProof, dif_pos hn]
  simp only [ha, hf]
  conv_rhs => rw [childrenLoop, ← List.attach_map_subtype_val (F.tree.childrenIter n), List.foldlM_map]

/-- **The loop over the children**: when each child's call returns an item and only appends to
the stack buffer, the loop returns one item per child, in order, and only appends. -/
theorem childrenLoop_spec {g : Nat → List UInt8 → σ → Except Fault (I × List UInt8 × σ)}
    {P : Nat → I → Prop} :
    ∀ (cs : List Nat) (acc : List I) (stackBuffer : List UInt8) (s : σ),
      (∀ c ∈ cs, ∀ stackBuffer s, ∃ i w s', g c stackBuffer s = .ok (i, stackBuffer ++ w, s') ∧
        P c i) →
      ∃ items w s', childrenLoop g cs (acc, stackBuffer, s) = .ok (acc ++ items, stackBuffer ++ w, s') ∧
        List.Forall₂ P cs items
  | [], acc, stackBuffer, s, _ => ⟨[], [], s, by simp [childrenLoop], .nil⟩
  | c :: cs, acc, stackBuffer, s, hcs => by
    obtain ⟨i, w, s₁, hc, hP⟩ := hcs c (List.mem_cons_self _ _) stackBuffer s
    obtain ⟨items, w', s', hrun, hF⟩ :=
      childrenLoop_spec cs (acc ++ [i]) (stackBuffer ++ w) s₁ fun c' hc' => hcs c' (List.mem_cons_of_mem _ hc')
    refine ⟨i :: items, w ++ w', s', ?_, .cons hP hF⟩
    simp only [childrenLoop, List.foldlM_cons, hc, ok_bind] at hrun ⊢
    simpa using hrun

/-- Indexing a list at each index of a list: no panic when every index is in range. -/
theorem mapM_getIdx {α β : Type} (xs : List α) (g : β → Nat) :
    ∀ l : List β, (∀ b ∈ l, g b < xs.length) →
      ∃ ys, l.mapM (fun b => getIdx xs (g b)) = .ok ys ∧
        List.Forall₂ (fun b y => xs[g b]? = some y) l ys
  | [], _ => ⟨[], rfl, .nil⟩
  | b :: l, h => by
    obtain ⟨ys, hys, hF⟩ := mapM_getIdx xs g l fun b' hb' => h b' (List.mem_cons_of_mem _ hb')
    have hb := h b (List.mem_cons_self _ _)
    refine ⟨xs[g b] :: ys, ?_, .cons (List.getElem?_eq_getElem hb) hF⟩
    rw [List.mapM_cons, Verify.getIdx_of_lt hb, ok_bind, hys]
    rfl

end Build

/-! ## Proof trees and their replay -/

/-- Modelled from the spec: a node of a `ProofTree` (`proof.rs`): the statement applied, the
proofs of its hypotheses in the order of its frame, and its expression. -/
inductive ProofTree
  | node (address : StatementAddress) (hyps : List ProofTree) (expr : List UInt8)

/-- The expression of the root. -/
def ProofTree.expr : ProofTree → List UInt8
  | .node _ _ expr => expr

/-- Modelled from the spec: the builder of a `ProofTreeArray`, its items read as the trees they
index: `build` makes the node, its expression `stack_buffer[range]`. -/
def treeBuilder : ProofBuilder Unit ProofTree where
  build _ address hyps stackBuffer range := do
    let expr ← Verify.slice stackBuffer range
    pure (.node address hyps expr, ())

mutual
/-- The steps of a proof tree in the order of a proof: the proofs of the hypotheses, then the
statement at the address, cited as a proof cites its label (`labelStep` of its frame). -/
def ProofTree.steps (frameAt : StatementAddress → Option Frame) : ProofTree → List RefStep
  | .node address hyps _ => ProofTree.stepsList frameAt hyps ++ ((frameAt address).map labelStep).toList
/-- The steps of the trees of a list, one tree after the other. -/
def ProofTree.stepsList (frameAt : StatementAddress → Option Frame) : List ProofTree → List RefStep
  | [] => []
  | t :: ts => t.steps frameAt ++ ProofTree.stepsList frameAt ts
end

section Replay

variable {isVar : Token → Bool} {cur : Frame} {frameAt : StatementAddress → Option Frame}

/-- Proofs each pushing one entry, replayed one after the other, push the entries in order. -/
theorem refRun_stepsList {ts : List ProofTree} {es : List RefEntry}
    (h : List.Forall₂ (fun t e => ∀ rs, refRun isVar cur (t.steps frameAt) rs = some (rs ++ [e]))
      ts es) (rs : List RefEntry) :
    refRun isVar cur (ProofTree.stepsList frameAt ts) rs = some (rs ++ es) := by
  induction h generalizing rs with
  | nil => simp [ProofTree.stepsList, refRun]
  | cons ht _ ih => simp [ProofTree.stepsList, refRun_append, ht, ih]

/-- Applying an assertion to entries, one per hypothesis, on top of a stack. -/
theorem refExec_apply_append (f : Frame) (rs args : List RefEntry)
    (hlen : args.length = f.hypotheses.length) :
    refExec isVar cur (.apply f) (rs ++ args) =
      if HypsOk (refFloats f.hypotheses args fun _ => []) f.hypotheses args ∧
          DvOk isVar cur (refFloats f.hypotheses args fun _ => []) f.mandatoryDv then
        some (rs ++ [(f.target.typecode, refSubst (refFloats f.hypotheses args fun _ => [])
          f.target.tail)])
      else none := by
  have hs : rs.length + args.length - f.hypotheses.length = rs.length := by omega
  simp only [refExec, List.length_append, hs, List.drop_left, List.take_left]
  rw [if_neg (by omega)]

/-- The substitution the floating hypotheses read off the entries `(c h, τ i)` of their
indices `i`: `τ i` at each index of one of them. -/
theorem refFloats_map (τ : Nat → List Token) (c : Hyp → Token) :
    ∀ (hyps : List Hyp) (σ₀ : Nat → List Token), (∀ h ∈ hyps, h.isFloat = true) →
      refFloats hyps (hyps.map fun h => (c h, τ h.variableIndex)) σ₀ =
        fun i => if i ∈ hyps.map Hyp.variableIndex then τ i else σ₀ i
  | [], σ₀, _ => by simp [refFloats]
  | h :: hyps, σ₀, hf => by
    rw [List.map_cons, refFloats, if_pos (hf h (List.mem_cons_self _ _)),
      refFloats_map τ c hyps _ fun h' hh' => hf h' (List.mem_cons_of_mem _ hh')]
    funext i
    by_cases hi : i = h.variableIndex
    · subst hi; simp
    · simp [hi]

/-- Entries of floating hypotheses with their typecodes pass `HypsOk`. -/
theorem hypsOk_map (σ τ : Nat → List Token) :
    ∀ hyps : List Hyp, (∀ h ∈ hyps, h.isFloat = true) →
      HypsOk σ hyps (hyps.map fun h => (h.expr.typecode, τ h.variableIndex))
  | [], _ => by simp [HypsOk]
  | h :: hyps, hf => by
    intro p hp
    rw [List.map_cons, List.zip_cons_cons, List.mem_cons] at hp
    rcases hp with rfl | hp
    · exact ⟨rfl, fun he => by simp [hf h (List.mem_cons_self _ _)] at he⟩
    · exact hypsOk_map σ τ hyps (fun h' hh' => hf h' (List.mem_cons_of_mem _ hh')) p hp

end Replay

/-! ## Typed syntax trees -/

/-- The tokens of target fragments, mandatory variable `ix` kept as `.inr ix`. -/
def fragmentTokens : List ExprFragment → List (Token ⊕ Nat)
  | [] => []
  | .var ix :: e => .inr ix :: fragmentTokens e
  | .constant c :: e => (unspace c).map .inl ++ fragmentTokens e

/-- The names of a statement's symbols, its variables from the `k`-th on as `.inr k`, `.inr (k+1)`,
and so on. -/
def symbolTokens (atomName : Atom → Token) : Nat → List SymbolInfo → List (Token ⊕ Nat)
  | _, [] => []
  | k, s :: ss =>
    if s.stype = .var then .inr k :: symbolTokens atomName (k + 1) ss
    else .inl (atomName s.atom) :: symbolTokens atomName k ss

/-- Tokens with holes filled: a token stays, the hole `i` becomes `σ i`. -/
def fillTokens (σ : Nat → List Token) (ts : List (Token ⊕ Nat)) : List Token :=
  ts.flatMap (Sum.elim (fun t => [t]) σ)

theorem refSubst_eq_fillTokens (σ : Nat → List Token) :
    ∀ e : List ExprFragment, refSubst σ e = fillTokens σ (fragmentTokens e)
  | [] => rfl
  | .var ix :: e => by simp [refSubst, fragmentTokens, fillTokens, refSubst_eq_fillTokens σ e]
  | .constant c :: e => by
    simp [refSubst, fragmentTokens, fillTokens, refSubst_eq_fillTokens σ e, List.flatMap_map]

/-- **The names of a flattening are its statement's names filled in**: the `j`-th variable, the
hole `k + j`, by the names of `fs[j]`, when there is one list per variable. -/
theorem map_flatWith (atomName : Atom → Token) :
    ∀ (syms : List SymbolInfo) (fs : List (List Atom)) (k : Nat) (σ : Nat → List Token),
      syms.countP (fun s => s.stype = .var) = fs.length →
      (∀ j (h : j < fs.length), σ (k + j) = fs[j].map atomName) →
      (flatWith syms fs).map atomName = fillTokens σ (symbolTokens atomName k syms)
  | [], fs, _, _, _, _ => by simp [flatWith, symbolTokens, fillTokens]
  | s :: ss, fs, k, σ, hc, hσ => by
    by_cases hs : s.stype = .var
    · obtain ⟨f, fs, rfl⟩ : ∃ f fs', fs = f :: fs' := by
        cases fs with
        | nil => simp [List.countP_cons, hs] at hc
        | cons f fs' => exact ⟨f, fs', rfl⟩
      have ih := map_flatWith atomName ss fs (k + 1) σ (by simpa [List.countP_cons, hs] using hc)
        fun j hj => by simpa [Nat.add_assoc, Nat.add_comm 1] using hσ (j + 1) (by simpa using hj)
      have h0 : σ k = f.map atomName := by simpa using hσ 0 (by simp)
      rw [flatWith_cons_var _ _ _ hs, List.map_append, ih, symbolTokens, if_pos hs]
      simp [fillTokens, h0]
    · have ih := map_flatWith atomName ss fs k σ (by simpa [List.countP_cons, hs] using hc) hσ
      rw [flatWith_cons_of_ne _ _ hs, List.map_cons, ih, symbolTokens, if_neg hs]
      simp [fillTokens]

theorem flatWith_nil : ∀ syms : List SymbolInfo, flatWith syms [] = syms.map SymbolInfo.atom
  | [] => rfl
  | s :: ss => by rw [flatWith_cons_nil, flatWith_nil ss, List.map_cons]

/-- **Applying a syntax axiom to the entries of its floating hypotheses**, the hypothesis of
index `i` proving the names of `fs[i]`, pushes its typecode and the names of the flattening of
its statement over `fs`. -/
theorem refExec_syntaxAxiom {isVar : Token → Bool} {cur f : Frame} {syms : List SymbolInfo}
    {fs : List (List Atom)} (atomName : Atom → Token) (hfloat : ∀ h ∈ f.hypotheses, h.isFloat = true)
    (hcov : ∀ i < fs.length, ∃ h ∈ f.hypotheses, h.variableIndex = i)
    (hspell : fragmentTokens f.target.tail = symbolTokens atomName 0 syms) (hdv : f.mandatoryDv = [])
    (hcount : syms.countP (fun s => s.stype = .var) = fs.length) (rs : List RefEntry) :
    refExec isVar cur (.apply f) (rs ++ f.hypotheses.map fun h =>
        (h.expr.typecode, (fs.getD h.variableIndex []).map atomName)) =
      some (rs ++ [(f.target.typecode, (flatWith syms fs).map atomName)]) := by
  rw [refExec_apply_append _ _ _ (List.length_map _ _),
    refFloats_map (fun i => (fs.getD i []).map atomName) (·.expr.typecode) _ _ hfloat,
    if_pos ⟨hypsOk_map _ (fun i => (fs.getD i []).map atomName) _ hfloat, by simp [DvOk, hdv]⟩,
    refSubst_eq_fillTokens, hspell,
    map_flatWith atomName syms fs 0 _ hcount fun j hj => ?_]
  obtain ⟨h, hh, rfl⟩ := hcov j hj
  simp [List.mem_map_of_mem _ hh, List.getElem?_eq_getElem hj]

/-- A syntax tree of the database proving the typecode `code`: a leaf labelled by a hypothesis,
whose expression is its statement, or a node labelled by a syntax axiom, whose hypotheses are
floating and whose target spells its statement with the `k`-th variable as mandatory variable
`k`, with no `$d` condition, one child per variable, each proving the typecode of the floating
hypotheses of its index, and every index one of theirs. The frame is the one
`scope_result().get` returns for the label and `frameAt` for the address `lookup_label` finds. -/
inductive SyntaxTyped (pdb : ProofDb) (frameAt : StatementAddress → Option Frame) :
    Term (Label × Bool) → Token → Prop
  | hyp {l : Label} {v : Bool} {a : StatementAddress} {f : Frame} {syms : List SymbolInfo} :
      pdb.lookupLabel (pdb.atomName l) = some a → pdb.scopes (pdb.atomName l) = some f →
      frameAt a = some f → pdb.syntaxOf l = some syms →
      ¬(f.stype = .axiomatic ∨ f.stype = .provable) → (∀ h ∈ f.hypotheses, h.isFloat = false) →
      unspace f.stubExpr = syms.map (pdb.atomName ∘ SymbolInfo.atom) →
      SyntaxTyped pdb frameAt (.node (l, v) []) f.target.typecode
  | syntaxAxiom {l : Label} {v : Bool} {a : StatementAddress} {f : Frame} {syms : List SymbolInfo}
      {cs : List (Term (Label × Bool))} :
      pdb.lookupLabel (pdb.atomName l) = some a → pdb.scopes (pdb.atomName l) = some f →
      frameAt a = some f → pdb.syntaxOf l = some syms →
      (f.stype = .axiomatic ∨ f.stype = .provable) →
      fragmentTokens f.target.tail = symbolTokens pdb.atomName 0 syms → f.mandatoryDv = [] →
      syms.countP (fun s => s.stype = .var) = cs.length →
      (∀ h ∈ f.hypotheses, h.isFloat = true ∧ h.variableIndex < cs.length) →
      (∀ i < cs.length, ∃ h ∈ f.hypotheses, h.variableIndex = i) →
      (∀ h ∈ f.hypotheses, ∀ c, cs[h.variableIndex]? = some c →
        SyntaxTyped pdb frameAt c h.expr.typecode) →
      SyntaxTyped pdb frameAt (.node (l, v) cs) f.target.typecode

namespace SyntaxTyped

variable {pdb : ProofDb} {frameAt : StatementAddress → Option Frame}

/-- A tree proves one typecode, its label's target's. -/
theorem code_eq {T : Term (Label × Bool)} {c₁ c₂ : Token} (h₁ : SyntaxTyped pdb frameAt T c₁)
    (h₂ : SyntaxTyped pdb frameAt T c₂) : c₁ = c₂ := by
  cases h₁ <;> cases h₂ <;> simp_all

/-- A typed tree is well formed for flattening. -/
theorem wellFormedFor {T : Term (Label × Bool)} {code : Token}
    (hT : SyntaxTyped pdb frameAt T code) : WellFormedFor pdb.toDatabase T := by
  induction hT with
  | hyp _ _ _ hsyms => exact .node hsyms (fun h => absurd rfl h) (by simp)
  | syntaxAxiom _ _ _ hsyms _ _ _ hcount _ hcov _ ih =>
    refine .node hsyms (fun _ => hcount) fun c hc => ?_
    obtain ⟨i, hi, rfl⟩ := List.getElem_of_mem hc
    obtain ⟨h, hh, rfl⟩ := hcov _ hi
    exact ih h hh _ (List.getElem?_eq_getElem hi)

end SyntaxTyped

/-! ## Correctness of the syntax proof -/

section Proves

variable (isVar : Token → Bool) (cur : Frame) (pdb : ProofDb)
  (frameAt : StatementAddress → Option Frame)

/-- `t` is a proof of the tree `T` of typecode `code`: replayed from any stack it pushes `code`
and the names of `T`'s flattening, the canonical encoding of which is its expression. -/
def ProofTree.Proves (T : Term (Label × Bool)) (code : Token) (t : ProofTree) : Prop :=
  t.expr = canonicalEncoding ((flat pdb.toDatabase T).map pdb.atomName) ∧
    ∀ rs, refRun isVar cur (t.steps frameAt) rs =
      some (rs ++ [(code, (flat pdb.toDatabase T).map pdb.atomName)])

variable {isVar cur pdb frameAt}

/-- **One node of the syntax proof**: after the children's loop and the hypotheses' items,
`sub_build_syntax_proof` appends the subformula at the node and makes the node over those
items, its expression the subformula's canonical encoding. -/
theorem subBuildSyntaxProof_node (F : Formula Label) {n : Nat} (hn : n < F.tree.size)
    {T : Term (Label × Bool)} {code : Token} (hT : SyntaxTyped pdb frameAt T code)
    (hv : F.nodeView n = T) {address : StatementAddress} {frame : Frame}
    (ha : pdb.lookupLabel (pdb.atomName (F.tree.label n)) = some address)
    (hf : pdb.scopes (pdb.atomName (F.tree.label n)) = some frame) {stackBuffer w : List UInt8}
    {items ys : List ProofTree}
    (hloop : childrenLoop (subBuildSyntaxProof pdb F treeBuilder) (F.tree.childrenIter n)
      ([], stackBuffer, ()) = .ok (items, stackBuffer ++ w, ()))
    (hys : (frame.hypotheses.filter (·.isFloat)).mapM (fun hyp => getIdx items hyp.variableIndex) =
      .ok ys) :
    subBuildSyntaxProof pdb F treeBuilder n stackBuffer () =
      .ok (.node address ys (canonicalEncoding ((flat pdb.toDatabase T).map pdb.atomName)),
        stackBuffer ++ (w ++ canonicalEncoding ((flat pdb.toDatabase T).map pdb.atomName)), ()) := by
  subst hv
  rw [subBuildSyntaxProof_eq pdb F treeBuilder hn ha hf, hloop, ok_bind]
  simp only [hys, ok_bind]
  rw [FormulaRef.appendToStackBuffer_iter _ (by simpa using hT.wellFormedFor),
    view_toRerooted, appendToStackBuffer_eq _ hT.wellFormedFor.atomName_ne, ok_bind]
  simp only [treeBuilder, Verify.slice, List.take_length, List.drop_left]
  rw [if_pos ⟨by simp, le_rfl⟩, List.append_assoc]
  rfl

/-- A node's view is a node: its label and its children's views. -/
theorem label_childrenIter_of_nodeView (F : Formula Label) {n : Nat} {l : Label} {v : Bool}
    {cs : List (Term (Label × Bool))} (hv : F.nodeView n = .node (l, v) cs) :
    F.tree.label n = l ∧ (F.tree.childrenIter n).map F.nodeView = cs := by
  rw [Formula.nodeView_eq] at hv
  simp only [Term.node.injEq, Prod.mk.injEq] at hv
  exact ⟨hv.1.1, hv.2⟩

/-- **A syntax axiom's node replays to its flattening**: over proofs that push, in the frame's
order, the entries of the children its floating hypotheses name, the node pushes the axiom's
typecode and the names of its flattening. -/
theorem refRun_steps_syntaxAxiom {a : StatementAddress} {f : Frame} {l : Label} {v : Bool}
    {syms : List SymbolInfo} {cs : List (Term (Label × Bool))} {ys : List ProofTree}
    {expr : List UInt8} (hfa : frameAt a = some f) (hsyms : pdb.syntaxOf l = some syms)
    (hst : f.stype = .axiomatic ∨ f.stype = .provable)
    (hspell : fragmentTokens f.target.tail = symbolTokens pdb.atomName 0 syms)
    (hdv : f.mandatoryDv = []) (hcount : syms.countP (fun s => s.stype = .var) = cs.length)
    (hfl : ∀ h ∈ f.hypotheses, h.isFloat = true)
    (hcov : ∀ i < cs.length, ∃ h ∈ f.hypotheses, h.variableIndex = i)
    (hys : List.Forall₂
      (fun t e => ∀ rs, refRun isVar cur (t.steps frameAt) rs = some (rs ++ [e])) ys
      (f.hypotheses.map fun h =>
        (h.expr.typecode, ((cs.map (flat pdb.toDatabase)).getD h.variableIndex []).map
          pdb.atomName))) (rs : List RefEntry) :
    refRun isVar cur ((ProofTree.node a ys expr).steps frameAt) rs =
      some (rs ++ [(f.target.typecode, (flat pdb.toDatabase (.node (l, v) cs)).map pdb.atomName)]) := by
  have happly : labelStep f = .apply f := if_pos hst
  rw [ProofTree.steps, hfa, Option.map_some', Option.toList_some, happly, refRun_append,
    refRun_stepsList hys, Option.some_bind, refRun, refExec_syntaxAxiom pdb.atomName hfl
      (by simpa using hcov) hspell hdv (by simpa using hcount)]
  simp [flat, hsyms, flatList_eq, refRun]

/-- **The syntax proof of a typed node**: with the builder of proof trees,
`sub_build_syntax_proof` does not panic, only appends to the stack buffer, and returns a proof of
the tree below the node. -/
theorem subBuildSyntaxProof_proves (F : Formula Label) {T : Term (Label × Bool)} {code : Token}
    (hT : SyntaxTyped pdb frameAt T code) :
    ∀ n, n < F.tree.size → F.nodeView n = T → ∀ stackBuffer, ∃ t w,
      subBuildSyntaxProof pdb F treeBuilder n stackBuffer () = .ok (t, stackBuffer ++ w, ()) ∧
        ProofTree.Proves isVar cur pdb frameAt T code t := by
  induction hT with
  | @hyp l v a f syms ha hf hfa hsyms hst hnf hstub =>
    intro n hn hv stackBuffer
    obtain ⟨hl, hcs⟩ := label_childrenIter_of_nodeView F hv
    rw [List.map_eq_nil_iff] at hcs
    have hfloats : f.hypotheses.filter (·.isFloat) = [] :=
      List.filter_eq_nil_iff.mpr fun h hh => by simp [hnf h hh]
    have hloop : childrenLoop (subBuildSyntaxProof pdb F treeBuilder) (F.tree.childrenIter n)
        ([], stackBuffer, ()) = .ok ([], stackBuffer ++ [], ()) := by simp [childrenLoop, hcs]
    refine ⟨_, _, subBuildSyntaxProof_node F hn (.hyp ha hf hfa hsyms hst hnf hstub) hv
      (hl ▸ ha) (hl ▸ hf) hloop (by rw [hfloats, List.mapM_nil]; rfl), rfl, fun rs => ?_⟩
    simp [ProofTree.steps, ProofTree.stepsList, hfa, labelStep, if_neg hst, refRun, refExec,
        flat, flatList, hsyms, flatWith_nil, hstub]
  | @syntaxAxiom l v a f syms cs ha hf hfa hsyms hst hspell hdv hcount hfl hcov hcs ih =>
    intro n hn hv stackBuffer
    obtain ⟨hl, hcsv⟩ := label_childrenIter_of_nodeView F hv
    have hget : ∀ i (hi : i < (F.tree.childrenIter n).length),
        cs[i]? = some (F.nodeView (F.tree.childrenIter n)[i]) := fun i hi => by
      rw [← hcsv, List.getElem?_map, List.getElem?_eq_getElem hi, Option.map_some']
    -- each child, typed through the floating hypothesis of its index, has its proof
    have hchild : ∀ c ∈ F.tree.childrenIter n, ∀ stackBuffer (s : Unit), ∃ t w s',
        subBuildSyntaxProof pdb F treeBuilder c stackBuffer s = .ok (t, stackBuffer ++ w, s') ∧
        ∃ code', SyntaxTyped pdb frameAt (F.nodeView c) code' ∧
          ProofTree.Proves isVar cur pdb frameAt (F.nodeView c) code' t := by
      intro c hc stackBuffer s
      obtain ⟨i, hi, rfl⟩ := List.getElem_of_mem hc
      obtain ⟨h, hh, rfl⟩ := hcov i (by rw [← hcsv, List.length_map]; exact hi)
      obtain ⟨t, w, hrun, hp⟩ := ih h hh _ (hget _ hi) _
        (lt_trans (F.tree.lt_of_mem_childrenIter hc) hn) rfl stackBuffer
      exact ⟨t, w, (), hrun, _, hcs h hh _ (hget _ hi), hp⟩
    obtain ⟨items, w, s', hloop, hitems⟩ := childrenLoop_spec _ [] stackBuffer () hchild
    have hlen : items.length = cs.length := by rw [← hitems.length_eq, ← hcsv, List.length_map]
    obtain ⟨ys, hys, hyi⟩ := mapM_getIdx items Hyp.variableIndex f.hypotheses
      fun h hh => hlen ▸ (hfl h hh).2
    refine ⟨_, _, subBuildSyntaxProof_node F hn
      (.syntaxAxiom ha hf hfa hsyms hst hspell hdv hcount hfl hcov hcs) hv (hl ▸ ha) (hl ▸ hf)
      (by simpa using hloop) (by rw [List.filter_eq_self.mpr fun h hh => (hfl h hh).1]; exact hys),
      rfl, fun rs => ?_⟩
    -- the hypotheses' proofs push the children's entries in the frame's order
    have hstep : List.Forall₂
        (fun t e => ∀ rs, refRun isVar cur (t.steps frameAt) rs = some (rs ++ [e])) ys
        (f.hypotheses.map fun h =>
          (h.expr.typecode, ((cs.map (flat pdb.toDatabase)).getD h.variableIndex []).map
            pdb.atomName)) := by
      refine List.forall₂_map_right_iff.mpr (List.Forall₂.flip
        (((List.forall₂_and_left _ _).mpr ⟨fun h hh => hh, hyi⟩).imp fun h y ⟨hh, hy⟩ => ?_))
      obtain ⟨hlt, rfl⟩ := List.getElem?_eq_some_iff.mp hy
      have hlt' : h.variableIndex < (F.tree.childrenIter n).length := hitems.length_eq ▸ hlt
      obtain ⟨code', htyped, -, hrun⟩ := hitems.get hlt' hlt
      have hcode := (hcs h hh _ (hget _ hlt')).code_eq htyped
      intro rs
      simp only [List.get_eq_getElem] at hrun
      rw [hrun, ← hcode, List.getD_eq_getElem?_getD, List.getElem?_map, hget _ hlt']
      rfl
    exact refRun_steps_syntaxAxiom hfa hsyms hst hspell hdv hcount (fun h hh => (hfl h hh).1) hcov
      hstep rs

/-- **Correctness of `build_syntax_proof`**: on a formula whose tree is a syntax tree of the
database proving the formula's typecode, with the builder of proof trees, it does not panic, only
appends to the stack buffer, and returns a proof tree whose root's expression is the canonical
encoding of the formula and which, replayed on the reference machine from any stack, pushes
exactly the name of the formula's typecode and the formula's tokens. -/
theorem buildSyntaxProof_proves (F : Formula Label)
    (hF : SyntaxTyped pdb frameAt F.view (pdb.atomName F.typecode)) (stackBuffer : List UInt8) :
    ∃ t w, buildSyntaxProof pdb F stackBuffer treeBuilder () = .ok (t, stackBuffer ++ w, ()) ∧
      t.expr = canonicalEncoding ((flat pdb.toDatabase F.view).map pdb.atomName) ∧
      ∀ rs, refRun isVar cur (t.steps frameAt) rs =
        some (rs ++ [(pdb.atomName F.typecode, (flat pdb.toDatabase F.view).map pdb.atomName)]) :=
  subBuildSyntaxProof_proves F hF F.root F.root_lt rfl stackBuffer

end Proves

/-! ## The syntax proof of `( ph -> ph )` -/

open Verify (tokenOf noStatement spaced wphFrame exampleHyps exampleIsVar)

/-- The frame of `wi $a wff ( ph -> ps ) $.`: its floating hypotheses `wph` and `wps`. -/
def wiFrame : Frame :=
  ⟨.axiomatic, ⟨⟨0, 0⟩, noStatement⟩, exampleHyps,
    ⟨tokenOf "wff", [.constant (spaced [tokenOf "("]), .var 0, .constant (spaced [tokenOf "->"]),
      .var 1, .constant (spaced [tokenOf ")"])]⟩, [], [tokenOf "ph", tokenOf "ps"], [], []⟩

/-- The frames of `wi` and `wph` by label. -/
def impScopes (t : Token) : Option Frame :=
  if t = tokenOf "wi" then some wiFrame else if t = tokenOf "wph" then some wphFrame else none

/-- The frames of `wi` and `wph` by address. -/
def impFrameAt (a : StatementAddress) : Option Frame :=
  if a = ⟨0, 0⟩ then some wiFrame else if a = ⟨0, 1⟩ then some wphFrame else none

/-- `impDb` with the frames of its statements; both statements have the typecode `wff`, atom `7`
of `impNames`. -/
def impProofDb : ProofDb := { impDb with labelTypecode := fun _ => 7, scopes := impScopes }

/-- `( ph -> ph )` is a syntax tree of `wff`: `wi` over two leaves `wph`. -/
theorem phImpPh_syntaxTyped :
    SyntaxTyped impProofDb impFrameAt phImpPhRef.formula.view (tokenOf "wff") := by
  have hleaf : SyntaxTyped impProofDb impFrameAt (.node (1, false) []) (tokenOf "wff") :=
    @SyntaxTyped.hyp _ _ 1 false ⟨0, 1⟩ wphFrame [⟨2, .var⟩] (by decide) (by decide) (by decide)
      (by decide) (by decide) (by decide) (by decide)
  rw [view_phImpPhRef]
  refine @SyntaxTyped.syntaxAxiom _ _ 0 false ⟨0, 0⟩ wiFrame
    [⟨4, .constant⟩, ⟨2, .var⟩, ⟨5, .constant⟩, ⟨3, .var⟩, ⟨6, .constant⟩] _ (by decide)
    (by decide) (by decide) (by decide) (by decide) (by decide) rfl rfl (by decide)
    (by decide) fun h hh c hc => ?_
  simp only [wiFrame, exampleHyps, List.mem_cons, List.mem_singleton, List.not_mem_nil,
    or_false] at hh
  rcases hh with rfl | rfl <;> simp at hc <;> subst hc <;> exact hleaf

/-- The syntax proof of `( ph -> ph )`, built on an empty stack buffer, is a proof of it. -/
theorem phImpPh_syntaxProof :
    SyntaxTyped impProofDb impFrameAt phImpPhRef.formula.view
      (impProofDb.atomName phImpPhRef.formula.typecode) ∧
    ∃ t w, buildSyntaxProof impProofDb phImpPhRef.formula [] treeBuilder () = .ok (t, [] ++ w, ()) ∧
      t.expr = canonicalEncoding ((flat impDb phImpPhRef.formula.view).map impDb.atomName) ∧
      ∀ rs, refRun exampleIsVar wiFrame (t.steps impFrameAt) rs =
        some (rs ++ [(impProofDb.atomName phImpPhRef.formula.typecode,
          (flat impDb phImpPhRef.formula.view).map impDb.atomName)]) :=
  ⟨phImpPh_syntaxTyped, @buildSyntaxProof_proves exampleIsVar wiFrame impProofDb impFrameAt
    phImpPhRef.formula phImpPh_syntaxTyped []⟩

end MetamathKnife
