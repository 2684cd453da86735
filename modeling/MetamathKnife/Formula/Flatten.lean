import MetamathKnife.Formula.StackBuffer
import MetamathKnife.Formula.Equality
import Mathlib.Algebra.Order.Ring.Nat

/-!
# Flattening a formula

`FormulaRef::iter` returns a `Flatten`: a stack of the statements being read, one per node
entered, each with the math tokens left and, when the node has children, the iterator of the
children left. Its `next` reads the next token of the statement on top: a constant, or a
variable of a node without children, is yielded; a variable of a node with children enters the
next child (`step_into`), which reads that child's statement; a statement read to its end is
popped. `append_to_stack_buffer` appends the names of what it yields, each marked on its last
byte.

* `flat`: the flattening the statements of the labels spell, written as the recursion the
  stack of `Flatten` unrolls; `WellFormedFor`: every node is labelled by a statement whose
  tokens are symbols, with as many variables as the node has children when it has any;
* `next_spec`: from a state whose frames are well formed, `next` yields the first symbol of
  `pending` (the flattening of what each frame has left, top first), without a panic, and
  leaves the rest;
* `iter_yields`: the iterator of a well-formed formula yields exactly its flattening;
* `appendToStackBuffer_iter`: `append_to_stack_buffer` appends the names of the flattening
  with the loop of `appendSymbols`;
* `FormulaRef.flatten_spec`: so, on a well-formed formula, it appends the canonical encoding of
  the names of the flattening, which are the non-empty tokens the symbols were looked up by, and
  returns its range, from which ASCII names read back.
-/

namespace MetamathKnife

open Verify (Fault Token StatementAddress Range ok_bind bind_eq_ok)

/-- `Label`: the atom of a statement's label. -/
abbrev Label := Atom

/-- `SymbolType`. -/
inductive SymbolType
  | constant
  /-- `Variable` (`variable` is a keyword in Lean). -/
  | var
  deriving DecidableEq, Repr

/-- What `lookup_symbol` finds of a math token: its atom and its type. -/
structure SymbolInfo where
  atom : Atom
  stype : SymbolType
  deriving DecidableEq, Repr

/-- Modelled from the spec: the database as `Flatten` and `append_to_stack_buffer` read it,
through the name resolver (`atom_name`, `lookup_label`, `lookup_symbol`) and the segment set
(the math tokens of `statement(address)`, typecode first). -/
structure Database where
  atomName : Atom → Token
  lookupLabel : Token → Option StatementAddress
  math : StatementAddress → List Token
  lookupSymbol : Token → Option SymbolInfo
  /-- The name resolver interns a symbol under the token it is declared by, a non-empty math
  token: the atom `lookup_symbol` finds for a token is named by that token. -/
  lookupSymbol_atomName : ∀ {t : Token} {s : SymbolInfo}, lookupSymbol t = some s →
    atomName s.atom = t ∧ t ≠ []

/-- `FormulaRef`: a formula in the context of a database. -/
structure FormulaRef where
  db : Database
  formula : Formula Label

/-- `Flatten`: the formula, the database, and the stack of the statements being read (the top,
the vector's last element, first), each with the math tokens left (`TokenIter`) and, for a node
with children, the children left (`SiblingIter`). -/
structure Flatten where
  formula : Formula Label
  db : Database
  stack : List (List Token × Option (List Nat))

/-! ## The flattening -/

/-- The symbols of the math tokens after the typecode of the statement a label names. -/
def Database.syntaxOf (db : Database) (l : Label) : Option (List SymbolInfo) :=
  (db.lookupLabel (db.atomName l)).bind fun a => ((db.math a).drop 1).mapM db.lookupSymbol

/-- The symbols `syms` spell, the `i`-th variable replaced by `fs[i]` while there is one. -/
def flatWith : List SymbolInfo → List (List Atom) → List Atom
  | [], _ => []
  | s :: ss, fs =>
    if s.stype = .var then
      match fs with
      | f :: fs => f ++ flatWith ss fs
      | [] => s.atom :: flatWith ss []
    else s.atom :: flatWith ss fs

mutual
/-- `flat(n)`: over the math tokens `t` of the statement of `n`'s label after the typecode,
`[t]` when `t` is a constant or `n` has no children, and `flat(c_i)` for the `i`-th variable
token and the `i`-th child `c_i` otherwise. -/
def flat (db : Database) : Term (Label × Bool) → List Atom
  | .node (l, _) cs => flatWith ((db.syntaxOf l).getD []) (flatList db cs)
/-- `flat` of each tree of a list. -/
def flatList (db : Database) : List (Term (Label × Bool)) → List (List Atom)
  | [] => []
  | c :: cs => flat db c :: flatList db cs
end

theorem flatList_eq (db : Database) (cs : List (Term (Label × Bool))) :
    flatList db cs = cs.map (flat db) := by
  induction cs with
  | nil => rfl
  | cons c cs ih => rw [flatList, ih, List.map_cons]

theorem flatWith_cons_of_ne {s : SymbolInfo} (ss : List SymbolInfo) (fs : List (List Atom))
    (h : s.stype ≠ .var) : flatWith (s :: ss) fs = s.atom :: flatWith ss fs := by
  simp only [flatWith, if_neg h]

theorem flatWith_cons_var {s : SymbolInfo} (ss : List SymbolInfo) (f : List Atom)
    (fs : List (List Atom)) (h : s.stype = .var) : flatWith (s :: ss) (f :: fs) = f ++ flatWith ss fs := by
  simp only [flatWith, if_pos h]

theorem flatWith_cons_nil {s : SymbolInfo} (ss : List SymbolInfo) :
    flatWith (s :: ss) [] = s.atom :: flatWith ss [] := by
  simp only [flatWith]; split_ifs <;> rfl

/-- A symbol of a flattening is a symbol of the statement or of one of the lists filled in. -/
theorem mem_flatWith {a : Atom} :
    ∀ {syms : List SymbolInfo} {fs : List (List Atom)}, a ∈ flatWith syms fs →
      (∃ s ∈ syms, a = s.atom) ∨ ∃ f ∈ fs, a ∈ f
  | [], _, h => by simp [flatWith] at h
  | s :: ss, fs, h => by
    have self (e : a = s.atom) : (∃ s' ∈ s :: ss, a = s'.atom) ∨ ∃ f ∈ fs, a ∈ f :=
      .inl ⟨s, List.mem_cons_self _ _, e⟩
    have tail {fs'} (hsub : ∀ f ∈ fs', f ∈ fs) (h : a ∈ flatWith ss fs') :
        (∃ s' ∈ s :: ss, a = s'.atom) ∨ ∃ f ∈ fs, a ∈ f :=
      (mem_flatWith h).imp (fun ⟨s', hs', e⟩ => ⟨s', List.mem_cons_of_mem _ hs', e⟩)
        fun ⟨f, hf, ha⟩ => ⟨f, hsub f hf, ha⟩
    by_cases hs : s.stype = .var
    · cases fs with
      | nil =>
        rw [flatWith_cons_nil, List.mem_cons] at h
        exact h.elim self (tail fun _ => id)
      | cons f fs =>
        rw [flatWith_cons_var _ _ _ hs, List.mem_append] at h
        exact h.elim (fun h => .inr ⟨f, List.mem_cons_self _ _, h⟩)
          (tail fun _ => List.mem_cons_of_mem _)
    · rw [flatWith_cons_of_ne _ _ hs, List.mem_cons] at h
      exact h.elim self (tail fun _ => id)

theorem mem_of_mapM_eq_some {f : Token → Option SymbolInfo} :
    ∀ {toks : List Token} {syms : List SymbolInfo}, toks.mapM f = some syms →
      ∀ s ∈ syms, ∃ t ∈ toks, f t = some s
  | [], syms, h, s, hs => by cases h; cases hs
  | t :: toks, syms, h, s, hs => by
    simp only [List.mapM_cons, Option.bind_eq_bind, Option.bind_eq_some, Option.pure_def,
      Option.some.injEq] at h
    obtain ⟨s', hs', ss, hss, rfl⟩ := h
    rcases List.mem_cons.mp hs with rfl | hs
    · exact ⟨t, List.mem_cons_self _ _, hs'⟩
    · obtain ⟨t', ht', e⟩ := mem_of_mapM_eq_some hss s hs
      exact ⟨t', List.mem_cons_of_mem _ ht', e⟩

/-- The symbols of a statement are named by the non-empty tokens they were looked up by. -/
theorem Database.atomName_ne_of_syntaxOf (db : Database) {l : Label} {syms : List SymbolInfo}
    (h : db.syntaxOf l = some syms) : ∀ s ∈ syms, db.atomName s.atom ≠ [] := by
  obtain ⟨a, -, hm⟩ := Option.bind_eq_some.mp h
  intro s hs
  obtain ⟨t, -, ht⟩ := mem_of_mapM_eq_some hm s hs
  obtain ⟨hname, hne⟩ := db.lookupSymbol_atomName ht
  rwa [hname]

/-- A tree is well formed for the database: every node is labelled by a statement whose math
tokens after the typecode are symbols, and a node with children has as many variables among
them as children. -/
inductive WellFormedFor (db : Database) : Term (Label × Bool) → Prop
  | node {l : Label} {v : Bool} {cs : List (Term (Label × Bool))} {syms : List SymbolInfo} :
      db.syntaxOf l = some syms → (cs ≠ [] → syms.countP (fun s => s.stype = .var) = cs.length) →
      (∀ c ∈ cs, WellFormedFor db c) → WellFormedFor db (.node (l, v) cs)

/-- Every symbol of the flattening of a well-formed tree has a non-empty name. -/
theorem WellFormedFor.atomName_ne {db : Database} {T : Term (Label × Bool)}
    (hT : WellFormedFor db T) : ∀ a ∈ flat db T, db.atomName a ≠ [] := by
  induction hT with
  | node hsyn _ _ ih =>
    intro a ha
    rw [flat, hsyn, Option.getD_some, flatList_eq] at ha
    rcases mem_flatWith ha with ⟨s, hs, rfl⟩ | ⟨f, hf, ha⟩
    · exact db.atomName_ne_of_syntaxOf hsyn s hs
    · obtain ⟨c, hc, rfl⟩ := List.mem_map.mp hf
      exact ih c hc a ha

namespace Flatten

/-- `step_into(node_id)`: read the statement of the node's label, its typecode skipped; the
`unwrap` of `lookup_label` panics. -/
def stepInto (it : Flatten) (nodeId : Nat) : Except Fault Flatten := do
  let label := it.formula.tree.label nodeId
  let some address := it.db.lookupLabel (it.db.atomName label) | throw .panic
  let mathIter := (it.db.math address).drop 1
  if it.formula.tree.hasChildren nodeId then
    pure { it with stack := (mathIter, some (it.formula.tree.childrenIter nodeId)) :: it.stack }
  else pure { it with stack := (mathIter, none) :: it.stack }

/-! ## Termination -/

/-- The math tokens of a label's statement, plus two. -/
def labelWeight (db : Database) (l : Label) : Nat :=
  2 + ((db.lookupLabel (db.atomName l)).map fun a => (db.math a).length).getD 0

mutual
/-- A bound on the calls of `next` that reading a tree takes. -/
def termWeight (db : Database) : Term (Label × Bool) → Nat
  | .node (l, _) cs => labelWeight db l + termWeightList db cs
/-- `termWeight` summed over a list of trees. -/
def termWeightList (db : Database) : List (Term (Label × Bool)) → Nat
  | [] => 0
  | c :: cs => termWeight db c + termWeightList db cs
end

theorem termWeightList_eq (db : Database) (cs : List (Term (Label × Bool))) :
    termWeightList db cs = (cs.map (termWeight db)).sum := by
  induction cs with
  | nil => rfl
  | cons c cs ih => rw [termWeightList, ih, List.map_cons, List.sum_cons]

/-- A bound on the calls of `next` that reading node `c` takes. -/
def nodeWeight (F : Formula Label) (db : Database) (c : Nat) : Nat := termWeight db (F.nodeView c)

theorem nodeWeight_eq (F : Formula Label) (db : Database) (c : Nat) :
    nodeWeight F db c = labelWeight db (F.tree.label c) +
      ((F.tree.childrenIter c).map (nodeWeight F db)).sum := by
  rw [nodeWeight, Formula.nodeView_eq, termWeight, termWeightList_eq, List.map_map]
  rfl

/-- A bound on the calls of `next` that a frame takes: one per token left, one for its pop, and
the children left. -/
def frameWeight (F : Formula Label) (db : Database) : List Token × Option (List Nat) → Nat
  | (toks, sib) => 1 + toks.length + ((sib.getD []).map (nodeWeight F db)).sum

/-- A bound on the calls of `next` left. -/
def weight (it : Flatten) : Nat := (it.stack.map (frameWeight it.formula it.db)).sum

/-- `step_into` pushes one frame, lighter than its node. -/
theorem stepInto_eq {it it' : Flatten} {c : Nat} (h : it.stepInto c = .ok it') :
    ∃ fr, it' = { it with stack := fr :: it.stack } ∧
      frameWeight it.formula it.db fr < nodeWeight it.formula it.db c := by
  unfold stepInto at h
  cases haddr : it.db.lookupLabel (it.db.atomName (it.formula.tree.label c)) with
  | none => split at h <;> simp [haddr] at h
  | some address =>
    have hw : labelWeight it.db (it.formula.tree.label c) = 2 + (it.db.math address).length := by
      rw [labelWeight, haddr]; rfl
    rw [nodeWeight_eq, hw]
    split at h <;> simp only [haddr, pure, Except.pure, Except.ok.injEq] at h <;> subst h <;>
      refine ⟨_, rfl, ?_⟩ <;>
      simp only [frameWeight, Option.getD_some, Option.getD_none, List.map_nil, List.sum_nil,
        List.length_drop] <;> omega

theorem weight_stepInto {it it' : Flatten} {c : Nat} (h : it.stepInto c = .ok it') :
    it'.weight < it.weight + nodeWeight it.formula it.db c := by
  obtain ⟨fr, rfl, hfr⟩ := stepInto_eq h
  simp only [weight, List.map_cons, List.sum_cons]
  omega

/-! ## `next` -/

/-- `Flatten::next`. A constant, or a variable of a node without children, is yielded; a
variable of a node with children enters the next child, and one with no child left is the
`Empty formula!` panic; a statement read to its end is popped. The `unwrap` of `lookup_symbol`
panics. -/
def next (it : Flatten) : Except Fault (Option Atom × Flatten) :=
  match _hs : it.stack with
  | [] => pure (none, it)
  | (token :: mathIter, siblingIter) :: rest =>
    match it.db.lookupSymbol token with
    | none => throw .panic
    | some symbol =>
      match siblingIter, symbol.stype with
      | _, .constant | none, .var =>
        pure (some symbol.atom, { it with stack := (mathIter, siblingIter) :: rest })
      | some (nextChildId :: iter), .var =>
        match _h : ({ it with stack := (mathIter, some iter) :: rest } : Flatten).stepInto
            nextChildId with
        | .ok it' => it'.next
        | .error e => .error e
      | some [], .var => throw .panic
  | ([], _) :: rest => ({ it with stack := rest } : Flatten).next
termination_by it.weight
decreasing_by
  · have := weight_stepInto _h
    simp only [weight, _hs, List.map_cons, List.sum_cons, frameWeight, Option.getD_some,
      List.length_cons] at this ⊢
    omega
  · simp only [weight, _hs, List.map_cons, List.sum_cons, frameWeight]
    omega

theorem next_of_nil {it : Flatten} (h : it.stack = []) : it.next = .ok (none, it) := by
  obtain ⟨F, db, stack⟩ := it
  simp only at h; subst h
  rw [next]; rfl

theorem next_of_pop {it : Flatten} {sib : Option (List Nat)}
    {rest : List (List Token × Option (List Nat))} (h : it.stack = ([], sib) :: rest) :
    it.next = ({ it with stack := rest } : Flatten).next := by
  obtain ⟨F, db, stack⟩ := it
  simp only at h; subst h
  rw [next]

theorem next_of_unknown {it : Flatten} {token : Token} {toks : List Token}
    {sib : Option (List Nat)} {rest : List (List Token × Option (List Nat))}
    (h : it.stack = (token :: toks, sib) :: rest) (hs : it.db.lookupSymbol token = none) :
    it.next = .error .panic := by
  obtain ⟨F, db, stack⟩ := it
  simp only at h hs; subst h
  rw [next]
  simp only [hs]; rfl

theorem next_of_yield {it : Flatten} {token : Token} {toks : List Token} {sib : Option (List Nat)}
    {rest : List (List Token × Option (List Nat))} {s : SymbolInfo}
    (h : it.stack = (token :: toks, sib) :: rest) (hs : it.db.lookupSymbol token = some s)
    (hy : s.stype = .constant ∨ sib = none) :
    it.next = .ok (some s.atom, { it with stack := (toks, sib) :: rest }) := by
  obtain ⟨F, db, stack⟩ := it
  simp only at h hs; subst h
  rw [next]
  simp only [hs]
  rcases hy with hy | rfl
  · simp only [hy]; rfl
  · cases hst : s.stype <;> simp only [hst] <;> rfl

theorem next_of_enter {it : Flatten} {token : Token} {toks : List Token} {c : Nat} {cs : List Nat}
    {rest : List (List Token × Option (List Nat))} {s : SymbolInfo}
    (h : it.stack = (token :: toks, some (c :: cs)) :: rest) (hs : it.db.lookupSymbol token = some s)
    (hv : s.stype = .var) :
    it.next = ({ it with stack := (toks, some cs) :: rest } : Flatten).stepInto c >>= next := by
  obtain ⟨F, db, stack⟩ := it
  simp only at h hs; subst h
  rw [next]
  simp only [hs, hv]
  split <;> rename_i h <;> simp [h]

/-- The `Empty formula!` panic: a variable token of a node whose children are all read. -/
theorem next_of_empty {it : Flatten} {token : Token} {toks : List Token}
    {rest : List (List Token × Option (List Nat))} {s : SymbolInfo}
    (h : it.stack = (token :: toks, some []) :: rest) (hs : it.db.lookupSymbol token = some s)
    (hv : s.stype = .var) : it.next = .error .panic := by
  obtain ⟨F, db, stack⟩ := it
  simp only at h hs; subst h
  rw [next]
  simp only [hs, hv]; rfl

theorem weight_drop_token {it : Flatten} {token : Token} {toks : List Token}
    {sib : Option (List Nat)} {rest : List (List Token × Option (List Nat))}
    (h : it.stack = (token :: toks, sib) :: rest) :
    ({ it with stack := (toks, sib) :: rest } : Flatten).weight < it.weight := by
  simp only [weight, h, List.map_cons, List.sum_cons, frameWeight, List.length_cons]
  omega

/-- A symbol yielded lowers the weight. -/
theorem weight_next_lt (it : Flatten) : ∀ {a : Atom} {it' : Flatten},
    it.next = .ok (some a, it') → it'.weight < it.weight := by
  induction it using next.induct with
  | case1 it h => intro a it' hn; rw [next_of_nil h] at hn; cases hn
  | case2 it token toks sib rest h hs => intro a it' hn; rw [next_of_unknown h hs] at hn; cases hn
  | case3 it token toks sib rest h s hs hc =>
    intro a it' hn
    rw [next_of_yield h hs (.inl hc)] at hn
    cases hn
    exact weight_drop_token h
  | case4 it token toks rest s hs h hv =>
    intro a it' hn
    rw [next_of_yield h hs (.inr rfl)] at hn
    cases hn
    exact weight_drop_token h
  | case5 it token toks rest s hs c cs h hv it'' hstep _ ih =>
    intro a it' hn
    rw [next_of_enter h hs hv, hstep, ok_bind] at hn
    have h1 := ih hn
    have h2 := weight_stepInto hstep
    have hw : it.weight = ({ it with stack := (toks, some cs) :: rest } : Flatten).weight + 1 +
        nodeWeight it.formula it.db c := by
      simp only [weight, h, List.map_cons, List.sum_cons, frameWeight, Option.getD_some,
        List.length_cons]
      omega
    dsimp only at h2
    omega
  | case6 it token toks rest s hs c cs h hv e hstep =>
    intro a it' hn
    rw [next_of_enter h hs hv, hstep] at hn
    cases hn
  | case7 it token toks rest s hs h hv => intro a it' hn; rw [next_of_empty h hs hv] at hn; cases hn
  | case8 it sib rest h ih =>
    intro a it' hn
    rw [next_of_pop h] at hn
    have := ih hn
    simp only [weight, h, List.map_cons, List.sum_cons, frameWeight] at this ⊢
    omega

/-! ## Iterating -/

/-- The symbols `next` yields from `it`, in order, up to the `None` that ends them, without a
panic. -/
inductive Yields : Flatten → List Atom → Prop
  | nil {it it' : Flatten} : it.next = .ok (none, it') → Yields it []
  | cons {it it' : Flatten} {a : Atom} {l : List Atom} :
      it.next = .ok (some a, it') → Yields it' l → Yields it (a :: l)

/-- `for symbol in iter { body }`: `body` on each symbol `next` yields, until it yields
`None`. -/
def forSymbols {β : Type} (it : Flatten) (body : β → Atom → Except Fault β) (b : β) :
    Except Fault β :=
  match _h : it.next with
  | .ok (some symbol, it') => body b symbol >>= fun b => forSymbols it' body b
  | .ok (none, _) => pure b
  | .error e => .error e
termination_by it.weight
decreasing_by exact weight_next_lt it _h

/-- The loop runs its body over what the iterator yields. -/
theorem forSymbols_of_yields {β : Type} (body : β → Atom → Except Fault β) {it : Flatten}
    {l : List Atom} (h : Yields it l) (b : β) : it.forSymbols body b = l.foldlM body b := by
  induction h generalizing b with
  | nil hn =>
    unfold forSymbols
    split <;> rename_i h' <;> rw [hn] at h' <;> cases h'
    rfl
  | cons hn _ ih =>
    unfold forSymbols
    split <;> rename_i h' <;> rw [hn] at h' <;> cases h'
    simp only [List.foldlM_cons, ih]

/-! ## What is left to yield -/

/-- What a frame has left to yield: its tokens' symbols, each variable replaced by the
flattening of the next child left, if the node has children. -/
def framePending (F : Formula Label) (db : Database) : List Token × Option (List Nat) → List Atom
  | (toks, sib) =>
    flatWith ((toks.mapM db.lookupSymbol).getD []) (((sib.getD []).map F.nodeView).map (flat db))

/-- A frame reads to its end without a panic: its tokens are symbols and, when its node has
children, as many of them are variables as there are children left, each well formed. -/
def FrameOk (F : Formula Label) (db : Database) : List Token × Option (List Nat) → Prop
  | (toks, sib) => ∃ syms, toks.mapM db.lookupSymbol = some syms ∧ ∀ cs, sib = some cs →
      syms.countP (fun s => s.stype = .var) = cs.length ∧ ∀ c ∈ cs, WellFormedFor db (F.nodeView c)

/-- What the iterator has left to yield: each frame's, from the top down. -/
def pending (it : Flatten) : List Atom := (it.stack.map (framePending it.formula it.db)).flatten

/-- Every frame of the stack reads to its end without a panic. -/
def Inv (it : Flatten) : Prop := ∀ fr ∈ it.stack, FrameOk it.formula it.db fr

theorem mapM_cons_eq_some {token : Token} {toks : List Token} {f : Token → Option SymbolInfo}
    {syms : List SymbolInfo} (h : (token :: toks).mapM f = some syms) :
    ∃ s ss, f token = some s ∧ toks.mapM f = some ss ∧ syms = s :: ss := by
  simp only [List.mapM_cons, Option.bind_eq_bind, Option.bind_eq_some, Option.pure_def,
    Option.some.injEq] at h
  obtain ⟨s, hs, ss, hss, rfl⟩ := h
  exact ⟨s, ss, hs, hss, rfl⟩

/-- **`step_into` a well-formed node pushes a frame that reads it to its end**, its
flattening. -/
theorem stepInto_spec (it : Flatten) {c : Nat} (hc : WellFormedFor it.db (it.formula.nodeView c)) :
    ∃ fr, it.stepInto c = .ok { it with stack := fr :: it.stack } ∧
      framePending it.formula it.db fr = flat it.db (it.formula.nodeView c) ∧
      FrameOk it.formula it.db fr := by
  rw [Formula.nodeView_eq] at hc ⊢
  cases hc with
  | @node _ _ _ syms hsyn hcount hcs =>
  obtain ⟨address, haddr, hmath⟩ := Option.bind_eq_some.mp hsyn
  have hflat : ∀ sib : Option (List Nat), (sib.getD []) = it.formula.tree.childrenIter c →
      framePending it.formula it.db ((it.db.math address).drop 1, sib) =
        flat it.db (.node (it.formula.tree.label c, it.formula.isVariable c)
          ((it.formula.tree.childrenIter c).map it.formula.nodeView)) := by
    intro sib hsib
    rw [framePending, flat, hsyn, hmath, flatList_eq, hsib, List.map_map]
  unfold stepInto
  simp only [haddr]
  by_cases hch : it.formula.tree.hasChildren c = true
  · rw [if_pos hch]
    refine ⟨_, rfl, hflat _ rfl, syms, hmath, fun cs hcs' => ?_⟩
    cases hcs'
    have hne : (it.formula.tree.childrenIter c).map it.formula.nodeView ≠ [] := by
      simpa [Tree.hasChildren] using hch
    refine ⟨by rw [hcount hne, List.length_map], fun c' hc' => hcs _ (List.mem_map_of_mem _ hc')⟩
  · rw [if_neg hch]
    have hnil : it.formula.tree.childrenIter c = [] := by simpa [Tree.hasChildren] using hch
    exact ⟨_, rfl, hflat none hnil.symm, syms, hmath, fun cs h => nomatch h⟩

theorem frameOk_head {it : Flatten} {fr : List Token × Option (List Nat)}
    {rest : List (List Token × Option (List Nat))} (h : it.stack = fr :: rest) (hinv : it.Inv) :
    FrameOk it.formula it.db fr :=
  hinv fr (by rw [h]; exact List.mem_cons_self _ _)

theorem inv_tail {it : Flatten} {fr : List Token × Option (List Nat)}
    {rest : List (List Token × Option (List Nat))} (h : it.stack = fr :: rest) (hinv : it.Inv) :
    ({ it with stack := rest } : Flatten).Inv :=
  fun fr' hfr' => hinv fr' (by rw [h]; exact List.mem_cons_of_mem _ hfr')

theorem inv_push {it : Flatten} (hinv : it.Inv) {fr : List Token × Option (List Nat)}
    (hfr : FrameOk it.formula it.db fr) : ({ it with stack := fr :: it.stack } : Flatten).Inv := by
  intro f hf
  rcases List.mem_cons.mp hf with rfl | hf
  · exact hfr
  · exact hinv f hf

theorem pending_of_stack {it : Flatten} {fr : List Token × Option (List Nat)}
    {rest : List (List Token × Option (List Nat))} (h : it.stack = fr :: rest) :
    it.pending = framePending it.formula it.db fr ++ ({ it with stack := rest } : Flatten).pending := by
  simp [pending, h]

theorem pending_cons (it : Flatten) (fr : List Token × Option (List Nat))
    (rest : List (List Token × Option (List Nat))) :
    ({ it with stack := fr :: rest } : Flatten).pending =
      framePending it.formula it.db fr ++ ({ it with stack := rest } : Flatten).pending := by
  simp [pending]

/-- **`next` from a state whose frames read to their end** yields the first symbol left and
leaves the rest, without a panic, or `None` when nothing is left. -/
theorem next_spec (it : Flatten) : it.Inv →
    (it.pending = [] ∧ ∃ it', it.next = .ok (none, it')) ∨
      ∃ a it', it.next = .ok (some a, it') ∧ it.pending = a :: it'.pending ∧ it'.Inv := by
  induction it using next.induct with
  | case1 it h => intro _; exact .inl ⟨by simp [pending, h], it, next_of_nil h⟩
  | case2 it token toks sib rest h hs =>
    intro hinv
    obtain ⟨syms, hm, -⟩ := frameOk_head h hinv
    obtain ⟨s, ss, hs', -, -⟩ := mapM_cons_eq_some hm
    rw [hs] at hs'; cases hs'
  | case3 it token toks sib rest h s hs hc =>
    intro hinv
    obtain ⟨syms, hm, hsib⟩ := frameOk_head h hinv
    obtain ⟨s', ss, hs', hss, rfl⟩ := mapM_cons_eq_some hm
    rw [hs] at hs'; cases hs'
    have hne : s.stype ≠ .var := by rw [hc]; decide
    refine .inr ⟨s.atom, _, next_of_yield h hs (.inl hc), ?_,
      inv_push (inv_tail h hinv) ⟨ss, hss, fun cs hcs => ?_⟩⟩
    · rw [pending_of_stack h, pending_cons]
      simp only [framePending, hm, hss, Option.getD_some, flatWith_cons_of_ne _ _ hne]
      rfl
    · obtain ⟨hcount, hwf⟩ := hsib cs hcs
      refine ⟨?_, hwf⟩
      rw [← hcount, List.countP_cons_of_neg _ _ (by simpa using hne)]
  | case4 it token toks rest s hs h hv =>
    intro hinv
    obtain ⟨syms, hm, -⟩ := frameOk_head h hinv
    obtain ⟨s', ss, hs', hss, rfl⟩ := mapM_cons_eq_some hm
    rw [hs] at hs'; cases hs'
    refine .inr ⟨s.atom, _, next_of_yield h hs (.inr rfl), ?_,
      inv_push (inv_tail h hinv) ⟨ss, hss, fun cs h => nomatch h⟩⟩
    rw [pending_of_stack h, pending_cons]
    simp only [framePending, hm, hss, Option.getD_some, Option.getD_none, List.map_nil,
      flatWith_cons_nil]
    rfl
  | case5 it token toks rest s hs c cs h hv it'' hstep _ ih =>
    intro hinv
    obtain ⟨syms, hm, hsib⟩ := frameOk_head h hinv
    obtain ⟨s', ss, hs', hss, rfl⟩ := mapM_cons_eq_some hm
    rw [hs] at hs'; cases hs'
    obtain ⟨hcount, hwf⟩ := hsib (c :: cs) rfl
    obtain ⟨fr, hfr, hfp, hfok⟩ :=
      stepInto_spec ({ it with stack := (toks, some cs) :: rest } : Flatten)
        (hwf c (List.mem_cons_self _ _))
    rw [hstep, Except.ok.injEq] at hfr
    subst hfr
    have hframe : FrameOk it.formula it.db (toks, some cs) := by
      refine ⟨ss, hss, fun cs' hcs' => ?_⟩
      cases hcs'
      refine ⟨?_, fun c' hc' => hwf c' (List.mem_cons_of_mem _ hc')⟩
      rw [List.countP_cons_of_pos _ _ (by simpa using hv)] at hcount
      simpa using hcount
    have hinv'' : ({ it with stack := fr :: (toks, some cs) :: rest } : Flatten).Inv :=
      inv_push (inv_push (inv_tail h hinv) hframe) hfok
    have hp : it.pending = ({ it with stack := fr :: (toks, some cs) :: rest } : Flatten).pending := by
      rw [pending_of_stack h, pending_cons, pending_cons]
      dsimp only at hfp ⊢
      rw [hfp, ← List.append_assoc]
      simp only [framePending, hm, hss, Option.getD_some, List.map_cons, flatWith_cons_var _ _ _ hv]
    rw [next_of_enter h hs hv, hstep, ok_bind, hp]
    exact ih hinv''
  | case6 it token toks rest s hs c cs h hv e hstep =>
    intro hinv
    obtain ⟨syms, hm, hsib⟩ := frameOk_head h hinv
    obtain ⟨fr, hfr, -⟩ := stepInto_spec ({ it with stack := (toks, some cs) :: rest } : Flatten)
      ((hsib (c :: cs) rfl).2 c (List.mem_cons_self _ _))
    rw [hstep] at hfr; cases hfr
  | case7 it token toks rest s hs h hv =>
    intro hinv
    obtain ⟨syms, hm, hsib⟩ := frameOk_head h hinv
    obtain ⟨s', ss, hs', -, rfl⟩ := mapM_cons_eq_some hm
    rw [hs] at hs'; cases hs'
    have := (hsib [] rfl).1
    rw [List.countP_cons_of_pos _ _ (by simpa using hv)] at this
    cases this
  | case8 it sib rest h ih =>
    intro hinv
    rw [next_of_pop h, pending_of_stack h]
    simpa [framePending, flatWith] using ih (inv_tail h hinv)

/-- The iterator yields what it has left, when its frames read to their end. -/
theorem yields_pending : ∀ (n : Nat) (it : Flatten), it.weight < n → it.Inv → Yields it it.pending
  | 0, _, hw, _ => absurd hw (Nat.not_lt_zero _)
  | n + 1, it, hw, hinv => by
    rcases next_spec it hinv with ⟨hp, it', hn⟩ | ⟨a, it', hn, hp, hinv'⟩
    · rw [hp]; exact .nil hn
    · rw [hp]
      exact .cons hn (yields_pending n it' (by have := weight_next_lt it hn; omega) hinv')

end Flatten

namespace FormulaRef

/-- `FormulaRef::iter`: a `Flatten` that has entered the root. -/
def iter (self : FormulaRef) : Except Fault Flatten :=
  ({ formula := self.formula, db := self.db, stack := [] } : Flatten).stepInto self.formula.root

/-- `FormulaRef::append_to_stack_buffer`: the name of each symbol `for symbol in self` visits
appended and its last byte marked; the range appended. -/
def appendToStackBuffer (self : FormulaRef) (stackBuffer : List UInt8) :
    Except Fault (List UInt8 × Range) := do
  let tos := stackBuffer.length
  let it ← self.iter
  let stackBuffer ← it.forSymbols
    (fun stackBuffer symbol => markLast (stackBuffer ++ self.db.atomName symbol)) stackBuffer
  let nTos := stackBuffer.length
  pure (stackBuffer, ⟨tos, nTos⟩)

/-- **The iterator of a well-formed formula yields exactly its flattening**, without a panic. -/
theorem iter_yields (self : FormulaRef) (hwf : WellFormedFor self.db self.formula.view) :
    ∃ it, self.iter = .ok it ∧ Flatten.Yields it (flat self.db self.formula.view) := by
  obtain ⟨fr, hfr, hfp, hfok⟩ :=
    Flatten.stepInto_spec ({ formula := self.formula, db := self.db, stack := [] } : Flatten) hwf
  dsimp only at hfr hfp hfok
  refine ⟨_, hfr, ?_⟩
  have h := Flatten.yields_pending _ ({ formula := self.formula, db := self.db, stack := [fr] } :
    Flatten) (Nat.lt_succ_self _) (fun fr' hfr' => by rw [List.mem_singleton.mp hfr']; exact hfok)
  simpa [Flatten.pending, hfp, Formula.view] using h

theorem appendSymbols_eq_foldlM (atomName : Atom → Token) (symbols : List Atom)
    (stackBuffer : List UInt8) :
    appendSymbols atomName symbols stackBuffer =
      symbols.foldlM (fun stackBuffer symbol => markLast (stackBuffer ++ atomName symbol))
        stackBuffer := by
  induction symbols generalizing stackBuffer with
  | nil => rfl
  | cons s ss ih => simp only [appendSymbols, List.foldlM_cons, ih]

/-- **`append_to_stack_buffer` is the loop of `appendSymbols` over the flattening** of a
well-formed formula. -/
theorem appendToStackBuffer_iter (self : FormulaRef) (hwf : WellFormedFor self.db self.formula.view)
    (stackBuffer : List UInt8) :
    self.appendToStackBuffer stackBuffer =
      MetamathKnife.appendToStackBuffer self.db.atomName (flat self.db self.formula.view)
        stackBuffer := by
  obtain ⟨it, hit, hy⟩ := self.iter_yields hwf
  rw [appendToStackBuffer, hit, ok_bind, Flatten.forSymbols_of_yields _ hy,
    MetamathKnife.appendToStackBuffer, appendSymbols_eq_foldlM]

/-- **Flattening a well-formed formula**: the iterator yields exactly its flattening, without a
panic; `append_to_stack_buffer` appends the names of its symbols, each marked on its last byte,
and returns the range it appended, from which, when no name has a byte with the high bit set,
the names are read back in order. -/
theorem flatten_spec (self : FormulaRef) (hwf : WellFormedFor self.db self.formula.view)
    (stackBuffer : List UInt8) :
    (∃ it, self.iter = .ok it ∧ Flatten.Yields it (flat self.db self.formula.view)) ∧
    self.appendToStackBuffer stackBuffer =
      .ok (stackBuffer ++ canonicalEncoding ((flat self.db self.formula.view).map self.db.atomName),
        ⟨stackBuffer.length, (stackBuffer ++
          canonicalEncoding ((flat self.db self.formula.view).map self.db.atomName)).length⟩) ∧
    ((∀ s ∈ flat self.db self.formula.view, ∀ b ∈ self.db.atomName s, highBit b = false) →
      ∃ buf r, self.appendToStackBuffer stackBuffer = .ok (buf, r) ∧
        (Verify.slice buf r).map (decodeCanonical []) =
          .ok ((flat self.db self.formula.view).map self.db.atomName)) := by
  have hne := hwf.atomName_ne
  refine ⟨self.iter_yields hwf, ?_, fun hascii => ?_⟩
  · rw [appendToStackBuffer_iter self hwf, appendToStackBuffer_eq _ hne]
  · obtain ⟨buf, r, h, hs⟩ := slice_appendToStackBuffer self.db.atomName hne stackBuffer
    refine ⟨buf, r, (appendToStackBuffer_iter self hwf stackBuffer).trans h, ?_⟩
    rw [hs]
    exact congrArg Except.ok
      (decodeCanonical_canonicalEncoding (by simpa using fun s hs => ⟨hne s hs, hascii s hs⟩))

end FormulaRef

/-! ## A database of two syntax axioms -/

open Verify (tokenOf)

/-- The names of the atoms of `wi $a wff ( ph -> ps ) $.` and `wph $f wff ph $.`: the labels
`wi` and `wph`, then the symbols `ph`, `ps`, `(`, `->`, `)` and `wff`. -/
def impNames (a : Atom) : Token :=
  [tokenOf "wi", tokenOf "wph", tokenOf "ph", tokenOf "ps", tokenOf "(", tokenOf "->",
    tokenOf ")", tokenOf "wff"].getD a []

/-- The database of `wi` and `wph`, at the addresses `0` and `1` of segment `0`. -/
def impDb : Database where
  atomName := impNames
  lookupLabel t :=
    if t = tokenOf "wi" then some ⟨0, 0⟩ else if t = tokenOf "wph" then some ⟨0, 1⟩ else none
  math a := if a.index = 0 then
      [tokenOf "wff", tokenOf "(", tokenOf "ph", tokenOf "->", tokenOf "ps", tokenOf ")"]
    else [tokenOf "wff", tokenOf "ph"]
  lookupSymbol t :=
    if t = tokenOf "ph" then some ⟨2, .var⟩ else if t = tokenOf "ps" then some ⟨3, .var⟩
    else if t = tokenOf "(" then some ⟨4, .constant⟩
    else if t = tokenOf "->" then some ⟨5, .constant⟩
    else if t = tokenOf ")" then some ⟨6, .constant⟩
    else if t = tokenOf "wff" then some ⟨7, .constant⟩ else none
  lookupSymbol_atomName {t s} h := by
    dsimp only at h
    split_ifs at h <;> cases h <;> subst_vars <;> decide

/-- The formula `( ph -> ph )` of typecode `wff`: `wi` over two `wph`. -/
def phImpPhRef : FormulaRef :=
  ⟨impDb, { Formula.ofNodes [(1, []), (1, []), (0, [0, 1])] .new (by decide) (by decide)
    (by decide) with typecode := 7 }⟩
theorem view_phImpPhRef :
    phImpPhRef.formula.view = .node (0, false) [.node (1, false) [], .node (1, false) []] := by
  simp [Formula.view, Formula.nodeView, Tree.view_eq, phImpPhRef, Formula.ofNodes, Tree.label,
    Tree.childrenIter]

example : flat impDb phImpPhRef.formula.view = [4, 2, 5, 2, 6] := by
  rw [view_phImpPhRef]; decide

theorem flatten_phImpPh :
    WellFormedFor impDb phImpPhRef.formula.view ∧
    ((∃ it, phImpPhRef.iter = .ok it ∧ Flatten.Yields it (flat impDb phImpPhRef.formula.view)) ∧
    phImpPhRef.appendToStackBuffer (tokenOf "|-") =
      .ok (tokenOf "|-" ++ canonicalEncoding ((flat impDb phImpPhRef.formula.view).map
        impDb.atomName), ⟨(tokenOf "|-").length, (tokenOf "|-" ++ canonicalEncoding
          ((flat impDb phImpPhRef.formula.view).map impDb.atomName)).length⟩) ∧
    ((∀ s ∈ flat impDb phImpPhRef.formula.view, ∀ b ∈ impDb.atomName s, highBit b = false) →
      ∃ buf r, phImpPhRef.appendToStackBuffer (tokenOf "|-") = .ok (buf, r) ∧
        (Verify.slice buf r).map (decodeCanonical []) =
          .ok ((flat impDb phImpPhRef.formula.view).map impDb.atomName))) := by
  have hleaf : WellFormedFor impDb (.node (1, false) []) :=
    .node (show impDb.syntaxOf 1 = some [⟨2, .var⟩] by decide) (fun h => absurd rfl h)
      (fun _ h => nomatch h)
  have hwf : WellFormedFor impDb phImpPhRef.formula.view := by
    rw [view_phImpPhRef]
    refine .node (show impDb.syntaxOf 0 = some [⟨4, .constant⟩, ⟨2, .var⟩, ⟨5, .constant⟩,
      ⟨3, .var⟩, ⟨6, .constant⟩] by decide) (fun _ => by decide) (fun c hc => ?_)
    simp only [List.mem_cons, List.mem_singleton, List.not_mem_nil, or_false] at hc
    rcases hc with rfl | rfl <;> exact hleaf
  exact ⟨hwf, FormulaRef.flatten_spec phImpPhRef hwf (tokenOf "|-")⟩

end MetamathKnife
