import MetamathKnife.Formula.SyntaxProof

/-!
# Printing formulas

`formula.rs` prints a formula in two ways. `Display for FormulaRef` writes the name of the
typecode, then a space and the name of each symbol of the flattening; `as_sexpr` writes the tree
of labels, a node with children as `(label child ...)` and a node without as its label.

* `FormulaRef.display_spec`: on a well-formed formula, `Display` does not panic and writes the
  names of the typecode and of the symbols separated by single spaces: the format of the
  verifier's strings without its last space, from which names without a space read back;
* `sexprBytes`: the rendering of a tree of names, which `write_sub_sexpr` computes on the tree
  below a node (`writeSubSexpr_eq`);
* `sexprBytes_append_inj`: followed by a rest that starts at a delimiter, the rendering
  determines the tree and the rest, when no name holds a parenthesis or a space;
* `FormulaRef.asSexpr_inj`: so two formulas have the same s-expression exactly when their trees
  of label names agree.
-/

namespace MetamathKnife

open Verify (Fault Token space spaced unspace SpaceFree unspace_spaced openParen closeParen
  ok_bind)

/-! ## `Display` -/

/-- Each name written after a space, from `out` on. -/
theorem foldlM_writeSpaced (name : Atom → Token) :
    ∀ (symbols : List Atom) (out : List UInt8),
      symbols.foldlM (fun out symbol => (pure (out ++ space :: name symbol) : Except Fault _)) out =
        .ok (out ++ (symbols.map name).flatMap (space :: ·))
  | [], out => by simp
  | s :: symbols, out => by
    rw [List.foldlM_cons, pure_bind, foldlM_writeSpaced name symbols]
    simp

theorem flatMap_space_append (ts : List Token) :
    ts.flatMap (space :: ·) ++ [space] = space :: spaced ts := by
  induction ts with
  | nil => rfl
  | cons t ts ih => simp [ih]

namespace FormulaRef

/-- `Display for FormulaRef`: the name of the typecode, then, for each symbol
`for symbol in *self` visits, a space and its name; the bytes written, writing to a `String`
not failing. -/
def display (self : FormulaRef) : Except Fault (List UInt8) := do
  let it ← self.iter
  it.forSymbols (fun out symbol => pure (out ++ space :: self.db.atomName symbol))
    (self.db.atomName self.formula.typecode)

/-- **`Display` writes the typecode and the flattening, separated by single spaces**: on a
well-formed formula it does not panic, and what it writes, a space added, is the typecode's and
the symbols' names in the format of the verifier's strings; when no name holds a space, they read
back from it. -/
theorem display_spec (self : FormulaRef) (hwf : WellFormedFor self.db self.formula.view) :
    ∃ out, self.display = .ok out ∧
      out ++ [space] = spaced (self.db.atomName self.formula.typecode ::
        (flat self.db self.formula.view).map self.db.atomName) ∧
      (SpaceFree (self.db.atomName self.formula.typecode ::
          (flat self.db self.formula.view).map self.db.atomName) →
        unspace (out ++ [space]) = self.db.atomName self.formula.typecode ::
          (flat self.db self.formula.view).map self.db.atomName) := by
  obtain ⟨it, hit, hy⟩ := self.iter_yields hwf
  have hspaced : self.db.atomName self.formula.typecode ++
      ((flat self.db self.formula.view).map self.db.atomName).flatMap (space :: ·) ++ [space] =
      spaced (self.db.atomName self.formula.typecode ::
        (flat self.db self.formula.view).map self.db.atomName) := by
    rw [List.append_assoc, flatMap_space_append, Verify.spaced_cons]
  refine ⟨_, ?_, hspaced, fun h => by rw [hspaced, unspace_spaced h]⟩
  rw [display, hit, ok_bind, Flatten.forSymbols_of_yields _ hy, foldlM_writeSpaced]

end FormulaRef

/-! ## S-expressions -/

mutual
/-- The s-expression of a tree of names: a node with children as `(`, its name, a space and the
child's s-expression for each child, and `)`; a node without, as its name. -/
def sexprBytes : Term Token → List UInt8
  | .node a [] => a
  | .node a (c :: cs) => openParen ++ a ++ sexprBytesList (c :: cs) ++ closeParen
/-- The s-expression of each tree of a list, after a space. -/
def sexprBytesList : List (Term Token) → List UInt8
  | [] => []
  | t :: ts => space :: sexprBytes t ++ sexprBytesList ts
end

theorem sexprBytesList_eq (ts : List (Term Token)) :
    sexprBytesList ts = ts.flatMap (space :: sexprBytes ·) := by
  induction ts with
  | nil => rfl
  | cons t ts ih => rw [sexprBytesList, ih]; rfl

theorem flatMap_attach_eq {α β : Type} {l : List α} {f : {x // x ∈ l} → List β} {g : α → List β}
    (h : ∀ x (hx : x ∈ l), f ⟨x, hx⟩ = g x) : l.attach.flatMap f = l.flatMap g := by
  rw [@List.flatMap_subtype _ _ _ _ _ _ h, List.unattach_attach]

namespace FormulaRef

/-- `write_sub_sexpr(node_id, w)`: the bytes written to `w` for the tree below the node, a node
with children as `(`, its label's name, a space and the child's for each child, and `)`, a node
without as its label's name; writing to a `String` does not fail. -/
def writeSubSexpr (self : FormulaRef) (n : Nat) : List UInt8 :=
  if self.formula.tree.hasChildren n then
    openParen ++ self.db.atomName (self.formula.tree.label n) ++
      (self.formula.tree.childrenIter n).attach.flatMap (fun c => space :: self.writeSubSexpr c.1) ++
      closeParen
  else self.db.atomName (self.formula.tree.label n)
termination_by n
decreasing_by exact self.formula.tree.lt_of_mem_childrenIter c.2

/-- `write_sexpr(w)`: the s-expression of the root. -/
def writeSexpr (self : FormulaRef) : List UInt8 := self.writeSubSexpr self.formula.root

/-- `as_sexpr()`: `write_sexpr` into a new `String`, whose `unwrap` does not fail. -/
def asSexpr (self : FormulaRef) : List UInt8 := self.writeSexpr

/-- The tree of the names of the labels below a node. -/
def nameTree (self : FormulaRef) (n : Nat) : Term Token :=
  (self.formula.nodeView n).map fun p => self.db.atomName p.1

/-- **`write_sub_sexpr` renders the tree of names** below the node. -/
theorem writeSubSexpr_eq (self : FormulaRef) (n : Nat) :
    self.writeSubSexpr n = sexprBytes (self.nameTree n) := by
  induction n using Nat.strong_induction_on with
  | _ n ih =>
    rw [writeSubSexpr, nameTree, Formula.nodeView_eq, Term.map_node]
    cases hcs : self.formula.tree.childrenIter n with
    | nil => simp [Tree.hasChildren, hcs, sexprBytes]
    | cons c cs =>
      have hflat := flatMap_attach_eq (f := fun c => space :: self.writeSubSexpr c.1)
        fun x hx => congrArg (space :: ·)
          (ih x (self.formula.tree.lt_of_mem_childrenIter (hcs ▸ hx)))
      simp only [Tree.hasChildren, hcs, List.isEmpty_cons, Bool.not_false, if_true, List.map_cons,
        sexprBytes, sexprBytesList_eq, List.flatMap_cons] at hflat ⊢
      rw [hflat]
      simp only [List.map_map, List.flatMap_map]
      rfl

end FormulaRef

/-- No byte of a name is a parenthesis or a space. -/
def NameOk (a : Token) : Prop := ∀ b ∈ a, b ≠ '('.toUInt8 ∧ b ≠ ')'.toUInt8 ∧ b ≠ space

instance (a : Token) : Decidable (NameOk a) := inferInstanceAs (Decidable (∀ b ∈ a, _))

/-- A tree whose names hold no parenthesis and no space. -/
inductive NamesOk : Term Token → Prop
  | node {a : Token} {cs : List (Term Token)} : NameOk a → (∀ c ∈ cs, NamesOk c) →
      NamesOk (.node a cs)

/-- What follows a name in an s-expression: nothing, a space or a closing parenthesis. -/
def Delimited (r : List UInt8) : Prop := ∀ b ∈ r.head?, b = space ∨ b = ')'.toUInt8

/-- A name ends at the delimiter after it. -/
theorem append_inj_of_delimited :
    ∀ {a a' r s : List UInt8}, NameOk a → NameOk a' → Delimited r → Delimited s →
      a ++ r = a' ++ s → a = a' ∧ r = s
  | [], [], _, _, _, _, _, _, h => ⟨rfl, h⟩
  | [], b :: _, _, _, _, ha', hr, _, h => by
    subst h
    have := ha' b (List.mem_cons_self _ _)
    rcases hr b rfl with rfl | rfl <;> simp at this
  | b :: _, [], _, _, ha, _, _, hs, h => by
    subst h
    have := ha b (List.mem_cons_self _ _)
    rcases hs b rfl with rfl | rfl <;> simp at this
  | b :: a, b' :: a', r, s, ha, ha', hr, hs, h => by
    simp only [List.cons_append, List.cons.injEq] at h
    obtain ⟨rfl, h⟩ := h
    obtain ⟨rfl, rfl⟩ := append_inj_of_delimited (fun x hx => ha x (List.mem_cons_of_mem _ hx))
      (fun x hx => ha' x (List.mem_cons_of_mem _ hx)) hr hs h
    exact ⟨rfl, rfl⟩

/-- A name followed by a delimited rest does not start with a parenthesis. -/
theorem append_ne_openParen {a r x : List UInt8} (ha : NameOk a) (hr : Delimited r) :
    a ++ r ≠ '('.toUInt8 :: x := by
  intro h
  cases a with
  | nil =>
    rw [List.nil_append] at h
    subst h
    exact absurd (hr _ rfl) (by decide)
  | cons b a =>
    simp only [List.cons_append, List.cons.injEq] at h
    obtain ⟨rfl, -⟩ := h
    exact (ha _ (List.mem_cons_self _ _)).1 rfl

theorem delimited_sexprBytesList (ts : List (Term Token)) (r : List UInt8) :
    Delimited (sexprBytesList ts ++ (closeParen ++ r)) := by
  cases ts <;> simp [Delimited, sexprBytesList, closeParen]

mutual
/-- **The s-expression of a tree is prefix-free**: followed by delimited rests, two renderings
agree only when the trees and the rests do. -/
theorem sexprBytes_append_inj : ∀ (t u : Term Token) {r s : List UInt8}, NamesOk t → NamesOk u →
    Delimited r → Delimited s → sexprBytes t ++ r = sexprBytes u ++ s → t = u ∧ r = s
  | .node a [], .node a' [], _, _, .node ha _, .node ha' _, hr, hs, h => by
    obtain ⟨rfl, rfl⟩ := append_inj_of_delimited ha ha' hr hs h
    exact ⟨rfl, rfl⟩
  | .node a [], .node a' (d :: ds), _, _, .node ha _, _, hr, _, h => by
    simp only [sexprBytes, openParen, List.singleton_append, List.cons_append] at h
    exact absurd h (append_ne_openParen ha hr)
  | .node a (c :: cs), .node a' [], _, _, _, .node ha' _, _, hs, h => by
    simp only [sexprBytes, openParen, List.singleton_append, List.cons_append] at h
    exact absurd h.symm (append_ne_openParen ha' hs)
  | .node a (c :: cs), .node a' (d :: ds), r, s, .node ha hcs, .node ha' hds, _, _, h => by
    simp only [sexprBytes, openParen, List.singleton_append, List.cons_append, List.append_assoc,
      List.cons.injEq, List.nil_append, true_and] at h
    obtain ⟨rfl, hrest⟩ := append_inj_of_delimited ha ha' (delimited_sexprBytesList _ r)
      (delimited_sexprBytesList _ s) h
    obtain ⟨hcd, rfl⟩ := sexprBytesList_append_inj (c :: cs) (d :: ds) hcs hds hrest
    exact ⟨by rw [hcd], rfl⟩
/-- The s-expressions of a list of trees, then `)`, agree only when the lists and the rests
do. -/
theorem sexprBytesList_append_inj : ∀ (ts us : List (Term Token)) {r s : List UInt8},
    (∀ t ∈ ts, NamesOk t) → (∀ u ∈ us, NamesOk u) →
    sexprBytesList ts ++ (closeParen ++ r) = sexprBytesList us ++ (closeParen ++ s) →
      ts = us ∧ r = s
  | [], [], _, _, _, _, h => ⟨rfl, by simpa [sexprBytesList, closeParen] using h⟩
  | [], _ :: _, _, _, _, _, h => by
    simp only [sexprBytesList, closeParen, List.nil_append, List.singleton_append,
      List.cons_append, List.cons.injEq] at h
    exact absurd h.1 (by decide)
  | _ :: _, [], _, _, _, _, h => by
    simp only [sexprBytesList, closeParen, List.nil_append, List.singleton_append,
      List.cons_append, List.cons.injEq] at h
    exact absurd h.1 (by decide)
  | t :: ts, u :: us, r, s, hts, hus, h => by
    simp only [sexprBytesList, List.cons_append, List.cons.injEq, true_and,
      List.append_assoc] at h
    obtain ⟨rfl, hrest⟩ := sexprBytes_append_inj t u (hts t (List.mem_cons_self _ _))
      (hus u (List.mem_cons_self _ _)) (delimited_sexprBytesList ts r)
      (delimited_sexprBytesList us s) h
    obtain ⟨rfl, rfl⟩ := sexprBytesList_append_inj ts us
      (fun x hx => hts x (List.mem_cons_of_mem _ hx))
      (fun x hx => hus x (List.mem_cons_of_mem _ hx)) hrest
    exact ⟨rfl, rfl⟩
end

/-- **`as_sexpr` is unambiguous**: two formulas whose label names hold no parenthesis and no
space have the same s-expression exactly when their trees of label names agree; what
`write_sexpr` writes is prefix-free, followed by delimited rests the two agree only when the trees
and the rests do. -/
theorem FormulaRef.asSexpr_inj (F G : FormulaRef) (hF : NamesOk (F.nameTree F.formula.root))
    (hG : NamesOk (G.nameTree G.formula.root)) :
    (F.asSexpr = G.asSexpr ↔ F.nameTree F.formula.root = G.nameTree G.formula.root) ∧
    ∀ r s, Delimited r → Delimited s → F.writeSexpr ++ r = G.writeSexpr ++ s →
      F.nameTree F.formula.root = G.nameTree G.formula.root ∧ r = s := by
  simp only [FormulaRef.asSexpr, FormulaRef.writeSexpr, FormulaRef.writeSubSexpr_eq]
  refine ⟨⟨fun h => ?_, fun h => by rw [h]⟩, fun r s => sexprBytes_append_inj _ _ hF hG⟩
  exact (sexprBytes_append_inj _ _ hF hG (r := []) (s := []) (by simp [Delimited])
    (by simp [Delimited]) (by simpa using h)).1

/-! ## `( ph -> ph )` printed -/

open Verify (tokenOf)

/-- `( ph -> ph )` is printed, by `Display`, as its typecode and symbols separated by spaces. -/
theorem phImpPh_display :
    WellFormedFor impDb phImpPhRef.formula.view ∧
    ∃ out, phImpPhRef.display = .ok out ∧
      out ++ [space] = spaced (impDb.atomName phImpPhRef.formula.typecode ::
        (flat impDb phImpPhRef.formula.view).map impDb.atomName) ∧
      (SpaceFree (impDb.atomName phImpPhRef.formula.typecode ::
          (flat impDb phImpPhRef.formula.view).map impDb.atomName) →
        unspace (out ++ [space]) = impDb.atomName phImpPhRef.formula.typecode ::
          (flat impDb phImpPhRef.formula.view).map impDb.atomName) :=
  ⟨phImpPh_syntaxTyped.wellFormedFor,
    FormulaRef.display_spec phImpPhRef phImpPh_syntaxTyped.wellFormedFor⟩

/-- The formula `ph` of typecode `wff`: the float `wph`. -/
def phRef : FormulaRef := ⟨impDb, .fromFloat 1 7⟩

theorem nameTree_phImpPhRef :
    phImpPhRef.nameTree phImpPhRef.formula.root =
      .node (tokenOf "wi") [.node (tokenOf "wph") [], .node (tokenOf "wph") []] := by
  rw [FormulaRef.nameTree, ← Formula.view, view_phImpPhRef]
  rfl

/-- `( ph -> ph )` and `ph` have different s-expressions, their trees of names differing. -/
theorem phImpPh_ph_asSexpr :
    NamesOk (phImpPhRef.nameTree phImpPhRef.formula.root) ∧ NamesOk (phRef.nameTree phRef.formula.root) ∧
    (phImpPhRef.asSexpr = phRef.asSexpr ↔
      phImpPhRef.nameTree phImpPhRef.formula.root = phRef.nameTree phRef.formula.root) ∧
    ∀ r s, Delimited r → Delimited s → phImpPhRef.writeSexpr ++ r = phRef.writeSexpr ++ s →
      phImpPhRef.nameTree phImpPhRef.formula.root = phRef.nameTree phRef.formula.root ∧ r = s := by
  have hwph : NamesOk (.node (tokenOf "wph") []) := .node (by decide) (by simp)
  have hF : NamesOk (phImpPhRef.nameTree phImpPhRef.formula.root) := by
    rw [nameTree_phImpPhRef]
    exact .node (by decide) (by simpa using hwph)
  have hG : NamesOk (phRef.nameTree phRef.formula.root) := by
    rw [FormulaRef.nameTree, ← Formula.view, phRef, Formula.view_fromFloat]
    exact hwph
  exact ⟨hF, hG, FormulaRef.asSexpr_inj phImpPhRef phRef hF hG⟩

end MetamathKnife
