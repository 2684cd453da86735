import MetamathKnife.Verify.Proof

/-!
# The reference stack machine

What a proof means, token by token, as the verifier is checked against it. An entry of the
stack is a typecode and the tokens of an expression. A hypothesis pushes its expression. An
assertion pops one entry per hypothesis, reads the substitution off its floating hypotheses,
requires each entry to have its hypothesis's typecode and each essential one to be its
hypothesis under the substitution, requires every two variables substituted for a mandatory
`$d` pair to be a `$d` pair of the statement being proved, and pushes its conclusion under the
substitution. A proof is accepted when it leaves exactly the statement.

The verifier's byte strings hold tokens as `do_substitute_raw` writes them (`spaced`: each token
followed by a space); `unspace` reads them back, and undoes `spaced` on tokens without a space
(`unspace_spaced`). Which tokens are variables is the parameter `isVar`.
-/

namespace MetamathKnife.Verify

/-! ## Tokens as bytes -/

/-- Tokens in the format of `do_substitute_raw`: each token's bytes, then a space. -/
def spaced (ts : List Token) : List UInt8 := ts.flatMap (· ++ [space])

@[simp] theorem spaced_nil : spaced [] = [] := rfl

@[simp] theorem spaced_cons (t : Token) (ts : List Token) :
    spaced (t :: ts) = t ++ space :: spaced ts := by
  simp [spaced]

@[simp] theorem spaced_append (ts us : List Token) : spaced (ts ++ us) = spaced ts ++ spaced us :=
  List.flatMap_append _ _ _

/-- No token contains a space. -/
def SpaceFree (ts : List Token) : Prop := ∀ t ∈ ts, space ∉ t

/-- The tokens of a byte string: the bytes up to each space. -/
def unspaceFrom (cur : Token) : List UInt8 → List Token
  | [] => if cur = [] then [] else [cur]
  | b :: bs => if b = space then cur :: unspaceFrom [] bs else unspaceFrom (cur ++ [b]) bs

/-- The tokens of a byte string in the format of `spaced`. -/
def unspace (bytes : List UInt8) : List Token := unspaceFrom [] bytes

theorem unspaceFrom_token (cur t : Token) (ht : space ∉ t) (rest : List UInt8) :
    unspaceFrom cur (t ++ space :: rest) = (cur ++ t) :: unspaceFrom [] rest := by
  induction t generalizing cur with
  | nil => simp [unspaceFrom]
  | cons b t ih =>
    simp only [List.mem_cons, not_or] at ht
    rw [List.cons_append, unspaceFrom, if_neg (Ne.symm ht.1), ih _ ht.2]
    simp

theorem unspace_spaced_append {ts : List Token} (hts : SpaceFree ts) (rest : List UInt8) :
    unspace (spaced ts ++ rest) = ts ++ unspace rest := by
  induction ts with
  | nil => rfl
  | cons t ts ih =>
    simp only [SpaceFree, List.mem_cons, forall_eq_or_imp] at hts
    rw [spaced_cons, List.append_assoc, List.cons_append, unspace, unspaceFrom_token _ _ hts.1,
      List.nil_append, ← unspace, ih hts.2, List.cons_append]

/-- **`unspace` reads back what `spaced` writes.** -/
theorem unspace_spaced {ts : List Token} (hts : SpaceFree ts) : unspace (spaced ts) = ts := by
  simpa [unspace, unspaceFrom] using unspace_spaced_append hts []

theorem spaced_inj {ts us : List Token} (hts : SpaceFree ts) (hus : SpaceFree us)
    (h : spaced ts = spaced us) : ts = us := by
  rw [← unspace_spaced hts, h, unspace_spaced hus]

theorem spaced_eq_iff {ts us : List Token} (hts : SpaceFree ts) (hus : SpaceFree us) :
    spaced ts = spaced us ↔ ts = us :=
  ⟨spaced_inj hts hus, congrArg spaced⟩

theorem SpaceFree.append {ts us : List Token} (hts : SpaceFree ts) (hus : SpaceFree us) :
    SpaceFree (ts ++ us) := by
  intro t ht
  rcases List.mem_append.mp ht with h | h
  exacts [hts t h, hus t h]

/-- Bytes holding tokens without spaces in the format of `spaced`. -/
def Spaced (bytes : List UInt8) : Prop := ∃ ts, SpaceFree ts ∧ bytes = spaced ts

theorem Spaced.eq {bytes : List UInt8} (h : Spaced bytes) :
    bytes = spaced (unspace bytes) ∧ SpaceFree (unspace bytes) := by
  obtain ⟨ts, hts, rfl⟩ := h
  rw [unspace_spaced hts]
  exact ⟨rfl, hts⟩

instance (ts : List Token) : Decidable (SpaceFree ts) := inferInstanceAs (Decidable (∀ t ∈ ts, _))

/-- Bytes are spaced exactly when `unspace` reads them back. -/
theorem spaced_iff (bytes : List UInt8) :
    Spaced bytes ↔ bytes = spaced (unspace bytes) ∧ SpaceFree (unspace bytes) :=
  ⟨Spaced.eq, fun h => ⟨_, h.2, h.1⟩⟩

instance (bytes : List UInt8) : Decidable (Spaced bytes) := decidable_of_iff _ (spaced_iff bytes).symm

/-! ## Well-formed frames -/

/-- The indices a frame holds are in range: every floating hypothesis's variable, every
variable of a hypothesis or of the target and every mandatory `$d` pair name a mandatory
variable. -/
structure Frame.Indexed (f : Frame) : Prop where
  float_lt : ∀ h ∈ f.hypotheses, h.isFloat = true → h.variableIndex < f.mandatoryVars.length
  hyp_var_lt : ∀ h ∈ f.hypotheses, ∀ ix, .var ix ∈ h.expr.tail → ix < f.mandatoryVars.length
  target_var_lt : ∀ ix, .var ix ∈ f.target.tail → ix < f.mandatoryVars.length
  dv_lt : ∀ p ∈ f.mandatoryDv, p.1 < f.mandatoryVars.length ∧ p.2 < f.mandatoryVars.length

/-- The constant fragments of an expression: spaced tokens, none of them a variable. -/
def ConstantsSpaced (isVar : Token → Bool) (e : VerifyExpr) : Prop :=
  ∀ c, .constant c ∈ e.tail → Spaced c ∧ ∀ t ∈ unspace c, isVar t = false

/-- A frame as the scope analyzer builds it, with tokens in the format of `spaced`. -/
structure Frame.WellFormed (isVar : Token → Bool) (f : Frame) extends Frame.Indexed f : Prop where
  hyp_constants : ∀ h ∈ f.hypotheses, ConstantsSpaced isVar h.expr
  target_constants : ConstantsSpaced isVar f.target
  vars_spaceFree : SpaceFree f.mandatoryVars
  stub_spaced : Spaced f.stubExpr
  /-- A hypothesis's mandatory variables are the variables of its expression. -/
  stub_vars : f.stype ≠ .axiomatic → f.stype ≠ .provable →
    ∀ v, v ∈ f.mandatoryVars ↔ v ∈ unspace f.stubExpr ∧ isVar v = true

/-! ## The machine -/

/-- An entry of the stack: a typecode and the tokens of an expression. -/
abbrev RefEntry := Token × List Token

/-- What a step does: push an entry, or apply an assertion. -/
inductive RefStep
  | push (e : RefEntry)
  | apply (f : Frame)

/-- The tokens of the fragments, variable `ix` replaced by `σ ix`. -/
def refSubst (σ : Nat → List Token) : List ExprFragment → List Token
  | [] => []
  | .var ix :: e => σ ix ++ refSubst σ e
  | .constant c :: e => unspace c ++ refSubst σ e

/-- The substitution the floating hypotheses read off their entries. -/
def refFloats : List Hyp → List RefEntry → (Nat → List Token) → Nat → List Token
  | hyp :: hyps, arg :: args, σ =>
    refFloats hyps args (if hyp.isFloat then Function.update σ hyp.variableIndex arg.2 else σ)
  | _, _, σ => σ

/-- Each entry has its hypothesis's typecode, and each essential one is its hypothesis under
`σ`. -/
def HypsOk (σ : Nat → List Token) (hyps : List Hyp) (args : List RefEntry) : Prop :=
  ∀ p ∈ hyps.zip args, p.2.1 = p.1.expr.typecode ∧
    (p.1.isFloat = false → p.2.2 = refSubst σ p.1.expr.tail)

instance (σ : Nat → List Token) (hyps : List Hyp) (args : List RefEntry) :
    Decidable (HypsOk σ hyps args) :=
  inferInstanceAs (Decidable (∀ p ∈ hyps.zip args, _))

/-- `$d v1 v2` holds for the statement being proved (in either order). -/
def DvPair (cur : Frame) (v1 v2 : Token) : Prop :=
  (v1, v2) ∈ cur.optionalDv ∨ (v2, v1) ∈ cur.optionalDv

instance (cur : Frame) (v1 v2 : Token) : Decidable (DvPair cur v1 v2) :=
  inferInstanceAs (Decidable (_ ∨ _))

/-- Every two variables substituted for a mandatory `$d` pair form a `$d` pair. -/
def DvOk (isVar : Token → Bool) (cur : Frame) (σ : Nat → List Token) (dvs : List (Nat × Nat)) :
    Prop :=
  ∀ p ∈ dvs, ∀ v1 ∈ σ p.1, isVar v1 = true → ∀ v2 ∈ σ p.2, isVar v2 = true → DvPair cur v1 v2

instance (isVar : Token → Bool) (cur : Frame) (σ : Nat → List Token) (dvs : List (Nat × Nat)) :
    Decidable (DvOk isVar cur σ dvs) :=
  inferInstanceAs (Decidable (∀ p ∈ dvs, _))

/-- One step of the machine. -/
def refExec (isVar : Token → Bool) (cur : Frame) : RefStep → List RefEntry → Option (List RefEntry)
  | .push e, s => some (s ++ [e])
  | .apply f, s =>
    if s.length < f.hypotheses.length then none else
      let sbase := s.length - f.hypotheses.length
      let σ := refFloats f.hypotheses (s.drop sbase) fun _ => []
      if HypsOk σ f.hypotheses (s.drop sbase) ∧ DvOk isVar cur σ f.mandatoryDv then
        some (s.take sbase ++ [(f.target.typecode, refSubst σ f.target.tail)])
      else none

/-- A run of the machine. -/
def refRun (isVar : Token → Bool) (cur : Frame) : List RefStep → List RefEntry →
    Option (List RefEntry)
  | [], s => some s
  | p :: ps, s => (refExec isVar cur p s).bind (refRun isVar cur ps)

/-- A run of two lists of steps is the run of the first, then of the second. -/
theorem refRun_append (isVar : Token → Bool) (cur : Frame) (ps qs : List RefStep)
    (s : List RefEntry) :
    refRun isVar cur (ps ++ qs) s = (refRun isVar cur ps s).bind (refRun isVar cur qs) := by
  induction ps generalizing s with
  | nil => rfl
  | cons p ps ih => cases h : refExec isVar cur p s <;> simp [refRun, h, ih]

/-- The statement of a frame: its typecode and its tokens, its variables named. -/
def Frame.statement (f : Frame) : RefEntry :=
  (f.target.typecode, refSubst (fun ix => [f.mandatoryVars.getD ix []]) f.target.tail)

/-- The steps run from the empty stack leave exactly the statement of `cur`. -/
def RefAccepts (isVar : Token → Bool) (cur : Frame) (steps : List RefStep) : Prop :=
  refRun isVar cur steps [] = some [cur.statement]

/-- The step a label cites: an assertion is applied, a hypothesis pushes its expression. -/
def labelStep (f : Frame) : RefStep :=
  if f.stype = .axiomatic ∨ f.stype = .provable then .apply f
  else .push (f.target.typecode, unspace f.stubExpr)

/-- A label's frame may be cited in the proof of `cur`: it starts strictly before `cur`, and if
its validity ends, `cur` is in the same segment before that end. -/
def InScope (order : SegmentOrder) (cur f : Frame) : Prop :=
  order cur.valid.start f.valid.start = .gt ∧
    (f.valid.stop ≠ noStatement →
      cur.valid.start.segmentId = f.valid.start.segmentId ∧ cur.valid.start.index < f.valid.stop)

instance (order : SegmentOrder) (cur f : Frame) : Decidable (InScope order cur f) :=
  inferInstanceAs (Decidable (_ ∧ (_ → _ ∧ _)))

/-- The step a label stands for in the proof of `cur`, if it names a frame that may be cited
there. -/
def citedStep (scopes : ScopeReader) (order : SegmentOrder) (cur : Frame) (label : Token) :
    Option RefStep :=
  match scopes label with
  | some f => if InScope order cur f then some (labelStep f) else none
  | none => none

/-! ## A database of four statements

The frames of `wph $f wff ph $.`, `wps $f wff ps $.`, the axiom
`ax-1 $a |- ( ph -> ( ps -> ph ) ) $.` and the theorem `th1` that restates it, as the scope
analyzer builds them; they are well formed. -/

/-- The bytes of a token. -/
def tokenOf (s : String) : Token := s.toList.map Char.toUInt8

/-- The variables `ph` and `ps`. -/
def exampleIsVar (t : Token) : Bool := t == tokenOf "ph" || t == tokenOf "ps"

/-- The frame of `wph $f wff ph $.`. -/
def wphFrame : Frame :=
  ⟨.floating, ⟨⟨0, 1⟩, noStatement⟩, [], ⟨tokenOf "wff", [.var 0]⟩, spaced [tokenOf "ph"],
    [tokenOf "ph"], [], []⟩

/-- The frame of `wps $f wff ps $.`. -/
def wpsFrame : Frame :=
  ⟨.floating, ⟨⟨0, 2⟩, noStatement⟩, [], ⟨tokenOf "wff", [.var 0]⟩, spaced [tokenOf "ps"],
    [tokenOf "ps"], [], []⟩

/-- The mandatory hypotheses of `ax-1` and `th1`. -/
def exampleHyps : List Hyp :=
  [⟨tokenOf "wph", true, 0, ⟨tokenOf "wff", [.var 0]⟩⟩,
    ⟨tokenOf "wps", true, 1, ⟨tokenOf "wff", [.var 1]⟩⟩]

/-- `|- ( ph -> ( ps -> ph ) )`. -/
def exampleTarget : VerifyExpr :=
  ⟨tokenOf "|-", [.constant (spaced [tokenOf "("]), .var 0,
    .constant (spaced [tokenOf "->", tokenOf "("]), .var 1, .constant (spaced [tokenOf "->"]),
    .var 0, .constant (spaced [tokenOf ")", tokenOf ")"])]⟩

/-- The frame of the axiom `ax-1`. -/
def ax1Frame : Frame :=
  ⟨.axiomatic, ⟨⟨0, 3⟩, noStatement⟩, exampleHyps, exampleTarget, [], [tokenOf "ph", tokenOf "ps"],
    [], []⟩

/-- The frame of the theorem `th1`. -/
def th1Frame : Frame :=
  ⟨.provable, ⟨⟨0, 4⟩, noStatement⟩, exampleHyps, exampleTarget, [],
    [tokenOf "ph", tokenOf "ps"], [], []⟩

/-- The scope reader of the four statements. -/
def exampleScopes (l : Token) : Option Frame :=
  if l = tokenOf "wph" then some wphFrame else if l = tokenOf "wps" then some wpsFrame
  else if l = tokenOf "ax-1" then some ax1Frame else if l = tokenOf "th1" then some th1Frame
  else none

/-- Statements ordered by their index. -/
def exampleOrder (a b : StatementAddress) : Ordering := compare a.index b.index

theorem floatFrame_wellFormed {name : String} (h : name = "ph" ∨ name = "ps") {n : Int} :
    Frame.WellFormed exampleIsVar ⟨.floating, ⟨⟨0, n⟩, noStatement⟩, [],
      ⟨tokenOf "wff", [.var 0]⟩, spaced [tokenOf name], [tokenOf name], [], []⟩ := by
  have hname : SpaceFree [tokenOf name] ∧ exampleIsVar (tokenOf name) = true := by
    rcases h with rfl | rfl <;> decide
  refine ⟨⟨?_, ?_, ?_, ?_⟩, ?_, ?_, hname.1, ⟨_, hname.1, rfl⟩, fun _ _ v => ?_⟩ <;>
    simp [ConstantsSpaced]
  have hu : unspace (tokenOf name ++ [space]) = [tokenOf name] := by
    simpa using unspace_spaced hname.1
  rw [hu, List.mem_singleton]
  exact ⟨fun h => ⟨h, h ▸ hname.2⟩, And.left⟩

theorem exampleAssertion_wellFormed {stype : StatementType} {n : Int}
    (h : stype = .axiomatic ∨ stype = .provable) :
    Frame.WellFormed exampleIsVar ⟨stype, ⟨⟨0, n⟩, noStatement⟩, exampleHyps, exampleTarget, [],
      [tokenOf "ph", tokenOf "ps"], [], []⟩ := by
  refine ⟨⟨?_, ?_, ?_, ?_⟩, ?_, ?_, show SpaceFree [tokenOf "ph", tokenOf "ps"] by decide,
    show Spaced [] by decide, fun h₁ h₂ => ?_⟩ <;> simp [exampleHyps, exampleTarget, ConstantsSpaced]
  · decide
  · rcases h with h | h <;> contradiction

theorem exampleScopes_wellFormed :
    ∀ l f, exampleScopes l = some f → f.WellFormed exampleIsVar := by
  intro l f h
  unfold exampleScopes at h
  split_ifs at h <;> cases h
  exacts [floatFrame_wellFormed (.inl rfl), floatFrame_wellFormed (.inr rfl),
    exampleAssertion_wellFormed (.inl rfl), exampleAssertion_wellFormed (.inr rfl)]

end MetamathKnife.Verify
