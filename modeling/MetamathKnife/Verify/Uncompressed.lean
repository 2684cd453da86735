import MetamathKnife.Verify.Simulation

/-!
# Uncompressed proofs

An uncompressed proof is a list of labels. The reference machine reads it label by label
(`refUncompressed`): `?` rejects, a label that cites no frame in scope rejects, and every other
label runs the step it cites. `verifyUncompressed_agrees` runs the simulation of
`MetamathKnife.Verify.Simulation` along the whole proof, by induction on the labels.

The main result, `verifyProof_uncompressed_iff`: for a `$p` statement with a frame, whose
proof does not start with `(`, over well-formed frames, `verify_proof` returns `None` exactly
when the proof has no `?`, every label cites a frame in scope, and the reference machine turns
the cited steps into the statement. A statement without a frame is not checked at all
(`verifyProof_unframed`).
-/

namespace MetamathKnife.Verify

/-- The reference reading of an uncompressed proof: the step of each label in turn, from the
stack `s`; `?` and a label that cites no frame in scope reject. -/
def refUncompressed (scopes : ScopeReader) (order : SegmentOrder) (isVar : Token → Bool)
    (cur : Frame) : List Token → List RefEntry → Option (List RefEntry)
  | [], s => some s
  | l :: ls, s =>
    if l = questionMark then none
    else (citedStep scopes order cur l).bind fun p =>
      (refExec isVar cur p s).bind (refUncompressed scopes order isVar cur ls)

section Run

variable {isVar : Token → Bool} {cur : Frame} {scopes : ScopeReader} {order : SegmentOrder}

/-- The reference reading accepts exactly the proofs without `?` whose labels all cite frames in
scope, and then runs their steps. -/
theorem refUncompressed_eq_some {s s' : List RefEntry} :
    ∀ {proof : List Token}, refUncompressed scopes order isVar cur proof s = some s' ↔
      questionMark ∉ proof ∧ (∀ l ∈ proof, ∃ f, scopes l = some f ∧ InScope order cur f) ∧
        refRun isVar cur (proof.filterMap fun l => (scopes l).map labelStep) s = some s'
  | [] => by simp [refUncompressed, refRun]
  | l :: ls => by
    by_cases hq : l = questionMark
    · simp [refUncompressed, hq]
    rw [refUncompressed, if_neg hq]
    cases hs : scopes l with
    | none => simp [citedStep, hs]
    | some f =>
      by_cases hin : InScope order cur f
      · simp only [citedStep, hs, if_pos hin, Option.some_bind, List.filterMap_cons,
          Option.map_some', refRun, Option.bind_eq_some, refUncompressed_eq_some]
        simp [hq, hin, hs]
        tauto
      · simp [citedStep, hs, hin]

/-- **An uncompressed proof runs as its reference reading**, from any simulated state, with
the prepared steps counted from `count`. -/
theorem verifyUncompressed_agrees {env : VerifyEnv} (hcur : env.curFrame = cur)
    (hwf : ∀ l f, env.scoper l = some f → f.WellFormed isVar) :
    ∀ (proof : List Token) {st : VerifyState} {ps : List RefStep} {rs : List RefEntry} {count : Nat},
    Sim isVar cur st ps rs → count = ps.length →
    Agrees (fun st' rs' => ∃ ps', Sim isVar cur st' ps' rs') (verifyUncompressed env proof count st)
      (refUncompressed env.scoper env.order isVar cur proof rs)
  | [], _, ps, _, _, h, _ => ⟨ps, h⟩
  | l :: ls, st, ps, rs, count, h, hc => by
    rw [verifyUncompressed, refUncompressed]
    by_cases hq : l = questionMark
    · rw [if_pos hq, if_pos hq]
      exact Agrees.of_isDiag ⟨_, rfl⟩
    rw [if_neg hq, if_neg hq]
    refine (prepareStep_agrees h hcur hwf l).bind fun st1 p _ h1 => ?_
    exact (executeStep_agrees h1 (show (ps ++ [p])[count]? = some p by simp [hc])).bind
      fun st2 rs2 _ h2 => verifyUncompressed_agrees hcur hwf ls h2 (by simp [hc])

end Run

/-- A `$p` statement whose label has no frame is not checked: its proof is accepted, `?`
included. -/
theorem verifyProof_unframed :
    verifyProof (fun _ _ => .gt) (fun _ => none) ⟨.provable, [], [questionMark]⟩ = .ok () ∧
      questionMark ∈ [questionMark] :=
  ⟨rfl, List.mem_singleton_self _⟩

/-- **An uncompressed proof of a `$p` statement with a frame is accepted exactly when it has
no `?`, every label cites a frame in scope, and the reference machine turns the cited steps
into the statement.** -/
theorem verifyProof_uncompressed_iff {isVar : Token → Bool} {order : SegmentOrder}
    {scopes : ScopeReader} {stmt : StatementRef} {cur : Frame}
    (hp : stmt.stype = .provable) (hcur : scopes stmt.label = some cur)
    (hwf : ∀ l f, scopes l = some f → f.WellFormed isVar)
    (hun : stmt.proof.head? ≠ some openParen) :
    verifyProof order scopes stmt = .ok () ↔
      questionMark ∉ stmt.proof ∧ (∀ l ∈ stmt.proof, ∃ f, scopes l = some f ∧ InScope order cur f) ∧
        RefAccepts isVar cur (stmt.proof.filterMap fun l => (scopes l).map labelStep) := by
  obtain ⟨st0, hreg, hsim⟩ := registerDv_sim isVar cur
  rw [RefAccepts, ← refUncompressed_eq_some]
  cases hpr : stmt.proof with
  | nil =>
    simp [verifyProof, hp, hcur, hreg, StatementRef.proofSliceAt, hpr, refUncompressed]
  | cons t ts =>
    have ht : t ≠ openParen := fun h => hun (by rw [hpr, h]; rfl)
    have henv : (⟨order, scopes, cur⟩ : VerifyEnv).curFrame = cur := rfl
    have hchk := (verifyUncompressed_agrees henv hwf (t :: ts) hsim rfl).bind_checks
      fun _ _ ⟨_, hs⟩ => finalizeStep_checks hs (hwf _ _ hcur) henv
    rw [verifyProof]
    simp only [hp, bne_self_eq_false, Bool.false_eq_true, if_false, hcur, hreg, ok_bind,
      StatementRef.proofSliceAt, hpr, List.getElem?_cons_zero, if_neg ht, pure_bind]
    exact hchk.eq_ok_iff.trans (by simp)

/-- The proof `wph wps ax-1` of `th1`. -/
theorem th1_uncompressed_iff :
    let stmt : StatementRef :=
      ⟨.provable, tokenOf "th1", [tokenOf "wph", tokenOf "wps", tokenOf "ax-1"]⟩
    (stmt.stype = .provable ∧ exampleScopes stmt.label = some th1Frame ∧
      (∀ l f, exampleScopes l = some f → f.WellFormed exampleIsVar) ∧
      stmt.proof.head? ≠ some openParen) ∧
    (verifyProof exampleOrder exampleScopes stmt = .ok () ↔
      questionMark ∉ stmt.proof ∧
        (∀ l ∈ stmt.proof, ∃ f, exampleScopes l = some f ∧ InScope exampleOrder th1Frame f) ∧
        RefAccepts exampleIsVar th1Frame
          (stmt.proof.filterMap fun l => (exampleScopes l).map labelStep)) :=
  ⟨⟨rfl, rfl, exampleScopes_wellFormed, by decide⟩,
    verifyProof_uncompressed_iff rfl rfl exampleScopes_wellFormed (by decide)⟩

example : verifyProof exampleOrder exampleScopes
    ⟨.provable, tokenOf "th1", [tokenOf "wph", tokenOf "wps", tokenOf "ax-1"]⟩ = .ok () := rfl

example : verifyProof exampleOrder exampleScopes
    ⟨.provable, tokenOf "th1", [tokenOf "wps", tokenOf "wph", tokenOf "ax-1"]⟩ =
      .error (.diag .proofWrongExprEnd) := rfl

end MetamathKnife.Verify
