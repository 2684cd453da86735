import MetamathKnife.Verify.Compressed

/-!
# `verify_proof` does not panic

The verifier indexes its vectors without checks (`stack[i]`, `dv_map[ix]`, `subst_exprs[ix]`,
ranges of `stack_buffer` and `prep_buffer`), and `save_step` expects a stack entry. Over frames
that are well formed none of these reads fails: the simulation `Sim` holds exactly the index
facts they need, and this module carries it through what the simulation theorems leave out,
every label a roster cites and a step string of any content, `Z` in any place included.

* `verifyProof_ok_or_diag`: on a proof of at least one token, `verify_proof` returns `None` or
  a diagnostic;
* `verifyProof_empty_panics`: the one read nothing protects is the first. `verify_proof` reads
  `proof_slice_at(0)` to tell the two formats apart before it looks at `proof_len()`, so on an
  empty proof it reads past the proof's end.
-/

namespace MetamathKnife.Verify

/-- An outcome that is not a panic: a value satisfying `P`, or a diagnostic. -/
def Safe {α : Type} (P : α → Prop) : Except Fault α → Prop
  | .ok a => P a
  | .error (.diag _) => True
  | .error .panic => False

namespace Safe

variable {α β : Type} {P P' : α → Prop} {Q : β → Prop} {x : Except Fault α}

theorem eq_ok_or_isDiag (h : Safe P x) : (∃ a, x = .ok a ∧ P a) ∨ IsDiag x := by
  match x, h with
  | .ok a, h => exact .inl ⟨a, rfl, h⟩
  | .error (.diag d), _ => exact .inr ⟨d, rfl⟩

theorem mono (h : Safe P x) (hP : ∀ a, P a → P' a) : Safe P' x := by
  match x, h with
  | .ok a, h => exact hP a h
  | .error (.diag _), _ => trivial

theorem bind {f : α → Except Fault β} (h : Safe P x) (hf : ∀ a, P a → Safe Q (f a)) :
    Safe Q (x >>= f) := by
  match x, h with
  | .ok a, h => exact hf a h
  | .error (.diag _), _ => trivial

theorem of_agrees {R : α → β → Prop} {o : Option β} (h : Agrees R x o) :
    Safe (fun a => ∃ b, o = some b ∧ R a b) x := by
  match x, o, h with
  | .ok _, some b, h => exact ⟨b, rfl, h⟩
  | .error (.diag _), none, _ => trivial

theorem of_checks {R : Prop} {r : Except Fault Unit} (h : Checks R r) : Safe (fun _ => True) r := by
  by_cases hr : R
  · rw [h.1 hr]; trivial
  · obtain ⟨d, hd⟩ := h.2 hr
    rw [hd]; trivial

end Safe

/-! ## Steps -/

section Steps

variable {isVar : Token → Bool} {cur : Frame} {st : VerifyState} {ps : List RefStep}
  {rs : List RefEntry}

/-- A step number the prepared list does not reach is a diagnostic, any other one runs its
step, which leaves a stack entry. -/
theorem executeStep_safe (h : Sim isVar cur st ps rs) (i : Nat) :
    Safe (fun st' => ∃ rs', Sim isVar cur st' ps rs' ∧ rs' ≠ []) (executeStep st i) := by
  cases hi : ps[i]? with
  | none =>
    rw [executeStep_outOfRange h (List.getElem?_eq_none_iff.mp hi)]
    trivial
  | some p =>
    exact (Safe.of_agrees (executeStep_agrees h hi)).mono fun _ ⟨rs', ho, hs⟩ =>
      ⟨rs', hs, refExec_ne_nil ho⟩

/-- What holds between two bytes of a step string: the verifier's state simulates a reference
run, whose stack is not empty while `can_save` is set. -/
def DecoderSafe (isVar : Token → Bool) (cur : Frame) (d : Decoder) : Prop :=
  ∃ ps rs, Sim isVar cur d.state ps rs ∧ (d.canSave = true → rs ≠ [])

/-- `can_save` is set only by a letter, after its step has run, so `save_step` always finds an
entry to save. -/
theorem decodeByte_safe {d : Decoder} (h : DecoderSafe isVar cur d) (ch : UInt8) :
    Safe (DecoderSafe isVar cur) (decodeByte d ch) := by
  obtain ⟨ps, rs, hs, hsave⟩ := h
  unfold decodeByte
  split
  · exact (executeStep_safe hs _).bind fun _ ⟨rs', hs', hne⟩ => ⟨ps, rs', hs', fun _ => hne⟩
  split
  · dsimp only
    split
    · trivial
    · exact ⟨ps, rs, hs, nofun⟩
  split
  · split
    · trivial
    · obtain ⟨st', hst, hs'⟩ := saveStep_sim hs (hsave (by simpa using ‹¬(!d.canSave) = true›))
      rw [hst]
      exact ⟨_, rs, hs', nofun⟩
  split
  · split <;> trivial
  · exact ⟨ps, rs, hs, hsave⟩

theorem decodeChunk_safe : ∀ (w : List UInt8) {d : Decoder}, DecoderSafe isVar cur d →
    Safe (DecoderSafe isVar cur) (decodeChunk d w)
  | [], _, h => h
  | ch :: w, _, h => (decodeByte_safe h ch).bind fun _ h' => decodeChunk_safe w h'

end Steps

/-! ## The two formats -/

section Run

variable {isVar : Token → Bool} {cur : Frame} {env : VerifyEnv} {rs : List RefEntry}

theorem prepareStep_safe (hcur : env.curFrame = cur)
    (hwf : ∀ l f, env.scoper l = some f → f.WellFormed isVar) {st : VerifyState}
    {ps : List RefStep} (h : Sim isVar cur st ps rs) (label : Token) :
    Safe (fun st' => ∃ ps', Sim isVar cur st' ps' rs) (prepareStep env st label) :=
  (Safe.of_agrees (prepareStep_agrees h hcur hwf label)).mono fun _ ⟨_, _, hs⟩ => ⟨_, hs⟩

theorem prepareAll_safe (hcur : env.curFrame = cur)
    (hwf : ∀ l f, env.scoper l = some f → f.WellFormed isVar) :
    ∀ (labels : List Token) {st : VerifyState} {ps : List RefStep}, Sim isVar cur st ps rs →
    Safe (fun st' => ∃ ps', Sim isVar cur st' ps' rs) (prepareAll env st labels)
  | [], _, _, h => ⟨_, h⟩
  | l :: labels, _, _, h =>
    (prepareStep_safe hcur hwf h l).bind fun _ ⟨_, h'⟩ => prepareAll_safe hcur hwf labels h'

theorem readRoster_safe (hcur : env.curFrame = cur)
    (hwf : ∀ l f, env.scoper l = some f → f.WellFormed isVar) :
    ∀ (proof : List Token) {st : VerifyState} {ps : List RefStep}, Sim isVar cur st ps rs →
    Safe (fun r => ∃ ps', Sim isVar cur r.2 ps' rs) (readRoster env proof st)
  | [], _, _, _ => trivial
  | chunk :: rest, _, _, h => by
    rw [readRoster]
    split
    · exact ⟨_, h⟩
    · exact (prepareStep_safe hcur hwf h chunk).bind fun _ ⟨_, h'⟩ =>
        readRoster_safe hcur hwf rest h'

/-- The compressed branch, over a roster and a step string of any content. -/
theorem verifyCompressed_safe (hcur : env.curFrame = cur)
    (hwf : ∀ l f, env.scoper l = some f → f.WellFormed isVar) {st : VerifyState}
    {ps : List RefStep} (h : Sim isVar cur st ps rs) (proof : List Token) :
    Safe (fun st' => ∃ ps' rs', Sim isVar cur st' ps' rs') (verifyCompressed env st proof) := by
  unfold verifyCompressed
  refine (prepareAll_safe hcur hwf _ h).bind fun _ ⟨_, h₁⟩ => ?_
  refine (readRoster_safe hcur hwf proof h₁).bind fun ⟨chunks, _⟩ ⟨ps₂, h₂⟩ => ?_
  have hd := decodeChunk_safe chunks.flatten (show DecoderSafe isVar cur ⟨0, false, _⟩ from
    ⟨ps₂, rs, h₂, nofun⟩)
  rw [← decodeChunks_eq] at hd
  refine hd.bind fun _ ⟨ps', rs', h', _⟩ => ?_
  split
  · trivial
  · exact ⟨ps', rs', h'⟩

end Run

/-! ## `verify_proof` -/

/-- `verify_proof` does not panic on a statement that is not a `$p` or whose proof has a
token, over frames that are well formed. -/
theorem verifyProof_safe {isVar : Token → Bool} {order : SegmentOrder} {scopes : ScopeReader}
    {stmt : StatementRef} (hwf : ∀ l f, scopes l = some f → f.WellFormed isVar)
    (hne : stmt.stype = .provable → stmt.proof ≠ []) :
    Safe (fun _ => True) (verifyProof order scopes stmt) := by
  by_cases hp : stmt.stype = .provable
  swap
  · simp [verifyProof, hp, Safe]
  cases hcur : scopes stmt.label with
  | none => simp [verifyProof, hp, hcur, Safe]
  | some cur =>
    obtain ⟨t, ts, hts⟩ := List.exists_cons_of_ne_nil (hne hp)
    obtain ⟨st, hreg, hsim⟩ := registerDv_sim isVar cur
    have henv : (⟨order, scopes, cur⟩ : VerifyEnv).curFrame = cur := rfl
    have hfin : ∀ {st ps rs}, Sim isVar cur st ps rs →
        Safe (fun _ => True) (finalizeStep ⟨order, scopes, cur⟩ st) := fun hs =>
      Safe.of_checks (finalizeStep_checks hs (hwf _ _ hcur) henv)
    rw [verifyProof]
    simp only [hp, bne_self_eq_false, Bool.false_eq_true, if_false, hcur, hreg, ok_bind,
      pure_bind, StatementRef.proofSliceAt, hts, List.getElem?_cons_zero]
    split
    · exact (verifyCompressed_safe henv hwf hsim _).bind fun _ ⟨_, _, hs⟩ => hfin hs
    · exact (Safe.of_agrees (verifyUncompressed_agrees henv hwf _ hsim rfl)).bind
        fun _ ⟨_, _, _, hs⟩ => hfin hs

/-- **`verify_proof` does not panic on a proof of at least one token**: over frames that are
well formed, whatever the tokens (compressed or not, a roster citing any labels, a step string
with `Z`, `?` or other bytes anywhere), it returns `None` or a diagnostic. -/
theorem verifyProof_ok_or_diag {isVar : Token → Bool} {order : SegmentOrder}
    {scopes : ScopeReader} {stmt : StatementRef}
    (hwf : ∀ l f, scopes l = some f → f.WellFormed isVar) (hne : stmt.proof ≠ []) :
    verifyProof order scopes stmt = .ok () ∨ IsDiag (verifyProof order scopes stmt) := by
  have h : Safe (fun _ => True) (verifyProof order scopes stmt) := verifyProof_safe hwf fun _ => hne
  rcases h.eq_ok_or_isDiag with ⟨⟨⟩, hok, -⟩ | hd
  exacts [.inl hok, .inr hd]

/-- An uncompressed proof of `th1` that cites `ax-1` before its hypotheses. -/
theorem th1_misordered_ok_or_diag :
    (∀ l f, exampleScopes l = some f → f.WellFormed exampleIsVar) ∧
      [tokenOf "ax-1", tokenOf "wph"] ≠ [] ∧
      (verifyProof exampleOrder exampleScopes
          ⟨.provable, tokenOf "th1", [tokenOf "ax-1", tokenOf "wph"]⟩ = .ok () ∨
        IsDiag (verifyProof exampleOrder exampleScopes
          ⟨.provable, tokenOf "th1", [tokenOf "ax-1", tokenOf "wph"]⟩)) :=
  ⟨exampleScopes_wellFormed, List.cons_ne_nil _ _,
    verifyProof_ok_or_diag exampleScopes_wellFormed (List.cons_ne_nil _ _)⟩

/-- **An empty proof of a `$p` statement with a frame is read past its end**: `verify_proof`
reads `proof_slice_at(0)` before any comparison with `proof_len()`. -/
theorem verifyProof_empty_panics {order : SegmentOrder} {scopes : ScopeReader}
    {stmt : StatementRef} {cur : Frame} (hp : stmt.stype = .provable)
    (hcur : scopes stmt.label = some cur) (hempty : stmt.proof = []) :
    verifyProof order scopes stmt = .error .panic := by
  obtain ⟨st, hreg, -⟩ := registerDv_sim (fun _ => false) cur
  simp [verifyProof, hp, hcur, hreg, StatementRef.proofSliceAt, hempty]

/-- `th1` with the proof `$= $.`. -/
theorem th1_empty_panics :
    (StatementType.provable = .provable ∧ exampleScopes (tokenOf "th1") = some th1Frame ∧
      ([] : List Token) = []) ∧
      verifyProof exampleOrder exampleScopes ⟨.provable, tokenOf "th1", []⟩ = .error .panic :=
  ⟨⟨rfl, rfl, rfl⟩, verifyProof_empty_panics rfl rfl rfl⟩

end MetamathKnife.Verify
