import MetamathKnife.Verify.Uncompressed
import MetamathKnife.Verify.Decoder

/-!
# Compressed proofs

A compressed proof is `( L₁ … Lᵣ ) s`: the roster of labels, then the step string `s`, split
into proof tokens anywhere. Step number `n` is written in the standard encoding (`encodeStep`):
the bijective base-5 digits `U`..`Y` of `n / 20`, the letter `A + n % 20`, and `Z` if the step's
result is saved. The reference machine (`refCompressed`) resolves step `n` to the `n`-th of the
mandatory hypotheses and roster labels, then to the saved entries (`resolveStep`).

* `decodeChunk_encodeStep`: the decoder reads an encoded step back and runs it;
* `verifyProof_compressed_iff`: over well-formed frames, with the hypotheses and the roster in
  scope, a proof whose step string encodes a list of steps is accepted exactly when the reference
  machine turns those steps into the statement;
* `verifyProof_compressed_grammar`: an accepted proof's step string, with the bytes the decoder
  passes over removed, is a step string of `(N Z?)*`; the bytes passed over are not checked
  (`verifyProof_skips_lowercase`).
-/

namespace MetamathKnife.Verify

/-! ## The standard encoding -/

/-- The digits `U`..`Y` of `q` in bijective base 5, most significant first. -/
def bij5 (q : Nat) : List UInt8 :=
  if q = 0 then [] else bij5 ((q - 1) / 5) ++ ['U'.toUInt8 + ((q - 1) % 5).toUInt8]
termination_by q
decreasing_by omega

@[simp] theorem bij5_zero : bij5 0 = [] := by
  rw [bij5, if_pos rfl]

/-- The encoding of step `n`, saved when the flag is set. -/
def encodeStep (s : Nat × Bool) : List UInt8 :=
  bij5 (s.1 / 20) ++ ['A'.toUInt8 + (s.1 % 20).toUInt8] ++ if s.2 then ['Z'.toUInt8] else []

/-- The encoding of a list of steps. -/
def encodeSteps (steps : List (Nat × Bool)) : List UInt8 := steps.flatMap encodeStep

theorem digitByte_spec :
    ∀ r < 5, IsDigit ('U'.toUInt8 + r.toUInt8) ∧ ('U'.toUInt8 + r.toUInt8 - 'U'.toUInt8).toNat = r := by
  decide

theorem letterByte_spec :
    ∀ r < 20, IsLetter ('A'.toUInt8 + r.toUInt8) ∧
      ('A'.toUInt8 + r.toUInt8 - 'A'.toUInt8).toNat = r := by
  decide

/-- The decoder reads the digits of `q` back, from `k = 0`, as long as `q` is within its bound. -/
theorem decodeChunk_bij5 (cs : Bool) (st : VerifyState) :
    ∀ q, q ≤ 214748362 → decodeChunk ⟨0, cs, st⟩ (bij5 q) = .ok ⟨q, if q = 0 then cs else false, st⟩
  | q, hq => by
    rw [bij5]
    split
    · subst_vars; rfl
    · have hlt : (q - 1) / 5 < q := by omega
      obtain ⟨hd, hv⟩ := digitByte_spec ((q - 1) % 5) (Nat.mod_lt _ (by omega))
      rw [decodeChunk_append, decodeChunk_bij5 cs st ((q - 1) / 5) (by omega), ok_bind, decodeChunk,
        decodeByte_digit _ hd]
      dsimp only
      rw [hv, if_neg (by unfold u32Max; omega)]
      simp only [pure_bind, decodeChunk]
      congr 3
      omega
termination_by q => q

/-- **The decoder reads an encoded step back**: it runs step `n`, then saves its result if the
step is marked so. -/
theorem decodeChunk_encodeStep {n : Nat} (hn : n ≤ 4294967259) (z cs : Bool) (st : VerifyState)
    (rest : List UInt8) :
    decodeChunk ⟨0, cs, st⟩ (encodeStep (n, z) ++ rest) = executeStep st n >>= fun st₁ =>
      if z then saveStep st₁ >>= fun st₂ => decodeChunk ⟨0, false, st₂⟩ rest
      else decodeChunk ⟨0, true, st₁⟩ rest := by
  obtain ⟨hl, hv⟩ := letterByte_spec (n % 20) (Nat.mod_lt _ (by omega))
  rw [encodeStep, List.append_assoc, List.append_assoc, decodeChunk_append,
    decodeChunk_bij5 cs st (n / 20) (by omega), ok_bind, List.singleton_append, decodeChunk,
    decodeByte_letter _ hl, hv, Nat.div_add_mod' n 20, bind_assoc]
  congr 1
  funext st₁
  cases z
  · simp [decodeChunk]
  · simp only [pure_bind, if_true, List.singleton_append, decodeChunk, decodeByte_save,
      Bool.not_true, Bool.false_eq_true, if_false, bind_assoc]
    congr 1

/-! ## The reference reading of the steps -/

/-- Step `n` of a compressed proof: the `n`-th of the steps `table` of the mandatory hypotheses
and the roster, then the push of the `(n - table.length)`-th saved entry; none past them. -/
def resolveStep (table : List RefStep) (saved : List RefEntry) (n : Nat) : Option RefStep :=
  if n < table.length then table[n]? else (saved[n - table.length]?).map .push

theorem resolveStep_eq (table : List RefStep) (saved : List RefEntry) (n : Nat) :
    resolveStep table saved n = (table ++ saved.map .push)[n]? := by
  unfold resolveStep
  split
  · rw [List.getElem?_append_left ‹_›]
  · rw [List.getElem?_append_right (by omega), List.getElem?_map]

/-- The reference reading of a compressed proof's steps from the stack `s`, with the entries
`saved` so far: each step runs what its number resolves to, and a saved step records the top of
the stack. -/
def refCompressed (isVar : Token → Bool) (cur : Frame) (table : List RefStep) :
    List RefEntry → List (Nat × Bool) → List RefEntry → Option (List RefEntry)
  | _, [], s => some s
  | saved, (n, z) :: steps, s =>
    (resolveStep table saved n).bind fun p => (refExec isVar cur p s).bind fun s' =>
      refCompressed isVar cur table (if z then saved ++ s'.getLast?.toList else saved) steps s'

/-- The reference machine accepts the steps, resolved through `table`, of a compressed proof of
`cur`: run from the empty stack, they leave exactly the statement. -/
def RefCompressedAccepts (isVar : Token → Bool) (cur : Frame) (table : List RefStep)
    (steps : List (Nat × Bool)) : Prop :=
  refCompressed isVar cur table [] steps [] = some [cur.statement]

theorem refExec_ne_nil {isVar : Token → Bool} {cur : Frame} {p : RefStep} {s s' : List RefEntry}
    (h : refExec isVar cur p s = some s') : s' ≠ [] := by
  cases p with
  | push e => cases h; simp
  | apply f =>
    simp only [refExec] at h
    split at h
    · cases h
    · split at h
      · cases h; simp
      · cases h

/-! ## Runs -/

section Run

variable {isVar : Token → Bool} {cur : Frame}

/-- **The decoder runs an encoded list of steps as the reference machine does**, from a
simulated state whose prepared steps are the table's and then pushes of the saved entries. -/
theorem decodeChunk_encodeSteps_agrees {table : List RefStep} :
    ∀ (steps : List (Nat × Bool)) {cs : Bool} {st : VerifyState} {saved rs : List RefEntry},
    Sim isVar cur st (table ++ saved.map .push) rs → (∀ s ∈ steps, s.1 ≤ 4294967259) →
    Agrees (fun d rs' => d.k = 0 ∧ ∃ ps, Sim isVar cur d.state ps rs')
      (decodeChunk ⟨0, cs, st⟩ (encodeSteps steps)) (refCompressed isVar cur table saved steps rs)
  | [], _, _, _, _, h, _ => ⟨rfl, _, h⟩
  | (n, z) :: steps, cs, st, saved, rs, h, hb => by
    have hb' := fun s hs => hb s (List.mem_cons_of_mem _ hs)
    rw [encodeSteps, List.flatMap_cons, ← encodeSteps,
      decodeChunk_encodeStep (hb (n, z) (List.mem_cons_self _ _)), refCompressed, resolveStep_eq]
    cases hp : (table ++ saved.map .push)[n]? with
    | none =>
      rw [executeStep_outOfRange h (List.getElem?_eq_none_iff.mp hp)]
      exact Agrees.of_isDiag ⟨_, rfl⟩
    | some p =>
      refine (executeStep_agrees h hp).bind fun st₁ rs₁ hex h₁ => ?_
      cases z
      · exact decodeChunk_encodeSteps_agrees steps h₁ hb'
      · obtain ⟨st₂, hsave, h₂⟩ := saveStep_sim h₁ (refExec_ne_nil hex)
        rw [if_pos rfl, hsave, ok_bind, List.getLast?_eq_getLast _ (refExec_ne_nil hex)]
        exact decodeChunk_encodeSteps_agrees steps (by simpa using h₂) hb'

/-- Preparing labels that all cite frames in scope adds their steps. -/
theorem prepareAll_sim {env : VerifyEnv} (hcur : env.curFrame = cur)
    (hwf : ∀ l f, env.scoper l = some f → f.WellFormed isVar) :
    ∀ (labels : List Token) {st : VerifyState} {ps : List RefStep} {rs : List RefEntry},
    Sim isVar cur st ps rs →
    (∀ l ∈ labels, ∃ f, env.scoper l = some f ∧ InScope env.order cur f) →
    ∃ st', prepareAll env st labels = .ok st' ∧
      Sim isVar cur st' (ps ++ labels.filterMap fun l => (env.scoper l).map labelStep) rs
  | [], st, _, _, h, _ => ⟨st, rfl, by simpa using h⟩
  | l :: labels, st, ps, rs, h, hl => by
    obtain ⟨f, hf, hin⟩ := hl l (List.mem_cons_self _ _)
    have hag := prepareStep_agrees h hcur hwf l
    simp only [citedStep, hf, if_pos hin] at hag
    obtain ⟨st₁, h₁, hs₁⟩ := hag.of_some
    obtain ⟨st', h', hs'⟩ := prepareAll_sim hcur hwf labels hs₁ fun l' hl' =>
      hl l' (List.mem_cons_of_mem _ hl')
    refine ⟨st', by rw [prepareAll, h₁, ok_bind, h'], ?_⟩
    simpa [hf] using hs'

end Run

/-! ## The compressed branch of `verify_proof` -/

theorem prepareAll_append (env : VerifyEnv) (st : VerifyState) (xs ys : List Token) :
    prepareAll env st (xs ++ ys) = prepareAll env st xs >>= fun st' => prepareAll env st' ys := by
  induction xs generalizing st with
  | nil => rfl
  | cons x xs ih =>
    rw [List.cons_append, prepareAll, prepareAll, bind_assoc]
    simp only [ih]

/-- The roster loop prepares the labels up to the first `)` and returns the tokens after it. -/
theorem readRoster_eq (env : VerifyEnv) {roster : List Token} (hr : closeParen ∉ roster)
    (rest : List Token) (st : VerifyState) :
    readRoster env (roster ++ closeParen :: rest) st =
      prepareAll env st roster >>= fun st' => pure (rest, st') := by
  induction roster generalizing st with
  | nil => simp [readRoster, prepareAll]
  | cons l ls ih =>
    have hl : l ≠ closeParen := fun h => hr (h ▸ List.mem_cons_self _ _)
    rw [List.cons_append, readRoster, if_neg hl, prepareAll, bind_assoc]
    simp only [ih fun h => hr (List.mem_cons_of_mem _ h)]

/-- A compressed proof is checked by preparing the mandatory hypotheses and the roster, decoding
the step string, and the final check. -/
theorem verifyProof_compressed_eq {order : SegmentOrder} {scopes : ScopeReader}
    {stmt : StatementRef} {cur : Frame} {roster chunks : List Token}
    (hp : stmt.stype = .provable) (hcur : scopes stmt.label = some cur)
    (hproof : stmt.proof = openParen :: (roster ++ closeParen :: chunks))
    (hr : closeParen ∉ roster) :
    verifyProof order scopes stmt = registerDv VerifyState.empty cur.optionalDv >>= fun st =>
      (prepareAll ⟨order, scopes, cur⟩ st (cur.hypotheses.map Hyp.label ++ roster) >>= fun st₁ =>
        decodeChunk ⟨0, false, st₁⟩ chunks.flatten >>= fun d =>
          if d.k > 0 then throw (.diag .proofMalformedVarint) else pure d.state) >>=
      finalizeStep ⟨order, scopes, cur⟩ := by
  rw [verifyProof]
  simp only [hp, bne_self_eq_false, Bool.false_eq_true, if_false, hcur, pure_bind,
    StatementRef.proofSliceAt, hproof, List.getElem?_cons_zero, ok_bind, if_true, List.drop_one,
    List.tail_cons, verifyCompressed, readRoster_eq _ hr, prepareAll_append, bind_assoc,
    decodeChunks_eq, throw_bind]

/-- **A compressed proof whose step string encodes a list of steps is accepted exactly when the
reference machine, resolving step numbers through the mandatory hypotheses, the roster and the
saved entries, turns the steps into the statement**: for a `$p` statement with a frame, over
well-formed frames, when the mandatory hypotheses and the roster cite frames in scope. -/
theorem verifyProof_compressed_iff {isVar : Token → Bool} {order : SegmentOrder}
    {scopes : ScopeReader} {stmt : StatementRef} {cur : Frame} {roster chunks : List Token}
    {steps : List (Nat × Bool)}
    (hp : stmt.stype = .provable) (hcur : scopes stmt.label = some cur)
    (hwf : ∀ l f, scopes l = some f → f.WellFormed isVar)
    (hproof : stmt.proof = openParen :: (roster ++ closeParen :: chunks))
    (hroster : closeParen ∉ roster)
    (hscope : ∀ l ∈ cur.hypotheses.map Hyp.label ++ roster,
      ∃ f, scopes l = some f ∧ InScope order cur f)
    (hbound : ∀ s ∈ steps, s.1 ≤ 4294967259) (henc : chunks.flatten = encodeSteps steps) :
    verifyProof order scopes stmt = .ok () ↔
      RefCompressedAccepts isVar cur
        ((cur.hypotheses.map Hyp.label ++ roster).filterMap fun l => (scopes l).map labelStep)
        steps := by
  obtain ⟨st₀, hreg, hsim⟩ := registerDv_sim isVar cur
  have henv : (⟨order, scopes, cur⟩ : VerifyEnv).curFrame = cur := rfl
  obtain ⟨st₁, hprep, hsim₁⟩ := prepareAll_sim henv hwf _ hsim hscope
  set table := (cur.hypotheses.map Hyp.label ++ roster).filterMap fun l => (scopes l).map labelStep
  have hrun : Agrees (fun d rs => d.k = 0 ∧ ∃ ps, Sim isVar cur d.state ps rs)
      (decodeChunk ⟨0, false, st₁⟩ (encodeSteps steps)) (refCompressed isVar cur table [] steps []) :=
    decodeChunk_encodeSteps_agrees steps (by simpa using hsim₁) hbound
  have hdec : Agrees (fun st rs => ∃ ps, Sim isVar cur st ps rs)
      (decodeChunk ⟨0, false, st₁⟩ (encodeSteps steps) >>= fun d =>
        if d.k > 0 then throw (.diag .proofMalformedVarint) else pure d.state)
      ((refCompressed isVar cur table [] steps []).bind some) :=
    hrun.bind fun d _ _ ⟨hk, ps, hs⟩ => by
      rw [if_neg (by omega)]
      exact ⟨ps, hs⟩
  rw [verifyProof_compressed_eq hp hcur hproof hroster, hreg, ok_bind, hprep, ok_bind, henc,
    (hdec.bind_checks fun _ _ ⟨_, hs⟩ => finalizeStep_checks hs (hwf _ _ hcur) henv).eq_ok_iff,
    Option.bind_some]
  simp [RefCompressedAccepts]

theorem th1_labels_inScope : ∀ l ∈ th1Frame.hypotheses.map Hyp.label ++ [tokenOf "ax-1"],
    ∃ f, exampleScopes l = some f ∧ InScope exampleOrder th1Frame f := by
  intro l hl
  simp only [th1Frame, exampleHyps, List.map_cons, List.map_nil, List.cons_append,
    List.nil_append, List.mem_cons, List.mem_singleton] at hl
  rcases hl with rfl | rfl | rfl | h
  · exact ⟨_, rfl, by decide⟩
  · exact ⟨_, rfl, by decide⟩
  · exact ⟨_, rfl, by decide⟩
  · cases h

/-- The compressed proof `( ax-1 ) ABC` of `th1`: steps 0, 1 and 2. -/
theorem th1_compressed_iff :
    let stmt : StatementRef :=
      ⟨.provable, tokenOf "th1", [openParen, tokenOf "ax-1", closeParen, tokenOf "ABC"]⟩
    (stmt.stype = .provable ∧ exampleScopes stmt.label = some th1Frame ∧
      (∀ l f, exampleScopes l = some f → f.WellFormed exampleIsVar) ∧
      stmt.proof = openParen :: ([tokenOf "ax-1"] ++ closeParen :: [tokenOf "ABC"]) ∧
      closeParen ∉ [tokenOf "ax-1"] ∧
      (∀ l ∈ th1Frame.hypotheses.map Hyp.label ++ [tokenOf "ax-1"],
        ∃ f, exampleScopes l = some f ∧ InScope exampleOrder th1Frame f) ∧
      (∀ s ∈ [(0, false), (1, false), (2, false)], s.1 ≤ 4294967259) ∧
      [tokenOf "ABC"].flatten = encodeSteps [(0, false), (1, false), (2, false)]) ∧
    (verifyProof exampleOrder exampleScopes stmt = .ok () ↔
      RefCompressedAccepts exampleIsVar th1Frame
        ((th1Frame.hypotheses.map Hyp.label ++ [tokenOf "ax-1"]).filterMap fun l =>
          (exampleScopes l).map labelStep)
        [(0, false), (1, false), (2, false)]) :=
  have henc : [tokenOf "ABC"].flatten = encodeSteps [(0, false), (1, false), (2, false)] := by
    simp [encodeSteps, encodeStep]; decide
  ⟨⟨rfl, rfl, exampleScopes_wellFormed, rfl, by decide, th1_labels_inScope, by decide, henc⟩,
    verifyProof_compressed_iff rfl rfl exampleScopes_wellFormed rfl (by decide) th1_labels_inScope
      (by decide) henc⟩

/-- **Over a compressed proof that is accepted, the step string, with the bytes other than
`A`..`Z` and `?` removed, is a step string `(N Z?)*`**, for a `$p` statement with a frame. -/
theorem verifyProof_compressed_grammar {order : SegmentOrder} {scopes : ScopeReader}
    {stmt : StatementRef} {cur : Frame} {roster chunks : List Token}
    (hp : stmt.stype = .provable) (hcur : scopes stmt.label = some cur)
    (hproof : stmt.proof = openParen :: (roster ++ closeParen :: chunks))
    (hroster : closeParen ∉ roster) (hok : verifyProof order scopes stmt = .ok ()) :
    StepGrammar (chunks.flatten.filter fun b => decide (IsStepByte b)) := by
  obtain ⟨st₀, hreg, -⟩ := registerDv_sim (fun _ => false) cur
  rw [verifyProof_compressed_eq hp hcur hproof hroster, hreg, ok_bind] at hok
  obtain ⟨_, h₁, -⟩ := bind_eq_ok hok
  obtain ⟨st₁, -, h₂⟩ := bind_eq_ok h₁
  obtain ⟨d, hd, h₃⟩ := bind_eq_ok h₂
  refine decodeChunk_grammar hd (Nat.eq_zero_of_not_pos fun hk => ?_)
  rw [if_pos hk] at h₃
  cases h₃

/-- The accepted proof `( ax-1 ) ABC` of `th1` has the step string `ABC`. -/
theorem th1_compressed_grammar :
    let stmt : StatementRef :=
      ⟨.provable, tokenOf "th1", [openParen, tokenOf "ax-1", closeParen, tokenOf "ABC"]⟩
    (stmt.stype = .provable ∧ exampleScopes stmt.label = some th1Frame ∧
      stmt.proof = openParen :: ([tokenOf "ax-1"] ++ closeParen :: [tokenOf "ABC"]) ∧
      closeParen ∉ [tokenOf "ax-1"] ∧ verifyProof exampleOrder exampleScopes stmt = .ok ()) ∧
    StepGrammar ([tokenOf "ABC"].flatten.filter fun b => decide (IsStepByte b)) :=
  ⟨⟨rfl, rfl, rfl, by decide, rfl⟩,
    @verifyProof_compressed_grammar exampleOrder exampleScopes
      ⟨.provable, tokenOf "th1", [openParen, tokenOf "ax-1", closeParen, tokenOf "ABC"]⟩ th1Frame
      [tokenOf "ax-1"] [tokenOf "ABC"] rfl rfl rfl (by decide) rfl⟩

/-- A step string ending with a lower-case letter is not a step string. -/
theorem not_stepGrammar_ABCa : ¬StepGrammar (tokenOf "ABCa") := by
  intro h
  rcases h.last with h0 | ⟨u, ch, hw, hch⟩
  · cases h0
  · have hlast := congrArg List.getLast? hw
    rw [List.getLast?_concat] at hlast
    have : ch = 'a'.toUInt8 := (Option.some.inj hlast).symm
    subst this
    revert hch
    decide

/-- **The decoder passes over the bytes outside `A`..`Z` and `?`**: the proof `( ax-1 ) ABCa`
of `th1` is accepted, though its step string `ABCa` is not a step string. -/
theorem verifyProof_skips_lowercase :
    verifyProof exampleOrder exampleScopes
        ⟨.provable, tokenOf "th1", [openParen, tokenOf "ax-1", closeParen, tokenOf "ABCa"]⟩ =
      .ok () ∧ ¬StepGrammar [tokenOf "ABCa"].flatten :=
  ⟨rfl, by simpa using not_stepGrammar_ABCa⟩

end MetamathKnife.Verify
