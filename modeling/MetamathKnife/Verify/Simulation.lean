import MetamathKnife.Verify.Substitution

/-!
# The verifier simulates the reference machine

`Sim isVar cur st ps rs` says that the verifier's state `st` is the reference machine's state:
its stack holds the entries `rs` (`StackHolds`), its prepared steps are the reference steps `ps`
(`PrepRep`), and its variable table and `$d` table are those of the statement `cur` being proved.
Each function of `verify.rs` that the proof loops call keeps `Sim`, and its outcome `Agrees` with
the reference machine's: both succeed, or the verifier returns a diagnostic where the machine
rejects. The verifier never panics on the way.

* `registerDv_sim`: the registration of the optional `$d` pairs starts the simulation;
* `prepareStep_agrees`: a label adds the step it cites, `citedStep`;
* `executeStep_agrees`: running a prepared step is `refExec`;
* `saveStep_sim`: saving the top of the stack adds a push of its entry;
* `finalizeStep_checks`: the final check accepts exactly the stack `[cur.statement]`.
-/

namespace MetamathKnife.Verify

/-! ## Outcomes -/

/-- The verifier's outcome agrees with the reference machine's: both succeed, with results
related by `R`, or the verifier returns a diagnostic where the machine rejects. -/
def Agrees {α β : Type} (R : α → β → Prop) : Except Fault α → Option β → Prop
  | .ok a, some b => R a b
  | .error (.diag _), none => True
  | _, _ => False

namespace Agrees

variable {α β γ δ : Type} {R : α → β → Prop} {x : Except Fault α} {o : Option β}

theorem of_isDiag (h : IsDiag x) : Agrees R x none := by
  obtain ⟨d, rfl⟩ := h
  trivial

theorem of_some {b : β} (h : Agrees R x (some b)) : ∃ a, x = .ok a ∧ R a b := by
  match x, h with
  | .ok a, h => exact ⟨a, rfl, h⟩

theorem of_ok {a : α} (h : Agrees R (.ok a) o) : ∃ b, o = some b ∧ R a b := by
  match o, h with
  | some b, h => exact ⟨b, rfl, h⟩

theorem bind {S : γ → δ → Prop} {f : α → Except Fault γ} {g : β → Option δ} (h : Agrees R x o)
    (hf : ∀ a b, o = some b → R a b → Agrees S (f a) (g b)) : Agrees S (x >>= f) (o.bind g) := by
  match x, o, h with
  | .ok a, some b, h => exact hf a b rfl h
  | .error (.diag d), none, _ => trivial

/-- Ending with a check. -/
theorem bind_checks {P : β → Prop} {f : α → Except Fault Unit} (h : Agrees R x o)
    (hf : ∀ a b, R a b → Checks (P b) (f a)) : Checks (∃ b, o = some b ∧ P b) (x >>= f) := by
  match x, o, h with
  | .ok a, some b, h => exact (hf a b h).of_iff ⟨fun hp => ⟨b, rfl, hp⟩, fun ⟨_, hb, hp⟩ => by
      cases hb; exact hp⟩
  | .error (.diag d), none, _ => exact ⟨fun ⟨_, hb, _⟩ => (nomatch hb), fun _ => ⟨d, rfl⟩⟩

end Agrees

theorem Checks.eq_ok_iff {P : Prop} {r : Except Fault Unit} (h : Checks P r) : r = .ok () ↔ P := by
  refine ⟨fun hr => ?_, h.1⟩
  by_contra hp
  obtain ⟨d, hd⟩ := h.2 hp
  rw [hr] at hd
  cases hd

/-! ## The simulation relation -/

/-- A prepared step is a reference step: a hypothesis step holds its entry's typecode, variable
set and bytes in `prep_buffer`; an assertion step applies its frame, which is well formed. -/
inductive PrepRep (isVar : Token → Bool) (var2bit : List (Token × Nat)) (prepBuffer : List UInt8) :
    PreparedStep → RefStep → Prop
  | hyp {vars : Bitset} {code : Token} {expr : Range} {ts : List Token} :
      EntryVars isVar var2bit vars ts → slice prepBuffer expr = .ok (spaced ts) →
      PrepRep isVar var2bit prepBuffer (.hyp vars code expr) (.push (code, ts))
  | assert {f : Frame} : f.WellFormed isVar → PrepRep isVar var2bit prepBuffer (.assert f) (.apply f)

theorem PrepRep.mono {isVar : Token → Bool} {l l' : List (Token × Nat)} {buf : List UInt8}
    {p : PreparedStep} {r : RefStep} (h : PrepRep isVar l buf p r)
    (hl : ∀ v b, l.lookup v = some b → l'.lookup v = some b) (more : List UInt8) :
    PrepRep isVar l' (buf ++ more) p r := by
  cases h with
  | hyp hv hs => exact .hyp (hv.mono hl) (by rw [slice_append_left (stop_le_of_slice_eq_ok hs), hs])
  | assert hwf => exact .assert hwf

/-- The verifier's state `st` is the reference machine with steps `ps` and stack `rs`, for the
proof of `cur`. -/
structure Sim (isVar : Token → Bool) (cur : Frame) (st : VerifyState) (ps : List RefStep)
    (rs : List RefEntry) : Prop where
  table : VarTable st
  dv : DvTable cur.optionalDv st
  stack : StackHolds isVar st.var2bit st.stack rs st.stackBuffer
  prepared : List.Forall₂ (PrepRep isVar st.var2bit st.prepBuffer) st.prepared ps

theorem forall₂_getElem? {α β : Type} {R : α → β → Prop} {l₁ : List α} {l₂ : List β}
    (h : List.Forall₂ R l₁ l₂) : ∀ {i : Nat} {b : β}, l₂[i]? = some b → ∃ a, l₁[i]? = some a ∧ R a b := by
  induction h with
  | nil => intro i b hb; simp at hb
  | cons hr _ ih =>
    intro i b hb
    cases i with
    | zero =>
      simp only [List.getElem?_cons_zero, Option.some.injEq] at hb
      exact ⟨_, List.getElem?_cons_zero, hb ▸ hr⟩
    | succ i => simpa using ih (by simpa using hb)

/-- **The registration of the optional `$d` pairs starts the simulation**, with nothing prepared
and an empty stack. -/
theorem registerDv_sim (isVar : Token → Bool) (cur : Frame) :
    ∃ st, registerDv VerifyState.empty cur.optionalDv = .ok st ∧ Sim isVar cur st [] [] := by
  obtain ⟨st, hst, ht, hd, hp, -, hs, hb⟩ := @registerDv_spec VerifyState.empty []
    ⟨fun _ _ h => (nomatch h), rfl⟩ ⟨fun _ h => (nomatch h), fun _ _ h => (nomatch h)⟩
    cur.optionalDv
  refine ⟨st, hst, ht, by simpa using hd, ?_, ?_⟩
  · rw [hs, hb]; exact .nil
  · rw [hp]; exact .nil

section Steps

variable {isVar : Token → Bool} {cur : Frame} {st : VerifyState} {ps : List RefStep}
  {rs : List RefEntry}

/-! ## Preparing a step -/

theorem ordering_bne_gt (o : Ordering) : (o != .gt) = true ↔ o ≠ .gt := by
  cases o <;> decide

/-- The scope checks pass exactly for a frame in scope. -/
theorem checkScope_checks (env : VerifyEnv) (label : Token) (f : Frame) :
    Checks (InScope env.order env.curFrame f) (checkScope env label f.valid) := by
  unfold checkScope InScope
  by_cases hgt : env.order env.curFrame.valid.start f.valid.start = .gt
  · by_cases hn : f.valid.stop = noStatement
    · simp [Checks, ordering_bne_gt, hgt, hn]
    · by_cases hin : env.curFrame.valid.start.segmentId = f.valid.start.segmentId ∧
          env.curFrame.valid.start.index < f.valid.stop
      · simp [Checks, ordering_bne_gt, hgt, hn, hin.1, Int.not_le.mpr hin.2, hin]
      · have hc : (env.curFrame.valid.start.segmentId != f.valid.start.segmentId ||
            decide (env.curFrame.valid.start.index ≥ f.valid.stop)) = true := by
          simp only [Bool.or_eq_true, bne_iff_ne, ne_eq, decide_eq_true_eq, ge_iff_le]
          omega
        simp only [ordering_bne_gt, hgt, bne_iff_ne, hn, hc, ne_eq, not_true_eq_false,
          not_false_eq_true, if_true, if_false, throw_bind, hin, imp_false, true_and]
        exact ⟨fun h => h.elim, fun _ => ⟨_, rfl⟩⟩
  · simp only [ordering_bne_gt, hgt, ne_eq, not_false_eq_true, if_true, throw_bind, false_and]
    exact ⟨fun h => h.elim, fun _ => ⟨_, rfl⟩⟩

/-- The variable set `prepare_step` computes for a hypothesis is the set of the variables of
its expression. -/
theorem entryVars_mapVars {f : Frame} (hwf : f.WellFormed isVar)
    (hax : ¬(f.stype = .axiomatic ∨ f.stype = .provable)) :
    EntryVars isVar (mapVars st Bitset.new f.mandatoryVars).1.var2bit
      (mapVars st Bitset.new f.mandatoryVars).2 (unspace f.stubExpr) := by
  have hv : ∀ v, v ∈ f.mandatoryVars ↔ v ∈ unspace f.stubExpr ∧ isVar v = true :=
    hwf.stub_vars (fun h => hax (.inl h)) (fun h => hax (.inr h))
  refine ⟨hwf.stub_spaced.eq.2, fun v hmem hvar => lookup_mapVars_of_mem ((hv v).mpr ⟨hmem, hvar⟩),
    fun b => ?_⟩
  rw [hasBit_mapVars, Bitset.hasBit_new]
  simp only [Bool.false_eq_true, false_or, hv, and_assoc]

/-- Preparing a hypothesis adds the push of its expression. -/
theorem Sim.prepareHyp (h : Sim isVar cur st ps rs) {f : Frame} (hwf : f.WellFormed isVar)
    (hax : ¬(f.stype = .axiomatic ∨ f.stype = .provable)) :
    Sim isVar cur
      { (mapVars st Bitset.new f.mandatoryVars).1 with
        prepBuffer := (mapVars st Bitset.new f.mandatoryVars).1.prepBuffer ++ f.stubExpr
        prepared := (mapVars st Bitset.new f.mandatoryVars).1.prepared ++
          [.hyp (mapVars st Bitset.new f.mandatoryVars).2 f.target.typecode
            ⟨(mapVars st Bitset.new f.mandatoryVars).1.prepBuffer.length,
              ((mapVars st Bitset.new f.mandatoryVars).1.prepBuffer ++ f.stubExpr).length⟩] }
      (ps ++ [.push (f.target.typecode, unspace f.stubExpr)]) rs := by
  have ht : VarTable (mapVars st Bitset.new f.mandatoryVars).1 := h.table.mapVars
  have hd : DvTable cur.optionalDv (mapVars st Bitset.new f.mandatoryVars).1 := h.dv.mapVars h.table
  have hl : ∀ v b, st.var2bit.lookup v = some b →
      (mapVars st Bitset.new f.mandatoryVars).1.var2bit.lookup v = some b :=
    fun _ _ hb => lookup_mapVars_of_lookup hb
  refine ⟨⟨ht.index, ht.dvMap_length⟩, ⟨hd.interned, hd.row⟩, ?_, ?_⟩ <;> dsimp only
  · rw [mapVars_stack, mapVars_stackBuffer]
    exact h.stack.mono fun _ _ hse => hse.mono hl
  · rw [mapVars_prepared, mapVars_prepBuffer]
    refine List.rel_append (h.prepared.imp fun _ _ hpq => hpq.mono hl _)
      (.cons (.hyp (entryVars_mapVars hwf hax) ?_) .nil)
    rw [List.length_append, slice_append_right, ← hwf.stub_spaced.eq.1]

/-- **Preparing a label adds the step it cites**, or returns a diagnostic if it cites none. -/
theorem prepareStep_agrees (h : Sim isVar cur st ps rs) {env : VerifyEnv}
    (hcur : env.curFrame = cur) (hwf : ∀ l f, env.scoper l = some f → f.WellFormed isVar)
    (label : Token) :
    Agrees (fun st' p => Sim isVar cur st' (ps ++ [p]) rs) (prepareStep env st label)
      (citedStep env.scoper env.order cur label) := by
  subst hcur
  cases hs : env.scoper label with
  | none =>
    simp only [prepareStep, hs, citedStep]
    exact Agrees.of_isDiag ⟨_, rfl⟩
  | some f =>
    have hc := checkScope_checks env label f
    simp only [citedStep, hs, prepareStep]
    by_cases hin : InScope env.order env.curFrame f
    · rw [if_pos hin, hc.1 hin, ok_bind]
      by_cases hax : f.stype = .axiomatic ∨ f.stype = .provable
      · rw [if_pos hax, labelStep, if_pos hax]
        exact ⟨⟨h.table.index, h.table.dvMap_length⟩, ⟨h.dv.interned, h.dv.row⟩, h.stack,
          List.rel_append h.prepared (.cons (.assert (hwf label f hs)) .nil)⟩
      · rw [if_neg hax, labelStep, if_neg hax]
        exact h.prepareHyp (hwf label f hs) hax
    · rw [if_neg hin]
      exact Agrees.of_isDiag ((hc.2 hin).bind _)

/-! ## Executing a step -/

/-- Pushing the conclusion of an assertion, after its `$d` check. -/
theorem Sim.conclude (h : Sim isVar cur st ps rs) {k y : Nat}
    (hk : StackHolds isVar st.var2bit (st.stack.take k) (rs.take k) (st.stackBuffer.take y))
    {vars : Bitset} {ts : List Token} (hev : EntryVars isVar st.var2bit vars ts) (code : Token)
    {P : Prop} [Decidable P] {r : Except Fault Unit} (hr : Checks P r) :
    Agrees (fun st' rs' => Sim isVar cur st' ps rs')
      (r >>= fun _ => pure
        { st with
          stack := st.stack.take k ++ [⟨vars, code, ⟨(st.stackBuffer.take y).length,
            (st.stackBuffer.take y ++ spaced ts).length⟩⟩]
          stackBuffer := st.stackBuffer.take y ++ spaced ts })
      (if P then some (rs.take k ++ [(code, ts)]) else none) := by
  by_cases hp : P
  · rw [hr.1 hp, ok_bind, if_pos hp]
    exact ⟨⟨h.table.index, h.table.dvMap_length⟩, ⟨h.dv.interned, h.dv.row⟩,
      .push hk ⟨rfl, hev⟩ (by simp), h.prepared⟩
  · rw [if_neg hp]
    exact Agrees.of_isDiag ((hr.2 hp).bind _)

/-- **Applying an assertion is `refExec`.** -/
theorem executeAssert_agrees (h : Sim isVar cur st ps rs) {f : Frame} (hwf : f.WellFormed isVar) :
    Agrees (fun st' rs' => Sim isVar cur st' ps rs') (executeAssert st f)
      (refExec isVar cur (.apply f) rs) := by
  have hlen := h.stack.length_eq
  by_cases hu : rs.length < f.hypotheses.length
  · rw [executeAssert, if_pos (hlen ▸ hu)]
    simp only [refExec, if_pos hu]
    exact Agrees.of_isDiag ⟨_, rfl⟩
  have hsb : rs.length - f.hypotheses.length + 0 + f.hypotheses.length = rs.length := by omega
  obtain ⟨hF, hFd⟩ := checkFloats_spec h.stack
    (SubstRep.init isVar st.var2bit st.stackBuffer f.mandatoryVars.length)
    (fun hy hm hf => hwf.float_lt hy hm hf) hsb
  rw [executeAssert, if_neg (hlen ▸ hu)]
  simp only [refExec, if_neg hu, hlen, Nat.add_zero, pure_bind] at hF hFd ⊢
  by_cases hft : FloatsTyped f.hypotheses (rs.drop (rs.length - f.hypotheses.length))
  swap
  · rw [if_neg fun hh => hft (hypsOk_iff.mp hh.1).1]
    exact Agrees.of_isDiag ((hFd hft).bind _)
  obtain ⟨sv, se, hcf, hsub⟩ := hF hft
  have hce := checkEssentials_spec h.stack hsub (fun hy hm j hj => hwf.hyp_var_lt hy hm j hj)
    (fun hy hm => hwf.hyp_constants hy hm) hsb
  rw [Nat.add_zero] at hce
  simp only [hcf, ok_bind]
  by_cases hes : EssentialsOk (refFloats f.hypotheses (rs.drop (rs.length - f.hypotheses.length))
      fun _ => []) f.hypotheses (rs.drop (rs.length - f.hypotheses.length))
  swap
  · rw [if_neg fun hh => hes (hypsOk_iff.mp hh.1).2]
    exact Agrees.of_isDiag ((hce.2 hes).bind _)
  rw [hce.1 hes, ok_bind, doSubstitute_spec hsub hwf.target_var_lt
    fun c hc => (hwf.target_constants c hc).1, ok_bind]
  obtain ⟨vars, hvars, hev⟩ := doSubstituteVars_entryVars hsub hwf.target_var_lt
    hwf.target_constants
  simp only [hvars, ok_bind]
  have hr := (checkDv_spec h.table h.dv hsub hwf.dv_lt).of_iff
    (and_iff_right (hypsOk_iff.mpr ⟨hft, hes⟩)).symm
  by_cases h0 : rs.length - f.hypotheses.length = 0
  · rw [if_pos h0]
    exact h.conclude (by rw [h0]; exact .nil) hev _ hr
  · rw [if_neg h0]
    obtain ⟨slot, hslot, hk⟩ := h.stack.take_last (Nat.pos_of_ne_zero h0) (by omega)
    rw [getIdx_of_get? hslot, ok_bind]
    exact h.conclude hk hev _ hr

/-- **Running prepared step `i` is running reference step `i`.** -/
theorem executeStep_agrees (h : Sim isVar cur st ps rs) {i : Nat} {p : RefStep}
    (hi : ps[i]? = some p) :
    Agrees (fun st' rs' => Sim isVar cur st' ps rs') (executeStep st i) (refExec isVar cur p rs) := by
  obtain ⟨q, hq, hrep⟩ := forall₂_getElem? h.prepared hi
  cases hrep with
  | hyp hev hsl =>
    simp only [executeStep, hq, hsl, ok_bind, pure_eq_ok]
    exact ⟨⟨h.table.index, h.table.dvMap_length⟩, ⟨h.dv.interned, h.dv.row⟩,
      .push h.stack ⟨rfl, hev⟩ (by simp), h.prepared⟩
  | assert hwf =>
    rw [executeStep, hq]
    exact executeAssert_agrees h hwf

/-- A step past the prepared ones is out of range. -/
theorem executeStep_outOfRange (h : Sim isVar cur st ps rs) {i : Nat} (hi : ps.length ≤ i) :
    executeStep st i = .error (.diag .stepOutOfRange) := by
  rw [executeStep, List.getElem?_eq_none (h.prepared.length_eq ▸ hi)]
  rfl

/-! ## Saving a step -/

/-- **Saving the top of the stack adds a push of its entry.** -/
theorem saveStep_sim (h : Sim isVar cur st ps rs) (hne : rs ≠ []) :
    ∃ st', saveStep st = .ok st' ∧ Sim isVar cur st' (ps ++ [.push (rs.getLast hne)]) rs := by
  have hlen := h.stack.length_eq
  have hi : rs.length - 1 < rs.length := by
    have := List.length_pos.mpr hne; omega
  obtain ⟨top, htop, hrep, hsl⟩ := h.stack.getEntry hi
  have hlast : st.stack.getLast? = some top := by rw [List.getLast?_eq_getElem?, hlen, htop]
  have he : rs.getLast hne = (top.code, rs[rs.length - 1].2) := by
    rw [List.getLast_eq_getElem, hrep.code]
  have hsave : saveStep st = .ok
      { st with
        prepBuffer := st.prepBuffer ++ spaced rs[rs.length - 1].2
        prepared := st.prepared ++ [.hyp top.vars top.code ⟨st.prepBuffer.length,
          (st.prepBuffer ++ spaced rs[rs.length - 1].2).length⟩] } := by
    simp only [saveStep, hlast, hsl, ok_bind, pure_eq_ok]
  refine ⟨_, hsave, ⟨h.table.index, h.table.dvMap_length⟩, ⟨h.dv.interned, h.dv.row⟩, h.stack, ?_⟩
  rw [he]
  exact List.rel_append (h.prepared.imp fun _ _ hpq => hpq.mono (fun _ _ hb => hb) _)
    (.cons (.hyp hrep.vars (by rw [List.length_append, slice_append_right])) .nil)

/-! ## The final check -/

/-- `do_substitute_raw` writes the fragments, variable `ix` named by `vars[ix]`. -/
theorem doSubstituteRaw_spec {vars : List Token} :
    ∀ {e : List ExprFragment}, (∀ ix, .var ix ∈ e → ix < vars.length) →
    (∀ c, .constant c ∈ e → Spaced c) →
    doSubstituteRaw vars e = .ok (spaced (refSubst (fun ix => [vars.getD ix []]) e))
  | [], _, _ => rfl
  | .var ix :: e, hlt, hc => by
    have hix := hlt ix (List.mem_cons_self _ _)
    rw [doSubstituteRaw, getIdx_of_lt hix, ok_bind,
      doSubstituteRaw_spec (fun j hj => hlt j (List.mem_cons_of_mem _ hj))
        (fun c hj => hc c (List.mem_cons_of_mem _ hj))]
    simp [refSubst, List.getElem?_eq_getElem hix]
  | .constant c :: e, hlt, hc => by
    rw [doSubstituteRaw, doSubstituteRaw_spec (fun j hj => hlt j (List.mem_cons_of_mem _ hj))
        (fun c hj => hc c (List.mem_cons_of_mem _ hj))]
    have := (hc c (List.mem_cons_self _ _)).eq.1
    conv_lhs => rw [this]
    simp [refSubst]

/-- **The final check accepts exactly the stack `[cur.statement]`.** -/
theorem finalizeStep_checks (h : Sim isVar cur st ps rs) (hwf : cur.WellFormed isVar)
    {env : VerifyEnv} (hcur : env.curFrame = cur) :
    Checks (rs = [cur.statement]) (finalizeStep env st) := by
  subst hcur
  have hlen := h.stack.length_eq
  rcases rs with _ | ⟨e, _ | ⟨e', rs⟩⟩
  · rw [finalizeStep, List.length_eq_zero.mp hlen]
    exact ⟨fun h => (nomatch h), fun _ => ⟨_, rfl⟩⟩
  · obtain ⟨tos, htos, hrep, hsl⟩ := h.stack.getEntry (show 0 < [e].length by simp)
    have hs : st.stack = [tos] := by
      match hst : st.stack, hlen with
      | [t], _ => rw [hst, List.getElem?_cons_zero] at htos; cases htos; rfl
    have hfree : SpaceFree (refSubst (fun ix => [env.curFrame.mandatoryVars.getD ix []])
        env.curFrame.target.tail) :=
      spaceFree_refSubst (fun ix hix t ht => by
          rw [List.mem_singleton.mp ht, List.getD_eq_getElem _ _ (hwf.target_var_lt ix hix)]
          exact hwf.vars_spaceFree _ (List.getElem_mem _))
        fun c hc => (hwf.target_constants c hc).1
    rw [finalizeStep, hs]
    simp only [List.getElem_cons_zero] at hrep hsl
    simp only [doSubstituteRaw_spec hwf.target_var_lt fun c hc => (hwf.target_constants c hc).1,
      hsl, hrep.code, ok_bind, List.cons.injEq, and_true, Prod.ext_iff, bne_iff_ne, ne_eq,
      spaced_eq_iff hrep.vars.spaceFree hfree, Frame.statement, throw_bind, pure_bind]
    by_cases hc : e.1 = env.curFrame.target.typecode
    · by_cases he : e.2 = refSubst (fun ix => [env.curFrame.mandatoryVars.getD ix []])
          env.curFrame.target.tail
      · simp only [hc, he, not_true_eq_false, if_false]
        exact ⟨fun _ => rfl, fun h => absurd ⟨trivial, trivial⟩ h⟩
      · simp only [hc, he, not_true_eq_false, not_false_eq_true, if_true, if_false]
        exact ⟨fun h => h.2.elim, fun _ => ⟨_, rfl⟩⟩
    · simp only [hc, not_false_eq_true, if_true]
      exact ⟨fun h => h.1.elim, fun _ => ⟨_, rfl⟩⟩
  · match hst : st.stack, hlen with
    | _ :: _ :: _, _ =>
      rw [finalizeStep, hst]
      exact ⟨fun h => by simp at h, fun _ => ⟨_, rfl⟩⟩

end Steps

end MetamathKnife.Verify
