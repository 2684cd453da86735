import MetamathKnife.Verify.Simulation

/-!
# The states `verify_proof` reaches

`verify_proof` registers the optional `$d` pairs of the statement it proves, then calls
`prepare_step`, `execute_step` and `save_step` as the proof says. `Reachable env` holds of every
state this leads to, over every order of these calls that returns: what holds of it holds at every
point of every run of the verifier, whatever the proof.

Each step is inverted once (`prepareStep_eq_ok`, `executeStep_eq_ok`, `executeAssert_eq_ok`,
`saveStep_eq_ok`: what a call that returns did to the state), and each invariant is then one
induction over the run:

* `Tables`: `var2bit` is a bijection from the interned tokens onto the rows of `dv_map`, and row
  `i` holds `j` exactly when the tokens of `i` and `j` form an optional `$d` pair;
* `Layout`: the stack slots tile `stack_buffer` (`StackRep`) and every prepared hypothesis's
  range lies in `prep_buffer`. `Reachable.stackBuffer_layout` reads the tiling off slot by slot
  and shows that `execute_step` cuts `stack_buffer` at `cutPoint`, the end of the last slot that
  stays: the bytes kept are those of the slots that stay, the bytes cut are exactly those of the
  popped hypotheses, and the pushed conclusion reads the bytes appended;
* `Reachable.sim`: when every frame is well formed, a reachable state is a state of the reference
  machine (`Sim`), so the variable set of every stack slot and prepared hypothesis is that of its
  expression. `Reachable.var2bit_dvMap_vars` collects this with `Tables`.
-/

namespace MetamathKnife.Verify

/-- The states of `verify_proof` proving the statement of `env`: after the registration of its
optional `$d` pairs, then after every `prepare_step`, `execute_step` or `save_step` that
returns. -/
inductive Reachable (env : VerifyEnv) : VerifyState → Prop
  | init {st : VerifyState} : registerDv VerifyState.empty env.curFrame.optionalDv = .ok st →
      Reachable env st
  | prepare {st st' : VerifyState} (label : Token) : Reachable env st →
      prepareStep env st label = .ok st' → Reachable env st'
  | execute {st st' : VerifyState} (index : Nat) : Reachable env st →
      executeStep st index = .ok st' → Reachable env st'
  | save {st st' : VerifyState} : Reachable env st → saveStep st = .ok st' → Reachable env st'

/-! ## What a step that returns did -/

section Inversion

variable {env : VerifyEnv} {st st' : VerifyState}

/-- `prepare_step` found the label's frame and appended an assertion step, or interned the
frame's variables and appended a hypothesis step with the frame's stub. -/
theorem prepareStep_eq_ok {label : Token} (h : prepareStep env st label = .ok st') :
    ∃ f, env.scoper label = some f ∧
      ((f.stype = .axiomatic ∨ f.stype = .provable) ∧
          st' = { st with prepared := st.prepared ++ [.assert f] } ∨
        ¬(f.stype = .axiomatic ∨ f.stype = .provable) ∧
          st' = { (mapVars st Bitset.new f.mandatoryVars).1 with
            prepBuffer := (mapVars st Bitset.new f.mandatoryVars).1.prepBuffer ++ f.stubExpr
            prepared := (mapVars st Bitset.new f.mandatoryVars).1.prepared ++
              [.hyp (mapVars st Bitset.new f.mandatoryVars).2 f.target.typecode
                ⟨(mapVars st Bitset.new f.mandatoryVars).1.prepBuffer.length,
                  ((mapVars st Bitset.new f.mandatoryVars).1.prepBuffer ++ f.stubExpr).length⟩] }) := by
  unfold prepareStep at h
  cases hs : env.scoper label with
  | none => simp [hs] at h
  | some f =>
    simp only [hs] at h
    obtain ⟨_, -, h⟩ := bind_eq_ok h
    refine ⟨f, rfl, ?_⟩
    split at h
    · cases h; exact .inl ⟨‹_›, rfl⟩
    · cases h; exact .inr ⟨‹_›, rfl⟩

/-- An assertion popped its `sbase`-th slot and those above, cut `stack_buffer` at the end of
the slot below them (at 0 if there is none), and pushed its conclusion. -/
theorem executeAssert_eq_ok {f : Frame} (h : executeAssert st f = .ok st') :
    ∃ sbase newLen temp vars, sbase + f.hypotheses.length = st.stack.length ∧
      (sbase = 0 ∧ newLen = 0 ∨
        ∃ top, (st.stack.take sbase)[sbase - 1]? = some top ∧ newLen = top.expr.stop) ∧
      st' = { st with
        stack := st.stack.take sbase ++ [⟨vars, f.target.typecode,
          ⟨(st.stackBuffer.take newLen).length, (st.stackBuffer.take newLen ++ temp).length⟩⟩]
        stackBuffer := st.stackBuffer.take newLen ++ temp } := by
  unfold executeAssert at h
  split at h
  · cases h
  have hsb : st.stack.length - f.hypotheses.length + f.hypotheses.length = st.stack.length := by
    omega
  obtain ⟨_, -, h⟩ := bind_eq_ok h
  obtain ⟨_, -, h⟩ := bind_eq_ok h
  obtain ⟨_, -, h⟩ := bind_eq_ok h
  obtain ⟨temp, -, h⟩ := bind_eq_ok h
  by_cases h0 : st.stack.length - f.hypotheses.length = 0
  · simp only [if_pos h0, pure_bind] at h
    obtain ⟨vars, -, h⟩ := bind_eq_ok h
    obtain ⟨_, -, h⟩ := bind_eq_ok h
    cases h
    exact ⟨_, 0, temp, vars, hsb, .inl ⟨h0, rfl⟩, rfl⟩
  · simp only [if_neg h0] at h
    obtain ⟨top, htop, h⟩ := bind_eq_ok h
    rw [pure_bind] at h
    obtain ⟨vars, -, h⟩ := bind_eq_ok h
    obtain ⟨_, -, h⟩ := bind_eq_ok h
    cases h
    unfold getIdx at htop
    split at htop
    · cases htop
      exact ⟨_, _, temp, vars, hsb, .inr ⟨_, ‹_›, rfl⟩, rfl⟩
    · cases htop

/-- `execute_step` pushed a prepared hypothesis's bytes, or applied a prepared assertion. -/
theorem executeStep_eq_ok {index : Nat} (h : executeStep st index = .ok st') :
    (∃ vars code expr bytes, st.prepared[index]? = some (.hyp vars code expr) ∧
      slice st.prepBuffer expr = .ok bytes ∧
      st' = { st with
        stackBuffer := st.stackBuffer ++ bytes
        stack := st.stack ++ [⟨vars, code, ⟨st.stackBuffer.length,
          (st.stackBuffer ++ bytes).length⟩⟩] }) ∨
    ∃ f, st.prepared[index]? = some (.assert f) ∧ executeAssert st f = .ok st' := by
  unfold executeStep at h
  split at h
  · cases h
  · rename_i vars code expr hp
    obtain ⟨bytes, hb, h⟩ := bind_eq_ok h
    cases h
    exact .inl ⟨vars, code, expr, bytes, hp, hb, rfl⟩
  · exact .inr ⟨_, ‹_›, h⟩

/-- `save_step` appended the top slot's bytes to `prep_buffer` as a hypothesis step. -/
theorem saveStep_eq_ok (h : saveStep st = .ok st') :
    ∃ top bytes, st.stack.getLast? = some top ∧ slice st.stackBuffer top.expr = .ok bytes ∧
      st' = { st with
        prepBuffer := st.prepBuffer ++ bytes
        prepared := st.prepared ++ [.hyp top.vars top.code ⟨st.prepBuffer.length,
          (st.prepBuffer ++ bytes).length⟩] } := by
  unfold saveStep at h
  cases ht : st.stack.getLast? with
  | none => simp [ht] at h
  | some top =>
    simp only [ht] at h
    obtain ⟨bytes, hb, h⟩ := bind_eq_ok h
    cases h
    exact ⟨top, bytes, rfl, hb, rfl⟩

end Inversion

/-! ## `var2bit` and `dv_map` -/

/-- Every index below the length of `var2bit` is a token's. -/
def VarsOnto (var2bit : List (Token × Nat)) : Prop :=
  ∀ b < var2bit.length, ∃ v, var2bit.lookup v = some b

section VarsOnto

variable {st st' : VerifyState}

theorem VarsOnto.mapVar (h : VarsOnto st.var2bit) (t : Token) :
    VarsOnto (mapVar st t).1.var2bit := by
  intro b hb
  cases hl : st.var2bit.lookup t with
  | some ix => rw [mapVar_of_lookup hl] at hb ⊢; exact h b hb
  | none =>
    have hb' : b < st.var2bit.length ∨ b = st.var2bit.length := by
      rw [mapVar_of_lookup_none hl] at hb
      simp only [List.length_append, List.length_singleton] at hb
      omega
    rcases hb' with hb' | rfl
    · obtain ⟨v, hv⟩ := h b hb'
      exact ⟨v, lookup_mapVar_of_lookup hv⟩
    · exact ⟨t, by rw [lookup_mapVar_self, mapVar_of_lookup_none hl]⟩

theorem VarsOnto.mapVars {vars : Bitset} {vs : List Token} (h : VarsOnto st.var2bit) :
    VarsOnto (mapVars st vars vs).1.var2bit := by
  induction vs generalizing st vars with
  | nil => exact h
  | cons v vs ih => exact ih (h.mapVar v)

theorem VarsOnto.registerDv {pairs : List (Token × Token)} (h : VarsOnto st.var2bit)
    (hr : registerDv st pairs = .ok st') : VarsOnto st'.var2bit := by
  induction pairs generalizing st with
  | nil => cases hr; exact h
  | cons p pairs ih =>
    obtain ⟨x, y⟩ := p
    simp only [registerDv] at hr
    obtain ⟨_, -, hr⟩ := bind_eq_ok hr
    obtain ⟨_, -, hr⟩ := bind_eq_ok hr
    refine ih ?_ hr
    exact (h.mapVar x).mapVar y

end VarsOnto

/-- `var2bit` gives every interned token its index and every index below the number of rows of
`dv_map` to a token, and the rows hold the `$d` pairs `pairs`. -/
structure Tables (pairs : List (Token × Token)) (st : VerifyState) : Prop where
  table : VarTable st
  onto : VarsOnto st.var2bit
  dv : DvTable pairs st

namespace Tables

variable {pairs : List (Token × Token)} {st st' : VerifyState}

/-- The tables are those of `var2bit` and `dv_map` alone. -/
theorem of_eq (h : Tables pairs st) (h1 : st'.var2bit = st.var2bit) (h2 : st'.dvMap = st.dvMap) :
    Tables pairs st' := by
  obtain ⟨⟨index, len⟩, onto, ⟨interned, row⟩⟩ := h
  exact ⟨⟨by simpa only [h1] using index, by simpa only [h1, h2] using len⟩,
    by simpa only [h1] using onto, ⟨by simpa only [h1] using interned, by simpa only [h1, h2] using row⟩⟩

theorem mapVars (h : Tables pairs st) (vars : Bitset) (vs : List Token) :
    Tables pairs (Verify.mapVars st vars vs).1 :=
  ⟨h.table.mapVars, h.onto.mapVars, h.dv.mapVars h.table⟩

theorem prepareStep (h : Tables pairs st) {env : VerifyEnv} {label : Token}
    (hs : Verify.prepareStep env st label = .ok st') : Tables pairs st' := by
  obtain ⟨f, -, ⟨-, rfl⟩ | ⟨-, rfl⟩⟩ := prepareStep_eq_ok hs
  · exact h.of_eq rfl rfl
  · exact (h.mapVars _ _).of_eq rfl rfl

theorem executeStep (h : Tables pairs st) {index : Nat}
    (hs : Verify.executeStep st index = .ok st') : Tables pairs st' := by
  rcases executeStep_eq_ok hs with ⟨-, -, -, -, -, -, rfl⟩ | ⟨f, -, hs⟩
  · exact h.of_eq rfl rfl
  · obtain ⟨-, -, -, -, -, -, rfl⟩ := executeAssert_eq_ok hs
    exact h.of_eq rfl rfl

theorem saveStep (h : Tables pairs st) (hs : Verify.saveStep st = .ok st') : Tables pairs st' := by
  obtain ⟨-, -, -, -, rfl⟩ := saveStep_eq_ok hs
  exact h.of_eq rfl rfl

/-- The indices below the number of rows are exactly those of the interned tokens. -/
theorem lt_iff (h : Tables pairs st) (b : Nat) :
    b < st.dvMap.length ↔ ∃ v, st.var2bit.lookup v = some b :=
  ⟨fun hb => h.onto b (h.table.dvMap_length ▸ hb), fun ⟨_, hv⟩ => h.table.lt_of_lookup hv⟩

/-- Row `i` holds `j` exactly when the tokens of `i` and `j` form a pair. -/
theorem row_iff (h : Tables pairs st) {i j : Nat} {row : Bitset} (hrow : st.dvMap[i]? = some row) :
    row.hasBit j = true ↔ ∃ vi vj, st.var2bit.lookup vi = some i ∧
      st.var2bit.lookup vj = some j ∧ DvIn pairs vi vj := by
  obtain ⟨vi, hvi⟩ := (h.lt_iff i).mp (List.getElem?_eq_some_iff.mp hrow).1
  rw [h.dv.row vi i hvi row hrow j]
  constructor
  · rintro ⟨vj, hvj, hd⟩
    exact ⟨vi, vj, hvi, hvj, hd⟩
  · rintro ⟨vi', vj, hvi', hvj, hd⟩
    exact ⟨vj, hvj, h.table.inj hvi' hvi ▸ hd⟩

theorem symm (h : Tables pairs st) {i j : Nat} {ri rj : Bitset} (hri : st.dvMap[i]? = some ri)
    (hrj : st.dvMap[j]? = some rj) : ri.hasBit j = rj.hasBit i := by
  rw [Bool.eq_iff_iff, h.row_iff hri, h.row_iff hrj]
  exact ⟨fun ⟨vi, vj, hi, hj, hd⟩ => ⟨vj, vi, hj, hi, hd.symm⟩,
    fun ⟨vj, vi, hj, hi, hd⟩ => ⟨vi, vj, hi, hj, hd.symm⟩⟩

end Tables

/-- The registration of the optional `$d` pairs builds the tables and leaves the rest empty. -/
theorem registerDv_empty_eq_ok {pairs : List (Token × Token)} {st : VerifyState}
    (h : registerDv VerifyState.empty pairs = .ok st) :
    Tables pairs st ∧ st.prepared = [] ∧ st.prepBuffer = [] ∧ st.stack = [] ∧
      st.stackBuffer = [] := by
  obtain ⟨st0, h0, ht, hd, hp, hpb, hs, hb⟩ := @registerDv_spec VerifyState.empty []
    ⟨fun _ _ h => (nomatch h), rfl⟩ ⟨fun _ h => (nomatch h), fun _ _ h => (nomatch h)⟩ pairs
  rw [h0] at h
  cases h
  exact ⟨⟨ht, VarsOnto.registerDv
    (show VarsOnto VerifyState.empty.var2bit from fun b hb => absurd hb (Nat.not_lt_zero b)) h0,
    by simpa using hd⟩, hp, hpb, hs, hb⟩

/-! ## The layout of the buffers -/

/-- Every prepared hypothesis's range lies in the first `n` bytes of `prep_buffer`. -/
def PreparedIn (prepared : List PreparedStep) (n : Nat) : Prop :=
  ∀ vars code r, PreparedStep.hyp vars code r ∈ prepared → r.start ≤ r.stop ∧ r.stop ≤ n

theorem PreparedIn.snoc {prepared : List PreparedStep} {n m : Nat} (h : PreparedIn prepared n)
    (hn : n ≤ m) {p : PreparedStep} (hp : PreparedIn [p] m) : PreparedIn (prepared ++ [p]) m := by
  intro vars code r hr
  rcases List.mem_append.mp hr with hr | hr
  · have := h vars code r hr
    omega
  · exact hp vars code r hr

theorem preparedIn_assert (f : Frame) (m : Nat) : PreparedIn [.assert f] m := by
  intro _ _ _ hr
  simp at hr

theorem preparedIn_hyp (vars : Bitset) (code : Token) (buf more : List UInt8) :
    PreparedIn [.hyp vars code ⟨buf.length, (buf ++ more).length⟩] (buf ++ more).length := by
  intro _ _ _ hr
  simp only [List.mem_singleton, PreparedStep.hyp.injEq] at hr
  obtain ⟨-, -, rfl⟩ := hr
  simp

/-- The stack slots tile `stack_buffer`, and the prepared hypotheses' ranges lie in
`prep_buffer`. -/
structure Layout (st : VerifyState) : Prop where
  tiles : ∃ chunks : List (List UInt8), StackRep id (fun _ _ => True) st.stack chunks st.stackBuffer
  prepared : PreparedIn st.prepared st.prepBuffer.length

namespace Layout

variable {st st' : VerifyState}

theorem prepareStep (h : Layout st) {env : VerifyEnv} {label : Token}
    (hs : Verify.prepareStep env st label = .ok st') : Layout st' := by
  obtain ⟨f, -, ⟨-, rfl⟩ | ⟨-, rfl⟩⟩ := prepareStep_eq_ok hs
  · exact ⟨h.tiles, h.prepared.snoc le_rfl (preparedIn_assert f _)⟩
  · refine ⟨by simpa using h.tiles, ?_⟩
    simp only [mapVars_prepared, mapVars_prepBuffer]
    exact h.prepared.snoc (by simp) (preparedIn_hyp _ _ _ _)

theorem executeStep (h : Layout st) {index : Nat} (hs : Verify.executeStep st index = .ok st') :
    Layout st' := by
  obtain ⟨chunks, hrep⟩ := h.tiles
  rcases executeStep_eq_ok hs with ⟨vars, code, expr, bytes, -, -, rfl⟩ | ⟨f, -, hs⟩
  · exact ⟨⟨chunks ++ [bytes], .push hrep trivial (by simp)⟩, h.prepared⟩
  · obtain ⟨sbase, newLen, temp, vars, hsb, hnew, rfl⟩ := executeAssert_eq_ok hs
    have hrep' := (hrep.truncate (by omega) hnew).1
    exact ⟨⟨chunks.take sbase ++ [temp], .push hrep' trivial (by simp)⟩, h.prepared⟩

theorem saveStep (h : Layout st) (hs : Verify.saveStep st = .ok st') : Layout st' := by
  obtain ⟨top, bytes, -, -, rfl⟩ := saveStep_eq_ok hs
  exact ⟨h.tiles, h.prepared.snoc (by simp) (preparedIn_hyp _ _ _ _)⟩

end Layout

/-! ## Every reachable state -/

namespace Reachable

variable {env : VerifyEnv} {st : VerifyState}

theorem tables (h : Reachable env st) : Tables env.curFrame.optionalDv st := by
  induction h with
  | init hr => exact (registerDv_empty_eq_ok hr).1
  | prepare _ _ hs ih => exact ih.prepareStep hs
  | execute _ _ hs ih => exact ih.executeStep hs
  | save _ hs ih => exact ih.saveStep hs

theorem layout (h : Reachable env st) : Layout st := by
  induction h with
  | init hr =>
    obtain ⟨-, hp, -, hs, hb⟩ := registerDv_empty_eq_ok hr
    exact ⟨⟨[], by rw [hs, hb]; exact .nil⟩, by rw [hp]; intro _ _ _ h; cases h⟩
  | prepare _ _ hs ih => exact ih.prepareStep hs
  | execute _ _ hs ih => exact ih.executeStep hs
  | save _ hs ih => exact ih.saveStep hs

/-- **With well-formed frames, every reachable state is a state of the reference machine.** -/
theorem sim {isVar : Token → Bool} (hwf : ∀ l f, env.scoper l = some f → f.WellFormed isVar)
    (h : Reachable env st) : ∃ ps rs, Sim isVar env.curFrame st ps rs := by
  induction h with
  | init hr =>
    obtain ⟨st0, h0, hs⟩ := registerDv_sim isVar env.curFrame
    rw [hr] at h0
    cases h0
    exact ⟨[], [], hs⟩
  | prepare label _ hs ih =>
    obtain ⟨ps, rs, hsim⟩ := ih
    have ha := prepareStep_agrees hsim rfl hwf label
    rw [hs] at ha
    obtain ⟨_, -, hsim'⟩ := Agrees.of_ok ha
    exact ⟨_, _, hsim'⟩
  | execute index _ hs ih =>
    obtain ⟨ps, rs, hsim⟩ := ih
    cases hp : ps[index]? with
    | none =>
      rw [executeStep_outOfRange hsim (List.getElem?_eq_none_iff.mp hp)] at hs
      cases hs
    | some p =>
      have ha := executeStep_agrees hsim hp
      rw [hs] at ha
      obtain ⟨_, -, hsim'⟩ := Agrees.of_ok ha
      exact ⟨_, _, hsim'⟩
  | @save st _ _ hs ih =>
    obtain ⟨ps, rs, hsim⟩ := ih
    by_cases hne : rs = []
    · subst hne
      have hnil : st.stack = [] := List.length_eq_zero.mp hsim.stack.length_eq
      simp [saveStep, hnil] at hs
    · obtain ⟨_, hs', hsim'⟩ := saveStep_sim hsim hne
      rw [hs] at hs'
      cases hs'
      exact ⟨_, _, hsim'⟩

end Reachable

/-- Where `execute_step` cuts `stack_buffer` when it pops the slots from `sbase` on: at the end
of slot `sbase - 1`, or at 0 when no slot stays. -/
def cutPoint (stack : List StackSlot) (sbase : Nat) : Nat :=
  if sbase = 0 then 0 else ((stack[sbase - 1]?).map fun slot => slot.expr.stop).getD 0

/-- The cut `executeAssert_eq_ok` names is `cutPoint`. -/
theorem cutPoint_eq {stack : List StackSlot} {sbase newLen : Nat}
    (h : sbase = 0 ∧ newLen = 0 ∨
      ∃ top, (stack.take sbase)[sbase - 1]? = some top ∧ newLen = top.expr.stop) :
    cutPoint stack sbase = newLen := by
  rcases h with ⟨rfl, rfl⟩ | ⟨top, htop, rfl⟩
  · rfl
  · have hs : sbase ≠ 0 := by rintro rfl; simp at htop
    rw [List.getElem?_take, if_pos (by omega)] at htop
    simp [cutPoint, hs, htop]

/-- **The stack slots tile `stack_buffer`, and `execute_step` cuts it between slots.** In every
reachable state the bottom slot starts at 0, each slot ends where the next one starts, the top
slot ends at the end of `stack_buffer`, which is empty when the stack is, and every prepared
hypothesis's range lies in `prep_buffer`. When `execute_step` applies an assertion with `k`
hypotheses, it keeps the slots below the top `k`, cuts `stack_buffer` at the end of the last of
them (`cutPoint`), appends the conclusion's bytes and pushes a slot that reads them: the bytes
kept are those of the slots that stay, each of which still reads its own bytes, and the bytes cut
are exactly those of the popped hypothesis slots, one after another. -/
theorem Reachable.stackBuffer_layout {env : VerifyEnv} {st : VerifyState} (h : Reachable env st) :
    (∀ slot, st.stack.head? = some slot → slot.expr.start = 0) ∧
    (∀ i a b, st.stack[i]? = some a → st.stack[i + 1]? = some b → a.expr.stop = b.expr.start) ∧
    (∀ slot, st.stack.getLast? = some slot → slot.expr.stop = st.stackBuffer.length) ∧
    (st.stack = [] → st.stackBuffer = []) ∧
    (∀ vars code r, PreparedStep.hyp vars code r ∈ st.prepared →
      r.start ≤ r.stop ∧ r.stop ≤ st.prepBuffer.length) ∧
    ∀ index f st', st.prepared[index]? = some (.assert f) → executeStep st index = .ok st' →
      let sbase := st.stack.length - f.hypotheses.length
      ∃ slot temp kept popped,
        st'.stack = st.stack.take sbase ++ [slot] ∧
        st'.stackBuffer = st.stackBuffer.take (cutPoint st.stack sbase) ++ temp ∧
        slice st'.stackBuffer slot.expr = .ok temp ∧
        List.Forall₂ (fun slot bytes =>
            slice (st.stackBuffer.take (cutPoint st.stack sbase)) slot.expr = .ok bytes ∧
            slice st.stackBuffer slot.expr = .ok bytes)
          (st.stack.take sbase) kept ∧
        st.stackBuffer.take (cutPoint st.stack sbase) = kept.flatten ∧
        List.Forall₂ (fun slot bytes => slice st.stackBuffer slot.expr = .ok bytes)
          (st.stack.drop sbase) popped ∧
        st.stackBuffer.drop (cutPoint st.stack sbase) = popped.flatten := by
  obtain ⟨⟨chunks, hrep⟩, hprep⟩ := h.layout
  refine ⟨fun _ => hrep.head_start, fun _ _ _ => hrep.stop_eq_start, fun _ => hrep.getLast_stop,
    fun hs => by rw [hs] at hrep; exact hrep.buf_eq_nil, hprep, fun index f st' hf hex => ?_⟩
  simp only [executeStep, hf] at hex
  obtain ⟨sbase, newLen, temp, vars, hsb, hnew, rfl⟩ := executeAssert_eq_ok hex
  obtain ⟨hrep', hdrop⟩ := hrep.truncate (by omega) hnew
  have hcut : cutPoint st.stack sbase = newLen := cutPoint_eq hnew
  rw [show st.stack.length - f.hypotheses.length = sbase by omega]
  dsimp only
  rw [hcut]
  exact ⟨_, temp, chunks.take sbase, chunks.drop sbase, rfl, rfl,
    by simpa using slice_append_right (st.stackBuffer.take newLen) temp,
    List.Forall₂.mp (fun _ _ h1 h2 => ⟨h1, h2⟩) hrep'.forall₂_slice
      (List.forall₂_take sbase hrep.forall₂_slice),
    by simpa using hrep'.buf_eq, List.forall₂_drop sbase hrep.forall₂_slice, by simpa using hdrop⟩

/-! ## Variable sets -/

theorem forall₂_exists_of_mem {α β : Type} {R : α → β → Prop} {l₁ : List α} {l₂ : List β}
    (h : List.Forall₂ R l₁ l₂) {a : α} (ha : a ∈ l₁) : ∃ b ∈ l₂, R a b := by
  induction h with
  | nil => cases ha
  | cons hr _ ih =>
    rcases List.mem_cons.mp ha with rfl | ha
    · exact ⟨_, List.mem_cons_self _ _, hr⟩
    · obtain ⟨b, hb, hr'⟩ := ih ha
      exact ⟨b, List.mem_cons_of_mem _ hb, hr'⟩

section Sim

variable {isVar : Token → Bool} {cur : Frame} {st : VerifyState} {ps : List RefStep}
  {rs : List RefEntry}

/-- A slot's variable set is the set of the indices of the variables of its bytes. -/
theorem Sim.slot_vars (h : Sim isVar cur st ps rs) :
    ∀ slot ∈ st.stack, ∃ bytes, slice st.stackBuffer slot.expr = .ok bytes ∧
      ∀ b, slot.vars.hasBit b = true ↔
        ∃ v ∈ unspace bytes, isVar v = true ∧ st.var2bit.lookup v = some b := by
  intro slot hslot
  obtain ⟨i, hi⟩ := List.mem_iff_getElem?.mp hslot
  obtain ⟨e, -, hrep, hsl⟩ := h.stack.get hi
  refine ⟨spaced e.2, hsl, ?_⟩
  rw [unspace_spaced hrep.vars.spaceFree]
  exact hrep.vars.bits

/-- A prepared hypothesis's variable set is the set of the indices of the variables of its
bytes. -/
theorem Sim.prepared_vars (h : Sim isVar cur st ps rs) :
    ∀ vars code r, PreparedStep.hyp vars code r ∈ st.prepared → ∃ bytes,
      slice st.prepBuffer r = .ok bytes ∧ ∀ b, vars.hasBit b = true ↔
        ∃ v ∈ unspace bytes, isVar v = true ∧ st.var2bit.lookup v = some b := by
  intro vars code r hmem
  obtain ⟨p, -, hrep⟩ := forall₂_exists_of_mem h.prepared hmem
  cases hrep with
  | hyp hev hsl =>
    refine ⟨_, hsl, ?_⟩
    rw [unspace_spaced hev.spaceFree]
    exact hev.bits

end Sim

/-- **`var2bit` numbers the interned tokens, `dv_map` holds the optional `$d` pairs, and with
well-formed frames the variable sets are exact.** In every reachable state `var2bit` is a
bijection from the interned tokens onto `0..dv_map.len()`; row `i` of `dv_map` holds `j` exactly
when the tokens of `i` and `j` form an optional `$d` pair of the statement, in either order, so
that `dv_map` is symmetric; and when every frame of the scope reader is well formed, the
variable set of every stack slot and of every prepared hypothesis is the set of the indices of
the variables of its expression. -/
theorem Reachable.var2bit_dvMap_vars {env : VerifyEnv} {st : VerifyState} (h : Reachable env st) :
    (∀ b, b < st.dvMap.length ↔ ∃ v, st.var2bit.lookup v = some b) ∧
    (∀ v w b, st.var2bit.lookup v = some b → st.var2bit.lookup w = some b → v = w) ∧
    (∀ i j (row : Bitset), st.dvMap[i]? = some row → (row.hasBit j = true ↔
      ∃ vi vj, st.var2bit.lookup vi = some i ∧ st.var2bit.lookup vj = some j ∧
        DvIn env.curFrame.optionalDv vi vj)) ∧
    (∀ i j (ri rj : Bitset), st.dvMap[i]? = some ri → st.dvMap[j]? = some rj →
      ri.hasBit j = rj.hasBit i) ∧
    ∀ isVar : Token → Bool, (∀ l f, env.scoper l = some f → f.WellFormed isVar) →
      (∀ slot ∈ st.stack, ∃ bytes, slice st.stackBuffer slot.expr = .ok bytes ∧
        ∀ b, slot.vars.hasBit b = true ↔
          ∃ v ∈ unspace bytes, isVar v = true ∧ st.var2bit.lookup v = some b) ∧
      ∀ vars code r, PreparedStep.hyp vars code r ∈ st.prepared → ∃ bytes,
        slice st.prepBuffer r = .ok bytes ∧ ∀ b, vars.hasBit b = true ↔
          ∃ v ∈ unspace bytes, isVar v = true ∧ st.var2bit.lookup v = some b := by
  have ht := h.tables
  refine ⟨ht.lt_iff, fun _ _ _ => ht.table.inj, fun _ _ _ => ht.row_iff, fun _ _ _ _ => ht.symm,
    fun isVar hwf => ?_⟩
  obtain ⟨ps, rs, hs⟩ := h.sim hwf
  exact ⟨hs.slot_vars, hs.prepared_vars⟩

/-! ## Runs of the example database -/

/-- The proof of `th1`, as `verify_proof` sees it. -/
def th1Env : VerifyEnv := ⟨exampleOrder, exampleScopes, th1Frame⟩

/-- The state after the step `wph` is prepared and run: `ph`, with index 0, on the stack. -/
def wphPushed : VerifyState :=
  ⟨[.hyp (Bitset.new.setBit 0) (tokenOf "wff") ⟨0, 3⟩], spaced [tokenOf "ph"],
    [⟨Bitset.new.setBit 0, tokenOf "wff", ⟨0, 3⟩⟩], spaced [tokenOf "ph"], [(tokenOf "ph", 0)],
    [Bitset.new]⟩

theorem reachable_wphPushed : Reachable th1Env wphPushed :=
  .execute 0 (.prepare (tokenOf "wph") (.init rfl) rfl) rfl

/-- The state after `wph`, `wps` and `ax-1` are prepared and the two hypotheses are run: `ph` and
`ps` on the stack, and `ax-1` prepared as step 2. -/
def phPsPushed : VerifyState :=
  ⟨[.hyp (Bitset.new.setBit 0) (tokenOf "wff") ⟨0, 3⟩, .hyp (Bitset.new.setBit 1) (tokenOf "wff") ⟨3, 6⟩,
      .assert ax1Frame],
    spaced [tokenOf "ph", tokenOf "ps"],
    [⟨Bitset.new.setBit 0, tokenOf "wff", ⟨0, 3⟩⟩, ⟨Bitset.new.setBit 1, tokenOf "wff", ⟨3, 6⟩⟩],
    spaced [tokenOf "ph", tokenOf "ps"], [(tokenOf "ph", 0), (tokenOf "ps", 1)],
    [Bitset.new, Bitset.new]⟩

theorem reachable_phPsPushed : Reachable th1Env phPsPushed :=
  .execute 1 (.execute 0 (.prepare (tokenOf "ax-1") (.prepare (tokenOf "wps")
    (.prepare (tokenOf "wph") (.init rfl) rfl) rfl) rfl) rfl) rfl

/-- The layout at a state where the assertion `ax-1` is prepared and runs. -/
theorem phPsPushed_stackBuffer_layout : Reachable th1Env phPsPushed ∧
    phPsPushed.prepared[2]? = some (.assert ax1Frame) ∧
    (∃ st', executeStep phPsPushed 2 = .ok st') ∧
    (∀ slot, phPsPushed.stack.head? = some slot → slot.expr.start = 0) ∧
    (∀ i a b, phPsPushed.stack[i]? = some a → phPsPushed.stack[i + 1]? = some b → a.expr.stop = b.expr.start) ∧
    (∀ slot, phPsPushed.stack.getLast? = some slot → slot.expr.stop = phPsPushed.stackBuffer.length) ∧
    (phPsPushed.stack = [] → phPsPushed.stackBuffer = []) ∧
    (∀ vars code r, PreparedStep.hyp vars code r ∈ phPsPushed.prepared →
      r.start ≤ r.stop ∧ r.stop ≤ phPsPushed.prepBuffer.length) ∧
    ∀ index f st', phPsPushed.prepared[index]? = some (.assert f) → executeStep phPsPushed index = .ok st' →
      let sbase := phPsPushed.stack.length - f.hypotheses.length
      ∃ slot temp kept popped,
        st'.stack = phPsPushed.stack.take sbase ++ [slot] ∧
        st'.stackBuffer = phPsPushed.stackBuffer.take (cutPoint phPsPushed.stack sbase) ++ temp ∧
        slice st'.stackBuffer slot.expr = .ok temp ∧
        List.Forall₂ (fun slot bytes =>
            slice (phPsPushed.stackBuffer.take (cutPoint phPsPushed.stack sbase)) slot.expr = .ok bytes ∧
            slice phPsPushed.stackBuffer slot.expr = .ok bytes)
          (phPsPushed.stack.take sbase) kept ∧
        phPsPushed.stackBuffer.take (cutPoint phPsPushed.stack sbase) = kept.flatten ∧
        List.Forall₂ (fun slot bytes => slice phPsPushed.stackBuffer slot.expr = .ok bytes)
          (phPsPushed.stack.drop sbase) popped ∧
        phPsPushed.stackBuffer.drop (cutPoint phPsPushed.stack sbase) = popped.flatten :=
  ⟨reachable_phPsPushed, rfl, ⟨_, rfl⟩, Reachable.stackBuffer_layout reachable_phPsPushed⟩

theorem wphPushed_var2bit_dvMap_vars : Reachable th1Env wphPushed ∧
    (∀ b, b < wphPushed.dvMap.length ↔ ∃ v, wphPushed.var2bit.lookup v = some b) ∧
    (∀ v w b, wphPushed.var2bit.lookup v = some b → wphPushed.var2bit.lookup w = some b → v = w) ∧
    (∀ i j (row : Bitset), wphPushed.dvMap[i]? = some row → (row.hasBit j = true ↔
      ∃ vi vj, wphPushed.var2bit.lookup vi = some i ∧ wphPushed.var2bit.lookup vj = some j ∧
        DvIn th1Env.curFrame.optionalDv vi vj)) ∧
    (∀ i j (ri rj : Bitset), wphPushed.dvMap[i]? = some ri → wphPushed.dvMap[j]? = some rj →
      ri.hasBit j = rj.hasBit i) ∧
    ∀ isVar : Token → Bool, (∀ l f, th1Env.scoper l = some f → f.WellFormed isVar) →
      (∀ slot ∈ wphPushed.stack, ∃ bytes, slice wphPushed.stackBuffer slot.expr = .ok bytes ∧
        ∀ b, slot.vars.hasBit b = true ↔
          ∃ v ∈ unspace bytes, isVar v = true ∧ wphPushed.var2bit.lookup v = some b) ∧
      ∀ vars code r, PreparedStep.hyp vars code r ∈ wphPushed.prepared → ∃ bytes,
        slice wphPushed.prepBuffer r = .ok bytes ∧ ∀ b, vars.hasBit b = true ↔
          ∃ v ∈ unspace bytes, isVar v = true ∧ wphPushed.var2bit.lookup v = some b :=
  ⟨reachable_wphPushed, Reachable.var2bit_dvMap_vars reachable_wphPushed⟩

end MetamathKnife.Verify
