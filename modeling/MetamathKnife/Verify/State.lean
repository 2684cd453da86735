import MetamathKnife.Verify.Basic

/-!
# The verifier's state and its steps

`VerifyState` and the functions of `verify.rs` that act on it, one definition each:
`map_var`, `prepare_step`, the three substitutions `do_substitute`, `do_substitute_raw` and
`do_substitute_vars`, `execute_step`, `finalize_step` and `save_step`.

The state's read-only part (the segment order, the scope reader and the current frame) is the
`VerifyEnv` the functions take; `temp_buffer`, `subst_vars` and `subst_exprs`, cleared before
each use, are local values of the function that fills them. Vectors are lists, `Range<usize>`
is `Range`, and the `HashMap` `var2bit` is an association list with its keys in insertion order.
Indexing is `getIdx`, `setIdx` and `slice`, which panic where the source's indexing does.
-/

namespace MetamathKnife.Verify

/-- `Range<usize>`; `stop` is the source's `end`. -/
structure Range where
  start : Nat
  stop : Nat
  deriving DecidableEq, Repr

/-- `PreparedStep`. -/
inductive PreparedStep
  | hyp (vars : Bitset) (code : Token) (expr : Range)
  | assert (frame : Frame)

/-- `StackSlot`. -/
structure StackSlot where
  vars : Bitset
  code : Token
  expr : Range

/-- The fields of `VerifyState` that the steps change. -/
structure VerifyState where
  prepared : List PreparedStep
  prepBuffer : List UInt8
  stack : List StackSlot
  stackBuffer : List UInt8
  var2bit : List (Token × Nat)
  dvMap : List Bitset

/-- The state `verify_proof` starts from. -/
def VerifyState.empty : VerifyState := ⟨[], [], [], [], [], []⟩

/-- The fields of `VerifyState` that no step changes. -/
structure VerifyEnv where
  order : SegmentOrder
  scoper : ScopeReader
  curFrame : Frame

@[simp] theorem ok_bind {α β : Type} (a : α) (f : α → Except Fault β) : (Except.ok a >>= f) = f a :=
  rfl

@[simp] theorem error_bind {α β : Type} (e : Fault) (f : α → Except Fault β) :
    (Except.error e >>= f) = Except.error e :=
  rfl

@[simp] theorem throw_bind {α β : Type} (e : Fault) (f : α → Except Fault β) :
    (throw e >>= f : Except Fault β) = throw e :=
  rfl

@[simp] theorem pure_eq_ok {α : Type} (a : α) : (pure a : Except Fault α) = Except.ok a := rfl

theorem bind_eq_ok {α β : Type} {x : Except Fault α} {f : α → Except Fault β} {b : β}
    (h : (x >>= f) = .ok b) : ∃ a, x = .ok a ∧ f a = .ok b := by
  cases x with
  | error e => cases h
  | ok a => exact ⟨a, rfl, h⟩

/-- The outcome is a diagnostic: the source returns `Some`. -/
def IsDiag {α : Type} (r : Except Fault α) : Prop := ∃ d, r = .error (.diag d)

theorem IsDiag.bind {α β : Type} {x : Except Fault α} (h : IsDiag x) (f : α → Except Fault β) :
    IsDiag (x >>= f) := by
  obtain ⟨d, rfl⟩ := h
  exact ⟨d, rfl⟩

/-- `v[i]`. -/
def getIdx {α : Type} (l : List α) (i : Nat) : Except Fault α :=
  match l[i]? with
  | some a => .ok a
  | none => .error .panic

/-- `v[i] = a`. -/
def setIdx {α : Type} (l : List α) (i : Nat) (a : α) : Except Fault (List α) :=
  if i < l.length then .ok (l.set i a) else .error .panic

/-- `&buf[r.start..r.end]`. -/
def slice (buf : List UInt8) (r : Range) : Except Fault (List UInt8) :=
  if r.start ≤ r.stop ∧ r.stop ≤ buf.length then .ok ((buf.take r.stop).drop r.start)
  else .error .panic

theorem getIdx_of_lt {α : Type} {l : List α} {i : Nat} (h : i < l.length) :
    getIdx l i = .ok l[i] := by
  simp [getIdx, List.getElem?_eq_getElem h]

theorem getIdx_of_get? {α : Type} {l : List α} {i : Nat} {a : α} (h : l[i]? = some a) :
    getIdx l i = .ok a := by
  simp [getIdx, h]

theorem setIdx_of_lt {α : Type} {l : List α} {i : Nat} (h : i < l.length) (a : α) :
    setIdx l i a = .ok (l.set i a) := by
  simp [setIdx, h]

theorem stop_le_of_slice_eq_ok {buf bytes : List UInt8} {r : Range} (h : slice buf r = .ok bytes) :
    r.stop ≤ buf.length := by
  unfold slice at h
  split at h
  · omega
  · cases h

theorem slice_append_left {buf : List UInt8} {r : Range} (h : r.stop ≤ buf.length)
    (more : List UInt8) : slice (buf ++ more) r = slice buf r := by
  unfold slice
  have : r.stop ≤ (buf ++ more).length := by simp; omega
  simp only [this, h, and_true, List.take_append_of_le_length h]

theorem slice_append_right (buf bytes : List UInt8) :
    slice (buf ++ bytes) ⟨buf.length, buf.length + bytes.length⟩ = .ok bytes := by
  have : (buf ++ bytes).take (buf.length + bytes.length) = buf ++ bytes :=
    List.take_of_length_le (by simp)
  simp [slice, this]

/-! ## Interning variables, preparing steps -/

/-- `map_var`: the index of a variable, interned with a new empty `dv_map` row if it is new. -/
def mapVar (st : VerifyState) (token : Token) : VerifyState × Nat :=
  match st.var2bit.lookup token with
  | some ix => (st, ix)
  | none =>
    ({ st with var2bit := st.var2bit ++ [(token, st.var2bit.length)],
               dvMap := st.dvMap ++ [Bitset.new] }, st.var2bit.length)

/-- `for var in &frame.mandatory_vars { vars.set_bit(map_var(state, var)); }` -/
def mapVars : VerifyState → Bitset → List Token → VerifyState × Bitset
  | st, vars, [] => (st, vars)
  | st, vars, var :: rest => mapVars (mapVar st var).1 (vars.setBit (mapVar st var).2) rest

/-- The scope checks of `prepare_step`: the label's frame must start before the statement being
proved and, if its validity ends, the statement must be in the same segment before that end. -/
def checkScope (env : VerifyEnv) (label : Token) (valid : GlobalRange) : Except Fault Unit := do
  let pos := env.curFrame.valid.start
  if env.order pos valid.start != .gt then
    throw (.diag (.stepUsedBeforeDefinition label))
  if valid.stop != noStatement then
    if pos.segmentId != valid.start.segmentId || pos.index ≥ valid.stop then
      throw (.diag (.stepUsedAfterScope label))

/-- `prepare_step`: look the label up, check that it may be cited here, and append its step. -/
def prepareStep (env : VerifyEnv) (st : VerifyState) (label : Token) :
    Except Fault VerifyState := do
  let some frame := env.scoper label | throw (.diag (.stepMissing label))
  checkScope env label frame.valid
  if frame.stype = .axiomatic ∨ frame.stype = .provable then
    return { st with prepared := st.prepared ++ [.assert frame] }
  let (st, vars) := mapVars st Bitset.new frame.mandatoryVars
  let tos := st.prepBuffer.length
  let prepBuffer := st.prepBuffer ++ frame.stubExpr
  return { st with prepBuffer,
                   prepared := st.prepared ++ [.hyp vars frame.target.typecode ⟨tos, prepBuffer.length⟩] }

/-! ## Substitution -/

/-- `do_substitute`: the fragments, each variable replaced by its bytes in `var_buffer`. -/
def doSubstitute (vars : List Range) (varBuffer : List UInt8) :
    List ExprFragment → Except Fault (List UInt8)
  | [] => pure []
  | .var ix :: expr => do
    let r ← getIdx vars ix
    let bytes ← slice varBuffer r
    let rest ← doSubstitute vars varBuffer expr
    pure (bytes ++ rest)
  | .constant string :: expr => do
    let rest ← doSubstitute vars varBuffer expr
    pure (string ++ rest)

/-- `do_substitute_raw`: the fragments, variable `ix` replaced by `vars[ix]` and a space. -/
def doSubstituteRaw (vars : List Token) : List ExprFragment → Except Fault (List UInt8)
  | [] => pure []
  | .var ix :: expr => do
    let v ← getIdx vars ix
    let rest ← doSubstituteRaw vars expr
    pure (v ++ [space] ++ rest)
  | .constant string :: expr => do
    let rest ← doSubstituteRaw vars expr
    pure (string ++ rest)

/-- `do_substitute_vars`: the union of the variable sets of the variables of `expr`, or-ed
into `out`. -/
def doSubstituteVars (vars : List Bitset) : Bitset → List ExprFragment → Except Fault Bitset
  | out, [] => pure out
  | out, .var ix :: expr => do
    let v ← getIdx vars ix
    doSubstituteVars vars (out.bitorAssign v) expr
  | out, .constant _ :: expr => doSubstituteVars vars out expr

/-! ## Executing a step -/

/-- The `$f` loop of `execute_step`: type-check each floating hypothesis's slot and record its
variables and bytes as the substitution of the hypothesis's variable. -/
def checkFloats (stack : List StackSlot) (sbase : Nat) :
    Nat → List Hyp → List Bitset → List Range → Except Fault (List Bitset × List Range)
  | _, [], substVars, substExprs => pure (substVars, substExprs)
  | ix, hyp :: hyps, substVars, substExprs =>
    if hyp.isFloat then do
      let slot ← getIdx stack (sbase + ix)
      if slot.code != hyp.expr.typecode then throw (.diag .stepFloatWrongType)
      let substVars ← setIdx substVars hyp.variableIndex slot.vars
      let substExprs ← setIdx substExprs hyp.variableIndex slot.expr
      checkFloats stack sbase (ix + 1) hyps substVars substExprs
    else checkFloats stack sbase (ix + 1) hyps substVars substExprs

/-- The `$e` loop of `execute_step`: type-check each essential hypothesis's slot and compare its
bytes with the hypothesis under the substitution. -/
def checkEssentials (stack : List StackSlot) (stackBuffer : List UInt8) (substExprs : List Range)
    (sbase : Nat) : Nat → List Hyp → Except Fault Unit
  | _, [] => pure ()
  | ix, hyp :: hyps => do
    if !hyp.isFloat then
      let slot ← getIdx stack (sbase + ix)
      if slot.code != hyp.expr.typecode then throw (.diag .stepEssenWrongType)
      let temp ← doSubstitute substExprs stackBuffer hyp.expr.tail
      let bytes ← slice stackBuffer slot.expr
      if bytes != temp then throw (.diag .stepEssenWrong)
    checkEssentials stack stackBuffer substExprs sbase (ix + 1) hyps

/-- The `$d` loop of `execute_step`: every variable substituted for the first variable of a
mandatory pair must be `$d`-registered with every variable substituted for the second. -/
def checkDv (dvMap substVars : List Bitset) : List (Nat × Nat) → Except Fault Unit
  | [] => pure ()
  | (ix1, ix2) :: dvs => do
    let vars1 ← getIdx substVars ix1
    vars1.items.forM fun var1 => do
      let vars2 ← getIdx substVars ix2
      vars2.items.forM fun var2 => do
        let row ← getIdx dvMap var1
        if !row.hasBit var2 then throw (.diag .proofDvViolation)
    checkDv dvMap substVars dvs

/-- `execute_step` on an assertion: pop its hypotheses, check them, push its conclusion
under the substitution, then check its `$d` conditions. -/
def executeAssert (st : VerifyState) (fref : Frame) : Except Fault VerifyState := do
  if st.stack.length < fref.hypotheses.length then throw (.diag .proofUnderflow)
  let sbase := st.stack.length - fref.hypotheses.length
  let n := fref.mandatoryVars.length
  let (substVars, substExprs) ← checkFloats st.stack sbase 0 fref.hypotheses
    (List.replicate n Bitset.new) (List.replicate n ⟨0, 0⟩)
  checkEssentials st.stack st.stackBuffer substExprs sbase 0 fref.hypotheses
  let temp ← doSubstitute substExprs st.stackBuffer fref.target.tail
  let stack := st.stack.take sbase
  let newLen ← if sbase = 0 then pure 0 else do
    let top ← getIdx stack (sbase - 1)
    pure top.expr.stop
  let stackBuffer := st.stackBuffer.take newLen
  let tos := stackBuffer.length
  let stackBuffer := stackBuffer ++ temp
  let vars ← doSubstituteVars substVars Bitset.new fref.target.tail
  let st := { st with stack := stack ++ [⟨vars, fref.target.typecode, ⟨tos, stackBuffer.length⟩⟩],
                      stackBuffer }
  checkDv st.dvMap substVars fref.mandatoryDv
  return st

/-- `execute_step`: run prepared step `index`. -/
def executeStep (st : VerifyState) (index : Nat) : Except Fault VerifyState :=
  match st.prepared[index]? with
  | none => throw (.diag .stepOutOfRange)
  | some (.hyp vars code expr) => do
    let bytes ← slice st.prepBuffer expr
    let tos := st.stackBuffer.length
    let stackBuffer := st.stackBuffer ++ bytes
    return { st with stackBuffer,
                     stack := st.stack ++ [⟨vars, code, ⟨tos, stackBuffer.length⟩⟩] }
  | some (.assert fref) => executeAssert st fref

/-- `finalize_step`: the proof leaves exactly one slot, which holds the statement's expression. -/
def finalizeStep (env : VerifyEnv) (st : VerifyState) : Except Fault Unit :=
  match st.stack with
  | [] => throw (.diag .proofNoSteps)
  | [tos] => do
    if tos.code != env.curFrame.target.typecode then throw (.diag .proofWrongTypeEnd)
    let temp ← doSubstituteRaw env.curFrame.mandatoryVars env.curFrame.target.tail
    let bytes ← slice st.stackBuffer tos.expr
    if bytes != temp then throw (.diag .proofWrongExprEnd)
  | _ :: _ :: _ => throw (.diag .proofExcessEnd)

/-- `save_step`: append the top slot, copied to `prep_buffer`, as a new prepared step. -/
def saveStep (st : VerifyState) : Except Fault VerifyState := do
  let some top := st.stack.getLast? | throw .panic
  let bytes ← slice st.stackBuffer top.expr
  let tos := st.prepBuffer.length
  let prepBuffer := st.prepBuffer ++ bytes
  return { st with prepBuffer,
                   prepared := st.prepared ++ [.hyp top.vars top.code ⟨tos, prepBuffer.length⟩] }

end MetamathKnife.Verify
