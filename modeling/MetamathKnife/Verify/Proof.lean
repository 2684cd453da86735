import MetamathKnife.Verify.State

/-!
# `verify_proof`

The driver: register the current frame's optional `$d` pairs, then read the proof, compressed
(`( labels ) steps`) or not (a label per step), and finish with `finalize_step`.

A compressed proof's steps are read character by character by `decodeByte`, whose state is the
number `k` being read and the flag `can_save`: `A`..`T` ends a number (base 20) and runs the
step it names, `U`..`Y` continue one (bijective base 5), `Z` saves the last step's result, `?`
marks the proof unfinished, and every other byte is passed over. The loops over proof tokens
recurse on the tokens left, the source's index `i` being the number already read.
-/

namespace MetamathKnife.Verify

/-- `dv_map[ix].set_bit(bit)`. -/
def setDvBit (dvMap : List Bitset) (ix bit : Nat) : Except Fault (List Bitset) := do
  let row ← getIdx dvMap ix
  setIdx dvMap ix (row.setBit bit)

/-- The registration of the current frame's optional `$d` pairs, both ways. -/
def registerDv : VerifyState → List (Token × Token) → Except Fault VerifyState
  | st, [] => pure st
  | st, (var1, var2) :: dvs => do
    let (st, ix1) := mapVar st var1
    let (st, ix2) := mapVar st var2
    let dvMap ← setDvBit st.dvMap ix1 ix2
    let dvMap ← setDvBit dvMap ix2 ix1
    registerDv { st with dvMap } dvs

/-- `for h in &cur_frame.hypotheses { prepare_step(&mut state, &h.label)? }` -/
def prepareAll (env : VerifyEnv) : VerifyState → List Token → Except Fault VerifyState
  | st, [] => pure st
  | st, label :: labels => do
    let st ← prepareStep env st label
    prepareAll env st labels

/-- The roster loop: prepare each label up to `)`; the tokens after it are returned. -/
def readRoster (env : VerifyEnv) : List Token → VerifyState →
    Except Fault (List Token × VerifyState)
  | [], _ => throw (.diag .proofUnterminatedRoster)
  | chunk :: rest, st =>
    if chunk = closeParen then pure (rest, st) else do
      let st ← prepareStep env st chunk
      readRoster env rest st

/-- `u32::max_value()`. -/
def u32Max : Nat := 4294967295

/-- The compressed-step decoder's state: `k`, `can_save`, and the verifier's state. -/
structure Decoder where
  k : Nat
  canSave : Bool
  state : VerifyState

/-- One byte of the step string. -/
def decodeByte (d : Decoder) (ch : UInt8) : Except Fault Decoder :=
  if 'A'.toUInt8 ≤ ch ∧ ch ≤ 'T'.toUInt8 then do
    let k := d.k * 20 + (ch - 'A'.toUInt8).toNat
    let st ← executeStep d.state k
    pure ⟨0, true, st⟩
  else if 'U'.toUInt8 ≤ ch ∧ ch ≤ 'Y'.toUInt8 then
    let k := d.k * 5 + 1 + (ch - 'U'.toUInt8).toNat
    if k ≥ u32Max / 20 - 1 then throw (.diag .proofMalformedVarint)
    else pure ⟨k, false, d.state⟩
  else if ch = 'Z'.toUInt8 then
    if !d.canSave then throw (.diag .proofInvalidSave)
    else do
      let st ← saveStep d.state
      pure ⟨d.k, false, st⟩
  else if ch = '?'.toUInt8 then
    if d.k > 0 then throw (.diag .proofMalformedVarint) else throw (.diag .proofIncomplete)
  else pure d

/-- `for &ch in chunk { ... }` -/
def decodeChunk : Decoder → List UInt8 → Except Fault Decoder
  | d, [] => pure d
  | d, ch :: chunk => do
    let d ← decodeByte d ch
    decodeChunk d chunk

/-- `while i < stmt.proof_len() { ... }` over the step string's chunks. -/
def decodeChunks : Decoder → List Token → Except Fault Decoder
  | d, [] => pure d
  | d, chunk :: chunks => do
    let d ← decodeChunk d chunk
    decodeChunks d chunks

/-- The compressed branch, from the tokens after `(`. -/
def verifyCompressed (env : VerifyEnv) (st : VerifyState) (proof : List Token) :
    Except Fault VerifyState := do
  let st ← prepareAll env st (env.curFrame.hypotheses.map Hyp.label)
  let (chunks, st) ← readRoster env proof st
  let d ← decodeChunks ⟨0, false, st⟩ chunks
  if d.k > 0 then throw (.diag .proofMalformedVarint)
  pure d.state

/-- The uncompressed branch: each label prepared, then run by its index `count`. -/
def verifyUncompressed (env : VerifyEnv) : List Token → Nat → VerifyState →
    Except Fault VerifyState
  | [], _, st => pure st
  | chunk :: rest, count, st =>
    if chunk = questionMark then throw (.diag .proofIncomplete) else do
      let st ← prepareStep env st chunk
      let st ← executeStep st count
      verifyUncompressed env rest (count + 1) st

/-- `verify_proof`: `.ok ()` is the source's `None`. -/
def verifyProof (order : SegmentOrder) (scopes : ScopeReader) (stmt : StatementRef) :
    Except Fault Unit := do
  if stmt.stype != .provable then return ()
  let some curFrame := scopes stmt.label | return ()
  let env : VerifyEnv := ⟨order, scopes, curFrame⟩
  let st ← registerDv VerifyState.empty curFrame.optionalDv
  let first ← stmt.proofSliceAt 0
  let st ← if first = openParen then verifyCompressed env st (stmt.proof.drop 1)
    else verifyUncompressed env stmt.proof 0 st
  finalizeStep env st

end MetamathKnife.Verify
