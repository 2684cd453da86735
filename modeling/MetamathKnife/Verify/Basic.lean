import MetamathKnife.Bitset

/-!
# What the proof verifier reads

`verify.rs` reads statements from the parser, frames from the scope analyzer and returns the
diagnostics of `diag`; none of these modules is among the repository's files here. This module
declares them as the verifier sees them, with the fields `verify.rs` reads and no others: a token
is its bytes, a statement its type, label and proof tokens, a frame what `scopeck` computed for a
statement (hypotheses, mandatory variables, `$d` pairs, target, validity range).

How a verifier function ends is an `Except Fault`: a value, a diagnostic (the source returns
`Some(diag)`), or a panic (an index out of range, a failed `expect`, or a read of a proof token
past `proof_len()`).
-/

namespace MetamathKnife.Verify

/-- `TokenPtr`: the bytes of a token. -/
abbrev Token := List UInt8

/-- `b"("`. -/
def openParen : Token := ['('.toUInt8]

/-- `b")"`. -/
def closeParen : Token := [')'.toUInt8]

/-- `b"?"`. -/
def questionMark : Token := ['?'.toUInt8]

/-- `b' '`. -/
def space : UInt8 := ' '.toUInt8

/-- The diagnostics `verify.rs` returns. -/
inductive Diagnostic
  | stepMissing (label : Token)
  | stepUsedBeforeDefinition (label : Token)
  | stepUsedAfterScope (label : Token)
  | stepOutOfRange
  | proofUnderflow
  | stepFloatWrongType
  | stepEssenWrongType
  | stepEssenWrong
  | proofDvViolation
  | proofNoSteps
  | proofExcessEnd
  | proofWrongTypeEnd
  | proofWrongExprEnd
  | proofUnterminatedRoster
  | proofMalformedVarint
  | proofInvalidSave
  | proofIncomplete
  deriving DecidableEq, Repr

/-- How a verifier function ends when it does not return normally. -/
inductive Fault
  /-- It returns `Some(d)`. -/
  | diag (d : Diagnostic)
  /-- It panics. -/
  | panic
  deriving DecidableEq, Repr

/-- `StatementType`: the kinds with frames, the rest alike to the verifier. -/
inductive StatementType
  | floating
  | essential
  /-- `Axiom` (a keyword in Lean). -/
  | axiomatic
  | provable
  /-- Comments, `$c`, `$v`, `$d`, scoping and the other statements without a frame. -/
  | other
  deriving DecidableEq, Repr

/-- `StatementAddress`: a segment and a statement index in it. -/
structure StatementAddress where
  segmentId : Nat
  index : Int
  deriving DecidableEq, Repr

/-- `NO_STATEMENT`, the end of a validity range that does not end. -/
def noStatement : Int := -1

/-- `GlobalRange`: where a frame's label may be cited; `stop` is the source's `end`. -/
structure GlobalRange where
  start : StatementAddress
  stop : Int
  deriving DecidableEq, Repr

/-- `ExprFragment`: a mandatory variable by its index, or the bytes of constant tokens. -/
inductive ExprFragment
  | var (ix : Nat)
  | constant (bytes : List UInt8)
  deriving DecidableEq, Repr

/-- `VerifyExpr`: a typecode and the fragments of the expression after it. -/
structure VerifyExpr where
  typecode : Token
  tail : List ExprFragment
  deriving DecidableEq, Repr

/-- `scopeck::Hyp`: a hypothesis of a frame. -/
structure Hyp where
  label : Token
  isFloat : Bool
  variableIndex : Nat
  expr : VerifyExpr
  deriving DecidableEq, Repr

/-- `Frame`: what the scope analyzer computed for a statement. -/
structure Frame where
  stype : StatementType
  valid : GlobalRange
  hypotheses : List Hyp
  target : VerifyExpr
  stubExpr : List UInt8
  mandatoryVars : List Token
  mandatoryDv : List (Nat × Nat)
  optionalDv : List (Token × Token)
  deriving DecidableEq, Repr

/-- `SegmentOrder::cmp`, the order of statement positions. -/
abbrev SegmentOrder := StatementAddress → StatementAddress → Ordering

/-- `ScopeReader::get`: the frame of a label. -/
abbrev ScopeReader := Token → Option Frame

/-- `StatementRef`, by what `verify_proof` reads of it. -/
structure StatementRef where
  stype : StatementType
  label : Token
  proof : List Token
  deriving DecidableEq, Repr

/-- Modelled from the spec: `proof_slice_at(i)`, the proof's token `i` (the parser's
`StatementRef` is not among the sources). A read past `proof_len()` is modelled as a panic; the
parser's read indexes the segment's pool of token spans with no check against the statement's
length, so past the end of a proof it reads the tokens that follow in the segment, and panics
only past the end of the pool. -/
def StatementRef.proofSliceAt (stmt : StatementRef) (i : Nat) : Except Fault Token :=
  match stmt.proof[i]? with
  | some t => .ok t
  | none => .error .panic

end MetamathKnife.Verify
