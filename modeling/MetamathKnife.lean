import MetamathKnife.Bitset
import MetamathKnife.Verify.Basic
import MetamathKnife.Verify.State
import MetamathKnife.Verify.Proof
import MetamathKnife.Verify.Reference
import MetamathKnife.Verify.Invariant
import MetamathKnife.Verify.Substitution
import MetamathKnife.Verify.Simulation
import MetamathKnife.Verify.Uncompressed
import MetamathKnife.Verify.Decoder
import MetamathKnife.Verify.Compressed
import MetamathKnife.Verify.Safety
import MetamathKnife.Verify.Reachable
import MetamathKnife.Verify.Driver
import MetamathKnife.Formula.Term
import MetamathKnife.Formula.Tree
import MetamathKnife.Formula.Builder
import MetamathKnife.Formula.Substitute
import MetamathKnife.Formula.Equality
import MetamathKnife.Formula.StackBuffer
import MetamathKnife.Formula.Labels
import MetamathKnife.Formula.Flatten
import MetamathKnife.Formula.SyntaxProof
import MetamathKnife.Formula.Render
import MetamathKnife.Formula.Unify
import MetamathKnife.Formula.Complete
import MetamathKnife.SpellCheck
