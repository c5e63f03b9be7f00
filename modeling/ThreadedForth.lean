import ThreadedForth.Main
import ThreadedForth.Proofs.Balance
import ThreadedForth.Proofs.Compilation
import ThreadedForth.Proofs.Factory
import ThreadedForth.Proofs.AppendOnly
import ThreadedForth.Proofs.Termination
import ThreadedForth.Proofs.Binding
import ThreadedForth.Proofs.Spelling
import ThreadedForth.Proofs.Below
import ThreadedForth.Proofs.Avoidance
import ThreadedForth.Proofs.Prelude
import ThreadedForth.Proofs.Keeping
import ThreadedForth.Proofs.Constant
import ThreadedForth.Proofs.Accounts
import ThreadedForth.Proofs.Registry
import ThreadedForth.Proofs.Leftovers
import ThreadedForth.Proofs.Capacity
import ThreadedForth.Proofs.Arity
import ThreadedForth.Proofs.Reentry
import ThreadedForth.Proofs.Recovery
import ThreadedForth.Proofs.Bodies
import ThreadedForth.Proofs.Failing
import ThreadedForth.Proofs.Placement
import ThreadedForth.Proofs.Closing
import ThreadedForth.Proofs.Abandonment
import ThreadedForth.Proofs.Importing
import ThreadedForth.Proofs.Nesting
import ThreadedForth.Proofs.Rotation
import ThreadedForth.Proofs.Refusal
