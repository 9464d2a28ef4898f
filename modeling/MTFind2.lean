import MTFind2.Lib.Run
import MTFind2.Spec.Service
import MTFind2.Proof.Termination
import MTFind2.Proof.CaseFold
import MTFind2.Proof.Context
import MTFind2.Proof.Enumeration
import MTFind2.Proof.Billing
import MTFind2.Proof.LongLines
import MTFind2.Proof.SemaphoreLocks
import MTFind2.Proof.NotUsingCredit
import MTFind2.Proof.Accounting
import MTFind2.Proof.CreditBounds
import MTFind2.Proof.Atomicity
import MTFind2.Proof.Deadlock
import MTFind2.Proof.Isolation
import MTFind2.Proof.Proxy
import MTFind2.Proof.Lifecycle
import MTFind2.Proof.NoResults
import MTFind2.Proof.QueryEnds
import MTFind2.Proof.Refusal
import MTFind2.Proof.Desk
import MTFind2.Proof.Fairness
import MTFind2.Proof.CreditRaces
import MTFind2.Proof.Crew
import MTFind2.Proof.Printing
import MTFind2.Proof.Findable
