import SessionPool.Journal.Setup
import SessionPool.Number
import SessionPool.Proofs.Books
import SessionPool.Rehearsal.Play
import SessionPool.Settings.Reader
import SessionPool.Settings.Writer
import SessionPool.Translation
import SessionPool.Proofs.Balance
import SessionPool.Proofs.Bookkeeping
import SessionPool.Proofs.Bookkeeping.Borrowing
import SessionPool.Proofs.Bookkeeping.Parting
import SessionPool.Proofs.Soundness
import SessionPool.Proofs.Closing
import SessionPool.Proofs.Conservation
import SessionPool.Proofs.References
import SessionPool.Proofs.Custody
import SessionPool.Proofs.Shutdown
import SessionPool.Proofs.Capacity
import SessionPool.Proofs.Happening
import SessionPool.Proofs.Treatment
import SessionPool.Proofs.Departure
import SessionPool.Proofs.Dealing
import SessionPool.Proofs.Wakefulness
import SessionPool.Proofs.Decline
import SessionPool.Proofs.Finality
import SessionPool.Proofs.Brokenness
import SessionPool.Proofs.Loans
import SessionPool.Proofs.Course
import SessionPool.Proofs.Account
import SessionPool.Proofs.Vacancy
import SessionPool.Proofs.Traceless
import SessionPool.Proofs.Arrivals
import SessionPool.Proofs.Lifecycle
import SessionPool.Proofs.Borrows
import SessionPool.Proofs.Delivery
import SessionPool.Proofs.Discharge
import SessionPool.Proofs.Sessions
import SessionPool.Proofs.LeaseConservation
import SessionPool.Proofs.Assignments
import SessionPool.Proofs.Reuse
import SessionPool.Proofs.RoundTrip
import SessionPool.Proofs.Moves
import SessionPool.Proofs.Pinging
import SessionPool.Proofs.Dismissal
import SessionPool.Proofs.Upkeep
import SessionPool.Proofs.Precedence
import SessionPool.Proofs.Phrases
import SessionPool.Proofs.Respacing
import SessionPool.Proofs.Stocking
import SessionPool.Proofs.Ranges
import SessionPool.Proofs.Aftermath
import SessionPool.Proofs.Duties
import SessionPool.Proofs.Pulse
import SessionPool.Proofs.Workers
import SessionPool.Proofs.Rounds
import SessionPool.Proofs.Timekeeping
import SessionPool.Proofs.Overlap
import SessionPool.Proofs.Seclusion
import SessionPool.Proofs.Provision
