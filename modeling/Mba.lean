import Mba.Main
import Mba.Random.Script
import Mba.Proofs.Listing.Scanning
import Mba.Proofs.Mutation.Behaviour
import Mba.Proofs.Listing.Rendering
import Mba.Proofs.Program.Copy
import Mba.Proofs.Listing.Printing
import Mba.Proofs.Listing.Rebuilding
import Mba.Proofs.Listing.Loading
import Mba.Proofs.Task
import Mba.Proofs.Store.Uses
import Mba.Proofs.Mutation.Refinement
import Mba.Proofs.Listing.NormalForm
import Mba.Proofs.Program.Frame
import Mba.Proofs.Program.Appended
import Mba.Proofs.Listing.Acceptance
import Mba.Proofs.Program.Calls
import Mba.Proofs.Listing.RoundTrip
import Mba.Proofs.Mutation.Code
import Mba.Proofs.Mutation.Isolation
import Mba.Proofs.Mutation.Plan
import Mba.Proofs.Store.Placement
import Mba.Proofs.Mutation.Order
import Mba.Proofs.Mutation.Removal
import Mba.Proofs.Mutation.Atomicity
import Mba.Proofs.Listing.Insulation
import Mba.Proofs.Rounds
import Mba.Proofs.Checking
import Mba.Proofs.Program.Strays
import Mba.Proofs.Program.Visibility
import Mba.Proofs.Program.Insertions
import Mba.Proofs.Listing.Variants
import Mba.Proofs.Listing.Refusals
import Mba.Proofs.Listing.Constants
import Mba.Proofs.Listing.Annotations
import Mba.Proofs.Listing.Restyling
import Mba.Proofs.Mutation.Faults
import Mba.Proofs.Births
