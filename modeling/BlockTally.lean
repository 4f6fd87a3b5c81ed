import BlockTally.Findings.Totals
import BlockTally.Main
import BlockTally.Proofs.Code.Built
import BlockTally.Proofs.Code.Building
import BlockTally.Proofs.Code.Insertion
import BlockTally.Proofs.Code.Symbols
import BlockTally.Proofs.Code.Values
import BlockTally.Proofs.Command.Outcome
import BlockTally.Proofs.Listing.Restored
import BlockTally.Proofs.Listing.RoundTrip
import BlockTally.Proofs.Listing.SingleAssignment
import BlockTally.Proofs.Tally.Counted
import BlockTally.Proofs.Tally.Effect
import BlockTally.Proofs.Tally.Verified
import BlockTally.Proofs.Listing.Extents
import BlockTally.Proofs.Findings.Counted
import BlockTally.Proofs.Lawful
import BlockTally.Proofs.Tally.Refused
import BlockTally.Proofs.Listing.Renumbered
import BlockTally.Proofs.Listing.Sections
import BlockTally.Proofs.Listing.Relaid
import BlockTally.Proofs.Listing.Carried
import BlockTally.Proofs.Tally.Relisted
import BlockTally.Proofs.Tally.Recounted
import BlockTally.Proofs.Passes
import BlockTally.Proofs.Findings.Exact
import BlockTally.Proofs.Findings.Listed
import BlockTally.Proofs.Wellformed.Warnings
import BlockTally.Proofs.Listing.Pointed
import BlockTally.Proofs.Listing.Covered
import BlockTally.Proofs.Listing.Names
import BlockTally.Proofs.Listing.Cuts
import BlockTally.Proofs.Listing.Located
import BlockTally.Proofs.Listing.Advancing
import BlockTally.Proofs.Listing.Outcome
