import PositionalRecord.Decimal.Reader
import PositionalRecord.Record.Traverse
import PositionalRecord.Record.Words
import PositionalRecord.Routine
import PositionalRecord.Suspended
import PositionalRecord.Proofs.Overwrites
import PositionalRecord.Proofs.Rows
import PositionalRecord.Proofs.Pending
import PositionalRecord.Proofs.Records
import PositionalRecord.Proofs.Edits
import PositionalRecord.Proofs.Reached
import PositionalRecord.Proofs.Changes
import PositionalRecord.Proofs.CallerTerms
import PositionalRecord.Proofs.FirstStop
import PositionalRecord.Proofs.Polling
import PositionalRecord.Proofs.Callbacks
import PositionalRecord.Proofs.Schedules
import PositionalRecord.Proofs.Synchrony
import PositionalRecord.Proofs.Congruence
import PositionalRecord.Proofs.Contents
import PositionalRecord.Proofs.Equivalence
import PositionalRecord.Proofs.Appearance
import PositionalRecord.Proofs.Rebuilding
import PositionalRecord.Proofs.Naturality
import PositionalRecord.Proofs.CurrentFields
import PositionalRecord.Proofs.PlainAndEffectful
import PositionalRecord.Proofs.Fusion
import PositionalRecord.Proofs.Pairing
import PositionalRecord.Proofs.LastWrites
import PositionalRecord.Proofs.Reindexing
import PositionalRecord.Proofs.Projections
import PositionalRecord.Proofs.Bookkeeping
import PositionalRecord.Proofs.WordPositions
