import TarGuard.Main
import TarGuard.Proofs.PathTo
import TarGuard.Proofs.Pieces
import TarGuard.Proofs.NormalForm
import TarGuard.Proofs.Grammar
import TarGuard.Proofs.Normal
import TarGuard.Proofs.Growth
import TarGuard.Proofs.Leads
import TarGuard.Proofs.Ends
import TarGuard.Proofs.SecureDirectory
import TarGuard.Proofs.OutputFile
import TarGuard.Proofs.Reading
import TarGuard.Proofs.Cursor
import TarGuard.Proofs.Digits
import TarGuard.Proofs.Octal
import TarGuard.Proofs.HeaderSize
import TarGuard.Proofs.Entry
import TarGuard.Proofs.Record
import TarGuard.Proofs.Records
import TarGuard.Proofs.Destination
import TarGuard.Proofs.Confinement
import TarGuard.Proofs.Atomicity
import TarGuard.Proofs.Effect
import TarGuard.Proofs.Steps
import TarGuard.Proofs.Phases
import TarGuard.Proofs.Points
import TarGuard.Proofs.Budget
import TarGuard.Proofs.Moments
import TarGuard.Proofs.Agreement
import TarGuard.Proofs.Schedule
import TarGuard.Proofs.Taken
import TarGuard.Proofs.Fields
import TarGuard.Proofs.Codec
import TarGuard.Proofs.Encoding
import TarGuard.Proofs.Contents
import TarGuard.Proofs.Listing
import TarGuard.Proofs.Clearance
import TarGuard.Proofs.Admission
import TarGuard.Proofs.Below
import TarGuard.Proofs.Resolution
import TarGuard.Proofs.PathSize
import TarGuard.Proofs.Faults
import TarGuard.Proofs.Success
import TarGuard.Proofs.Suitability
import TarGuard.Proofs.Vacancy
import TarGuard.Proofs.Completeness
import TarGuard.Proofs.Order
import TarGuard.Proofs.Truncation
import TarGuard.Proofs.Consistency
import TarGuard.Proofs.Cancellation
import TarGuard.Proofs.Concatenation
import TarGuard.Proofs.Joining
import TarGuard.Proofs.Joined
import TarGuard.Proofs.Metadata
import TarGuard.Proofs.Executable
import TarGuard.Proofs.Program
import TarGuard.Proofs.EndMark
import TarGuard.Proofs.Decoding
import TarGuard.Proofs.Detection
import TarGuard.Proofs.Writing
import TarGuard.Proofs.Packing
import TarGuard.Proofs.Restoration
import TarGuard.Proofs.Leniency
import TarGuard.Proofs.Repetition
import TarGuard.Proofs.Prefixes
import TarGuard.Proofs.StoredNames
import TarGuard.Proofs.Moves
import TarGuard.Proofs.Descent
import TarGuard.Proofs.Levels
import TarGuard.Proofs.Corruption
import TarGuard.Proofs.Plainness
import TarGuard.Proofs.AllOrNothing
import TarGuard.Proofs.Promptness
import TarGuard.Proofs.Normalization
import TarGuard.Proofs.Replies
import TarGuard.Proofs.Relative
import TarGuard.Proofs.Decoded
import TarGuard.Proofs.Environment
import TarGuard.Proofs.Printing
import TarGuard.Proofs.Handle
