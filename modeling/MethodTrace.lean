import MethodTrace.Main
import MethodTrace.Scenario.Run
import MethodTrace.Proofs.Effect
import MethodTrace.Proofs.Footprint
import MethodTrace.Proofs.Machine
import MethodTrace.Proofs.Gate
import MethodTrace.Proofs.Progress
import MethodTrace.Proofs.Scribe
import MethodTrace.Proofs.Rooted
import MethodTrace.Proofs.Level
import MethodTrace.Proofs.Nesting
import MethodTrace.Proofs.Membership
import MethodTrace.Proofs.Turn
import MethodTrace.Proofs.Writing
import MethodTrace.Proofs.Orderly
import MethodTrace.Proofs.Solo
import MethodTrace.Proofs.View
import MethodTrace.Proofs.Sight
import MethodTrace.Proofs.Course
import MethodTrace.Proofs.Room
import MethodTrace.Proofs.AnyOrder
import MethodTrace.Proofs.NestedRuns
import MethodTrace.Proofs.Posting
import MethodTrace.Proofs.Flow
import MethodTrace.Proofs.Chronicle
import MethodTrace.Proofs.Window
import MethodTrace.Proofs.Books
import MethodTrace.Proofs.Seating
import MethodTrace.Proofs.Remembrance
import MethodTrace.Proofs.Attribution
import MethodTrace.Proofs.Admission
import MethodTrace.Proofs.Undivided
import MethodTrace.Proofs.Outcome
import MethodTrace.Proofs.Forgetting
import MethodTrace.Proofs.Fleet
import MethodTrace.Proofs.Echo
import MethodTrace.Proofs.EchoCall
import MethodTrace.Proofs.FreshStart
import MethodTrace.Proofs.Holding
import MethodTrace.Proofs.Reentry
import MethodTrace.Proofs.Herald
import MethodTrace.Proofs.Race
import MethodTrace.Proofs.Exclusion
import MethodTrace.Proofs.Bookkeeping
import MethodTrace.Proofs.Sifting
import MethodTrace.Proofs.Lone
import MethodTrace.Proofs.Alone
import MethodTrace.Proofs.Interference
import MethodTrace.Proofs.Codec
import MethodTrace.Proofs.Slices
import MethodTrace.Proofs.Tracks
import MethodTrace.Proofs.Recording
import MethodTrace.Proofs.Export
import MethodTrace.Proofs.Ledger
import MethodTrace.Proofs.Barrier
import MethodTrace.Proofs.Guards
import MethodTrace.Proofs.Standstill
import MethodTrace.Proofs.Refused
import MethodTrace.Proofs.Methods
import MethodTrace.Proofs.Marking
import MethodTrace.Proofs.Poise
import MethodTrace.Proofs.Invocations
import MethodTrace.Proofs.Ahead
import MethodTrace.Proofs.Silent
import MethodTrace.Proofs.Genuine
import MethodTrace.Proofs.Intake
import MethodTrace.Proofs.Shift
import MethodTrace.Proofs.Edits
import MethodTrace.Proofs.Alarm
import MethodTrace.Proofs.Spelling
import MethodTrace.Proofs.WrittenSettings
import MethodTrace.Proofs.Overrides
import MethodTrace.Proofs.Batches
import MethodTrace.Proofs.Rounds
import MethodTrace.Proofs.Schedule
import MethodTrace.Proofs.Refusals
import MethodTrace.Proofs.Marks
import MethodTrace.Proofs.Totals
