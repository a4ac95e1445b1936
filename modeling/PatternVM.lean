import PatternVM.ByteSet.Basic
import PatternVM.ByteSet.Edit
import PatternVM.ByteSet.Ranges
import PatternVM.Fault
import PatternVM.Instr
import PatternVM.Listing.Bracketed
import PatternVM.Listing.Event
import PatternVM.Listing.Numeral
import PatternVM.Listing.Program
import PatternVM.Listing.Quoted
import PatternVM.Machine.Event
import PatternVM.Machine.Move
import PatternVM.Machine.Run
import PatternVM.Machine.Token
import PatternVM.Matcher.Basic
import PatternVM.Matcher.Config
import PatternVM.Matcher.Pool
import PatternVM.Program.Assembly
import PatternVM.Program.Basic
import PatternVM.Session.Basic
import PatternVM.Session.Command
import PatternVM.Session.Names
import PatternVM.Stack.Choice
import PatternVM.Stack.Growth
import PatternVM.Stack.Mark
import PatternVM.Text.Basic
import PatternVM.Text.Search
import PatternVM.Thread
import PatternVM.Proofs.Stack.Guarded
import PatternVM.Proofs.Stack.Links
import PatternVM.Proofs.Stack.Persistence
import PatternVM.Proofs.Text.Guarded
import PatternVM.Proofs.Text.Occurrence
import PatternVM.Proofs.Search.Agenda
import PatternVM.Proofs.Search.Alternatives
import PatternVM.Proofs.Search.Evaluation
import PatternVM.Proofs.Search.Steps
import PatternVM.Proofs.Search.Reachability
import PatternVM.Proofs.Search.Termination
import PatternVM.Proofs.Program.Flow
import PatternVM.Proofs.Search.Visits
import PatternVM.Proofs.Search.Reached
import PatternVM.Proofs.Search.Corruption
import PatternVM.Proofs.Search.Bounds
import PatternVM.Proofs.Matcher.Isolation
import PatternVM.Proofs.Search.Counters
import PatternVM.Proofs.Search.LookAhead
import PatternVM.Proofs.Search.Preference
import PatternVM.Proofs.Matcher.Limit
import PatternVM.Proofs.Matcher.FastPath
import PatternVM.Proofs.Search.Surroundings
import PatternVM.Proofs.Program.Expansion
import PatternVM.Proofs.Program.Assembly
import PatternVM.Proofs.Search.Blocks
import PatternVM.Proofs.Search.Expansion
import PatternVM.Proofs.Search.EndFlag
import PatternVM.Proofs.Search.Spelling
import PatternVM.Proofs.Listing.Delimited
import PatternVM.Proofs.Listing.Quoted
import PatternVM.Proofs.ByteSet.Ranges
import PatternVM.Proofs.Listing.Bracketed
import PatternVM.Proofs.Listing.Numeral
import PatternVM.Proofs.Listing.Program
import PatternVM.Proofs.Matcher.Lending
import PatternVM.Proofs.Session.Effects
import PatternVM.Proofs.Session.Sites
import PatternVM.Proofs.Session.Provenance
import PatternVM.Proofs.Search.Deferrals
import PatternVM.Proofs.Stack.Room
import PatternVM.Proofs.Stack.FreeUse
import PatternVM.Proofs.Stack.History
import PatternVM.Proofs.ByteSet.Members
import PatternVM.Proofs.ByteSet.Words
import PatternVM.Proofs.ByteSet.Decomposition
import PatternVM.Proofs.Matcher.Storage
import PatternVM.Proofs.Matcher.Tracing
import PatternVM.Proofs.Search.Advance
import PatternVM.Proofs.Text.Scan
import PatternVM.Proofs.Search.Peak
import PatternVM.Proofs.Search.Repetition
