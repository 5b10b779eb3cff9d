import RuleDesk.Catalog.Read
import RuleDesk.Lsp.Session
import RuleDesk.Catalog.Builtin
import RuleDesk.Proofs.Analysis.Orders
import RuleDesk.Proofs.Analysis.Quiet
import RuleDesk.Proofs.Analysis.Phases
import RuleDesk.Proofs.Analysis.Compilations
import RuleDesk.Proofs.Analysis.Opened
import RuleDesk.Proofs.Lexing.Restarts
import RuleDesk.Proofs.Parsing.Resume
import RuleDesk.Proofs.Parsing.Inserted
import RuleDesk.Proofs.Parsing.Origins
import RuleDesk.Proofs.Parsing.DeepReports
import RuleDesk.Proofs.Parsing.Joined
import RuleDesk.Proofs.Parsing.Written
import RuleDesk.Proofs.Parsing.FileFrames
import RuleDesk.Proofs.Indexing.References
import RuleDesk.Proofs.Indexing.RuleTable
import RuleDesk.Proofs.Editing.RenamePattern
import RuleDesk.Proofs.Parsing.HexReads
import RuleDesk.Proofs.Editing.LinePositions
import RuleDesk.Proofs.Indexing.LoopScopes
import RuleDesk.Proofs.Indexing.WellFormed
import RuleDesk.Proofs.Parsing.Commented
import RuleDesk.Proofs.Editing.Completion
import RuleDesk.Proofs.Parsing.Discarded
import RuleDesk.Proofs.Parsing.Calls
import RuleDesk.Proofs.Compiler.MessagePlaces
import RuleDesk.Proofs.Catalog.Paths
import RuleDesk.Proofs.Editing.MemberPaths
import RuleDesk.Proofs.Editing.ValidNames
import RuleDesk.Proofs.Parsing.IntegerValues
import RuleDesk.Proofs.Layout.Steady
