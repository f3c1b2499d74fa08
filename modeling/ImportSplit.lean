import ImportSplit.CommandLine
import ImportSplit.Proofs.Bindings
import ImportSplit.Proofs.Boundaries
import ImportSplit.Proofs.Collecting
import ImportSplit.Proofs.CookedNames
import ImportSplit.Proofs.FixedText
import ImportSplit.Proofs.HandleUses
import ImportSplit.Proofs.Histories
import ImportSplit.Proofs.Hoisting
import ImportSplit.Proofs.Logs
import ImportSplit.Proofs.Meaning
import ImportSplit.Proofs.Modes
import ImportSplit.Proofs.Prologue
import ImportSplit.Proofs.Remaining
import ImportSplit.Proofs.SettingsText
import ImportSplit.Proofs.Shadowing
import ImportSplit.Proofs.Spans
import ImportSplit.Proofs.Texts
import ImportSplit.Proofs.Visits
import ImportSplit.Proofs.WatchLists
import ImportSplit.Proofs.WrittenAccesses
import ImportSplit.Proofs.WrittenImports
