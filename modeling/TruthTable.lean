import TruthTable.Formula.Stack
import TruthTable.Proofs.Counting
import TruthTable.Proofs.DepthCounter
import TruthTable.Proofs.FaultPlaces
import TruthTable.Proofs.FirstOccurrences
import TruthTable.Proofs.Histories
import TruthTable.Proofs.MarkedRows
import TruthTable.Proofs.Notes
import TruthTable.Proofs.Picture
import TruthTable.Proofs.Progress
import TruthTable.Proofs.Renaming
import TruthTable.Proofs.Rereading
import TruthTable.Proofs.Restoring
import TruthTable.Proofs.Shortest
import TruthTable.Proofs.Spacing
import TruthTable.Proofs.TailColumns
