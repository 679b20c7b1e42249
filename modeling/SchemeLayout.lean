import SchemeLayout.Editor.Session
import SchemeLayout.Main
import SchemeLayout.Form.CheckedScan
import SchemeLayout.Proofs.ColumnSums
import SchemeLayout.Proofs.Idempotence
import SchemeLayout.Proofs.CanonicalForm
import SchemeLayout.Proofs.LineColumns
import SchemeLayout.Proofs.Nesting
import SchemeLayout.Proofs.AlteredAtoms
import SchemeLayout.Proofs.SiblingOrder
import SchemeLayout.Proofs.AnchorMoves
import SchemeLayout.Proofs.LineBreak
import SchemeLayout.Proofs.PassSafety
import SchemeLayout.Proofs.LineIndex
import SchemeLayout.Proofs.SymbolOverrides
import SchemeLayout.Proofs.ArgumentOrder
import SchemeLayout.Proofs.BracketPairs
import SchemeLayout.Proofs.BackwardForms
import SchemeLayout.Proofs.CommentLines
import SchemeLayout.Proofs.CheckOption
import SchemeLayout.Proofs.ResumedScans
import SchemeLayout.Proofs.CharacterColumns
