import Reckoner.CommandLine
import Reckoner.Expression.Tree
import Reckoner.Main
import Reckoner.Recorder
import Reckoner.Proofs.Spelling
import Reckoner.Proofs.Precedence
import Reckoner.Proofs.Counting
import Reckoner.Proofs.ExactRounding
import Reckoner.Proofs.Infix
import Reckoner.Proofs.RoundedOnce
import Reckoner.Proofs.Storing
import Reckoner.Proofs.DoubleRounding
import Reckoner.Proofs.Kept
import Reckoner.Proofs.Likeness
import Reckoner.Proofs.ReadBack
import Reckoner.Proofs.Groups
import Reckoner.Proofs.Surroundings
import Reckoner.Proofs.Signs
import Reckoner.Proofs.SignedOperand
import Reckoner.Proofs.GroupValue
import Reckoner.Proofs.Reporting
import Reckoner.Proofs.Replay
import Reckoner.Proofs.Tiling
import Reckoner.Proofs.Held
import Reckoner.Proofs.ExactOperations
import Reckoner.Proofs.ExactLiterals
import Reckoner.Proofs.ExactEvaluation
import Reckoner.Proofs.Canonical
import Reckoner.Proofs.Diagnostics
import Reckoner.Proofs.Conversation
import Reckoner.Proofs.LastPlace
import Reckoner.Proofs.Underflow
import Reckoner.Proofs.RoundedOrder
import Reckoner.Proofs.StoredLiterals
import Reckoner.Proofs.Isolation
import Reckoner.Proofs.ClosedGroups
import Reckoner.Proofs.Representable
import Reckoner.Proofs.Neighbours
import Reckoner.Proofs.MostPlaces
import Reckoner.Proofs.SignKept
import Reckoner.Proofs.LiteralNumbers
import Reckoner.Proofs.Overflow
import Reckoner.Proofs.LimitedOutput
import Reckoner.Proofs.PlainText
import Reckoner.Proofs.ProductScale
import Reckoner.Proofs.Selection
import Reckoner.Proofs.MirrorImage
