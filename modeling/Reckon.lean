import Reckon.Position
import Reckon.Token
import Reckon.Token.Scan
import Reckon.Token.Cursor
import Reckon.Token.Stream
import Reckon.Tree
import Reckon.Tree.Drawing
import Reckon.Fault
import Reckon.Parser.State
import Reckon.Parser
import Reckon.Parser.Progress
import Reckon.Number.Binary64
import Reckon.Number.Decimal
import Reckon.Number.Literal
import Reckon.Value
import Reckon.Symbols
import Reckon.Symbols.Builtin
import Reckon.Evaluation
import Reckon.Console.Input
import Reckon.Console.Arguments
import Reckon.Console.Session
import Reckon.Main
import Reckon.Proofs.Reading
import Reckon.Proofs.Outcome
import Reckon.Proofs.Restoring
import Reckon.Proofs.Descent
import Reckon.Proofs.Lookahead
import Reckon.Proofs.Phrase
import Reckon.Proofs.Completeness
import Reckon.Proofs.Soundness
import Reckon.Proofs.Written
import Reckon.Proofs.Permission
import Reckon.Proofs.Leniency
import Reckon.Proofs.DepthLimit
import Reckon.Proofs.Derivation
import Reckon.Proofs.Repair
import Reckon.Proofs.Words
import Reckon.Proofs.Segmentation
import Reckon.Proofs.Gaps
import Reckon.Proofs.Places
import Reckon.Proofs.Finding
import Reckon.Proofs.Rewording
import Reckon.Proofs.Wording
import Reckon.Proofs.Blame
import Reckon.Proofs.Names
import Reckon.Proofs.Enclosure
import Reckon.Proofs.Printing
import Reckon.Proofs.Adjacency
import Reckon.Proofs.Chains
import Reckon.Proofs.Insertion
import Reckon.Proofs.Stars
import Reckon.Proofs.Inorder
import Reckon.Proofs.ViablePrefix
import Reckon.Proofs.Unclosed
import Reckon.Proofs.Streaming
import Reckon.Proofs.Histories
import Reckon.Proofs.Inputs
import Reckon.Proofs.Sessions
import Reckon.Proofs.Doubles
import Reckon.Proofs.Rounding
import Reckon.Proofs.Decimals
import Reckon.Proofs.Inference
import Reckon.Proofs.Numerals
import Reckon.Proofs.Integrality
import Reckon.Proofs.Kinds
import Reckon.Proofs.Drawings
import Reckon.Proofs.ByteOrder
import Reckon.Proofs.Tables
import Reckon.Proofs.Signs
import Reckon.Proofs.ReadBack
import Reckon.Proofs.Nearest
import Reckon.Proofs.Literals
