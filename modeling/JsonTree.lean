import JsonTree.Binary64
import JsonTree.Bytes
import JsonTree.Decode
import JsonTree.Document
import JsonTree.Error
import JsonTree.Error.Fault
import JsonTree.Hash
import JsonTree.Limit
import JsonTree.Live
import JsonTree.Live.Access
import JsonTree.Live.Equality
import JsonTree.Live.Path
import JsonTree.Number
import JsonTree.Number.Collect
import JsonTree.Number.Literal
import JsonTree.Object
import JsonTree.Object.Blocks
import JsonTree.Object.Rows
import JsonTree.Object.Table
import JsonTree.Rounding
import JsonTree.Shape
import JsonTree.Shape.Encode
import JsonTree.Shape.Key
import JsonTree.Text
import JsonTree.Text.Buffers
import JsonTree.Text.Escape
import JsonTree.Token
import JsonTree.Token.Cursor
import JsonTree.Token.Outline
import JsonTree.Token.Scan
import JsonTree.Utf8
import JsonTree.Value
import JsonTree.Value.Access
import JsonTree.Proofs.Object.Finalize
import JsonTree.Proofs.Object.Table
import JsonTree.Proofs.Object.Run
import JsonTree.Proofs.Object.Assoc
import JsonTree.Proofs.Decode.Agree
import JsonTree.Proofs.Decode.Trees
import JsonTree.Proofs.Document.Run
import JsonTree.Proofs.Shape.OfValue
import JsonTree.Proofs.Live.Equality
import JsonTree.Proofs.Decode.Utf8
import JsonTree.Proofs.Shape.Depth
import JsonTree.Proofs.Limit
import JsonTree.Proofs.Live.Run
import JsonTree.Proofs.Token.Sentence
import JsonTree.Proofs.Token.Viable
import JsonTree.Proofs.Text.Characters
import JsonTree.Proofs.Text.Faults
import JsonTree.Proofs.Token.Strings
import JsonTree.Proofs.Decode.Faults
import JsonTree.Proofs.Decode.Sources
import JsonTree.Proofs.Decode.Trace
import JsonTree.Proofs.Number.Longest
import JsonTree.Proofs.Number.Quick
import JsonTree.Proofs.Object.LastRows
import JsonTree.Proofs.Value.Building
import JsonTree.Proofs.Value.Integers
import JsonTree.Proofs.Shape.Keys
import JsonTree.Proofs.Decode.Respaced
import JsonTree.Proofs.Live.Frame
import JsonTree.Proofs.Utf8.Lists
import JsonTree.Proofs.Token.Extents
import JsonTree.Proofs.Token.Looks
import JsonTree.Proofs.Error.Position
import JsonTree.Proofs.Decode.Positions
import JsonTree.Proofs.Hash
