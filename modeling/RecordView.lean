import RecordView.Main
import RecordView.Proofs.Command.Run
import RecordView.Proofs.Condition.Selection
import RecordView.Proofs.Expression.Unique
import RecordView.Proofs.Layout.Struct
import RecordView.Proofs.Layout.BitPacking
import RecordView.Proofs.Script.BitAccess
import RecordView.Proofs.Layout.Members
import RecordView.Proofs.Declaration.Registry
import RecordView.Proofs.Layout.Alignment
import RecordView.Proofs.Layout.Path
import RecordView.Proofs.Layout.Union
import RecordView.Proofs.Script.Emission
import RecordView.Proofs.Script.NativeArray
import RecordView.Proofs.Condition.Drawing
import RecordView.Proofs.Layout.Padding
import RecordView.Proofs.Reader.Twin
import RecordView.Proofs.Declaration.Twin
import RecordView.Proofs.Layout.Independence
import RecordView.Proofs.Declaration.Position
import RecordView.Proofs.Declaration.Progress
import RecordView.Proofs.Declaration.Rejection
import RecordView.Proofs.Script.Growth
import RecordView.Proofs.Declaration.Class
import RecordView.Proofs.Script.Setting
import RecordView.Proofs.Declaration.Acceptance
import RecordView.Proofs.Script.Listing
import RecordView.Proofs.Expression.Arithmetic
import RecordView.Proofs.Script.Accessible
import RecordView.Proofs.Declaration.Safety
import RecordView.Proofs.Compiler
import RecordView.Proofs.Compiler.Scope
import RecordView.Proofs.Compiler.Dialect
import RecordView.Proofs.Compiler.Override
import RecordView.Proofs.Declaration.Termination
import RecordView.Proofs.Declaration.Nested
import RecordView.Proofs.Declaration.DirectiveLine
import RecordView.Proofs.Declaration.Comment
import RecordView.Proofs.Compiler.Names
import RecordView.Proofs.Script.Demand
import RecordView.Proofs.Compiler.Usage
import RecordView.Proofs.Compiler.Json
import RecordView.Proofs.Declaration.Citation
import RecordView.Proofs.Token.Place
import RecordView.Proofs.Compiler.Citation
import RecordView.Proofs.Layout.Tail
import RecordView.Proofs.Declaration.Constants
import RecordView.Proofs.Declaration.Limit
import RecordView.Proofs.Compiler.Limit
import RecordView.Proofs.Expression.Bitwise
import RecordView.Proofs.Settings.Application
import RecordView.Proofs.Token.Coverage
import RecordView.Proofs.Token.Spacing
import RecordView.Proofs.Compiler.Trailer
import RecordView.Proofs.Diagnostic
import RecordView.Proofs.Condition.Stack
import RecordView.Proofs.Text.Literal
import RecordView.Proofs.Token.Integer
import RecordView.Proofs.Token.PragmaValue
import RecordView.Proofs.Declaration.Lineage
