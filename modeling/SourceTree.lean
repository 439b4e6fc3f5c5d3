import SourceTree.Codec.Records
import SourceTree.Node.Index
import SourceTree.Session
import SourceTree.Settings.Workspace
import SourceTree.Proofs.Change.WellFormed
import SourceTree.Proofs.Change.Sweep
import SourceTree.Proofs.Change.Conflict
import SourceTree.Proofs.Change.Weave
import SourceTree.Proofs.Change.Reorder
import SourceTree.Proofs.Scan.Mask
import SourceTree.Proofs.Pattern.Takes
import SourceTree.Proofs.Scan.Split
import SourceTree.Proofs.Pattern.Word
import SourceTree.Proofs.Builder
import SourceTree.Proofs.Pattern.Choice
import SourceTree.Proofs.Scan.Line
import SourceTree.Proofs.Python.Annotation
import SourceTree.Proofs.Python.Stranded
import SourceTree.Proofs.Python.Header
import SourceTree.Proofs.Python.Statement
import SourceTree.Proofs.Python.Definition
import SourceTree.Proofs.Python.Tree
import SourceTree.Proofs.Scan.Block
import SourceTree.Proofs.Scan.Piece
import SourceTree.Proofs.Java.Header
import SourceTree.Proofs.Java.Declaration
import SourceTree.Proofs.Java.Members
import SourceTree.Proofs.Go.Line
import SourceTree.Proofs.Go.Header
import SourceTree.Proofs.Go.Member
import SourceTree.Proofs.Go.Declaration
import SourceTree.Proofs.Go.Tree
import SourceTree.Proofs.Node.Growth
import SourceTree.Proofs.Growth
import SourceTree.Proofs.Java.Growth
import SourceTree.Proofs.Go.Growth
import SourceTree.Proofs.Python.Growth
import SourceTree.Proofs.Fidelity
import SourceTree.Proofs.Python.Layout
import SourceTree.Proofs.Python.Nesting
import SourceTree.Proofs.Node.Nested
import SourceTree.Proofs.Rewrite
import SourceTree.Proofs.Echo
import SourceTree.Proofs.Java.Echo
import SourceTree.Proofs.Go.Echo
import SourceTree.Proofs.Outline
import SourceTree.Proofs.Scan.Uncomment
import SourceTree.Proofs.Comment
import SourceTree.Proofs.Python.Literal
import SourceTree.Proofs.Python.Export
import SourceTree.Proofs.Registry
import SourceTree.Proofs.Scan.Newline
import SourceTree.Proofs.LineIndex
import SourceTree.Proofs.Node.Deepest
import SourceTree.Proofs.Lookup
import SourceTree.Proofs.Pattern.Local
import SourceTree.Proofs.Scan.Code
import SourceTree.Proofs.Linkage
import SourceTree.Proofs.Java.Import
import SourceTree.Proofs.Go.Preface
import SourceTree.Proofs.Go.Import
import SourceTree.Proofs.Import
import SourceTree.Proofs.Disabled
import SourceTree.Proofs.Sorting
import SourceTree.Proofs.Node.Levels
import SourceTree.Proofs.Metadata
import SourceTree.Proofs.Node.Linked
import SourceTree.Proofs.Codec
import SourceTree.Proofs.Script.Growth
import SourceTree.Proofs.Roundtrip
import SourceTree.Proofs.Keeps
import SourceTree.Proofs.Scan.Nesting
import SourceTree.Proofs.Silence
import SourceTree.Proofs.Java.Silence
import SourceTree.Proofs.Go.Silence
import SourceTree.Proofs.Diagnostics
import SourceTree.Proofs.Node.Climb
import SourceTree.Proofs.Node.Family
import SourceTree.Proofs.Scan.LineEnding
import SourceTree.Proofs.Text.Spaced
import SourceTree.Proofs.Pattern.Prefers
import SourceTree.Proofs.Script.Clause
import SourceTree.Proofs.Script.Import
import SourceTree.Proofs.Scan.Join
import SourceTree.Proofs.Scan.Complete
import SourceTree.Proofs.Go.Parameter
import SourceTree.Proofs.Python.Parameter
import SourceTree.Proofs.Java.Keyword
import SourceTree.Proofs.Java.Heritage
import SourceTree.Proofs.Pattern.Refuses
import SourceTree.Proofs.Script.Target
import SourceTree.Proofs.Script.Declared
import SourceTree.Proofs.Script.Export
import SourceTree.Proofs.Change.Conservation
import SourceTree.Proofs.Symbol
import SourceTree.Proofs.Scan.Division
import SourceTree.Proofs.Scan.Overlay
import SourceTree.Proofs.Scan.Remask
import SourceTree.Proofs.Scan.Depth
import SourceTree.Proofs.Scan.Partner
import SourceTree.Proofs.Scan.ByteCursor
import SourceTree.Proofs.Scan.Partition
