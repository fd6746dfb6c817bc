import ApiSurface.Annotated.Basic
import ApiSurface.Annotated.Reading
import ApiSurface.Archive.Basic
import ApiSurface.Archive.Checksum
import ApiSurface.Archive.CodePage
import ApiSurface.Archive.Inflate
import ApiSurface.Class
import ApiSurface.ClassFile.Basic
import ApiSurface.ClassFile.Bytes
import ApiSurface.ClassFile.Description
import ApiSurface.ClassFile.Elements
import ApiSurface.ClassFile.Flags
import ApiSurface.ClassFile.Modules
import ApiSurface.ClassFile.Pool
import ApiSurface.ClassFile.Tables
import ApiSurface.ClassFile.Uses
import ApiSurface.Classpath.Basic
import ApiSurface.Classpath.Cursor
import ApiSurface.Classpath.Entry
import ApiSurface.Classpath.Extraction
import ApiSurface.Classpath.Listing
import ApiSurface.Classpath.Naming
import ApiSurface.Classpath.Shadow
import ApiSurface.Classpath.Source
import ApiSurface.Decimal.Binary
import ApiSurface.Decimal.Layout
import ApiSurface.Decimal.Shortest
import ApiSurface.Files.Path
import ApiSurface.Files.Tree
import ApiSurface.Format
import ApiSurface.JavaType.Basic
import ApiSurface.JavaType.Descriptor
import ApiSurface.JavaType.Erasure
import ApiSurface.Legacy
import ApiSurface.Line.Fault
import ApiSurface.Line.Header
import ApiSurface.Line.Kind
import ApiSurface.Line.Member
import ApiSurface.Line.Token
import ApiSurface.Literal.Constant
import ApiSurface.Literal.Escape
import ApiSurface.Markup.Events
import ApiSurface.Markup.Tag
import ApiSurface.Member
import ApiSurface.Modifiers
import ApiSurface.Module.Basic
import ApiSurface.Module.Markup
import ApiSurface.Ordered.Map
import ApiSurface.Ordered.Set
import ApiSurface.Proofs.Annotated.Accepted
import ApiSurface.Proofs.Annotated.Inverse
import ApiSurface.Proofs.Annotated.ReadBack
import ApiSurface.Proofs.Annotated.Shape
import ApiSurface.Proofs.Canonical
import ApiSurface.Proofs.Class
import ApiSurface.Proofs.ClassFile.Accessible
import ApiSurface.Proofs.ClassFile.Captured
import ApiSurface.Proofs.ClassFile.Described
import ApiSurface.Proofs.ClassFile.Layout
import ApiSurface.Proofs.ClassFile.Plain
import ApiSurface.Proofs.ClassFile.ToldApart
import ApiSurface.Proofs.ClassFile.Truncated
import ApiSurface.Proofs.Classpath.Accounting
import ApiSurface.Proofs.Classpath.Capture
import ApiSurface.Proofs.Classpath.Closed
import ApiSurface.Proofs.Classpath.Confined
import ApiSurface.Proofs.Classpath.Cursor
import ApiSurface.Proofs.Classpath.Enumeration
import ApiSurface.Proofs.Classpath.Lookup
import ApiSurface.Proofs.Classpath.Names
import ApiSurface.Proofs.Classpath.Opening
import ApiSurface.Proofs.Classpath.Owner
import ApiSurface.Proofs.Classpath.Releases
import ApiSurface.Proofs.Classpath.Snapshot
import ApiSurface.Proofs.Files.Tree
import ApiSurface.Proofs.InPlace.Annotated
import ApiSurface.Proofs.InPlace.Legacy
import ApiSurface.Proofs.InPlace.Line
import ApiSurface.Proofs.InPlace.Run
import ApiSurface.Proofs.InPlace.Safe
import ApiSurface.Proofs.InPlace.Scan
import ApiSurface.Proofs.InPlace.TopLevel
import ApiSurface.Proofs.JavaType.Acyclic
import ApiSurface.Proofs.JavaType.Erasure
import ApiSurface.Proofs.JavaType.Lexical
import ApiSurface.Proofs.JavaType.Nested
import ApiSurface.Proofs.JavaType.ParameterText
import ApiSurface.Proofs.JavaType.Render
import ApiSurface.Proofs.JavaType.Signature
import ApiSurface.Proofs.JavaType.VariableFree
import ApiSurface.Proofs.Legacy.Arrays
import ApiSurface.Proofs.Legacy.CharacterCode
import ApiSurface.Proofs.Legacy.Line
import ApiSurface.Proofs.Legacy.Oldest
import ApiSurface.Proofs.Legacy.Source
import ApiSurface.Proofs.Legacy.Tokens
import ApiSurface.Proofs.Legacy.TypedLine
import ApiSurface.Proofs.Line.Accepted
import ApiSurface.Proofs.Line.Field
import ApiSurface.Proofs.Line.Header
import ApiSurface.Proofs.Line.Member
import ApiSurface.Proofs.Line.Token
import ApiSurface.Proofs.Literal.Enclosed
import ApiSurface.Proofs.Literal.Encoded
import ApiSurface.Proofs.Literal.EscapeGrammar
import ApiSurface.Proofs.Markup.Tag
import ApiSurface.Proofs.Markup.Whole
import ApiSurface.Proofs.Module.ReadBack
import ApiSurface.Proofs.Ordered
import ApiSurface.Proofs.Result
import ApiSurface.Proofs.SignatureFile.Accepted
import ApiSurface.Proofs.SignatureFile.AnyOrder
import ApiSurface.Proofs.SignatureFile.Blocks
import ApiSurface.Proofs.SignatureFile.Bodies
import ApiSurface.Proofs.SignatureFile.ClassBlock
import ApiSurface.Proofs.SignatureFile.ConstructorNames
import ApiSurface.Proofs.SignatureFile.Copyright
import ApiSurface.Proofs.SignatureFile.Downgrade
import ApiSurface.Proofs.SignatureFile.Faults
import ApiSurface.Proofs.SignatureFile.Header
import ApiSurface.Proofs.SignatureFile.Independent
import ApiSurface.Proofs.SignatureFile.Left
import ApiSurface.Proofs.SignatureFile.Lines
import ApiSurface.Proofs.SignatureFile.Marked
import ApiSurface.Proofs.SignatureFile.ModuleBlock
import ApiSurface.Proofs.SignatureFile.ModuleLayout
import ApiSurface.Proofs.SignatureFile.Modules
import ApiSurface.Proofs.SignatureFile.OldSpellings
import ApiSurface.Proofs.SignatureFile.Operations
import ApiSurface.Proofs.SignatureFile.Order
import ApiSurface.Proofs.SignatureFile.Projection
import ApiSurface.Proofs.SignatureFile.ReadBack
import ApiSurface.Proofs.SignatureFile.Rewrite
import ApiSurface.Proofs.SignatureFile.RoundTrip
import ApiSurface.Proofs.SignatureFile.Sections
import ApiSurface.Proofs.SignatureFile.Shifted
import ApiSurface.Proofs.SignatureFile.Spelling
import ApiSurface.Proofs.SignatureFile.Steps
import ApiSurface.Proofs.SignatureFile.Transcript
import ApiSurface.Proofs.SignatureFile.WellFormed
import ApiSurface.Proofs.Text.Balanced
import ApiSurface.Proofs.Text.Bytes
import ApiSurface.Proofs.Text.Clear
import ApiSurface.Proofs.Text.Cut
import ApiSurface.Proofs.Text.Delimited
import ApiSurface.Proofs.Text.Items
import ApiSurface.Proofs.Text.Nesting
import ApiSurface.Proofs.Text.Numeral
import ApiSurface.Proofs.Text.Passing
import ApiSurface.Proofs.Text.Quotes
import ApiSurface.Proofs.Text.SingleLine
import ApiSurface.Proofs.Text.Units
import ApiSurface.Settings
import ApiSurface.Shell.Command
import ApiSurface.Shell.Script
import ApiSurface.Shell.Utility
import ApiSurface.SignatureFile.Reader
import ApiSurface.SignatureFile.Source
import ApiSurface.SignatureFile.Writer
import ApiSurface.Snapshot
import ApiSurface.Text.Basic
import ApiSurface.Text.Blank
import ApiSurface.Text.Brackets
import ApiSurface.Text.Letter
import ApiSurface.Text.Numeral
import ApiSurface.Text.Quoted
import ApiSurface.Text.Units
import ApiSurface.Text.Unprintable
import ApiSurface.Text.Utf8
