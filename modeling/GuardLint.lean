import GuardLint.Check.Catalog
import GuardLint.Check.Facts
import GuardLint.Check.Gate
import GuardLint.Check.Rule
import GuardLint.Command.Flag
import GuardLint.Command.Options
import GuardLint.Command.Usage
import GuardLint.Command.Word
import GuardLint.Data.Json.Read
import GuardLint.Data.Json.Token
import GuardLint.Data.Json.Write
import GuardLint.Data.Table
import GuardLint.Data.Value
import GuardLint.Diagnostic
import GuardLint.Diff.Alignment
import GuardLint.Diff.Sides
import GuardLint.Diff.Unified
import GuardLint.Files.Entry
import GuardLint.Files.Path
import GuardLint.Fix
import GuardLint.Glob
import GuardLint.Grammar.Basic
import GuardLint.Grammar.Chart
import GuardLint.Grammar.Derivation
import GuardLint.Grammar.Reading
import GuardLint.Location
import GuardLint.Main
import GuardLint.Proofs.Fix.Application
import GuardLint.Proofs.Grammar.Chart
import GuardLint.Proofs.Grammar.Column
import GuardLint.Proofs.Grammar.Derivation
import GuardLint.Proofs.Grammar.Law
import GuardLint.Proofs.Grammar.Preference
import GuardLint.Proofs.Grammar.Reading
import GuardLint.Proofs.Grammar.Saturation
import GuardLint.Proofs.Scope.Exchange
import GuardLint.Proofs.Scope.Occurrence
import GuardLint.Proofs.Scope.Placement
import GuardLint.Proofs.Scope.Production
import GuardLint.Proofs.Scope.Replacement
import GuardLint.Proofs.Syntax.Balance
import GuardLint.Proofs.Syntax.Depth
import GuardLint.Proofs.Syntax.Exchange
import GuardLint.Proofs.Syntax.Language
import GuardLint.Proofs.Syntax.Lexeme
import GuardLint.Proofs.Syntax.Order
import GuardLint.Proofs.Syntax.Rewrite
import GuardLint.Proofs.Syntax.Throw
import GuardLint.Run.Config
import GuardLint.Run.Inputs
import GuardLint.Run.Log
import GuardLint.Run.Print
import GuardLint.Run.Problem
import GuardLint.Run.Report
import GuardLint.Run.Session
import GuardLint.Run.Survey
import GuardLint.Scope.CallSite
import GuardLint.Scope.ClassInfo
import GuardLint.Scope.Resolution
import GuardLint.Scope.UnitIndex
import GuardLint.Scope.Variable
import GuardLint.Semantics.Constant
import GuardLint.Semantics.Effect
import GuardLint.Semantics.Failure
import GuardLint.Semantics.Setting
import GuardLint.Semantics.TestCode
import GuardLint.Semantics.Typing
import GuardLint.Span
import GuardLint.Syntax.Category
import GuardLint.Syntax.Lexer
import GuardLint.Syntax.Parse
import GuardLint.Syntax.Rules
import GuardLint.Syntax.Start
import GuardLint.Syntax.Token
import GuardLint.Syntax.Tree
import GuardLint.Text.Blank
import GuardLint.Text.Digit
import GuardLint.Text.Hex
import GuardLint.Text.Lines
import GuardLint.Text.Order
import GuardLint.Text.Printable
import GuardLint.Text.Quoted
import GuardLint.Text.Utf8
import GuardLint.Text.Utf8.RoundTrip
import GuardLint.Proofs.Syntax.Expression
import GuardLint.Proofs.Syntax.Guard
import GuardLint.Proofs.Syntax.Numeral
import GuardLint.Proofs.Syntax.Seam
import GuardLint.Proofs.Syntax.Segment
import GuardLint.Proofs.Syntax.Splice
import GuardLint.Proofs.Syntax.Template
import GuardLint.Proofs.Syntax.Call
import GuardLint.Proofs.Syntax.Denotation
import GuardLint.Proofs.Check.Finding
import GuardLint.Proofs.Run.Fixed
import GuardLint.Proofs.Run.NullCheck
import GuardLint.Proofs.Syntax.Trailing
import GuardLint.Proofs.Syntax.Comparison
import GuardLint.Proofs.Scope.Coverage
import GuardLint.Proofs.Check.Rejection
import GuardLint.Proofs.Syntax.Acceptance
import GuardLint.Proofs.Run.Innermost
import GuardLint.Proofs.Syntax.Nesting
import GuardLint.Proofs.Scope.Lookup
import GuardLint.Proofs.Run.Layout
import GuardLint.Proofs.Run.Suppression
import GuardLint.Proofs.Run.Frame
import GuardLint.Proofs.Scope.Passage
import GuardLint.Proofs.Scope.ClassName
import GuardLint.Proofs.Scope.StaticImport
import GuardLint.Proofs.Scope.Course
import GuardLint.Proofs.Scope.Origin
import GuardLint.Proofs.Semantics.Constancy
import GuardLint.Proofs.Semantics.Inheritance
import GuardLint.Proofs.Semantics.Cycle
import GuardLint.Proofs.Scope.ClassText
import GuardLint.Proofs.Semantics.ConstantExpression
import GuardLint.Proofs.Syntax.Outside
import GuardLint.Proofs.Syntax.Standalone
import GuardLint.Proofs.Syntax.Holder
import GuardLint.Proofs.Syntax.Slice
import GuardLint.Proofs.Syntax.Identifier
import GuardLint.Proofs.Scope.Import
import GuardLint.Proofs.Semantics.Effect
import GuardLint.Proofs.Check.Target
import GuardLint.Proofs.Check.Exception
import GuardLint.Proofs.Run.Configuration
import GuardLint.Proofs.Scope.Enclosure
import GuardLint.Proofs.Scope.TypeScope
import GuardLint.Proofs.Semantics.FieldName
import GuardLint.Proofs.Files.Glob
import GuardLint.Proofs.Syntax.Excerpt
import GuardLint.Proofs.Syntax.FirstError
import GuardLint.Proofs.Run.Patch
