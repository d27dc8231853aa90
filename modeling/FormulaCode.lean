import FormulaCode.Bracket
import FormulaCode.Cli
import FormulaCode.Code.Balance
import FormulaCode.Code.Basic
import FormulaCode.Code.Listing
import FormulaCode.Code.Op
import FormulaCode.Code.Opcode
import FormulaCode.Code.Record
import FormulaCode.Code.Statistics
import FormulaCode.Code.Threading
import FormulaCode.Code.Validate
import FormulaCode.Compile.Assembly
import FormulaCode.Compile.Basic
import FormulaCode.Compile.Error
import FormulaCode.Compile.Pending
import FormulaCode.Decimal.Binary64
import FormulaCode.Decimal.Fixed
import FormulaCode.Decimal.Notation
import FormulaCode.Decimal.Shortest
import FormulaCode.Fault
import FormulaCode.Formula
import FormulaCode.Literal
import FormulaCode.Main
import FormulaCode.Number
import FormulaCode.Operator
import FormulaCode.Options
import FormulaCode.Proofs.Bracket
import FormulaCode.Proofs.Code.Chains
import FormulaCode.Proofs.Code.Depth
import FormulaCode.Proofs.Code.Layout
import FormulaCode.Proofs.Code.Machine
import FormulaCode.Proofs.Code.Outcome
import FormulaCode.Proofs.Code.Payload
import FormulaCode.Proofs.Code.Records
import FormulaCode.Proofs.Code.Relocate
import FormulaCode.Proofs.Code.Shape
import FormulaCode.Proofs.Code.Threading
import FormulaCode.Proofs.Code.Walk
import FormulaCode.Proofs.Compile.Draft
import FormulaCode.Proofs.Compile.Invariant
import FormulaCode.Proofs.Compile.Limits
import FormulaCode.Proofs.Compile.Mutation
import FormulaCode.Proofs.Compile.Parentheses
import FormulaCode.Proofs.Compile.Places
import FormulaCode.Proofs.Compile.Relocate
import FormulaCode.Proofs.Compile.Source
import FormulaCode.Proofs.Compile.Stack
import FormulaCode.Proofs.Compile.Steps
import FormulaCode.Proofs.Compile.Usage
import FormulaCode.Proofs.Expr.Code
import FormulaCode.Proofs.Expr.Compile
import FormulaCode.Proofs.Expr.Correct
import FormulaCode.Proofs.Expr.Enclose
import FormulaCode.Proofs.Expr.Eval
import FormulaCode.Proofs.Expr.Formula
import FormulaCode.Proofs.Expr.Moves
import FormulaCode.Proofs.Expr.Reading
import FormulaCode.Proofs.Expr.Run
import FormulaCode.Proofs.Expr.Scan
import FormulaCode.Proofs.Expr.Stack
import FormulaCode.Proofs.Expr.Steps
import FormulaCode.Proofs.Expr.Syntax
import FormulaCode.Proofs.Expr.Text
import FormulaCode.Proofs.Literal
import FormulaCode.Proofs.Number
import FormulaCode.Proofs.Token.Cut
import FormulaCode.Proofs.Token.Enclose
import FormulaCode.Proofs.Token.Equations
import FormulaCode.Proofs.Token.Extent
import FormulaCode.Proofs.Token.Grammar
import FormulaCode.Proofs.Token.Levels
import FormulaCode.Proofs.Token.Limits
import FormulaCode.Proofs.Token.Moves
import FormulaCode.Proofs.Token.Nesting
import FormulaCode.Proofs.Token.Parentheses
import FormulaCode.Proofs.Token.Permissions
import FormulaCode.Proofs.Token.Reading
import FormulaCode.Proofs.Token.Recognise
import FormulaCode.Proofs.Token.Shift
import FormulaCode.Proofs.Token.Success
import FormulaCode.Proofs.Token.Tiling
import FormulaCode.Proofs.Wire.Code
import FormulaCode.Proofs.Wire.Formula
import FormulaCode.Proofs.Wire.Reading
import FormulaCode.Proofs.Wire.Spelling
import FormulaCode.Text.Blank
import FormulaCode.Text.Bytes
import FormulaCode.Text.Column
import FormulaCode.Text.Quoted
import FormulaCode.Text.Shown
import FormulaCode.Token.Basic
import FormulaCode.Token.Dump
import FormulaCode.Token.Kind
import FormulaCode.Token.Move
import FormulaCode.Token.Lexer
import FormulaCode.Wire.Code
import FormulaCode.Wire.Formula
import FormulaCode.Wire.Reader
import FormulaCode.Wire.Varint
import FormulaCode.Proofs.Code.Verified
import FormulaCode.Proofs.Compile.Origin
import FormulaCode.Proofs.Token.Lexemes
import FormulaCode.Proofs.Compile.Faithful
import FormulaCode.Proofs.Token.Breaks
import FormulaCode.Proofs.Token.Runs
import FormulaCode.Proofs.Token.Gaps
import FormulaCode.Proofs.Token.Spacing
import FormulaCode.Proofs.Compile.Spacing
import FormulaCode.Proofs.Code.Spans
import FormulaCode.Proofs.Compile.Quotation
import FormulaCode.Proofs.Token.Frontier
import FormulaCode.Proofs.Compile.Frontier
import FormulaCode.Proofs.Search
import FormulaCode.Proofs.Token.Groups
import FormulaCode.Proofs.Token.Quoting
import FormulaCode.Proofs.Code.Contents
import FormulaCode.Proofs.Numeral
import FormulaCode.Proofs.Compile.Render
import FormulaCode.Proofs.Decimal.Shortest
import FormulaCode.Proofs.Text.Reading
import FormulaCode.Proofs.Decimal.Notation
import FormulaCode.Proofs.Decimal.Scanned
import FormulaCode.Proofs.Code.Pieces
import FormulaCode.Proofs.Code.Operands
import FormulaCode.Proofs.Code.Listing
import FormulaCode.Proofs.Compile.Legible
import FormulaCode.Proofs.Token.Openings
import FormulaCode.Proofs.Token.Blank
import FormulaCode.Proofs.Token.Frames
