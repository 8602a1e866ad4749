import TwoLevel.Cover
import TwoLevel.Definition.Basic
import TwoLevel.Definition.Listing
import TwoLevel.Distinct
import TwoLevel.Event
import TwoLevel.Expr.Basic
import TwoLevel.Expr.Eval
import TwoLevel.Expr.Minimize
import TwoLevel.Expr.Outline
import TwoLevel.Expr.Parser
import TwoLevel.Expr.Printer
import TwoLevel.Expr.SyntaxError
import TwoLevel.Expr.Token
import TwoLevel.Expr.Value
import TwoLevel.Failure
import TwoLevel.Implicant.Basic
import TwoLevel.Implicant.Bucket
import TwoLevel.Implicant.Column
import TwoLevel.IndexSet
import TwoLevel.Logged
import TwoLevel.Main
import TwoLevel.Minimization
import TwoLevel.MinimizeError
import TwoLevel.Options
import TwoLevel.Pattern
import TwoLevel.Row
import TwoLevel.Session
import TwoLevel.Settings
import TwoLevel.SortedSet
import TwoLevel.Table
import TwoLevel.Text.Blank
import TwoLevel.Text.Lines
import TwoLevel.Text.Listing
import TwoLevel.Text.Number
import TwoLevel.Text.Pieces
import TwoLevel.Text.Printable
import TwoLevel.Text.Quoted
import TwoLevel.Text.Word
import TwoLevel.Proofs.Distinct
import TwoLevel.Proofs.Merging
import TwoLevel.Proofs.Primality
import TwoLevel.Proofs.Columns
import TwoLevel.Proofs.PrimeSearch
import TwoLevel.Proofs.Products
import TwoLevel.Proofs.Covering
import TwoLevel.Proofs.Minimization
import TwoLevel.Proofs.MinimalForms
import TwoLevel.Proofs.Evaluation
import TwoLevel.Proofs.FormEvaluation
import TwoLevel.Proofs.ExprMinimization
import TwoLevel.Proofs.Numbering
import TwoLevel.Proofs.SmallestSets
import TwoLevel.Proofs.TruthTables
import TwoLevel.Proofs.Canonicity
import TwoLevel.Proofs.Cubes
import TwoLevel.Proofs.Letters
import TwoLevel.Proofs.Lexing
import TwoLevel.Proofs.Grammar
import TwoLevel.Proofs.Parsing
import TwoLevel.Proofs.Splicing
import TwoLevel.Proofs.Printing
import TwoLevel.Proofs.RoundTrip
import TwoLevel.Proofs.CoverLimit
import TwoLevel.Proofs.RunErrors
import TwoLevel.Proofs.Cutting
import TwoLevel.Proofs.DefinitionGrammar
import TwoLevel.Proofs.PrintedForms
import TwoLevel.Proofs.Equivalence
import TwoLevel.Proofs.DefinitionText
import TwoLevel.Proofs.Decoding
import TwoLevel.Proofs.Lines
import TwoLevel.Proofs.Listing
import TwoLevel.Proofs.Conversation
import TwoLevel.Proofs.Partition
import TwoLevel.Proofs.Positions
import TwoLevel.Proofs.LeftmostProblem
import TwoLevel.Proofs.LetterCase
import TwoLevel.Proofs.ParsedTrees
import TwoLevel.Proofs.Essentials
import TwoLevel.Proofs.CoverOrder
import TwoLevel.Proofs.Combining
import TwoLevel.Proofs.Outlines
import TwoLevel.Proofs.PartErrors
import TwoLevel.Proofs.Sweeping
import TwoLevel.Proofs.Passes
import TwoLevel.Proofs.PassCount
import TwoLevel.Proofs.Words
import TwoLevel.Proofs.WordSets
