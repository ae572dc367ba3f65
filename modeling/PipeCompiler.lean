import PipeCompiler.Command.Basic
import PipeCompiler.Command.Build
import PipeCompiler.Command.Perform
import PipeCompiler.Command.Scaffold
import PipeCompiler.CommandLine.Duration
import PipeCompiler.CommandLine.Flags
import PipeCompiler.CommandLine.Request
import PipeCompiler.Lowering
import PipeCompiler.Diagnostic
import PipeCompiler.Files
import PipeCompiler.Library
import PipeCompiler.Main
import PipeCompiler.Number
import PipeCompiler.Program.Basic
import PipeCompiler.Program.Outline
import PipeCompiler.Program.Parser
import PipeCompiler.Repl.Session
import PipeCompiler.Target
import PipeCompiler.Text.Utf8
import PipeCompiler.Text.Bytes
import PipeCompiler.Text.Quoted
import PipeCompiler.Token.Basic
import PipeCompiler.Token.Lexer
import PipeCompiler.Proofs.Sequencing
import PipeCompiler.Proofs.Grammar
import PipeCompiler.Proofs.Reading
import PipeCompiler.Proofs.ParserSoundness
import PipeCompiler.Proofs.Formation
import PipeCompiler.Proofs.LoweringTotality
import PipeCompiler.Proofs.LosslessLexing
import PipeCompiler.Proofs.Outlines
import PipeCompiler.Proofs.PipeDesugaring
import PipeCompiler.Proofs.Decoding
import PipeCompiler.Proofs.Positions
import PipeCompiler.Proofs.LineBreaks
import PipeCompiler.Proofs.Continuations
import PipeCompiler.Proofs.Outcomes
import PipeCompiler.Proofs.ParserStability
import PipeCompiler.Proofs.DefiniteErrors
import PipeCompiler.Proofs.Relabelling
import PipeCompiler.Proofs.ExplicitReturns
import PipeCompiler.Proofs.Retokening
import PipeCompiler.Proofs.Layout
import PipeCompiler.Proofs.LineShift
import PipeCompiler.Proofs.StatementSequences
import PipeCompiler.Proofs.Encoding
import PipeCompiler.Proofs.LexicalText
import PipeCompiler.Proofs.DelimitedExpressions
import PipeCompiler.Proofs.PrintedExpressions
import PipeCompiler.Proofs.Rounding
import PipeCompiler.Proofs.ShortestDecimals
import PipeCompiler.Proofs.NumberLiterals
import PipeCompiler.Proofs.StringLiterals
import PipeCompiler.Proofs.TokenForms
import PipeCompiler.Proofs.CodeReader
import PipeCompiler.Proofs.UniqueReadability
import PipeCompiler.Proofs.TextCuts
import PipeCompiler.Proofs.DiskWrites
import PipeCompiler.Proofs.BuildFailures
import PipeCompiler.Proofs.BuildOutputs
import PipeCompiler.Proofs.IdentifierRenaming
import PipeCompiler.Proofs.DiagnosticPlaces
import PipeCompiler.Proofs.LibraryUse
import PipeCompiler.Proofs.GreedyGrammar
import PipeCompiler.Proofs.ParserCompleteness
import PipeCompiler.Proofs.SeenTokens
import PipeCompiler.Proofs.ScaffoldedProgram
import PipeCompiler.Proofs.PrintedTokens
import PipeCompiler.Proofs.SeparatedPrograms
import PipeCompiler.Proofs.PrintedPrograms
import PipeCompiler.Proofs.Completions
import PipeCompiler.Proofs.IncompleteSources
import PipeCompiler.Proofs.ParserProgress
import PipeCompiler.Proofs.LongestMatch
import PipeCompiler.Proofs.StringValues
import PipeCompiler.Proofs.CorrectRounding
import PipeCompiler.Proofs.NumberValues
import PipeCompiler.Proofs.SourceOrder
import PipeCompiler.Proofs.ExpressionContexts
import PipeCompiler.Proofs.CodeForms
import PipeCompiler.Proofs.Indentation
import PipeCompiler.Proofs.BracketBalance
import PipeCompiler.Proofs.SpacedLexemes
import PipeCompiler.Proofs.SessionEntries
import PipeCompiler.Proofs.ScaffoldFailures
import PipeCompiler.Proofs.PrunedWalks
