import CommandShell.Application.Arguments
import CommandShell.Application.Arrange
import CommandShell.Application.Basic
import CommandShell.Application.Count
import CommandShell.Application.Cut
import CommandShell.Application.Effect
import CommandShell.Application.Folder
import CommandShell.Application.Print
import CommandShell.Application.Search
import CommandShell.Application.Select
import CommandShell.Command.Basic
import CommandShell.Command.Call
import CommandShell.Command.Redirect
import CommandShell.Fault
import CommandShell.Files.Changes
import CommandShell.Files.Content
import CommandShell.Files.Entry
import CommandShell.Files.Expand
import CommandShell.Files.Path
import CommandShell.Files.Reading
import CommandShell.Files.SystemError
import CommandShell.Files.World
import CommandShell.Grammar.Basic
import CommandShell.Grammar.Level
import CommandShell.Line
import CommandShell.Main
import CommandShell.Parse.Complaint
import CommandShell.Parse.Forecast
import CommandShell.Parse.Machine
import CommandShell.Pattern.CaseFolding
import CommandShell.Pattern.Fault
import CommandShell.Pattern.Matcher
import CommandShell.Pattern.Node
import CommandShell.Pattern.Reader
import CommandShell.Script.Basic
import CommandShell.Script.Draft
import CommandShell.Script.Drafting
import CommandShell.Session
import CommandShell.Text.Basic
import CommandShell.Text.Blank
import CommandShell.Text.Digit
import CommandShell.Text.Integer
import CommandShell.Text.LowerCase
import CommandShell.Text.Printable
import CommandShell.Text.Quoted
import CommandShell.Text.Ranges
import CommandShell.Text.Utf8
import CommandShell.Text.WordCharacter
import CommandShell.Token.Basic
import CommandShell.Token.Scan
import CommandShell.Tree.Basic
import CommandShell.Tree.Query
import CommandShell.Value
import CommandShell.Wildcard
import CommandShell.Proofs.Derivation
import CommandShell.Proofs.Moves
import CommandShell.Proofs.Reading
import CommandShell.Proofs.Outline
import CommandShell.Proofs.Notes
import CommandShell.Proofs.Walking
import CommandShell.Proofs.Rows
import CommandShell.Proofs.Sequences
import CommandShell.Proofs.Pipelines
import CommandShell.Proofs.MixedLines
import CommandShell.Proofs.Frame
import CommandShell.Proofs.ReadOnly
import CommandShell.Proofs.Acts
import CommandShell.Proofs.Ending
import CommandShell.Proofs.Conservation
import CommandShell.Proofs.Language
import CommandShell.Proofs.Spelling
import CommandShell.Proofs.Forecasts
import CommandShell.Proofs.Leads
import CommandShell.Proofs.Builds
import CommandShell.Proofs.Quotations
import CommandShell.Proofs.CallTrees
import CommandShell.Proofs.Completeness
import CommandShell.Proofs.Stopping
import CommandShell.Proofs.Exactness
import CommandShell.Proofs.Filters
import CommandShell.Proofs.CallRows
import CommandShell.Proofs.Isolation
import CommandShell.Proofs.Unsupported
import CommandShell.Proofs.Positions
import CommandShell.Proofs.JoinedCalls
import CommandShell.Proofs.Deeds
import CommandShell.Proofs.BackQuotes
import CommandShell.Proofs.Substitution
import CommandShell.Proofs.CallLines
import CommandShell.Proofs.WrittenLines
import CommandShell.Proofs.Segments
import CommandShell.Proofs.VerbatimWords
import CommandShell.Proofs.CompoundArguments
import CommandShell.Proofs.SequentialLines
import CommandShell.Proofs.UnmarkedLines
import CommandShell.Proofs.OutputTexts
import CommandShell.Proofs.NestedLines
import CommandShell.Proofs.FileContents
import CommandShell.Proofs.RedirectedOutput
import CommandShell.Proofs.PipeInput
import CommandShell.Proofs.Tiling
import CommandShell.Proofs.Effort
import CommandShell.Proofs.GuardedCalls
import CommandShell.Proofs.Openings
import CommandShell.Proofs.Recovery
import CommandShell.Proofs.Salvage
import CommandShell.Proofs.Signs
import CommandShell.Proofs.OpenRows
import CommandShell.Proofs.MendedTrees
import CommandShell.Proofs.MalformedLines
import CommandShell.Proofs.Expansion
import CommandShell.Proofs.SeveralRedirections
import CommandShell.Proofs.ArgumentTexts
import CommandShell.Proofs.LeadingRedirections
import CommandShell.Proofs.SubstitutedWords
import CommandShell.Proofs.FlatCalls
import CommandShell.Proofs.PositionLists
import CommandShell.Proofs.CutLines
import CommandShell.Proofs.SortedLines
import CommandShell.Proofs.PassedLines
import CommandShell.Proofs.RunStarts
import CommandShell.Proofs.ReadBack
import CommandShell.Proofs.Lasting
import CommandShell.Proofs.OrderedTrees
import CommandShell.Proofs.Wildcards
import CommandShell.Proofs.FoundFiles
import CommandShell.Proofs.AddedCounts
import CommandShell.Proofs.Slices
import CommandShell.Proofs.RemovedFiles
import CommandShell.Proofs.Highlights
import CommandShell.Proofs.AlikeReadings
import CommandShell.Proofs.BlankRuns
import CommandShell.Proofs.AnyPositions
import CommandShell.Proofs.Counters
