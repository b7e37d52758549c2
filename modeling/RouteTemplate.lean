import RouteTemplate.Binding.Bindings
import RouteTemplate.Binding.Entries
import RouteTemplate.Grammar
import RouteTemplate.Match.Levels
import RouteTemplate.Match.Offsets
import RouteTemplate.Match.Search
import RouteTemplate.Match.Turn
import RouteTemplate.Match.Ways
import RouteTemplate.Path.Basic
import RouteTemplate.Path.Offset
import RouteTemplate.Proofs.Acceptance
import RouteTemplate.Proofs.Appending
import RouteTemplate.Proofs.Balance
import RouteTemplate.Proofs.BindingSessions
import RouteTemplate.Proofs.BoundedRecursion
import RouteTemplate.Proofs.Captured
import RouteTemplate.Proofs.Counts
import RouteTemplate.Proofs.Decomposition
import RouteTemplate.Proofs.Descent
import RouteTemplate.Proofs.EmptySplats
import RouteTemplate.Proofs.Erasing
import RouteTemplate.Proofs.Faults
import RouteTemplate.Proofs.Filled
import RouteTemplate.Proofs.FirstGap
import RouteTemplate.Proofs.FirstMatch
import RouteTemplate.Proofs.FirstWay
import RouteTemplate.Proofs.FlatForm
import RouteTemplate.Proofs.Fragments
import RouteTemplate.Proofs.Groups
import RouteTemplate.Proofs.JoinedPaths
import RouteTemplate.Proofs.JoinedSlices
import RouteTemplate.Proofs.Lexemes
import RouteTemplate.Proofs.LiteralCuts
import RouteTemplate.Proofs.LongerPaths
import RouteTemplate.Proofs.Missing
import RouteTemplate.Proofs.NamesRead
import RouteTemplate.Proofs.OffsetSearch
import RouteTemplate.Proofs.Offsets
import RouteTemplate.Proofs.Passages
import RouteTemplate.Proofs.Reading
import RouteTemplate.Proofs.ReadingBack
import RouteTemplate.Proofs.Recovery
import RouteTemplate.Proofs.Renaming
import RouteTemplate.Proofs.RepeatedSlashes
import RouteTemplate.Proofs.RoundTrip
import RouteTemplate.Proofs.Rounds
import RouteTemplate.Proofs.Seams
import RouteTemplate.Proofs.Segments
import RouteTemplate.Proofs.Separators
import RouteTemplate.Proofs.Sessions
import RouteTemplate.Proofs.SlashBytes
import RouteTemplate.Proofs.SoundTokens
import RouteTemplate.Proofs.Spelling
import RouteTemplate.Proofs.UndoLog
import RouteTemplate.Proofs.Visible
import RouteTemplate.Proofs.Ways
import RouteTemplate.Template.Basic
import RouteTemplate.Template.Edit
import RouteTemplate.Template.Format
import RouteTemplate.Template.Leaves
import RouteTemplate.TemplateSet
import RouteTemplate.Text.Descent
import RouteTemplate.Text.Marks
import RouteTemplate.Token.Basic
import RouteTemplate.Token.Canonical
import RouteTemplate.Token.Flat
import RouteTemplate.Token.Gap
import RouteTemplate.Token.Merged
