import HeaderHints.Main
import HeaderHints.Proofs.Places
import HeaderHints.Proofs.ScanSteps
import HeaderHints.Proofs.ReadingRun
import HeaderHints.Proofs.HeaderTokens
import HeaderHints.Proofs.DraftSteps
import HeaderHints.Proofs.LayoutRun
import HeaderHints.Proofs.Lossless
import HeaderHints.Proofs.TypeGrammar
import HeaderHints.Proofs.Emission
import HeaderHints.Proofs.RenderedTypes
import HeaderHints.Proofs.FillSteps
import HeaderHints.Proofs.InsertOnly
import HeaderHints.Proofs.Nesting
import HeaderHints.Proofs.ItemSpans
import HeaderHints.Proofs.Alignment
import HeaderHints.Proofs.Restating
import HeaderHints.Proofs.RowReading
import HeaderHints.Proofs.HintReading
import HeaderHints.Proofs.RowHeaders
import HeaderHints.Proofs.RowFilling
import HeaderHints.Proofs.SpelledTypes
import HeaderHints.Proofs.LexedTypes
import HeaderHints.Proofs.PlainRows
import HeaderHints.Proofs.Openings
import HeaderHints.Proofs.Positions
import HeaderHints.Proofs.Values
import HeaderHints.Proofs.SecondPass
import HeaderHints.Proofs.ContainedTypes
import HeaderHints.Proofs.CanonicalTypes
import HeaderHints.Proofs.LazyReading
import HeaderHints.Proofs.OneLineComplaints
import HeaderHints.Proofs.EditedRows
import HeaderHints.Proofs.MergedEdits
import HeaderHints.Proofs.InsertedRows
import HeaderHints.Proofs.IndependentEdits
import HeaderHints.Proofs.LineEnds
import HeaderHints.Proofs.TurnedOff
import HeaderHints.Proofs.MergedTexts
import HeaderHints.Proofs.SwappedRows
import HeaderHints.Proofs.Sessions
import HeaderHints.Proofs.ScanRun
import HeaderHints.Proofs.ScanEnd
import HeaderHints.Proofs.LineFeeds
import HeaderHints.Proofs.FilledRows
import HeaderHints.Proofs.ArgumentOpenings
import HeaderHints.Proofs.TokenShapes
import HeaderHints.Proofs.ItemEnds
import HeaderHints.Proofs.Blocks
import HeaderHints.Proofs.LogicalLines
import HeaderHints.Proofs.StringEnds
import HeaderHints.Proofs.CapturedStrings
import HeaderHints.Proofs.FormatSpecs
import HeaderHints.Proofs.CursorMoves
import HeaderHints.Proofs.SuggestionRecords
