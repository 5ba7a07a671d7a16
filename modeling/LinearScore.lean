import LinearScore.Main
import LinearScore.Terminal.Vocabulary
import LinearScore.Proofs.Content
import LinearScore.Proofs.Context
import LinearScore.Proofs.Timing
import LinearScore.Proofs.InForce
import LinearScore.Proofs.SystemEncoding
import LinearScore.Proofs.SystemDurations
import LinearScore.Proofs.OutlineEvents
import LinearScore.Proofs.OutlineTree
import LinearScore.Proofs.NumberText
import LinearScore.Proofs.PartOutline
import LinearScore.Proofs.PartMarkup
import LinearScore.Proofs.Inference
import LinearScore.Proofs.QuarterTokens
import LinearScore.Proofs.UnitsOfTime
import LinearScore.Proofs.ListedOrder
import LinearScore.Proofs.Findings
import LinearScore.Proofs.SoundElements
import LinearScore.Proofs.HeldParts
import LinearScore.Proofs.StableTokens
import LinearScore.Proofs.UnknownTexts
import LinearScore.Proofs.OpenTies
import LinearScore.Proofs.RestatedKeys
import LinearScore.Proofs.KeyTokens
import LinearScore.Proofs.Words
import LinearScore.Proofs.Vocabulary
import LinearScore.Proofs.Emitted
import LinearScore.Proofs.ClosedLanguage
import LinearScore.Proofs.Pieces
import LinearScore.Proofs.Lines
import LinearScore.Proofs.FileText
import LinearScore.Proofs.ScoreFile
import LinearScore.Proofs.JoinedSystems
import LinearScore.Proofs.SystemsOfFile
import LinearScore.Proofs.BinaryLadder
import LinearScore.Proofs.CheckedSystems
import LinearScore.Proofs.ReadValues
import LinearScore.Proofs.Rewritten
import LinearScore.Proofs.ScoreMarkup
import LinearScore.Proofs.GroupedOnce
import LinearScore.Proofs.BeamLevels
import LinearScore.Proofs.SignsInForce
import LinearScore.Proofs.TakenTies
import LinearScore.Proofs.KeptModifiers
import LinearScore.Proofs.ChordGroups
import LinearScore.Proofs.ChordBeams
import LinearScore.Proofs.LayoutBreaks
import LinearScore.Proofs.CurrentClefs
import LinearScore.Proofs.MeasureRests
import LinearScore.Proofs.DetectedFormat
