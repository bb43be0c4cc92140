import RelayTimer.Config.Check
import RelayTimer.Config.Reader
import RelayTimer.Firmware.Power
import RelayTimer.Proofs.AddressWords
import RelayTimer.Proofs.AlikeLines
import RelayTimer.Proofs.AlikeStores
import RelayTimer.Proofs.BlankEnds
import RelayTimer.Proofs.BootedBoard
import RelayTimer.Proofs.BoxedMessage
import RelayTimer.Proofs.CanonicalProgram
import RelayTimer.Proofs.CatalogCalls
import RelayTimer.Proofs.CatalogFaults
import RelayTimer.Proofs.CatalogUse
import RelayTimer.Proofs.CheckedConfig
import RelayTimer.Proofs.ChecksumDivision
import RelayTimer.Proofs.ChecksumLinear
import RelayTimer.Proofs.ChecksumPowers
import RelayTimer.Proofs.Clockwork
import RelayTimer.Proofs.ConsoleLine
import RelayTimer.Proofs.DamagedRecord
import RelayTimer.Proofs.Deck
import RelayTimer.Proofs.DeckLive
import RelayTimer.Proofs.DeckQueue
import RelayTimer.Proofs.DisplayedState
import RelayTimer.Proofs.Draining
import RelayTimer.Proofs.EditedConfig
import RelayTimer.Proofs.EngineShelf
import RelayTimer.Proofs.Errands
import RelayTimer.Proofs.FailedCalls
import RelayTimer.Proofs.FailedScan
import RelayTimer.Proofs.FallibleStore
import RelayTimer.Proofs.FlashAsMemory
import RelayTimer.Proofs.FlashCells
import RelayTimer.Proofs.FlashCommit
import RelayTimer.Proofs.FlashErrands
import RelayTimer.Proofs.FlashFollows
import RelayTimer.Proofs.FlashFound
import RelayTimer.Proofs.FlashRun
import RelayTimer.Proofs.HopelessWord
import RelayTimer.Proofs.JumperWiring
import RelayTimer.Proofs.KeptText
import RelayTimer.Proofs.KeptTimes
import RelayTimer.Proofs.ListedConfig
import RelayTimer.Proofs.MarksFound
import RelayTimer.Proofs.Orders
import RelayTimer.Proofs.PacedPrograms
import RelayTimer.Proofs.PrintedProgram
import RelayTimer.Proofs.ProgramGrammar
import RelayTimer.Proofs.ReadingPrograms
import RelayTimer.Proofs.RecordCodec
import RelayTimer.Proofs.Recording
import RelayTimer.Proofs.RecordingClock
import RelayTimer.Proofs.RecordingRun
import RelayTimer.Proofs.RecordingStraight
import RelayTimer.Proofs.RecordingTimeline
import RelayTimer.Proofs.RelayOwner
import RelayTimer.Proofs.RunRequests
import RelayTimer.Proofs.SessionStep
import RelayTimer.Proofs.SettledScan
import RelayTimer.Proofs.Shelf
import RelayTimer.Proofs.ShownTimes
import RelayTimer.Proofs.SlotPages
import RelayTimer.Proofs.SlotWalk
import RelayTimer.Proofs.SpelledWords
import RelayTimer.Proofs.StorageWork
import RelayTimer.Proofs.StoredImage
import RelayTimer.Proofs.TaskTurns
import RelayTimer.Proofs.TimerPosts
import RelayTimer.Proofs.TokenPlaces
import RelayTimer.Proofs.TokenWords
import RelayTimer.Proofs.Traffic
import RelayTimer.Proofs.TrimmedLine
import RelayTimer.Proofs.TypedLines
import RelayTimer.Proofs.Unrolling
import RelayTimer.Proofs.WatchedContact
import RelayTimer.Proofs.WholeReplies
import RelayTimer.Proofs.WrittenConfig
import RelayTimer.Request.Reader
import RelayTimer.Session
import RelayTimer.Store.Ram
import RelayTimer.Text.Box
