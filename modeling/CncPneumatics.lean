import CncPneumatics.Asx.Debounce
import CncPneumatics.Asx.DigitalInput
import CncPneumatics.Asx.DigitalOutput
import CncPneumatics.Asx.DirectInput
import CncPneumatics.Asx.DirectPins
import CncPneumatics.Asx.DirectServed
import CncPneumatics.Asx.Exchange
import CncPneumatics.Asx.FilterTime
import CncPneumatics.Asx.Ioport
import CncPneumatics.Asx.NoteParser
import CncPneumatics.Asx.Notes
import CncPneumatics.Asx.OnReactor
import CncPneumatics.Asx.Outputs
import CncPneumatics.Asx.Piezzo
import CncPneumatics.Asx.Queue
import CncPneumatics.Asx.QueueIndices
import CncPneumatics.Asx.QueueRefines
import CncPneumatics.Asx.Reactor
import CncPneumatics.Asx.ReactorRegister
import CncPneumatics.Asx.ReactorRun
import CncPneumatics.Asx.ReactorSort
import CncPneumatics.Asx.ReactorUrgent
import CncPneumatics.Asx.Sequence
import CncPneumatics.Asx.SequencePeriod
import CncPneumatics.Asx.SharedHandler
import CncPneumatics.Asx.Sounds
import CncPneumatics.Asx.Timer
import CncPneumatics.Asx.TimerAgenda
import CncPneumatics.Asx.TimerArgument
import CncPneumatics.Asx.TimerCauses
import CncPneumatics.Asx.TimerChain
import CncPneumatics.Asx.TimerDue
import CncPneumatics.Asx.TimerLedger
import CncPneumatics.Asx.TimerLimits
import CncPneumatics.Asx.TimerOrder
import CncPneumatics.Asx.TimerRefines
import CncPneumatics.Asx.TimerRing
import CncPneumatics.Asx.TimerRollOver
import CncPneumatics.Asx.TimerServed
import CncPneumatics.Asx.ToneLength
import CncPneumatics.Asx.Tones
import CncPneumatics.Asx.TuneEnds
import CncPneumatics.Asx.Twim
import CncPneumatics.Asx.TwimRegisters
import CncPneumatics.Asx.Twis
import CncPneumatics.Asx.TwoWire
import CncPneumatics.Boards.Agreement
import CncPneumatics.Boards.Chuck
import CncPneumatics.Boards.Delivery
import CncPneumatics.Boards.Model
import CncPneumatics.Boards.Readings
import CncPneumatics.Boards.Rest
import CncPneumatics.Boards.Valves
import CncPneumatics.Boards.Wire
import CncPneumatics.Common.Agenda
import CncPneumatics.Common.Bits
import CncPneumatics.Common.Client
import CncPneumatics.Common.Deque
import CncPneumatics.Common.History
import CncPneumatics.Common.Loop
import CncPneumatics.Common.Mailbox
import CncPneumatics.Common.Outcome
import CncPneumatics.Common.Project
import CncPneumatics.Common.Relay
import CncPneumatics.Common.Ring
import CncPneumatics.Common.Run
import CncPneumatics.Controller.Bus
import CncPneumatics.Controller.Command
import CncPneumatics.Controller.ErrorCount
import CncPneumatics.Controller.FailSafe
import CncPneumatics.Controller.Following
import CncPneumatics.Controller.Handlers
import CncPneumatics.Controller.Heartbeat
import CncPneumatics.Controller.Inputs
import CncPneumatics.Controller.Model
import CncPneumatics.Controller.OnReactor
import CncPneumatics.Controller.Parts
import CncPneumatics.Controller.Posts
import CncPneumatics.Controller.Schedule
import CncPneumatics.Controller.Services
import CncPneumatics.Controller.Timeout
import CncPneumatics.Controller.Tune
import CncPneumatics.Hub.Clock
import CncPneumatics.Hub.Exclusivity
import CncPneumatics.Hub.Freshness
import CncPneumatics.Hub.Grace
import CncPneumatics.Hub.OnReactor
import CncPneumatics.Hub.Progress
import CncPneumatics.Hub.Protocol
import CncPneumatics.Hub.Receipt
import CncPneumatics.Hub.Slave
import CncPneumatics.Hub.Steady
import CncPneumatics.Hub.Traffic
import CncPneumatics.OpCodes
