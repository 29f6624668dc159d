import DaveOs.Command.Grammar
import DaveOs.Storage.TransferCleanup
import DaveOs.Update.Cause
import DaveOs.Update.Abort
import DaveOs.Update.WriterExact
import DaveOs.Update.Trials
import DaveOs.Tools.Factory
import DaveOs.Storage.RoundTrip
import DaveOs.Storage.TransferOnce
import DaveOs.Otp.History
import DaveOs.Schedule.Timers
import DaveOs.Schedule.Events
import DaveOs.Console.Frames
import DaveOs.Update.Framing
import DaveOs.Hal.BusClear
import DaveOs.Platform.Tim2
import DaveOs.Otp.Calls
import DaveOs.Otp.Canonical
import DaveOs.Schedule.Nesting
import DaveOs.Hal.Clock
import DaveOs.Hal.Sequence
import DaveOs.Platform.I2cBus
import DaveOs.Logging.Average
import DaveOs.Core.Duration
import DaveOs.Core.Queue
import DaveOs.Watchdog.Health
