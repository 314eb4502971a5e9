import AvrCec.Build
import AvrCec.Messages
import AvrCec.AckPolicy
import AvrCec.Drivers
import AvrCec.Bounds
import AvrCec.Delivery
import AvrCec.Decoder
import AvrCec.Tolerance
import AvrCec.Sending
import AvrCec.Mail
import AvrCec.Retries
import AvrCec.Abort
import AvrCec.AddrSearch
import AvrCec.Heard
import AvrCec.Listening
import AvrCec.Success
import AvrCec.Agreement
import AvrCec.UsiRestart
import AvrCec.PwmRestart
import AvrCec.Restart
import AvrCec.Capped
import AvrCec.MulFixed
import AvrCec.Jiffies
import AvrCec.SampleClock
import AvrCec.Watchdog
import AvrCec.WatchdogClock
import AvrCec.Slots
import AvrCec.NackFrame
import AvrCec.Release
import AvrCec.FreeTime
import AvrCec.Latency
import AvrCec.PwmWave
import AvrCec.Alone
import AvrCec.Claiming
import AvrCec.Halt
import AvrCec.PwmTiming
import AvrCec.Overheard
import AvrCec.Loopback
import AvrCec.Lib.Shift
import AvrCec.UsiLoopback
