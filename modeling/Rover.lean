import Rover.App.Battery
import Rover.App.Bridge
import Rover.App.CommandLine
import Rover.App.Options
import Rover.App.Queue
import Rover.App.Temperature
import Rover.App.Udp
import Rover.App.Wireless
import Rover.Filter.Average
import Rover.Filter.Reset
import Rover.Html.JoyStick
import Rover.Html.Range
import Rover.Html.Telemetry
import Rover.Link.Encodings
import Rover.Link.Packing
import Rover.Link.Receive
import Rover.Link.Replies
import Rover.Link.Retries
import Rover.Link.Statistics
import Rover.Slave.Clocks
import Rover.Slave.Digits
import Rover.Slave.Receiving
import Rover.Slave.TextReplies
import Rover.System.HandsOff
import Rover.System.Lossy
import Rover.System.Settling
import Rover.System.Setup
import Rover.System.Silence
import Rover.System.Wire
import Rover.Ws.Streams
