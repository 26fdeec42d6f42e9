import Cs324.Catmatch.Lines
import Cs324.Csapp.Echo
import Cs324.Csapp.EchoCount
import Cs324.Csapp.EchoThreads
import Cs324.Csapp.ForkServer
import Cs324.Csapp.Sio
import Cs324.Dns.Answers
import Cs324.Dns.Bounds
import Cs324.Dns.Decompression
import Cs324.Dns.Printing
import Cs324.Dns.Query
import Cs324.Dns.Records
import Cs324.EpollProxy.Slots
import Cs324.EpollProxy.ReadLoop
import Cs324.EpollProxy.Relay
import Cs324.EpollProxy.Rewriting
import Cs324.EpollProxy.Response
import Cs324.Mandelbrot.Pixels
import Cs324.Pipeline.Ending
import Cs324.Pipeline.Groups
import Cs324.Pipeline.Separation
import Cs324.Pipeline.Wiring
import Cs324.Shell.Continuing
import Cs324.Shell.InputLines
import Cs324.Shell.Managed
import Cs324.Shell.Reports
import Cs324.Shell.Resting
import Cs324.Shell.Scanning
import Cs324.SocketClient.Conversation
import Cs324.SocketClient.Receiving
import Cs324.ThreadPool.Calls
import Cs324.ThreadPool.Indices
import Cs324.ThreadPool.Overruns
import Cs324.ThreadPool.ReadCounts
import Cs324.ThreadPool.Progress
import Cs324.ThreadPool.Relaying
import Cs324.Tiny.Proxied
import Cs324.Tiny.Slow
