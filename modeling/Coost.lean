import Coost.Basic
import Coost.Mutex.Basic
import Coost.Mutex.Safety
import Coost.Mutex.Fifo
import Coost.Mutex.Queue
import Coost.Event.Basic
import Coost.Event.Properties
import Coost.Scheduler.Basic
import Coost.Scheduler.Stack
import Coost.Scheduler.Timer
import Coost.Scheduler.Expire
import Coost.Scheduler.Manager
import Coost.Pipe.Basic
import Coost.Pipe.Invariant
import Coost.Pipe.Failure
import Coost.Pipe.Ring
import Coost.Pipe.Linear
import Coost.Pipe.Element
import Coost.Http.Chunk
import Coost.Http.Head
import Coost.Http.Scan
import Coost.Http.Grammar
import Coost.Http.Request
import Coost.Http.Body
import Coost.Http.Conn
import Coost.Http.Recv
import Coost.Http.Framing
import Coost.Http.Chunked
import Coost.Http.Server
import Coost.Pool.Basic
import Coost.Handle
import Coost.Fast.Itoa
import Coost.Fast.Stream
