import Coost.Http.Body
import Coost.Http.Chunk

/-!
# The connection loop of the HTTP server

`ServerImpl::on_connection(conn)` (`src/src/so/http.cc`) serves the requests of one connection,
one turn of its `while (true)` per request:

1. `recv_beg` and the loop on `buf.find("\r\n\r\n")` receive until the buffer holds the end of a
   head (`recvHead`);
2. `parse_http_req` reads the head in place, and its last block reads `Content-Length`;
3. the body: the `Content-Length` bytes with `recvn`, or, under `Transfer-Encoding: chunked`, the
   chunk loop and the loop on the trailers (`recvBody`, `recvChunks`, `recvTrailers`);
4. `handle_req` calls the handler, sends the response, and closes the connection or keeps it;
5. the buffer drops the request, and the bytes received after it stay for the next turn.

The network is a list of events (`Net`): bytes of the peer, a timeout, a failure, or a call of
`ServerImpl::exit()`; after the last event the peer has closed the connection.  A `recv` of `n`
bytes takes at most `n` bytes of the next event, so the peer's bytes may arrive cut in any way.
The model returns the state at the end (`Conn`), with what the server did on the way (`Out`: the
requests given to the handler, the interim `100 Continue` responses), and the label at which the
connection ended (`Exit`).

`tcp::Connection` (`recv`, `recvn`, `send`), `fastring` (`find`, `trim`, `tolower`) and the
handler are not part of the sources; they are modelled from their call sites.  The counts passed
to `recvn` go through `(int)`.  In the chunk loop the model follows a count that the cast keeps
or wraps to a positive value, and stops (`Exit.badCount`) where it is zero or negative, since
what `recvn` then does is not in the sources; for a `Content-Length` body the count is below
`2 ^ 31`.  The count of the head loop's `recv`, `(int)(buf.capacity() - buf.size())`, is taken
as the difference itself.  What the handler
answers does not change the control flow (only whether `send` fails does), so the model keeps
the request the handler gets and not its response.  The buffer's capacity follows the rules of
`fast::stream` (`src/include/co/fast.h`), of which `fastring` is one.
-/

namespace Coost.Http

/-! ## The capacity of the buffer -/

/-- `fast::stream::reserve(n)`: the capacity after it. -/
def reserveCap (cap n : Nat) : Nat := if cap < n then n else cap

/-- `fast::stream::ensure(n)` on a stream of `size` bytes: the capacity after it. -/
def ensureCap (cap size n : Nat) : Nat :=
  if cap < size + n + 1 then cap + (cap >>> 1) + n + 1 else cap

/-! ## The network -/

/-- What the network does at one call on the connection. -/
inductive Net
  /-- The bytes `b :: bs` of the peer are there; a `recv` of `n` bytes takes the first `n`. -/
  | data (b : Char) (bs : List Char)
  /-- The receive times out: it returns `-1` and `co::timeout()` holds.  `crowded` is
  `_serv.conn_num() > FLG_http_max_idle_conn` at that time. -/
  | timeout (crowded : Bool)
  /-- The connection fails: the next `recv`, `recvn` or `send` returns `-1`. -/
  | error
  /-- `ServerImpl::exit()` sets `_stopped`. -/
  | stop
  deriving DecidableEq, Repr

/-- What a receive returns: `r > 0` bytes, `0` when the peer closed, or `-1`. -/
inductive Recv
  | bytes (bs : List Char)
  | closed
  | timeout (crowded : Bool)
  | error
  deriving DecidableEq, Repr

/-- The bytes `bs` in front of the network, as an event when there are some. -/
def pushBytes : List Char → List Net → List Net
  | [], net => net
  | b :: bs, net => .data b bs :: net

/-- `conn.recv(p, n, ms)` with `n > 0`: at most `n` bytes of the next event, the rest staying in
front.  `st` is `_stopped`, which an `exit()` before the call sets. -/
def recvNet (n : Nat) : List Net → Bool → Recv × List Net × Bool
  | [], st => (.closed, [], st)
  | .data b bs :: net, st => (.bytes ((b :: bs).take n), pushBytes ((b :: bs).drop n) net, st)
  | .timeout c :: net, st => (.timeout c, net, st)
  | .error :: net, st => (.error, net, st)
  | .stop :: net, _ => recvNet n net true

/-- `conn.recvn(p, n, ms)`: exactly `n` bytes, over as many events as it takes; `0` when the peer
closes first, `-1` on a timeout or a failure. -/
def recvnNet : Nat → List Net → Bool → Recv × List Net × Bool
  | 0, net, st => (.bytes [], net, st)
  | _ + 1, [], st => (.closed, [], st)
  | n + 1, .data b bs :: net, st =>
    if n + 1 ≤ (b :: bs).length then
      (.bytes ((b :: bs).take (n + 1)), pushBytes ((b :: bs).drop (n + 1)) net, st)
    else
      match recvnNet (n + 1 - (b :: bs).length) net st with
      | (.bytes r, net', st') => (.bytes (b :: bs ++ r), net', st')
      | o => o
  | _ + 1, .timeout c :: net, st => (.timeout c, net, st)
  | _ + 1, .error :: net, st => (.error, net, st)
  | n + 1, .stop :: net, _ => recvnNet (n + 1) net true

/-- A read of `_stopped`: the calls of `exit()` made before it set it. -/
def readStopped : List Net → Bool → Bool × List Net
  | .stop :: net, _ => readStopped net true
  | net, st => (st, net)

/-- `conn.send(...)` of a response: `false` when the connection fails. -/
def sendNet : List Net → Bool → Bool × List Net × Bool
  | .stop :: net, _ => sendNet net true
  | .error :: net, st => (false, net, st)
  | net, st => (true, net, st)

/-! ## The server -/

/-- The flags that the loop reads, both `uint32` flags (`DEF_uint32`). -/
structure Conf where
  /-- `http_max_header_size`. -/
  maxHeaderSize : Nat
  /-- `http_max_body_size`. -/
  maxBodySize : Nat
  maxHeaderSize_lt : maxHeaderSize < 2 ^ 32
  maxBodySize_lt : maxBodySize < 2 ^ 32

/-- The defaults of the flags: `4096` and `8 << 20`. -/
def Conf.default : Conf := ⟨4096, 8 <<< 20, by decide, by decide⟩

/-- `(int)k`: the count that `recvn` gets, `k` modulo `2 ^ 32` as a signed number. -/
def intCount (k : Nat) : Int := (k : Int).bmod (2 ^ 32)

/-- A count below `2 ^ 31` is an `int`, and the cast keeps it. -/
theorem intCount_of_lt {k : Nat} (h : k < 2 ^ 31) : intCount k = k := by
  rw [intCount, Int.bmod_def]
  split <;> omega

/-- What `_on_req` gets: the buffer, the request, `preq->body` (where the body starts) and
`preq->body_size`. -/
structure Req where
  buf : List Char
  req : HttpReq
  body : Nat
  bodySize : Nat
  deriving DecidableEq, Repr

/-- The body as the handler reads it: `body_size` bytes from `buf.data() + body`. -/
def Req.bodyBytes (r : Req) : List Char := window r.buf r.body r.bodySize

/-- What the server does that the peer sees, before the end of the connection. -/
inductive Out
  /-- `_on_req(req, res)`, then the response is sent. -/
  | req (r : Req)
  /-- `send_error_message(100, pres, &conn)`: an interim `100 Continue`. -/
  | continue100
  deriving DecidableEq, Repr

/-- The request of an `Out.req`. -/
def Out.req? : Out → Option Req
  | .req r => some r
  | .continue100 => none

/-- The labels at which `on_connection` leaves its loop. -/
inductive Exit
  /-- `recv_zero_err`: the peer closed the connection; `conn.close()`. -/
  | recvZeroErr
  /-- `idle_err`: a timeout while more than `http_max_idle_conn` connections are open;
  `conn.reset()`. -/
  | idleErr
  /-- The server stopped while the connection waited for a request; `conn.reset()`. -/
  | stoppedIdle
  /-- `header_too_long_err`, then `reset_conn`. -/
  | headerTooLongErr
  /-- `body_too_long_err`: 413 is sent, then `reset_conn`. -/
  | bodyTooLongErr
  /-- `parse_err`: the status `r` is sent, then `reset_conn`. -/
  | parseErr (r : Nat)
  /-- `recv_err`, then `reset_conn`. -/
  | recvErr
  /-- `send_err`, then `reset_conn`. -/
  | sendErr
  /-- `chunk_err`, then `reset_conn`. -/
  | chunkErr
  /-- `recvn` gets a count that `(int)` made zero or negative; `tcp::Connection` is not part of
  the sources, and the model stops there. -/
  | badCount
  /-- A `Transfer-Encoding` other than `chunked`: 501 is sent, then `reset_conn`. -/
  | notImplemented
  /-- `need_close` after a response: `conn.close()`. -/
  | close
  /-- `_stopped` after a response: `reset_conn`. -/
  | stopped
  /-- The model's bound on the turns ran out; enough fuel never gets here. -/
  | fuel
  deriving DecidableEq, Repr

/-- The state that `on_connection` carries from one call on the connection to the next. -/
structure Conn where
  /-- The bytes of `buf`. -/
  buf : List Char
  /-- `buf.capacity()`. -/
  cap : Nat
  /-- The network from now on. -/
  net : List Net
  /-- `_stopped`, as the connection last saw it. -/
  stopped : Bool
  /-- What the server did so far, oldest first. -/
  out : List Out
  deriving DecidableEq, Repr

/-- A new connection: `fastring buf` is empty and has no block. -/
def Conn.init (net : List Net) : Conn := ⟨[], 0, net, false, []⟩

/-- `fastring::find(p)`: the first index at which `p` occurs. -/
def findStr (p : List Char) : List Char → Option Nat
  | [] => none
  | l@(_ :: t) => if p.isPrefixOf l then some 0 else (findStr p t).map (· + 1)

/-- `fastring::tolower`: ASCII lower case. -/
def tolower (s : List Char) : List Char := s.map Char.toLower

/-- `recv_beg` and the loop `while ((pos = buf.find("\r\n\r\n")) == buf.npos)`: receive until the
buffer holds the end of a head, and return its position `pos`.  While the buffer has no block it
waits for a single byte with the idle timeout; then it receives into the free part of the block,
after growing the block by 1024 bytes.  One turn of the model is one receive. -/
def recvHead (cf : Conf) : Nat → Conn → Except (Conn × Exit) (Conn × Nat)
  | 0, c => .error (c, .fuel)
  | fuel + 1, c =>
    if c.cap = 0 then
      match recvNet 1 c.net c.stopped with
      | (.bytes bs, net, st) =>
        recvHead cf fuel { c with
          buf := c.buf ++ bs, cap := ensureCap (reserveCap c.cap 4096) c.buf.length 1,
          net := net, stopped := st }
      | (.closed, net, st) => .error ({ c with net := net, stopped := st }, .recvZeroErr)
      | (.error, net, st) => .error ({ c with net := net, stopped := st }, .recvErr)
      | (.timeout crowded, net, st) =>
        match readStopped net st with
        | (true, net) => .error ({ c with net := net, stopped := true }, .stoppedIdle)
        | (false, net) =>
          if crowded then .error ({ c with net := net, stopped := false }, .idleErr)
          else recvHead cf fuel { c with net := net, stopped := false }
    else
      match findCrlfCrlf c.buf with
      | some pos => .ok (c, pos)
      | none =>
        if c.buf.length > cf.maxHeaderSize then .error (c, .headerTooLongErr) else
        let cap := reserveCap c.cap (c.buf.length + 1024)
        match recvNet (cap - c.buf.length) c.net c.stopped with
        | (.bytes bs, net, st) =>
          recvHead cf fuel { c with
            buf := c.buf ++ bs, cap := reserveCap cap (c.buf.length + bs.length + 1),
            net := net, stopped := st }
        | (.closed, net, st) => .error ({ c with net := net, stopped := st }, .recvZeroErr)
        | (.error, net, st) => .error ({ c with net := net, stopped := st }, .recvErr)
        | (.timeout crowded, net, st) =>
          if crowded then .error ({ c with net := net, stopped := st }, .idleErr)
          else if c.buf = [] then recvHead cf fuel { c with cap := 0, net := net, stopped := st }
          else .error ({ c with net := net, stopped := st }, .recvErr)

/-- The loop `while (true)` of a chunked body, one receive or one line per turn.  `c.buf` holds the
head and the data so far, `s` the bytes received after them, and `hlen` is the length of the
head.  A line of size `0` ends it, with `s` from that line's CRLF on, and
`preq->body_size = (uint32_t)(buf.size() - hlen)`. -/
def recvChunks (cf : Conf) (expect : Bool) (hlen : Nat) :
    Nat → Conn → List Char → Except (Conn × Exit) (Conn × List Char × Nat)
  | 0, c, _ => .error (c, .fuel)
  | fuel + 1, c, s =>
    match findStr "\r\n".toList s with
    | none =>
      let c := if expect then { c with out := c.out ++ [Out.continue100] } else c
      match recvNet 32 c.net c.stopped with
      | (.bytes bs, net, st) => recvChunks cf expect hlen fuel { c with net := net, stopped := st }
          (s ++ bs)
      | (.closed, net, st) => .error ({ c with net := net, stopped := st }, .recvZeroErr)
      | (_, net, st) => .error ({ c with net := net, stopped := st }, .recvErr)
    | some 0 => recvChunks cf expect hlen fuel c (s.drop 2)
    | some (x + 1) =>
      match chunkLine cf.maxBodySize s (x + 1) with
      | .chunkErr => .error (c, .chunkErr)
      | .bodyTooLong => .error (c, .bodyTooLongErr)
      | .last => .ok (c, s.drop (x + 1), (c.buf.length - hlen) % 2 ^ 32)
      | .data n =>
        -- the bytes of the chunk already in `s`
        let o := s.length - (x + 1) - 2
        let r : Except (Conn × Exit) (Conn × List Char) :=
          if o < n then
            let buf := c.buf ++ s.drop (x + 1 + 2)
            let cap := reserveCap (ensureCap c.cap c.buf.length o) (buf.length + (n - o + 2))
            -- `recvn` of `(int)(n - o + 2)` bytes, then `buf.resize(buf.size() + r - 2)`
            if intCount (n - o + 2) ≤ 0 then .error (c, .badCount) else
            match recvnNet (intCount (n - o + 2)).toNat c.net c.stopped with
            | (.bytes bs, net, st) =>
              .ok ({ c with
                buf := (buf ++ bs).take (buf.length + bs.length - 2),
                cap := reserveCap cap (buf.length + bs.length - 2 + 1),
                net := net, stopped := st }, [])
            | (.closed, net, st) => .error ({ c with net := net, stopped := st }, .recvZeroErr)
            | (_, net, st) => .error ({ c with net := net, stopped := st }, .recvErr)
          else
            .ok ({ c with
                buf := c.buf ++ (s.drop (x + 1 + 2)).take n, cap := ensureCap c.cap c.buf.length n },
              s.drop (if s.length ≥ x + 1 + 4 + n then x + 1 + 4 + n else x + 1 + 2 + n))
        match r with
        | .error e => .error e
        | .ok (c, s) =>
          if c.buf.length - hlen > cf.maxBodySize then .error (c, .bodyTooLongErr)
          else recvChunks cf expect hlen fuel c s

/-- The loop `while ((x = s.find("\r\n\r\n")) == s.npos)` after the last chunk: receive until `s`
holds the end of the trailers, and return its position. -/
def recvTrailers : Nat → Conn → List Char → Except (Conn × Exit) (Conn × List Char × Nat)
  | 0, c, _ => .error (c, .fuel)
  | fuel + 1, c, s =>
    match findCrlfCrlf s with
    | some x => .ok (c, s, x)
    | none =>
      match recvNet 32 c.net c.stopped with
      | (.bytes bs, net, st) => recvTrailers fuel { c with net := net, stopped := st } (s ++ bs)
      | (.closed, net, st) => .error ({ c with net := net, stopped := st }, .recvZeroErr)
      | (_, net, st) => .error ({ c with net := net, stopped := st }, .recvErr)

/-- The end of a chunked body: `s[x + 2] = '\0'`, then either no trailers (`s` is `\r\n\r\n`) or
the trailers are appended to the buffer and read by `parse_http_headers` into the request's
headers.  It returns the request as the handler gets it, and `total_len`. -/
def endChunks (c : Conn) (req : HttpReq) (hlen size : Nat) (s : List Char) (x : Nat) :
    Except (Conn × Exit) (Conn × Req × Nat) :=
  let s := s.set (x + 2) '\x00'
  if s.length = 4 then .ok (c, ⟨c.buf, req, hlen % 2 ^ 32, size⟩, c.buf.length)
  else
    let total := c.buf.length + x + 4
    let o := c.buf.length + (if byteAt s 0 = '\r' ∧ byteAt s 1 = '\n' then 2 else 0)
    let buf := c.buf ++ s
    let cap := ensureCap c.cap c.buf.length s.length
    match parseHttpHeaders (total - 2) (total - 2) buf o req.arr with
    | .error r => .error ({ c with buf := buf, cap := cap }, .parseErr r)
    | .ok (buf, arr) =>
      .ok ({ c with buf := buf, cap := cap }, ⟨buf, { req with arr := arr }, hlen % 2 ^ 32, size⟩,
        total)

/-- The body of a request whose head `parse_http_req` accepted with body size `n`, up to
`handle_req`.  `c.buf` holds the parsed head (its end is at `pos + 4`) and what came after it.  It
returns the request as the handler gets it, with `preq->body = (uint32_t)(pos + 4)`, and
`total_len`.  The count `(int)(total_len - buf.size())` of `recvn` is at most `body_size`, an
`int`, so the cast keeps it; the model stops where it would not. -/
def recvBody (cf : Conf) (fuel : Nat) (c : Conn) (pos : Nat) (req : HttpReq) (n : Nat) :
    Except (Conn × Exit) (Conn × Req × Nat) :=
  if 0 < n then
    let total := pos + 4 + n
    if c.buf.length < total then
      let cap := reserveCap c.cap total
      if intCount (total - c.buf.length) ≠ ((total - c.buf.length : Nat) : Int) then
        .error (c, .badCount) else
      match recvnNet (total - c.buf.length) c.net c.stopped with
      | (.bytes bs, net, st) =>
        .ok ({ c with
            buf := c.buf ++ bs, cap := reserveCap cap (total + 1), net := net, stopped := st },
          ⟨c.buf ++ bs, req, (pos + 4) % 2 ^ 32, n⟩, total)
      | (.closed, net, st) => .error ({ c with net := net, stopped := st }, .recvZeroErr)
      | (_, net, st) => .error ({ c with net := net, stopped := st }, .recvErr)
    else .ok (c, ⟨c.buf, req, (pos + 4) % 2 ^ 32, n⟩, total)
  else
    let te := header c.buf req.arr "Transfer-Encoding".toList
    if te = [] then .ok (c, ⟨c.buf, req, (pos + 4) % 2 ^ 32, 0⟩, pos + 4)
    else if te ≠ "chunked".toList then .error (c, .notImplemented)
    else
      let expect := decide (header c.buf req.arr "Expect".toList = "100-continue".toList)
      let hlen := pos + 4
      -- the bytes after the head move to `s`
      let c' := if hlen < c.buf.length then
          { c with buf := c.buf.take hlen, cap := reserveCap c.cap (hlen + 1) } else c
      let s := c.buf.drop hlen
      match recvChunks cf expect hlen fuel c' s with
      | .error e => .error e
      | .ok (c, s, size) =>
        match recvTrailers fuel c s with
        | .error e => .error e
        | .ok (c, s, x) => endChunks c req hlen size s x

/-- `need_close` of `handle_req`: HTTP/1.1 closes on `Connection: close` (in that case only),
HTTP/1.0 unless the header is `keep-alive` in any case. -/
def needClose : Version → List Char → Bool
  | .http11, conn => decide (conn ≠ [] ∧ conn = "close".toList)
  | .http10, conn => decide (conn = [] ∨ tolower conn ≠ "keep-alive".toList)

/-- One turn of `while (true)`: a request, its body, the handler and its response, then the
buffer drops the request and `_stopped` is read. -/
def serveOne (cf : Conf) (fuel : Nat) (c : Conn) : Except (Conn × Exit) Conn :=
  match recvHead cf fuel c with
  | .error e => .error e
  | .ok (c, pos) =>
    -- `buf[pos + 2] = '\0'`, then `parse_http_req(&buf, pos + 2, preq)`
    let m := c.buf.set (pos + 2) '\x00'
    match parseHttpReq m (pos + 2) with
    | .error r => .error ({ c with buf := m }, .parseErr r)
    | .ok (m, req) =>
      match parseBodySize cf.maxBodySize (header m req.arr "CONTENT-LENGTH".toList) with
      | .error r => .error ({ c with buf := m }, .parseErr r)
      | .ok n =>
        match recvBody cf fuel { c with buf := m } pos req n with
        | .error e => .error e
        | .ok (c, r, total) =>
          let close := needClose r.req.version (header r.buf r.req.arr "Connection".toList)
          let c := { c with out := c.out ++ [Out.req r] }
          match sendNet c.net c.stopped with
          | (false, net, st) => .error ({ c with net := net, stopped := st }, .sendErr)
          | (true, net, st) =>
            if close then .error ({ c with net := net, stopped := st }, .close)
            else
              match readStopped net st with
              | (true, net) =>
                .error ({ c with buf := c.buf.drop total, net := net, stopped := true }, .stopped)
              | (false, net) => .ok { c with buf := c.buf.drop total, net := net, stopped := false }

/-- `ServerImpl::on_connection`: the turns of `while (true)` until the connection ends. -/
def onConnection (cf : Conf) : Nat → Conn → Conn × Exit
  | 0, c => (c, .fuel)
  | fuel + 1, c =>
    match serveOne cf fuel c with
    | .error (c, e) => (c, e)
    | .ok c => onConnection cf fuel c

end Coost.Http
