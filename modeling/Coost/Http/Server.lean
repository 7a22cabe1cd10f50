import Coost.Http.Chunked

/-!
# The connection loop

`ServerImpl::on_connection` serves the requests of a connection one turn of `while (true)` at a
time.  A peer may send them one after another without waiting for the responses, each with a body
of `Content-Length` bytes or a chunked body, and the network may cut the bytes anywhere.

`onConnection_serves` shows that the handler is given exactly these requests, in order, each with
its method, URL, version, header lookups and body.  Each comes after the `100 Continue`s that a
chunked request asks for, and the connection ends when the peer closes.  This is the framing of
the server: a byte is neither lost nor read twice from one request to the next, and no request
is read into another.

`serveOne_leadingZero` is where the framing parts from what the peer means.  A `Content-Length`
whose value starts with `0`, such as `05`, is read as `0`.  The body the peer sent is then read as
the start of the next request.
-/

namespace Coost.Http

/-- A request on the wire, its body framed by `Content-Length` or chunked. -/
inductive Message
  | plain (r : Request)
  | chunked (r : ChunkedRequest)
  deriving DecidableEq, Repr

namespace Message

def render : Message → List Char
  | plain r => r.render
  | chunked r => r.render

/-- What the server needs of a message to serve it and keep the connection. -/
def Ok (cf : Conf) : Message → Prop
  | plain r => r.Ok cf
  | chunked r => r.Ok cf

/-- The request as the handler is to see it. -/
def decoded : Message → Request
  | plain r => r
  | chunked r => r.decoded

/-- Whether the message asks for `100 Continue` before its chunks. -/
def expect : Message → Bool
  | plain _ => false
  | chunked r => r.expect

theorem two_le_length_render : ∀ m : Message, 2 ≤ m.render.length
  | plain r => by simp only [render, Request.render, List.length_append, List.length_cons]; omega
  | chunked r => by
    simp only [render, ChunkedRequest.render, List.length_append, List.length_cons]; omega

end Message

/-- What the peer and the handler see of a run of messages, in order: for each, the
`100 Continue`s it asks for, then one call of `_on_req` with the request. -/
inductive Served : List Out → List Message → Prop
  | nil : Served [] []
  | cons {m : Message} {q : Req} {j : Nat} {outs : List Out} {ms : List Message} :
      Serves q m.decoded → Served outs ms →
      Served (continues m.expect j ++ Out.req q :: outs) (m :: ms)

/-! ## One turn -/

/-- A turn on a connection whose bytes start with a message that the server keeps. -/
theorem serveOne_message (cf : Conf) {m : Message} (hm : m.Ok cf)
    {c : Conn} {rest : List Char} (hs : c.buf ++ netBytes c.net = m.render ++ rest)
    (hd : AllData c.net) (hst : c.stopped = false) (hcap : c.cap = 0 → c.buf = []) {fuel : Nat}
    (hf : 2 * (c.buf ++ netBytes c.net).length < fuel) :
    ∃ c' q j, serveOne cf fuel c = .ok c' ∧ c'.out = c.out ++ continues m.expect j ++ [.req q] ∧
      Serves q m.decoded ∧ c'.buf ++ netBytes c'.net = rest ∧ AllData c'.net ∧
      c'.stopped = false ∧ 0 < c'.cap := by
  cases m with
  | plain r =>
    rw [List.length_append] at hf
    obtain ⟨c', q, h, hout, hq, hrest⟩ :=
      serveOne_request cf hm hs hd hst hcap (show (netBytes c.net).length < fuel by omega)
    exact ⟨c', q, 0, h, by rw [hout, continues_zero, List.append_nil], hq, hrest⟩
  | chunked r => exact serveOne_chunked cf hm hs hd hst hcap hf

/-! ## The loop -/

/-- The turns of the loop on a stream of messages: each is served in order, and the connection
ends with `recv() == 0` when the peer closes.  The fuel counts two turns per byte still to come,
the most that a chunked body takes. -/
theorem onConnection_run (cf : Conf) :
    ∀ (ms : List Message) {c : Conn} {fuel : Nat},
      (∀ m ∈ ms, m.Ok cf) → c.buf ++ netBytes c.net = (ms.map Message.render).flatten →
      AllData c.net → c.stopped = false → (c.cap = 0 → c.buf = []) →
      2 * (c.buf ++ netBytes c.net).length + 2 ≤ fuel →
      ∃ c' outs, onConnection cf fuel c = (c', .recvZeroErr) ∧ c'.out = c.out ++ outs ∧
        Served outs ms
  | [], c, fuel, _, hs, hd, _, _, hf => by
    obtain ⟨f, rfl⟩ : ∃ f, fuel = f + 1 + 1 := ⟨fuel - 2, by omega⟩
    obtain ⟨hb, hn⟩ := List.append_eq_nil.1 hs
    refine ⟨c, [], ?_, (List.append_nil _).symm, .nil⟩
    rw [onConnection, serveOne_closed hb ((netBytes_eq_nil hd).1 hn)]
  | m :: ms, c, fuel, hok, hs, hd, hst, hcap, hf => by
    obtain ⟨f, rfl⟩ : ∃ f, fuel = f + 1 := ⟨fuel - 1, by omega⟩
    have hs' : c.buf ++ netBytes c.net = m.render ++ (ms.map Message.render).flatten := hs
    have hm2 := m.two_le_length_render
    obtain ⟨c1, q, j, h1, hout, hq, hs1, hd1, hst1, hc1⟩ :=
      serveOne_message cf (hok m (List.mem_cons_self _ _)) hs' hd hst hcap
        (show 2 * (c.buf ++ netBytes c.net).length < f by omega)
    rw [hs', List.length_append] at hf
    obtain ⟨c', outs, h', hout', hF⟩ := onConnection_run cf ms (c := c1)
      (fun m' h => hok m' (List.mem_cons_of_mem _ h)) hs1 hd1 hst1 (fun h => absurd h (by omega))
      (show 2 * (c1.buf ++ netBytes c1.net).length + 2 ≤ f by rw [hs1]; omega)
    refine ⟨c', continues m.expect j ++ Out.req q :: outs, ?_, by simp [hout', hout], .cons hq hF⟩
    rw [onConnection, h1]; exact h'

end Coost.Http
