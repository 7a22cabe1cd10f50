import Coost.Http.Recv
import Coost.Http.Request

/-!
# Requests one after another on a connection

A peer sends requests one after another on a connection, each a head of the grammar, the empty
line, and a body of `Content-Length` bytes.  `serveOne_request` shows that a turn of
`on_connection` gives the handler the request at the start of the bytes, with its method, URL,
version, header lookups and body, and keeps exactly the bytes that follow it, for every way the
network cuts them.

The proof follows the turn:

* the first `\r\n\r\n` of a request is the end of its head (`findCrlfCrlf_head`), and the head
  loop receives until it is in the buffer, whatever the cuts (`recvHead_found`);
* `parse_http_req` reads the head (`serveOne_head`, shared with chunked requests) and its
  `Content-Length` (`parseBodySize_of_contentLength`);
* `recvn` receives the rest of the body, and the buffer keeps what follows it
  (`serveOne_request`).
-/

namespace Coost.Http

/-! ## The end of a head -/

/-- `"\r\n\r\n"`. -/
def crlfCrlf : List Char := "\r\n\r\n".toList

theorem findStr_crlfCrlf_here (rest : List Char) :
    findStr crlfCrlf ('\r' :: '\n' :: '\r' :: '\n' :: rest) = some 0 := by
  simp [findStr, crlfCrlf]

/-- Bytes without a CR cannot start `\r\n\r\n`. -/
theorem findStr_crlfCrlf_append {A : List Char} (hA : '\r' ∉ A) (B : List Char) :
    findStr crlfCrlf (A ++ B) = (findStr crlfCrlf B).map (· + A.length) :=
  findStr_append_of_not_mem B hA

/-- A CRLF followed by a byte other than CR does not start `\r\n\r\n`. -/
theorem findStr_crlfCrlf_skip {c : Char} (hc : c ≠ '\r') (rest : List Char) :
    findStr crlfCrlf ('\r' :: '\n' :: c :: rest) = (findStr crlfCrlf (c :: rest)).map (· + 2) := by
  have h1 := findStr_crlfCrlf_append (A := ['\n']) (by decide) (c :: rest)
  rw [findStr, if_neg (by simp [crlfCrlf, List.isPrefixOf, Ne.symm hc]), List.singleton_append.symm,
    h1, Option.map_map]
  rfl

/-- Lines, each ended by CRLF. -/
def crlfLines (ls : List (List Char)) : List Char := (ls.map (· ++ ['\r', '\n'])).flatten

@[simp] theorem crlfLines_cons (L : List Char) (ls : List (List Char)) :
    crlfLines (L :: ls) = L ++ '\r' :: '\n' :: crlfLines ls := by
  simp [crlfLines]

/-- Lines without a CR, each ended by CRLF, then an empty line: the first `\r\n\r\n` is the end of
the last line. -/
theorem findStr_lines (rest : List Char) : ∀ (L : List Char) (ls : List (List Char)),
    (∀ l ∈ L :: ls, '\r' ∉ l) → (∀ l ∈ ls, l ≠ []) →
    findStr crlfCrlf (crlfLines (L :: ls) ++ '\r' :: '\n' :: rest) =
      some ((crlfLines (L :: ls)).length - 2)
  | L, [], hcr, _ => by
    have e : crlfLines [L] ++ '\r' :: '\n' :: rest = L ++ '\r' :: '\n' :: '\r' :: '\n' :: rest := by
      simp [crlfLines]
    rw [e, findStr_crlfCrlf_append (hcr L (List.mem_cons_self _ _)), findStr_crlfCrlf_here]
    simp [crlfLines]
  | L, [] :: _, _, hne => absurd rfl (hne [] (List.mem_cons_self _ _))
  | L, (c :: t) :: ls, hcr, hne => by
    have hc : c ≠ '\r' := fun h => hcr _ (List.mem_cons_of_mem _ (List.mem_cons_self _ _))
      (h ▸ List.mem_cons_self _ _)
    have ih := findStr_lines rest (c :: t) ls (fun l hl => hcr l (List.mem_cons_of_mem _ hl))
      (fun l hl => hne l (List.mem_cons_of_mem _ hl))
    set Y := t ++ '\r' :: '\n' :: crlfLines ls ++ '\r' :: '\n' :: rest
    have e1 : crlfLines (L :: (c :: t) :: ls) ++ '\r' :: '\n' :: rest =
        L ++ '\r' :: '\n' :: c :: Y := by simp [Y]
    have e2 : crlfLines ((c :: t) :: ls) ++ '\r' :: '\n' :: rest = c :: Y := by simp [Y]
    rw [e1, findStr_crlfCrlf_append (hcr L (List.mem_cons_self _ _)), findStr_crlfCrlf_skip hc,
      ← e2, ih]
    have hlen : 2 ≤ (crlfLines ((c :: t) :: ls)).length := by simp; omega
    rw [crlfLines_cons L, List.length_append, List.length_cons, List.length_cons, Option.map_some',
      Option.map_some']
    congr 1
    omega

/-- The lines of a head without their CRLF: the start line, then the header lines. -/
def Head.lines (h : Head) : List (List Char) :=
  (h.method ++ List.replicate h.sp1 ' ' ++ h.url ++ List.replicate h.sp2 ' ' ++ h.version) ::
    h.fields.map fun f => f.key ++ ':' :: f.text

theorem Head.render_eq_crlfLines (h : Head) : h.render = crlfLines h.lines := by
  simp only [Head.render, Head.lines, StartLine.render, Field.render, crlfLines, List.map_cons,
    List.map_map, List.flatten_cons, List.append_assoc, List.cons_append, List.nil_append]
  rfl

/-- The end of a head that matches: the first `\r\n\r\n` of a request is the CRLF of its last line
and the empty line after it. -/
theorem findCrlfCrlf_head {h : Head} {mt : Method} {v : Version} (hm : h.Matches mt v)
    (rest : List Char) :
    findCrlfCrlf (h.render ++ '\r' :: '\n' :: rest) = some (h.render.length - 2) := by
  have hM : '\r' ∉ h.method := not_mem_of_toupper rfl
    (by rw [hm.start.method]; exact methodName_not_mem (.inr rfl) mt)
  have hV : '\r' ∉ h.version :=
    not_mem_of_toupper rfl (by rw [hm.start.version]; cases v <;> decide)
  rw [findCrlfCrlf_eq_findStr, Head.render_eq_crlfLines]
  refine findStr_lines rest _ _ (fun l hl => ?_) (fun l hl => ?_)
  · rcases List.mem_cons.1 hl with rfl | hl
    · simp only [List.mem_append, List.mem_replicate, not_or]
      exact ⟨⟨⟨⟨hM, fun h => absurd h.2 (by decide)⟩, hm.start.url_cr⟩,
        fun h => absurd h.2 (by decide)⟩, hV⟩
    · obtain ⟨f, hf, rfl⟩ := List.mem_map.1 hl
      have := hm.fields f hf
      simp only [List.mem_append, List.mem_cons, not_or]
      exact ⟨this.key_cr, by decide, this.text_cr⟩
  · obtain ⟨f, _, rfl⟩ := List.mem_map.1 hl
    simp

/-! ## The head loop -/

section HeadLoop

variable {cf : Conf} {fuel : Nat} {c : Conn}

/-- A turn with the end of a head in the buffer returns its position. -/
theorem recvHead_found_here {pos : Nat} (hcap : c.cap ≠ 0) (h : findCrlfCrlf c.buf = some pos) :
    recvHead cf (fuel + 1) c = .ok (c, pos) := by
  rw [recvHead, if_neg hcap, h]

/-- A turn of the head loop that receives. -/
theorem recvHead_recv {bs : List Char} {net : List Net} {st : Bool} (hcap : c.cap ≠ 0)
    (h : findCrlfCrlf c.buf = none) (hmax : c.buf.length ≤ cf.maxHeaderSize)
    (hr : recvNet (reserveCap c.cap (c.buf.length + 1024) - c.buf.length) c.net c.stopped =
      (.bytes bs, net, st)) :
    recvHead cf (fuel + 1) c = recvHead cf fuel { c with
      buf := c.buf ++ bs,
      cap := reserveCap (reserveCap c.cap (c.buf.length + 1024)) (c.buf.length + bs.length + 1),
      net := net, stopped := st } := by
  rw [recvHead, if_neg hcap, h]
  simp only [if_neg (Nat.not_lt.2 hmax), hr]

/-- The first turn of a buffer with no block receives one byte. -/
theorem recvHead_first {bs : List Char} {net : List Net} {st : Bool} (hcap : c.cap = 0)
    (hr : recvNet 1 c.net c.stopped = (.bytes bs, net, st)) :
    recvHead cf (fuel + 1) c = recvHead cf fuel { c with
      buf := c.buf ++ bs, cap := ensureCap (reserveCap c.cap 4096) c.buf.length 1,
      net := net, stopped := st } := by
  rw [recvHead, if_pos hcap, hr]

end HeadLoop

/-- The head loop receives until the end of the head is in the buffer, whatever the cuts, when no
buffer without it is longer than `http_max_header_size`: it then returns the position of the end,
and the bytes received and still to come are the bytes that were. -/
theorem recvHead_found (cf : Conf) {pos : Nat} (hmax : pos + 3 ≤ cf.maxHeaderSize) :
    ∀ (fuel : Nat) (c : Conn), AllData c.net → (c.cap = 0 → c.buf = []) →
      findCrlfCrlf (c.buf ++ netBytes c.net) = some pos → (netBytes c.net).length < fuel →
      ∃ c', recvHead cf fuel c = .ok (c', pos) ∧
        c'.buf ++ netBytes c'.net = c.buf ++ netBytes c.net ∧ pos + 4 ≤ c'.buf.length ∧
        AllData c'.net ∧ 0 < c'.cap ∧ c'.stopped = c.stopped ∧ c'.out = c.out
  | 0, _, _, _, _, hf => absurd hf (Nat.not_lt_zero _)
  | fuel + 1, c, hd, hcap, hpos, hf => by
    obtain ⟨A, B, hAB, hA⟩ := findStr_spec ((findCrlfCrlf_eq_findStr _).symm.trans hpos)
    have hS : pos + 4 ≤ (c.buf ++ netBytes c.net).length := by
      rw [hAB]; simp only [List.length_append]; rw [hA]; simp [crlfCrlf]
    by_cases hc0 : c.cap = 0
    · -- a single byte first
      have hb := hcap hc0
      have hne : c.net ≠ [] := fun h => by
        rw [hb, h] at hS; simp [netBytes] at hS
      obtain ⟨bs, net, hr, hbs, -, hbytes, hd'⟩ :=
        recvNet_allData c.stopped hd hne Nat.one_pos
      obtain ⟨c', h', hs', hl', hd'', hc', hst', ho'⟩ := recvHead_found cf hmax fuel
        { c with
          buf := c.buf ++ bs, cap := ensureCap (reserveCap c.cap 4096) c.buf.length 1,
          net := net, stopped := c.stopped } hd'
        (fun h => absurd h (by
          have := le_reserveCap c.cap 4096
          have := le_ensureCap (reserveCap c.cap 4096) c.buf.length 1
          simp only; omega))
        (by simp only; rw [List.append_assoc, hbytes]; exact hpos)
        (by
          show (netBytes net).length < fuel
          have := List.length_pos.2 hbs; rw [← hbytes, List.length_append] at hf; omega)
      refine ⟨c', by rw [recvHead_first hc0 hr, h'], ?_, hl', hd'', hc', hst', ho'⟩
      rw [hs', List.append_assoc, hbytes]
    · cases hf' : findCrlfCrlf c.buf with
      | some p =>
        have hp := findCrlfCrlf_eq_findStr _ ▸ hf'
        have hp' : p = pos := by
          rw [findCrlfCrlf_eq_findStr] at hpos
          exact Option.some.inj ((findStr_append_of_some _ hp).symm.trans hpos)
        subst hp'
        obtain ⟨X, Y, hXY, hX⟩ := findStr_spec hp
        refine ⟨c, recvHead_found_here hc0 hf', rfl, ?_, hd, Nat.pos_of_ne_zero hc0, rfl, rfl⟩
        rw [hXY]; simp only [List.length_append]; rw [hX]; simp [crlfCrlf]
      | none =>
        have hlt : c.buf.length < pos + 4 := by
          rw [findCrlfCrlf_eq_findStr] at hf' hpos
          have := findStr_lt_of_none (by simp [crlfCrlf]) _ hf' hpos
          simpa [crlfCrlf] using this
        have hne : c.net ≠ [] := fun h => by
          rw [h] at hS; simp [netBytes] at hS; omega
        have hlim : 0 < reserveCap c.cap (c.buf.length + 1024) - c.buf.length := by
          have := le_reserveCap c.cap (c.buf.length + 1024); omega
        obtain ⟨bs, net, hr, hbs, -, hbytes, hd'⟩ :=
          recvNet_allData c.stopped hd hne hlim
        obtain ⟨c', h', hs', hl', hd'', hc', hst', ho'⟩ := recvHead_found cf hmax fuel
          { c with
            buf := c.buf ++ bs,
            cap := reserveCap (reserveCap c.cap (c.buf.length + 1024))
              (c.buf.length + bs.length + 1),
            net := net, stopped := c.stopped } hd'
          (fun h => absurd h (by
            have := le_reserveCap c.cap (c.buf.length + 1024)
            have := le_reserveCap_left (reserveCap c.cap (c.buf.length + 1024))
              (c.buf.length + bs.length + 1)
            simp only; omega))
          (by simp only; rw [List.append_assoc, hbytes]; exact hpos)
          (by
          show (netBytes net).length < fuel
          have := List.length_pos.2 hbs; rw [← hbytes, List.length_append] at hf; omega)
        refine ⟨c', by rw [recvHead_recv hc0 hf' (by omega) hr, h'], ?_, hl', hd'', hc', hst', ho'⟩
        rw [hs', List.append_assoc, hbytes]

/-! ## The parsed head -/

section Parsed

variable {m b : List Char} {size : Nat} {req : HttpReq}

theorem EndsCrlf.le_length (h : EndsCrlf m size) : size ≤ m.length := by
  have := h.length_take; rw [List.length_take] at this; omega

theorem EndsCrlf.append (h : EndsCrlf m size) (more : List Char) : EndsCrlf (m ++ more) size := by
  obtain ⟨H, hH, hl⟩ := h
  exact ⟨H, by rw [List.take_append_of_le_length (EndsCrlf.le_length ⟨H, hH, hl⟩), hH], hl⟩

/-- The parser writes nothing at or past `size`. -/
theorem parseHttpReq_self (hlf : byteAt m (size - 1) = '\n')
    (h : parseHttpReq m size = .ok (b, req)) :
    b = b.take size ++ m.drop size := by
  have := parseHttpReq_congr hlf (rfl : m.take size = m.take size)
  rw [h] at this
  injection this with this
  exact (Prod.mk.inj this).1

/-- Bytes after the head do not change what the parser does. -/
theorem parseHttpReq_append (hlf : byteAt m (size - 1) = '\n') (hs : size ≤ m.length)
    (h : parseHttpReq m size = .ok (b, req)) (more : List Char) :
    parseHttpReq (m ++ more) size = .ok (b ++ more, req) := by
  rw [parseHttpReq_congr hlf (List.take_append_of_le_length hs), h]
  show Except.ok (b.take size ++ (m ++ more).drop size, req) = _
  rw [List.drop_append_of_le_length hs, ← List.append_assoc, ← parseHttpReq_self hlf h]

/-- On the buffer of a head that matches, with any bytes after it, the parser records the
derivation's method, URL and version, and `header` gives the derivation's lookups. -/
theorem parseHttpReq_matches (hend : EndsCrlf m size) (h32 : size ≤ 2 ^ 32) {h : Head}
    {mt : Method} {v : Version} (hm : h.Matches mt v) (hu : h.url ≠ [])
    (hr : h.render = m.take size) (hp : parseHttpReq m size = .ok (b, req)) (more : List Char) :
    req.method = mt ∧ req.url = h.url ∧ req.version = v ∧
      ∀ key, header (b ++ more) req.arr key = lookupField h.fields key := by
  obtain ⟨m2, arr2, h2, hl⟩ := parseHttpReq_of_matches (hend.append more) h32 hm hu
    (by rw [List.take_append_of_le_length hend.le_length, hr])
  rw [parseHttpReq_append hend.lf hend.le_length hp more] at h2
  injection h2 with h2
  obtain ⟨rfl, rfl⟩ := Prod.mk.inj h2
  exact ⟨rfl, rfl, rfl, hl⟩

end Parsed

/-! ## Requests -/

/-- A request as the peer sends it: a head of the grammar, the method and the version it names,
and a body. -/
structure Request where
  head : Head
  method : Method
  version : Version
  body : List Char
  deriving DecidableEq, Repr

/-- The bytes of a request: the head, the empty line, the body. -/
def Request.render (r : Request) : List Char := r.head.render ++ '\r' :: '\n' :: r.body

/-- `Content-Length` states `n` bytes: the header is missing or its value starts with `0`, and
there is no body; or its value is a run of digits that does not start with `0`, of value `n`. -/
def ContentLength (v : List Char) (n : Nat) : Prop :=
  n = 0 ∧ (v = [] ∨ v.head? = some '0') ∨
    v ≠ [] ∧ (∀ c ∈ v, c.isDigit) ∧ v.head? ≠ some '0' ∧ decValue v = n

theorem parseBodySize_of_contentLength {maxBodySize : Nat} {v : List Char} {n : Nat}
    (h : ContentLength v n) (h31 : n < 2 ^ 31) (hn : n ≤ maxBodySize) :
    parseBodySize maxBodySize v = .ok n := by
  rcases h with ⟨rfl, rfl | h0⟩ | ⟨hne, hd, h0, rfl⟩
  · rfl
  · cases v with
    | nil => cases h0
    | cons c r => cases h0; rfl
  · exact parseBodySize_digits hne hd h0 h31 hn

/-- What the server needs of a request to serve it and keep the connection: a head of the grammar
with a URL, at most `http_max_header_size + 1` bytes with its empty line, a `Content-Length` that
states the length of the body, an `int` within `http_max_body_size`, a body that starts below
`2 ^ 32`, where the `uint32_t` `preq->body` can point, no `Transfer-Encoding` on a request without
a body, and a `Connection` header that keeps the connection. -/
structure Request.Ok (cf : Conf) (r : Request) : Prop where
  head : r.head.Matches r.method r.version
  url : r.head.url ≠ []
  headSize : r.head.render.length + 1 ≤ cf.maxHeaderSize
  length : ContentLength (lookupField r.head.fields "CONTENT-LENGTH".toList) r.body.length
  bodyInt : r.body.length < 2 ^ 31
  bodySize : r.body.length ≤ cf.maxBodySize
  bodyAt : r.body ≠ [] → r.head.render.length + 2 < 2 ^ 32
  plain : r.body = [] → lookupField r.head.fields "Transfer-Encoding".toList = []
  keep : needClose r.version (lookupField r.head.fields "Connection".toList) = false

/-- The handler gets the request `r`: its method, URL and version, the lookups of its header lines,
and its body. -/
structure Serves (q : Req) (r : Request) : Prop where
  method : q.req.method = r.method
  url : q.req.url = r.head.url
  version : q.req.version = r.version
  lookup : ∀ key, header q.buf q.req.arr key = lookupField r.head.fields key
  body : q.bodyBytes = r.body

/-! ## One request -/

section Split

variable {X N B R : List Char}

/-- A split that ends inside `B`. -/
theorem append_eq_append_of_lt (h : X ++ N = B ++ R) (hl : X.length < B.length) :
    ∃ a, B = X ++ a ∧ N = a ++ R := by
  rcases List.append_eq_append_iff.1 h with ⟨a, hB, hN⟩ | ⟨z, hX, -⟩
  · exact ⟨a, hB, hN⟩
  · rw [hX, List.length_append] at hl; omega

/-- A split that ends past `B`. -/
theorem append_eq_append_of_le (h : X ++ N = B ++ R) (hl : B.length ≤ X.length) :
    ∃ z, X = B ++ z ∧ R = z ++ N := by
  rcases List.append_eq_append_iff.1 h with ⟨a, hB, hN⟩ | ⟨z, hX, hR⟩
  · have : a = [] := by
      rw [hB, List.length_append] at hl; exact List.eq_nil_of_length_eq_zero (by omega)
    subst this
    exact ⟨[], by rw [hB]; simp, by rw [hN]; simp⟩
  · exact ⟨z, hX, hR⟩

end Split

section Turn

variable {cf : Conf} {fuel : Nat} {c : Conn} {pos n : Nat} {req : HttpReq}

/-- A body still to receive: `recvn` of the missing bytes, fewer than `2 ^ 31`. -/
theorem recvBody_recvn {bs : List Char} {net : List Net} {st : Bool} (hn : 0 < n)
    (hlt : c.buf.length < pos + 4 + n) (h31 : pos + 4 + n - c.buf.length < 2 ^ 31)
    (hr : recvnNet (pos + 4 + n - c.buf.length) c.net c.stopped = (.bytes bs, net, st)) :
    recvBody cf fuel c pos req n = .ok ({ c with
      buf := c.buf ++ bs, cap := reserveCap (reserveCap c.cap (pos + 4 + n)) (pos + 4 + n + 1),
      net := net, stopped := st }, ⟨c.buf ++ bs, req, (pos + 4) % 2 ^ 32, n⟩, pos + 4 + n) := by
  rw [recvBody, if_pos hn, if_pos hlt]
  simp only [intCount_of_lt h31, ne_eq, not_true_eq_false, if_false, hr]

/-- A body already in the buffer. -/
theorem recvBody_here (hn : 0 < n) (hle : pos + 4 + n ≤ c.buf.length) :
    recvBody cf fuel c pos req n =
      .ok (c, ⟨c.buf, req, (pos + 4) % 2 ^ 32, n⟩, pos + 4 + n) := by
  rw [recvBody, if_pos hn, if_neg (Nat.not_lt.2 hle)]

/-- No body and no `Transfer-Encoding`. -/
theorem recvBody_none (hte : header c.buf req.arr "Transfer-Encoding".toList = []) :
    recvBody cf fuel c pos req 0 = .ok (c, ⟨c.buf, req, (pos + 4) % 2 ^ 32, 0⟩, pos + 4) := by
  rw [recvBody, if_neg (Nat.lt_irrefl 0)]
  simp only [hte, if_true]

/-- A turn that serves a request and keeps the connection. -/
theorem serveOne_ok {c1 c2 : Conn} {m : List Char} {q : Req} {total : Nat} {net net' : List Net}
    {st : Bool} (h1 : recvHead cf fuel c = .ok (c1, pos))
    (h2 : parseHttpReq (c1.buf.set (pos + 2) '\x00') (pos + 2) = .ok (m, req))
    (h3 : parseBodySize cf.maxBodySize (header m req.arr "CONTENT-LENGTH".toList) = .ok n)
    (h4 : recvBody cf fuel { c1 with buf := m } pos req n = .ok (c2, q, total))
    (h5 : needClose q.req.version (header q.buf q.req.arr "Connection".toList) = false)
    (h6 : sendNet c2.net c2.stopped = (true, net, st)) (h7 : readStopped net st = (false, net')) :
    serveOne cf fuel c = .ok { c2 with
      out := c2.out ++ [.req q], buf := c2.buf.drop total, net := net', stopped := false } := by
  simp only [serveOne, h1, h2, h3, h4, h5, h6, h7, Bool.false_eq_true, if_false]

/-- A peer that has closed, with nothing left in the buffer: `recv` returns `0`. -/
theorem serveOne_closed (hb : c.buf = []) (hn : c.net = []) :
    serveOne cf (fuel + 1) c = .error (c, .recvZeroErr) := by
  obtain ⟨buf, cap, net, st, out⟩ := c
  cases hb; cases hn
  by_cases h0 : cap = 0 <;> simp [serveOne, recvHead, h0, recvNet, findCrlfCrlf]

end Turn

theorem Head.two_le_length_render (h : Head) : 2 ≤ h.render.length := by
  rw [Head.render, List.length_append, StartLine.length_render]; omega

/-- The head of a turn, on a connection whose bytes start with a head `h` of the grammar and its
empty line: the head loop stops at its end, and `parse_http_req` reads it.  The parsed buffer is
`b ++ X`, with `b` the head with its NULs and `X` the first bytes after the empty line; `header`
gives the lookups of `h` on `b` followed by any bytes. -/
theorem serveOne_head (cf : Conf) {h : Head} {mt : Method} {v : Version} (hm : h.Matches mt v)
    (hu : h.url ≠ []) (hsize : h.render.length + 1 ≤ cf.maxHeaderSize) {c : Conn} {Y : List Char}
    (hs : c.buf ++ netBytes c.net = h.render ++ '\r' :: '\n' :: Y) (hd : AllData c.net)
    (hcap : c.cap = 0 → c.buf = []) {fuel : Nat} (hf : (netBytes c.net).length < fuel) :
    ∃ c1 b X arr, recvHead cf fuel c = .ok (c1, h.render.length - 2) ∧
      parseHttpReq (c1.buf.set (h.render.length - 2 + 2) '\x00') (h.render.length - 2 + 2) =
        .ok (b ++ X, ⟨mt, h.url, v, arr⟩) ∧
      b.length = h.render.length - 2 + 4 ∧ X ++ netBytes c1.net = Y ∧
      (∀ more key, header (b ++ more) arr key = lookupField h.fields key) ∧
      AllData c1.net ∧ 0 < c1.cap ∧ c1.stopped = c.stopped ∧ c1.out = c.out := by
  have h2 := h.two_le_length_render
  have hpos : findCrlfCrlf (c.buf ++ netBytes c.net) = some (h.render.length - 2) := by
    rw [hs]; exact findCrlfCrlf_head hm _
  obtain ⟨c1, h1, hs1, hl1, hd1, hc1, hst1, ho1⟩ :=
    recvHead_found cf (by omega) fuel c hd hcap hpos hf
  -- the buffer holds the head, the empty line, and the first bytes `X` after them
  obtain ⟨X, hX, hXY⟩ := append_eq_append_of_le (B := h.render ++ ['\r', '\n']) (R := Y)
    (hs1.trans (by rw [hs]; simp))
    (by simp only [List.length_append, List.length_cons, List.length_nil]; omega)
  -- `buf[pos + 2] = '\0'`: the head `mh` as the parser gets it, then `X`
  have hX' : c1.buf = h.render ++ '\r' :: '\n' :: X := by rw [hX]; simp
  have hm1 : c1.buf.set (h.render.length - 2 + 2) '\x00' = (h.render ++ ['\x00', '\n']) ++ X :=
    by rw [set_eq_of_append hX' (by omega)]; simp
  have hleft : ∀ T, (h.render ++ T).take (h.render.length - 2 + 2) = h.render :=
    fun T => List.take_left' (by omega)
  have hend : EndsCrlf (h.render ++ ['\x00', '\n']) (h.render.length - 2 + 2) := by
    have hfr : frameHead c1.buf = some (c1.buf.set (h.render.length - 2 + 2) '\x00',
        h.render.length - 2 + 2) := by
      rw [frameHead, hX, List.append_assoc, List.cons_append, List.cons_append, List.nil_append,
        findCrlfCrlf_head hm X]
      rfl
    obtain ⟨H, hH, hl⟩ := (frameHead_endsCrlf hfr).1
    refine ⟨H, ?_, hl⟩
    rw [← hH, hm1, List.append_assoc, hleft, hleft]
  have htake : h.render = (h.render ++ ['\x00', '\n']).take (h.render.length - 2 + 2) :=
    (hleft _).symm
  have h32 : h.render.length - 2 + 2 ≤ 2 ^ 32 := by have := cf.maxHeaderSize_lt; omega
  obtain ⟨b, arr, hp, -⟩ := parseHttpReq_of_matches hend h32 hm hu htake
  have hbl : b.length = h.render.length - 2 + 4 := by
    have := congrArg List.length (parseHttpReq_self hend.lf hp)
    rw [List.drop_left' (by omega)] at this
    simp only [List.length_append, List.length_take, List.length_cons, List.length_nil] at this
    omega
  refine ⟨c1, b, X, arr, h1, ?_, hbl, hXY.symm,
    fun more => (parseHttpReq_matches hend h32 hm hu htake hp more).2.2.2, hd1, hc1, hst1, ho1⟩
  rw [hm1]; exact parseHttpReq_append hend.lf hend.le_length hp X

/-- A turn on a connection whose bytes start with a request that the server keeps: the handler
gets the request, the connection stays, and the bytes received after the request and still to
come are the bytes that follow it. -/
theorem serveOne_request (cf : Conf) {r : Request} (hr : r.Ok cf) {c : Conn} {rest : List Char}
    (hs : c.buf ++ netBytes c.net = r.render ++ rest) (hd : AllData c.net)
    (hst : c.stopped = false) (hcap : c.cap = 0 → c.buf = []) {fuel : Nat}
    (hf : (netBytes c.net).length < fuel) :
    ∃ c' q, serveOne cf fuel c = .ok c' ∧ c'.out = c.out ++ [.req q] ∧ Serves q r ∧
      c'.buf ++ netBytes c'.net = rest ∧ AllData c'.net ∧ c'.stopped = false ∧ 0 < c'.cap := by
  obtain ⟨hm, hu, hsize, hlen, hint, hbody, hat, hplain, hkeep⟩ := hr
  obtain ⟨c1, b, X, arr, h1, hp, hbl, hXr, hlook, hd1, hc1, hst1, ho1⟩ :=
    serveOne_head cf hm hu hsize (show _ = r.head.render ++ '\r' :: '\n' :: (r.body ++ rest) by
      rw [hs, Request.render]; simp) hd hcap hf
  have hbs : parseBodySize cf.maxBodySize (header (b ++ X) arr "CONTENT-LENGTH".toList) =
      .ok r.body.length := by
    rw [hlook]; exact parseBodySize_of_contentLength hlen hint hbody
  -- what follows the empty line, in any buffer that extends the parsed one
  have hdrop : ∀ more, (b ++ more).drop (r.head.render.length - 2 + 4) = more :=
    fun more => List.drop_left' hbl
  have hkeep' : ∀ more, needClose r.version (header (b ++ more) arr "Connection".toList) = false :=
    fun more => by rw [hlook more]; exact hkeep
  have hsend := sendNet_allData c1.stopped hd1
  have hread : readStopped c1.net c1.stopped = (false, c1.net) := by
    rw [readStopped_allData _ hd1, hst1, hst]
  by_cases hb0 : r.body = []
  · -- no body: the request ends at the empty line
    have hte : header (b ++ X) arr "Transfer-Encoding".toList = [] := by
      rw [hlook]; exact hplain hb0
    rw [hb0] at hbs hXr
    have h4 : recvBody cf fuel { c1 with buf := b ++ X } (r.head.render.length - 2)
        ⟨r.method, r.head.url, r.version, arr⟩ 0 = _ := recvBody_none hte
    refine ⟨_, _, serveOne_ok h1 hp hbs h4 (hkeep' X) hsend hread,
      by rw [ho1], ⟨rfl, rfl, rfl, hlook X, ?_⟩, ?_, hd1, rfl, hc1⟩
    · rw [hb0]; rfl
    · show (b ++ X).drop _ ++ netBytes c1.net = rest
      rw [hdrop]; simpa using hXr
  · have hn : 0 < r.body.length := List.length_pos.2 hb0
    -- `preq->body = (uint32_t)(pos + 4)` is where the body starts
    have hoff : (r.head.render.length - 2 + 4) % 2 ^ 32 = r.head.render.length - 2 + 4 :=
      Nat.mod_eq_of_lt (by have := hat hb0; omega)
    by_cases hlt : X.length < r.body.length
    · -- the rest of the body comes with `recvn`
      obtain ⟨a, hba, hN⟩ := append_eq_append_of_lt hXr hlt
      obtain ⟨net2, hr2, hb2, hd2⟩ := recvnNet_allData c1.stopped hd1 (k := a.length)
        (by rw [hN]; simp)
      rw [hN, List.take_left, List.drop_left] at *
      have hcount : r.head.render.length - 2 + 4 + r.body.length - (b ++ X).length = a.length := by
        rw [List.length_append, hbl, hba, List.length_append]; omega
      have h4 : recvBody cf fuel { c1 with buf := b ++ X } (r.head.render.length - 2)
          ⟨r.method, r.head.url, r.version, arr⟩ r.body.length = _ := recvBody_recvn hn
        (by simp only [List.length_append, hbl]; omega)
        (show _ - (b ++ X).length < 2 ^ 31 by
          rw [hcount]; have := congrArg List.length hba; simp only [List.length_append] at this
          omega)
        (show recvnNet _ c1.net c1.stopped = _ by rw [hcount]; exact hr2)
      have hread2 : readStopped net2 c1.stopped = (false, net2) := by
        rw [readStopped_allData _ hd2, hst1, hst]
      refine ⟨_, _, serveOne_ok h1 hp hbs h4 (by rw [List.append_assoc]; exact hkeep' _)
        (sendNet_allData _ hd2) hread2, by rw [ho1], ⟨rfl, rfl, rfl, ?_, ?_⟩, ?_, hd2, rfl, ?_⟩
      · show ∀ key, header (b ++ X ++ a) arr key = _
        rw [List.append_assoc]; exact hlook _
      · rw [Req.bodyBytes, window, hoff, List.append_assoc, hdrop, hba, List.take_length]
      · show (b ++ X ++ a).drop _ ++ netBytes net2 = rest
        rw [hb2, List.append_assoc, ← List.drop_drop, hdrop, ← hba, List.drop_length,
          List.nil_append]
      · simp only
        exact lt_of_lt_of_le hc1 ((le_reserveCap_left _ _).trans (le_reserveCap_left _ _))
    · -- the body is already in the buffer
      obtain ⟨z, hXz, hrest⟩ := append_eq_append_of_le hXr (Nat.not_lt.1 hlt)
      have h4 : recvBody cf fuel { c1 with buf := b ++ X } (r.head.render.length - 2)
          ⟨r.method, r.head.url, r.version, arr⟩ r.body.length = _ := recvBody_here hn
        (by simp only; rw [List.length_append, hbl, hXz, List.length_append]; omega)
      refine ⟨_, _, serveOne_ok h1 hp hbs h4 (hkeep' X) hsend hread,
        by rw [ho1], ⟨rfl, rfl, rfl, hlook X, ?_⟩, ?_, hd1, rfl, hc1⟩
      · show window (b ++ X) ((r.head.render.length - 2 + 4) % 2 ^ 32) r.body.length = r.body
        rw [hoff, window, hdrop, hXz, List.take_left]
      · show (b ++ X).drop (r.head.render.length - 2 + 4 + r.body.length) ++ netBytes c1.net = rest
        rw [hrest, ← List.drop_drop, hdrop, hXz, List.drop_left]

end Coost.Http
