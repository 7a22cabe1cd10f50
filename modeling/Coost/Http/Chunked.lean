import Coost.Http.Framing

/-!
# Chunked bodies

A request with `Transfer-Encoding: chunked` sends its body as chunks.  Each chunk is a size line
(the size in hex, an optional `;` extension, CRLF), the data, and CRLF.  A last chunk of size `0`
and an empty line follow.  The chunked branch of `ServerImpl::on_connection` reads them in its
loop `while (true)` (`recvChunks`).  It receives 32 bytes at a time into `s` until `s` holds a
CRLF, reads the size, and appends the data to `buf`, from `s` or with one `recvn`.

`serveOne_chunked` shows that the loop decodes what a peer encodes, for every list of chunks,
every size field (any number of digits, either case) and every way the network cuts the bytes.
The handler gets the data of the chunks, concatenated, as the body.  The connection then goes on
with the bytes after the empty line.  With `Expect: 100-continue` the loop also sends a
`100 Continue` before each receive of a size line, so how many it sends depends on the cuts
(`continues`).

The proof follows the loop:

* a size line is found whole by the scan for CRLF (`SizeLine.findStr_render`), and read as its
  value (`SizeLine.chunkLine_render`);
* the scan receives until the line is in `s` (`recvChunks_scan`);
* a data chunk moves its data to `buf` (`recvChunks_chunk`), and the chunks go one after another
  (`recvChunks_chunks`);
* the last chunk ends the loop (`recvChunks_last`), the trailer loop finds the empty line
  (`recvTrailers_found`), and `endChunks` gives the request to the handler
  (`endChunks_empty`).
-/

namespace Coost.Http

/-! ## The wire format -/

/-- A size line: the size field, its extension (`;` and what follows, or nothing), and CRLF. -/
structure SizeLine where
  size : List Char
  ext : List Char
  deriving DecidableEq, Repr

def SizeLine.render (z : SizeLine) : List Char := z.size ++ z.ext ++ ['\r', '\n']

/-- A size line that `on_connection` reads: a field of hex digits, and an extension that starts
with `;` and holds no CR. -/
structure SizeLine.Ok (z : SizeLine) : Prop where
  hex : ∀ c ∈ z.size, IsHex c
  size_ne : z.size ≠ []
  ext : z.ext = [] ∨ z.ext.head? = some ';'
  ext_cr : '\r' ∉ z.ext

/-- A data chunk: its size line, and the data. -/
structure Chunk where
  line : SizeLine
  data : List Char
  deriving DecidableEq, Repr

def Chunk.render (k : Chunk) : List Char := k.line.render ++ k.data ++ ['\r', '\n']

/-- A data chunk whose size line states the length of its data, short enough that the count
`(int)(n - o + 2)` of the `recvn` that may receive it is positive. -/
structure Chunk.Ok (k : Chunk) : Prop where
  line : k.line.Ok
  value : hexValue k.line.size = k.data.length
  data_ne : k.data ≠ []
  dataInt : k.data.length + 2 < 2 ^ 31

/-- The body of a chunked request: the data chunks, the last chunk `l`, and the empty line that
ends the (empty) trailers. -/
def chunkedBody (ks : List Chunk) (l : SizeLine) : List Char :=
  (ks.map Chunk.render).flatten ++ l.render ++ ['\r', '\n']

/-- The interim responses of `j` receives of the size-line scan: a `100 Continue` each when the
request expects one, none otherwise. -/
def continues (expect : Bool) (j : Nat) : List Out :=
  if expect then List.replicate j .continue100 else []

@[simp] theorem continues_zero (expect : Bool) : continues expect 0 = [] := by
  cases expect <;> rfl

theorem continues_add (expect : Bool) (i j : Nat) :
    continues expect i ++ continues expect j = continues expect (i + j) := by
  cases expect
  · rfl
  · exact (List.replicate_add i j _).symm

/-! ## A size line -/

theorem ne_of_isHex {c d : Char} (hd : hex2int d < 0) (h : IsHex c) : c ≠ d := by
  rintro rfl; exact absurd h (Int.not_le.2 hd)

section SizeLine

variable {z : SizeLine}

theorem SizeLine.Ok.cr_not_mem (hz : z.Ok) : '\r' ∉ z.size ++ z.ext := by
  rw [List.mem_append, not_or]
  exact ⟨fun h => ne_of_isHex (by decide) (hz.hex _ h) rfl, hz.ext_cr⟩

/-- The scan for CRLF stops at the end of a size line. -/
theorem SizeLine.findStr_render (hz : z.Ok) (W : List Char) :
    findStr "\r\n".toList (z.render ++ W) = some (z.size ++ z.ext).length := by
  show findStr ['\r', '\n'] _ = _
  rw [SizeLine.render, List.append_assoc, findStr_append_of_not_mem _ hz.cr_not_mem]
  simp [findStr]

/-- The size field is the bytes before the `;`. -/
theorem SizeLine.Ok.indexOf (hz : z.Ok) : (z.size ++ z.ext).indexOf ';' = z.size.length := by
  rw [List.indexOf_append_of_not_mem fun h => ne_of_isHex (by decide) (hz.hex _ h) rfl]
  rcases hz.ext with h | h
  · rw [h]; rfl
  · obtain ⟨e, he⟩ : ∃ e, z.ext = ';' :: e := by
      cases hx : z.ext with
      | nil => rw [hx] at h; cases h
      | cons a e => rw [hx] at h; cases h; exact ⟨e, rfl⟩
    rw [he, List.indexOf_cons_self]; rfl

/-- A size line is read as the value of its field modulo `2 ^ 64`. -/
theorem SizeLine.chunkLine_render (hz : z.Ok) (maxBodySize : Nat) (W : List Char) :
    chunkLine maxBodySize (z.render ++ W) (z.size ++ z.ext).length =
      let n := hexValue z.size % 2 ^ 64
      if n > 0 then (if n > maxBodySize then .bodyTooLong else .data n) else .last := by
  have htake : (z.render ++ W).take (z.size ++ z.ext).length = z.size ++ z.ext := by
    rw [SizeLine.render, List.append_assoc, List.take_left]
  have hsize : (z.render ++ W).take z.size.length = z.size := by
    rw [SizeLine.render, List.append_assoc, List.append_assoc, List.take_left]
  have hex : ∀ c ∈ (z.render ++ W).take
      (((z.render ++ W).take (z.size ++ z.ext).length).indexOf ';'),
      IsHex c := by
    rw [htake, hz.indexOf, hsize]; exact hz.hex
  rw [chunkLine_of_hex _ _ _ hex, htake, hz.indexOf, hsize]

theorem SizeLine.Ok.exists_length (hz : z.Ok) : ∃ x, (z.size ++ z.ext).length = x + 1 :=
  ⟨_, (Nat.succ_pred_eq_of_pos (by
    have := List.length_pos.2 hz.size_ne; simp only [List.length_append]; omega)).symm⟩

/-- The turn of the loop on a size line in `s` whose CRLF is at `x + 1`: the bytes after it are
`s.drop (x + 3)`. -/
theorem SizeLine.Ok.read (hz : z.Ok) {x : Nat} (hx : (z.size ++ z.ext).length = x + 1)
    (maxBodySize : Nat) (W : List Char) :
    findStr "\r\n".toList (z.render ++ W) = some (x + 1) ∧
      chunkLine maxBodySize (z.render ++ W) (x + 1) =
        (let n := hexValue z.size % 2 ^ 64
         if n > 0 then (if n > maxBodySize then .bodyTooLong else .data n) else .last) ∧
      z.render.length = x + 3 ∧ (z.render ++ W).drop (x + 1) = '\r' :: '\n' :: W := by
  refine ⟨hx ▸ z.findStr_render hz W, hx ▸ z.chunkLine_render hz maxBodySize W, ?_, ?_⟩
  · simp only [SizeLine.render, List.length_append] at hx ⊢; simp; omega
  · rw [SizeLine.render, List.append_assoc, List.drop_left' hx]; rfl

end SizeLine

/-- A data chunk's size line is read as the length of its data. -/
theorem Chunk.Ok.chunkLine {k : Chunk} (hk : k.Ok) {maxBodySize : Nat}
    (hmax : k.data.length ≤ maxBodySize) {s : List Char} {x : Nat}
    (h : chunkLine maxBodySize s x =
      (let n := hexValue k.line.size % 2 ^ 64
       if n > 0 then (if n > maxBodySize then .bodyTooLong else .data n) else .last)) :
    chunkLine maxBodySize s x = .data k.data.length := by
  rw [h, hk.value, Nat.mod_eq_of_lt (by have := hk.dataInt; omega)]
  dsimp only
  rw [if_pos (List.length_pos.2 hk.data_ne), if_neg (Nat.not_lt.2 hmax)]

/-! ## The turns of the chunk loop -/

section ChunkTurn

variable {cf : Conf} {expect : Bool} {hlen fuel : Nat} {c : Conn} {s : List Char}

/-- A turn with no CRLF in `s`: a `100 Continue` when one is expected, then a receive. -/
theorem recvChunks_recv {bs : List Char} {net : List Net} {st : Bool}
    (h : findStr "\r\n".toList s = none) (hr : recvNet 32 c.net c.stopped = (.bytes bs, net, st)) :
    recvChunks cf expect hlen (fuel + 1) c s = recvChunks cf expect hlen fuel
      { c with out := c.out ++ continues expect 1, net := net, stopped := st } (s ++ bs) := by
  rw [recvChunks, h]
  cases expect <;> simp [hr, continues]

/-- A CRLF at the start of `s`, after the data of a chunk: it is skipped. -/
theorem recvChunks_crlf (h : findStr "\r\n".toList s = some 0) :
    recvChunks cf expect hlen (fuel + 1) c s = recvChunks cf expect hlen fuel c (s.drop 2) := by
  simp only [recvChunks, h]

/-- The last chunk: the loop ends, with `s` from the line's CRLF on and the size of the body. -/
theorem recvChunks_last {x : Nat} (h : findStr "\r\n".toList s = some (x + 1))
    (hl : chunkLine cf.maxBodySize s (x + 1) = .last) :
    recvChunks cf expect hlen (fuel + 1) c s =
      .ok (c, s.drop (x + 1), (c.buf.length - hlen) % 2 ^ 32) := by
  simp only [recvChunks, h, hl]

/-- A data chunk whose data is in `s`: it moves to `buf`, and `s` keeps what follows the data and
the two bytes after it. -/
theorem recvChunks_here {x n : Nat} (h : findStr "\r\n".toList s = some (x + 1))
    (hl : chunkLine cf.maxBodySize s (x + 1) = .data n) (ho : n ≤ s.length - (x + 1) - 2)
    (hb : (c.buf ++ (s.drop (x + 1 + 2)).take n).length - hlen ≤ cf.maxBodySize) :
    recvChunks cf expect hlen (fuel + 1) c s = recvChunks cf expect hlen fuel
      { c with buf := c.buf ++ (s.drop (x + 1 + 2)).take n, cap := ensureCap c.cap c.buf.length n }
      (s.drop (if s.length ≥ x + 1 + 4 + n then x + 1 + 4 + n else x + 1 + 2 + n)) := by
  simp only [recvChunks, h, hl, if_neg (Nat.not_lt.2 ho), if_neg (Nat.not_lt.2 hb)]

/-- A data chunk whose data is not all in `s`: the rest of the data and the two bytes after it
come with one `recvn`, whose count is below `2 ^ 31`, and `s` is cleared. -/
theorem recvChunks_recvn (expect : Bool) (fuel : Nat) {x n : Nat} {bs : List Char} {net : List Net}
    {st : Bool}
    (h : findStr "\r\n".toList s = some (x + 1))
    (hl : chunkLine cf.maxBodySize s (x + 1) = .data n) (ho : s.length - (x + 1) - 2 < n)
    (h31 : n - (s.length - (x + 1) - 2) + 2 < 2 ^ 31)
    (hr : recvnNet (n - (s.length - (x + 1) - 2) + 2) c.net c.stopped = (.bytes bs, net, st))
    (hbs : bs.length = n - (s.length - (x + 1) - 2) + 2)
    (hb : (c.buf ++ s.drop (x + 1 + 2) ++ bs.take (n - (s.length - (x + 1) - 2))).length - hlen ≤
      cf.maxBodySize) :
    ∃ cap, c.cap ≤ cap ∧ recvChunks cf expect hlen (fuel + 1) c s = recvChunks cf expect hlen fuel
      { c with
        buf := c.buf ++ s.drop (x + 1 + 2) ++ bs.take (n - (s.length - (x + 1) - 2)), cap := cap,
        net := net, stopped := st } [] := by
  -- `buf.resize(buf.size() + r - 2)` keeps the data and drops the CRLF after it
  have ht : (c.buf ++ s.drop (x + 1 + 2) ++ bs).take
      ((c.buf ++ s.drop (x + 1 + 2)).length + bs.length - 2) =
      c.buf ++ s.drop (x + 1 + 2) ++ bs.take (n - (s.length - (x + 1) - 2)) := by
    rw [List.take_append_eq_append_take, List.take_of_length_le (by omega), hbs]
    congr 2
    omega
  refine ⟨reserveCap (reserveCap (ensureCap c.cap c.buf.length (s.length - (x + 1) - 2))
      ((c.buf ++ s.drop (x + 1 + 2)).length + (n - (s.length - (x + 1) - 2) + 2)))
      ((c.buf ++ s.drop (x + 1 + 2)).length + bs.length - 2 + 1),
    (le_ensureCap _ _ _).trans ((le_reserveCap_left _ _).trans (le_reserveCap_left _ _)), ?_⟩
  simp only [recvChunks, h, hl, if_pos ho, intCount_of_lt h31,
    if_neg (show ¬((n - (s.length - (x + 1) - 2) + 2 : Nat) : Int) ≤ 0 by omega), Int.toNat_ofNat,
    hr, ht, if_neg (Nat.not_lt.2 hb)]

end ChunkTurn

/-! ## The loop over the bytes of a chunked body -/

/-- The chunk loop at the bytes `W`: they are what `s` holds and what is still to come, the
network only delivers bytes, and the fuel covers every turn left (a turn consumes a byte of `s`,
or receives at least one, which counts twice). -/
structure ChunkAt (W : List Char) (fuel : Nat) (c : Conn) (s : List Char) : Prop where
  data : AllData c.net
  bytes : s ++ netBytes c.net = W
  fuel : 2 * (netBytes c.net).length + s.length < fuel

/-- What the chunk loop changes of a connection besides its buffer and its network: the capacity
grows, `_stopped` stays, and interim responses are sent. -/
structure Frame (expect : Bool) (c c' : Conn) : Prop where
  cap : c.cap ≤ c'.cap
  stopped : c'.stopped = c.stopped
  out : ∃ j, c'.out = c.out ++ continues expect j

theorem Frame.refl (expect : Bool) (c : Conn) : Frame expect c c := ⟨le_rfl, rfl, 0, by simp⟩

theorem Frame.trans {e : Bool} {c1 c2 c3 : Conn} (h1 : Frame e c1 c2) (h2 : Frame e c2 c3) :
    Frame e c1 c3 := by
  obtain ⟨i, hi⟩ := h1.out
  obtain ⟨j, hj⟩ := h2.out
  exact ⟨h1.cap.trans h2.cap, h2.stopped.trans h1.stopped, i + j,
    by rw [hj, hi, List.append_assoc, continues_add]⟩

/-- The chunk loop goes from `(fuel, c, s)` to a state at the bytes `W`, with `D` appended to the
buffer, and the same result. -/
def LoopTo (cf : Conf) (expect : Bool) (hlen fuel : Nat) (c : Conn) (s W D : List Char) : Prop :=
  ∃ fuel' c' s', fuel' ≤ fuel ∧
    recvChunks cf expect hlen fuel c s = recvChunks cf expect hlen fuel' c' s' ∧
    ChunkAt W fuel' c' s' ∧ c'.buf = c.buf ++ D ∧ Frame expect c c'

section ChunkLoop

variable {cf : Conf} {expect : Bool} {hlen fuel : Nat} {c : Conn} {s W D : List Char}

theorem LoopTo.trans {W' D' : List Char} (h1 : LoopTo cf expect hlen fuel c s W D)
    (h2 : ∀ fuel' c' s', ChunkAt W fuel' c' s' → c'.buf = c.buf ++ D →
      LoopTo cf expect hlen fuel' c' s' W' D') :
    LoopTo cf expect hlen fuel c s W' (D ++ D') := by
  obtain ⟨f1, c1, s1, hle1, h1, hA1, hb1, hF1⟩ := h1
  obtain ⟨f2, c2, s2, hle2, h2, hA2, hb2, hF2⟩ := h2 f1 c1 s1 hA1 hb1
  exact ⟨f2, c2, s2, hle2.trans hle1, h1.trans h2, hA2, by rw [hb2, hb1, List.append_assoc],
    hF1.trans hF2⟩

/-- The scan for CRLF receives until the first CRLF of the bytes is in `s`, whatever the cuts. -/
theorem recvChunks_scan {i : Nat} (hi : findStr "\r\n".toList W = some i) :
    ∀ (fuel : Nat) (c : Conn) (s : List Char), ChunkAt W fuel c s →
      ∃ fuel' c' s', fuel' ≤ fuel ∧
        recvChunks cf expect hlen fuel c s = recvChunks cf expect hlen fuel' c' s' ∧
        ChunkAt W fuel' c' s' ∧ findStr "\r\n".toList s' = some i ∧ c'.buf = c.buf ∧
        Frame expect c c'
  | 0, _, _, hA => absurd hA.fuel (Nat.not_lt_zero _)
  | fuel + 1, c, s, hA => by
    cases hs : findStr "\r\n".toList s with
    | some j =>
      have : j = i :=
        Option.some.inj ((findStr_append_of_some _ hs).symm.trans (hA.bytes ▸ hi))
      subst this
      exact ⟨fuel + 1, c, s, le_rfl, rfl, hA, hs, rfl, .refl _ _⟩
    | none =>
      have hne : c.net ≠ [] := fun h => by
        have := hA.bytes
        rw [h, netBytes, List.append_nil] at this
        rw [this, hi] at hs; cases hs
      obtain ⟨bs, net, hr, hbs, -, hbytes, hd⟩ :=
        recvNet_allData c.stopped hA.data hne (by decide : 0 < 32)
      have hl : bs.length + (netBytes net).length = (netBytes c.net).length := by
        rw [← hbytes, List.length_append]
      have hA' : ChunkAt W fuel
          { c with out := c.out ++ continues expect 1, net := net, stopped := c.stopped }
          (s ++ bs) :=
        ⟨hd, by simp only; rw [List.append_assoc, hbytes, hA.bytes], by
          have := hA.fuel; have := List.length_pos.2 hbs
          simp only [List.length_append]; omega⟩
      have hF0 : Frame expect c
          { c with out := c.out ++ continues expect 1, net := net, stopped := c.stopped } :=
        ⟨le_rfl, rfl, 1, rfl⟩
      obtain ⟨fuel', c', s', hle, h', hA'', hs', hb, hF⟩ := recvChunks_scan hi fuel _ _ hA'
      exact ⟨fuel', c', s', by omega, by rw [recvChunks_recv hs hr, h'], hA'', hs', hb,
        hF0.trans hF⟩

/-- The CRLF after the data of a chunk, in `s` whole, in part or not at all, is skipped. -/
theorem recvChunks_skipCrlf (hA : ChunkAt ('\r' :: '\n' :: W) fuel c s) :
    LoopTo cf expect hlen fuel c s W [] := by
  obtain ⟨f1, c1, s1, hle, h1, hA1, hs1, hb1, hF⟩ :=
    recvChunks_scan (by simp [findStr] : findStr "\r\n".toList ('\r' :: '\n' :: W) = some 0)
      fuel c s hA
  obtain ⟨A, B, rfl, hA0⟩ := findStr_spec hs1
  obtain rfl := List.eq_nil_of_length_eq_zero hA0
  obtain ⟨f, rfl⟩ : ∃ f, f1 = f + 1 := ⟨f1 - 1, by have := hA1.fuel; omega⟩
  have hB : B ++ netBytes c1.net = W := by simpa using hA1.bytes
  refine ⟨f, c1, B, by omega, by rw [h1, recvChunks_crlf hs1]; rfl, ⟨hA1.data, hB, ?_⟩,
    by rw [hb1, List.append_nil], hF⟩
  have := hA1.fuel
  simp only [List.nil_append, List.length_append] at this
  simp only [String.toList, List.length_cons, List.length_nil] at this
  omega

/-- A data chunk whose data is not all in `s` after its size line: one `recvn` brings the rest and
its CRLF. -/
theorem recvChunks_dataRecvn {k : Chunk} (hk : k.Ok)
    {W W' : List Char} (hA : ChunkAt (k.render ++ W) (fuel + 1) c (k.line.render ++ W'))
    (hlt : W'.length < k.data.length) (hh : hlen ≤ c.buf.length)
    (hb : c.buf.length + k.data.length ≤ hlen + cf.maxBodySize) :
    LoopTo cf expect hlen (fuel + 1) c (k.line.render ++ W') W k.data := by
  obtain ⟨x, hx⟩ := hk.line.exists_length
  obtain ⟨hfind, hline, hl, hdrop⟩ := hk.line.read hx cf.maxBodySize W'
  replace hl : (k.line.render ++ W').length = x + 3 + W'.length := by rw [List.length_append, hl]
  have hline := hk.chunkLine (by omega) hline
  have hW' : W' ++ netBytes c.net = k.data ++ '\r' :: '\n' :: W := by
    simpa [Chunk.render] using hA.bytes
  obtain ⟨a, hda, hN⟩ := append_eq_append_of_lt hW' hlt
  obtain ⟨net2, hr2, hb2, hd2⟩ := recvnNet_allData c.stopped hA.data (k := a.length + 2)
    (by rw [hN]; simp)
  rw [hN, List.take_append] at hr2
  rw [hN, List.drop_append] at hb2
  have hcnt : k.data.length - ((k.line.render ++ W').length - (x + 1) - 2) + 2 = a.length + 2 := by
    rw [hl, hda, List.length_append]; omega
  have hdrop' : (k.line.render ++ W').drop (x + 1 + 2) = W' := by
    rw [← List.drop_drop, hdrop]; rfl
  have htk : (a ++ List.take 2 ('\r' :: '\n' :: W)).take
      (k.data.length - ((k.line.render ++ W').length - (x + 1) - 2)) = a := by
    rw [show k.data.length - ((k.line.render ++ W').length - (x + 1) - 2) = a.length by omega,
      List.take_left]
  have hdl := congrArg List.length hda
  simp only [List.length_append] at hdl
  obtain ⟨cap, hcap, h2⟩ := recvChunks_recvn expect fuel hfind hline (by rw [hl, hda]; simp; omega)
    (by rw [hcnt]; have := hk.dataInt; omega)
    (show recvnNet _ _ _ = _ by rw [hcnt]; exact hr2) (by rw [hcnt]; simp)
    (show (c.buf ++ _ ++ _).length - hlen ≤ cf.maxBodySize by
      rw [hdrop', htk, List.append_assoc, ← hda, List.length_append]; omega)
  refine ⟨fuel, _, [], Nat.le_succ _, h2, ⟨hd2, by simpa using hb2, ?_⟩,
    by rw [hdrop', htk, List.append_assoc, ← hda], ⟨hcap, rfl, 0, by simp⟩⟩
  have := hA.fuel
  rw [hN] at this
  simp only [List.length_append, List.length_cons, List.length_nil, hb2, List.length_drop] at this ⊢
  omega

/-- A data chunk whose data is in `s` after its size line: the data moves to `buf`, and the CRLF
after it is skipped, from `s` or after more receives. -/
theorem recvChunks_dataHere {k : Chunk} (hk : k.Ok)
    {W W' : List Char} (hA : ChunkAt (k.render ++ W) (fuel + 1) c (k.line.render ++ W'))
    (hle : k.data.length ≤ W'.length) (hh : hlen ≤ c.buf.length)
    (hb : c.buf.length + k.data.length ≤ hlen + cf.maxBodySize) :
    LoopTo cf expect hlen (fuel + 1) c (k.line.render ++ W') W k.data := by
  obtain ⟨x, hx⟩ := hk.line.exists_length
  obtain ⟨hfind, hline, hl, hdrop⟩ := hk.line.read hx cf.maxBodySize W'
  replace hl : (k.line.render ++ W').length = x + 3 + W'.length := by rw [List.length_append, hl]
  have hline := hk.chunkLine (by omega) hline
  have hW' : W' ++ netBytes c.net = k.data ++ '\r' :: '\n' :: W := by
    simpa [Chunk.render] using hA.bytes
  obtain ⟨Z, rfl, hZ⟩ := append_eq_append_of_le hW' hle
  have hskip : ∀ j, (k.line.render ++ (k.data ++ Z)).drop (x + 1 + 2 + j) = (k.data ++ Z).drop j :=
    fun j => by rw [← List.drop_drop, ← List.drop_drop, hdrop]; rfl
  have h2 : recvChunks cf expect hlen (fuel + 1) c (k.line.render ++ (k.data ++ Z)) = _ :=
    recvChunks_here hfind hline (by rw [hl, List.length_append]; omega)
    (by rw [show x + 1 + 2 = x + 1 + 2 + 0 from rfl, hskip, List.drop_zero, List.take_left,
      List.length_append]; omega)
  rw [show x + 1 + 2 = x + 1 + 2 + 0 from rfl, hskip, List.drop_zero, List.take_left] at h2
  have hF : Frame expect c
      { c with buf := c.buf ++ k.data, cap := ensureCap c.cap c.buf.length k.data.length } :=
    ⟨le_ensureCap _ _ _, rfl, 0, by simp⟩
  have hfuel := hA.fuel
  rw [hl] at hfuel
  by_cases hZ2 : 2 ≤ Z.length
  · -- the CRLF is in `s`: it is dropped with the data
    obtain ⟨Z', rfl, hW⟩ := append_eq_append_of_le (B := ['\r', '\n']) (R := W) hZ.symm hZ2
    have hZ' : (k.data ++ (['\r', '\n'] ++ Z')).drop (k.data.length + 2) = Z' := by
      rw [← List.append_assoc, List.drop_left' (by simp)]
    simp only [List.length_append, List.length_cons, List.length_nil] at hfuel
    rw [if_pos (by
      rw [hl]; simp only [List.length_append, List.length_cons, List.length_nil]; omega),
      show x + 1 + 4 + k.data.length = x + 1 + 2 + (k.data.length + 2) by omega, hskip, hZ'] at h2
    refine ⟨fuel, _, Z', Nat.le_succ _, h2, ⟨hA.data, hW.symm, ?_⟩, rfl, hF⟩
    show 2 * (netBytes c.net).length + Z'.length < fuel
    omega
  · -- the CRLF is not all in `s`
    rw [if_neg (by rw [hl]; simp only [List.length_append]; omega), hskip, List.drop_left] at h2
    have hA' : ChunkAt ('\r' :: '\n' :: W) fuel
        { c with buf := c.buf ++ k.data, cap := ensureCap c.cap c.buf.length k.data.length } Z :=
      ⟨hA.data, hZ.symm, show 2 * (netBytes c.net).length + Z.length < fuel by
        simp only [List.length_append] at hfuel; omega⟩
    have hL : LoopTo cf expect hlen fuel _ Z W [] := recvChunks_skipCrlf hA'
    obtain ⟨f', c', s', hle', h', hA'', hb', hF'⟩ := hL
    exact ⟨f', c', s', by omega, h2.trans h', hA'', by rw [hb', List.append_nil], hF.trans hF'⟩

/-- After the scan, `s` holds the whole size line. -/
theorem ChunkAt.holds_line {z : SizeLine} {x : Nat} (hl : z.render.length = x + 3)
    (hA : ChunkAt (z.render ++ W) fuel c s) (hs : findStr "\r\n".toList s = some (x + 1)) :
    ∃ W', s = z.render ++ W' ∧ W' ++ netBytes c.net = W := by
  obtain ⟨A, B, rfl, hA0⟩ := findStr_spec hs
  obtain ⟨W', hs', hW⟩ := append_eq_append_of_le hA.bytes
    (by simp only [List.length_append, hl, String.toList, List.length_cons, List.length_nil]; omega)
  exact ⟨W', hs', hW.symm⟩

/-- A scan, then a run to `W`: a run to `W`. -/
theorem LoopTo.of_scan {fuel1 : Nat} {c1 : Conn} {s1 : List Char} (hle : fuel1 ≤ fuel)
    (h : recvChunks cf expect hlen fuel c s = recvChunks cf expect hlen fuel1 c1 s1)
    (hb : c1.buf = c.buf) (hF : Frame expect c c1) (hL : LoopTo cf expect hlen fuel1 c1 s1 W D) :
    LoopTo cf expect hlen fuel c s W D := by
  obtain ⟨f', c', s', hle', h', hA', hb', hF'⟩ := hL
  exact ⟨f', c', s', hle'.trans hle, h.trans h', hA', by rw [hb', hb], hF.trans hF'⟩

/-- A data chunk, cut in any way by the network: its data moves to `buf`. -/
theorem recvChunks_chunk {k : Chunk} (hk : k.Ok)
    (hA : ChunkAt (k.render ++ W) fuel c s) (hh : hlen ≤ c.buf.length)
    (hb : c.buf.length + k.data.length ≤ hlen + cf.maxBodySize) :
    LoopTo cf expect hlen fuel c s W k.data := by
  have hwire : k.render ++ W = k.line.render ++ (k.data ++ '\r' :: '\n' :: W) := by
    simp [Chunk.render]
  obtain ⟨x, hx⟩ := hk.line.exists_length
  obtain ⟨hfind, -, hl, -⟩ := hk.line.read hx cf.maxBodySize (k.data ++ '\r' :: '\n' :: W)
  rw [← hwire] at hfind
  obtain ⟨f1, c1, s1, hle1, h1, hA1, hs1, hb1, hF1⟩ := recvChunks_scan hfind fuel c s hA
  obtain ⟨W', rfl, -⟩ := (hwire ▸ hA1).holds_line hl hs1
  obtain ⟨f, rfl⟩ : ∃ f, f1 = f + 1 := ⟨f1 - 1, by have := hA1.fuel; omega⟩
  rw [← hb1] at hh hb
  refine LoopTo.of_scan hle1 h1 hb1 hF1 ?_
  by_cases hlt : W'.length < k.data.length
  · exact recvChunks_dataRecvn hk hA1 hlt hh hb
  · exact recvChunks_dataHere hk hA1 (Nat.not_lt.1 hlt) hh hb

/-- The data chunks one after another: their data, concatenated, moves to `buf`. -/
theorem recvChunks_chunks :
    ∀ (ks : List Chunk) {W : List Char} {fuel : Nat} {c : Conn} {s : List Char},
      (∀ k ∈ ks, k.Ok) → ChunkAt ((ks.map Chunk.render).flatten ++ W) fuel c s →
      hlen ≤ c.buf.length →
      c.buf.length + (ks.map Chunk.data).flatten.length ≤ hlen + cf.maxBodySize →
      LoopTo cf expect hlen fuel c s W (ks.map Chunk.data).flatten
  | [], _, _, _, _, _, hA, _, _ => ⟨_, _, _, le_rfl, rfl, hA, (List.append_nil _).symm, .refl _ _⟩
  | k :: ks, W, fuel, c, s, hok, hA, hh, hb => by
    simp only [List.map_cons, List.flatten_cons, List.append_assoc, List.length_append] at hA hb ⊢
    exact (recvChunks_chunk (hok k (List.mem_cons_self _ _)) hA hh (by omega)).trans
      fun _ c' _ hA' hbuf =>
        recvChunks_chunks ks (fun k' hk' => hok k' (List.mem_cons_of_mem _ hk'))
        hA' (by rw [hbuf, List.length_append]; omega)
        (by rw [hbuf, List.length_append]; omega)

/-- The last chunk, cut in any way by the network: the loop ends, with `s` from its CRLF on. -/
theorem recvChunks_lastChunk (cf : Conf) (expect : Bool) (hlen : Nat) {l : SizeLine} (hl : l.Ok)
    (h0 : hexValue l.size = 0)
    (hA : ChunkAt (l.render ++ W) fuel c s) :
    ∃ fuel' c' s', fuel' ≤ fuel ∧
      recvChunks cf expect hlen fuel c s = .ok (c', s', (c.buf.length - hlen) % 2 ^ 32) ∧
      ChunkAt ('\r' :: '\n' :: W) fuel' c' s' ∧ c'.buf = c.buf ∧ Frame expect c c' := by
  obtain ⟨x, hx⟩ := hl.exists_length
  obtain ⟨hfind, -, hlen', -⟩ := hl.read hx cf.maxBodySize W
  obtain ⟨f1, c1, s1, hle1, h1, hA1, hs1, hb1, hF1⟩ := recvChunks_scan hfind fuel c s hA
  obtain ⟨W', rfl, hW'⟩ := hA1.holds_line hlen' hs1
  obtain ⟨-, hline, -, hdrop⟩ := hl.read hx cf.maxBodySize W'
  obtain ⟨f, rfl⟩ : ∃ f, f1 = f + 1 := ⟨f1 - 1, by have := hA1.fuel; omega⟩
  refine ⟨f + 1, c1, _, hle1, by rw [h1, recvChunks_last hs1 (hline.trans (by rw [h0]; rfl)), hb1],
    ⟨hA1.data, by rw [hdrop, ← hW']; rfl, ?_⟩, hb1, hF1⟩
  have := hA1.fuel
  rw [hdrop]
  simp only [List.length_append, List.length_cons, hlen'] at this ⊢
  omega

/-- A chunked body, cut in any way by the network: the data of its chunks moves to `buf`, and the
loop ends at the CRLF of the last chunk, with the size of the body. -/
theorem recvChunks_body (expect : Bool) {ks : List Chunk}
    {l : SizeLine} (hks : ∀ k ∈ ks, k.Ok) (hl : l.Ok) (h0 : hexValue l.size = 0) {rest : List Char}
    (hA : ChunkAt (chunkedBody ks l ++ rest) fuel c s) (hh : hlen ≤ c.buf.length)
    (hb : c.buf.length + (ks.map Chunk.data).flatten.length ≤ hlen + cf.maxBodySize) :
    ∃ c' s', recvChunks cf expect hlen fuel c s =
        .ok (c', s', ((c.buf ++ (ks.map Chunk.data).flatten).length - hlen) % 2 ^ 32) ∧
      c'.buf = c.buf ++ (ks.map Chunk.data).flatten ∧ AllData c'.net ∧
      s' ++ netBytes c'.net = '\r' :: '\n' :: '\r' :: '\n' :: rest ∧
      (netBytes c'.net).length < fuel ∧ Frame expect c c' := by
  have hw : chunkedBody ks l ++ rest =
      (ks.map Chunk.render).flatten ++ (l.render ++ '\r' :: '\n' :: rest) := by
    simp [chunkedBody]
  have hL : LoopTo cf expect hlen fuel c s (l.render ++ '\r' :: '\n' :: rest)
      (ks.map Chunk.data).flatten := recvChunks_chunks ks hks (hw ▸ hA) hh hb
  obtain ⟨f1, c1, s1, hle1, h1, hA1, hb1, hF1⟩ := hL
  obtain ⟨f2, c2, s2, hle2, h2, hA2, hb2, hF2⟩ := recvChunks_lastChunk cf expect hlen hl h0 hA1
  refine ⟨c2, s2, by rw [h1, h2, hb1], hb2.trans hb1, hA2.data, hA2.bytes, ?_, hF1.trans hF2⟩
  have := hA2.fuel; omega

end ChunkLoop

/-! ## The trailers and the end of the body -/

/-- The trailer loop receives until the end of the trailers is in `s`, whatever the cuts. -/
theorem recvTrailers_found {i : Nat} : ∀ (fuel : Nat) (c : Conn) (s : List Char), AllData c.net →
    findCrlfCrlf (s ++ netBytes c.net) = some i → (netBytes c.net).length < fuel →
    ∃ net s', recvTrailers fuel c s = .ok ({ c with net := net }, s', i) ∧
      findCrlfCrlf s' = some i ∧ s' ++ netBytes net = s ++ netBytes c.net ∧ AllData net
  | 0, _, _, _, _, hf => absurd hf (Nat.not_lt_zero _)
  | fuel + 1, c, s, hd, hi, hf => by
    cases hs : findCrlfCrlf s with
    | some j =>
      have : j = i := by
        rw [findCrlfCrlf_eq_findStr] at hs hi
        exact Option.some.inj ((findStr_append_of_some _ hs).symm.trans hi)
      subst this
      exact ⟨c.net, s, by rw [recvTrailers, hs], hs, rfl, hd⟩
    | none =>
      have hne : c.net ≠ [] := fun h => by
        rw [h, netBytes, List.append_nil, hs] at hi; cases hi
      obtain ⟨bs, net, hr, hbs, -, hbytes, hd'⟩ :=
        recvNet_allData c.stopped hd hne (by decide : 0 < 32)
      obtain ⟨net', s', h', hs', hb', hd''⟩ := recvTrailers_found fuel
        { c with net := net, stopped := c.stopped } (s ++ bs) hd'
        (by simp only; rw [List.append_assoc, hbytes]; exact hi)
        (show (netBytes net).length < fuel by
          have := List.length_pos.2 hbs
          rw [← hbytes, List.length_append] at hf; omega)
      refine ⟨net', s', ?_, hs', by rw [hb', List.append_assoc, hbytes], hd''⟩
      rw [recvTrailers, hs]
      simp only [hr]
      exact h'

theorem parseHttpHeaders_done {size fuel x : Nat} {m : List Char} {arr : List (Nat × Nat)}
    (h : ¬x < size) : parseHttpHeaders size (fuel + 1) m x arr = .ok (m, arr) := by
  rw [parseHttpHeaders, if_neg h]

/-- The end of a chunked body with no trailer fields: `s` starts with the empty line, and `R` is
what was received after it.  The handler's buffer is `buf`, followed by `s` when `R` is not
empty, and the next turn starts at `R`. -/
theorem endChunks_empty (c : Conn) (req : HttpReq) (hlen size : Nat) (R : List Char) :
    ∃ c' more total, endChunks c req hlen size ('\r' :: '\n' :: '\r' :: '\n' :: R) 0 =
        .ok (c', ⟨c.buf ++ more, req, hlen % 2 ^ 32, size⟩, total) ∧
      c'.buf = c.buf ++ more ∧ (c.buf ++ more).drop total = R ∧ c'.net = c.net ∧
      c'.stopped = c.stopped ∧ c'.out = c.out ∧ c.cap ≤ c'.cap := by
  cases R with
  | nil => exact ⟨c, [], c.buf.length, by simp [endChunks], by simp, by simp, rfl, rfl, rfl, le_rfl⟩
  | cons a R =>
    refine ⟨{ c with
        buf := c.buf ++ '\r' :: '\n' :: '\x00' :: '\n' :: a :: R,
        cap := ensureCap c.cap c.buf.length (R.length + 1 + 1 + 1 + 1 + 1) },
      '\r' :: '\n' :: '\x00' :: '\n' :: a :: R, c.buf.length + 4, ?_, rfl, ?_, rfl, rfl, rfl,
      le_ensureCap _ _ _⟩
    · simp only [endChunks, List.set_cons_succ, List.set_cons_zero, List.length_cons,
        show ¬(R.length + 1 + 1 + 1 + 1 + 1 = 4) by omega, if_false, byteAt]
      rw [show c.buf.length + 0 + 4 - 2 = c.buf.length + 1 + 1 by omega,
        parseHttpHeaders_done (by simp)]
    · rw [List.drop_append_eq_append_drop]; simp

/-- The chunked branch of the body: `buf` keeps the head `b`, and the bytes `X` after it move to
`s`, for the chunk loop, the trailer loop and `endChunks`. -/
theorem recvBody_chunked (cf : Conf) (fuel : Nat) (c : Conn) (req : HttpReq) {pos : Nat}
    {b X : List Char} (hbl : b.length = pos + 4)
    (hte : header (b ++ X) req.arr "Transfer-Encoding".toList = "chunked".toList) :
    ∃ cap, c.cap ≤ cap ∧ ∀ {c2 c3 : Conn} {s2 s3 : List Char} {size x : Nat},
      recvChunks cf (decide (header (b ++ X) req.arr "Expect".toList = "100-continue".toList))
        (pos + 4) fuel { c with buf := b, cap := cap } X = .ok (c2, s2, size) →
      recvTrailers fuel c2 s2 = .ok (c3, s3, x) →
      recvBody cf fuel { c with buf := b ++ X } pos req 0 =
        endChunks c3 req (pos + 4) size s3 x := by
  have hdrop : (b ++ X).drop (pos + 4) = X := List.drop_left' hbl
  have hunfold : ∀ c' : Conn, c' = (if pos + 4 < (b ++ X).length then
      { c with buf := (b ++ X).take (pos + 4), cap := reserveCap c.cap (pos + 4 + 1) }
      else { c with buf := b ++ X }) → ∀ {c2 c3 : Conn} {s2 s3 : List Char} {size x : Nat},
      recvChunks cf (decide (header (b ++ X) req.arr "Expect".toList = "100-continue".toList))
        (pos + 4) fuel c' X = .ok (c2, s2, size) →
      recvTrailers fuel c2 s2 = .ok (c3, s3, x) →
      recvBody cf fuel { c with buf := b ++ X } pos req 0 =
        endChunks c3 req (pos + 4) size s3 x := by
    intro c' hc' c2 c3 s2 s3 size x h1 h2
    rw [recvBody, if_neg (Nat.lt_irrefl 0)]
    dsimp only
    rw [hte, if_neg (by decide), if_neg (not_not.2 rfl), hdrop, ← hc', h1]
    dsimp only
    rw [h2]
  cases X with
  | nil =>
    refine ⟨c.cap, le_rfl, hunfold _ ?_⟩
    rw [if_neg (by simp [hbl])]; simp
  | cons a X =>
    refine ⟨reserveCap c.cap (pos + 4 + 1), le_reserveCap_left _ _, hunfold _ ?_⟩
    rw [if_pos (by simp [hbl]), List.take_left' hbl]

/-! ## Chunked requests -/

/-- A request with a chunked body, as the peer sends it. -/
structure ChunkedRequest where
  head : Head
  method : Method
  version : Version
  chunks : List Chunk
  last : SizeLine
  deriving DecidableEq, Repr

def ChunkedRequest.render (r : ChunkedRequest) : List Char :=
  r.head.render ++ '\r' :: '\n' :: chunkedBody r.chunks r.last

/-- The body that the chunks carry. -/
def ChunkedRequest.body (r : ChunkedRequest) : List Char := (r.chunks.map Chunk.data).flatten

/-- The request as the handler is to see it: the head, and the body that the chunks carry. -/
def ChunkedRequest.decoded (r : ChunkedRequest) : Request := ⟨r.head, r.method, r.version, r.body⟩

/-- Whether the request asks for `100 Continue`. -/
def ChunkedRequest.expect (r : ChunkedRequest) : Bool :=
  decide (lookupField r.head.fields "Expect".toList = "100-continue".toList)

/-- What the server needs of a chunked request to serve it and keep the connection: a head of the
grammar with a URL and at most `http_max_header_size + 1` bytes with its empty line, no body size
from `Content-Length`, `Transfer-Encoding: chunked`, chunks whose size lines state their
lengths, a last chunk of size `0`, a body within `http_max_body_size` that starts below
`2 ^ 32`, where the `uint32_t` `preq->body` can point, and a `Connection` header that keeps the
connection. -/
structure ChunkedRequest.Ok (cf : Conf) (r : ChunkedRequest) : Prop where
  head : r.head.Matches r.method r.version
  url : r.head.url ≠ []
  headSize : r.head.render.length + 1 ≤ cf.maxHeaderSize
  length : ContentLength (lookupField r.head.fields "CONTENT-LENGTH".toList) 0
  chunked : lookupField r.head.fields "Transfer-Encoding".toList = "chunked".toList
  chunks : ∀ k ∈ r.chunks, k.Ok
  last : r.last.Ok
  last_zero : hexValue r.last.size = 0
  bodySize : r.body.length ≤ cf.maxBodySize
  bodyAt : r.body ≠ [] → r.head.render.length + 2 < 2 ^ 32
  keep : needClose r.version (lookupField r.head.fields "Connection".toList) = false

/-- A turn on a connection whose bytes start with a chunked request that the server keeps,
whatever the cuts: the handler gets the request with the data of its chunks as the body, after
the `100 Continue`s the request asks for, and the connection goes on with the bytes that follow
the request. -/
theorem serveOne_chunked (cf : Conf) {r : ChunkedRequest} (hr : r.Ok cf) {c : Conn}
    {rest : List Char} (hs : c.buf ++ netBytes c.net = r.render ++ rest)
    (hd : AllData c.net) (hst : c.stopped = false) (hcap : c.cap = 0 → c.buf = []) {fuel : Nat}
    (hf : 2 * (c.buf ++ netBytes c.net).length < fuel) :
    ∃ c' q j, serveOne cf fuel c = .ok c' ∧ c'.out = c.out ++ continues r.expect j ++ [.req q] ∧
      Serves q r.decoded ∧ c'.buf ++ netBytes c'.net = rest ∧ AllData c'.net ∧
      c'.stopped = false ∧ 0 < c'.cap := by
  obtain ⟨hm, hu, hsize, hlen, hte, hks, hl, h0, hbody, hat, hkeep⟩ := hr
  have h32 := cf.maxBodySize_lt
  have hY : c.buf ++ netBytes c.net =
      r.head.render ++ '\r' :: '\n' :: (chunkedBody r.chunks r.last ++ rest) := by
    rw [hs, ChunkedRequest.render]; simp
  have hlenY := congrArg List.length hY
  simp only [List.length_append, List.length_cons] at hlenY hf
  obtain ⟨c1, b, X, arr, h1, hp, hbl, hXr, hlook, hd1, hc1, hst1, ho1⟩ :=
    serveOne_head cf hm hu hsize hY hd hcap (show (netBytes c.net).length < fuel by omega)
  have hbs :
      parseBodySize cf.maxBodySize (header (b ++ X) arr "CONTENT-LENGTH".toList) = .ok 0 := by
    rw [hlook]; exact parseBodySize_of_contentLength hlen (by decide) (Nat.zero_le _)
  -- the chunk loop, on the bytes after the head
  obtain ⟨cap, hcap1, hbody⟩ := recvBody_chunked cf fuel c1 ⟨r.method, r.head.url, r.version, arr⟩
    (X := X) hbl (by rw [hlook]; exact hte)
  have hXl := congrArg List.length hXr
  simp only [List.length_append] at hXl
  have hA : ChunkAt (chunkedBody r.chunks r.last ++ rest) fuel { c1 with buf := b, cap := cap } X :=
    ⟨hd1, hXr, show 2 * (netBytes c1.net).length + X.length < fuel by omega⟩
  obtain ⟨c2, s2, h2, hb2, hd2, hs2, hn2, hF2⟩ :=
    recvChunks_body (decide (header (b ++ X) arr "Expect".toList = "100-continue".toList)) hks hl h0 hA
      (show r.head.render.length - 2 + 4 ≤ b.length by omega)
      (show b.length + r.body.length ≤ r.head.render.length - 2 + 4 + cf.maxBodySize by omega)
  -- the trailer loop finds the empty line at once
  obtain ⟨net3, s3, h3, hs3, hb3, hd3⟩ := recvTrailers_found fuel c2 s2 hd2
    (by rw [hs2, findCrlfCrlf_eq_findStr]; exact findStr_crlfCrlf_here rest) hn2
  obtain ⟨A, R, rfl, hA0⟩ := findStr_spec ((findCrlfCrlf_eq_findStr _).symm.trans hs3)
  obtain rfl := List.eq_nil_of_length_eq_zero hA0
  have hR : R ++ netBytes net3 = rest := by simpa [hs2] using hb3
  obtain ⟨c4, more, total, h4, hb4, hdrop4, hn4, hst4, ho4, hcap4⟩ :=
    endChunks_empty { c2 with net := net3 } ⟨r.method, r.head.url, r.version, arr⟩
      (r.head.render.length - 2 + 4)
      (((b ++ r.body).length - (r.head.render.length - 2 + 4)) % 2 ^ 32) R
  have hq : recvBody cf fuel { c1 with buf := b ++ X } (r.head.render.length - 2)
      ⟨r.method, r.head.url, r.version, arr⟩ 0 = _ := (hbody h2 h3).trans h4
  -- the handler's buffer: the head, the body, and what `endChunks` appended
  have hbuf : c2.buf ++ more = b ++ (r.body ++ more) := by
    rw [hb2, List.append_assoc]; rfl
  have he : decide (header (b ++ X) arr "Expect".toList = "100-continue".toList) = r.expect := by
    rw [hlook]; rfl
  obtain ⟨j, hj⟩ := hF2.out
  have hd4 : AllData c4.net := by rw [hn4]; exact hd3
  have hread : readStopped c4.net c4.stopped = (false, c4.net) := by
    rw [readStopped_allData _ hd4, hst4]
    exact congrArg (fun st => (st, c4.net)) (hF2.stopped.trans (hst1.trans hst))
  -- `preq->body_size`, read back from the `uint32_t`
  have hsz : ((b ++ r.body).length - (r.head.render.length - 2 + 4)) % 2 ^ 32 = r.body.length := by
    rw [List.length_append, hbl, Nat.add_sub_cancel_left, Nat.mod_eq_of_lt (by omega)]
  refine ⟨_, ⟨{ c2 with net := net3 }.buf ++ more, ⟨r.method, r.head.url, r.version, arr⟩,
    (r.head.render.length - 2 + 4) % 2 ^ 32,
    ((b ++ r.body).length - (r.head.render.length - 2 + 4)) % 2 ^ 32⟩, j,
    serveOne_ok h1 hp hbs hq
    (show needClose r.version (header (c2.buf ++ more) arr _) = false by
      rw [hbuf, hlook]; exact hkeep)
    (sendNet_allData _ hd4) hread, ?_, ⟨rfl, rfl, rfl, ?_, ?_⟩, ?_, hd4, rfl, ?_⟩
  · show c4.out ++ _ = _
    rw [ho4, hj, he]
    exact congrArg (fun o => o ++ continues r.expect j ++ _) ho1
  · show ∀ key, header (c2.buf ++ more) arr key = _
    rw [hbuf]; exact hlook _
  · show window (c2.buf ++ more) ((r.head.render.length - 2 + 4) % 2 ^ 32)
      (((b ++ r.body).length - (r.head.render.length - 2 + 4)) % 2 ^ 32) = r.body
    rw [hsz]
    by_cases hb0 : r.body = []
    · rw [hb0]; rfl
    · rw [Nat.mod_eq_of_lt (by have := hat hb0; omega), hbuf, window, List.drop_left' hbl,
        List.take_left]
  · show c4.buf.drop total ++ netBytes c4.net = rest
    rw [hb4, hdrop4, hn4, hR]
  · exact lt_of_lt_of_le hc1 (hcap1.trans (hF2.cap.trans hcap4))

end Coost.Http
