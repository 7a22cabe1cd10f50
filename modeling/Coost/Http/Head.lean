import Mathlib.Data.List.Basic
import Mathlib.Algebra.Group.Int

/-!
# The HTTP request head parser

`ServerImpl::on_connection` (`src/src/so/http.cc`) receives until the buffer holds `\r\n\r\n`
at some position `pos`.  It writes a NUL over the second CR, at `pos + 2`, and calls
`parse_http_req(&buf, pos + 2, req)` on the head `buf[0, pos + 2)`, which ends in CRLF.

`parse_http_req` reads the start line in place.  `x` is the first CR, and the method runs up to
the first space.  After a run of spaces comes the URL, up to the next space.  After another run
of spaces comes the version, up to `x`.  Then `parse_http_headers` reads one header line per
turn of its loop.  It writes a NUL over the line's CR and over the first colon, skips the spaces
after the colon, and records the offsets of the key and the value with `add_header`, which stores
them as `uint32_t`, so modulo `2 ^ 32`.
`http_req_t::header(key)` compares the upper-cased key with the keys read as C strings, and
returns the matching value as a C string.

The buffer is a list of bytes, each a `Char` below 256.  The model returns the buffer with the
NULs written and the request.  `fastring` (`find`, `toupper`) and `god::eq` are not part of the
sources.  They are modelled from their call sites here: `find(c, pos, n)` is the first `c` in
`[pos, pos + n)`, `toupper` is the ASCII upper case, and `eq<uint64_t>` compares eight bytes.

The stage of `parse_http_req` after the headers, which reads `Content-Length` with `atoi`, is
in `Coost.Http.Body`.
-/

namespace Coost.Http

/-- `m[i]`; past the end of the list the model reads NUL. -/
def byteAt (m : List Char) (i : Nat) : Char := m.getD i '\x00'

/-- The bytes `m[pos, pos + n)`. -/
def window (m : List Char) (pos n : Nat) : List Char := (m.drop pos).take n

/-- `fastring::find(c, pos, n)`: the first index in `[pos, pos + n)` that holds `c`; `none` is
`npos`. -/
def find (m : List Char) (c : Char) (pos n : Nat) : Option Nat :=
  if c ∈ window m pos n then some (pos + (window m pos n).indexOf c) else none

/-- `while (m[++p] == ' ');`: the first index after `p` whose byte is not a space. -/
def skipSp (m : List Char) (p : Nat) : Nat :=
  p + 1 + ((m.drop (p + 1)).takeWhile (· = ' ')).length

/-- `fastring::toupper`: ASCII upper case. -/
def toupper (s : List Char) : List Char := s.map Char.toUpper

/-- `kGet`, ..., `kOptions`. -/
inductive Method
  | get
  | post
  | head
  | put
  | delete
  | options
  deriving DecidableEq, Repr

/-- `method_map()`. -/
def methodMap : List (List Char × Method) :=
  [("GET".toList, .get), ("POST".toList, .post), ("HEAD".toList, .head), ("PUT".toList, .put),
    ("DELETE".toList, .delete), ("OPTIONS".toList, .options)]

/-- `mm.find(s)`. -/
def lookupMethod (s : List Char) : Option Method := (methodMap.find? (·.1 = s)).map (·.2)

/-- `kHTTP10` and `kHTTP11`. -/
inductive Version
  | http10
  | http11
  deriving DecidableEq, Repr

/-- The fields of `http_req_t` that the start line and the headers fill. -/
structure HttpReq where
  method : Method
  url : List Char
  version : Version
  /-- `arr`: the offsets of each header's key and value, in the order `add_header` stored
  them, each as a `uint32_t`. -/
  arr : List (Nat × Nat)
  deriving DecidableEq, Repr

/-- The block `parse start line` of `parse_http_req`: the method, the URL, the version and the
index `x` of the line's CR.  `on_connection` passes a head that ends in CRLF, so `x` is
found. -/
def parseStartLine (m : List Char) (size : Nat) : Except Nat (Method × List Char × Version × Nat) :=
  match find m '\r' 0 size with
  | none => .error 400
  | some x =>
    if byteAt m (x + 1) ≠ '\n' then .error 400 else
    match find m ' ' 0 x with
    | none => .error 400
    | some p =>
      match lookupMethod (toupper (m.take p)) with
      | none => .error 405
      | some meth =>
        let p := skipSp m p
        match find m ' ' p (x - p) with
        | none => .error 400
        | some q =>
          let url := window m p (q - p)
          let q := skipSp m q
          if byteAt m q = '\r' then .error 400 else
          let s := toupper (window m q (x - q))
          if s.length ≠ 8 then .error 505
          else if s = "HTTP/1.1".toList then .ok (meth, url, .http11, x)
          else if s = "HTTP/1.0".toList then .ok (meth, url, .http10, x)
          else .error 505

/-- `parse_http_headers(buf, size, x, req)`: one header line per turn of `while (x < size)`,
with the buffer, the next line `x` and `arr` as the loop's state.  `add_header((uint32_t)k,
(uint32_t)v)` keeps each offset modulo `2 ^ 32`.  The model bounds the turns by
`fuel` and returns `0` when it runs out.  `parseHttpReq` gives `size` turns, and each turn
advances `x` by two at least, so that never happens (`parseHttpHeaders_fuel`). -/
def parseHttpHeaders (size : Nat) :
    Nat → List Char → Nat → List (Nat × Nat) → Except Nat (List Char × List (Nat × Nat))
  | 0, _, _, _ => .error 0
  | fuel + 1, m, x, arr =>
    if x < size then
      match find m '\r' x (size - x) with
      | none => .error 400
      | some p =>
        if byteAt m (p + 1) ≠ '\n' then .error 400 else
        let m := m.set p '\x00'
        match find m ':' x (p - x) with
        | none => .error 400
        | some v =>
          let m := m.set v '\x00'
          parseHttpHeaders size fuel m (p + 2) (arr ++ [(x % 2 ^ 32, skipSp m v % 2 ^ 32)])
    else .ok (m, arr)

/-- `parse_http_req(buf, size, req)` up to the body size: the start line, then
`parse_http_headers(buf, size, x + 2, req)`.  The result is the buffer with the NULs written and
the request, or the status code. -/
def parseHttpReq (m : List Char) (size : Nat) : Except Nat (List Char × HttpReq) :=
  match parseStartLine m size with
  | .error e => .error e
  | .ok (meth, url, ver, x) =>
    match parseHttpHeaders size size m (x + 2) [] with
    | .error e => .error e
    | .ok (m', arr) => .ok (m', ⟨meth, url, ver, arr⟩)

/-- The C string at offset `i`: the bytes up to the first NUL. -/
def cstr (m : List Char) (i : Nat) : List Char := (m.drop i).takeWhile (· ≠ '\x00')

/-- `http_req_t::header(key)`: the value of the first header whose key, upper-cased, equals the
upper-cased `key`, and `g_empty` when there is none.  `key` is a C string, and the keys and
values are read as C strings from the buffer, at the offsets `arr` holds. -/
def header (m : List Char) (arr : List (Nat × Nat)) (key : List Char) : List Char :=
  match arr.find? (fun kv => toupper (cstr m kv.1) = toupper (key.takeWhile (· ≠ '\x00'))) with
  | some kv => cstr m kv.2
  | none => []

/-- `buf.find("\r\n\r\n")`. -/
def findCrlfCrlf : List Char → Option Nat
  | [] => none
  | l@(_ :: t) => if "\r\n\r\n".toList.isPrefixOf l then some 0 else (findCrlfCrlf t).map (· + 1)

/-- The head framing of `on_connection`: with `pos = buf.find("\r\n\r\n")`, it writes
`buf[pos + 2] = '\0'` and passes `size = pos + 2`. -/
def frameHead (buf : List Char) : Option (List Char × Nat) :=
  (findCrlfCrlf buf).map fun pos => (buf.set (pos + 2) '\x00', pos + 2)

end Coost.Http
