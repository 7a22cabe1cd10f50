import Mathlib.Data.List.Basic
import Mathlib.Algebra.Group.Int

/-!
# Chunk sizes of a chunked HTTP request

`ServerImpl::on_connection` (`src/src/so/http.cc`) reads a request with
`Transfer-Encoding: chunked` one chunk line at a time.  On a line whose CRLF is at `x > 0`, the
size field is the bytes before the first `';'`, or the whole line when there is none.  The loop

    for (i = 0, n = 0; i < o; ++i) {
        if ((r = hex2int(s[i])) < 0) goto chunk_err;
        n = (n << 4) + r;
    }

accumulates the size in a `size_t` `n` with no bound on the number of digits, so every step is
taken modulo `2 ^ 64`.  A nonzero size above `http_max_body_size` is answered with 413, a
nonzero size is a data chunk, and a zero size ends the body.

The bytes of a request are `Char`s here, each below 256.  A `char` above 127 is negative in the
source and no hex digit there, and it is no hex digit here either.

* `chunkSize_of_hex`: on a field of hex digits the loop computes the field's value modulo
  `2 ^ 64`; `chunkSize_eq_none` is the `chunk_err` case.
* `chunkLine_of_hex`: the decision of `on_connection` on a chunk line, in terms of that value.
* `chunkLine_exact`: a field whose value is below `2 ^ 64` is decoded exactly, and so is rejected
  with 413 when it is above `http_max_body_size`.
* `chunk_size_wraps`: the field `10000000000000000` has the value `2 ^ 64`, and
  `on_connection` takes it for the zero-length chunk that ends the body.
-/

namespace Coost.Http

/-- `hex2int(c)`: the value of a hex digit, and `-1` for any other byte. -/
def hex2int (c : Char) : Int :=
  if '0' ≤ c ∧ c ≤ '9' then (c.toNat : Int) - '0'.toNat
  else if 'a' ≤ c ∧ c ≤ 'f' then (c.toNat : Int) - 'a'.toNat + 10
  else if 'A' ≤ c ∧ c ≤ 'F' then (c.toNat : Int) - 'A'.toNat + 10
  else -1

/-- A byte on which `hex2int` does not fail. -/
abbrev IsHex (c : Char) : Prop := 0 ≤ hex2int c

/-- One digit appended to a hexadecimal value. -/
def hexStep (n : Nat) (c : Char) : Nat := n * 16 + (hex2int c).toNat

/-- The hexadecimal value of a digit string, with no bound. -/
def hexValue (cs : List Char) : Nat := cs.foldl hexStep 0

/-- The chunk-size loop over the field `s[0, o)` from the accumulator `n`, with the `size_t`
arithmetic of the source; `none` is `goto chunk_err`. -/
def chunkSize : List Char → Nat → Option Nat
  | [], n => some n
  | c :: cs, n => if hex2int c < 0 then none else chunkSize cs ((n <<< 4 + (hex2int c).toNat) % 2 ^ 64)

/-- Where `on_connection` goes after reading the size of a chunk line. -/
inductive ChunkLine
  /-- `goto chunk_err`: a byte of the field is no hex digit. -/
  | chunkErr
  /-- `goto body_too_long_err`: a nonzero size above `http_max_body_size`. -/
  | bodyTooLong
  /-- A data chunk of `n` bytes. -/
  | data (n : Nat)
  /-- `n == 0`: the end of the chunked data. -/
  | last
  deriving DecidableEq, Repr

/-- A chunk line `s` whose CRLF is at `x > 0`: `o = s.find(';', 0, x)`, or `x` when there is no
`';'`, then the loop over `s[0, o)` and the tests `n > 0` and `n > FLG_http_max_body_size`. -/
def chunkLine (maxBodySize : Nat) (s : List Char) (x : Nat) : ChunkLine :=
  let o := (s.take x).indexOf ';'
  match chunkSize (s.take o) 0 with
  | none => .chunkErr
  | some n => if n > 0 then (if n > maxBodySize then .bodyTooLong else .data n) else .last

/-! ## The loop -/

/-- One turn of the loop: the shift and the add in `size_t`, from any accumulator congruent to
the value so far. -/
theorem hexStep_mod (n : Nat) (c : Char) :
    ((n % 2 ^ 64) <<< 4 + (hex2int c).toNat) % 2 ^ 64 = hexStep n c % 2 ^ 64 := by
  simp only [Nat.shiftLeft_eq, hexStep]
  omega

/-- On a field of hex digits the loop computes the field's value modulo `2 ^ 64`. -/
theorem chunkSize_of_hex : ∀ (cs : List Char) (n : Nat), (∀ c ∈ cs, IsHex c) →
    chunkSize cs (n % 2 ^ 64) = some (cs.foldl hexStep n % 2 ^ 64)
  | [], _, _ => rfl
  | c :: cs, n, h => by
    have hc : ¬hex2int c < 0 := Int.not_lt.2 (h c (List.mem_cons_self _ _))
    rw [chunkSize, if_neg hc, hexStep_mod, List.foldl_cons]
    exact chunkSize_of_hex cs _ fun d hd => h d (List.mem_cons_of_mem _ hd)

/-- The loop fails exactly on a field with a byte that is no hex digit. -/
theorem chunkSize_eq_none : ∀ (cs : List Char) (n : Nat),
    chunkSize cs n = none ↔ ∃ c ∈ cs, ¬IsHex c
  | [], _ => by simp [chunkSize]
  | c :: cs, n => by
    by_cases hc : hex2int c < 0
    · simp only [chunkSize, hc, if_true, true_iff]
      exact ⟨c, List.mem_cons_self _ _, Int.not_le.2 hc⟩
    · rw [chunkSize, if_neg hc, chunkSize_eq_none cs]
      constructor
      · rintro ⟨d, hd, hn⟩
        exact ⟨d, List.mem_cons_of_mem _ hd, hn⟩
      · rintro ⟨d, hd, hn⟩
        rcases List.mem_cons.1 hd with rfl | hd
        · exact absurd (Int.not_lt.1 hc) hn
        · exact ⟨d, hd, hn⟩

/-! ## The decision on a chunk line -/

/-- The decision of `on_connection` on a chunk line whose size field is made of hex digits: the
field's value is taken modulo `2 ^ 64`. -/
theorem chunkLine_of_hex (maxBodySize : Nat) (s : List Char) (x : Nat)
    (h : ∀ c ∈ s.take ((s.take x).indexOf ';'), IsHex c) :
    chunkLine maxBodySize s x =
      let n := hexValue (s.take ((s.take x).indexOf ';')) % 2 ^ 64
      if n > 0 then (if n > maxBodySize then .bodyTooLong else .data n) else .last := by
  have := chunkSize_of_hex _ 0 h
  rw [Nat.zero_mod] at this
  simp only [chunkLine, this, hexValue]

/-- A size field whose value is below `2 ^ 64` is decoded exactly: it ends the body when it is
`0`, is rejected with 413 above `http_max_body_size`, and is otherwise a chunk of exactly that
length. -/
theorem chunkLine_exact (maxBodySize : Nat) (s : List Char) (x : Nat)
    (h : ∀ c ∈ s.take ((s.take x).indexOf ';'), IsHex c)
    (hv : hexValue (s.take ((s.take x).indexOf ';')) < 2 ^ 64) :
    chunkLine maxBodySize s x =
      let n := hexValue (s.take ((s.take x).indexOf ';'))
      if n > 0 then (if n > maxBodySize then .bodyTooLong else .data n) else .last := by
  rw [chunkLine_of_hex maxBodySize s x h, Nat.mod_eq_of_lt hv]

/-- The chunk line `10000000000000000` CRLF: its size field has the value `2 ^ 64`, and
`on_connection` reads the size `0` and ends the body there, for every `http_max_body_size`. -/
theorem chunk_size_wraps (maxBodySize : Nat) :
    hexValue "10000000000000000".toList = 2 ^ 64 ∧
      chunkLine maxBodySize "10000000000000000\r\n".toList 17 = .last :=
  ⟨by decide, rfl⟩

end Coost.Http
