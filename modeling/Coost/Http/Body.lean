import Coost.Http.Head

/-!
# The body size of a request

The last block of `parse_http_req` (`src/src/so/http.cc`), `parse body size`, reads the value of
`Content-Length`:

    const char* v = req->header("CONTENT-LENGTH");
    if (*v == '\0' || *v == '0') { req->body_size = 0; return 0; }
    int n = atoi(v);
    if (n >= 0) {
        if ((uint32_t)n > FLG_http_max_body_size) return 413;
        req->body_size = n; return 0;
    }
    return 400;

`atoi` is the C library's, `(int) strtol(v, NULL, 10)`: `strtol` skips white space, reads an
optional sign, then the longest run of decimal digits, and returns `LONG_MIN` or `LONG_MAX` past
the range of the 64-bit `long`.  The conversion to the 32-bit `int` keeps the value modulo
`2 ^ 32`, as a signed number: `2147483648` is read as `-2147483648`, and `4294967297` as `1`.

* `parseBodySize_digits`: a run of digits that does not start with `0` gives its value, when it
  is below `2 ^ 31` and at most `http_max_body_size`.
* `parseBodySize_digits_neg`: a value from `2 ^ 31` to `2 ^ 32 - 1` is a negative `int`, and the
  request gets 400 whatever `http_max_body_size` is.
* `parseBodySize_le`: an accepted size is at most `http_max_body_size` and below `2 ^ 31`, and a
  rejected one answers 400 or 413 (`parseBodySize_status`).
* A value that starts with `0` gives `0` whatever follows it (`parseBodySize_zero`): `007` is read
  as an empty body.
-/

namespace Coost.Http

/-- `isspace` in the C locale: space, `\t`, `\n`, `\v`, `\f` and `\r`. -/
def isSpace (c : Char) : Bool :=
  c == ' ' || c == '\t' || c == '\n' || c == '\x0b' || c == '\x0c' || c == '\r'

/-- The value of a decimal digit. -/
def digitVal (c : Char) : Nat := c.toNat - '0'.toNat

/-- The value of a run of decimal digits, most significant first. -/
def decValue (ds : List Char) : Nat := ds.foldl (fun n d => n * 10 + digitVal d) 0

/-- `strtol` returns `LONG_MIN` or `LONG_MAX` for a value past the range of the 64-bit `long`. -/
def clampLong (x : Int) : Int := max (-2 ^ 63) (min x (2 ^ 63 - 1))

/-- `strtol(v, NULL, 10)`: white space, an optional sign, then the longest run of decimal digits,
clamped to the range of `long`. -/
def strtol (v : List Char) : Int :=
  match v.dropWhile isSpace with
  | '-' :: r => clampLong (-((decValue (r.takeWhile Char.isDigit) : Nat) : Int))
  | '+' :: r => clampLong (decValue (r.takeWhile Char.isDigit))
  | r => clampLong (decValue (r.takeWhile Char.isDigit))

/-- `atoi(v)`, which is `(int) strtol(v, NULL, 10)`: the conversion to `int` keeps the value
modulo `2 ^ 32`, as a signed number. -/
def atoi (v : List Char) : Int := (strtol v).bmod (2 ^ 32)

/-- The block `parse body size` of `parse_http_req` on the value `v` of `Content-Length`, which is
`""` when the header is missing: the body size, or the status of the error. -/
def parseBodySize (maxBodySize : Nat) (v : List Char) : Except Nat Nat :=
  match v with
  | [] => .ok 0
  | '0' :: _ => .ok 0
  | _ =>
    if atoi v < 0 then .error 400
    else if (atoi v).toNat > maxBodySize then .error 413
    else .ok (atoi v).toNat

/-! ## `atoi` on a run of digits -/

theorem isSpace_of_isDigit {c : Char} (h : c.isDigit) : isSpace c = false := by
  revert h
  simp only [Char.isDigit, isSpace, Bool.and_eq_true, decide_eq_true_eq, Bool.or_eq_false_iff,
    beq_eq_false_iff_ne]
  intro ⟨h1, h2⟩
  refine ⟨⟨⟨⟨⟨?_, ?_⟩, ?_⟩, ?_⟩, ?_⟩, ?_⟩ <;> rintro rfl <;> revert h1 <;> decide

/-- On a run of digits `strtol` is its value, up to `LONG_MAX`. -/
theorem strtol_digits {ds : List Char} (hd : ∀ c ∈ ds, c.isDigit) :
    strtol ds = clampLong (decValue ds) := by
  have htw : ds.takeWhile Char.isDigit = ds := List.takeWhile_eq_self_iff.2 hd
  cases ds with
  | nil => rfl
  | cons c r =>
    have hc := hd c (List.mem_cons_self _ _)
    have hdw : (c :: r).dropWhile isSpace = c :: r := by
      rw [List.dropWhile_cons_of_neg (by simp [isSpace_of_isDigit hc])]
    have hm : c ≠ '-' ∧ c ≠ '+' := by
      constructor <;> rintro rfl <;> exact absurd hc (by decide)
    unfold strtol
    rw [hdw]
    split
    · rename_i h; exact absurd (List.cons.inj h).1 hm.1
    · rename_i h; exact absurd (List.cons.inj h).1 hm.2
    · rw [htw]

/-- On a run of digits of value below `2 ^ 31`, `atoi` is its value. -/
theorem atoi_digits {ds : List Char} (hd : ∀ c ∈ ds, c.isDigit) (h31 : decValue ds < 2 ^ 31) :
    atoi ds = decValue ds := by
  rw [atoi, strtol_digits hd, clampLong, Int.bmod_def]
  split <;> omega

/-- On a run of digits of value from `2 ^ 31` to `2 ^ 32 - 1`, the conversion to `int` makes
`atoi` negative. -/
theorem atoi_digits_neg {ds : List Char} (hd : ∀ c ∈ ds, c.isDigit) (h31 : 2 ^ 31 ≤ decValue ds)
    (h32 : decValue ds < 2 ^ 32) : atoi ds = decValue ds - 2 ^ 32 := by
  rw [atoi, strtol_digits hd, clampLong, Int.bmod_def]
  split <;> omega

/-! ## The body size -/

/-- A value that starts with `0` is read as an empty body, whatever follows. -/
theorem parseBodySize_zero (maxBodySize : Nat) (r : List Char) :
    parseBodySize maxBodySize ('0' :: r) = .ok 0 := rfl

/-- A value that is neither empty nor starts with `0` is read by `atoi`. -/
theorem parseBodySize_atoi {maxBodySize : Nat} {v : List Char} (hne : v ≠ [])
    (h0 : v.head? ≠ some '0') :
    parseBodySize maxBodySize v =
      if atoi v < 0 then .error 400
      else if (atoi v).toNat > maxBodySize then .error 413 else .ok (atoi v).toNat := by
  obtain ⟨c, r, rfl⟩ := List.exists_cons_of_ne_nil hne
  have hc0 : c ≠ '0' := fun h => h0 (by rw [h]; rfl)
  unfold parseBodySize
  split
  · rename_i h; cases h
  · rename_i h; cases h; exact absurd rfl hc0
  · rfl

/-- A run of digits that does not start with `0` gives its value, when it is below `2 ^ 31` and
at most `http_max_body_size`. -/
theorem parseBodySize_digits {maxBodySize : Nat} {ds : List Char} (hne : ds ≠ [])
    (hd : ∀ c ∈ ds, c.isDigit) (h0 : ds.head? ≠ some '0') (h31 : decValue ds < 2 ^ 31)
    (hle : decValue ds ≤ maxBodySize) :
    parseBodySize maxBodySize ds = .ok (decValue ds) := by
  rw [parseBodySize_atoi hne h0, atoi_digits hd h31, if_neg (by omega), Int.toNat_ofNat,
    if_neg (by omega)]

/-- A run of digits of value from `2 ^ 31` to `2 ^ 32 - 1` is a negative `int`: 400, whatever
`http_max_body_size` is. -/
theorem parseBodySize_digits_neg {maxBodySize : Nat} {ds : List Char} (hne : ds ≠ [])
    (hd : ∀ c ∈ ds, c.isDigit) (h0 : ds.head? ≠ some '0') (h31 : 2 ^ 31 ≤ decValue ds)
    (h32 : decValue ds < 2 ^ 32) : parseBodySize maxBodySize ds = .error 400 := by
  rw [parseBodySize_atoi hne h0, atoi_digits_neg hd h31 h32, if_pos (by omega)]

/-- An accepted body size is at most `http_max_body_size`, and it is an `int`. -/
theorem parseBodySize_le {maxBodySize : Nat} {v : List Char} {n : Nat}
    (h : parseBodySize maxBodySize v = .ok n) : n ≤ maxBodySize ∧ n < 2 ^ 31 := by
  unfold parseBodySize at h
  split at h
  · cases h; omega
  · cases h; omega
  · have hlt : atoi v < 2 ^ 31 := by
      have := Int.bmod_lt (x := strtol v) (m := 2 ^ 32) (by decide); rw [atoi]; omega
    split_ifs at h with hn hm
    cases h
    omega

/-- A rejected body size answers 400 (negative) or 413 (too large). -/
theorem parseBodySize_status {maxBodySize : Nat} {v : List Char} {e : Nat}
    (h : parseBodySize maxBodySize v = .error e) : e = 400 ∨ e = 413 := by
  unfold parseBodySize at h
  split at h
  · cases h
  · cases h
  · split_ifs at h <;> cases h <;> simp

end Coost.Http
