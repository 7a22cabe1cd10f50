import Coost.Http.Body
import Mathlib.Algebra.Group.Int

/-!
# Integers as text: `fast::itoa` and `stream::operator<<`

`src/include/co/fast.h` writes integers with `fast::u32toa`, `u64toa` and `u64toh`, and adds the
sign itself for signed values:

    inline int i32toa(int32_t v, char* buf) {
        if (v >= 0) return u32toa((uint32_t)v, buf);
        *buf = '-';
        return u32toa((uint32_t)(-v), buf + 1) + 1;
    }

The unsigned writers are defined in `fast.cc`, which is not part of the sources; the model
follows the header's comments (`integer to ascii string`, `255 -> 0xff`): the digits, most
significant first, without leading zeros.  For the most negative value `-v` overflows; the model
takes the two's complement wrap that the cast to the unsigned type then undoes.

`fast::stream::operator<<` reserves `sizeof(v) * 3` bytes before writing an integer or a pointer.

* `render_fits`: for every integer type `operator<<` takes, and for pointers, the text of every
  value fits in the room it reserved.
* `parseBodySize_u64toa`: the `Content-Length: n` that `http_res_t::set_body` writes with `<<` is
  read back as `n` by the body size step of `parse_http_req` when `n` is below `2 ^ 31` and at
  most `http_max_body_size`; from `2 ^ 31` to `2 ^ 32 - 1` the `int` of `atoi` is negative, and
  the request gets 400.
-/

namespace Coost.Fast

open Coost.Http (decValue digitVal parseBodySize)

/-- The base-`b` digits of `v`, least significant first, from at most `fuel` divisions. -/
def digitsRev (b : Nat) : (fuel v : Nat) → List Char
  | 0, _ => []
  | f + 1, v => Nat.digitChar (v % b) :: if v < b then [] else digitsRev b f (v / b)

/-- `v` in base `b`, most significant digit first, `"0"` for `0`. -/
def toBase (b v : Nat) : List Char := (digitsRev b (v + 1) v).reverse

/-- `fast::u32toa` (in `fast.cc`, from the comment of `fast.h`). -/
def u32toa (v : Nat) : List Char := toBase 10 v

/-- `fast::u64toa` (in `fast.cc`, from the comment of `fast.h`). -/
def u64toa (v : Nat) : List Char := toBase 10 v

/-- `fast::u64toh` (in `fast.cc`, from the comment of `fast.h`: `255 -> 0xff`). -/
def u64toh (v : Nat) : List Char := '0' :: 'x' :: toBase 16 v

/-- `fast::i32toa` and `fast::i64toa` on a `w`-bit value: the digits of `v`, or `-` and the digits
of `(uint_w)(-v)`. -/
def itoa (w : Nat) (v : Int) : List Char :=
  if v ≥ 0 then toBase 10 v.toNat else '-' :: toBase 10 ((-v) % 2 ^ w).toNat

/-- `fast::i32toa`. -/
def i32toa (v : Int) : List Char := itoa 32 v

/-- `fast::i64toa`. -/
def i64toa (v : Int) : List Char := itoa 64 v

/-! ## Digits -/

theorem digitVal_digitChar : ∀ d < 10, digitVal (Nat.digitChar d) = d := by decide

theorem isDigit_digitChar : ∀ d < 10, (Nat.digitChar d).isDigit = true := by decide

/-- `v` has at most `k` digits when it is below `b ^ k`. -/
theorem digitsRev_length_le {b : Nat} (hb : 2 ≤ b) :
    ∀ (f v k : Nat), 0 < k → v < b ^ k → (digitsRev b f v).length ≤ k
  | 0, _, _, _, _ => Nat.zero_le _
  | f + 1, v, k, hk, hv => by
    rw [digitsRev, List.length_cons]
    split
    · exact hk
    · rename_i hvb
      obtain ⟨j, rfl⟩ : ∃ j, k = j + 1 := ⟨k - 1, by omega⟩
      have hj : 0 < j := by
        rcases Nat.eq_zero_or_pos j with rfl | h
        · rw [Nat.zero_add, Nat.pow_one] at hv; exact absurd hv hvb
        · exact h
      have hq : v / b < b ^ j := by
        rw [Nat.div_lt_iff_lt_mul (by omega), ← Nat.pow_succ]; exact hv
      have := digitsRev_length_le hb f (v / b) j hj hq
      omega

theorem toBase_length_le {b v k : Nat} (hb : 2 ≤ b) (hk : 0 < k) (hv : v < b ^ k) :
    (toBase b v).length ≤ k := by
  rw [toBase, List.length_reverse]
  exact digitsRev_length_le hb _ v k hk hv

/-- The value of digits read least significant first. -/
def valRev (l : List Char) : Nat := l.foldr (fun d n => n * 10 + digitVal d) 0

theorem decValue_reverse (l : List Char) : decValue l.reverse = valRev l := by
  rw [decValue, List.foldl_reverse]; rfl

theorem digitsRev_digits : ∀ (f v : Nat), ∀ c ∈ digitsRev 10 f v, c.isDigit = true
  | 0, _, _, h => absurd h (List.not_mem_nil _)
  | f + 1, v, c, h => by
    rw [digitsRev, List.mem_cons] at h
    rcases h with rfl | h
    · exact isDigit_digitChar _ (Nat.mod_lt _ (by omega))
    · split at h
      · exact absurd h (List.not_mem_nil _)
      · exact digitsRev_digits f (v / 10) c h

theorem valRev_digitsRev : ∀ (f v : Nat), v < f → valRev (digitsRev 10 f v) = v
  | 0, _, h => absurd h (Nat.not_lt_zero _)
  | f + 1, v, h => by
    rw [digitsRev]
    split
    · rename_i hv
      simp only [valRev, List.foldr_cons, List.foldr_nil, Nat.zero_mul, Nat.zero_add]
      rw [digitVal_digitChar _ (Nat.mod_lt _ (by omega)), Nat.mod_eq_of_lt hv]
    · have ih := valRev_digitsRev f (v / 10) (by omega)
      show valRev (digitsRev 10 f (v / 10)) * 10 + digitVal (Nat.digitChar (v % 10)) = v
      rw [ih, digitVal_digitChar _ (Nat.mod_lt _ (by omega))]
      omega

/-- The digits of a positive value do not start with `0`. -/
theorem digitsRev_getLast : ∀ (f v : Nat), 0 < v → v < f →
    (digitsRev 10 f v).getLast? ≠ some '0'
  | 0, _, _, h => absurd h (Nat.not_lt_zero _)
  | f + 1, v, hv, hf => by
    rw [digitsRev]
    split
    · rename_i hlt
      rw [List.getLast?_singleton, Nat.mod_eq_of_lt hlt]
      intro h
      have := congrArg digitVal (Option.some.inj h)
      rw [digitVal_digitChar _ hlt] at this
      exact absurd this (by show v ≠ 0; omega)
    · have ih := digitsRev_getLast f (v / 10) (by omega) (by omega)
      have hne : digitsRev 10 f (v / 10) ≠ [] := by
        cases f with
        | zero => omega
        | succ f => rw [digitsRev]; exact List.cons_ne_nil _ _
      obtain ⟨x, hx⟩ := Option.ne_none_iff_exists'.1 (mt List.getLast?_eq_none_iff.1 hne)
      rw [List.getLast?_cons, hx, Option.getD_some]
      rw [hx] at ih
      exact ih

theorem toBase_digits (v : Nat) : ∀ c ∈ toBase 10 v, c.isDigit = true := fun c hc =>
  digitsRev_digits _ v c (List.mem_reverse.1 hc)

theorem decValue_toBase (v : Nat) : decValue (toBase 10 v) = v := by
  rw [toBase, decValue_reverse, valRev_digitsRev _ _ (Nat.lt_succ_self v)]

theorem toBase_ne_nil (b v : Nat) : toBase b v ≠ [] := by
  rw [toBase, Ne, List.reverse_eq_nil_iff, digitsRev]
  exact List.cons_ne_nil _ _

theorem head?_toBase {v : Nat} (hv : 0 < v) : (toBase 10 v).head? ≠ some '0' := by
  rw [toBase, List.head?_reverse]
  exact digitsRev_getLast _ v hv (Nat.lt_succ_self v)

/-! ## The room `operator<<` reserves -/

/-- The types whose values `fast::stream::operator<<` writes as digits after
`ensure(sizeof(v) * 3)`: the integer types (`long` has 8 bytes), and pointers (`ptoh`). -/
inductive Shown
  | short | ushort | int | uint | long | ulong | llong | ullong | ptr
  deriving Repr, DecidableEq

/-- `sizeof` of the type. -/
def Shown.size : Shown → Nat
  | .short | .ushort => 2
  | .int | .uint => 4
  | .long | .ulong | .llong | .ullong | .ptr => 8

/-- The values of the type. -/
def Shown.Values : Shown → Int → Prop
  | .short, v => -2 ^ 15 ≤ v ∧ v < 2 ^ 15
  | .int, v => -2 ^ 31 ≤ v ∧ v < 2 ^ 31
  | .long, v | .llong, v => -2 ^ 63 ≤ v ∧ v < 2 ^ 63
  | .ushort, v => 0 ≤ v ∧ v < 2 ^ 16
  | .uint, v => 0 ≤ v ∧ v < 2 ^ 32
  | .ulong, v | .ullong, v | .ptr, v => 0 ≤ v ∧ v < 2 ^ 64

instance : (t : Shown) → (v : Int) → Decidable (t.Values v)
  | .short, v => inferInstanceAs (Decidable (-2 ^ 15 ≤ v ∧ v < 2 ^ 15))
  | .int, v => inferInstanceAs (Decidable (-2 ^ 31 ≤ v ∧ v < 2 ^ 31))
  | .long, v | .llong, v => inferInstanceAs (Decidable (-2 ^ 63 ≤ v ∧ v < 2 ^ 63))
  | .ushort, v => inferInstanceAs (Decidable (0 ≤ v ∧ v < 2 ^ 16))
  | .uint, v => inferInstanceAs (Decidable (0 ≤ v ∧ v < 2 ^ 32))
  | .ulong, v | .ullong, v | .ptr, v => inferInstanceAs (Decidable (0 ≤ v ∧ v < 2 ^ 64))

/-- What `operator<<` writes: `fast::itoa` and `fast::utoa` pick the 32- or 64-bit writer by
`sizeof`, and a pointer goes to `fast::ptoh`, which is `u64toh` on a 64-bit target. -/
def Shown.render : Shown → Int → List Char
  | .short, v | .int, v => i32toa v
  | .long, v | .llong, v => i64toa v
  | .ushort, v | .uint, v => u32toa v.toNat
  | .ulong, v | .ullong, v => u64toa v.toNat
  | .ptr, v => u64toh v.toNat

/-- A signed value below `10 ^ k` in magnitude takes at most `k + 1` bytes. -/
theorem itoa_length_le {w k : Nat} (hk : 0 < k) {v : Int} (hlo : -2 ^ w < v) (hmag : -10 ^ k < v)
    (hhi : v < 10 ^ k) : (itoa w v).length ≤ k + 1 := by
  have h10 : ((10 ^ k : Nat) : Int) = 10 ^ k := by rw [Int.natCast_pow]; rfl
  unfold itoa
  split
  · exact Nat.le_succ_of_le (toBase_length_le (by decide) hk (by omega))
  · have hm : (-v) % 2 ^ w = -v := Int.emod_eq_of_lt (by omega) (by omega)
    rw [hm, List.length_cons]
    exact Nat.succ_le_succ (toBase_length_le (by decide) hk (by omega))

/-- The text of a value fits in three bytes per byte of its type (the step the stream shares). -/
theorem render_fits (t : Shown) {v : Int} (hv : t.Values v) :
    (t.render v).length ≤ 3 * t.size := by
  cases t <;> simp only [Shown.Values] at hv <;>
    simp only [Shown.render, Shown.size, i32toa, i64toa, u32toa, u64toa, u64toh, List.length_cons]
  · exact itoa_length_le (k := 5) (by decide) (by omega) (by omega) (by omega)
  · exact Nat.le_succ_of_le (toBase_length_le (k := 5) (by decide) (by decide) (by omega))
  · exact Nat.le_succ_of_le (itoa_length_le (k := 10) (by decide) (by omega) (by omega) (by omega))
  · exact Nat.le_trans (toBase_length_le (k := 10) (by decide) (by decide) (by omega)) (by decide)
  · exact Nat.le_trans (itoa_length_le (k := 19) (by decide) (by omega) (by omega) (by omega))
      (by decide)
  · exact Nat.le_trans (toBase_length_le (k := 20) (by decide) (by decide) (by omega)) (by decide)
  · exact Nat.le_trans (itoa_length_le (k := 19) (by decide) (by omega) (by omega) (by omega))
      (by decide)
  · exact Nat.le_trans (toBase_length_le (k := 20) (by decide) (by decide) (by omega)) (by decide)
  · have := toBase_length_le (b := 16) (k := 16) (by decide) (by decide)
      (show v.toNat < 16 ^ 16 by omega)
    omega

/-! ## `Content-Length` -/

/-- The `Content-Length: n` that `http_res_t::set_body` writes (`<< n` on a `size_t`, that is
`u64toa`) is read back as `n` by the body size step of `parse_http_req` when `n` is an `int`
within `http_max_body_size`.  From `2 ^ 31` to `2 ^ 32 - 1` the conversion of `atoi` to `int`
makes it negative, and the request gets 400, whatever `http_max_body_size` is. -/
theorem parseBodySize_u64toa (maxBodySize n : Nat) :
    (n < 2 ^ 31 → n ≤ maxBodySize → parseBodySize maxBodySize (u64toa n) = .ok n) ∧
    (2 ^ 31 ≤ n → n < 2 ^ 32 → parseBodySize maxBodySize (u64toa n) = .error 400) := by
  rcases Nat.eq_zero_or_pos n with rfl | hn
  · exact ⟨fun _ _ => rfl, fun h => absurd h (by decide)⟩
  have hv := decValue_toBase n
  rw [u64toa]
  refine ⟨fun h31 hle => ?_, fun h31 h32 => ?_⟩
  · have hp := @Http.parseBodySize_digits maxBodySize _ (toBase_ne_nil 10 n)
      (toBase_digits n) (head?_toBase hn) (by rwa [hv]) (by rwa [hv])
    rwa [hv] at hp
  · exact Http.parseBodySize_digits_neg (toBase_ne_nil 10 n) (toBase_digits n) (head?_toBase hn)
      (by rwa [hv]) (by rwa [hv])

/-- `Content-Length: 1234` is read back under the default limit; `Content-Length: 2147483648`
gets 400 even under a limit of `3000000000`. -/
theorem parseBodySize_u64toa_1234_2pow31 :
    parseBodySize 10485760 (u64toa 1234) = .ok 1234 ∧
      parseBodySize 3000000000 (u64toa 2147483648) = .error 400 :=
  ⟨(parseBodySize_u64toa 10485760 1234).1 (by decide) (by decide),
    (parseBodySize_u64toa 3000000000 2147483648).2 (by decide) (by decide)⟩

end Coost.Fast
