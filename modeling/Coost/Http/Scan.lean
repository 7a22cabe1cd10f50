import Coost.Http.Head

/-!
# Scanning lemmas for the head parser

`parse_http_req` reads its buffer with four primitives: `find(c, pos, n)`, the space-skipping
loop `while (m[++p] == ' ')`, a single byte `m[i]`, and a C string.  It writes NULs in place.
Each primitive gets one specification lemma here.  The lemma says what the primitive returns in
terms of a decomposition of the buffer from the position it starts at.

* `find_of_drop` and `find_spec`: `find` returns the first `c` of the window, and a found `c`
  splits the buffer there.
* `skipSp_of` and `skipSp_spec`: the loop stops at the first byte after `p` that is not a space.
* `append_cons_split` and `replicate_split`: two decompositions of one buffer, compared at their
  first delimiter.
* `drop_set_of_lt`, `drop_set_ahead`, `set_eq_of_append`: a NUL written before a position,
  after it, or over a delimiter.
* `cstr_of_drop`: a C string ends at the first NUL.
* `find_take`, `byteAt_take`, `skipSp_take`: the primitives read nothing past a bound that
  their window, their index or their stopping byte lies below; `find_congr`, `byteAt_congr`,
  `window_congr`, `skipSp_congr` say the same of two buffers that agree below the bound.
-/

namespace Coost.Http

/-! ## Bytes and windows -/

theorem byteAt_eq (m : List Char) (i : Nat) : byteAt m i = ((m.drop i).head?).getD '\x00' := by
  rw [byteAt, List.getD_eq_getElem?_getD, List.head?_drop]

theorem byteAt_of_drop {m : List Char} {i : Nat} {c : Char} {r : List Char}
    (h : m.drop i = c :: r) : byteAt m i = c := by
  rw [byteAt_eq, h]; rfl

/-- The buffer past a prefix of length `i`. -/
theorem drop_eq_of_append {m P X : List Char} {i : Nat} (h : m = P ++ X) (hi : P.length = i) :
    m.drop i = X := by
  subst h hi; exact List.drop_left _ _

/-- A decomposition of the buffer from `i` gives one from `i + A.length`. -/
theorem drop_add_of_drop {m : List Char} {i : Nat} {A B : List Char} (h : m.drop i = A ++ B)
    {j : Nat} (hj : i + A.length = j) : m.drop j = B := by
  rw [← hj, ← List.drop_drop, h, List.drop_left]

/-! ## `find` -/

/-- The first occurrence of `c` in a list that holds it. -/
theorem exists_first {c : Char} : ∀ {w : List Char}, c ∈ w →
    ∃ A B, w = A ++ c :: B ∧ c ∉ A ∧ w.indexOf c = A.length
  | d :: w, h => by
    by_cases hd : d = c
    · subst hd; exact ⟨[], w, rfl, List.not_mem_nil _, List.indexOf_cons_self _ _⟩
    · obtain ⟨A, B, rfl, hA, hi⟩ :=
        exists_first ((List.mem_cons.1 h).resolve_left (Ne.symm hd))
      refine ⟨d :: A, B, rfl, ?_, ?_⟩
      · simp [hA, Ne.symm hd]
      · rw [List.indexOf_cons_ne _ hd, hi]; rfl

/-- `find` returns the first `c` of the window. -/
theorem find_of_drop {m : List Char} {c : Char} {pos n : Nat} {A B : List Char}
    (h : m.drop pos = A ++ c :: B) (hA : c ∉ A) (hn : A.length < n) {i : Nat}
    (hi : pos + A.length = i) : find m c pos n = some i := by
  subst hi
  obtain ⟨k, rfl⟩ : ∃ k, n = A.length + (k + 1) := ⟨n - A.length - 1, by omega⟩
  have hw : window m pos (A.length + (k + 1)) = A ++ c :: B.take k := by
    rw [window, h, List.take_append_eq_append_take, List.take_of_length_le (by omega),
      Nat.add_sub_cancel_left, List.take_succ_cons]
  rw [find, hw, if_pos (by simp), List.indexOf_append_of_not_mem hA, List.indexOf_cons_self,
    Nat.add_zero]

/-- A `c` that `find` returns splits the buffer at its first occurrence after `pos`. -/
theorem find_spec {m : List Char} {c : Char} {pos n i : Nat} (h : find m c pos n = some i) :
    ∃ A B, m.drop pos = A ++ c :: B ∧ c ∉ A ∧ A.length < n ∧ i = pos + A.length := by
  unfold find at h
  split at h
  · rename_i hc
    obtain ⟨A, B, hw, hA, hi⟩ := exists_first hc
    cases h
    have hlen : A.length < n := by
      have := congrArg List.length hw
      simp only [window, List.length_take, List.length_append, List.length_cons] at this
      omega
    refine ⟨A, B ++ (m.drop pos).drop n, (List.take_append_drop n (m.drop pos)).symm.trans ?_,
      hA, hlen, by rw [hi]⟩
    show window m pos n ++ _ = _
    rw [hw]; simp
  · cases h

/-- Where a found `c` lies. -/
theorem find_bounds {m : List Char} {c : Char} {pos n i : Nat} (h : find m c pos n = some i) :
    pos ≤ i ∧ i < pos + n ∧ byteAt m i = c := by
  obtain ⟨A, B, hA, -, hlt, rfl⟩ := find_spec h
  exact ⟨Nat.le_add_right _ _, by omega, byteAt_of_drop (drop_add_of_drop hA rfl)⟩

/-! ## The space-skipping loop -/

/-- The loop skips the run of spaces after `p` and stops at a byte that is not a space. -/
theorem skipSp_of {m : List Char} {p k : Nat} {r : List Char}
    (h : m.drop (p + 1) = List.replicate k ' ' ++ r) (hr : r.head? ≠ some ' ') {j : Nat}
    (hj : p + 1 + k = j) : skipSp m p = j := by
  subst hj
  have hr' : r.takeWhile (fun c => decide (c = ' ')) = [] := by
    cases r with
    | nil => rfl
    | cons d r => simp only [List.head?_cons, ne_eq, Option.some.injEq] at hr; simp [hr]
  rw [skipSp, h, List.takeWhile_append_of_pos (by simp [List.mem_replicate]), hr',
    List.append_nil, List.length_replicate]

/-- A list is its leading spaces followed by the rest. -/
theorem spaces_append_dropWhile (l : List Char) :
    l = List.replicate (l.takeWhile (· = ' ')).length ' ' ++ l.dropWhile (· = ' ') := by
  conv_lhs => rw [← List.takeWhile_append_dropWhile (fun c => decide (c = ' ')) l]
  congr 1
  exact List.eq_replicate_iff.2 ⟨rfl, fun b hb => by simpa using List.mem_takeWhile_imp hb⟩

theorem head?_dropWhile_space (l : List Char) : (l.dropWhile (· = ' ')).head? ≠ some ' ' := by
  intro he
  have := List.head?_dropWhile_not (fun c => decide (c = ' ')) l
  rw [he] at this
  simp at this

/-- Where the loop stops: a run of spaces after `p`, then a byte that is not a space. -/
theorem skipSp_spec (m : List Char) (p : Nat) :
    m.drop (p + 1) = List.replicate (skipSp m p - (p + 1)) ' ' ++ m.drop (skipSp m p) ∧
      (m.drop (skipSp m p)).head? ≠ some ' ' := by
  have hsplit := spaces_append_dropWhile (m.drop (p + 1))
  have hdrop : m.drop (skipSp m p) = (m.drop (p + 1)).dropWhile (· = ' ') :=
    drop_add_of_drop hsplit (by rw [List.length_replicate]; rfl)
  refine ⟨?_, hdrop ▸ head?_dropWhile_space _⟩
  rw [hdrop, skipSp, Nat.add_sub_cancel_left]
  exact hsplit

/-! ## Comparing decompositions -/

/-- Two decompositions of one list at delimiters `c` and `d`, with `d` first. -/
theorem append_cons_split {X Y U V : List Char} {c d : Char} (h : X ++ c :: Y = U ++ d :: V)
    (hlt : U.length < X.length) : ∃ W, X = U ++ d :: W ∧ V = W ++ c :: Y := by
  rcases List.append_eq_append_iff.1 h with ⟨a, rfl, -⟩ | ⟨c', rfl, hc'⟩
  · simp only [List.length_append] at hlt; omega
  · cases c' with
    | nil => simp only [List.append_nil, Nat.lt_irrefl] at hlt
    | cons e W =>
      simp only [List.cons_append, List.cons.injEq] at hc'
      obtain ⟨rfl, rfl⟩ := hc'
      exact ⟨W, rfl, rfl⟩

/-- A run of spaces in front of a list whose byte at `X.length` is not a space lies inside
`X`. -/
theorem replicate_split {c : Char} (hc : c ≠ ' ') {Y D : List Char} :
    ∀ {k : Nat} {X : List Char}, X ++ c :: Y = List.replicate k ' ' ++ D →
      ∃ W, X = List.replicate k ' ' ++ W ∧ D = W ++ c :: Y
  | 0, X, h => ⟨X, rfl, by simpa using h.symm⟩
  | k + 1, [], h => by simp [List.replicate_succ] at h; exact absurd h.1 hc
  | k + 1, x :: X, h => by
    simp only [List.cons_append, List.replicate_succ, List.cons.injEq] at h
    obtain ⟨W, rfl, rfl⟩ := replicate_split hc h.2
    exact ⟨W, by rw [h.1]; rfl, rfl⟩

/-! ## NULs written in place -/

theorem drop_set_of_lt {m : List Char} {i j : Nat} (c : Char) (h : i < j) :
    (m.set i c).drop j = m.drop j := by
  rw [List.drop_set, if_pos h]

/-- The byte at `j ≥ i` replaced, seen from `i`. -/
theorem drop_set_ahead {m : List Char} {i j : Nat} {c : Char} (h : i ≤ j) :
    (m.set j c).drop i = (m.drop i).set (j - i) c := by
  rw [List.drop_set, if_neg (by omega)]

/-- A byte written over the delimiter that ends `X`. -/
theorem set_eq_of_append {m X Y : List Char} {c d : Char} {i : Nat} (h : m = X ++ c :: Y)
    (hi : X.length = i) : m.set i d = X ++ d :: Y := by
  subst h hi; simp

theorem byteAt_set_ne {m : List Char} {i j : Nat} (c : Char) (h : i ≠ j) :
    byteAt (m.set i c) j = byteAt m j := by
  rw [byteAt, byteAt, List.getD_eq_getElem?_getD, List.getD_eq_getElem?_getD,
    List.getElem?_set_ne h]

/-- A byte written over a byte of the buffer reads back. -/
theorem byteAt_set_self {m : List Char} {i : Nat} (c : Char) (h : byteAt m i ≠ '\x00') :
    byteAt (m.set i c) i = c := by
  have hi : i < m.length := by
    by_contra hc
    exact h (by rw [byteAt, List.getD_eq_getElem?_getD, List.getElem?_eq_none (by omega)]; rfl)
  simp [byteAt, hi]

/-! ## C strings -/

/-- A C string ends at the first NUL. -/
theorem cstr_of_drop {m : List Char} {i : Nat} {A r : List Char} (h : m.drop i = A ++ '\x00' :: r) :
    cstr m i = A.takeWhile (· ≠ '\x00') := by
  rw [cstr, h, List.takeWhile_append]
  split
  · rename_i hlen
    rw [List.takeWhile_cons_of_neg (by simp), List.append_nil,
      (List.takeWhile_prefix _).eq_of_length hlen]
  · rfl

/-! ## Reads below a bound -/

theorem window_take {m : List Char} {size pos n : Nat} (h : pos + n ≤ size) :
    window (m.take size) pos n = window m pos n := by
  rw [window, window, List.drop_take, List.take_take, Nat.min_eq_left (by omega)]

theorem find_take {m : List Char} {size : Nat} (c : Char) {pos n : Nat} (h : pos + n ≤ size) :
    find (m.take size) c pos n = find m c pos n := by
  rw [find, find, window_take h]

theorem byteAt_take {m : List Char} {size i : Nat} (h : i < size) :
    byteAt (m.take size) i = byteAt m i := by
  rw [byteAt, byteAt, List.getD_eq_getElem?_getD, List.getD_eq_getElem?_getD,
    List.getElem?_take_of_lt h]

/-- Every byte the loop skips is a space. -/
theorem byteAt_lt_skipSp {m : List Char} {p i : Nat} (hpi : p < i) (his : i < skipSp m p) :
    byteAt m i = ' ' := by
  have h := congrArg (·[i - (p + 1)]?) (skipSp_spec m p).1
  simp only [List.getElem?_drop] at h
  rw [byteAt, List.getD_eq_getElem?_getD, show i = p + 1 + (i - (p + 1)) by omega, h,
    List.getElem?_append_left (by simp only [List.length_replicate]; omega),
    List.getElem?_replicate, if_pos (by omega)]
  rfl

/-- The loop stops at the latest at a byte after `p` that is not a space. -/
theorem skipSp_le {m : List Char} {p j : Nat} (hpj : p < j) (hj : byteAt m j ≠ ' ') :
    skipSp m p ≤ j :=
  Nat.le_of_not_lt fun hlt => hj (byteAt_lt_skipSp hpj hlt)

/-- The loop reads nothing past a byte after `p` that is not a space. -/
theorem skipSp_take {m : List Char} {size p j : Nat} (hpj : p < j) (hjs : j < size)
    (hj : byteAt m j ≠ ' ') : skipSp (m.take size) p = skipSp m p := by
  obtain ⟨hs, hne⟩ := skipSp_spec m p
  have hp : p + 1 ≤ skipSp m p := Nat.le_add_right _ _
  have hle := skipSp_le hpj hj
  obtain ⟨k, hk⟩ : ∃ k, size - skipSp m p = k + 1 := ⟨size - skipSp m p - 1, by omega⟩
  have hd : (m.take size).drop (p + 1) =
      List.replicate (skipSp m p - (p + 1)) ' ' ++ (m.drop (skipSp m p)).take (k + 1) := by
    rw [List.drop_take, hs, List.take_append_eq_append_take,
      List.take_of_length_le (by simp only [List.length_replicate]; omega), List.length_replicate,
      show size - (p + 1) - (skipSp m p - (p + 1)) = k + 1 by omega]
  exact skipSp_of hd (by rwa [List.head?_take, if_neg (Nat.succ_ne_zero k)]) (by omega)

/-! ## Two buffers that agree below `size` -/

section Agree

variable {m m' : List Char} {size : Nat} (h : m'.take size = m.take size)
include h

theorem find_congr (c : Char) {pos n : Nat} (hn : pos + n ≤ size) :
    find m' c pos n = find m c pos n := by
  rw [← find_take c hn, h, find_take c hn]

theorem byteAt_congr {i : Nat} (hi : i < size) : byteAt m' i = byteAt m i := by
  rw [← byteAt_take hi, h, byteAt_take hi]

theorem window_congr {pos n : Nat} (hn : pos + n ≤ size) : window m' pos n = window m pos n := by
  rw [← window_take hn, h, window_take hn]

theorem take_congr {n : Nat} (hn : n ≤ size) : m'.take n = m.take n := by
  rw [← Nat.min_eq_left hn, ← List.take_take, h, List.take_take]

theorem skipSp_congr {p j : Nat} (hpj : p < j) (hjs : j < size) (hj : byteAt m j ≠ ' ') :
    skipSp m' p = skipSp m p := by
  rw [← skipSp_take hpj hjs hj, ← h, skipSp_take hpj hjs (by rwa [byteAt_congr h hjs])]

/-- A NUL written below `size` into both keeps them agreeing. -/
theorem take_set_congr (i : Nat) (c : Char) : (m'.set i c).take size = (m.set i c).take size := by
  rw [List.set_take, List.set_take, h]

end Agree

end Coost.Http
