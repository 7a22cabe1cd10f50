import Coost.Http.Conn

/-!
# Receiving on a network that only delivers bytes

The framing results of the server hold for every way of cutting the peer's bytes.  Here the
network is one that only delivers bytes (`AllData`): no timeout, no failure, no `exit()`.  The
bytes it delivers, in order, are `netBytes`, and each call on the connection keeps
`received ++ netBytes rest = netBytes net`:

* `recvNet_allData`: a `recv` returns some bytes, at most as many as it asked for, and they are
  the first bytes still to come;
* `recvnNet_allData`: a `recvn` of `k` bytes returns exactly the first `k`;
* `readStopped_allData`, `sendNet_allData`: `_stopped` stays unset and every `send` succeeds.

Then the searches of `fastring::find` (`findStr`): the first occurrence in a prefix is the first
occurrence in the whole (`findStr_append_of_some`), and a prefix without an occurrence ends before
the end of the first occurrence in the whole (`findStr_lt_of_none`).
-/

namespace Coost.Http

/-- An event that delivers bytes. -/
def Net.isData : Net → Bool
  | .data _ _ => true
  | _ => false

/-- The bytes of the peer in the events of `net`, in order. -/
def netBytes : List Net → List Char
  | [] => []
  | .data b bs :: net => b :: bs ++ netBytes net
  | _ :: net => netBytes net

/-- A network that only delivers bytes. -/
def AllData (net : List Net) : Prop := ∀ e ∈ net, e.isData = true

section Network

variable {net : List Net}

theorem AllData.tail {e : Net} (h : AllData (e :: net)) : AllData net :=
  fun e' he' => h e' (List.mem_cons_of_mem _ he')

theorem AllData.cons_data {b : Char} {bs : List Char} (h : AllData net) :
    AllData (.data b bs :: net) := by
  intro e he
  rcases List.mem_cons.1 he with rfl | he
  · rfl
  · exact h e he

/-- A nonempty network that only delivers bytes starts with bytes. -/
theorem AllData.eq_cons (h : AllData net) (hne : net ≠ []) :
    ∃ b bs rest, net = .data b bs :: rest := by
  obtain ⟨e, rest, rfl⟩ := List.exists_cons_of_ne_nil hne
  have he := h e (List.mem_cons_self _ _)
  cases e with
  | data b bs => exact ⟨b, bs, rest, rfl⟩
  | _ => cases he

@[simp] theorem netBytes_pushBytes (bs : List Char) (net : List Net) :
    netBytes (pushBytes bs net) = bs ++ netBytes net := by
  cases bs <;> rfl

theorem AllData.pushBytes (h : AllData net) (bs : List Char) : AllData (pushBytes bs net) := by
  cases bs with
  | nil => exact h
  | cons b bs => exact h.cons_data

theorem netBytes_eq_nil (h : AllData net) : netBytes net = [] ↔ net = [] := by
  constructor
  · intro hn
    by_contra hne
    obtain ⟨b, bs, rest, rfl⟩ := h.eq_cons hne
    cases hn
  · rintro rfl; rfl

/-- A `recv` returns the first bytes still to come, some and at most as many as it asked for. -/
theorem recvNet_allData (st : Bool) (h : AllData net) (hne : net ≠ []) {n : Nat} (hn : 0 < n) :
    ∃ bs net', recvNet n net st = (.bytes bs, net', st) ∧ bs ≠ [] ∧ bs.length ≤ n ∧
      bs ++ netBytes net' = netBytes net ∧ AllData net' := by
  obtain ⟨b, bs, rest, rfl⟩ := h.eq_cons hne
  obtain ⟨k, rfl⟩ : ∃ k, n = k + 1 := ⟨n - 1, by omega⟩
  refine ⟨(b :: bs).take (k + 1), _, rfl, by simp, List.length_take_le _ _, ?_,
    h.tail.pushBytes _⟩
  rw [netBytes_pushBytes, ← List.append_assoc, List.take_append_drop]
  rfl

/-- A `recvn` of `k` bytes, when `k` are still to come, returns exactly the first `k`. -/
theorem recvnNet_allData (st : Bool) :
    ∀ {net : List Net} {k : Nat}, AllData net → k ≤ (netBytes net).length →
      ∃ net', recvnNet k net st = (.bytes ((netBytes net).take k), net', st) ∧
        netBytes net' = (netBytes net).drop k ∧ AllData net'
  | net, 0, h, _ => ⟨net, by cases net <;> rfl, rfl, h⟩
  | [], _ + 1, _, hk => absurd hk (by simp [netBytes])
  | .data b bs :: net, k + 1, h, hk => by
    have hnb : netBytes (.data b bs :: net) = b :: bs ++ netBytes net := rfl
    by_cases hle : k + 1 ≤ (b :: bs).length
    · refine ⟨pushBytes ((b :: bs).drop (k + 1)) net, ?_, ?_, h.tail.pushBytes _⟩
      · rw [recvnNet, if_pos hle, hnb, List.take_append_of_le_length hle]
      · rw [netBytes_pushBytes, hnb, List.drop_append_of_le_length hle]
    · have hk' : k + 1 - (b :: bs).length ≤ (netBytes net).length := by
        rw [hnb, List.length_append] at hk; omega
      obtain ⟨net', hr, hb, hd⟩ := recvnNet_allData st h.tail hk'
      refine ⟨net', ?_, ?_, hd⟩
      · rw [recvnNet, if_neg hle, hr, hnb, List.take_append_eq_append_take,
          List.take_of_length_le (l := b :: bs) (by omega)]
      · rw [hb, hnb, List.drop_append_eq_append_drop,
          List.drop_of_length_le (l := b :: bs) (by omega), List.nil_append]
  | .timeout _ :: _, _ + 1, h, _ => absurd (h _ (List.mem_cons_self _ _)) Bool.false_ne_true
  | .error :: _, _ + 1, h, _ => absurd (h _ (List.mem_cons_self _ _)) Bool.false_ne_true
  | .stop :: _, _ + 1, h, _ => absurd (h _ (List.mem_cons_self _ _)) Bool.false_ne_true

theorem readStopped_allData (st : Bool) (h : AllData net) : readStopped net st = (st, net) := by
  cases net with
  | nil => rfl
  | cons e rest =>
    obtain ⟨b, bs, _, he⟩ := h.eq_cons (List.cons_ne_nil e rest)
    cases he; rfl

theorem sendNet_allData (st : Bool) (h : AllData net) : sendNet net st = (true, net, st) := by
  cases net with
  | nil => rfl
  | cons e rest =>
    obtain ⟨b, bs, _, he⟩ := h.eq_cons (List.cons_ne_nil e rest)
    cases he; rfl

end Network

/-! ## The capacity -/

theorem le_reserveCap (cap n : Nat) : n ≤ reserveCap cap n := by
  unfold reserveCap; split <;> omega

theorem le_reserveCap_left (cap n : Nat) : cap ≤ reserveCap cap n := by
  unfold reserveCap; split <;> omega

theorem le_ensureCap (cap size n : Nat) : cap ≤ ensureCap cap size n := by
  unfold ensureCap; split <;> omega

/-! ## `fastring::find` -/

section Find

variable {p : List Char}

theorem findCrlfCrlf_eq_findStr : ∀ l : List Char, findCrlfCrlf l = findStr "\r\n\r\n".toList l
  | [] => rfl
  | c :: t => by rw [findCrlfCrlf, findStr, findCrlfCrlf_eq_findStr t]

/-- An occurrence: the index found splits the list around `p`. -/
theorem findStr_spec : ∀ {l : List Char} {i : Nat}, findStr p l = some i →
    ∃ A B, l = A ++ p ++ B ∧ A.length = i
  | [], _, h => by cases h
  | c :: t, i, h => by
    rw [findStr] at h
    split_ifs at h with hp
    · cases h
      obtain ⟨B, hB⟩ := (List.isPrefixOf_iff_prefix.1 hp)
      exact ⟨[], B, by simp [hB], rfl⟩
    · obtain ⟨j, hj, rfl⟩ := Option.map_eq_some'.1 h
      obtain ⟨A, B, rfl, rfl⟩ := findStr_spec hj
      exact ⟨c :: A, B, by simp, rfl⟩

/-- `p` is a prefix of `l ++ B` and no longer than `l`: it is a prefix of `l`. -/
theorem prefix_of_prefix_append {l B : List Char} (h : p <+: l ++ B) (hl : p.length ≤ l.length) :
    p <+: l := by
  rw [List.prefix_iff_eq_take, List.take_append_of_le_length hl] at h
  rw [h]; exact List.take_prefix _ _

/-- The first occurrence in a prefix is the first occurrence in the whole. -/
theorem findStr_append_of_some (B : List Char) : ∀ {A : List Char} {i : Nat},
    findStr p A = some i → findStr p (A ++ B) = some i
  | [], _, h => by cases h
  | c :: t, i, h => by
    rw [findStr] at h
    rw [List.cons_append, findStr]
    split_ifs at h with hp
    · cases h
      have hp' : p <+: c :: (t ++ B) :=
        (List.isPrefixOf_iff_prefix.1 hp).trans (List.prefix_append (c :: t) B)
      rw [if_pos (List.isPrefixOf_iff_prefix.2 hp')]
    · obtain ⟨j, hj, rfl⟩ := Option.map_eq_some'.1 h
      obtain ⟨X, Y, hXY, hX⟩ := findStr_spec hj
      have hlen : p.length ≤ (c :: t).length := by
        rw [hXY]; simp only [List.length_cons, List.length_append]; omega
      rw [if_neg fun (hp' : p.isPrefixOf (c :: (t ++ B)) = true) => hp (List.isPrefixOf_iff_prefix.2
        (prefix_of_prefix_append (B := B) (List.isPrefixOf_iff_prefix.1 hp') hlen)),
        findStr_append_of_some B hj]
      rfl

/-- A prefix with no occurrence ends before the end of the first occurrence in the whole. -/
theorem findStr_lt_of_none (hp : p ≠ []) (B : List Char) : ∀ {A : List Char} {i : Nat},
    findStr p A = none → findStr p (A ++ B) = some i → A.length < i + p.length
  | [], _, _, _ => by have := List.length_pos.2 hp; simp only [List.length_nil]; omega
  | c :: t, i, h, h' => by
    rw [findStr] at h
    rw [List.cons_append, findStr] at h'
    split_ifs at h with hpc
    obtain ⟨ht⟩ : findStr p t = none ∧ True := ⟨Option.map_eq_none'.1 h, trivial⟩
    split_ifs at h' with hpc'
    · cases h'
      by_contra hc
      exact hpc (List.isPrefixOf_iff_prefix.2
        (prefix_of_prefix_append (List.isPrefixOf_iff_prefix.1 hpc') (by omega)))
    · obtain ⟨j, hj, rfl⟩ := Option.map_eq_some'.1 h'
      have := findStr_lt_of_none hp B ht hj
      simp only [List.length_cons]; omega

/-- Bytes that cannot start `p` are skipped. -/
theorem findStr_append_of_not_mem {c : Char} {p' : List Char} (B : List Char) :
    ∀ {A : List Char}, c ∉ A → findStr (c :: p') (A ++ B) = (findStr (c :: p') B).map (· + A.length)
  | [], _ => by simp
  | a :: t, hA => by
    have ha : a ≠ c := fun h => hA (h ▸ List.mem_cons_self _ _)
    have ht : c ∉ t := fun h => hA (List.mem_cons_of_mem _ h)
    rw [List.cons_append, findStr, if_neg (by simp [List.isPrefixOf_cons₂, Ne.symm ha]),
      findStr_append_of_not_mem B ht, Option.map_map]
    rfl

end Find

end Coost.Http
