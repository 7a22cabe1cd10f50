import Coost.Basic
import Mathlib.Data.List.Basic

/-!
# Choosing a scheduler for a new coroutine

`SchedManager::SchedManager` of `src/src/co/sched.cc` first fixes the flags: `co_sched_num` (a
`uint16_t`) becomes the number of cpus when it is 0 or larger, `co_stack_num` becomes 8 unless
it is a power of two, and `co_stack_size` becomes 1 MiB when it is 0.  Then it installs `_next`,
which `go()` calls to place each new coroutine.  With one scheduler `_next` returns it.
Otherwise the first `n` calls go round robin (`g_nco`), and later calls draw a scheduler `i` at
random and compare it with its successor `k`:

    return (si.cputime[k] == tk || ti <= (si.cputime[k] = tk)) ? v[i] : v[k];

`_next` takes the draw as `rand & (n - 1)` when `n` is a power of two and as `rand % n`
otherwise.  The model takes the value `co::rand(si.seed)` returns and the cpu time of each
scheduler as arguments, and each call of `_next` as one step.

* `nextPow2_eq_nextMod`: on a power of two the masked draw is the remainder, so both lambdas
  pick the same scheduler and leave the same state.
* `nextSched_lt`: whatever the flags, the draw and the cpu times, the scheduler `_next` returns
  exists: its index is below the number of schedulers, which is at least 1 and at most the
  number of cpus.
* `runNext_round_robin`: the first `n` calls return `0, 1, ..., n - 1`.
-/

namespace Coost.Scheduler

/-- `SchedManager::SchedManager` on `FLG_co_sched_num`, `FLG_co_stack_num` and
`FLG_co_stack_size`, with `ncpu = os::cpunum()`; `n = ncpu` stores into a `uint16_t`. -/
def fixFlags (ncpu n m s : Nat) : Nat × Nat × Nat :=
  (if n = 0 ∨ n > ncpu then ncpu % 2 ^ 16 else n,
   if m = 0 ∨ m &&& (m - 1) ≠ 0 then 8 else m,
   if s = 0 then 1024 * 1024 else s)

/-- What `_next` reads and writes besides its arguments: `g_nco`, and this thread's
`sched_info().cputime`, the cpu time last seen of each scheduler. -/
structure Pick where
  nco : UInt32
  cputime : List Int
  deriving Repr, DecidableEq

/-- The comparison of the drawn scheduler `i` with its successor `k`: `i`, unless `k`'s cpu time
has moved since this thread last looked and is below `i`'s. -/
def pickLess (p : Pick) (ct : List Int) (i k : Nat) : Nat × Pick :=
  let ti := ct.getD i 0
  let tk := ct.getD k 0
  if p.cputime.getD k 0 = tk then (i, p)
  else
    let p' := { p with cputime := p.cputime.set k tk }
    if ti ≤ tk then (i, p') else (k, p')

/-- The round-robin head of both lambdas: `if (g_nco < v.size()) { i = g_nco++; if (i < v.size())
return v[i]; }`, then `draw`. -/
def roundRobin (n : Nat) (p : Pick) (draw : Pick → Nat × Pick) : Nat × Pick :=
  if p.nco.toNat < n then
    let i := p.nco
    let p' := { p with nco := p.nco + 1 }
    if i.toNat < n then (i.toNat, p') else draw p'
  else draw p

/-- `_next` when `n` is a power of two: `i = co::rand(si.seed) & x` with `x = n - 1`. -/
def nextPow2 (n : Nat) (ct : List Int) (r : UInt32) (p : Pick) : Nat × Pick :=
  roundRobin n p fun p =>
    let x : UInt32 := UInt32.ofNat (n - 1)
    let i := r &&& x
    let k : UInt32 := if i ≠ x then i + 1 else 0
    pickLess p ct i.toNat k.toNat

/-- `_next` otherwise: `i = co::rand(si.seed) % x` with `x = n`. -/
def nextMod (n : Nat) (ct : List Int) (r : UInt32) (p : Pick) : Nat × Pick :=
  roundRobin n p fun p =>
    let x : UInt32 := UInt32.ofNat n
    let i := r % x
    let k : UInt32 := if i ≠ x - 1 then i + 1 else 0
    pickLess p ct i.toNat k.toNat

/-- The `_next` that `SchedManager` installs for `n` schedulers. -/
def nextSched (n : Nat) (ct : List Int) (r : UInt32) (p : Pick) : Nat × Pick :=
  if n ≠ 1 then
    if n &&& (n - 1) = 0 then nextPow2 n ct r p else nextMod n ct r p
  else (0, p)

/-- Consecutive calls of `_next`, each with the cpu times and the draw of its call. -/
def runNext (n : Nat) : Pick → List (List Int × UInt32) → List Nat
  | _, [] => []
  | p, (ct, r) :: cs => (nextSched n ct r p).1 :: runNext n (nextSched n ct r p).2 cs

/-! ## A power of two -/

/-- The guard of the first lambda: a positive `n` with `n & (n - 1) == 0` is a power of two. -/
theorem isPowerOfTwo_of_and_pred {n : Nat} (h0 : 0 < n) (h : n &&& (n - 1) = 0) :
    n.isPowerOfTwo := by
  refine ⟨n.log2, ?_⟩
  have hlo : 2 ^ n.log2 ≤ n := Nat.log2_self_le (by omega)
  have hhi : n < 2 ^ (n.log2 + 1) := Nat.lt_log2_self
  have hbit : ∀ m, 2 ^ n.log2 ≤ m → m < 2 ^ (n.log2 + 1) → m.testBit n.log2 = true := by
    intro m hm hm'
    obtain ⟨d, rfl⟩ : ∃ d, m = 2 ^ n.log2 + d := ⟨m - 2 ^ n.log2, by omega⟩
    rw [Nat.testBit_two_pow_add_eq, Nat.testBit_lt_two_pow (by rw [Nat.pow_succ] at hm'; omega)]
    rfl
  by_contra hne
  have := congrArg (Nat.testBit · n.log2) h
  simp only [Nat.testBit_and, Nat.zero_testBit, hbit n hlo hhi, Bool.true_and] at this
  rw [hbit (n - 1) (by omega) (by omega)] at this
  exact absurd this (by decide)

/-- On a power of two below `2^32`, the masked draw is the remainder. -/
theorem and_pred_eq_mod {n : Nat} (hp : n.isPowerOfTwo) (h32 : n < 2 ^ 32) (r : UInt32) :
    r &&& UInt32.ofNat (n - 1) = r % UInt32.ofNat n := by
  obtain ⟨k, rfl⟩ := hp
  apply uint32_eq_of_toNat
  rw [UInt32.and_toNat, UInt32.toNat_mod, uint32_toNat_ofNat (by omega),
    uint32_toNat_ofNat h32, Nat.and_pow_two_sub_one_eq_mod]

/-- The two lambdas agree on a power of two: the first is the second with `%` strength-reduced,
the same scheduler and the same `g_nco` and cpu time cache. -/
theorem nextPow2_eq_nextMod {n : Nat} (h0 : 0 < n) (h32 : n < 2 ^ 32) (h : n &&& (n - 1) = 0)
    (ct : List Int) (r : UInt32) (p : Pick) : nextPow2 n ct r p = nextMod n ct r p := by
  have hx : UInt32.ofNat n - 1 = UInt32.ofNat (n - 1) := by
    apply uint32_eq_of_toNat
    rw [UInt32.toNat_sub_of_le _ _ (by
        show 1 ≤ (UInt32.ofNat n).toNat; rw [uint32_toNat_ofNat h32]; omega),
      uint32_toNat_ofNat h32, uint32_toNat_ofNat (by omega)]
    rfl
  simp only [nextPow2, nextMod, hx, and_pred_eq_mod (isPowerOfTwo_of_and_pred h0 h) h32]

/-- Eight schedulers, past the round robin, with a draw of `13`: both lambdas pick alike. -/
theorem nextPow2_eq_nextMod_eight :
    (0 < 8 ∧ 8 < 2 ^ 32 ∧ 8 &&& (8 - 1) = 0) ∧
      nextPow2 8 [1, 2, 3, 4, 5, 6, 7, 8] 13 ⟨8, List.replicate 8 0⟩ =
        nextMod 8 [1, 2, 3, 4, 5, 6, 7, 8] 13 ⟨8, List.replicate 8 0⟩ :=
  ⟨by decide, nextPow2_eq_nextMod (by decide) (by decide) (by decide) _ _ _⟩

/-! ## The scheduler picked exists -/

theorem pickLess_fst (p : Pick) (ct : List Int) (i k : Nat) :
    (pickLess p ct i k).1 = i ∨ (pickLess p ct i k).1 = k := by
  dsimp only [pickLess]
  split_ifs <;> simp

theorem roundRobin_lt {n : Nat} {draw : Pick → Nat × Pick} (hd : ∀ q, (draw q).1 < n)
    (p : Pick) : (roundRobin n p draw).1 < n := by
  dsimp only [roundRobin]
  split_ifs with h1
  · exact h1
  · exact hd _

/-- The drawn scheduler and its successor exist. -/
theorem nextMod_lt {n : Nat} (h0 : 0 < n) (h32 : n < 2 ^ 32) (ct : List Int) (r : UInt32)
    (p : Pick) : (nextMod n ct r p).1 < n := by
  have hx := uint32_toNat_ofNat h32
  have hi : (r % UInt32.ofNat n).toNat < n := by
    rw [UInt32.toNat_mod, hx]; exact Nat.mod_lt _ h0
  have hk : (if r % UInt32.ofNat n ≠ UInt32.ofNat n - 1 then r % UInt32.ofNat n + 1
      else 0 : UInt32).toNat < n := by
    split_ifs with hne
    · have hx1 : (UInt32.ofNat n - 1).toNat = n - 1 := by
        rw [uint32_toNat_sub_one (by omega), hx]
      have hne' : (r % UInt32.ofNat n).toNat ≠ n - 1 := fun e =>
        hne (uint32_eq_of_toNat (by rw [e, hx1]))
      rw [uint32_toNat_add_one (by omega)]
      omega
    · exact h0
  exact roundRobin_lt
    (fun q => by rcases pickLess_fst q ct _ _ with h | h <;> rw [h] <;> assumption) p

/-- The masked draw and its successor exist. -/
theorem nextPow2_lt {n : Nat} (h0 : 0 < n) (h32 : n < 2 ^ 32) (ct : List Int) (r : UInt32)
    (p : Pick) : (nextPow2 n ct r p).1 < n := by
  have hx : (UInt32.ofNat (n - 1)).toNat = n - 1 := uint32_toNat_ofNat (by omega)
  have hi : (r &&& UInt32.ofNat (n - 1)).toNat ≤ n - 1 := by
    rw [UInt32.and_toNat, hx]; exact Nat.and_le_right
  have hk : (if r &&& UInt32.ofNat (n - 1) ≠ UInt32.ofNat (n - 1) then
      (r &&& UInt32.ofNat (n - 1)) + 1 else 0 : UInt32).toNat < n := by
    split_ifs with hne
    · have hne' : (r &&& UInt32.ofNat (n - 1)).toNat ≠ n - 1 := fun e =>
        hne (uint32_eq_of_toNat (by rw [e, hx]))
      rw [uint32_toNat_add_one (by omega)]
      omega
    · exact h0
  exact roundRobin_lt
    (fun q => by rcases pickLess_fst q ct _ _ with h | h <;> rw [h] <;> omega) p

/-- Whatever the flags, the draw and the cpu times, `_next` returns a scheduler that exists: the
number of schedulers the flags give is between 1 and the number of cpus, and the index `_next`
returns is below it. -/
theorem nextSched_lt {ncpu : Nat} (hc : 0 < ncpu) (hc16 : ncpu < 2 ^ 16) (n m s : Nat)
    (ct : List Int) (r : UInt32) (p : Pick) :
    let k := (fixFlags ncpu n m s).1
    1 ≤ k ∧ k ≤ ncpu ∧ (nextSched k ct r p).1 < k := by
  intro k
  have hk : 1 ≤ k ∧ k ≤ ncpu := by
    simp only [k, fixFlags]
    split_ifs with h <;> omega
  refine ⟨hk.1, hk.2, ?_⟩
  unfold nextSched
  split_ifs with h1 h2
  · exact nextPow2_lt (by omega) (by omega) ct r p
  · exact nextMod_lt (by omega) (by omega) ct r p
  · show 0 < k
    omega

/-- Four cpus and the flag left at 0: four schedulers, and a draw of `7` picks one of them. -/
theorem nextSched_lt_four :
    (0 < 4 ∧ 4 < 2 ^ 16) ∧
      (1 ≤ (fixFlags 4 0 8 0).1 ∧ (fixFlags 4 0 8 0).1 ≤ 4 ∧
        (nextSched (fixFlags 4 0 8 0).1 [3, 1, 4, 1] 7 ⟨4, [0, 0, 0, 0]⟩).1 < (fixFlags 4 0 8 0).1) :=
  ⟨by decide, nextSched_lt (by decide) (by decide) 0 8 0 [3, 1, 4, 1] 7 ⟨4, [0, 0, 0, 0]⟩⟩

/-! ## Round robin first -/

theorem roundRobin_head {n : Nat} {p : Pick} (h : p.nco.toNat < n) (draw : Pick → Nat × Pick) :
    roundRobin n p draw = (p.nco.toNat, { p with nco := p.nco + 1 }) := by
  simp [roundRobin, h]

/-- While `g_nco < n`, a call returns `g_nco` and counts it. -/
theorem nextSched_head {n : Nat} (h2 : 2 ≤ n) {p : Pick} (h : p.nco.toNat < n) (ct : List Int)
    (r : UInt32) : nextSched n ct r p = (p.nco.toNat, { p with nco := p.nco + 1 }) := by
  unfold nextSched nextPow2 nextMod
  rw [if_pos (by omega)]
  split_ifs <;> exact roundRobin_head h _

theorem runNext_from {n : Nat} (h2 : 2 ≤ n) (h32 : n < 2 ^ 32) :
    ∀ (cs : List (List Int × UInt32)) (p : Pick), p.nco.toNat ≤ n →
      (runNext n p cs).take (n - p.nco.toNat) =
        List.range' p.nco.toNat (min (n - p.nco.toNat) cs.length)
  | [], _, _ => by simp [runNext]
  | (ct, r) :: cs, p, hp => by
    rcases Nat.lt_or_ge p.nco.toNat n with hlt | hge
    · have hinc : (p.nco + 1).toNat = p.nco.toNat + 1 := uint32_toNat_add_one (by omega)
      have ih := runNext_from h2 h32 cs { p with nco := p.nco + 1 }
        (show (p.nco + 1).toNat ≤ n by omega)
      obtain ⟨d, hd⟩ : ∃ d, n - p.nco.toNat = d + 1 := ⟨n - p.nco.toNat - 1, by omega⟩
      have hd' : n - (p.nco + 1).toNat = d := by omega
      dsimp only at ih
      rw [hd', hinc] at ih
      rw [runNext, nextSched_head h2 hlt ct r]
      dsimp only
      rw [hd, List.take_succ_cons, List.length_cons, Nat.add_min_add_right, List.range'_succ, ih]
    · rw [show n - p.nco.toNat = 0 by omega]; simp

/-- The first `n` calls of `_next` return `0, 1, ..., n - 1` in turn, whatever the draws and cpu
times: each scheduler gets one of the first `n` coroutines. -/
theorem runNext_round_robin {n : Nat} (h0 : 0 < n) (h32 : n < 2 ^ 32) (c : List Int)
    (cs : List (List Int × UInt32)) : (runNext n ⟨0, c⟩ cs).take n = List.range (min n cs.length) := by
  rcases Nat.lt_or_ge n 2 with h1 | h2
  · obtain rfl : n = 1 := by omega
    cases cs with
    | nil => rfl
    | cons x cs => simp [runNext, nextSched]; rfl
  · have := runNext_from h2 h32 cs ⟨0, c⟩ (by simp)
    simpa [List.range_eq_range'] using this

/-- Three schedulers and five calls: `0`, `1`, `2`, then the draws. -/
theorem runNext_round_robin_three :
    (0 < 3 ∧ 3 < 2 ^ 32) ∧
      (runNext 3 ⟨0, [0, 0, 0]⟩ [([5, 9, 2], 7), ([5, 9, 2], 1), ([5, 9, 2], 4), ([6, 9, 2], 8),
        ([6, 9, 3], 2)]).take 3 = List.range (min 3 5) :=
  ⟨by decide, runNext_round_robin (by decide) (by decide) _ _⟩

end Coost.Scheduler
