import Coost.Mutex.Basic
import Mathlib.Data.List.Count

/-!
# Mutual exclusion of `mutex_impl`

`Inv` is the invariant of one mutex over every interleaving of `try_lock`, `lock`, `unlock`,
thread wake-ups and coroutine resumptions.  The notion it turns on is `Owns`: a party owns the
mutex when it holds it or when it is a coroutine that `unlock` put in its scheduler's mailbox.
The invariant says that `_lock` is `1` exactly while somebody owns the mutex, that at most one
party owns it, that `_lock = 0` leaves `_wq` empty, and that every coroutine entry of `_wq` is a
distinct waiting coroutine.

* One lemma per operation keeps `Inv`: `tryLock_inv`, `lock_inv`, `unlock_inv`, `wake_inv`,
  `resume_inv`; `step_inv` puts them together and `run_inv` runs them over an interleaving.
* `mutexImpl_exclusive` is the result: in every reachable state at most one party holds the
  mutex, `_lock = 0` exactly when nobody holds it and no hand-off is pending, and a free mutex
  has no waiter.
-/

namespace Coost.Mutex

open Function

/-- `p` holds the mutex, or is a coroutine that has been handed it and sits in the mailbox. -/
def Owns (m : MutexImpl) (p : Party) : Prop := m.phase p = .holding ∨ m.phase p = .ready

/-- The invariant of `mutex_impl`. -/
structure Inv (m : MutexImpl) : Prop where
  owns_lock : ∀ p, Owns m p → m.lock = 1
  owns_unique : ∀ p q, Owns m p → Owns m q → p = q
  lock_cases : m.lock = 0 ∨ m.lock = 2 ∨ ∃ p, Owns m p
  free_empty : m.lock = 0 → m.wq = []
  queued : ∀ c, some c ∈ m.wq → m.phase (.co c) = .waiting
  queued_nodup : ∀ c, m.wq.count (some c) ≤ 1

theorem init_inv : Inv MutexImpl.init where
  owns_lock _ h := by simp [Owns, MutexImpl.init] at h
  owns_unique _ _ h := by simp [Owns, MutexImpl.init] at h
  lock_cases := Or.inl rfl
  free_empty _ := rfl
  queued _ h := by simp [MutexImpl.init] at h
  queued_nodup _ := by simp [MutexImpl.init]

/-- Ownership after one party's phase is overwritten. -/
theorem owns_update (m : MutexImpl) (p q : Party) (ph : Phase) (l : Nat) (wq : List (Option Nat)) :
    Owns ⟨wq, l, update m.phase p ph⟩ q ↔
      if q = p then ph = .holding ∨ ph = .ready else Owns m q := by
  by_cases h : q = p
  · subst h; simp [Owns]
  · simp [Owns, h]

variable {m : MutexImpl}

/-- Nobody owns the mutex unless `_lock` is `1`. -/
theorem Inv.not_owns (hi : Inv m) (h : m.lock ≠ 1) (q : Party) : ¬ Owns m q :=
  fun hq => h (hi.owns_lock q hq)

/-- An idle party does not own the mutex. -/
theorem not_owns_of_idle {p : Party} (hp : m.phase p = .idle) : ¬ Owns m p := by
  simp [Owns, hp]

/-- Giving the free mutex to an idle party keeps the invariant; this is the fast path of both
`try_lock` and `lock`. -/
theorem take_inv (hi : Inv m) (h0 : m.lock = 0) (p : Party) :
    Inv { m with lock := 1, phase := update m.phase p .holding } := by
  have hnone := hi.not_owns (by omega)
  have hwq := hi.free_empty h0
  refine ⟨fun _ _ => rfl, fun q r hq hr => ?_, Or.inr (Or.inr ⟨p, ?_⟩), by simp, ?_, ?_⟩
  · rw [owns_update] at hq hr
    split_ifs at hq hr with h1 h2 <;> first | exact h1.trans h2.symm | exact absurd ‹Owns m _› (hnone _)
  · simp [owns_update]
  · simp [hwq]
  · simp [hwq]

theorem tryLock_inv (hi : Inv m) (p : Party) : Inv (tryLock m p) := by
  unfold tryLock
  split
  · exact take_inv hi ‹_› p
  · exact hi

theorem lock_inv (hi : Inv m) {p : Party} (hp : m.phase p = .idle) : Inv (lock m p) := by
  unfold lock
  split
  · exact take_inv hi ‹_› p
  · rename_i h0
    have hnew : ∀ c, p.entry = some c → some c ∉ m.wq := by
      intro c hc hmem
      cases p with
      | co d =>
        obtain rfl : d = c := by simpa [Party.entry] using hc
        simp [hi.queued d hmem] at hp
      | thread t => simp [Party.entry] at hc
    refine ⟨fun q hq => ?_, fun q r hq hr => ?_, ?_, fun h => absurd h h0, fun c hc => ?_, fun c => ?_⟩
    · rw [owns_update] at hq
      split_ifs at hq with h
      · simp at hq
      · exact hi.owns_lock q hq
    · rw [owns_update] at hq hr
      split_ifs at hq hr <;> first | simp at hq | simp at hr | exact hi.owns_unique q r hq hr
    · rcases hi.lock_cases with h | h | ⟨q, hq⟩
      · exact absurd h h0
      · exact Or.inr (Or.inl h)
      · refine Or.inr (Or.inr ⟨q, ?_⟩)
        have hqp : q ≠ p := fun e => not_owns_of_idle hp (e ▸ hq)
        rw [owns_update, if_neg hqp]
        exact hq
    · simp only [List.mem_append, List.mem_singleton] at hc
      rcases hc with hc | hc
      · have hcp : Party.co c ≠ p := by
          rintro rfl
          simp [hi.queued c hc] at hp
        simp [update_noteq hcp, hi.queued c hc]
      · cases p with
        | co d =>
          obtain rfl : c = d := by simpa [Party.entry] using hc
          simp
        | thread t => simp [Party.entry] at hc
    · simp only [List.count_append]
      by_cases hc : p.entry = some c
      · rw [hc, List.count_eq_zero_of_not_mem (hnew c hc)]
        simp
      · simpa [List.count_singleton', Ne.symm hc] using hi.queued_nodup c

theorem wake_inv (hi : Inv m) (t : Nat) : Inv (wake m t) := by
  unfold wake
  split
  · rename_i h2
    have hnone := hi.not_owns (by omega)
    refine ⟨fun _ _ => rfl, fun q r hq hr => ?_, Or.inr (Or.inr ⟨.thread t, by simp [owns_update]⟩),
      by simp, fun c hc => ?_, hi.queued_nodup⟩
    · rw [owns_update] at hq hr
      split_ifs at hq hr with h1 h2 <;> first | exact h1.trans h2.symm | exact absurd ‹Owns m _› (hnone _)
    · simp [hi.queued c hc]
  · exact hi

theorem resume_inv (hi : Inv m) {c : Nat} (hc : m.phase (.co c) = .ready) : Inv (resume m c) := by
  have hown : Owns m (.co c) := Or.inr hc
  have hsame : ∀ q, Owns (resume m c) q ↔ Owns m q := by
    intro q
    by_cases h : q = .co c
    · subst h; simp [resume, Owns, hc]
    · simp [resume, Owns, h]
  refine ⟨fun q hq => hi.owns_lock q ((hsame q).1 hq),
    fun q r hq hr => hi.owns_unique q r ((hsame q).1 hq) ((hsame r).1 hr), ?_, hi.free_empty,
    fun d hd => ?_, hi.queued_nodup⟩
  · rcases hi.lock_cases with h | h | ⟨q, hq⟩
    · exact Or.inl h
    · exact Or.inr (Or.inl h)
    · exact Or.inr (Or.inr ⟨q, (hsame q).2 hq⟩)
  · have hdc : Party.co d ≠ .co c := by
      intro e
      injection e with e
      subst e
      simp [hi.queued d hd] at hc
    simp [resume, update_noteq hdc, hi.queued d hd]

theorem unlock_inv (hi : Inv m) {p : Party} (hp : m.phase p = .holding) : Inv (unlock m p) := by
  have hl : m.lock = 1 := hi.owns_lock p (Or.inl hp)
  have honly : ∀ q, Owns m q → q = p := fun q hq => hi.owns_unique q p hq (Or.inl hp)
  unfold unlock
  split
  · rename_i hwq
    refine ⟨fun q hq => ?_, fun q r hq hr => ?_, Or.inl rfl, fun _ => hwq, fun c hc => ?_,
      fun c => by simp [hwq]⟩
    · rw [owns_update] at hq
      split_ifs at hq with h
      · simp at hq
      · exact absurd (honly q hq) h
    · rw [owns_update] at hq
      split_ifs at hq with h
      · simp at hq
      · exact absurd (honly q hq) h
    · simp [hwq] at hc
  · rename_i c rest hwq
    have hcw : m.phase (.co c) = .waiting := hi.queued c (by simp [hwq])
    have hcp : Party.co c ≠ p := by rintro rfl; simp [hp] at hcw
    have hrest : some c ∉ rest := by
      have := hi.queued_nodup c
      rw [hwq, List.count_cons_self] at this
      exact List.count_eq_zero.mp (by omega)
    have hown : ∀ q, Owns ⟨rest, m.lock, update (update m.phase p .idle) (.co c) .ready⟩ q ↔
        q = .co c := by
      intro q
      by_cases h : q = .co c
      · subst h; simp [Owns]
      · by_cases h' : q = p
        · subst h'; simp [Owns, h]
        · refine iff_of_false (fun hq => h' (honly q ?_)) h
          simpa [Owns, update_noteq h, update_noteq h'] using hq
    refine ⟨fun q _ => hl, fun q r hq hr => ((hown q).1 hq).trans ((hown r).1 hr).symm,
      Or.inr (Or.inr ⟨.co c, (hown _).2 rfl⟩), fun h => by simp [hl] at h, fun d hd => ?_,
      fun d => ?_⟩
    · have hdc : d ≠ c := by rintro rfl; exact hrest hd
      have hdp : Party.co d ≠ p := by
        rintro rfl
        simp [hi.queued d (by simp [hwq, hd])] at hp
      simp [update_noteq (show Party.co d ≠ .co c by simpa using hdc), update_noteq hdp,
        hi.queued d (by simp [hwq, hd])]
    · have := hi.queued_nodup d
      rw [hwq, List.count_cons] at this
      show rest.count (some d) ≤ 1
      omega
  · rename_i rest hwq
    refine ⟨fun q hq => ?_, fun q r hq hr => ?_, Or.inr (Or.inl rfl), fun h => by simp at h,
      fun c hc => ?_, fun c => ?_⟩
    · rw [owns_update] at hq
      split_ifs at hq with h
      · simp at hq
      · exact absurd (honly q hq) h
    · rw [owns_update] at hq
      split_ifs at hq with h
      · simp at hq
      · exact absurd (honly q hq) h
    · have hw := hi.queued c (by simp [hwq, hc])
      have hcp : Party.co c ≠ p := by rintro rfl; simp [hp] at hw
      simp [update_noteq hcp, hw]
    · have := hi.queued_nodup c
      rw [hwq, List.count_cons] at this
      simp at this ⊢
      omega

/-- Every step keeps the invariant. -/
theorem step_inv {m m' : MutexImpl} {a : Action} (hi : Inv m) (h : step m a = some m') :
    Inv m' := by
  rcases step_cases h with ⟨p, -, -, rfl⟩ | ⟨p, -, hp, rfl⟩ | ⟨p, -, hp, rfl⟩ | ⟨t, -, -, rfl⟩ |
    ⟨c, -, hc, rfl⟩
  · exact tryLock_inv hi p
  · exact lock_inv hi hp
  · exact unlock_inv hi hp
  · exact wake_inv hi t
  · exact resume_inv hi hc

/-- Every state an interleaving reaches from `mutex_impl()` satisfies the invariant. -/
theorem run_inv {as : List Action} {m : MutexImpl} (h : run MutexImpl.init as = some m) : Inv m :=
  run_preserves (fun _ _ _ hi hs => step_inv hi hs) as _ _ init_inv h

/-- A hand-off is pending: a coroutine waits in its mailbox to return from `lock`, or `_lock = 2`
waits for a thread to wake. -/
def PendingHandoff (m : MutexImpl) : Prop := (∃ p, m.phase p = .ready) ∨ m.lock = 2

/-- Mutual exclusion of `mutex_impl` over every interleaving of `lock`, `try_lock` and `unlock`
(by the holder) from coroutines and threads, with condition-variable wake-ups at any time:
at most one party holds the mutex, `_lock = 0` exactly when nobody holds it and no hand-off is
pending, and then `_wq` is empty. -/
theorem mutexImpl_exclusive (as : List Action) (m : MutexImpl)
    (h : run MutexImpl.init as = some m) :
    (∀ p q, m.phase p = .holding → m.phase q = .holding → p = q) ∧
    (m.lock = 0 ↔ (∀ p, m.phase p ≠ .holding) ∧ ¬ PendingHandoff m) ∧
    (m.lock = 0 → m.wq = []) := by
  have hi := run_inv h
  refine ⟨fun p q hp hq => hi.owns_unique p q (Or.inl hp) (Or.inl hq), ⟨fun h0 => ?_, ?_⟩,
    hi.free_empty⟩
  · refine ⟨fun p hp => hi.not_owns (by omega) p (Or.inl hp), ?_⟩
    rintro (⟨p, hp⟩ | h2)
    · exact hi.not_owns (by omega) p (Or.inr hp)
    · omega
  · rintro ⟨hnh, hnp⟩
    rcases hi.lock_cases with h0 | h2 | ⟨p, hp | hp⟩
    · exact h0
    · exact absurd (Or.inr h2) hnp
    · exact absurd hp (hnh p)
    · exact absurd (Or.inl ⟨p, hp⟩) hnp

/-- Coroutine 1 takes the mutex, coroutine 2 blocks, and coroutine 1 unlocks: the mutex is
handed off to coroutine 2 through its mailbox. -/
theorem mutexImpl_exclusive_handoff : ∃ m,
    run MutexImpl.init [.lock (.co 1), .lock (.co 2), .unlock (.co 1)] = some m ∧
    ((∀ p q, m.phase p = .holding → m.phase q = .holding → p = q) ∧
    (m.lock = 0 ↔ (∀ p, m.phase p ≠ .holding) ∧ ¬ PendingHandoff m) ∧
    (m.lock = 0 → m.wq = [])) := by
  obtain ⟨m, h⟩ : ∃ m,
      run MutexImpl.init [.lock (.co 1), .lock (.co 2), .unlock (.co 1)] = some m := ⟨_, rfl⟩
  exact ⟨m, h, mutexImpl_exclusive _ m h⟩

end Coost.Mutex
