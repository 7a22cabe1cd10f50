import Coost.Pipe.Invariant

/-!
# When a pipe call fails

`pipe_impl::write` returns `false` at once on a closed pipe, and `read` on a closed pipe whose
ring is empty:

    void pipe_impl::write(void* p, int v) {
        ...
        if (this->is_closed()) {
            _m.unlock();
            goto enod;
        }

`close()` wakes the readers blocked on an empty pipe with `x.done = 2`, which they return as a
failure.  Every other failure is a timeout: a blocked call whose exchange `wait → timeout` won,
which `check_timeout` and `wait_for` only try when `_ms` is not `(uint32_t)-1`.

`FailInv` keeps along a run that each call that returned `false` could fail: `close()` had
begun, or the pipe has a timeout.  `_closed` never goes back to `0`; `RecOk` says that only
`close()` sets `x.done = 2` and only a timer sets `st_timeout`.  `step_failInv` follows
`step_cases`, and `run_failInv` is its run.
-/

namespace Coost.Pipe

open Function

variable {α : Type}

/-- A call may fail: `close()` began, or the pipe waits with a timeout. -/
def MayFail (cf : PipeConf) (s : PipeImpl α) : Prop := s.closed ≠ 0 ∨ cf.inf = false

/-- Only `close()` sets `x.done = 2`, and only a timer sets `st_timeout`. -/
structure RecOk (cf : PipeConf) (s : PipeImpl α) : Prop where
  done : ∀ w, 1 < (s.waitx w).done → s.closed ≠ 0
  timeout : ∀ w, (s.waitx w).state = .timeout → cf.inf = false

/-- Each read and write of the events `tr` that returned `false` could fail. -/
structure FailInv (cf : PipeConf) (s : PipeImpl α) (tr : List (Event α)) extends RecOk cf s :
    Prop where
  read : ∀ q o, .readDone q false o ∈ tr → MayFail cf s
  write : ∀ q x, .writeDone q false x ∈ tr → MayFail cf s

section Steps

variable {cf : PipeConf} {s s' : PipeImpl α} {tr es : List (Event α)}

/-- A call that may fail found `close()` begun or `_ms` not `(uint32_t)-1`. -/
theorem MayFail.closed_or_ms (h : MayFail cf s) : s.closed ≠ 0 ∨ cf.ms ≠ msInfinite :=
  h.imp_right fun hi => by simpa [PipeConf.inf] using hi

/-- A step that keeps `_closed` and the records. -/
theorem RecOk.frame (h : RecOk cf s) (hc : s'.closed = s.closed) (hx : s'.waitx = s.waitx) :
    RecOk cf s' :=
  ⟨fun w hw => hc ▸ h.done w (hx ▸ hw), fun w hw => h.timeout w (hx ▸ hw)⟩

/-- A step that keeps `_closed` and writes one record, served or pending. -/
theorem RecOk.update (h : RecOk cf s) (hc : s'.closed = s.closed) {w : Nat} {y : Waitx α}
    (hx : s'.waitx = update s.waitx w y) (hd : y.done ≤ 1)
    (ht : y.state = .timeout → cf.inf = false) : RecOk cf s' := by
  constructor <;> intro v hv <;> rw [hx] at hv <;> by_cases hvw : v = w
  · subst hvw; rw [update_same] at hv; omega
  · rw [update_noteq hvw] at hv; exact hc ▸ h.done v hv
  · subst hvw; rw [update_same] at hv; exact ht hv
  · rw [update_noteq hvw] at hv; exact h.timeout v hv

/-- A timer's exchange `wait → timeout` wins, on a pipe with a timeout. -/
theorem RecOk.setTimeout (h : RecOk cf s) (hi : cf.inf = false) (w : Nat) :
    RecOk cf (s.setWaitx w { s.waitx w with state := .timeout }) := by
  refine ⟨fun v hv => h.done v ?_, fun v hv => ?_⟩ <;> by_cases hvw : v = w
  · subst hvw; simpa [PipeImpl.setWaitx] using hv
  · simpa [PipeImpl.setWaitx, hvw] using hv
  · exact hi
  · exact h.timeout v (by simpa [PipeImpl.setWaitx, hvw] using hv)

/-- A served record is in `st_timeout` only if it was. -/
theorem served_timeout (h : RecOk cf s) (w : Nat) (x : α) :
    (served cf.inf (s.waitx w) x).state = .timeout → cf.inf = false := by
  unfold served
  split
  · exact h.timeout w
  · intro h'; cases h'

/-- A step whose new failures could fail, and that keeps `_closed` set. -/
theorem FailInv.next (h : FailInv cf s tr) (hr : RecOk cf s') (hc : s.closed ≠ 0 → s'.closed ≠ 0)
    (hre : ∀ q o, .readDone q false o ∈ es → MayFail cf s')
    (hwe : ∀ q x, .writeDone q false x ∈ es → MayFail cf s') : FailInv cf s' (tr ++ es) := by
  have hm : MayFail cf s → MayFail cf s' := Or.imp_left hc
  refine ⟨hr, fun q o he => ?_, fun q x he => ?_⟩
  · rcases List.mem_append.1 he with he | he
    · exact hm (h.read q o he)
    · exact hre q o he
  · rcases List.mem_append.1 he with he | he
    · exact hm (h.write q x he)
    · exact hwe q x he

/-- A step that fails nothing and keeps `_closed`. -/
theorem FailInv.quiet (h : FailInv cf s tr) (hr : RecOk cf s') (hc : s'.closed = s.closed)
    (hre : ∀ q o, .readDone q false o ∉ es) (hwe : ∀ q x, .writeDone q false x ∉ es) :
    FailInv cf s' (tr ++ es) :=
  h.next hr (hc ▸ id) (fun q o he => absurd he (hre q o)) fun q x he => absurd he (hwe q x)

theorem read_failInv [Inhabited α] (h : FailInv cf s tr) (q : Party) :
    FailInv cf (s.read cf q).1 (tr ++ (s.read cf q).2) := by
  unfold PipeImpl.read
  split
  · exact h.quiet (h.frame rfl rfl) rfl (by simp) (by simp)
  · split
    · split
      · rename_i w ws _
        exact h.quiet (h.update rfl rfl (by simp [served]) (served_timeout h.toRecOk w _)) rfl
          (by simp) (by simp)
      · exact h.quiet (h.frame rfl rfl) rfl (by simp) (by simp)
    · split
      · rename_i hc
        exact h.next h.toRecOk id (fun _ _ _ => .inl hc) (by simp)
      · exact h.quiet (h.update rfl rfl (Nat.zero_le 1) nofun) rfl (by simp) (by simp)

theorem write_failInv (h : FailInv cf s tr) (q : Party) (x : α) :
    FailInv cf (s.write cf q x).1 (tr ++ (s.write cf q x).2) := by
  unfold PipeImpl.write
  split
  · rename_i hc
    exact h.next h.toRecOk id (by simp) fun _ _ _ => .inl hc
  · split
    · exact h.quiet (h.frame rfl rfl) rfl (by simp) (by simp)
    · split
      · split
        · rename_i w ws _
          exact h.quiet (h.update rfl rfl (by simp [served]) (served_timeout h.toRecOk w _)) rfl
            (by simp) (by simp)
        · exact h.quiet (h.frame rfl rfl) rfl (by simp) (by simp)
      · exact h.quiet (h.update rfl rfl (Nat.zero_le 1) nofun) rfl (by simp) (by simp)

/-- `close()`'s critical section sets `_closed = 2`; the records it wakes leave `st_wait`. -/
theorem closeEnd_failInv (h : FailInv cf s tr) : FailInv cf s.closeEnd (tr ++ []) := by
  have hc : s.closeEnd.closed = 2 := by unfold PipeImpl.closeEnd; split <;> rfl
  have ht : ∀ w, (s.closeEnd.waitx w).state = .timeout → (s.waitx w).state = .timeout := by
    intro w
    unfold PipeImpl.closeEnd
    split
    · simp only [closeAll_apply]
      split
      · intro h'; cases h'
      · exact id
    · exact id
  exact h.next ⟨fun _ _ => by rw [hc]; omega, fun w hw => h.timeout w (ht w hw)⟩
    (fun _ => by rw [hc]; omega) (by simp) (by simp)

/-- A blocked call returns: it fails only when its timer won or `close()` woke it. -/
theorem finish_failInv (h : FailInv cf s tr) {q : Party} {w : Nat} (hd : (s.waitx w).done ≠ 0) :
    FailInv cf (s.finish q (s.phase q) w).1 (tr ++ (s.finish q (s.phase q) w).2) := by
  have hr : RecOk cf (s.setPhase q .idle) := h.frame rfl rfl
  unfold PipeImpl.finish
  split
  · exact h.next hr id (by simp) (by simp)
  · split
    · exact h.next hr id (by simp) (by simp)
    · rename_i h1
      exact h.next hr id (fun _ _ _ => .inl (h.done w (by omega))) (by simp)

theorem fail_failInv (h : FailInv cf s tr) (hi : cf.inf = false) (q : Party) (ph : Phase)
    (w : Nat) : FailInv cf (s.fail q ph w).1 (tr ++ (s.fail q ph w).2) :=
  h.next (h.frame rfl rfl) id (fun _ _ _ => .inr hi) fun _ _ _ => .inr hi

/-- Every step keeps `FailInv`. -/
theorem step_failInv [Inhabited α] (h : FailInv cf s tr) {a : Action α}
    {r : PipeImpl α × List (Event α)} (hs : step cf s a = some r) : FailInv cf r.1 (tr ++ r.2) := by
  have htimeout : ∀ w, cf.inf = false →
      FailInv cf (s.setWaitx w { s.waitx w with state := .timeout }) tr :=
    fun w hi => ⟨h.setTimeout hi w, h.read, h.write⟩
  cases step_cases hs with
  | read q _ => exact read_failInv h q
  | write q x _ => exact write_failInv h q x
  | closeBegin =>
    have hr : RecOk cf { s with closed := 1 } := ⟨fun _ _ => by simp, h.timeout⟩
    exact h.next hr (fun _ => by simp) (by simp) (by simp)
  | closeEnd => exact closeEnd_failInv h
  | expire _ q _ hi => rw [List.append_nil]; exact htimeout _ hi
  | fail _ q _ hst => exact fail_failInv h (h.timeout _ hst) q _ _
  | finish _ q _ hd => exact finish_failInv h hd
  | expireFail _ q _ hi => exact fail_failInv (htimeout _ hi) hi q _ _
  | stay => exact h.quiet h.toRecOk rfl (by simp) (by simp)

theorem run_failInv [Inhabited α] : ∀ (as : List (Action α)) {s : PipeImpl α}
    {tr : List (Event α)} {r : PipeImpl α × List (Event α)}, FailInv cf s tr →
    run cf s as = some r → FailInv cf r.1 (tr ++ r.2)
  | [], _, _, _, h, hs => by cases hs; simpa using h
  | a :: as, _, _, _, h, hs => by
    simp only [run, Option.bind_eq_some, Option.map_eq_some'] at hs
    obtain ⟨r1, h1, r2, h2, rfl⟩ := hs
    simpa using run_failInv as (step_failInv h h1) h2

theorem make_failInv [Inhabited α] : FailInv cf (PipeImpl.make : PipeImpl α) [] where
  done _ h := absurd h (Nat.not_lt_zero 1)
  timeout _ h := nomatch h
  read _ _ h := nomatch h
  write _ _ h := nomatch h

/-- A write on a closed pipe returns `false` at once and changes nothing. -/
theorem step_write_closed [Inhabited α] {q : Party} (hq : s.phase q = .idle) (hc : s.closed ≠ 0)
    (x : α) :
    step cf s (.write q x) = some (s, [.writeDone q false x]) := by
  simp [step, PipeImpl.write, hq, hc]

/-- A read on a closed pipe whose ring is empty returns `false` at once and changes nothing. -/
theorem step_read_closed [Inhabited α] {q : Party} (hq : s.phase q = .idle) (hc : s.closed ≠ 0)
    (he : s.rx = s.wx) (hf : s.full = false) :
    step cf s (.read q) = some (s, [.readDone q false none]) := by
  simp [step, PipeImpl.read, hq, hc, he, hf]

end Steps

end Coost.Pipe
