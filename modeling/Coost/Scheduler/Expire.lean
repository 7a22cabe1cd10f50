import Coost.Scheduler.Timer

/-!
# The postcondition of `check_timeout`

`TimerManager::check_timeout(res)` (`src/src/co/sched.cc`) walks the ordered map `_timer` from
its first entry up to the first entry whose deadline is after `now`.  For each entry it clears
the coroutine's handle.  It pushes the coroutine on `res` when the coroutine has no waitx, or
when its exchange `wait → timeout` wins.  Then it erases the walked prefix, moves the hint `_it`
off the erased prefix, and returns `(uint32_t)(_timer.begin()->first - now_ms)`, or
`(uint32_t)-1` for an empty map.  `Sched::loop` passes that value to the poller as its wait.

The precondition is what a timer map is: its entries are sorted by deadline, they are distinct
nodes, each entry's coroutine holds the handle of that entry, and the hint is `end` or an entry.

* `takeWhile_due`: in a sorted map, the walked prefix is the set of due entries and the rest
  is the set of entries after `now`.
* `expireDue_res`, `expireDue_waitx`: when no coroutine has two entries, `res` holds exactly
  the expired coroutines with no waitx or with a waitx in `wait`, and the exchange moves that
  waitx to `timeout`.
* `checkTimeout_spec`: the postcondition on any timer map at any time.  The returned wait is
  taken modulo `2 ^ 32` by the cast, and it is the exact distance to the earliest remaining
  deadline when that deadline is less than `2 ^ 32` ms after `now`.
* `step_timer`: a step erases entries, or it is a `yield` whose `add_timer` inserts one entry
  at a reading of the clock not before the last one.  `run_induct` turns a step lemma into a
  run lemma, and from it `run_timerMap` (every scheduler a run reaches holds a timer map) and
  `run_bounded` (every deadline is less than `2 ^ 32` ms after the clock, since `add_timer`
  adds a `uint32_t` delay to `now::ms()`, which never goes back).
* `check_timeout_post`: on every scheduler a run reaches and at every reading of the clock,
  the wait is exactly the distance to the earliest remaining deadline, and positive.
-/

namespace Coost.Scheduler

open Function

/-! ## The walked prefix -/

/-- In a map sorted by deadline, the entries that the loop walks before it stops are the due
ones, and the entries it leaves are the later ones. -/
theorem takeWhile_due (now : Int) :
    ∀ {l : List Entry}, l.Pairwise (·.deadline ≤ ·.deadline) →
    l.takeWhile (·.deadline ≤ now) = l.filter (·.deadline ≤ now) ∧
    l.dropWhile (·.deadline ≤ now) = l.filter (now < ·.deadline)
  | [], _ => ⟨rfl, rfl⟩
  | e :: es, h => by
    rw [List.pairwise_cons] at h
    by_cases he : e.deadline ≤ now
    · obtain ⟨h1, h2⟩ := takeWhile_due now h.2
      simp [List.takeWhile_cons, List.dropWhile_cons, List.filter_cons, he, h1, h2]
    · have hlt : ∀ e' ∈ es, now < e'.deadline := fun e' he' => by have := h.1 e' he'; omega
      simp only [List.takeWhile_cons, List.dropWhile_cons, List.filter_cons, he, decide_False,
        Bool.false_eq_true, if_false, not_le.1 he, decide_True, if_true]
      exact ⟨(List.filter_eq_nil_iff.2 fun e' he' => by simpa using hlt e' he').symm,
        congrArg _ (List.filter_eq_self.2 fun e' he' => by simpa using hlt e' he').symm⟩

/-! ## The loop over the due entries -/

/-- With no coroutine twice among the entries, the first entry's coroutine is on no later
entry. -/
theorem co_ne_of_nodup {e : Entry} {es : List Entry} (hnd : ((e :: es).map (·.co)).Nodup) :
    (es.map (·.co)).Nodup ∧ ∀ d ∈ es, d.co ≠ e.co := by
  rw [List.map_cons, List.nodup_cons] at hnd
  exact ⟨hnd.2, fun d hd h => hnd.1 (h ▸ List.mem_map_of_mem _ hd)⟩

/-- With no coroutine twice among the entries, `res` holds, in map order, the coroutines with no
waitx or with a waitx in `wait`. -/
theorem expireDue_res : ∀ (cos : Nat → Coroutine) {l : List Entry}, (l.map (·.co)).Nodup →
    (expireDue cos l).2 = (l.filter fun e => (cos e.co).waitx.all (· = .wait)).map (·.co)
  | _, [], _ => rfl
  | cos, e :: es, hnd => by
    obtain ⟨hnd, hne⟩ := co_ne_of_nodup hnd
    rw [expireDue]
    dsimp only
    rw [expireDue_res _ hnd, List.filter_congr fun d hd => by rw [update_noteq (hne d hd)],
      List.filter_cons]
    cases hw : (cos e.co).waitx <;> simp [casWait_snd, apply_ite (List.map _)]

/-- The loop leaves every coroutine without a due entry as it was. -/
theorem expireDue_frame : ∀ (cos : Nat → Coroutine) {l : List Entry} {c : Nat},
    (∀ d ∈ l, d.co ≠ c) → (expireDue cos l).1 c = cos c
  | _, [], _, _ => rfl
  | cos, e :: es, c, h => by
    rw [expireDue, expireDue_frame _ fun d hd => h d (List.mem_cons_of_mem _ hd)]
    exact update_noteq (h e (List.mem_cons_self _ _)).symm _ _

/-- The exchange `wait → timeout` on the waitx of each expired coroutine. -/
theorem expireDue_waitx : ∀ (cos : Nat → Coroutine) {l : List Entry}, (l.map (·.co)).Nodup →
    ∀ e ∈ l, ((expireDue cos l).1 e.co).waitx =
      (cos e.co).waitx.map fun st => (casWait st .timeout).1
  | _, [], _, _, he => absurd he (List.not_mem_nil _)
  | cos, e :: es, hnd, e', he' => by
    obtain ⟨hnd, hne⟩ := co_ne_of_nodup hnd
    rcases List.mem_cons.1 he' with rfl | he'
    · rw [expireDue, expireDue_frame _ hne, update_same]
    · rw [expireDue, expireDue_waitx _ hnd e' he', update_noteq (hne e' he')]

/-! ## The postcondition -/

/-- What a timer map is, as `check_timeout` reads it: entries in deadline order, distinct
nodes, each entry's coroutine holding the handle of that entry, and the hint `end` or an
entry. -/
structure TimerMap (s : Sched) : Prop where
  sorted : s.timerMgr.timer.Pairwise (·.deadline ≤ ·.deadline)
  ids_nodup : (s.timerMgr.timer.map (·.id)).Nodup
  entry_handle : ∀ e ∈ s.timerMgr.timer, (s.cos e.co).it = some e.id
  hint : ∀ id, s.timerMgr.it = some id → ∃ e ∈ s.timerMgr.timer, e.id = id

/-- A coroutine that holds the handle of each of its entries has one entry at most. -/
theorem TimerMap.co_nodup {s : Sched} (h : TimerMap s) : (s.timerMgr.timer.map (·.co)).Nodup :=
  (List.Nodup.of_map _ h.ids_nodup).map_on fun x hx y hy hxy =>
    List.inj_on_of_nodup_map h.ids_nodup hx hy <|
      Option.some.inj ((h.entry_handle x hx).symm.trans (hxy ▸ h.entry_handle y hy))

/-- The cast `(uint32_t)(first - now_ms)`: the distance modulo `2 ^ 32`. -/
theorem waitMs_cons (now : Int) (e : Entry) (es : List Entry) :
    (waitMs now (e :: es) : Int) = (e.deadline - now) % 2 ^ 32 :=
  Int.toNat_of_nonneg (Int.emod_nonneg _ (by omega))

/-- On a sorted map of deadlines after `now`, the head is the earliest entry, and the wait is its
distance from `now` modulo `2 ^ 32`: the distance itself, and positive, when it is below
`2 ^ 32`. -/
theorem waitMs_head {now : Int} {l : List Entry} (hs : l.Pairwise (·.deadline ≤ ·.deadline))
    (hl : ∀ e ∈ l, now < e.deadline) :
    ∀ e ∈ l.head?, (∀ e' ∈ l, e.deadline ≤ e'.deadline) ∧
      (waitMs now l : Int) = (e.deadline - now) % 2 ^ 32 ∧
      (e.deadline < now + 2 ^ 32 →
        (waitMs now l : Int) = e.deadline - now ∧ 0 < waitMs now l) := by
  intro e he
  cases l with
  | nil => cases he
  | cons f tl =>
    cases he
    have hnow := hl e (List.mem_cons_self _ _)
    refine ⟨fun e' he' => ?_, waitMs_cons now e tl, fun hlt => ?_⟩
    · rcases List.mem_cons.1 he' with rfl | he'
      · exact le_refl _
      · exact (List.pairwise_cons.1 hs).1 e' he'
    · have hw := waitMs_cons now e tl
      rw [Int.emod_eq_of_lt (by omega) (by omega)] at hw
      exact ⟨hw, by omega⟩

/-- `check_timeout` on any timer map at any time `now`.  (1) It erases exactly the entries due
at `now` and keeps the others.  (2) `res` holds, in map order, the expired coroutines that have
no waitx or whose waitx it moves from `wait` to `timeout`, and no other.  (3) It clears the
handle of every expired coroutine.  (4) The hint is `end` or a remaining entry.  (5) On an empty
map it returns `(uint32_t)-1`.  Otherwise it returns the distance from `now` to the earliest
remaining deadline modulo `2 ^ 32`.  That is the distance itself, which is positive, when the
deadline is less than `2 ^ 32` ms after `now`. -/
theorem checkTimeout_spec (s : Sched) (now : Int) (h : TimerMap s) :
    (s.checkTimeout now).1.timerMgr.timer = s.timerMgr.timer.filter (now < ·.deadline) ∧
    (s.checkTimeout now).2.1 = ((s.timerMgr.timer.filter (·.deadline ≤ now)).filter
      fun e => (s.cos e.co).waitx.all (· = .wait)).map (·.co) ∧
    (∀ e ∈ s.timerMgr.timer, e.deadline ≤ now →
      ((s.checkTimeout now).1.cos e.co).waitx =
        (s.cos e.co).waitx.map fun st => (casWait st .timeout).1) ∧
    (∀ e ∈ s.timerMgr.timer, e.deadline ≤ now → ((s.checkTimeout now).1.cos e.co).it = none) ∧
    (∀ id, (s.checkTimeout now).1.timerMgr.it = some id →
      ∃ e ∈ (s.checkTimeout now).1.timerMgr.timer, e.id = id) ∧
    ((s.checkTimeout now).1.timerMgr.timer = [] → (s.checkTimeout now).2.2 = 2 ^ 32 - 1) ∧
    (∀ e ∈ (s.checkTimeout now).1.timerMgr.timer.head?,
      (∀ e' ∈ (s.checkTimeout now).1.timerMgr.timer, e.deadline ≤ e'.deadline) ∧
      ((s.checkTimeout now).2.2 : Int) = (e.deadline - now) % 2 ^ 32 ∧
      (e.deadline < now + 2 ^ 32 →
        ((s.checkTimeout now).2.2 : Int) = e.deadline - now ∧ 0 < (s.checkTimeout now).2.2)) := by
  by_cases hT : s.timerMgr.timer = []
  · have hr : s.checkTimeout now = (s, [], 2 ^ 32 - 1) := if_pos hT
    have hit : s.timerMgr.it = none := by
      cases hi : s.timerMgr.it with
      | none => rfl
      | some id => obtain ⟨e, he, -⟩ := h.hint id hi; simp [hT] at he
    simp [hr, hT, hit]
  · obtain ⟨htake, hdrop⟩ := takeWhile_due now h.sorted
    have hsplit := List.takeWhile_append_dropWhile (·.deadline ≤ now) s.timerMgr.timer
    have hdue : ((s.timerMgr.timer.filter (·.deadline ≤ now)).map (·.co)).Nodup :=
      h.co_nodup.sublist ((List.filter_sublist _).map _)
    have hmem : ∀ e ∈ s.timerMgr.timer, e.deadline ≤ now →
        e ∈ s.timerMgr.timer.filter (·.deadline ≤ now) := fun e he hle => by simp [he, hle]
    have hr : s.checkTimeout now = ({ s with
        cos := (expireDue s.cos (s.timerMgr.timer.filter (·.deadline ≤ now))).1,
        timerMgr := ⟨s.timerMgr.timer.filter (now < ·.deadline),
          hintAfter s.timerMgr.timer s.timerMgr.it now
            (s.timerMgr.timer.takeWhile (·.deadline ≤ now))
            (s.timerMgr.timer.dropWhile (·.deadline ≤ now)), s.timerMgr.next⟩ },
        (expireDue s.cos (s.timerMgr.timer.filter (·.deadline ≤ now))).2,
        waitMs now (s.timerMgr.timer.filter (now < ·.deadline))) := by
      rw [Sched.checkTimeout, if_neg hT, ← hdrop, ← htake]
    rw [hr]
    refine ⟨rfl, expireDue_res _ hdue, fun e he hle => expireDue_waitx _ hdue e (hmem e he hle),
      fun e he hle => ?_, fun id hid => ?_, fun hnil => ?_, fun e he => ?_⟩
    · show ((expireDue s.cos _).1 e.co).it = none
      rw [expireDue_it, if_pos ⟨e, hmem e he hle, rfl⟩]
    · rw [← hdrop]
      exact hintAfter_live hsplit (fun e he hlt => by rw [hdrop]; simpa [he] using hlt) h.hint id
        hid
    · dsimp only at hnil ⊢
      rw [hnil]; rfl
    · exact waitMs_head (h.sorted.filter _) (fun e he => by simpa using (List.mem_filter.1 he).2) e
        he

/-! ## Every reachable scheduler holds a timer map -/

/-- `check_timeout` only erases entries. -/
theorem checkTimeout_timer_sublist (s : Sched) (now : Int) :
    (s.checkTimeout now).1.timerMgr.timer.Sublist s.timerMgr.timer := by
  unfold Sched.checkTimeout
  split
  · exact List.Sublist.refl _
  · exact List.dropWhile_sublist _

/-- What a step does to the map and the clock.  Either it erases entries and the clock does not
go back (`resume`, `check_timeout`, and the steps that leave the map alone), or it is a `yield`
whose `add_timer(ms)` inserts one entry due `ms` after a reading `now` of the clock not before
the last one, and that reading becomes the clock. -/
theorem step_timer {s s' : Sched} (hi : TimerInv s) {a : Action} (hs : step s a = some s') :
    (s'.timerMgr.timer.Sublist s.timerMgr.timer ∧ s.now ≤ s'.now) ∨
    ∃ (now : Int) (ms : UInt32) (r : Nat), s.now ≤ now ∧ s'.now = now ∧
      s'.timerMgr.timer = insertEntry ⟨s.timerMgr.next, now + ms.toNat, r⟩ s.timerMgr.timer := by
  have hsame : s'.timerMgr = s.timerMgr → s'.now = s.now →
      (s'.timerMgr.timer.Sublist s.timerMgr.timer ∧ s.now ≤ s'.now) :=
    fun hm hn => ⟨hm ▸ List.Sublist.refl _, hn.ge⟩
  cases a with
  | resume c =>
    simp only [step] at hs
    split at hs
    · exact .inl ⟨(resumeIn_timerInv hi hs).2 ▸ List.filter_sublist _, (resumeIn_now hs).ge⟩
    · cases hs
  | checkTimeout now =>
    simp only [step] at hs
    split at hs
    · cases hs; exact .inl ⟨checkTimeout_timer_sublist s now, ‹_ ∧ _›.2⟩
    · cases hs
  | ready c =>
    simp only [step] at hs
    split at hs
    · cases hs; exact .inl (hsame rfl rfl)
    · cases hs
  | write f =>
    cases hr : s.running with
    | none => simp [step, hr] at hs
    | some r => simp only [step, hr, Option.some.injEq] at hs; subst hs; exact .inl (hsame rfl rfl)
  | yield sp timer wx =>
    cases hr : s.running with
    | none => simp [step, hr] at hs
    | some r =>
      simp only [step, hr] at hs
      split at hs
      · rename_i hg
        cases hs
        cases timer with
        | none => exact .inl (hsame rfl rfl)
        | some p => exact .inr ⟨p.1, p.2, r, by simpa using hg.2, rfl, rfl⟩
      · cases hs
  | finish =>
    cases hr : s.running with
    | none => simp [step, hr] at hs
    | some r => simp only [step, hr, Option.some.injEq] at hs; subst hs; exact .inl (hsame rfl rfl)

/-- Every property that each step keeps on a scheduler with well-formed timers holds on every
scheduler a run reaches from one that has it. -/
theorem run_induct {P : Sched → Prop}
    (hstep : ∀ {s s' : Sched} {a : Action}, TimerInv s → P s → step s a = some s' → P s') :
    ∀ (as : List Action) {s s' : Sched}, TimerInv s → P s → run s as = some s' → P s'
  | [], _, _, _, h, hs => by cases hs; exact h
  | a :: as, _, _, hi, h, hs => by
    simp only [run_cons, Option.bind_eq_some] at hs
    obtain ⟨s1, h1, h2⟩ := hs
    exact run_induct hstep as (step_timerInv hi h1) (hstep hi h h1) h2

/-- The map is in deadline order. -/
def Sorted (s : Sched) : Prop := s.timerMgr.timer.Pairwise (·.deadline ≤ ·.deadline)

/-- `add_timer` inserts after the entries with a deadline not later than its own, so the map
stays in deadline order. -/
theorem insertEntry_sorted (e : Entry) :
    ∀ {l : List Entry}, l.Pairwise (·.deadline ≤ ·.deadline) →
    (insertEntry e l).Pairwise (·.deadline ≤ ·.deadline)
  | [], _ => List.pairwise_singleton _ _
  | x :: xs, h => by
    rw [List.pairwise_cons] at h
    unfold insertEntry
    split
    · rename_i hlt
      refine List.pairwise_cons.2 ⟨fun y hy => ?_, List.pairwise_cons.2 h⟩
      rcases List.mem_cons.1 hy with rfl | hy
      · exact le_of_lt hlt
      · exact le_trans (le_of_lt hlt) (h.1 y hy)
    · rename_i hle
      refine List.pairwise_cons.2 ⟨fun y hy => ?_, insertEntry_sorted e h.2⟩
      rcases List.mem_cons.1 ((insertEntry_perm e xs).mem_iff.1 hy) with rfl | hy
      · exact not_lt.1 hle
      · exact h.1 y hy

/-- Every step keeps the map in deadline order: erasing keeps the order, and `add_timer`
inserts in order. -/
theorem step_sorted {s s' : Sched} {a : Action} (hi : TimerInv s) (h : Sorted s)
    (hs : step s a = some s') : Sorted s' := by
  rcases step_timer hi hs with ⟨hsub, -⟩ | ⟨now, ms, r, -, -, ht⟩
  · exact h.sublist hsub
  · unfold Sorted; rw [ht]; exact insertEntry_sorted _ h

/-- Every scheduler a run reaches holds a timer map, so `checkTimeout_spec` describes every
call of `check_timeout` the loop makes. -/
theorem run_timerMap (n k : Nat) (as : List Action) {s : Sched}
    (h : run (Sched.init n k) as = some s) : TimerMap s :=
  have hi := run_timerInv as (init_timerInv n k) h
  have hs : Sorted s := run_induct step_sorted as (init_timerInv n k) List.Pairwise.nil h
  ⟨hs, hi.ids_nodup, hi.entry_handle, hi.hint⟩

/-! ## Every deadline is less than `2 ^ 32` ms after the clock -/

/-- Every deadline is less than `2 ^ 32` ms after the last reading of the clock. -/
def Bounded (s : Sched) : Prop := ∀ e ∈ s.timerMgr.timer, e.deadline < s.now + 2 ^ 32

/-- Every step keeps the deadlines less than `2 ^ 32` ms after the clock: erasing keeps them and
the clock does not go back, and `add_timer` adds a `uint32_t` delay to the reading that becomes
the clock. -/
theorem step_bounded {s s' : Sched} {a : Action} (hi : TimerInv s) (h : Bounded s)
    (hs : step s a = some s') : Bounded s' := by
  rcases step_timer hi hs with ⟨hsub, hle⟩ | ⟨now, ms, r, hle, hn, ht⟩
  · intro e he
    have := h e (hsub.subset he)
    omega
  · intro e he
    rw [ht] at he
    rw [hn]
    rcases List.mem_cons.1 ((insertEntry_perm _ _).mem_iff.1 he) with rfl | he
    · have : ms.toNat < 2 ^ 32 := ms.toNat_lt_size
      show now + (ms.toNat : Int) < now + 2 ^ 32
      omega
    · have := h e he
      omega

/-- On every scheduler a run reaches, every deadline is less than `2 ^ 32` ms after the clock. -/
theorem run_bounded (n k : Nat) (as : List Action) {s : Sched}
    (h : run (Sched.init n k) as = some s) : Bounded s :=
  run_induct step_bounded as (init_timerInv n k) (fun e he => by simp [Sched.init] at he) h

/-! ## The postcondition -/

/-- `check_timeout` as the loop calls it: on a scheduler that a run reached, with the clock read
as `now` not before its last reading.  (1) It erases exactly the entries due at `now` and keeps
the others.  (2) `res` holds, in map order, the expired coroutines that have no waitx or whose
waitx it moves from `wait` to `timeout`, and no other.  (3) It clears the handle of every expired
coroutine.  (4) The hint is `end` or a remaining entry.  (5) On an empty map it returns
`(uint32_t)-1`; otherwise it returns exactly the earliest remaining deadline minus `now`, which is
positive. -/
theorem check_timeout_post (n k : Nat) (as : List Action) (s : Sched) (now : Int)
    (hrun : run (Sched.init n k) as = some s) (hnow : s.now ≤ now) :
    (s.checkTimeout now).1.timerMgr.timer = s.timerMgr.timer.filter (now < ·.deadline) ∧
    (s.checkTimeout now).2.1 = ((s.timerMgr.timer.filter (·.deadline ≤ now)).filter
      fun e => (s.cos e.co).waitx.all (· = .wait)).map (·.co) ∧
    (∀ e ∈ s.timerMgr.timer, e.deadline ≤ now →
      ((s.checkTimeout now).1.cos e.co).waitx =
        (s.cos e.co).waitx.map fun st => (casWait st .timeout).1) ∧
    (∀ e ∈ s.timerMgr.timer, e.deadline ≤ now → ((s.checkTimeout now).1.cos e.co).it = none) ∧
    (∀ id, (s.checkTimeout now).1.timerMgr.it = some id →
      ∃ e ∈ (s.checkTimeout now).1.timerMgr.timer, e.id = id) ∧
    ((s.checkTimeout now).1.timerMgr.timer = [] → (s.checkTimeout now).2.2 = 2 ^ 32 - 1) ∧
    (∀ e ∈ (s.checkTimeout now).1.timerMgr.timer.head?,
      (∀ e' ∈ (s.checkTimeout now).1.timerMgr.timer, e.deadline ≤ e'.deadline) ∧
      ((s.checkTimeout now).2.2 : Int) = e.deadline - now ∧ 0 < (s.checkTimeout now).2.2) := by
  obtain ⟨h1, h2, h3, h4, h5, h6, h7⟩ := checkTimeout_spec s now (run_timerMap n k as hrun)
  refine ⟨h1, h2, h3, h4, h5, h6, fun e he => ?_⟩
  obtain ⟨hmin, -, hexact⟩ := h7 e he
  have hmem : e ∈ s.timerMgr.timer :=
    List.mem_of_mem_filter (h1 ▸ List.mem_of_mem_head? he)
  have hlt : e.deadline < now + 2 ^ 32 := by
    have := run_bounded n k as hrun e hmem
    omega
  exact ⟨hmin, hexact hlt⟩

/-- Coroutine 1 waits on a waitx with a timer of 5 ms and coroutine 2 sleeps 20 ms, both armed
at time 0; the loop then checks at time 10. -/
theorem check_timeout_post_two : ∃ s, run (Sched.init 4 2)
      [.resume 1, .yield 2 (some (0, 5)) true, .resume 2, .yield 3 (some (0, 20)) false] = some s ∧
    s.now ≤ 10 ∧
    ((s.checkTimeout 10).1.timerMgr.timer = s.timerMgr.timer.filter (10 < ·.deadline) ∧
    (s.checkTimeout 10).2.1 = ((s.timerMgr.timer.filter (·.deadline ≤ 10)).filter
      fun e => (s.cos e.co).waitx.all (· = .wait)).map (·.co) ∧
    (∀ e ∈ s.timerMgr.timer, e.deadline ≤ 10 →
      ((s.checkTimeout 10).1.cos e.co).waitx =
        (s.cos e.co).waitx.map fun st => (casWait st .timeout).1) ∧
    (∀ e ∈ s.timerMgr.timer, e.deadline ≤ 10 → ((s.checkTimeout 10).1.cos e.co).it = none) ∧
    (∀ id, (s.checkTimeout 10).1.timerMgr.it = some id →
      ∃ e ∈ (s.checkTimeout 10).1.timerMgr.timer, e.id = id) ∧
    ((s.checkTimeout 10).1.timerMgr.timer = [] → (s.checkTimeout 10).2.2 = 2 ^ 32 - 1) ∧
    (∀ e ∈ (s.checkTimeout 10).1.timerMgr.timer.head?,
      (∀ e' ∈ (s.checkTimeout 10).1.timerMgr.timer, e.deadline ≤ e'.deadline) ∧
      ((s.checkTimeout 10).2.2 : Int) = e.deadline - 10 ∧ 0 < (s.checkTimeout 10).2.2)) :=
  ⟨_, rfl, by decide, check_timeout_post 4 2
    [.resume 1, .yield 2 (some (0, 5)) true, .resume 2, .yield 3 (some (0, 20)) false] _ 10 rfl
    (by decide)⟩

end Coost.Scheduler
