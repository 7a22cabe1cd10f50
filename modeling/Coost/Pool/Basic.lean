import Mathlib.Data.List.Perm.Subperm
import Mathlib.Data.List.Nodup
import Mathlib.Algebra.Group.Int

/-!
# The object pool `co::pool`

`pool_impl` of `src/src/co/co.cc` keeps one `co::vector<void*>` per scheduler, indexed by
`Sched::id()`, so that a coroutine only ever takes from and gives back to the vector of the
scheduler it runs on:

    inline void* pool_impl::pop() {
        auto& v = _pools[s->id()];
        return !v.empty() ? v.pop_back() : (_ccb ? _ccb() : nullptr);
    }
    inline void pool_impl::push(void* p) {
        if (p) {
            auto& v = _pools[s->id()];
            (v.size() < _maxcap || !_dcb) ? v.push_back(p) : _dcb(p);
        }
    }

`clear` empties every vector and hands its objects to `_dcb` when it is set.  The callbacks are the
program's: `_ccb()` makes a new object, `_dcb(p)` destroys `p`.  The model keeps whether each is
set; what `_ccb()` makes is an argument of `pop`, and what `_dcb` is given is returned.

Around the pool, `World` keeps the objects of the program (ghost): those it holds, those given to
`_dcb`, and every object ever made.  A run is legal when the program pushes only objects it holds
and the callback makes new ones.  Then:

* `pool_objects_conserved`: no object is ever in two places (twice in the vectors, in a vector
  and in the program's hands, or given to `_dcb` twice), every placed object was made, and when
  `_dcb` is set every object made is placed: the pool loses nothing.  Without `_dcb`, `clear`
  forgets the pooled objects, and that is the only loss.
* `pool_vectors_capped`: with `_dcb` set, no vector ever holds more than `_maxcap` objects, on
  every run, since a push on a full vector hands the object to `_dcb`; without `_dcb` the cap is
  not enforced (`push_keeps`).
-/

namespace Coost.Pool

open scoped List

/-- A pooled object, the `void*` of `co::pool`; `0` is `nullptr`. -/
abbrev Obj := Nat

/-- `pool_impl`: `_pools` (one vector per scheduler, the back of each vector last), `_maxcap`,
and whether `_ccb` and `_dcb` are set (a `std::function` may be empty). -/
structure PoolImpl where
  pools : List (List Obj)
  maxcap : Nat
  ccb : Bool
  dcb : Bool
  deriving Repr, DecidableEq

/-- `pool_impl(ccb, dcb, cap)` on `n = co::sched_num()` schedulers: `_make_pools` callocs `n`
empty vectors. -/
def PoolImpl.make (n : Nat) (ccb dcb : Bool) (cap : Nat) : PoolImpl :=
  ⟨List.replicate n [], cap, ccb, dcb⟩

/-- `pool_impl()`: no callbacks and `_maxcap = (size_t)-1`. -/
def PoolImpl.init (n : Nat) : PoolImpl := PoolImpl.make n false false (2 ^ 64 - 1)

/-- `_pools[s]`, the vector of scheduler `s`. -/
def PoolImpl.vec (p : PoolImpl) (s : Nat) : List Obj := p.pools.getD s []

/-- `pool_impl::pop` on scheduler `s`: the back of `_pools[s]`; or, when it is empty, what `_ccb()`
makes (`made`), or `nullptr` without `_ccb`. -/
def pop (p : PoolImpl) (s : Nat) (made : Obj) : PoolImpl × Obj :=
  match (p.vec s).getLast? with
  | some o => ({ p with pools := p.pools.set s (p.vec s).dropLast }, o)
  | none => (p, if p.ccb then made else 0)

/-- `pool_impl::push` on scheduler `s`; the second component lists what `_dcb` is given. -/
def push (p : PoolImpl) (s : Nat) (o : Obj) : PoolImpl × List Obj :=
  if o ≠ 0 then
    if (p.vec s).length < p.maxcap || !p.dcb then
      ({ p with pools := p.pools.set s (p.vec s ++ [o]) }, [])
    else (p, [o])
  else (p, [])

/-- `pool_impl::clear`: every vector is emptied, and its objects are given to `_dcb` when it is
set.  While the schedulers run, one coroutine per scheduler clears that scheduler's vector and
their calls of `_dcb` interleave; the model lists them scheduler by scheduler, as the loop of the
other branch calls them. -/
def clear (p : PoolImpl) : PoolImpl × List Obj :=
  ({ p with pools := p.pools.map fun _ => [] }, if p.dcb then p.pools.flatten else [])

/-- `pool_impl::size` on scheduler `s`. -/
def size (p : PoolImpl) (s : Nat) : Nat := (p.vec s).length

/-! ## One operation -/

section Operations

variable {p : PoolImpl} {s : Nat} {o : Obj}

theorem pop_back {d : List Obj} {b : Obj} (h : p.vec s = d ++ [b]) (made : Obj) :
    pop p s made = ({ p with pools := p.pools.set s d }, b) := by
  simp [pop, h]

theorem pop_empty (h : p.vec s = []) (made : Obj) :
    pop p s made = (p, if p.ccb then made else 0) := by
  simp [pop, h]

theorem push_null (p : PoolImpl) (s : Nat) : push p s 0 = (p, []) := rfl

/-- Below the cap, or without `_dcb`, the object goes to the back of the vector. -/
theorem push_keeps (ho : o ≠ 0) (h : (p.vec s).length < p.maxcap ∨ p.dcb = false) :
    push p s o = ({ p with pools := p.pools.set s (p.vec s ++ [o]) }, []) := by
  have h' : ((p.vec s).length < p.maxcap || !p.dcb) = true := by
    rcases h with h | h <;> simp [h]
  rw [push, if_pos ho, if_pos h']

/-- At the cap, with `_dcb`, the object goes to `_dcb`. -/
theorem push_destroys (ho : o ≠ 0) (hc : p.maxcap ≤ (p.vec s).length) (hd : p.dcb = true) :
    push p s o = (p, [o]) := by
  rw [push, if_pos ho, if_neg (by simp [hd]; omega)]

@[simp] theorem pop_dcb (made : Obj) : (pop p s made).1.dcb = p.dcb := by
  unfold pop; split <;> rfl

@[simp] theorem pop_maxcap (made : Obj) : (pop p s made).1.maxcap = p.maxcap := by
  unfold pop; split <;> rfl

@[simp] theorem pop_length (made : Obj) : (pop p s made).1.pools.length = p.pools.length := by
  unfold pop; split <;> simp

@[simp] theorem push_dcb : (push p s o).1.dcb = p.dcb := by
  unfold push; split_ifs <;> rfl

@[simp] theorem push_maxcap : (push p s o).1.maxcap = p.maxcap := by
  unfold push; split_ifs <;> rfl

@[simp] theorem push_length : (push p s o).1.pools.length = p.pools.length := by
  unfold push; split_ifs <;> simp

/-- The pool keeps nothing when no `_dcb` is set: the objects it held are in no vector and were
given to no one. -/
theorem clear_drops (hd : p.dcb = false) : (clear p).1.pools.flatten = [] ∧ (clear p).2 = [] := by
  simp [clear, hd]

end Operations

/-! ## The vectors as one list -/

/-- Replacing the vector at `s` swaps its objects for the new ones. -/
theorem flatten_set_perm (v : List Obj) :
    ∀ {l : List (List Obj)} {s : Nat}, s < l.length →
      (l.set s v).flatten ++ l.getD s [] ~ l.flatten ++ v
  | a :: t, 0, _ => by
    simp only [List.set_cons_zero, List.flatten_cons, List.getD_cons_zero, List.append_assoc]
    exact List.perm_iff_count.2 fun x => by simp only [List.count_append]; omega
  | a :: t, s + 1, h => by
    simp only [List.set_cons_succ, List.flatten_cons, List.getD_cons_succ, List.append_assoc]
    exact (flatten_set_perm v (Nat.lt_of_succ_lt_succ h)).append_left a

theorem flatten_pop_perm {l : List (List Obj)} {s : Nat} (h : s < l.length) {d : List Obj}
    {b : Obj} (hv : l.getD s [] = d ++ [b]) : (l.set s d).flatten ++ [b] ~ l.flatten := by
  have hc := List.perm_iff_count.1 (flatten_set_perm d h)
  rw [hv] at hc
  exact List.perm_iff_count.2 fun x => by have := hc x; simp only [List.count_append] at *; omega

theorem flatten_push_perm {l : List (List Obj)} {s : Nat} (h : s < l.length) (o : Obj) :
    (l.set s (l.getD s [] ++ [o])).flatten ~ l.flatten ++ [o] := by
  have hc := List.perm_iff_count.1 (flatten_set_perm (l.getD s [] ++ [o]) h)
  exact List.perm_iff_count.2 fun x => by have := hc x; simp only [List.count_append] at *; omega

theorem vec_mem {p : PoolImpl} {s : Nat} (h : p.vec s ≠ []) : p.vec s ∈ p.pools := by
  unfold PoolImpl.vec at *
  rw [List.getD_eq_getElem?_getD] at *
  cases hs : p.pools[s]? with
  | none => rw [hs] at h; exact absurd rfl h
  | some v => rw [Option.getD_some]; exact List.getElem?_mem hs

/-! ## The program around the pool -/

/-- A pool and the objects of the program around it (ghost): those it holds, those given to
`_dcb`, in order, and every object ever made, by the program or by `_ccb`. -/
structure World where
  pool : PoolImpl
  held : List Obj
  destroyed : List Obj
  made : List Obj
  deriving Repr, DecidableEq

def World.init (p : PoolImpl) : World := ⟨p, [], [], []⟩

/-- `o` joins `l` unless it is `nullptr`. -/
def keep (o : Obj) (l : List Obj) : List Obj := if o = 0 then l else o :: l

/-- What a coroutine does with the pool. -/
inductive Op
  /-- The program makes an object of its own. -/
  | create (o : Obj)
  /-- `pool::pop()` on scheduler `s`, where `_ccb()` would make `o`. -/
  | pop (s : Nat) (o : Obj)
  /-- `pool::push(o)` on scheduler `s`. -/
  | push (s : Nat) (o : Obj)
  /-- `pool::clear()`. -/
  | clear
  deriving Repr, DecidableEq

/-- One operation; an object `pop` returns is the program's, and one it returns that is the
object `_ccb` would make is new. -/
def step (w : World) : Op → World
  | .create o => { w with held := o :: w.held, made := o :: w.made }
  | .pop s o =>
    let r := pop w.pool s o
    { w with pool := r.1, held := keep r.2 w.held,
             made := if r.2 = o then keep o w.made else w.made }
  | .push s o =>
    let r := push w.pool s o
    { w with pool := r.1, held := w.held.erase o, destroyed := w.destroyed ++ r.2 }
  | .clear =>
    let r := clear w.pool
    { w with pool := r.1, destroyed := w.destroyed ++ r.2 }

def run (w : World) : List Op → World
  | [] => w
  | op :: ops => run (step w op) ops

/-- A legal operation: an object the program or `_ccb` makes is new, the program pushes
`nullptr` or an object it holds, and a coroutine runs on a scheduler the pool has a vector for. -/
def Legal (w : World) : Op → Prop
  | .create o => o ≠ 0 ∧ o ∉ w.made
  | .pop s o => s < w.pool.pools.length ∧ o ∉ w.made
  | .push s o => s < w.pool.pools.length ∧ (o = 0 ∨ o ∈ w.held)
  | .clear => True

instance (w : World) : (op : Op) → Decidable (Legal w op)
  | .create o => inferInstanceAs (Decidable (o ≠ 0 ∧ o ∉ w.made))
  | .pop s o => inferInstanceAs (Decidable (s < w.pool.pools.length ∧ o ∉ w.made))
  | .push s o => inferInstanceAs (Decidable (s < w.pool.pools.length ∧ (o = 0 ∨ o ∈ w.held)))
  | .clear => isTrue trivial

/-- Every operation of the run is legal where it happens. -/
def LegalRun : World → List Op → Prop
  | _, [] => True
  | w, op :: ops => Legal w op ∧ LegalRun (step w op) ops

def decLegalRun : (w : World) → (ops : List Op) → Decidable (LegalRun w ops)
  | _, [] => isTrue trivial
  | w, op :: ops => @instDecidableAnd _ _ _ (decLegalRun (step w op) ops)

instance (w : World) (ops : List Op) : Decidable (LegalRun w ops) := decLegalRun w ops

@[simp] theorem step_dcb (w : World) (op : Op) : (step w op).pool.dcb = w.pool.dcb := by
  cases op <;> simp [step, clear]

@[simp] theorem run_dcb : ∀ (w : World) (ops : List Op), (run w ops).pool.dcb = w.pool.dcb
  | _, [] => rfl
  | w, op :: ops => by rw [run, run_dcb, step_dcb]

/-! ## No object in two places, none lost -/

/-- The objects the world places: in a vector, in the program's hands, or given to `_dcb`. -/
def World.placed (w : World) : List Obj := w.pool.pools.flatten ++ w.held ++ w.destroyed

/-- Every placed object is placed once and was made; with `_dcb`, every object made is placed. -/
structure World.Inv (w : World) : Prop where
  nodup : w.placed.Nodup
  made : ∀ o ∈ w.placed, o ∈ w.made
  kept : w.pool.dcb = true → ∀ o ∈ w.made, o ∈ w.placed
  made_nodup : w.made.Nodup
  null : 0 ∉ w.made

section Inv

variable {w w' : World}

theorem World.init_inv (p : PoolImpl) (h : p.pools.flatten = []) : (World.init p).Inv where
  nodup := by simp [World.placed, World.init, h]
  made o ho := by simp [World.placed, World.init, h] at ho
  kept _ o ho := by simp [World.init] at ho
  made_nodup := List.nodup_nil
  null := List.not_mem_nil 0

/-- The same objects, placed elsewhere. -/
theorem World.Inv.of_perm (hi : w.Inv) (hd : w'.pool.dcb = w.pool.dcb) (hm : w'.made = w.made)
    (hp : w'.placed ~ w.placed) : w'.Inv where
  nodup := hp.nodup_iff.2 hi.nodup
  made o ho := hm ▸ hi.made o (hp.mem_iff.1 ho)
  kept h o ho := hp.mem_iff.2 (hi.kept (hd ▸ h) o (hm ▸ ho))
  made_nodup := hm ▸ hi.made_nodup
  null := hm ▸ hi.null

/-- One new object, made and placed. -/
theorem World.Inv.of_fresh {o : Obj} (hi : w.Inv) (ho : o ≠ 0) (hf : o ∉ w.made)
    (hd : w'.pool.dcb = w.pool.dcb) (hm : w'.made = o :: w.made) (hp : w'.placed ~ o :: w.placed) :
    w'.Inv where
  nodup := hp.nodup_iff.2 (List.nodup_cons.2 ⟨fun h => hf (hi.made o h), hi.nodup⟩)
  made x hx := by
    rw [hm]
    rcases List.mem_cons.1 (hp.mem_iff.1 hx) with rfl | hx
    · exact List.mem_cons_self _ _
    · exact List.mem_cons_of_mem _ (hi.made x hx)
  kept h x hx := by
    rw [hm] at hx
    refine hp.mem_iff.2 ?_
    rcases List.mem_cons.1 hx with rfl | hx
    · exact List.mem_cons_self _ _
    · exact List.mem_cons_of_mem _ (hi.kept (hd ▸ h) x hx)
  made_nodup := hm ▸ List.nodup_cons.2 ⟨hf, hi.made_nodup⟩
  null := by rw [hm]; exact List.not_mem_cons_of_ne_of_not_mem (Ne.symm ho) hi.null

/-- Without `_dcb`, objects may leave the world. -/
theorem World.Inv.of_drop (hi : w.Inv) (hd : w'.pool.dcb = false) (hm : w'.made = w.made)
    (hp : w'.placed <+ w.placed) : w'.Inv where
  nodup := hi.nodup.sublist hp
  made o ho := hm ▸ hi.made o (hp.subset ho)
  kept h := absurd h (by simp [hd])
  made_nodup := hm ▸ hi.made_nodup
  null := hm ▸ hi.null

theorem step_inv {op : Op} (hi : w.Inv) (hl : Legal w op) : (step w op).Inv := by
  cases op with
  | create o =>
    exact hi.of_fresh hl.1 hl.2 rfl rfl (List.perm_iff_count.2 fun x => by
      simp only [World.placed, step, List.count_append, List.count_cons]; omega)
  | pop s o =>
    rcases List.eq_nil_or_concat (w.pool.vec s) with hv | ⟨d, b, hv⟩
    all_goals try rw [List.concat_eq_append] at hv
    · have hr := pop_empty hv o
      by_cases hc : w.pool.ccb = true ∧ o ≠ 0
      · rw [hc.1, if_pos rfl] at hr
        refine hi.of_fresh hc.2 hl.2 (by simp [step]) ?_ ?_
        · simp [step, hr, keep, hc.2]
        · refine List.perm_iff_count.2 fun x => ?_
          simp only [World.placed, step, hr, keep, if_neg hc.2, List.count_append,
            List.count_cons]
          omega
      · have hco : w.pool.ccb = true → o = 0 := fun h => Classical.not_not.1 fun h' => hc ⟨h, h'⟩
        have h0 : (pop w.pool s o).2 = 0 := by
          rw [hr]; split_ifs with h
          · exact hco h
          · rfl
        have hm : (step w (.pop s o)).made = w.made := by
          show (if (pop w.pool s o).2 = o then keep o w.made else w.made) = w.made
          rw [h0]; split_ifs with ho
          · rw [← ho]; rfl
          · rfl
        refine hi.of_perm (by simp) hm (List.Perm.of_eq ?_)
        simpa [World.placed, step, hr, h0, keep] using hco
    · have hperm := flatten_pop_perm hl.1 hv
      have hb : b ∈ w.placed :=
        List.mem_append_left _ (List.mem_append_left _ (hperm.mem_iff.1 (by simp)))
      have hb0 : b ≠ 0 := fun h => hi.null (h ▸ hi.made b hb)
      have hbo : b ≠ o := fun h => hl.2 (h ▸ hi.made b hb)
      refine hi.of_perm (step_dcb _ _) (by simp [step, pop_back hv, hbo]) ?_
      refine List.perm_iff_count.2 fun x => ?_
      have hc := List.perm_iff_count.1 hperm x
      simp only [World.placed, step, pop_back hv, keep, if_neg hb0, List.count_append,
        List.count_cons, List.count_nil] at hc ⊢
      omega
  | push s o =>
    rcases hl.2 with rfl | hh
    · have h0 : (0 : Obj) ∉ w.held := fun h => hi.null (hi.made 0 (by simp [World.placed, h]))
      refine hi.of_perm (step_dcb _ _) rfl (List.Perm.of_eq ?_)
      simp [World.placed, step, push_null, List.erase_of_not_mem h0]
    · have ho : o ≠ 0 := fun h => hi.null (h ▸ hi.made o (by simp [World.placed, hh]))
      have he := List.perm_iff_count.1 (List.perm_cons_erase hh)
      refine hi.of_perm (step_dcb _ _) rfl (List.perm_iff_count.2 fun x => ?_)
      have hex := he x
      simp only [List.count_cons] at hex
      by_cases hk : (w.pool.vec s).length < w.pool.maxcap ∨ w.pool.dcb = false
      · have hp := List.perm_iff_count.1 (flatten_push_perm hl.1 o) x
        simp only [List.count_append, List.count_cons, List.count_nil] at hp
        simp only [World.placed, step, push_keeps ho hk, PoolImpl.vec, List.count_append,
          List.count_nil, List.append_nil] at hp ⊢
        omega
      · have hd : w.pool.dcb = true := by simpa using (not_or.1 hk).2
        have hc : w.pool.maxcap ≤ (w.pool.vec s).length := Nat.le_of_not_lt (not_or.1 hk).1
        simp only [World.placed, step, push_destroys ho hc hd, List.count_append,
          List.count_cons, List.count_nil]
        omega
  | clear =>
    cases hd : w.pool.dcb
    · refine hi.of_drop (by simp [hd]) rfl ?_
      simp [World.placed, step, clear, hd]
    · refine hi.of_perm (step_dcb _ _) rfl (List.perm_iff_count.2 fun x => ?_)
      simp only [World.placed, step, clear, hd, if_true, List.count_append]
      simp
      omega

theorem run_inv : ∀ {w : World} {ops : List Op}, w.Inv → LegalRun w ops → (run w ops).Inv
  | _, [], hi, _ => hi
  | w, op :: _, hi, ⟨hl, hr⟩ => run_inv (w := step w op) (step_inv hi hl) hr

/-- Without `_dcb`, `clear` forgets a pooled object: it is then in no vector, not in the program's
hands, and was given to no one. -/
theorem World.Inv.clear_forgets (hi : w.Inv) (hd : w.pool.dcb = false) {o : Obj}
    (ho : o ∈ w.pool.pools.flatten) : o ∉ (step w .clear).placed := by
  have hnd : (w.pool.pools.flatten ++ (w.held ++ w.destroyed)).Nodup := by
    rw [← List.append_assoc]; exact hi.nodup
  simpa [World.placed, step, clear, hd] using List.disjoint_of_nodup_append hnd ho

end Inv

/-- On every legal run, no object is in two places: not twice in the vectors, not in a vector
and in the program's hands, not given to `_dcb` twice.  Every placed object was made, and when
`_dcb` is set the placed objects are exactly the objects made: the pool loses none.  Without
`_dcb`, a `clear` forgets every pooled object. -/
theorem pool_objects_conserved {n cap : Nat} {ccb dcb : Bool} {ops : List Op}
    (h : LegalRun (World.init (PoolImpl.make n ccb dcb cap)) ops) :
    let w := run (World.init (PoolImpl.make n ccb dcb cap)) ops
    (w.pool.pools.flatten ++ w.held ++ w.destroyed).Nodup ∧
      (∀ o ∈ w.pool.pools.flatten ++ w.held ++ w.destroyed, o ∈ w.made) ∧
      (dcb = true → w.pool.pools.flatten ++ w.held ++ w.destroyed ~ w.made) ∧
      (dcb = false → ∀ o ∈ w.pool.pools.flatten, o ∉ (step w .clear).pool.pools.flatten ++
        (step w .clear).held ++ (step w .clear).destroyed) := by
  intro w
  have hi : w.Inv := run_inv (World.init_inv _ (by simp [PoolImpl.make])) h
  have hd : w.pool.dcb = dcb := run_dcb _ ops
  exact ⟨hi.nodup, hi.made, fun hdcb => (List.perm_ext_iff_of_nodup hi.nodup hi.made_nodup).2
    fun o => ⟨hi.made o, hi.kept (hd.trans hdcb) o⟩, fun hdcb _ => hi.clear_forgets (hd.trans hdcb)⟩

/-- Two schedulers and a cap of one: `_ccb` makes `7`, the program makes `8`; `8` finds the
vector full and goes to `_dcb`, `_ccb` makes `9` on the other scheduler, and `clear` destroys
`7`. -/
theorem pool_objects_conserved_full :
    let w := run (World.init (PoolImpl.make 2 true true 1))
      [.pop 0 7, .create 8, .push 0 7, .push 0 8, .pop 1 9, .clear]
    (w.pool.pools.flatten ++ w.held ++ w.destroyed).Nodup ∧
      (∀ o ∈ w.pool.pools.flatten ++ w.held ++ w.destroyed, o ∈ w.made) ∧
      (true = true → w.pool.pools.flatten ++ w.held ++ w.destroyed ~ w.made) ∧
      (true = false → ∀ o ∈ w.pool.pools.flatten, o ∉ (step w .clear).pool.pools.flatten ++
        (step w .clear).held ++ (step w .clear).destroyed) :=
  pool_objects_conserved (by decide)

/-! ## The cap -/

/-- With `_dcb`, no vector holds more than `_maxcap` objects. -/
def World.Capped (w : World) : Prop :=
  w.pool.dcb = true → ∀ v ∈ w.pool.pools, v.length ≤ w.pool.maxcap

@[simp] theorem step_maxcap (w : World) (op : Op) : (step w op).pool.maxcap = w.pool.maxcap := by
  cases op <;> simp [step, clear]

@[simp] theorem run_maxcap : ∀ (w : World) (ops : List Op),
    (run w ops).pool.maxcap = w.pool.maxcap
  | _, [] => rfl
  | w, op :: ops => by rw [run, run_maxcap, step_maxcap]

theorem step_capped {w : World} (h : w.Capped) (op : Op) : (step w op).Capped := by
  intro hd v hv
  rw [step_dcb] at hd
  rw [step_maxcap]
  cases op with
  | create o => exact h hd v hv
  | pop s o =>
    rcases List.eq_nil_or_concat (w.pool.vec s) with hvs | ⟨d, b, hvs⟩
    · simp only [step, pop_empty hvs] at hv; exact h hd v hv
    · rw [List.concat_eq_append] at hvs
      simp only [step, pop_back hvs] at hv
      rcases List.mem_or_eq_of_mem_set hv with hv | rfl
      · exact h hd v hv
      · have hb := h hd _ (vec_mem (s := s) (by simp [hvs]))
        rw [hvs, List.length_append] at hb
        omega
  | push s o =>
    simp only [step, push] at hv
    split_ifs at hv with h0 hk
    · rcases List.mem_or_eq_of_mem_set hv with hv | rfl
      · exact h hd v hv
      · simp only [hd, Bool.not_true, Bool.or_false, decide_eq_true_eq] at hk
        rw [List.length_append, List.length_singleton]
        omega
    · exact h hd v hv
    · exact h hd v hv
  | clear =>
    simp only [step, clear, List.mem_map] at hv
    obtain ⟨_, _, rfl⟩ := hv
    exact Nat.zero_le _

theorem run_capped : ∀ {w : World} (ops : List Op), w.Capped → (run w ops).Capped
  | _, [], h => h
  | _, op :: ops, h => run_capped ops (step_capped h op)

/-- With `_dcb` set, no run ever puts more than `_maxcap` objects in one scheduler's vector,
whatever the program pushes: a push on a full vector hands the object to `_dcb` and leaves the
pool as it was. -/
theorem pool_vectors_capped (n cap : Nat) (ccb : Bool) (ops : List Op) :
    let w := run (World.init (PoolImpl.make n ccb true cap)) ops
    (∀ v ∈ w.pool.pools, v.length ≤ cap) ∧
      ∀ s o, o ≠ 0 → cap ≤ (w.pool.vec s).length → push w.pool s o = (w.pool, [o]) := by
  intro w
  have h0 : (World.init (PoolImpl.make n ccb true cap)).Capped := by
    intro _ v hv
    simp only [World.init, PoolImpl.make, List.mem_replicate] at hv
    rw [hv.2]; exact Nat.zero_le _
  have hm : w.pool.maxcap = cap := run_maxcap _ ops
  have hd : w.pool.dcb = true := run_dcb _ ops
  exact ⟨fun v hv => hm ▸ run_capped ops h0 hd v hv,
    fun _ _ ho hc => push_destroys ho (hm ▸ hc) hd⟩

/-- With a cap of one, the vector of scheduler `0` keeps `[7]`, and a push of `8` there goes to
`_dcb`. -/
theorem pool_vectors_capped_full :
    [7] ∈ (run (World.init (PoolImpl.make 2 true true 1)) [.pop 0 7, .push 0 7]).pool.pools ∧
      [7].length ≤ 1 ∧
      push (run (World.init (PoolImpl.make 2 true true 1)) [.pop 0 7, .push 0 7]).pool 0 8 =
        ((run (World.init (PoolImpl.make 2 true true 1)) [.pop 0 7, .push 0 7]).pool, [8]) :=
  ⟨by decide, (pool_vectors_capped 2 1 true [.pop 0 7, .push 0 7]).1 _ (by decide),
    (pool_vectors_capped 2 1 true [.pop 0 7, .push 0 7]).2 0 8 (by decide) (by decide)⟩

end Coost.Pool
