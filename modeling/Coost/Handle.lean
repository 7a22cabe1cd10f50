import Coost.Basic
import Mathlib.Data.List.Nodup

/-!
# Shared handles: `mutex`, `event`, `wait_group`, `pool` and `pipe`

Each of these classes of `src/src/co/co.cc` is a handle on one `malloc`ed `*_impl` object whose
`_refn` counts the handles.  The constructor makes the object with `_refn(1)`, the copy
constructor shares it, and the destructor of the last handle destroys and frees it:

    mutex::mutex(const mutex& m) : _p(m._p) {
        if (_p) god::cast<xx::mutex_impl*>(_p)->ref();
    }
    mutex::~mutex() {
        const auto p = (xx::mutex_impl*)_p;
        if (p && p->unref() == 0) { p->~mutex_impl(); ::free(_p); _p = 0; }
    }

The five classes have the same copy constructor and destructor, so one model serves them all;
`wait_group` also has a move constructor (`wait_group.h`) that leaves the source null.  `_refn` is
a `std::atomic_uint32_t`: `ref` and `unref` wrap around at `2^32`.

`Handles` keeps the objects made so far by allocation number and the `_p` of every handle alive.
A run is legal when it names handles that exist and never copies a handle whose object already
has `2^32 - 1` handles.  Then (`handles_free_last`):

* an object is allocated exactly while some handle names it: no handle ever names a freed object,
  and no object outlives its last handle;
* no object is freed twice, and the freed objects are exactly those made with no handle left;
* `_refn` is the number of handles naming the object.
-/

namespace Coost.Handle

/-- A `*_impl` object: its `_refn`, and whether it is still allocated. -/
structure Impl where
  refn : UInt32
  live : Bool
  deriving Repr, DecidableEq

/-- The handles of one class and the objects they share. -/
structure Handles where
  /-- The objects, by allocation number; `made` of them have been made. -/
  impls : Nat → Impl
  made : Nat
  /-- The `_p` of every handle alive, `none` for a null one. -/
  hs : List (Option Nat)
  /-- The objects destroyed and freed, in order (ghost). -/
  freed : List Nat

/-- No handle and no object. -/
def Handles.empty : Handles := ⟨fun _ => ⟨0, false⟩, 0, [], []⟩

/-- The handles alive that name object `i`. -/
def Handles.refs (h : Handles) (i : Nat) : Nat := h.hs.count (some i)

/-- `T::T(...)`: `malloc` and the `*_impl` constructor, which sets `_refn(1)`. -/
def make (h : Handles) : Handles :=
  { h with impls := Function.update h.impls h.made ⟨1, true⟩, made := h.made + 1,
           hs := h.hs ++ [some h.made] }

/-- `T::T(const T&)` of handle `k`: `_p(m._p); if (_p) ref();`. -/
def copy (h : Handles) (k : Nat) : Handles :=
  match h.hs.getD k none with
  | some i =>
    { h with impls := Function.update h.impls i { h.impls i with refn := (h.impls i).refn + 1 },
             hs := h.hs ++ [some i] }
  | none => { h with hs := h.hs ++ [none] }

/-- `wait_group::wait_group(wait_group&& wg)` of handle `k`: `_p(wg._p) { wg._p = 0; }`. -/
def move (h : Handles) (k : Nat) : Handles :=
  { h with hs := h.hs.set k none ++ [h.hs.getD k none] }

/-- `T::~T()` of handle `k`: `if (p && p->unref() == 0) { p->~T_impl(); ::free(_p); }`, and the
handle is gone. -/
def drop (h : Handles) (k : Nat) : Handles :=
  match h.hs.getD k none with
  | some i =>
    let n := (h.impls i).refn - 1
    if n = 0 then
      { h with impls := Function.update h.impls i ⟨n, false⟩, hs := h.hs.eraseIdx k,
               freed := h.freed ++ [i] }
    else { h with impls := Function.update h.impls i { h.impls i with refn := n },
                  hs := h.hs.eraseIdx k }
  | none => { h with hs := h.hs.eraseIdx k }

/-- What the program does with handles of one class. -/
inductive Op
  | make
  | copy (k : Nat)
  | move (k : Nat)
  | drop (k : Nat)
  deriving Repr, DecidableEq

def step (h : Handles) : Op → Handles
  | .make => make h
  | .copy k => copy h k
  | .move k => move h k
  | .drop k => drop h k

def run (h : Handles) : List Op → Handles
  | [] => h
  | op :: ops => run (step h op) ops

/-- A copy of a handle on object `i` leaves `_refn` below `2^32`. -/
def Budget (h : Handles) : Option Nat → Prop
  | some i => h.refs i + 1 < 2 ^ 32
  | none => True

instance (h : Handles) : (p : Option Nat) → Decidable (Budget h p)
  | some i => inferInstanceAs (Decidable (h.refs i + 1 < 2 ^ 32))
  | none => isTrue trivial

/-- A legal operation names a handle alive, and a copy keeps within `_refn`'s range. -/
def Legal (h : Handles) : Op → Prop
  | .make => True
  | .copy k => k < h.hs.length ∧ Budget h (h.hs.getD k none)
  | .move k => k < h.hs.length
  | .drop k => k < h.hs.length

instance (h : Handles) : (op : Op) → Decidable (Legal h op)
  | .make => isTrue trivial
  | .copy k => inferInstanceAs (Decidable (k < h.hs.length ∧ Budget h (h.hs.getD k none)))
  | .move k => inferInstanceAs (Decidable (k < h.hs.length))
  | .drop k => inferInstanceAs (Decidable (k < h.hs.length))

/-- Every operation of the run is legal where it happens. -/
def LegalRun : Handles → List Op → Prop
  | _, [] => True
  | h, op :: ops => Legal h op ∧ LegalRun (step h op) ops

def decLegalRun : (h : Handles) → (ops : List Op) → Decidable (LegalRun h ops)
  | _, [] => isTrue trivial
  | h, op :: ops => @instDecidableAnd _ _ _ (decLegalRun (step h op) ops)

instance (h : Handles) (ops : List Op) : Decidable (LegalRun h ops) := decLegalRun h ops

/-- `unref() == 0` tests the count itself. -/
theorem refn_eq_zero {r : UInt32} : r = 0 ↔ r.toNat = 0 :=
  ⟨fun h => h ▸ rfl, fun h => uint32_eq_of_toNat h⟩

/-! ## Counting the handles -/

section Count

variable (a : Option Nat)

theorem count_eraseIdx_add : ∀ {l : List (Option Nat)} {k : Nat}, k < l.length →
    (l.eraseIdx k).count a + (if l.getD k none = a then 1 else 0) = l.count a
  | x :: t, 0, _ => by simp [List.count_cons]
  | x :: t, k + 1, hk => by
    have := count_eraseIdx_add (l := t) (k := k) (Nat.lt_of_succ_lt_succ hk)
    simp only [List.eraseIdx_cons_succ, List.count_cons, List.getD_cons_succ]
    omega

theorem count_set_none_add (ha : a ≠ none) : ∀ {l : List (Option Nat)} {k : Nat}, k < l.length →
    (l.set k none).count a + (if l.getD k none = a then 1 else 0) = l.count a
  | x :: t, 0, _ => by simp [List.count_cons, Ne.symm ha]
  | x :: t, k + 1, hk => by
    have := count_set_none_add ha (l := t) (k := k) (Nat.lt_of_succ_lt_succ hk)
    simp only [List.set_cons_succ, List.count_cons, List.getD_cons_succ]
    omega

end Count

section Refs

variable {h : Handles} {k j : Nat}

theorem copy_some {i : Nat} (hp : h.hs.getD k none = some i) :
    copy h k = { h with
      impls := Function.update h.impls i ({ h.impls i with refn := (h.impls i).refn + 1 }),
      hs := h.hs ++ [some i] } := by
  unfold copy; rw [hp]

theorem copy_none (hp : h.hs.getD k none = none) : copy h k = { h with hs := h.hs ++ [none] } := by
  unfold copy; rw [hp]

theorem drop_some {i : Nat} (hp : h.hs.getD k none = some i) :
    drop h k = if (h.impls i).refn - 1 = 0 then
      { h with impls := Function.update h.impls i ⟨(h.impls i).refn - 1, false⟩,
               hs := h.hs.eraseIdx k, freed := h.freed ++ [i] }
    else { h with
      impls := Function.update h.impls i ({ h.impls i with refn := (h.impls i).refn - 1 }),
      hs := h.hs.eraseIdx k } := by
  unfold drop; rw [hp]

theorem drop_none (hp : h.hs.getD k none = none) : drop h k = { h with hs := h.hs.eraseIdx k } := by
  unfold drop; rw [hp]

theorem refs_make (h : Handles) (j : Nat) :
    (make h).refs j = h.refs j + if h.made = j then 1 else 0 := by
  simp [make, Handles.refs, List.count_cons]

theorem refs_copy {p : Option Nat} (hk : h.hs.getD k none = p) (j : Nat) :
    (copy h k).refs j = h.refs j + if p = some j then 1 else 0 := by
  cases p with
  | none => simp [copy_none hk, Handles.refs]
  | some i => by_cases hij : i = j <;> simp [copy_some hk, Handles.refs, List.count_cons, hij]

theorem refs_move (hk : k < h.hs.length) (j : Nat) : (move h k).refs j = h.refs j := by
  have := count_set_none_add (some j) (Option.some_ne_none j) hk
  simp only [move, Handles.refs, List.count_append, List.count_singleton, beq_iff_eq]
  omega

@[simp] theorem drop_hs (h : Handles) (k : Nat) : (drop h k).hs = h.hs.eraseIdx k := by
  unfold drop
  split
  · dsimp only; split <;> rfl
  · rfl

theorem refs_drop (hk : k < h.hs.length) (j : Nat) :
    (drop h k).refs j + (if h.hs.getD k none = some j then 1 else 0) = h.refs j := by
  rw [Handles.refs, drop_hs]
  exact count_eraseIdx_add (some j) hk

/-- The handle `k` names object `i`: `i` has a handle. -/
theorem refs_pos (hk : k < h.hs.length) {i : Nat} (hp : h.hs.getD k none = some i) :
    0 < h.refs i := by
  have := count_eraseIdx_add (some i) hk
  rw [if_pos hp] at this
  unfold Handles.refs
  omega

end Refs

/-! ## The count invariant -/

/-- `_refn` counts the handles of an allocated object, which has one at least; a freed object or
one not yet made has none; the freed objects are the made ones no longer allocated, each once. -/
structure Handles.Inv (h : Handles) : Prop where
  live : ∀ i, (h.impls i).live = true → (h.impls i).refn.toNat = h.refs i ∧ 0 < h.refs i
  dead : ∀ i, (h.impls i).live = false → h.refs i = 0
  fresh : ∀ i, h.made ≤ i → (h.impls i).live = false
  freed : ∀ i, i ∈ h.freed ↔ i < h.made ∧ (h.impls i).live = false
  freed_nodup : h.freed.Nodup

section Inv

variable {h : Handles}

theorem Handles.empty_inv : Handles.empty.Inv where
  live _ hl := absurd hl Bool.false_ne_true
  dead _ _ := rfl
  fresh _ _ := rfl
  freed i := by simp [Handles.empty]
  freed_nodup := List.nodup_nil

theorem Handles.Inv.live_of_pos (hi : h.Inv) {i : Nat} (hr : 0 < h.refs i) :
    (h.impls i).live = true := by
  cases hl : (h.impls i).live
  · exact absurd (hi.dead i hl ▸ hr) (Nat.lt_irrefl 0)
  · rfl

/-- An operation that moves handles around but keeps every object and every count. -/
theorem Handles.Inv.of_refs {h' : Handles} (hi : h.Inv) (himp : h'.impls = h.impls)
    (hm : h'.made = h.made) (hf : h'.freed = h.freed) (hr : ∀ j, h'.refs j = h.refs j) :
    h'.Inv where
  live i hl := by rw [hr, himp]; exact hi.live i (himp ▸ hl)
  dead i hl := by rw [hr]; exact hi.dead i (himp ▸ hl)
  fresh i hle := by rw [himp]; exact hi.fresh i (hm ▸ hle)
  freed i := by rw [hf, himp, hm]; exact hi.freed i
  freed_nodup := hf ▸ hi.freed_nodup

theorem Handles.Inv.lt_made (hi : h.Inv) {i : Nat} (hl : (h.impls i).live = true) : i < h.made :=
  Nat.lt_of_not_le fun hle => absurd (hi.fresh i hle ▸ hl) Bool.false_ne_true

/-- An operation that changes one allocated object `i` and its count only, and frees it when it
is no longer allocated. -/
theorem Handles.Inv.of_one {h' : Handles} (hi : h.Inv) {i : Nat} (hlive : (h.impls i).live = true)
    (hm : h'.made = h.made) (himp : ∀ j ≠ i, h'.impls j = h.impls j)
    (hr : ∀ j ≠ i, h'.refs j = h.refs j)
    (hok : ((h'.impls i).live = true → (h'.impls i).refn.toNat = h'.refs i ∧ 0 < h'.refs i) ∧
      ((h'.impls i).live = false → h'.refs i = 0))
    (hf : h'.freed = if (h'.impls i).live then h.freed else h.freed ++ [i]) : h'.Inv := by
  have hnot : i ∉ h.freed := fun hf => absurd (((hi.freed i).1 hf).2 ▸ hlive) Bool.false_ne_true
  refine ⟨fun j hj => ?_, fun j hj => ?_, fun j hj => ?_, fun j => ?_, ?_⟩
  · by_cases hji : j = i
    · subst hji; exact hok.1 hj
    · rw [himp j hji] at hj ⊢; rw [hr j hji]; exact hi.live j hj
  · by_cases hji : j = i
    · subst hji; exact hok.2 hj
    · rw [himp j hji] at hj; rw [hr j hji]; exact hi.dead j hj
  · have hji : j ≠ i := fun e => by have := hi.lt_made hlive; rw [hm] at hj; omega
    rw [himp j hji]; exact hi.fresh j (hm ▸ hj)
  · rw [hm, hf]
    by_cases hji : j = i
    · subst hji
      cases hl' : (h'.impls j).live <;> simp [hnot, hi.lt_made hlive]
    · rw [himp j hji, ← hi.freed j]
      split <;> simp [hji]
  · rw [hf]
    split
    · exact hi.freed_nodup
    · exact List.nodup_append_comm.2 (List.nodup_cons.2 ⟨hnot, hi.freed_nodup⟩)

theorem make_inv (hi : h.Inv) : (make h).Inv where
  live i hl := by
    rw [refs_make]
    by_cases him : i = h.made
    · rw [him]
      simp [make, hi.dead _ (hi.fresh _ le_rfl)]
    · simp only [make, Function.update_noteq him] at hl ⊢
      rw [if_neg (Ne.symm him), Nat.add_zero]
      exact hi.live i hl
  dead i hl := by
    rw [refs_make]
    by_cases him : i = h.made
    · rw [him] at hl; simp [make] at hl
    · simp only [make, Function.update_noteq him] at hl
      rw [if_neg (Ne.symm him), Nat.add_zero]
      exact hi.dead i hl
  fresh i hle := by
    have hle' : h.made + 1 ≤ i := hle
    simp only [make, Function.update_noteq (show i ≠ h.made by omega)]
    exact hi.fresh i (by omega)
  freed i := by
    by_cases him : i = h.made
    · have : h.made ∉ h.freed := fun hf => absurd ((hi.freed _).1 hf).1 (Nat.lt_irrefl _)
      rw [him]; simp [make, this]
    · simp only [make, Function.update_noteq him, hi.freed i]
      constructor <;> rintro ⟨h1, h2⟩ <;> exact ⟨by omega, h2⟩
  freed_nodup := hi.freed_nodup

theorem copy_inv {k : Nat} (hi : h.Inv) (hl : Legal h (.copy k)) : (copy h k).Inv := by
  cases hp : h.hs.getD k none with
  | none =>
    rw [copy_none hp]
    exact hi.of_refs rfl rfl rfl fun j => by simp [Handles.refs]
  | some i =>
    have hb : h.refs i + 1 < 2 ^ 32 := by have := hl.2; rw [hp] at this; exact this
    have hlive := hi.live_of_pos (refs_pos hl.1 hp)
    have hrefn := (hi.live i hlive).1
    have hr := refs_copy hp
    refine hi.of_one hlive (by rw [copy_some hp]) (fun j hj => by simp [copy_some hp, hj])
      (fun j hj => by rw [hr, if_neg (by simpa using Ne.symm hj)]; rfl)
      ⟨fun _ => ?_, fun h0 => ?_⟩ ?_
    · have hc : ((copy h k).impls i).refn = (h.impls i).refn + 1 := by simp [copy_some hp]
      rw [hr, if_pos rfl, hc, uint32_toNat_add_one (by omega), hrefn]
      omega
    · simp [copy_some hp, hlive] at h0
    · simp [copy_some hp, hlive]

theorem drop_inv {k : Nat} (hi : h.Inv) (hl : Legal h (.drop k)) : (drop h k).Inv := by
  cases hp : h.hs.getD k none with
  | none =>
    have hr : ∀ j, (drop h k).refs j = h.refs j := fun j => by
      have := refs_drop hl j; rw [hp, if_neg (Option.noConfusion)] at this; exact this
    rw [drop_none hp] at hr ⊢
    exact hi.of_refs rfl rfl rfl hr
  | some i =>
    have hlive := hi.live_of_pos (refs_pos hl hp)
    have hrefn := (hi.live i hlive).1
    have hpos := (hi.live i hlive).2
    have hsub : ((h.impls i).refn - 1).toNat = h.refs i - 1 := by
      rw [uint32_toNat_sub_one (by omega), hrefn]
    have hri : (drop h k).refs i = h.refs i - 1 := by
      have := refs_drop hl i; rw [hp, if_pos rfl] at this; omega
    have hrj : ∀ j ≠ i, (drop h k).refs j = h.refs j := fun j hj => by
      have := refs_drop hl j; rw [hp, if_neg (by simpa using Ne.symm hj)] at this; omega
    by_cases h0 : (h.impls i).refn - 1 = 0
    · refine hi.of_one hlive (by simp [drop_some hp, h0])
        (fun j hj => by simp [drop_some hp, h0, hj])
        hrj ⟨fun hl' => by simp [drop_some hp, h0] at hl', fun _ => ?_⟩ (by simp [drop_some hp, h0])
      have := refn_eq_zero.1 h0
      omega
    · refine hi.of_one hlive (by simp [drop_some hp, h0])
        (fun j hj => by simp [drop_some hp, h0, hj])
        hrj ⟨fun _ => ?_, fun hl' => by simp [drop_some hp, h0, hlive] at hl'⟩
        (by simp [drop_some hp, h0, hlive])
      have hne : ((h.impls i).refn - 1).toNat ≠ 0 := fun e => h0 (refn_eq_zero.2 e)
      have hc : ((drop h k).impls i).refn = (h.impls i).refn - 1 := by simp [drop_some hp, h0]
      rw [hc, hri, hsub]
      omega

theorem step_inv {op : Op} (hi : h.Inv) (hl : Legal h op) : (step h op).Inv := by
  cases op with
  | make => exact make_inv hi
  | copy k => exact copy_inv hi hl
  | move k => exact hi.of_refs rfl rfl rfl (refs_move hl)
  | drop k => exact drop_inv hi hl

theorem run_inv : ∀ {h : Handles} {ops : List Op}, h.Inv → LegalRun h ops → (run h ops).Inv
  | _, [], hi, _ => hi
  | h, op :: _, hi, ⟨hl, hr⟩ => run_inv (h := step h op) (step_inv hi hl) hr

end Inv

/-- On every legal run of constructions, copies, moves and destructions: no object is freed
twice; an object is allocated exactly while some handle names it, so that no handle ever names a
freed object and no object outlives its last handle; the freed objects are the made ones that no
handle names; and `_refn` is the number of handles naming the object. -/
theorem handles_free_last {ops : List Op} (hl : LegalRun Handles.empty ops) :
    let h := run Handles.empty ops
    h.freed.Nodup ∧ ∀ i, ((h.impls i).live = true ↔ some i ∈ h.hs) ∧
      (i ∈ h.freed ↔ i < h.made ∧ some i ∉ h.hs) ∧
      ((h.impls i).live = true → (h.impls i).refn.toNat = h.hs.count (some i)) := by
  intro h
  have hi : h.Inv := run_inv Handles.empty_inv hl
  have hmem : ∀ i, (h.impls i).live = true ↔ some i ∈ h.hs := fun i =>
    ⟨fun hl => List.count_pos_iff.1 (hi.live i hl).2,
      fun hm => hi.live_of_pos (List.count_pos_iff.2 hm)⟩
  refine ⟨hi.freed_nodup, fun i => ⟨hmem i, ?_, fun hl => (hi.live i hl).1⟩⟩
  rw [hi.freed i, ← hmem i, Bool.not_eq_true]

/-- Two `wait_group`s: the first is copied, the copy moved out (leaving it null), the second
copied, and every handle destroyed; each object is freed once, at its last handle. -/
theorem handles_free_last_waitGroup :
    let h := run Handles.empty
      [.make, .copy 0, .move 1, .drop 1, .make, .drop 0, .copy 1, .drop 0, .drop 0, .drop 0]
    h.freed.Nodup ∧ ∀ i, ((h.impls i).live = true ↔ some i ∈ h.hs) ∧
      (i ∈ h.freed ↔ i < h.made ∧ some i ∉ h.hs) ∧
      ((h.impls i).live = true → (h.impls i).refn.toNat = h.hs.count (some i)) :=
  handles_free_last (by decide)

end Coost.Handle
