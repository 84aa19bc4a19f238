import Mathlib.Data.BitVec
import QuietFlow.Queue.Align
import QuietFlow.Runs.Ring

/-! `lock::LimitQueue`.

A call holds `mutex_` from its first access to its last, so a call is one step. `head` and `tail`
are words that run freely and wrap; a slot is taken by masking, and fullness is a wrapped
difference. The queue stores the window of its ring between the two, and answers every sequence
of calls as a bounded queue would (`answers_fifo`). -/
namespace QuietFlow.Lock
open Align Runs
open FreeLock (word word_toNat word_add word_eq_iff)

structure LimitQueue (α : Type*) where
  vec : List α
  capacity : BitVec 64
  capacityBitmap : BitVec 64
  head : BitVec 64
  tail : BitVec 64

inductive Op (α : Type*) where
  | tryEnqueue (item : α)
  | tryDequeue
  | size

inductive Answer (α : Type*) where
  /-- Whether `try_enqueue` stored its item. -/
  | enqueued (done : Bool)
  /-- What `try_dequeue` took, if anything. -/
  | dequeued (item : Option α)
  | size (n : ℕ)
  /-- An index outside `vec`. -/
  | wild
  deriving DecidableEq

section Code
variable {α : Type*} (nullptr : α)

/-- `LimitQueue::LimitQueue`. -/
def LimitQueue.make (size : BitVec 64) : Option (LimitQueue α) :=
  (alignSizeInt size).map fun capacity =>
    { vec := List.replicate capacity.toNat nullptr
      capacity := capacity
      capacityBitmap := capacity - 1
      head := 0
      tail := 0 }

namespace LimitQueue
variable (q : LimitQueue α)

def isEmpty : Bool := q.head == q.tail

def isFull : Bool := q.tail - q.capacity == q.head

/-- `size`, which is `size_approx` under the mutex. -/
def size : BitVec 64 :=
  if q.isFull then q.capacity else (q.tail - q.head) &&& q.capacityBitmap

def tryDequeue : LimitQueue α × Answer α :=
  if q.isEmpty then
    (q, .dequeued none)
  else
    let head := q.head + 1
    let idx := (head &&& q.capacityBitmap).toNat
    ({q with head := head, vec := q.vec.set idx nullptr},
      if h : idx < q.vec.length then .dequeued (some q.vec[idx]) else .wild)

def tryEnqueue (item : α) : LimitQueue α × Answer α :=
  if q.isFull then
    (q, .enqueued false)
  else
    let tail := q.tail + 1
    let idx := (tail &&& q.capacityBitmap).toNat
    ({q with tail := tail, vec := q.vec.set idx item},
      if idx < q.vec.length then .enqueued true else .wild)

def step : Op α → LimitQueue α × Answer α
  | .tryEnqueue item => q.tryEnqueue item
  | .tryDequeue => q.tryDequeue nullptr
  | .size => (q, .size q.size.toNat)

end LimitQueue
end Code

/-! ### What the queue is for -/

/-- A first-in first-out queue of at most `capacity` items. -/
structure Fifo (α : Type*) (capacity : ℕ) where
  items : List α
  length_le : items.length ≤ capacity

namespace Fifo
variable {α : Type*} {capacity : ℕ}

def empty : Fifo α capacity := ⟨[], Nat.zero_le _⟩

def push (f : Fifo α capacity) (item : α) (h : f.items.length ≠ capacity) : Fifo α capacity :=
  ⟨f.items ++ [item], by
    have := f.length_le
    simp only [List.length_append, List.length_singleton]
    omega⟩

def pop (f : Fifo α capacity) : Fifo α capacity :=
  ⟨f.items.tail, by
    have := f.length_le
    rw [List.length_tail]
    omega⟩

def step (f : Fifo α capacity) : Op α → Fifo α capacity × Answer α
  | .tryEnqueue item =>
    if h : f.items.length = capacity then (f, .enqueued false) else (f.push item h, .enqueued true)
  | .tryDequeue => (f.pop, .dequeued f.items.head?)
  | .size => (f, .size f.items.length)

end Fifo

/-! ### The window the queue stores -/

section Stores
variable {α : Type*} {nullptr : α} {k h : ℕ} {q : LimitQueue α} {items : List α}

/-- The queue holds `items` in `2 ^ k` slots; `head` has been moved on `h` times. -/
structure Stores (k h : ℕ) (q : LimitQueue α) (items : List α) : Prop where
  capacity : q.capacity = word (2 ^ k)
  bitmap : q.capacityBitmap = word (2 ^ k - 1)
  length_vec : q.vec.length = 2 ^ k
  head : q.head = word h
  tail : q.tail = word (h + items.length)
  length_le : items.length ≤ 2 ^ k
  window : window (fun i => q.vec[i]?) (2 ^ k) (h + 1) items.length = items.map some

/-- Counts up to the capacity are told apart by their words. -/
theorem word_inj {m n : ℕ} (hk : k ≤ 30) (hm : m ≤ 2 ^ k) (hn : n ≤ 2 ^ k) (h : word m = word n) :
    m = n := by
  have hle : 2 ^ k ≤ 2 ^ 30 := Nat.pow_le_pow_right (by decide) hk
  rw [word_eq_iff] at h
  omega

theorem toNat_mask (hk : k ≤ 30) (n : ℕ) : (word n &&& word (2 ^ k - 1)).toNat = n % 2 ^ k := by
  have hle : 2 ^ k ≤ 2 ^ 30 := Nat.pow_le_pow_right (by decide) hk
  have hlt : 2 ^ k - 1 < 2 ^ 64 := by omega
  rw [BitVec.toNat_and, word_toNat, word_toNat, Nat.mod_eq_of_lt hlt, Nat.and_two_pow_sub_one_eq_mod,
    Nat.mod_mod_of_dvd _ (Nat.pow_dvd_pow 2 (by omega))]

theorem getElem?_set_fun {vec : List α} {j : ℕ} (h : j < vec.length) (x : α) :
    (fun i => (vec.set j x)[i]?) = Function.update (fun i => vec[i]?) j (some x) := by
  funext i
  rw [List.getElem?_set]
  by_cases hi : j = i
  · subst hi
    simp [h]
  · simp [hi, Function.update_of_ne (Ne.symm hi)]

namespace Stores

theorem isEmpty_iff (hk : k ≤ 30) (hq : Stores k h q items) : q.isEmpty = true ↔ items = [] := by
  rw [LimitQueue.isEmpty, beq_iff_eq, hq.head, hq.tail, word_add, left_eq_add]
  refine ⟨fun heq => ?_, fun heq => by simp [heq, word]⟩
  exact List.length_eq_zero_iff.mp (word_inj hk hq.length_le (Nat.zero_le _) heq)

theorem isFull_iff (hk : k ≤ 30) (hq : Stores k h q items) :
    q.isFull = true ↔ items.length = 2 ^ k := by
  rw [LimitQueue.isFull, beq_iff_eq, hq.tail, hq.capacity, hq.head, sub_eq_iff_eq_add, word_add,
    add_right_inj]
  exact ⟨word_inj hk hq.length_le le_rfl, fun heq => by rw [heq]⟩

theorem size_eq (hk : k ≤ 30) (hq : Stores k h q items) : q.size.toNat = items.length := by
  have hle : 2 ^ k ≤ 2 ^ 30 := Nat.pow_le_pow_right (by decide) hk
  unfold LimitQueue.size
  split
  · next hfull =>
    rw [hq.capacity, word_toNat, (hq.isFull_iff hk).mp hfull]
    exact Nat.mod_eq_of_lt (by omega)
  · next hfull =>
    have hlt : items.length < 2 ^ k :=
      lt_of_le_of_ne hq.length_le fun heq => hfull ((hq.isFull_iff hk).mpr heq)
    rw [hq.tail, hq.head, word_add, add_sub_cancel_left, hq.bitmap, toNat_mask hk,
      Nat.mod_eq_of_lt hlt]

/-- The slot `try_enqueue` writes is the one behind the window. -/
theorem tryEnqueue_eq (hk : k ≤ 30) (hq : Stores k h q items) (item : α)
    (hroom : items.length ≠ 2 ^ k) :
    (q.tryEnqueue item).2 = .enqueued true ∧ Stores k h (q.tryEnqueue item).1 (items ++ [item]) := by
  have hlt : items.length < 2 ^ k := lt_of_le_of_ne hq.length_le hroom
  have htail : q.tail + 1 = word (h + 1 + items.length) := by
    rw [hq.tail, show (1 : BitVec 64) = word 1 from rfl, ← word_add, Nat.add_right_comm]
  have hidx : ((q.tail + 1) &&& q.capacityBitmap).toNat = (h + 1 + items.length) % 2 ^ k := by
    rw [htail, hq.bitmap, toNat_mask hk]
  have hbound : (h + 1 + items.length) % 2 ^ k < q.vec.length := by
    rw [hq.length_vec]
    exact Nat.mod_lt _ (Nat.two_pow_pos k)
  have hnot : q.isFull = false := by
    rw [← Bool.not_eq_true, hq.isFull_iff hk]
    exact hroom
  simp only [LimitQueue.tryEnqueue, hnot, hidx, hbound, if_true, Bool.false_eq_true, if_false, true_and]
  refine ⟨hq.capacity, hq.bitmap, ?_, hq.head, ?_, ?_, ?_⟩
  · rw [List.length_set, hq.length_vec]
  · rw [htail, List.length_append, List.length_singleton, ← Nat.add_assoc, Nat.add_right_comm]
  · rw [List.length_append, List.length_singleton]
    exact hlt
  · rw [List.length_append, List.length_singleton, getElem?_set_fun hbound, window_push hlt, hq.window,
      List.map_append, List.map_singleton]

/-- The slot `try_dequeue` reads is the first of the window. -/
theorem tryDequeue_eq (nullptr : α) (hk : k ≤ 30) {item : α} {rest : List α}
    (hq : Stores k h q (item :: rest)) :
    (q.tryDequeue nullptr).2 = .dequeued (some item) ∧
      Stores k (h + 1) (q.tryDequeue nullptr).1 rest := by
  have hlt : rest.length < 2 ^ k := hq.length_le
  have hhead : q.head + 1 = word (h + 1) := by
    rw [hq.head, show (1 : BitVec 64) = word 1 from rfl, ← word_add]
  have hidx : ((q.head + 1) &&& q.capacityBitmap).toNat = (h + 1) % 2 ^ k := by
    rw [hhead, hq.bitmap, toNat_mask hk]
  have hbound : (h + 1) % 2 ^ k < q.vec.length := by
    rw [hq.length_vec]
    exact Nat.mod_lt _ (Nat.two_pow_pos k)
  have hnot : q.isEmpty = false := by
    rw [← Bool.not_eq_true, hq.isEmpty_iff hk]
    exact List.cons_ne_nil _ _
  have hwindow := hq.window
  rw [List.length_cons, window_cons, List.map_cons, List.cons.injEq] at hwindow
  have hitem : q.vec[(h + 1) % 2 ^ k] = item := by
    simpa [List.getElem?_eq_getElem hbound] using hwindow.1
  simp only [LimitQueue.tryDequeue, hnot, hidx, hbound, dif_pos, Bool.false_eq_true, if_false, hitem,
    true_and]
  refine ⟨hq.capacity, hq.bitmap, ?_, hhead, ?_, hlt.le, ?_⟩
  · rw [List.length_set, hq.length_vec]
  · rw [hq.tail, List.length_cons, Nat.add_right_comm, Nat.add_assoc]
  · rw [getElem?_set_fun hbound, window_update_start hlt, hwindow.2]

end Stores

/-- One call: the queue answers as the bounded queue does, and stores what that one stores. -/
theorem step_fifo (hk : k ≤ 30) (f : Fifo α (2 ^ k)) (o : Op α) (hq : ∃ h, Stores k h q f.items) :
    (q.step nullptr o).2 = (f.step o).2 ∧ ∃ h, Stores k h (q.step nullptr o).1 (f.step o).1.items := by
  obtain ⟨h, hq⟩ := hq
  cases o with
  | tryEnqueue item =>
    by_cases hfull : f.items.length = 2 ^ k
    · have hisFull := (hq.isFull_iff hk).mpr hfull
      simp only [LimitQueue.step, LimitQueue.tryEnqueue, hisFull, if_true, Fifo.step, hfull, dif_pos,
        true_and]
      exact ⟨h, hq⟩
    · obtain ⟨hanswer, hstores⟩ := hq.tryEnqueue_eq hk item hfull
      simp only [LimitQueue.step, Fifo.step, hfull, dif_neg, not_false_eq_true, hanswer, true_and]
      exact ⟨h, hstores⟩
  | tryDequeue =>
    obtain ⟨items, hle⟩ := f
    cases items with
    | nil =>
      have hisEmpty := (hq.isEmpty_iff hk).mpr rfl
      simp only [LimitQueue.step, LimitQueue.tryDequeue, hisEmpty, if_true, Fifo.step, Fifo.pop]
      exact ⟨rfl, h, hq⟩
    | cons item rest =>
      obtain ⟨hanswer, hstores⟩ := hq.tryDequeue_eq nullptr hk
      exact ⟨hanswer, h + 1, hstores⟩
  | size =>
    refine ⟨?_, h, hq⟩
    simp only [LimitQueue.step, Fifo.step, hq.size_eq hk]

/-- An empty queue stores nothing, wherever `head` and `tail` stand. -/
theorem stores_nil {capacity : BitVec 64} (hc : capacity = word (2 ^ k)) (hk : k ≤ 30)
    (offset : BitVec 64) :
    Stores k offset.toNat
      ⟨List.replicate capacity.toNat nullptr, capacity, capacity - 1, offset, offset⟩ [] := by
  have hle : 2 ^ k ≤ 2 ^ 30 := Nat.pow_le_pow_right (by decide) hk
  have hoffset : offset = word offset.toNat := by simp [word]
  refine ⟨hc, ?_, ?_, hoffset, ?_, Nat.zero_le _, rfl⟩
  · rw [hc]
    exact FreeLock.capacityBitmap_eq k
  · rw [List.length_replicate, hc, word_toNat]
    exact Nat.mod_eq_of_lt (by omega)
  · rw [List.length_nil, Nat.add_zero]
    exact hoffset

/-- **The queue is a bounded first-in first-out queue**: of any size up to `2^30`, from any start
of `head` and `tail`, it answers every sequence of calls as that one does. -/
theorem answers_fifo (nullptr : α) (size : BitVec 64) (h : 1 ≤ size.toNat) (h' : size.toNat ≤ 2 ^ 30)
    (offset : BitVec 64) (ops : List (Op α)) :
    ∃ q : LimitQueue α, LimitQueue.make nullptr size = some q ∧
      answers (LimitQueue.step nullptr) {q with head := offset, tail := offset} ops =
        answers Fifo.step (Fifo.empty : Fifo α (alignSize size.toNat)) ops := by
  obtain ⟨-, halign⟩ := alignSizeInt_eq h h'
  obtain ⟨k, hk, hpow⟩ := alignSize_pow_le h h'
  rw [hpow] at halign ⊢
  refine ⟨_, by rw [LimitQueue.make, halign, Option.map_some], ?_⟩
  exact answers_eq (R := fun q f => ∃ h, Stores k h q f.items) (fun q f o => step_fifo hk f o)
    ⟨_, stores_nil rfl hk offset⟩ ops

/-- One slot, and words that wrap at once. -/
theorem answers_fifo_one : ∃ q : LimitQueue ℕ, LimitQueue.make 0 1#64 = some q ∧
    answers (LimitQueue.step 0) {q with head := -1#64, tail := -1#64}
        [.tryEnqueue 7, .tryEnqueue 8, .size, .tryDequeue, .tryDequeue] =
      answers Fifo.step (Fifo.empty : Fifo ℕ 1)
        [.tryEnqueue 7, .tryEnqueue 8, .size, .tryDequeue, .tryDequeue] :=
  answers_fifo 0 1#64 (by decide) (by decide) (-1#64) _

end Stores
end QuietFlow.Lock
