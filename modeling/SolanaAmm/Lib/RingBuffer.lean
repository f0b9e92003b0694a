import Mathlib.Data.List.Rotate
import Mathlib.Data.List.TakeWhile
import Mathlib.Tactic.Common

/-!
# RingBuffer — a bounded history

A ring buffer of `n` cells with the index of the cell written last, its
tip. It is always full: the cells never written hold the value it was
filled with. What it stands for is the list of its cells from the tip
backwards (`newestFirst`); pushing puts an element in front of that list
and drops its last. `walk` is the same list with the index of each cell,
in the way the cells are iterated in reverse from the tip.
-/

namespace SolanaAmm

structure RingBuffer (α : Type) (n : ℕ) where
  /-- The index written last. -/
  tip : ℕ
  buffer : List α
  length_eq : buffer.length = n
  tip_lt : tip < n

namespace RingBuffer

variable {α : Type} {n : ℕ}

@[ext] theorem ext {r r' : RingBuffer α n} (ht : r.tip = r'.tip) (hb : r.buffer = r'.buffer) :
    r = r' := by
  cases r; cases r'; cases ht; cases hb; rfl

instance [DecidableEq α] : DecidableEq (RingBuffer α n) := fun r r' =>
  decidable_of_iff (r.tip = r'.tip ∧ r.buffer = r'.buffer)
    ⟨fun h => ext h.1 h.2, fun h => h ▸ ⟨rfl, rfl⟩⟩

/-- All cells hold `a`, and the tip is at the first. -/
def filled (a : α) (hn : 0 < n) : RingBuffer α n where
  tip := 0
  buffer := List.replicate n a
  length_eq := List.length_replicate
  tip_lt := hn

variable (r : RingBuffer α n)

def cell (i : ℕ) (h : i < n) : α := r.buffer.get ⟨i, by rw [r.length_eq]; exact h⟩

def latest : α := r.cell r.tip r.tip_lt

/-- The cell after the tip, which is overwritten next. -/
def oldestIndex : ℕ := if r.tip ≠ n - 1 then r.tip + 1 else 0

theorem oldestIndex_lt : r.oldestIndex < n := by
  have := r.tip_lt
  unfold oldestIndex
  split <;> omega

def oldest : α := r.cell r.oldestIndex r.oldestIndex_lt

/-- Advance the tip, wrapping around, and write there. -/
def push (x : α) : RingBuffer α n where
  tip := if r.tip = n - 1 then 0 else r.tip + 1
  buffer := r.buffer.set (if r.tip = n - 1 then 0 else r.tip + 1) x
  length_eq := by rw [List.length_set, r.length_eq]
  tip_lt := by have := r.tip_lt; split <;> omega

/-- `iter().enumerate().rev().cycle().skip(n - tip - 1).take(n)`: the cells
with their indices, from the tip backwards. -/
def walk : List (α × ℕ) := r.buffer.zipIdx.reverse.rotate (n - r.tip - 1)

/-- `iter().rev().cycle().skip(n - tip - 1).take(n)`: the cells from the
tip backwards. -/
def newestFirst : List α := r.buffer.reverse.rotate (n - r.tip - 1)

/-! ## The list it stands for -/

theorem rotate_reverse_split (l : List α) (k : ℕ) :
    l.reverse.rotate (l.length - k - 1)
      = (l.take (k + 1)).reverse ++ (l.drop (k + 1)).reverse := by
  conv_lhs => rw [← List.take_append_drop (k + 1) l, List.reverse_append]
  rw [List.take_append_drop, show l.length - k - 1 = (l.drop (k + 1)).reverse.length by
    rw [List.length_reverse, List.length_drop]; omega]
  exact List.rotate_append_length_eq _ _

theorem newestFirst_eq :
    r.newestFirst = (r.buffer.take (r.tip + 1)).reverse ++ (r.buffer.drop (r.tip + 1)).reverse := by
  have h := rotate_reverse_split r.buffer r.tip
  rwa [r.length_eq] at h

@[simp] theorem length_newestFirst : r.newestFirst.length = n := by
  rw [newestFirst, List.length_rotate, List.length_reverse, r.length_eq]

/-- The index of the cell `k` steps behind the tip. -/
def behind (k : ℕ) : ℕ := if k ≤ r.tip then r.tip - k else r.tip + n - k

theorem behind_lt (k : ℕ) : r.behind k < n := by
  have := r.tip_lt
  unfold behind
  split <;> omega

theorem newestFirst_getElem {k : ℕ} (hk : k < n) :
    r.newestFirst[k]? = some (r.cell (r.behind k) (r.behind_lt k)) := by
  have hlen := r.length_eq
  have htip := r.tip_lt
  have hcell : r.buffer[r.behind k]? = some (r.cell (r.behind k) (r.behind_lt k)) :=
    List.getElem?_eq_getElem (by rw [hlen]; exact r.behind_lt k)
  rw [← hcell, newestFirst_eq, behind]
  by_cases hle : k ≤ r.tip
  · rw [if_pos hle, List.getElem?_append_left (by
      rw [List.length_reverse, List.length_take, hlen]; omega),
      List.getElem?_reverse (by rw [List.length_take, hlen]; omega), List.length_take, hlen,
      List.getElem?_take_of_lt (by omega)]
    congr 1
    omega
  · rw [if_neg hle, List.getElem?_append_right (by
      rw [List.length_reverse, List.length_take, hlen]; omega),
      List.length_reverse, List.length_take, hlen,
      List.getElem?_reverse (by rw [List.length_drop, hlen]; omega), List.length_drop, hlen,
      List.getElem?_drop]
    congr 1
    omega

theorem newestFirst_head? : r.newestFirst.head? = some r.latest := by
  rw [List.head?_eq_getElem?, r.newestFirst_getElem (Nat.zero_lt_of_lt r.tip_lt)]
  congr 1

/-- **Push**: the new element comes first and the oldest is dropped. -/
theorem newestFirst_push (x : α) : (r.push x).newestFirst = x :: r.newestFirst.dropLast := by
  have hlen := r.length_eq
  have htip := r.tip_lt
  rw [newestFirst_eq, newestFirst_eq]
  by_cases hwrap : r.tip = n - 1
  · -- the tip wraps around to the first cell
    have hpush : (r.push x).buffer = r.buffer.set 0 x := by simp [push, hwrap]
    have hptip : (r.push x).tip = 0 := by simp [push, hwrap]
    have hold : r.buffer.drop (r.tip + 1) = [] := List.drop_of_length_le (by omega)
    have htake : r.buffer.take (r.tip + 1) = r.buffer := List.take_of_length_le (by omega)
    rw [hpush, hptip, hold, htake, List.reverse_nil, List.append_nil]
    cases hb : r.buffer with
    | nil => rw [hb] at hlen; simp at hlen; omega
    | cons b l => simp
  · have hpush : (r.push x).buffer = r.buffer.set (r.tip + 1) x := by simp [push, hwrap]
    have hptip : (r.push x).tip = r.tip + 1 := by simp [push, hwrap]
    obtain ⟨b, hb⟩ : ∃ b, r.buffer.drop (r.tip + 1) = b :: r.buffer.drop (r.tip + 2) :=
      ⟨_, List.drop_eq_getElem_cons (by omega)⟩
    have htake : (r.buffer.set (r.tip + 1) x).take (r.tip + 1 + 1)
        = r.buffer.take (r.tip + 1) ++ [x] := by
      rw [List.take_add_one, List.take_set_of_le (Nat.le_refl _), List.getElem?_set_self (by omega)]
      rfl
    rw [hpush, hptip, htake, List.drop_set_of_lt (by omega), hb, List.reverse_append,
      List.reverse_cons, List.reverse_nil, List.nil_append,
      List.reverse_cons (a := b), ← List.append_assoc (List.reverse (r.buffer.take _)),
      List.dropLast_concat]
    rfl

theorem latest_push (x : α) : (r.push x).latest = x := by
  have hhead := (r.push x).newestFirst_head?
  rw [newestFirst_push, List.head?_cons] at hhead
  exact (Option.some.inj hhead).symm

/-! ## Walking back from the tip -/

theorem walk_getElem {k : ℕ} (hk : k < n) :
    r.walk[k]? = some (r.cell (r.behind k) (r.behind_lt k), r.behind k) := by
  have hlen := r.length_eq
  let w : RingBuffer (α × ℕ) n :=
    ⟨r.tip, r.buffer.zipIdx, by rw [List.length_zipIdx, hlen], r.tip_lt⟩
  have h := w.newestFirst_getElem hk
  have hcell : w.cell (w.behind k) (w.behind_lt k)
      = (r.cell (r.behind k) (r.behind_lt k), r.behind k) := by
    show (r.buffer.zipIdx).get ⟨r.behind k, _⟩ = _
    simp [cell]
  rw [hcell] at h
  exact h

theorem length_walk : r.walk.length = n := by
  rw [walk, List.length_rotate, List.length_reverse, List.length_zipIdx, r.length_eq]

/-- The next newer cell, by index. -/
theorem behind_succ {k : ℕ} (hk : k + 1 < n) :
    (if r.behind (k + 1) = n - 1 then 0 else r.behind (k + 1) + 1) = r.behind k := by
  have := r.tip_lt
  unfold behind
  split <;> split <;> split <;> omega

/-- The cell after the one `k + 1` steps behind the tip. -/
theorem getElem?_next {k : ℕ} (hk : k + 1 < n) :
    r.buffer[if r.behind (k + 1) = n - 1 then 0 else r.behind (k + 1) + 1]?
      = r.newestFirst[k]? := by
  rw [r.behind_succ hk, r.newestFirst_getElem (Nat.lt_of_succ_lt hk)]
  exact List.getElem?_eq_getElem (by rw [r.length_eq]; exact r.behind_lt k)

/-- How many cells stand from the tip back to the one `k` steps behind it,
told from the two indices. -/
theorem count_behind {k : ℕ} (hk : k < n) :
    (match compare (r.behind k) r.tip with
      | .lt => r.tip - r.behind k + 1
      | .eq => 1
      | .gt => r.tip + (n - r.behind k) + 1) = k + 1 := by
  have := r.tip_lt
  rcases Nat.lt_trichotomy (r.behind k) r.tip with h | h | h
  · rw [Nat.compare_eq_lt.mpr h]
    unfold behind at h ⊢
    split at h <;> simp only [*, if_true, if_false] <;> omega
  · rw [Nat.compare_eq_eq.mpr h]
    unfold behind at h
    split at h <;> simp only <;> omega
  · rw [Nat.compare_eq_gt.mpr h]
    unfold behind at h ⊢
    split at h <;> simp only [*, if_true, if_false] <;> omega

theorem oldestIndex_eq : r.oldestIndex = r.behind (n - 1) := by
  have := r.tip_lt
  unfold oldestIndex behind
  split <;> split <;> omega

theorem newestFirst_eq_map : r.newestFirst = r.walk.map Prod.fst := by
  refine List.ext_getElem? (fun k => ?_)
  rw [List.getElem?_map]
  rcases Nat.lt_or_ge k n with hk | hk
  · rw [r.newestFirst_getElem hk, r.walk_getElem hk]
    rfl
  · rw [List.getElem?_eq_none (by rw [length_newestFirst]; exact hk),
      List.getElem?_eq_none (by rw [length_walk]; exact hk)]
    rfl

/-- **Finding in the walk**: the first cell satisfying `p` stands behind the
newer cells that do not. -/
theorem find?_walk (p : α → Bool) :
    r.walk.find? (fun c => p c.1)
      = r.walk[(r.newestFirst.takeWhile (fun a => ! p a)).length]? := by
  rw [newestFirst_eq_map]
  generalize r.walk = l
  induction l with
  | nil => rfl
  | cons c l ih =>
      by_cases hc : p c.1 = true
      · simp [hc]
      · rw [List.find?_cons_of_neg (by simpa using hc), ih, List.map_cons,
          List.takeWhile_cons_of_pos (by simpa using hc), List.length_cons,
          List.getElem?_cons_succ]

end RingBuffer

end SolanaAmm
