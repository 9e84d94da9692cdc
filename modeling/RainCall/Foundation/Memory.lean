import Mathlib

/-!
# Blocks of memory

A block of memory is a list of cells. This file has the operations C code performs on a block
(`memcpy` into it, `memmove` inside it, `realloc`), and how they act on a block that is an array of
records of one width.
-/

namespace RainCall

open List

variable {α β : Type*}

/-- `memcpy`: write the cells `b` at `off`. -/
def overwrite (c : List β) (off : ℕ) (b : List β) : List β :=
  c.take off ++ b ++ c.drop (off + b.length)

/-- `memmove`: copy `n` cells from `src` to `dst`. -/
def moveCells (c : List β) (dst src n : ℕ) : List β := overwrite c dst ((c.drop src).take n)

/-- What the allocator leaves in the cells that it adds to a block, from any position on. -/
class Realloc (β : Type*) where
  newCell : List β → ℕ → β

/-- `realloc`: cut the block to `n` cells, or extend it with cells of any contents. -/
def resizeCells [Realloc β] (c : List β) (n : ℕ) : List β :=
  c.take n ++ (List.range (n - c.length)).map (Realloc.newCell c)

/-- A block has the length that was asked for. -/
lemma length_resizeCells [Realloc β] (c : List β) (n : ℕ) : (resizeCells c n).length = n := by
  rw [resizeCells, length_append, length_take, length_map, length_range]
  omega

variable {c b : List β} {off : ℕ}

/-- Writing inside a block keeps its length. -/
lemma length_overwrite (h : off + b.length ≤ c.length) :
    (overwrite c off b).length = c.length := by
  rw [overwrite, length_append, length_append, length_take, length_drop]
  omega

/-- What is in front of the written cells stays. -/
lemma take_overwrite {n : ℕ} (hn : n ≤ off) (hoff : off ≤ c.length) :
    (overwrite c off b).take n = c.take n := by
  rw [overwrite, append_assoc, take_append_of_le_length (by rw [length_take]; omega),
    take_take, Nat.min_eq_left hn]

/-- From the written cells on. -/
lemma drop_overwrite (hoff : off ≤ c.length) :
    (overwrite c off b).drop off = b ++ c.drop (off + b.length) := by
  rw [overwrite, append_assoc, drop_left' (by rw [length_take]; omega)]

@[simp] lemma moveCells_zero (c : List β) (dst src : ℕ) : moveCells c dst src 0 = c := by
  simp [moveCells, overwrite]

/-- Opening a gap: extend the block, move the tail behind the gap, and write into the gap. -/
lemma overwrite_moveCells_resizeCells [Realloc β] {r : List β} {a : ℕ} (ha : a ≤ c.length) :
    overwrite (moveCells (resizeCells c (c.length + r.length)) (a + r.length) a (c.length - a)) a
      r = c.take a ++ r ++ c.drop a := by
  obtain ⟨new, hext, hnew⟩ : ∃ new, resizeCells c (c.length + r.length) = c ++ new ∧
      new.length = r.length := by
    refine ⟨_, by rw [resizeCells, take_of_length_le (Nat.le_add_right _ _)], ?_⟩
    rw [length_map, length_range, Nat.add_sub_cancel_left]
  have htail : ((c ++ new).drop a).take (c.length - a) = c.drop a := by
    rw [drop_append_of_le_length ha, take_left' (length_drop)]
  have hgap : (c ++ new).take (a + r.length) =
      c.take a ++ ((c ++ new).drop a).take r.length := by
    rw [take_add, take_append_of_le_length ha]
  have hlen : (((c ++ new).drop a).take r.length).length = r.length := by
    rw [length_take, length_drop, length_append]
    omega
  have hmove : moveCells (c ++ new) (a + r.length) a (c.length - a) =
      c.take a ++ ((c ++ new).drop a).take r.length ++ c.drop a := by
    rw [moveCells, overwrite, htail, hgap, drop_of_length_le (i := a + r.length + _),
      append_nil]
    rw [length_append, length_drop]
    omega
  have hfront : (c.take a).length = a := by
    rw [length_take, Nat.min_eq_left ha]
  rw [hext, hmove, overwrite, append_assoc (c.take a), take_left' hfront,
    ← append_assoc, drop_left' (by rw [length_append, hfront, hlen])]

/-- Closing a gap: move the tail over the `w` cells and cut the block. -/
lemma resizeCells_moveCells [Realloc β] {a w : ℕ} (ha : a + w ≤ c.length) :
    resizeCells (moveCells c a (a + w) (c.length - (a + w))) (c.length - w) =
      c.take a ++ c.drop (a + w) := by
  have htail : (c.drop (a + w)).take (c.length - (a + w)) = c.drop (a + w) :=
    take_of_length_le (by rw [length_drop])
  have hlen : (c.take a ++ c.drop (a + w)).length = c.length - w := by
    rw [length_append, length_take, length_drop]
    omega
  have hmove : a + (c.drop (a + w)).length ≤ c.length := by
    rw [length_drop]
    omega
  rw [resizeCells, moveCells, htail, length_overwrite hmove, overwrite, take_left' hlen,
    Nat.sub_eq_zero_of_le (Nat.sub_le _ _), range_zero, map_nil, append_nil]

/-! ### Arrays of records -/

section Records

variable {f : α → List β} {w : ℕ}

section

variable (hf : ∀ a, (f a).length = w) (l : List α)
include hf

/-- An array of records of width `w`. -/
lemma length_records :
    (l.flatMap f).length = l.length * w := by
  induction l with
  | nil => simp
  | cons a l ih =>
    rw [flatMap_cons, length_append, hf, ih, length_cons, Nat.succ_mul, Nat.add_comm]

/-- The array from record `i` on. -/
lemma drop_records (i : ℕ) :
    (l.flatMap f).drop (i * w) = (l.drop i).flatMap f := by
  induction l generalizing i with
  | nil => simp
  | cons a l ih =>
    cases i with
    | zero => simp
    | succ i =>
      rw [flatMap_cons, Nat.succ_mul, Nat.add_comm, ← drop_drop,
        drop_left' (hf a), ih, drop_succ_cons]

/-- The array up to record `i`. -/
lemma take_records (i : ℕ) :
    (l.flatMap f).take (i * w) = (l.take i).flatMap f := by
  induction l generalizing i with
  | nil => simp
  | cons a l ih =>
    cases i with
    | zero => simp
    | succ i =>
      have hle : (f a).length ≤ (i + 1) * w := by
        rw [hf, Nat.succ_mul]
        omega
      have hsub : (i + 1) * w - (f a).length = i * w := by
        rw [hf, Nat.succ_mul, Nat.add_sub_cancel]
      rw [flatMap_cons, take_append, take_of_length_le hle, hsub, ih,
        take_succ_cons, flatMap_cons]

end

end Records

end RainCall
