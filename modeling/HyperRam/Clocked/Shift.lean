import Mathlib.Data.Fin.Basic

/-!
# Shift registers

A bank of `n` registers that moves one place towards index `0` on a clock and takes a new
value in at index `n - 1` (`shiftIn`). As a list the first value goes out and the new one comes in
at the end (`ofFn_shiftIn`), which is the form for queues of words.

A line that comes in word by word is complete after `n` clocks. `Filled r f j` says that the last
`j` values taken in were `f 0, ..., f (j - 1)`, a clock that takes `f j` in goes on to `j + 1`
(`Filled.shiftIn`), and after `n` of them the bank is `f` (`Filled.all`), whatever it held before.
-/

namespace Clocked

variable {α : Type*} {n : ℕ}

/-- Every register takes its upper neighbour's value, the last one takes `x`. -/
def shiftIn (r : Fin n → α) (x : α) : Fin n → α :=
  fun i => if h : i.val + 1 < n then r ⟨i.val + 1, h⟩ else x

theorem shiftIn_of_lt {r : Fin n → α} {x : α} {i : Fin n} (h : i.val + 1 < n) :
    shiftIn r x i = r ⟨i.val + 1, h⟩ :=
  dif_pos h

theorem shiftIn_last {r : Fin n → α} {x : α} {i : Fin n} (h : ¬i.val + 1 < n) :
    shiftIn r x i = x :=
  dif_neg h

/-- As a list : the first value goes out, the new one comes in at the end. -/
theorem ofFn_shiftIn (r : Fin (n + 1) → α) (x : α) :
    List.ofFn (shiftIn r x) = (List.ofFn r).tail ++ [x] := by
  rw [List.ofFn_succ_last, List.ofFn_succ, List.tail_cons, shiftIn_last (by simp)]
  congr 2
  funext i
  exact shiftIn_of_lt (by simp)

/-- The last `j` values taken in are the first `j` of `f`. -/
def Filled (r : Fin n → α) (f : ℕ → α) (j : ℕ) : Prop :=
  ∀ i : Fin n, n ≤ i.val + j → r i = f (i.val + j - n)

namespace Filled

variable {r : Fin n → α} {f : ℕ → α} {j : ℕ}

theorem zero (r : Fin n → α) (f : ℕ → α) : Filled r f 0 := by
  intro i hi
  have := i.isLt
  omega

theorem shiftIn (h : Filled r f j) : Filled (shiftIn r (f j)) f (j + 1) := by
  intro i hi
  rcases Nat.lt_or_ge (i.val + 1) n with hlt | hge
  · rw [shiftIn_of_lt hlt, h ⟨i.val + 1, hlt⟩ (by simp only; omega)]
    congr 1
    simp only
    omega
  · rw [shiftIn_last (by omega)]
    congr 1
    omega

/-- A bank of `n` registers that took `n` values holds them. -/
theorem all (h : Filled r f n) (i : Fin n) : r i = f i.val := by
  rw [h i (by omega)]
  congr 1
  omega

end Filled

end Clocked
