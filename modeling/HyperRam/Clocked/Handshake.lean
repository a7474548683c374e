import Mathlib.Logic.Basic

/-!
# The registered start/end handshake

A requester raises `start` while it is in a home state and keeps it up until it sees `fin`,
on which it leaves home and lowers `start`. A server that is not `busy` becomes so one clock
after `start`, raises `fin` with its last busy cycle and keeps `fin` for one more. Both
sides are registers, so each sees the other one clock late.

`Handshake` is the relation of the four bits that holds in every cycle, `Handshake.step` its
preservation, from one clock of a `Requester` and one of a `Server`. These two say of each side what
the other one relies on and no more : a server may be busy for any number of clocks.

The third field of the relation is the point : at home, `fin` is never a leftover of the request
before, since the server lowers it before the requester can be back. Each visit of home has one
start (`Handshake.due_eq_starts`), in the form in which `log_balance` takes it.
-/

namespace Clocked

/-- The relation of the handshake bits. -/
structure Handshake (home start busy fin : Bool) : Prop where
  start_home : start = true → home = true
  busy_start : busy = true → start = true
  fin_busy : home = true → fin = true → busy = true

/-- One clock of a requester. -/
structure Requester (home start fin home' start' : Bool) : Prop where
  leave : home = true → fin = true → home' = false ∧ start' = false
  stay : home = true → fin = false → home' = true
  hold : home = true → fin = false → start = true → start' = true
  away : home = false → start' = start

/-- One clock of a server. -/
structure Server (start busy fin busy' fin' : Bool) : Prop where
  accept : busy = false → busy' = start
  clear : busy = false → fin' = false
  work : busy = true → fin = false → busy' = true
  finish : busy = true → fin = true → busy' = false

namespace Handshake

variable {home start busy fin home' start' busy' fin' : Bool}

/-- With the requester away and the server resting nothing is pending. -/
theorem rest (fin : Bool) : Handshake false false false fin :=
  ⟨by simp, by simp, by simp⟩

theorem step (h : Handshake home start busy fin) (q : Requester home start fin home' start')
    (v : Server start busy fin busy' fin') : Handshake home' start' busy' fin' := by
  obtain ⟨h1, h2, h3⟩ := h
  obtain ⟨q1, q2, q3, q4⟩ := q
  obtain ⟨v1, v2, v3, v4⟩ := v
  constructor <;> cases home <;> cases start <;> cases busy <;> cases fin <;> simp_all

/-! ### Starts -/

section starts

variable {α : Type*}

/-- The start `x` is due while the server rests. -/
def due (busy : Bool) (x : α) : List α :=
  if busy then [] else [x]

/-- The start `x` takes place when the server leaves its rest. -/
def starts (busy busy' : Bool) (x : α) : List α :=
  if !busy && busy' then [x] else []

@[simp] theorem starts_rest (busy : Bool) (x : α) : starts busy false x = [] := by
  simp [starts]

/-- At home a due start takes place or stays due, and there is one a visit. -/
theorem due_eq_starts (h : Handshake home start busy fin)
    (q : Requester home start fin home' start') (v : Server start busy fin busy' fin')
    (hh : home = true) (x : α) :
    due busy x = starts busy busy' x ++ if home' then due busy' x else [] := by
  cases hb : busy
  case false =>
    have hfin : fin = false :=
      Bool.eq_false_iff.2 fun hf => by simpa [hb] using h.fin_busy hh hf
    cases hb' : busy' <;> simp [due, starts, q.stay hh hfin]
  case true =>
    cases hf : fin
    case false => simp [due, starts, v.work hb hf]
    case true => simp [due, starts, (q.leave hh hf).1]

end starts

end Handshake

end Clocked
