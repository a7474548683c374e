import HyperRam.Requests

/-!
# The bus trace

The requests accepted in `IDLE` and the transactions the bus machines start are two logs of
a run. The controller is what is between them : it owes the transactions of the request it
is at work for and has not started (`Ctrl.owed`), and a clock pays out of that in order
(`Inv.owed_step`).

In a home state its machine alone can start (`Inv.starts_home`), and the handshake says that the
start that is due there takes place once in a visit. `Inv.owed_step_home` is that for each of the
three machines, with what is owed behind it. Outside the home states nothing starts
(`Inv.starts_away`), and `IDLE` takes on what the accepted request is to cause
(`Inv.owed_step_idle`). `started_owed` adds the clocks of a run up with the rule for logs.

`TraceRefines` is the refinement of the log of requests by the bus, with what goes with it : no
assertion of a port is accepted twice, and each accepted read has its own valid pulse before the
next acceptance. `ip_trace_refines` proves it of every run of the packaged IP from reset without a
further one. A `csr` write has no transactions, its machine does not exist.
-/

namespace HyperRam

open Clocked

/-- The transactions of a request. A `csr` write has none, its machine does not exist. -/
def Request.image (q : Request) : List Transaction :=
  match q with
  | .csrRead => [.rdreg]
  | .csrWrite => []
  | .s0Read => [.rdmem]
  | .s0Write => [.rdmem, .wrmem]

namespace Ctrl

section owed

variable {w : ℕ}

/-- The start of a transaction on a clock from `s` to `s'`. -/
def startsOf (s s' : Ctrl w) (k : Transaction) : List Transaction :=
  Handshake.starts (s.bus k).state.busy (s'.bus k).state.busy k

/-- The transactions that start on a clock from `s` to `s'`. -/
def starts (s s' : Ctrl w) : List Transaction :=
  startsOf s s' .rdreg ++ startsOf s s' .rdmem ++ startsOf s s' .wrmem

/-- The transaction of the home state the controller is in, before its start. -/
def dueOf (s : Ctrl w) (k : Transaction) : List Transaction :=
  Handshake.due (s.bus k).state.busy k

/-- The transactions of the present request that have not started. -/
def owed (s : Ctrl w) : List Transaction :=
  match s.core.state with
  | .rdreg => s.dueOf .rdreg
  | .rdmem2 => s.dueOf .rdmem ++ if s.core.row then [] else [.wrmem]
  | .wrmem1 => [.wrmem]
  | .wrmem2 => s.dueOf .wrmem
  | _ => []

/-- The transactions that a request owes behind the one of the home state it is in. -/
def behind (s : Ctrl w) : Transaction → List Transaction
  | .rdmem => if s.core.row then [] else [.wrmem]
  | _ => []

variable {v : Variant} {s : Ctrl v.width} {i : Inputs v.width}

/-- Away from its state a machine is not started. -/
theorem Inv.startsOf_away (h : s.Inv) (k : Transaction) (hs : s.core.state ≠ k.home) :
    startsOf s (s.step v i) k = [] := by
  rw [startsOf, h.idle k hs]
  exact Handshake.starts_rest _ _

/-- Outside the home states nothing starts. -/
theorem Inv.starts_away (h : s.Inv) (hs : ∀ k : Transaction, s.core.state ≠ k.home) :
    starts s (s.step v i) = [] := by
  simp only [starts, h.startsOf_away _ (hs _), List.append_nil]

/-- In a home state its machine alone can start. -/
theorem Inv.starts_home (h : s.Inv) (k : Transaction) (hs : s.core.state = k.home) :
    starts s (s.step v i) = startsOf s (s.step v i) k := by
  have haway (k' : Transaction) (hk : k.home ≠ k'.home) : startsOf s (s.step v i) k' = [] :=
    h.startsOf_away k' (hs ▸ hk)
  unfold starts
  cases k
  case rdreg =>
    rw [haway .rdmem (by simp), haway .wrmem (by simp), List.append_nil, List.append_nil]
  case rdmem =>
    rw [haway .rdreg (by simp), haway .wrmem (by simp), List.nil_append, List.append_nil]
  case wrmem =>
    rw [haway .rdreg (by simp), haway .rdmem (by simp), List.nil_append, List.nil_append]

/-- In a home state its transaction is owed, in front of what is behind it. -/
theorem owed_home {k : Transaction} (hs : s.core.state = k.home) :
    s.owed = s.dueOf k ++ s.behind k := by
  cases k <;> simp only [Transaction.home] at hs <;> simp [owed, behind, hs]

/-- A clock of a home state goes on to what is behind its transaction, or stays. -/
theorem owed_step_behind (hr : i.rst = false) {k : Transaction} (hs : s.core.state = k.home) :
    (s.step v i).owed =
      (if (s.registers v i).state = k.home then (s.step v i).dueOf k else []) ++ s.behind k := by
  cases k <;> simp only [Transaction.home] at hs <;>
    simp only [owed, behind, step_core, coreStep_eq_registers hr, registers, hs]
  case rdreg => cases s.rdreg.stmEnd <;> simp
  case rdmem => cases s.rdmem.stmEnd <;> cases s.core.row <;> simp
  case wrmem => cases s.wrmem.stmEnd <;> simp

/-- A clock of a home state starts its transaction or still owes it, and owes what is behind it
all along. -/
theorem Inv.owed_step_home (h : s.Inv) (hr : i.rst = false) (k : Transaction)
    (hs : s.core.state = k.home) : s.owed = starts s (s.step v i) ++ (s.step v i).owed := by
  have hdue := (h.handshake k).due_eq_starts (requester (i := i) k (h.tmp k))
    ((h.next hr k).server (h.bus k)) (decide_eq_true hs) k
  rw [owed_home hs, owed_step_behind hr hs, h.starts_home k hs, dueOf, hdue, ← List.append_assoc]
  simp only [startsOf, dueOf, decide_eq_true_eq]

/-- A clock of `IDLE` owes the transactions of the request it accepts. -/
theorem Inv.owed_step_idle (h : s.Inv) (hhit : s.bufferHit v = false) (hr : i.rst = false)
    (hs : s.core.state = .idle) :
    (s.step v i).owed = s.accepts.toList.flatMap Request.image := by
  have hdue (k : Transaction) (hk : TopState.idle ≠ k.home) : (s.step v i).dueOf k = [k] := by
    rw [dueOf, h.idle k (hs ▸ hk)]
    rfl
  unfold owed accepts
  rw [hdue .rdreg (by simp), hdue .rdmem (by simp), step_core, coreStep_eq_registers hr]
  simp only [registers, hs, Core.dispatch, Core.dispatchRow, hhit]
  cases s.core.edges.regrRise <;> cases s.core.edges.regwRise <;>
    cases s.core.edges.memrRise <;> cases s.core.edges.memwRise <;> rfl

/-- One clock : what is owed and what comes in is what starts and what stays owed. -/
theorem Inv.owed_step (h : s.Inv) (hhit : s.bufferHit v = false) (hr : i.rst = false) :
    s.owed ++ s.accepts.toList.flatMap Request.image =
      starts s (s.step v i) ++ (s.step v i).owed := by
  have haway := h.starts_away (i := i)
  cases hs : s.core.state
  case idle =>
    rw [h.owed_step_idle hhit hr hs, haway fun k => by cases k <;> simp [hs]]
    simp [owed, hs]
  all_goals rw [accepts_of_not_idle (by simp [hs]), Option.toList_none, List.flatMap_nil,
    List.append_nil]
  case rdreg => exact h.owed_step_home hr .rdreg hs
  case rdmem2 => exact h.owed_step_home hr .rdmem hs
  case wrmem2 => exact h.owed_step_home hr .wrmem hs
  all_goals
    rw [haway fun k => by cases k <;> simp [hs]]
    simp only [owed, step_core, coreStep_eq_registers hr, registers, hs, hhit]
  case wrmem1 =>
    have hdue : (s.step v i).dueOf .wrmem = [.wrmem] := by
      rw [dueOf, h.idle .wrmem (by simp [hs])]
      rfl
    rw [hdue]
    rfl
  case wrreg => rfl
  case rdmem1 => rfl
  case accdly => split_ifs <;> rfl

end owed

/-! ## The refinement -/

namespace Run

variable {v : Variant} (r : Ctrl.Run v)

/-- The requests accepted on the clocks before cycle `t`. -/
def accepted (t : ℕ) : List Request :=
  log (fun u => (r.state u).accepts.toList) t

/-- The transactions started on the clocks before cycle `t`. -/
def started (t : ℕ) : List Transaction :=
  log (fun u => starts (r.state u) (r.state (u + 1))) t

/-- Cycles of `(a, b]` with `s0_readdatavalid`. -/
def s0Valids (a b : ℕ) : ℕ :=
  ((Finset.Ioc a b).filter fun t => (r.state t).core.s0Readdatavalid = true).card

/-- Cycles of `(a, b]` with `csr_readdatavalid`. -/
def csrValids (a b : ℕ) : ℕ :=
  ((Finset.Ioc a b).filter fun t => (r.state t).csrReaddatavalid = true).card

/-- `b` accepts the request after the one `a` accepts. -/
structure Consecutive (a b : ℕ) : Prop where
  lt : a < b
  last : (r.state b).accepts ≠ none
  between : ∀ t, a < t → t < b → (r.state t).accepts = none

/-- The trace of the bus refines the accepted requests. -/
structure TraceRefines : Prop where
  /-- What has started is a prefix of the image of what was accepted. -/
  started_prefix : ∀ t, Run.started r t <+: (Run.accepted r t).flatMap Request.image
  /-- In `IDLE` it is all of it. -/
  started_idle : ∀ t, (r.state t).core.state = .idle →
    Run.started r t = (Run.accepted r t).flatMap Request.image
  /-- A request accepted in cycle `t + 1` has its port up in cycle `t`. -/
  accepts_port : ∀ q t, (r.state t).accepts = some q → ∃ x, t = x + 1 ∧ Run.port r q x = true
  /-- No assertion of a port is accepted twice. -/
  accepts_once : ∀ q x y, x ≤ y → (r.state (x + 1)).accepts = some q →
    (r.state (y + 1)).accepts = some q → SameAssertion (Run.port r q) x y → x = y
  /-- No valid cycle before the first acceptance. -/
  valid_first : ∀ t, (∀ u < t, (r.state u).accepts = none) →
    (r.state t).core.s0Readdatavalid = false ∧ (r.state t).csrReaddatavalid = false
  /-- An `s0` read has one `s0_readdatavalid` before the next acceptance, a `csr` read one
  `csr_readdatavalid`, and there is no other. -/
  valid_between : ∀ a b q, (r.state a).accepts = some q → Run.Consecutive r a b →
    Run.s0Valids r a b = (if q = .s0Read then 1 else 0) ∧
      Run.csrValids r a b = if q = .csrRead then 1 else 0
  /-- The two valid signals are never up together. -/
  valid_exclusive : ∀ t,
    ¬((r.state t).core.s0Readdatavalid = true ∧ (r.state t).csrReaddatavalid = true)

end Run

namespace Run

section refinement

variable {r : Ctrl.Run packaged} (hr : ∀ t, (r.input t).rst = false)
include hr

/-- What has started and what is owed make up the image of what was accepted. -/
theorem started_owed (t : ℕ) : Run.started r t ++ (r.state t).owed =
    (Run.accepted r t).flatMap Request.image := by
  unfold Run.started Run.accepted
  rw [log_flatMap]
  refine log_balance (d := fun u => (r.state u).owed) ?_ (fun u => ?_) t
  · simp [owed, (AfterReset.idle r.start).1, Core.reset]
  · rw [r.clock]
    exact (r.inv u).owed_step rfl (hr u)

/-- The services of `q` between two acceptances : one if the first is of `q`. -/
theorem served_between {a b : ℕ} {q : Request} (ha : (r.state a).accepts = some q)
    (hab : Run.Consecutive r a b) (p : Request) :
    ((Finset.Ioc a b).filter fun t => served p (r.state t) = true).card =
      if q = p then 1 else 0 := by
  have hwin := window_count (fun t => served p (r.state t) = true) hab.lt.le
  have hidle : (r.state b).core.state = .idle := by
    by_contra hs
    exact hab.last (accepts_of_not_idle hs)
  have hquiet : Nat.count (fun u => (r.state u).accepts = some p) b =
      Nat.count (fun u => (r.state u).accepts = some p) (a + 1) :=
    count_eq_of_quiet hab.lt fun u hau hub => by simp [hab.between u hau hub]
  rw [served_eq_accepted hr (accepts_idle ha) p, served_eq_accepted hr hidle p, hquiet,
    Nat.count_succ, ha] at hwin
  simp only [Option.some_inj] at hwin
  omega

/-- Nothing is served before anything was accepted. -/
theorem served_first {t : ℕ} (h : ∀ u < t, (r.state u).accepts = none) (q : Request) :
    served q (r.state t) = false := by
  have hbal := served_balance hr q t
  have h0 : Nat.count (fun u => (r.state u).accepts = some q) t = 0 := by
    simpa using count_eq_of_quiet (p := fun u => (r.state u).accepts = some q) (Nat.zero_le t)
      fun u _ hu => by simp [h u hu]
  rw [h0, Nat.count_succ] at hbal
  by_contra hs
  simp [hs] at hbal

omit hr in
/-- `s0_readdatavalid` is up in `IDLE`, `csr_readdatavalid` in `RDREG`. -/
theorem valid_exclusive (t : ℕ) :
    ¬((r.state t).core.s0Readdatavalid = true ∧ (r.state t).csrReaddatavalid = true) := by
  rintro ⟨h0, h1⟩
  have hd := (r.inv t).rdreg.valid.1 h1
  have hs := ((r.inv t).active .rdreg (by simp [hd])).1
  simp [(r.inv t).readdatavalid h0] at hs

end refinement

end Run

/-- In every run of the packaged IP from reset without a further one, the transactions on the
bus follow the accepted requests in order, each assertion of a port is accepted at most once,
and each accepted read has its own valid pulse. -/
theorem ip_trace_refines (r : Ctrl.Run packaged) (hr : ∀ t, (r.input t).rst = false) :
    Run.TraceRefines r := by
  constructor
  case started_prefix => exact fun t => ⟨_, Run.started_owed hr t⟩
  case started_idle =>
    intro t hs
    simpa [owed, hs] using Run.started_owed hr t
  case accepts_port =>
    intro q t h
    obtain ⟨x, rfl, hx⟩ := Run.rise_rising hr (accepts_rise h)
    exact ⟨x, rfl, hx.1⟩
  case accepts_once =>
    intro q x y hxy _ hy hsame
    obtain ⟨y', hy', -, hlow⟩ := Run.rise_rising hr (accepts_rise hy)
    obtain rfl : y = y' := by omega
    by_contra hne
    rcases hlow with h0 | hlow
    · omega
    · simp [hsame (y - 1) (by omega) (by omega)] at hlow
  case valid_first =>
    intro t h
    exact ⟨Run.served_first hr h .s0Read, Run.served_first hr h .csrRead⟩
  case valid_between =>
    intro a b q ha hab
    exact ⟨Run.served_between hr ha hab .s0Read, Run.served_between hr ha hab .csrRead⟩
  case valid_exclusive => exact Run.valid_exclusive

/-- A run with one read. -/
theorem ip_trace_refines_read : Run.TraceRefines
    (ipRun fun t => { quiet with s0Read := t < 2 }) :=
  ip_trace_refines _ fun _ => rfl

end Ctrl

end HyperRam
