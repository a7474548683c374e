import HyperRam.BusSafety
import HyperRam.Clocked.Events

/-!
# Requests

A request is a rising edge of one of the four request inputs, as the registers `regr`,
`regw`, `memr`, `memw` and their `prev_*` copies see it. `Request` names the four, with the port,
the register, the edge test and the place in the `if` chain of `IDLE` that each has in the source.
An edge is a port that went up in the cycle before (`rise_rising`), and the edges seen up to a cycle
are the pulses that began before it (`count_rise`).

`IDLE` accepts at most one edge a clock, by a fixed priority (`Ctrl.accepts`). In any other state,
and behind a higher edge, the edge is gone with the clock.

A request is served by a valid pulse or by the end of a line write (`served`), and `pending` is the
one that the controller is at work for. Outside `IDLE` a clock keeps the pending request or serves
it (`Inv.servesPending`), in a home state with the clock that takes its machine to `STATE_DONE`
(`Inv.servesPending_home`). So every accepted request is served once : what was accepted is what was
served plus what is pending (`Run.served_balance`), and in `IDLE` nothing is pending
(`Run.served_eq_accepted`).
-/

namespace HyperRam

open Clocked

/-- The request inputs, in the order of the `if` chain of `IDLE`. -/
inductive Request
  | csrRead
  | csrWrite
  | s0Read
  | s0Write
  deriving DecidableEq, Repr

namespace Request

/-- The port of a request. -/
def port {w : ℕ} (q : Request) (i : Inputs w) : Bool :=
  match q with
  | csrRead => i.csrRead
  | csrWrite => i.csrWrite
  | s0Read => i.s0Read
  | s0Write => i.s0Write

/-- The register that samples the port. -/
def level (q : Request) (e : Edges) : Bool :=
  match q with
  | csrRead => e.regr
  | csrWrite => e.regw
  | s0Read => e.memr
  | s0Write => e.memw

/-- The edge test of the request. -/
def rise (q : Request) (e : Edges) : Bool :=
  match q with
  | csrRead => e.regrRise
  | csrWrite => e.regwRise
  | s0Read => e.memrRise
  | s0Write => e.memwRise

/-- Place in the `if` chain of `IDLE`. -/
def priority (q : Request) : ℕ :=
  match q with
  | csrRead => 0
  | csrWrite => 1
  | s0Read => 2
  | s0Write => 3

theorem level_sample {w : ℕ} (q : Request) (e : Edges) (i : Inputs w) :
    q.level (e.sample i) = q.port i := by
  cases q <;> rfl

/-- Sampling raises the edge of a request iff its port is up and its register was not. -/
theorem rise_sample {w : ℕ} (q : Request) (e : Edges) (i : Inputs w) :
    q.rise (e.sample i) = (q.port i && !q.level e) := by
  cases q <;> rfl

theorem level_of_rise {q : Request} {e : Edges} (h : q.rise e = true) : q.level e = true := by
  cases q <;> exact (Bool.and_eq_true _ _ ▸ h).1

@[simp] theorem level_low (q : Request) : q.level .low = false := by
  cases q <;> rfl

@[simp] theorem rise_low (q : Request) : q.rise .low = false := by
  cases q <;> rfl

end Request

namespace Ctrl

/-! ## Acceptance -/

section accepts

variable {w : ℕ} (s : Ctrl w)

/-- The request `IDLE` accepts on the next clock. -/
def accepts : Option Request :=
  if s.core.state = .idle then
    if s.core.edges.regrRise then some .csrRead
    else if s.core.edges.regwRise then some .csrWrite
    else if s.core.edges.memrRise then some .s0Read
    else if s.core.edges.memwRise then some .s0Write
    else none
  else none

variable {s}

/-- A request is accepted in `IDLE`, on its edge, and with no edge before it in priority. -/
theorem accepts_iff {q : Request} : s.accepts = some q ↔
    q.rise s.core.edges = true ∧ s.core.state = .idle ∧
      ∀ p : Request, p.priority < q.priority → p.rise s.core.edges = false := by
  unfold accepts
  constructor
  · intro h
    split_ifs at h with hs h0 h1 h2 h3 <;> cases h <;>
      refine ⟨by assumption, hs, fun p hp => ?_⟩ <;>
      cases p <;> simp_all [Request.priority, Request.rise]
  · rintro ⟨hq, hs, hp⟩
    have h0 := hp .csrRead
    have h1 := hp .csrWrite
    have h2 := hp .s0Read
    cases q <;> simp_all [Request.priority, Request.rise]

theorem accepts_rise {q : Request} (h : s.accepts = some q) : q.rise s.core.edges = true :=
  (accepts_iff.1 h).1

theorem accepts_idle {q : Request} (h : s.accepts = some q) : s.core.state = .idle :=
  (accepts_iff.1 h).2.1

theorem accepts_of_not_idle (h : s.core.state ≠ .idle) : s.accepts = none :=
  if_neg h

end accepts

/-! ## Service -/

section served

variable {w : ℕ}

/-- The cycle in which a request is served : a valid pulse, the end of a line write. No state
serves a `csr` write. -/
def served (q : Request) (s : Ctrl w) : Bool :=
  match q with
  | .csrRead => s.csrReaddatavalid
  | .csrWrite => false
  | .s0Read => s.core.s0Readdatavalid
  | .s0Write => s.wrmem.state = .done

/-- The request the controller is at work for and has not served. -/
def pending (s : Ctrl w) : Option Request :=
  match s.core.state with
  | .idle => none
  | .rdreg => if s.rdreg.state = .done then none else some .csrRead
  | .wrreg => some .csrWrite
  | .rdmem1 => some .s0Read
  | .wrmem1 => some .s0Write
  | .rdmem2 => some (if s.core.row then .s0Read else .s0Write)
  | .wrmem2 => if s.wrmem.state = .done then none else some .s0Write
  | .accdly => none

variable {v : Variant} {s : Ctrl v.width} {i : Inputs v.width}

theorem Inv.served_csrRead (h : s.Inv) : served .csrRead s = decide (s.rdreg.state = .done) :=
  Bool.eq_iff_iff.2 (h.rdreg.valid.trans decide_eq_true_iff.symm)

theorem Inv.served_s0Read_step (h : s.Inv) (hr : i.rst = false) :
    served .s0Read (s.step v i) = decide (s.core.state = .rdmem1) := by
  have hv := h.readdatavalid
  simp only [served, step_core, coreStep_eq_registers hr, registers]
  cases hs : s.core.state <;> simp_all

/-- A clock serves what the state before it says. -/
theorem Inv.served_step (h : s.Inv) (hr : i.rst = false) (q : Request) :
    served q (s.step v i) = match q with
      | .csrRead => decide ((s.step v i).rdreg.state = .done)
      | .csrWrite => false
      | .s0Read => decide (s.core.state = .rdmem1)
      | .s0Write => decide ((s.step v i).wrmem.state = .done) := by
  cases q
  case csrRead => exact (h.step i).served_csrRead
  case csrWrite => rfl
  case s0Read => exact h.served_s0Read_step hr
  case s0Write => rfl

/-- Only `RDREG`, `RDMEM1` and `WRMEM2` serve a request. -/
theorem Inv.served_step_none (h : s.Inv) (hr : i.rst = false) (hrdreg : s.core.state ≠ .rdreg)
    (hrdmem : s.core.state ≠ .rdmem1) (hwrmem : s.core.state ≠ .wrmem2) (q : Request) :
    served q (s.step v i) = false := by
  have h0 : (s.step v i).rdreg.state = .idle := h.idle .rdreg hrdreg
  have h3 : (s.step v i).wrmem.state = .idle := h.idle .wrmem hwrmem
  rw [h.served_step hr, h0, h3]
  cases q <;> simp [hrdmem]

/-- A clock of `IDLE` makes the accepted request pending. -/
theorem Inv.pending_step_idle (h : s.Inv) (hhit : s.bufferHit v = false) (hr : i.rst = false)
    (hs : s.core.state = .idle) : (s.step v i).pending = s.accepts := by
  have h0 : (s.step v i).rdreg.state = .idle := h.idle .rdreg (by simp [hs])
  have h3 : (s.step v i).wrmem.state = .idle := h.idle .wrmem (by simp [hs])
  unfold pending accepts
  rw [h0, h3, step_core, coreStep_eq_registers hr]
  simp only [registers, hs, Core.dispatch, Core.dispatchRow, hhit]
  cases s.core.edges.regrRise <;> cases s.core.edges.regwRise <;>
    cases s.core.edges.memrRise <;> cases s.core.edges.memwRise <;> rfl

/-- A clock that serves at most the pending request. -/
def ServesPending {w : ℕ} (s s' : Ctrl w) : Prop :=
  s'.pending = s.pending ∧ (∀ q, served q s' = false) ∨
    s'.pending = none ∧ ∀ q, served q s' = decide (s.pending = some q)

/-- A clock that serves the pending request `p`, if any, exactly if `d`. -/
theorem ServesPending.of {w : ℕ} {s s' : Ctrl w} {p : Option Request} {d : Bool}
    (hnow : s.pending = p) (hnext : s'.pending = if d then none else p)
    (hserved : ∀ q, served q s' = (d && decide (p = some q))) : ServesPending s s' := by
  subst hnow
  cases d
  · exact .inl ⟨hnext, hserved⟩
  · exact .inr ⟨hnext, hserved⟩

/-- A machine that works for the request `q` alone serves it with the clock that takes it to
`STATE_DONE`. -/
theorem Inv.servesPending_home (h : s.Inv) (hr : i.rst = false) (k : Transaction) {q : Request}
    (hs : s.core.state = k.home)
    (hpend : ∀ s' : Ctrl v.width, s'.core.state = k.home →
      s'.pending = if (s'.bus k).state = .done then none else some q)
    (hback : (s.bus k).stmEnd = true → (s.step v i).pending = none)
    (hserved : ∀ p, served p (s.step v i) =
      (decide (((s.step v i).bus k).state = .done) && decide (some q = some p))) :
    ServesPending s (s.step v i) := by
  cases he : (s.bus k).stmEnd
  case true =>
    have hd := h.done k hs he
    have hrest : ((s.step v i).bus k).state = .idle := ((h.next hr k).done hd).1
    refine .of (d := false) (p := none) (by simp [hpend s hs, hd]) (hback he) fun p => ?_
    rw [hserved, hrest]
    rfl
  case false =>
    have hnd : (s.bus k).state ≠ .done := fun hd =>
      Bool.false_ne_true (he.symm.trans (((h.bus k).stmEnd (by simp [hd])).2 hd))
    have hst : (s.step v i).core.state = k.home := by
      rw [step_core, coreStep_eq_registers hr]
      exact of_decide_eq_true ((requester k (h.tmp k)).stay (decide_eq_true hs) he)
    refine .of (d := decide (((s.step v i).bus k).state = .done)) (p := some q)
      (by simp [hpend s hs, hnd]) ?_ hserved
    simp only [hpend _ hst, decide_eq_true_eq]

/-- `RDREG` serves its request with the clock that takes `rdreg_stm` to `STATE_DONE`. -/
theorem Inv.servesPending_rdreg (h : s.Inv) (hr : i.rst = false) (hs : s.core.state = .rdreg) :
    ServesPending s (s.step v i) := by
  have h3 : (s.step v i).wrmem.state = .idle := h.idle .wrmem (by simp [hs])
  refine h.servesPending_home hr .rdreg (q := .csrRead) hs (fun s' hs' => ?_) (fun he => ?_)
    fun p => ?_
  · simp only [Transaction.home] at hs'
    simp [pending, hs']
  · simp only [bus_rdreg, RdregStm.bus_stmEnd] at he
    simp [pending, coreStep_eq_registers hr, registers, hs, he]
  · rw [h.served_step hr, h3, hs]
    cases p <;> simp [-step_rdreg]

/-- `WRMEM2` serves its request with the clock that takes `wrmem_stm` to `STATE_DONE`. -/
theorem Inv.servesPending_wrmem2 (h : s.Inv) (hr : i.rst = false)
    (hs : s.core.state = .wrmem2) : ServesPending s (s.step v i) := by
  have h0 : (s.step v i).rdreg.state = .idle := h.idle .rdreg (by simp [hs])
  refine h.servesPending_home hr .wrmem (q := .s0Write) hs (fun s' hs' => ?_) (fun he => ?_)
    fun p => ?_
  · simp only [Transaction.home] at hs'
    simp [pending, hs']
  · simp only [bus_wrmem, WrmemStm.bus_stmEnd] at he
    simp [pending, coreStep_eq_registers hr, registers, hs, he]
  · rw [h.served_step hr, h0, hs]
    cases p <;> simp [-step_wrmem]

/-- `RDMEM1` serves its request at once. -/
theorem Inv.servesPending_rdmem1 (h : s.Inv) (hr : i.rst = false)
    (hs : s.core.state = .rdmem1) : ServesPending s (s.step v i) := by
  right
  constructor
  · simp [pending, coreStep_eq_registers hr, registers, hs]
  · intro q
    have h0 : (s.step v i).rdreg.state = .idle := h.idle .rdreg (by simp [hs])
    have h3 : (s.step v i).wrmem.state = .idle := h.idle .wrmem (by simp [hs])
    rw [h.served_step hr, h0, h3, pending, hs]
    cases q <;> rfl

/-- Outside `IDLE` a clock keeps the pending request or serves it. -/
theorem Inv.servesPending (h : s.Inv) (hhit : s.bufferHit v = false) (hr : i.rst = false)
    (hs : s.core.state ≠ .idle) : ServesPending s (s.step v i) := by
  have hnone := h.served_step_none hr (i := i)
  have hst : (s.step v i).core.state = (s.registers v i).state := by
    rw [step_core, coreStep_eq_registers hr]
  have hrow : (s.step v i).core.row = (s.registers v i).row := by
    rw [step_core, coreStep_eq_registers hr]
  cases hs' : s.core.state
  case idle => exact absurd hs' hs
  case rdreg => exact h.servesPending_rdreg hr hs'
  case rdmem1 => exact h.servesPending_rdmem1 hr hs'
  case wrmem2 => exact h.servesPending_wrmem2 hr hs'
  all_goals
    refine .inl ⟨?_, hnone (by simp [hs']) (by simp [hs']) (by simp [hs'])⟩
    unfold pending
    rw [hst, hrow, hs']
    simp only [registers, hs', hhit]
  case wrmem1 =>
    have h3 : (s.step v i).wrmem.state = .idle := h.idle .wrmem (by simp [hs'])
    rw [h3]
    rfl
  case rdmem2 => cases s.rdmem.stmEnd <;> cases s.core.row <;> rfl
  case accdly => split_ifs <;> rfl

/-- One clock : a request becomes pending when it is accepted and stops being so when it is
served. -/
theorem Inv.served_balance (h : s.Inv) (hhit : s.bufferHit v = false) (hr : i.rst = false)
    (q : Request) :
    (if (s.step v i).pending = some q then 1 else 0) + (if served q (s.step v i) then 1 else 0) =
      (if s.pending = some q then 1 else 0) + if s.accepts = some q then 1 else 0 := by
  by_cases hs : s.core.state = .idle
  · have hnone := h.served_step_none hr (i := i) (by simp [hs]) (by simp [hs]) (by simp [hs]) q
    have hnow : s.pending = none := by simp [pending, hs]
    rw [h.pending_step_idle hhit hr hs, hnone, hnow]
    simp
  · rw [accepts_of_not_idle hs]
    rcases h.servesPending hhit hr hs with ⟨hp, hq⟩ | ⟨hp, hq⟩
    · simp [hp, hq]
    · simp [hp, hq]

end served

/-! ## Along a run -/

namespace Run

section ports

variable {v : Variant} (r : Ctrl.Run v)

/-- The port of a request along a run. -/
def port (q : Request) (t : ℕ) : Bool :=
  q.port (r.input t)

variable {r} (hr : ∀ t, (r.input t).rst = false)
include hr

theorem edges_succ (t : ℕ) :
    (r.state (t + 1)).core.edges = (r.state t).core.edges.sample (r.input t) := by
  rw [r.clock, step_core, coreStep_eq_registers (hr t)]
  rfl

/-- The sampling register is the port one cycle earlier. -/
theorem level_succ (q : Request) (t : ℕ) :
    q.level (r.state (t + 1)).core.edges = Run.port r q t := by
  rw [edges_succ hr, q.level_sample]
  rfl

theorem level_eq (q : Request) (t : ℕ) :
    q.level (r.state t).core.edges = false ↔ t = 0 ∨ Run.port r q (t - 1) = false := by
  cases t with
  | zero => simp [(AfterReset.idle r.start).1, Core.reset]
  | succ t => simp [level_succ hr]

/-- The edge test sees a port go up one cycle later. -/
theorem rise_succ (q : Request) (t : ℕ) :
    q.rise (r.state (t + 1)).core.edges = true ↔ Rising (Run.port r q) t := by
  rw [edges_succ hr, q.rise_sample, Bool.and_eq_true, Bool.not_eq_true', level_eq hr]
  rfl

/-- An edge in cycle `t` is a port that went up in the cycle before. -/
theorem rise_rising {q : Request} {t : ℕ} (h : q.rise (r.state t).core.edges = true) :
    ∃ x, t = x + 1 ∧ Rising (Run.port r q) x := by
  cases t with
  | zero => simp [(AfterReset.idle r.start).1, Core.reset] at h
  | succ x => exact ⟨x, rfl, (rise_succ hr q x).1 h⟩

/-- The edges seen up to cycle `t` are the pulses that began before it. -/
theorem count_rise (q : Request) (t : ℕ) :
    Nat.count (fun u => q.rise (r.state u).core.edges = true) (t + 1) =
      pulses (Run.port r q) t := by
  have h0 : q.rise (r.state 0).core.edges = false := by
    simp [(AfterReset.idle r.start).1, Core.reset]
  rw [Nat.count_succ', h0]
  simp only [Bool.false_eq_true, if_false, Nat.add_zero, pulses]
  congr 1
  funext u
  exact propext (rise_succ hr q u)

end ports

section served

variable {r : Ctrl.Run packaged} (hr : ∀ t, (r.input t).rst = false)
include hr

/-- What was accepted is what was served and what is pending. -/
theorem served_balance (q : Request) (t : ℕ) :
    Nat.count (fun u => served q (r.state u) = true) (t + 1) +
        (if (r.state t).pending = some q then 1 else 0) =
      Nat.count (fun u => (r.state u).accepts = some q) t := by
  have hstart := AfterReset.idle r.start
  have h0 : (r.state 0).pending = none := by simp [pending, hstart.1, Core.reset]
  have hp : served q (r.state 0) = false := by
    cases q
    case csrRead =>
      have hrest : (r.state 0).rdreg.state = .idle := hstart.2.2 .rdreg
      simp [(r.inv 0).served_csrRead, hrest]
    case csrWrite => rfl
    case s0Read => simp [served, hstart.1, Core.reset]
    case s0Write =>
      have hrest : (r.state 0).wrmem.state = .idle := hstart.2.2 .wrmem
      simp [served, hrest]
  refine count_balance (p := fun u => served q (r.state u) = true)
    (q := fun u => (r.state u).accepts = some q)
    (f := fun u => if (r.state u).pending = some q then 1 else 0) (by simp [hp]) (by simp [h0])
    (fun u => ?_) t
  rw [r.clock]
  exact (r.inv u).served_balance rfl (hr u) q

/-- In `IDLE` every accepted request is served. -/
theorem served_eq_accepted {t : ℕ} (hs : (r.state t).core.state = .idle) (q : Request) :
    Nat.count (fun u => served q (r.state u) = true) (t + 1) =
      Nat.count (fun u => (r.state u).accepts = some q) t := by
  have hp : (r.state t).pending = none := by simp [pending, hs]
  simpa [hp] using served_balance hr q t

end served

end Run

end Ctrl

end HyperRam
