import HyperRam.Clocked.Events
import HyperRam.Coupling

/-!
# Safety of the shared bus

Three machines share one set of pads through a multiplexer that looks at `stm_start` only. Nothing
in it keeps two machines apart, that is left to the main process, which raises the start bit of a
machine in the machine's own state and lowers it when the machine is done.

`Inv.start_cases` says which of the bits can be up, at most one and in its own state. From it and
the handshake comes where a machine can be (`Inv.active`, `Inv.done`), stated once for all three by
their `Transaction`, and what a clock does to it (`Inv.rest`, `Inv.work`, `Inv.raises`). The modules
on progress, traces and timing start from these.

Two bus properties of the packaged IP follow. A machine runs only in its own state of the
controller, and a completion is never a leftover of a transaction before (`ip_handshake`) : a
machine that is busy in its state became so in the same visit of it (`bus_startedInVisit`), since
being busy only ever rises there. And the controller never drives `dq` or `rwds` while the device
does (`ip_no_contention`) : the output registers are one clock behind the machine that has the bus,
so each conjunct follows from the invariant of that machine one clock earlier
(`Inv.noContention_step`). Both hold under any inputs and with resets at any time.
-/

namespace HyperRam

open Clocked

namespace Ctrl

section inv

variable {w : ℕ} {s : Ctrl w}

/-- At most one bit of `stm_start` is up, in the state of the machine it starts. -/
theorem Inv.start_cases (h : s.Inv) :
    s.core.stmStart = ⟨false, false, false, false⟩ ∨
      s.core.state = .rdreg ∧ s.core.stmStart = ⟨true, false, false, false⟩ ∨
      s.core.state = .wrreg ∧ s.core.stmStart = ⟨false, true, false, false⟩ ∨
      s.core.state = .rdmem2 ∧ s.core.stmStart = ⟨false, false, true, false⟩ ∨
      s.core.state = .wrmem2 ∧ s.core.stmStart = ⟨false, false, false, true⟩ := by
  have h0 := (h.handshake .rdreg).start_home
  have h1 := h.startWrreg
  have h2 := (h.handshake .rdmem).start_home
  have h3 := (h.handshake .wrmem).start_home
  rcases hst : s.core.stmStart with ⟨b0, b1, b2, b3⟩
  cases hs : s.core.state <;> simp_all

variable (h : s.Inv) (k : Transaction)
include h

/-- A start bit is up in the state of its machine. -/
theorem Inv.home (hst : s.core.start k = true) : s.core.state = k.home :=
  of_decide_eq_true ((h.handshake k).start_home hst)

/-- A machine runs in its own state of the controller only, with its start bit up. -/
theorem Inv.active (hb : (s.bus k).state ≠ .idle) :
    s.core.state = k.home ∧ s.core.start k = true := by
  have hst := (h.handshake k).busy_start (FsmState.busy_iff.2 hb)
  exact ⟨h.home k hst, hst⟩

/-- Without its start bit a machine is in `STATE_IDLE`. -/
theorem Inv.idle_of_not_start (hst : s.core.start k = false) : (s.bus k).state = .idle := by
  by_contra hb
  exact Bool.false_ne_true (hst.symm.trans (h.active k hb).2)

/-- Away from its state a machine is in `STATE_IDLE`. -/
theorem Inv.idle_of_away (hs : s.core.state ≠ k.home) : (s.bus k).state = .idle := by
  by_contra hb
  exact hs (h.active k hb).1

/-- In its state a raised `stm_end` is the machine in `STATE_DONE`. -/
theorem Inv.done (hs : s.core.state = k.home) (he : (s.bus k).stmEnd = true) :
    (s.bus k).state = .done := by
  have hb := (h.handshake k).fin_busy (decide_eq_true hs) he
  exact (h.bus k).done_of_stmEnd (FsmState.busy_iff.1 hb) he

/-- At its end a transaction still has its start bit up. -/
theorem Inv.end_start (hs : s.core.state = k.home) (he : (s.bus k).stmEnd = true) :
    s.core.start k = true :=
  (h.active k (by rw [h.done k hs he]; simp)).2

omit k in
/-- At most one machine is outside `STATE_IDLE`. -/
theorem Inv.one_active :
    [s.rdreg.state.busy, s.rdmem.state.busy, s.wrmem.state.busy].count true ≤ 1 := by
  have h0 := (h.handshake .rdreg).busy_start
  have h2 := (h.handshake .rdmem).busy_start
  have h3 := (h.handshake .wrmem).busy_start
  cases hb0 : s.rdreg.state.busy <;> cases hb2 : s.rdmem.state.busy <;>
    cases hb3 : s.wrmem.state.busy <;>
    rcases h.start_cases with hb | ⟨-, hb⟩ | ⟨-, hb⟩ | ⟨-, hb⟩ | ⟨-, hb⟩ <;> simp_all

end inv

/-! ## Completions belong to the visit -/

section visit

variable {v : Variant} (r : Ctrl.Run v)

/-- In cycle `t` the machine with activity flag `busy` is in a transaction it started while
the controller was in its present stay in state `home`. -/
def StartedInVisit (home : TopState) (busy : Ctrl v.width → Bool) (t : ℕ) : Prop :=
  ∃ u < t, busy (r.state u) = false ∧ (∀ x, u < x → x ≤ t → busy (r.state x) = true) ∧
    ∀ x, u ≤ x → x ≤ t → (r.state x).core.state = home

/-- A machine that only becomes busy after a clock in `home`, and is busy in `home` only, is
in a transaction of the present visit whenever it is busy. -/
theorem startedInVisit {home : TopState} {busy : Ctrl v.width → Bool}
    (h0 : busy (r.state 0) = false)
    (hhome : ∀ t, busy (r.state t) = true → (r.state t).core.state = home)
    (hrise : ∀ t, busy (r.state t) = false → busy (r.state (t + 1)) = true →
      (r.state t).core.state = home) {t : ℕ} (hb : busy (r.state t) = true) :
    StartedInVisit r home busy t := by
  obtain ⟨u, hu, hgo, hnb, hx⟩ := opened_by (p := fun t => busy (r.state t) = true)
    (q := fun t => (r.state t).core.state = home) (by simp [h0])
    (fun t h => hrise t (by simpa using h)) t hb
  refine ⟨u, hu, by simpa using hnb, hx, fun x hux hxt => ?_⟩
  rcases Nat.lt_or_ge u x with hlt | hge
  · exact hhome x (hx x hlt hxt)
  · obtain rfl : x = u := by omega
    exact hgo

/-- A reset clears the two processes and leaves every machine in `STATE_IDLE`. -/
theorem AfterReset.idle {s : Ctrl v.width} (h : AfterReset v s) :
    s.core = .reset ∧ s.pads = .reset ∧ ∀ k, (s.bus k).state = .idle := by
  obtain ⟨s₀, i, hr, rfl⟩ := h
  exact ⟨coreStep_reset hr, padsStep_reset hr, bus_reset hr⟩

section clock

variable {s : Ctrl v.width} {i : Inputs v.width} (h : s.Inv) (k : Transaction)
include h

/-- Without its start bit a machine stays in `STATE_IDLE`. -/
theorem Inv.rest (hst : s.core.start k = false) : ((s.step v i).bus k).state = .idle := by
  cases hr : i.rst
  case true => exact bus_reset hr k
  case false => exact (h.next hr k).rest (h.idle_of_not_start k hst) hst

/-- Away from its state a clock leaves a machine in `STATE_IDLE`. -/
theorem Inv.idle (hs : s.core.state ≠ k.home) : ((s.step v i).bus k).state = .idle :=
  h.rest k (Bool.eq_false_iff.2 fun hst => hs (h.home k hst))

/-- A machine at work that is not at its end stays at work. -/
theorem Inv.work (hr : i.rst = false) (hb : (s.bus k).state ≠ .idle)
    (hd : (s.bus k).state ≠ .done) : ((s.step v i).bus k).state ≠ .idle :=
  (h.next hr k).work (h.bus k) hb ((h.bus k).not_stmEnd hb hd)

/-- With its start bit up a machine that is not at its end is at work after the clock. -/
theorem Inv.starts_work (hr : i.rst = false) (hst : s.core.start k = true)
    (he : (s.bus k).stmEnd = false) : ((s.step v i).bus k).state ≠ .idle := by
  by_cases hb : (s.bus k).state = .idle
  · rw [((h.next hr k).idle hb).1, if_pos hst]
    simp
  · exact (h.next hr k).work (h.bus k) hb he

/-- A start bit that is up after a clock is up since this clock found its machine at work or waited
for its direction register. -/
theorem Inv.raises (hst : (s.registers v i).start k = true) :
    s.core.state = k.home ∧ (s.bus k).stmEnd = false ∧ s.core.tmp k = true := by
  have hq := requester (i := i) k (h.tmp k)
  have hs : s.core.state = k.home := by
    by_contra hs
    have hup := hq.away (decide_eq_false hs)
    exact hs (h.home k (hup.symm.trans hst))
  have hend : (s.bus k).stmEnd = false := Bool.eq_false_iff.2 fun he =>
    Bool.false_ne_true ((hq.leave (decide_eq_true hs) he).2.symm.trans hst)
  refine ⟨hs, hend, ?_⟩
  cases k <;> simp_all [registers]

end clock

/-- An active machine works for the present stay in its state. -/
theorem bus_startedInVisit (k : Transaction) {t : ℕ} (hb : ((r.state t).bus k).state.busy = true) :
    StartedInVisit r k.home (fun s => (s.bus k).state.busy) t := by
  refine startedInVisit r ?_ (fun t hb => ?_) (fun t hb hb' => ?_) hb
  · rw [(AfterReset.idle r.start).2.2 k]
    rfl
  · exact ((r.inv t).active k (FsmState.busy_iff.1 hb)).1
  · by_contra hs
    rw [r.clock, (r.inv t).idle k hs] at hb'
    exact Bool.false_ne_true hb'

end visit

/-- The handshake discipline of cycle `t` of a run. -/
structure HandshakeSafe {v : Variant} (r : Ctrl.Run v) (t : ℕ) : Prop where
  /-- At most one bit of `stm_start` is up. -/
  one_start : let b := (r.state t).core.stmStart
    [b.rdreg, b.wrreg, b.rdmem, b.wrmem].count true ≤ 1
  start_rdreg : (r.state t).core.stmStart.rdreg = true → (r.state t).core.state = .rdreg
  start_wrreg : (r.state t).core.stmStart.wrreg = true → (r.state t).core.state = .wrreg
  start_rdmem : (r.state t).core.stmStart.rdmem = true → (r.state t).core.state = .rdmem2
  start_wrmem : (r.state t).core.stmStart.wrmem = true → (r.state t).core.state = .wrmem2
  active_rdreg : (r.state t).rdreg.state ≠ .idle → (r.state t).core.state = .rdreg
  active_rdmem : (r.state t).rdmem.state ≠ .idle → (r.state t).core.state = .rdmem2
  active_wrmem : (r.state t).wrmem.state ≠ .idle → (r.state t).core.state = .wrmem2
  /-- At most one machine is outside `STATE_IDLE`. -/
  one_active : [(r.state t).rdreg.state.busy, (r.state t).rdmem.state.busy,
    (r.state t).wrmem.state.busy].count true ≤ 1
  /-- A completion the controller takes is `STATE_DONE` of this visit's transaction. -/
  end_rdreg : (r.state t).core.state = .rdreg → (r.state t).rdreg.stmEnd = true →
    (r.state t).rdreg.state = .done ∧ StartedInVisit r .rdreg (·.rdreg.state.busy) t
  end_rdmem : (r.state t).core.state = .rdmem2 → (r.state t).rdmem.stmEnd = true →
    (r.state t).rdmem.state = .done ∧ StartedInVisit r .rdmem2 (·.rdmem.state.busy) t
  end_wrmem : (r.state t).core.state = .wrmem2 → (r.state t).wrmem.stmEnd = true →
    (r.state t).wrmem.state = .done ∧ StartedInVisit r .wrmem2 (·.wrmem.state.busy) t

/-- In every cycle of every run from reset, under any inputs and resets, the start bits are
exclusive, a machine is active in its own state of the controller only, and a completion
taken by the controller belongs to the transaction it started in this visit. -/
theorem ip_handshake (r : Ctrl.Run packaged) (t : ℕ) : HandshakeSafe r t := by
  have h := r.inv t
  have hend (k : Transaction) (hs : (r.state t).core.state = k.home)
      (he : ((r.state t).bus k).stmEnd = true) : ((r.state t).bus k).state = .done ∧
        StartedInVisit r k.home (fun s => (s.bus k).state.busy) t := by
    have hd := h.done k hs he
    exact ⟨hd, bus_startedInVisit r k (by rw [hd]; rfl)⟩
  constructor
  case one_start =>
    rcases h.start_cases with hb | ⟨-, hb⟩ | ⟨-, hb⟩ | ⟨-, hb⟩ | ⟨-, hb⟩ <;> simp [hb]
  case start_rdreg => exact h.home .rdreg
  case start_wrreg => exact h.startWrreg
  case start_rdmem => exact h.home .rdmem
  case start_wrmem => exact h.home .wrmem
  case active_rdreg => exact fun hb => (h.active .rdreg hb).1
  case active_rdmem => exact fun hb => (h.active .rdmem hb).1
  case active_wrmem => exact fun hb => (h.active .wrmem hb).1
  case one_active => exact h.one_active
  case end_rdreg => exact hend .rdreg
  case end_rdmem => exact hend .rdmem
  case end_wrmem => exact hend .wrmem

/-! ## Bus contention -/

/-- The controller does not drive the bus against the device. -/
structure NoContention {w : ℕ} (s : Ctrl w) : Prop where
  oeData_csn : s.pads.oeData = true → s.pads.csn = false
  rwdsOe_write : s.pads.rwdsOe = true →
    s.pads.oeData = true ∧ s.pads.csn = false ∧ s.core.state = .wrmem2
  rwdsOe_ca : s.rdreg.state = .ca ∨ s.rdmem.state = .ca ∨ s.wrmem.state = .ca →
    s.pads.rwdsOe = false
  oeData_rdreg : s.rdreg.state = .run → 1 ≤ s.rdreg.counter → s.pads.oeData = false
  oeData_rdmem : s.rdmem.state = .run → 1 ≤ s.rdmem.counter → s.pads.oeData = false

theorem noContention_reset {w : ℕ} {s : Ctrl w} (h : s.pads = .reset) : NoContention s := by
  constructor <;> simp [h, Pads.reset]

section step

variable {v : Variant} {s : Ctrl v.width} {i : Inputs v.width}

/-- What the output registers take over outside reset, by the start bit that is up. -/
theorem padsStep_enables (hr : i.rst = false) :
    (s.padsStep v i).oeData = s.mux v s.rdreg.oe false s.rdmem.oe s.wrmem.oe false ∧
      (s.padsStep v i).csn = s.mux v s.rdreg.csn false s.rdmem.csn s.wrmem.csn true ∧
      (s.padsStep v i).rwdsOe = (s.core.stmStart.wrmem && s.wrmem.rwdsOe) := by
  unfold padsStep
  rw [if_neg (by simp [hr])]
  cases s.core.stmStart.wrmem <;> simp

/-- With its start bit up a machine has the pads. -/
theorem Inv.padsStep_bus (h : s.Inv) (k : Transaction) (hr : i.rst = false)
    (hst : s.core.start k = true) :
    (s.padsStep v i).csn = (s.bus k).csn ∧ (s.padsStep v i).oeData = (s.bus k).oe ∧
      (s.padsStep v i).oeClk = (s.bus k).oeClk ∧
      (s.padsStep v i).datain = (s.bus k).words slot0 := by
  have hbits := h.start_cases
  cases k <;> simp only [Core.start] at hst <;>
    rcases hbits with hb | ⟨-, hb⟩ | ⟨-, hb⟩ | ⟨-, hb⟩ | ⟨-, hb⟩ <;>
    simp only [hb, Bool.false_eq_true] at hst <;>
    simp [padsStep, mux, hr, hb] <;> rfl

/-- An output enable is up in the output registers only if it was in the machine that has
the bus, which selects the device. -/
theorem Inv.oeData_step (h : s.Inv) (hr : i.rst = false)
    (ho : (s.padsStep v i).oeData = true) : (s.padsStep v i).csn = false := by
  obtain ⟨hoe, hcsn, -⟩ := padsStep_enables (s := s) hr
  rw [hoe] at ho
  rw [hcsn]
  unfold mux at *
  rcases h.start_cases with hb | ⟨-, hb⟩ | ⟨-, hb⟩ | ⟨-, hb⟩ | ⟨-, hb⟩ <;> simp [hb] at ho ⊢
  · exact h.rdreg.csn.2 (.inl (h.rdreg.oe.1 ho).1)
  · exact h.rdmem.csn.2 (.inl (h.rdmem.oe.1 ho).1)
  · rcases h.wrmem.oe.1 ho with ⟨hs, -⟩ | ⟨hs, -⟩ <;> simp [h.wrmem.csn, hs]

/-- `rwds_oe` follows `wrmem_stm` in the data part of its `STATE_RUN`. -/
theorem Inv.rwdsOe_step (h : s.Inv) (hr : i.rst = false)
    (ho : (s.padsStep v i).rwdsOe = true) :
    s.core.state = .wrmem2 ∧ s.core.stmStart = ⟨false, false, false, true⟩ ∧
      s.wrmem.state = .run ∧ 13 < s.wrmem.counter := by
  obtain ⟨-, -, hrw⟩ := padsStep_enables (s := s) hr
  rw [hrw, Bool.and_eq_true] at ho
  obtain ⟨hrun, hc⟩ := h.wrmem.rwdsOe.1 ho.2
  refine ⟨h.home .wrmem ho.1, ?_, hrun, hc⟩
  rcases h.start_cases with hb | ⟨-, hb⟩ | ⟨-, hb⟩ | ⟨-, hb⟩ | ⟨-, hb⟩ <;> simp [hb] at ho ⊢

/-- A machine in `STATE_RUN` past its first clock was there before. -/
theorem Inv.run_before (h : s.Inv) (k : Transaction) (hr : i.rst = false)
    (hs : ((s.step v i).bus k).state = .run) (hc : 1 ≤ ((s.step v i).bus k).counter) :
    (s.bus k).state = .run := by
  by_contra hne
  rw [(h.next hr k).enter_run (h.bus k) hne hs] at hc
  omega

/-- A read machine in `STATE_RUN` leaves the data pads alone. -/
theorem Inv.oeData_of_read_run (h : s.Inv) (hr : i.rst = false)
    (hs : s.rdreg.state = .run ∨ s.rdmem.state = .run) : (s.padsStep v i).oeData = false := by
  rw [(padsStep_enables hr).1, mux]
  rcases hs with hs | hs
  · have hst : s.core.stmStart.rdreg = true := (h.active .rdreg (by simp [hs])).2
    simp only [hst, if_true]
    simpa [hs] using h.rdreg.oe
  · have hst : s.core.stmStart.rdmem = true := (h.active .rdmem (by simp [hs])).2
    have hoe : s.rdmem.oe = false := by simpa [hs] using h.rdmem.oe
    rcases h.start_cases with hb | ⟨-, hb⟩ | ⟨-, hb⟩ | ⟨-, hb⟩ | ⟨-, hb⟩ <;> simp_all

theorem Inv.noContention_step (h : s.Inv) : NoContention (s.step v i) := by
  cases hr : i.rst
  case true => exact noContention_reset (padsStep_reset hr)
  obtain ⟨hoe, -, -⟩ := padsStep_enables (s := s) hr
  constructor
  case oeData_csn => exact h.oeData_step hr
  case rwdsOe_write =>
    intro ho
    obtain ⟨hs, hb, hrun, hc⟩ := h.rwdsOe_step hr ho
    have hend : s.wrmem.stmEnd = false := by
      simpa [hrun] using h.wrmem.stmEnd (by simp [hrun])
    have hdata : (s.padsStep v i).oeData = true := by
      simpa [hoe, mux, hb] using h.wrmem.oe.2 (.inr ⟨hrun, hc⟩)
    refine ⟨hdata, h.oeData_step hr hdata, ?_⟩
    simp [coreStep_eq_registers hr, registers, hs, hend]
  case rwdsOe_ca =>
    intro hca
    by_contra ho
    obtain ⟨hs, hb, hrun, -⟩ := h.rwdsOe_step hr (by simpa using ho)
    rcases hca with hca | hca | hca
    · have hidle : (s.step v i).rdreg.state = .idle := h.idle .rdreg (by simp [hs])
      exact absurd (hidle.symm.trans hca) (by simp)
    · have hidle : (s.step v i).rdmem.state = .idle := h.idle .rdmem (by simp [hs])
      exact absurd (hidle.symm.trans hca) (by simp)
    · simp only [step_wrmem, WrmemStm.step, hrun] at hca
      split_ifs at hca
  case oeData_rdreg =>
    intro hrun hc
    have hpre := h.run_before .rdreg hr hrun (by simpa [BitVec.le_def] using hc)
    exact h.oeData_of_read_run hr (.inl hpre)
  case oeData_rdmem =>
    intro hrun hc
    have hpre := h.run_before .rdmem hr hrun (by simpa [BitVec.le_def] using hc)
    exact h.oeData_of_read_run hr (.inr hpre)

end step

/-- In every cycle of every run from reset, under any inputs, the packaged controller drives
`dq` and `rwds` only while the device is selected and does not drive them itself. -/
theorem ip_no_contention (r : Ctrl.Run packaged) : ∀ t, NoContention (r.state t)
  | 0 => noContention_reset (AfterReset.idle r.start).2.1
  | t + 1 => by
    rw [r.clock]
    exact (r.inv t).noContention_step

end Ctrl

end HyperRam
