import HyperRam.Progress

/-!
# Timing of chip select and clock

A machine selects the chip in `STATE_CA` and `STATE_RUN`, and one clock later `csn` is low
(`Inv.csn_step`). Two results about these pads.

The memory clock outlives the selection by one cycle after a read transaction, and in no other cycle
(`ip_clockSelected_iff`) : the read machines leave their clock enable up in `STATE_DONE`, where
they have raised `csn` already, while `wrmem_stm` lowers it together with raising `csn`
(`WrmemStm.Inv.clock`).

And `csn` stays high between transactions for the clocks the controller takes from `IDLE` to the
next selection, after a line write for those of `ACCDLY` before them (`ip_csn_recovery`). `phase`
counts the way from `IDLE` : into a state that starts a machine, to a raised start bit, to a machine
that selects the chip. While all machines rest a clock goes at most one phase on
(`Inv.phase_step`), and a machine that is done takes everything back to phase zero
(`Inv.rest_of_done`). So at phase `n` the pad has been high for `n + 1` cycles (`highFor_phase`).
Behind a line write `Recovering` adds the clocks of `ACCDLY`, which `acc_counter` counts from the
value that `IDLE` loads it with (`accLoaded`).

The results are along runs with resets, except that the recovery excludes `csr_write`, which
leads to a state without a way back.
-/

namespace HyperRam

open Clocked

/-- A read machine keeps its clock up in `STATE_DONE`, where `csn` is high. -/
theorem FsmState.clock_iff {state : FsmState} {oeClk csn : Bool} {p : Prop}
    (hclk : oeClk = true ↔ state = .ca ∧ p ∨ state = .run ∨ state = .done)
    (hcsn : csn = false ↔ state = .ca ∨ state = .run) :
    (oeClk = true → csn = false) ↔ state ≠ .done := by
  rw [hclk, hcsn]
  cases state <;> simp

/-- `wrmem_stm` lowers its clock together with raising `csn`. -/
theorem WrmemStm.Inv.clock {m : WrmemStm} (h : m.Inv) : m.oeClk = true → m.csn = false := by
  rw [h.oeClk, h.csn]
  cases m.state <;> simp

namespace Ctrl

/-! ## The clock of a deselected chip -/

/-- The memory clock only runs while the chip is selected. -/
def ClockSelected {w : ℕ} (s : Ctrl w) : Prop :=
  s.pads.oeClk = true → s.pads.csn = false

section clock

variable {v : Variant} {s : Ctrl v.width} {i : Inputs v.width}

/-- A clock leaves `oe_clk` up without selection iff a read machine is in `STATE_DONE`. -/
theorem Inv.clockSelected_step (h : s.Inv) : ClockSelected (s.step v i) ↔
    (i.rst = false → s.rdreg.state ≠ .done ∧ s.rdmem.state ≠ .done) := by
  cases hr : i.rst
  case true => simp [ClockSelected, padsStep_reset hr, Pads.reset]
  case false =>
    have hrest (k : Transaction) (hst : s.core.start k = false) : (s.bus k).state ≠ .done :=
      fun hd => absurd ((h.idle_of_not_start k hst).symm.trans hd) (by simp)
    have h0 : s.core.stmStart.rdreg = false → s.rdreg.state ≠ .done := hrest .rdreg
    have h2 : s.core.stmStart.rdmem = false → s.rdmem.state ≠ .done := hrest .rdmem
    simp only [ClockSelected, step_pads, padsStep, hr, mux, Bool.false_eq_true, if_false,
      forall_const]
    rcases h.start_cases with hb | ⟨-, hb⟩ | ⟨-, hb⟩ | ⟨-, hb⟩ | ⟨-, hb⟩ <;>
      rw [hb] at h0 h2 ⊢
    · simpa using ⟨h0 rfl, h2 rfl⟩
    · simpa [h2 rfl] using FsmState.clock_iff h.rdreg.oeClk h.rdreg.csn
    · simpa using ⟨h0 rfl, h2 rfl⟩
    · simpa [h0 rfl] using FsmState.clock_iff h.rdmem.oeClk h.rdmem.csn
    · simpa [h0 rfl, h2 rfl] using h.wrmem.clock

end clock

/-- In a state of the packaged IP the memory clock runs without selection if and only if the
clock before found a read machine in `STATE_DONE`. -/
theorem ip_clockSelected_iff (r : Ctrl.Run packaged) (t : ℕ) : ClockSelected (r.state t) ↔
    ∀ u, t = u + 1 → (r.input u).rst = false →
      (r.state u).rdreg.state ≠ .done ∧ (r.state u).rdmem.state ≠ .done := by
  cases t with
  | zero => simp [ClockSelected, (AfterReset.idle r.start).2.1, Pads.reset]
  | succ u =>
    rw [r.clock, (r.inv u).clockSelected_step]
    constructor
    · rintro h x hx
      obtain rfl : u = x := by omega
      exact h
    · exact fun h => h u rfl

/-- `s0_read` in the first two cycles. -/
def readPulse (t : ℕ) : Inputs packaged.width :=
  { quiet with s0Read := t < 2 }

/-- A line read ends with a cycle of clock without selection. -/
theorem ip_clockSelected_fails :
    ¬∀ (r : Ctrl.Run packaged) t, ClockSelected (r.state t) := by
  intro h
  have hclk : ((ipRun readPulse).state 44).pads.oeClk = true := by decide +kernel
  have hcsn : ((ipRun readPulse).state 44).pads.csn = true := by decide +kernel
  exact absurd (hcsn.symm.trans (h (ipRun readPulse) 44 hclk)) (by simp)

/-! ## Recovery between transactions -/

section phase

variable {w : ℕ} (s : Ctrl w)

/-- A machine selects the chip. -/
def Selects : Prop :=
  ∃ k, (s.bus k).csn = false

/-- All machines are in `STATE_IDLE`. -/
def AtRest : Prop :=
  ∀ k, (s.bus k).state = .idle

/-- A start bit is up. -/
def Started : Prop :=
  ∃ k, s.core.start k = true

/-- The controller is in a state that starts a machine. -/
def AtHome : Prop :=
  ∃ k : Transaction, s.core.state = k.home

instance : Decidable s.Selects :=
  inferInstanceAs (Decidable (∃ k, (s.bus k).csn = false))

instance : Decidable s.Started :=
  inferInstanceAs (Decidable (∃ k, s.core.start k = true))

instance : Decidable s.AtHome :=
  inferInstanceAs (Decidable (∃ k : Transaction, s.core.state = k.home))

/-- Clocks on the way from `IDLE` to the selection of the chip. -/
def phase : ℕ :=
  if s.Selects then 3 else if s.Started then 2 else if s.AtHome then 1 else 0

variable {s}

theorem not_atHome (hs : s.core.state = .idle ∨ s.core.state = .accdly) : ¬s.AtHome := by
  rintro ⟨k, hk⟩
  rcases hs with hs | hs <;> cases k <;> exact absurd (hs.symm.trans hk) (by simp)

theorem Inv.not_selects_of_atRest (h : s.Inv) (hs : s.AtRest) : ¬s.Selects := by
  rintro ⟨k, hc⟩
  exact ((h.bus k).csn_iff.1 hc).1 (hs k)

/-- A machine that selects the chip was started. -/
theorem Inv.started_of_selects (h : s.Inv) (hs : s.Selects) : s.Started := by
  obtain ⟨k, hc⟩ := hs
  exact ⟨k, (h.active k ((h.bus k).csn_iff.1 hc).1).2⟩

/-- A start bit is up in the state of its machine. -/
theorem Inv.atHome_of_started (h : s.Inv) (hs : s.Started) : s.AtHome := by
  obtain ⟨k, hst⟩ := hs
  exact ⟨k, h.home k hst⟩

/-- A machine that is neither at rest nor selected has finished. -/
theorem Inv.done_of_not_atRest (h : s.Inv) (hrest : ¬s.AtRest) (hsel : ¬s.Selects) :
    ∃ k, (s.bus k).state = .done := by
  obtain ⟨k, hk⟩ := not_forall.1 hrest
  refine ⟨k, ?_⟩
  by_contra hd
  exact hsel ⟨k, (h.bus k).csn_iff.2 ⟨hk, hd⟩⟩

/-- A start bit is up or a machine at work in the states that start one only. -/
theorem Inv.phase_eq_zero (h : s.Inv) (hs : ¬s.AtHome) : s.AtRest ∧ s.phase = 0 := by
  have hrest : s.AtRest := fun k => h.idle_of_away k fun hst => hs ⟨k, hst⟩
  have hsel := h.not_selects_of_atRest hrest
  have hst : ¬s.Started := fun hst => hs (h.atHome_of_started hst)
  exact ⟨hrest, by simp only [phase, if_neg hsel, if_neg hst, if_neg hs]⟩

end phase

section phase

variable {v : Variant} {s : Ctrl v.width} {i : Inputs v.width}

/-- Outside `WRREG` `csn` goes low with the clock after a selection. -/
theorem Inv.csn_step (h : s.Inv) (hr : i.rst = false) (hw : s.core.state ≠ .wrreg) :
    (s.step v i).pads.csn = false ↔ s.Selects := by
  by_cases hst : s.Started
  · obtain ⟨k, hst⟩ := hst
    rw [step_pads, (h.padsStep_bus k hr hst).1]
    refine ⟨fun hc => ⟨k, hc⟩, ?_⟩
    rintro ⟨k', hc⟩
    have hhome := (h.active k' ((h.bus k').csn_iff.1 hc).1).1
    obtain rfl : k' = k := Transaction.home_injective (hhome.symm.trans (h.home k hst))
    exact hc
  · have hlow (k : Transaction) : s.core.start k = false :=
      Bool.eq_false_iff.2 fun hup => hst ⟨k, hup⟩
    have hhigh : (s.padsStep v i).csn = true := by
      have h0 : s.core.stmStart.rdreg = false := hlow .rdreg
      have h1 : s.core.stmStart.wrreg = false :=
        Bool.eq_false_iff.2 fun hup => hw (h.startWrreg hup)
      have h2 : s.core.stmStart.rdmem = false := hlow .rdmem
      have h3 : s.core.stmStart.wrmem = false := hlow .wrmem
      simp [(padsStep_enables hr).2.1, mux, h0, h1, h2, h3]
    rw [step_pads, hhigh]
    exact ⟨fun hc => absurd hc (by simp), fun hsel => absurd (h.started_of_selects hsel) hst⟩

/-- From rest a selection needs a start bit. -/
theorem Inv.selects_step (h : s.Inv) (hsel : (s.step v i).Selects) : s.Started := by
  obtain ⟨k, hc⟩ := hsel
  by_contra hno
  refine (((h.step i).bus k).csn_iff.1 hc).1 (h.rest k ?_)
  exact Bool.eq_false_iff.2 fun hup => hno ⟨k, hup⟩

/-- A start bit is raised in the state of its machine. -/
theorem Inv.start_step (h : s.Inv) (hr : i.rst = false) (hst : (s.step v i).Started) :
    s.AtHome := by
  obtain ⟨k, hup⟩ := hst
  rw [step_core, coreStep_eq_registers hr] at hup
  exact ⟨k, (h.raises k hup).1⟩

/-- From rest one clock goes at most one phase on. -/
theorem Inv.phase_step (h : s.Inv) (hr : i.rst = false) (hs : s.AtRest) :
    (s.step v i).phase ≤ s.phase + 1 := by
  have hnow := h.not_selects_of_atRest hs
  have hselects := h.selects_step (i := i)
  have hstart := h.start_step (i := i) hr
  generalize s.step v i = s' at hselects hstart
  unfold phase
  rw [if_neg hnow]
  by_cases hsel : s'.Selects
  · rw [if_pos hsel, if_pos (hselects hsel)]
  rw [if_neg hsel]
  by_cases hup : s'.Started
  · rw [if_pos hup]
    split_ifs with h1 h2
    · omega
    · omega
    · exact absurd (hstart hup) h2
  · rw [if_neg hup]
    split_ifs <;> omega

/-- A selected machine is not at rest on the next clock. -/
theorem Inv.not_atRest_step (h : s.Inv) (hr : i.rst = false) (hs : s.Selects) :
    ¬(s.step v i).AtRest := by
  obtain ⟨k, hc⟩ := hs
  obtain ⟨hb, hd⟩ := (h.bus k).csn_iff.1 hc
  exact fun hrest => h.work k hr hb hd (hrest k)

/-- Behind a finished machine the controller leaves the state that started it. -/
theorem Inv.leaves_of_done (h : s.Inv) (hr : i.rst = false) {k : Transaction}
    (hd : (s.bus k).state = .done) :
    (s.step v i).core.state = .idle ∨ (s.step v i).core.state = .rdmem1 ∨
      (s.step v i).core.state = .wrmem1 ∨
      s.core.state = .wrmem2 ∧ (s.step v i).core.state = .accdly := by
  have hs := (h.active k (by simp [hd])).1
  have he := ((h.bus k).stmEnd (by simp [hd])).2 hd
  rw [step_core, coreStep_eq_registers hr]
  cases k <;> simp only [Transaction.home, bus_rdreg, bus_rdmem, bus_wrmem, RdregStm.bus_stmEnd,
    RdmemStm.bus_stmEnd, WrmemStm.bus_stmEnd] at hs he
  case rdreg => simp [registers, hs, he]
  case rdmem => cases hrow : s.core.row <;> simp [registers, hs, he, hrow]
  case wrmem => simp [registers, hs, he]

/-- Behind a finished machine everything is at rest, with a new way to go. -/
theorem Inv.rest_of_done (h : s.Inv) (hr : i.rst = false) {k : Transaction}
    (hd : (s.bus k).state = .done) : (s.step v i).AtRest ∧ (s.step v i).phase = 0 := by
  refine (h.step i).phase_eq_zero ?_
  rintro ⟨k', hk⟩
  rcases h.leaves_of_done (i := i) hr hd with hs | hs | hs | ⟨-, hs⟩ <;>
    cases k' <;> exact absurd (hs.symm.trans hk) (by simp)

/-- A machine that leaves its rest selects the chip. -/
theorem Inv.rest_or_selects_step (h : s.Inv) (hr : i.rst = false) (hs : s.AtRest) :
    (s.step v i).AtRest ∨ (s.step v i).Selects := by
  by_contra hno
  rw [not_or] at hno
  obtain ⟨k, hd⟩ := (h.step i).done_of_not_atRest hno.1 hno.2
  have hnext := ((h.next hr k).idle (hs k)).1.symm.trans hd
  split_ifs at hnext

/-- `acc_counter` is loaded in `IDLE` and spent in `ACCDLY`. -/
def AccLoaded {w : ℕ} (s : Ctrl w) : Prop :=
  s.core.state ≠ .idle → s.core.state ≠ .accdly → s.core.accCounter = 8

theorem AccLoaded.step (h : s.AccLoaded) : (s.step v i).AccLoaded := by
  unfold AccLoaded
  cases hr : i.rst
  case true => simp [coreStep_reset hr, Core.reset]
  case false =>
    rw [step_core, coreStep_eq_registers hr]
    intro hidle hacc
    cases hs : s.core.state <;> simp only [registers, hs] at hidle hacc ⊢
    case accdly => split_ifs at hidle hacc <;> simp at hidle hacc
    all_goals exact h (by simp [hs]) (by simp [hs])

/-- The controller is `n` clocks behind a line write : the clocks of `ACCDLY` and those from
`IDLE` on. -/
def Recovering {w : ℕ} (s : Ctrl w) (n : ℕ) : Prop :=
  s.core.state = .accdly ∧ 9 ≤ s.core.accCounter.toNat + n ∨
    s.core.state ≠ .accdly ∧ 10 + s.phase ≤ n

/-- One clock of the recovery. -/
theorem Inv.recovering_step (h : s.Inv) (hr : i.rst = false) (hs : s.AtRest) {n : ℕ}
    (hn : s.Recovering n) : (s.step v i).Recovering (n + 1) := by
  have hstate : (s.step v i).core.state = (s.registers v i).state := by
    rw [step_core, coreStep_eq_registers hr]
  have hcounter : (s.step v i).core.accCounter = (s.registers v i).accCounter := by
    rw [step_core, coreStep_eq_registers hr]
  have hphase := h.phase_step (i := i) hr hs
  have hzero := (h.step i).phase_eq_zero
  generalize s.step v i = s' at hstate hcounter hphase hzero ⊢
  rcases hn with ⟨hst, hacc⟩ | ⟨hst, hn⟩
  · simp only [registers, hst] at hstate hcounter
    by_cases h0 : s.core.accCounter = 0
    · rw [if_pos h0] at hstate
      have hp := (hzero (not_atHome (.inl hstate))).2
      refine .inr ⟨by simp [hstate], ?_⟩
      rw [hp]
      simp only [h0] at hacc
      simpa using hacc
    · rw [if_neg h0] at hstate hcounter
      refine .inl ⟨hstate, ?_⟩
      rw [hcounter]
      bv_omega
  · refine .inr ⟨?_, by omega⟩
    rw [hstate]
    cases hs' : s.core.state <;> simp only [registers, hs']
    case idle => unfold Core.dispatch; split_ifs <;> simp
    case wrmem2 =>
      have he : s.wrmem.stmEnd = false := Bool.eq_false_iff.2 fun he =>
        absurd ((hs .wrmem).symm.trans (h.done .wrmem hs' he)) (by simp)
      simp [he]
    case accdly => exact absurd hs' hst
    all_goals (try split_ifs) <;> simp

/-- The clock behind a line write. -/
theorem Inv.recovering_of_done (h : s.Inv) (hacc : s.AccLoaded) (hr : i.rst = false)
    (hd : s.wrmem.state = .done) : (s.step v i).Recovering 1 := by
  have hs : s.core.state = .wrmem2 := (h.active .wrmem (by simp [hd])).1
  have he := (h.wrmem.stmEnd (by simp [hd])).2 hd
  have h8 := hacc (by simp [hs]) (by simp [hs])
  left
  simp [coreStep_eq_registers hr, registers, hs, he, h8]

end phase

/-! ## Recovery along a run -/

namespace Run

variable (r : Ctrl.Run packaged)

/-- `csn` of cycle `t`. -/
def csn (t : ℕ) : Bool :=
  (r.state t).pads.csn

/-- `csn` goes low after cycle `t`. -/
def Falls (t : ℕ) : Prop :=
  Run.csn r t = true ∧ Run.csn r (t + 1) = false

/-- `csn` was high in the last `n` cycles up to `t`. -/
def HighFor (n t : ℕ) : Prop :=
  n ≤ t + 1 ∧ ∀ x, x ≤ t → t < x + n → Run.csn r x = true

/-- The low phase before cycle `t` was a `wrmem_stm` transaction : its last cycle is `l`, and
there was no reset since. -/
structure AfterWrite (l t : ℕ) : Prop where
  lt : l < t
  low : Run.csn r l = false
  write : (r.state l).wrmem.state ≠ .idle
  high : ∀ x, l < x → x ≤ t → Run.csn r x = true
  rst : ∀ x, l ≤ x → x ≤ t → (r.input x).rst = false

variable {r}

theorem highFor_iff {n t : ℕ} : Run.HighFor r n t ↔ n ≤ upFor (Run.csn r) t := by
  rw [le_upFor_iff]
  refine ⟨fun h k hk => ?_, fun h => ⟨?_, fun x hx hn => ?_⟩⟩
  · have hle := h.1
    exact ⟨by omega, h.2 _ (by omega) (by omega)⟩
  · cases n with
    | zero => omega
    | succ n =>
      have hle := (h n (by omega)).1
      omega
  · have hup := (h (t - x) (by omega)).2
    rwa [show t - (t - x) = x by omega] at hup

theorem HighFor.succ {n t : ℕ} (h : Run.HighFor r n t) (hc : Run.csn r (t + 1) = true) :
    Run.HighFor r (n + 1) (t + 1) := by
  rw [highFor_iff] at h ⊢
  rw [upFor, if_pos hc]
  omega

theorem HighFor.mono {m n t : ℕ} (h : Run.HighFor r n t) (hm : m ≤ n) : Run.HighFor r m t :=
  highFor_iff.2 (hm.trans (highFor_iff.1 h))

theorem highFor_one {t : ℕ} (h : Run.csn r t = true) : Run.HighFor r 1 t := by
  rw [highFor_iff]
  cases t with
  | zero => rw [upFor, if_pos h]
  | succ t =>
    rw [upFor, if_pos h]
    omega

/-- `acc_counter` is loaded in every cycle of a run. -/
theorem accLoaded (r : Ctrl.Run packaged) : ∀ t, (r.state t).AccLoaded
  | 0 => by simp [AccLoaded, (AfterReset.idle r.start).1, Core.reset]
  | t + 1 => by
    rw [r.clock]
    exact (accLoaded r t).step

section noWrite

variable (hw : ∀ t, (r.input t).csrWrite = false)
include hw

/-- Without a `csr_write` the controller stays out of `WRREG`. -/
theorem state_ne_wrreg (t : ℕ) : (r.state t).core.state ≠ .wrreg := by
  rw [Ne, wrreg_iff_taken r t]
  rintro ⟨u, -, ⟨-, hrise, -⟩, -⟩
  cases u with
  | zero => simp [(AfterReset.idle r.start).1, Core.reset, Edges.regwRise, Edges.low] at hrise
  | succ u =>
    rw [r.clock, step_core] at hrise
    cases hr : (r.input u).rst
    case true => simp [coreStep_reset hr, Core.reset, Edges.regwRise, Edges.low] at hrise
    case false =>
      simp [coreStep_eq_registers hr, registers, Edges.regwRise, Edges.sample, hw u] at hrise

/-- `csn` is low in the clock after a selection. -/
theorem csn_succ {t : ℕ} (hr : (r.input t).rst = false) :
    Run.csn r (t + 1) = false ↔ (r.state t).Selects := by
  rw [Run.csn, r.clock]
  exact (r.inv t).csn_step hr (state_ne_wrreg hw t)

/-- `csn` is high while the machines are at rest. -/
theorem csn_of_atRest : ∀ {t}, (r.state t).AtRest → Run.csn r t = true
  | 0, _ => by simp [Run.csn, (AfterReset.idle r.start).2.1, Pads.reset]
  | t + 1, hrest => by
    cases hr : (r.input t).rst
    case true => simp [Run.csn, r.clock, padsStep_reset hr, Pads.reset]
    case false =>
      by_contra hlow
      have hsel := (csn_succ hw hr).1 (by simpa using hlow)
      refine (r.inv t).not_atRest_step (i := r.input t) hr hsel ?_
      rwa [← r.clock]

/-- On the way to a selection `csn` is high since `IDLE`. -/
theorem highFor_phase : ∀ t, Run.csn r t = true → (r.state t).AtRest ∨ (r.state t).Selects →
    Run.HighFor r (1 + (r.state t).phase) t
  | 0, hc, _ => by
    have h0 : (r.state 0).core.state = .idle := by rw [(AfterReset.idle r.start).1]; rfl
    have hp := ((r.inv 0).phase_eq_zero (not_atHome (.inl h0))).2
    rw [hp]
    exact highFor_one hc
  | t + 1, hc, hs => by
    cases hr : (r.input t).rst
    case true =>
      have h0 : (r.state (t + 1)).core.state = .idle := by
        rw [r.clock, step_core, coreStep_reset hr]
        rfl
      have hp := ((r.inv (t + 1)).phase_eq_zero (not_atHome (.inl h0))).2
      rw [hp]
      exact highFor_one hc
    case false =>
      have hsel : ¬(r.state t).Selects := fun hsel => by
        simpa [hc] using (csn_succ hw hr).2 hsel
      by_cases hrest : (r.state t).AtRest
      · have hstep := (r.inv t).phase_step (i := r.input t) hr hrest
        rw [← r.clock] at hstep
        have hct := csn_of_atRest hw hrest
        exact ((highFor_phase t hct (.inl hrest)).succ hc).mono (by omega)
      · obtain ⟨k, hd⟩ := (r.inv t).done_of_not_atRest hrest hsel
        have hp := ((r.inv t).rest_of_done (i := r.input t) hr hd).2
        rw [← r.clock] at hp
        rw [hp]
        exact highFor_one hc

/-- Behind the low phase of a line write the controller recovers. -/
theorem AfterWrite.recovering {l t : ℕ} (h : Run.AfterWrite r l t) :
    ∀ x, l < x → x ≤ t → ((r.state x).AtRest ∨ (r.state x).Selects) ∧
      (r.state x).Recovering (x - l)
  | 0, hx, _ => by omega
  | x + 1, hx, hxt => by
    have hr := h.rst x (by omega) (by omega)
    have hsel : ¬(r.state x).Selects := fun hsel => by
      simpa [h.high (x + 1) hx hxt] using (csn_succ hw hr).2 hsel
    rw [r.clock]
    rcases Nat.lt_or_ge l x with hlt | hge
    · obtain ⟨hrest | hbad, hrec⟩ := AfterWrite.recovering h x hlt (by omega)
      · refine ⟨(r.inv x).rest_or_selects_step hr hrest, ?_⟩
        rw [show x + 1 - l = x - l + 1 by omega]
        exact (r.inv x).recovering_step hr hrest hrec
      · exact absurd hbad hsel
    · obtain rfl : l = x := by omega
      have hd : (r.state l).wrmem.state = .done := by
        by_contra hne
        refine hsel ⟨.wrmem, (r.inv l).wrmem.csn.2 ?_⟩
        have hidle := h.write
        cases hs : (r.state l).wrmem.state <;> simp_all
      refine ⟨.inl ((r.inv l).rest_of_done (k := .wrmem) hr hd).1, ?_⟩
      rw [show l + 1 - l = 1 by omega]
      exact (r.inv l).recovering_of_done (accLoaded r l) hr hd

end noWrite

end Run

/-- In a run of the packaged IP without a `csr_write`, `csn` was high for at least four cycles
when it goes low, and for at least thirteen since a line write without a reset after it. -/
theorem ip_csn_recovery (r : Ctrl.Run packaged) (hw : ∀ t, (r.input t).csrWrite = false) {t : ℕ}
    (ht : Run.Falls r t) :
    Run.HighFor r 4 t ∧ ∀ l, Run.AfterWrite r l t → Run.HighFor r 13 t := by
  have hr : (r.input t).rst = false := Bool.eq_false_iff.2 fun hr => by
    simpa [Run.csn, r.clock, padsStep_reset hr, Pads.reset] using ht.2
  have hsel := (Run.csn_succ hw hr).1 ht.2
  have hphase : (r.state t).phase = 3 := if_pos hsel
  refine ⟨by simpa [hphase] using Run.highFor_phase hw t ht.1 (.inr hsel), fun l hl => ?_⟩
  have hlt := hl.lt
  obtain ⟨-, ⟨hst, -⟩ | ⟨-, hrec⟩⟩ := hl.recovering hw t hlt le_rfl
  · exact absurd hsel ((r.inv t).not_selects_of_atRest
      ((r.inv t).phase_eq_zero (not_atHome (.inr hst))).1)
  · exact ⟨by omega, fun x hx hn => hl.high x (by omega) hx⟩

/-- A line write, and a `csr_read` accepted in the first cycle back in `IDLE`. -/
def writeThenRegister (t : ℕ) : Inputs packaged.width :=
  { quiet with s0Write := t = 0, csrRead := 92 ≤ t }

/-- Between the two `csn` is high in the cycles 84 to 96. -/
theorem ip_csn_recovery_writeThenRegister : Run.HighFor (ipRun writeThenRegister) 4 96 ∧
    Run.HighFor (ipRun writeThenRegister) 13 96 := by
  have hhigh : ∀ x, x ≤ 96 → 83 < x → Run.csn (ipRun writeThenRegister) x = true := by
    decide +kernel
  have hfalls : Run.Falls (ipRun writeThenRegister) 96 := ⟨hhigh 96 le_rfl (by omega), by
    show (trace (Ctrl.step packaged) (cleared _) writeThenRegister 97).pads.csn = false
    decide +kernel⟩
  have hafter : Run.AfterWrite (ipRun writeThenRegister) 83 96 := by
    refine ⟨by omega, ?_, ?_, fun x hx hxt => hhigh x hxt hx, fun _ _ _ => rfl⟩
    · show (trace (Ctrl.step packaged) (cleared _) writeThenRegister 83).pads.csn = false
      decide +kernel
    · show (trace (Ctrl.step packaged) (cleared _) writeThenRegister 83).wrmem.state ≠ .idle
      decide +kernel
  have h := ip_csn_recovery (ipRun writeThenRegister) (fun _ => rfl) hfalls
  exact ⟨h.1, h.2 83 hafter⟩

end Ctrl

end HyperRam
