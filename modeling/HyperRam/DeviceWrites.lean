import HyperRam.LineTransfer
import HyperRam.Requests

/-!
# Writes on the bus

The device stores what a transaction sends under `rwds_oe` if bit 47 of the command is clear,
the bit `addr_decode` takes from `rd_tmp`. `RDMEM2` sets `rd_tmp` and only `IDLE` clears it, so
a line write that follows its fetch has the command of a read. `Harmless` is that along the way of
the command : of the one that is formed in `WRMEM2`, and of the one that the machine is sending, as
far as it has got to the device.

The one way around the fetch is a write accepted as a hit that `WRMEM1` no longer takes for one
(`LosesHit`). Its line write goes out with `rd_tmp` clear. A clock that loses no hit keeps
`Harmless` (`Harmless.step`), under any inputs and with resets at any time.

So in a run of the buffered controller the lines of the device change only behind such a write
(`buffered_writes_losesHit`), and the run of `movedWrite` shows that there they do. The packaged IP
has no hits at all, and none of its writes ever reaches the device : whenever data comes under
`rwds_oe`, the device has the whole command of a read (`ip_never_writes`).
-/

namespace HyperRam

open Clocked

namespace Ctrl

section harmless

variable {v : Variant} {s : Ctrl v.width} {i : Inputs v.width} {d : Device}

/-- A write accepted as a hit is no longer one on the next clock. -/
def LosesHit (s s' : Ctrl v.width) : Prop :=
  s.accepts = some .s0Write ∧ s.bufferHit v = true ∧ s'.bufferHit v = false

/-- What a line write would send is the command of a read. -/
structure Harmless (s : Ctrl v.width) (d : Device) : Prop where
  wrmem1 : s.core.state = .wrmem1 → s.core.rdTmp = true ∨ s.bufferHit v = true
  wrmem2 : s.core.state = .wrmem2 → s.core.rdTmp = true
  formed : s.core.start .wrmem = true → s.core.caSigr.msb = true
  command : ∃ D : BitVec 48, D.msb = true ∧ Command s.wrmem.bus.stage D s.wrmem.bus.words s.pads d
  rwdsOe : s.pads.rwdsOe = true → s.wrmem.bus.stage = .sent ∨ s.wrmem.bus.stage = .done

/-- A command at rest may be any command. -/
theorem exists_command_of_rest {w : ℕ} {words : Fin 3 → BitVec 16} {p : Pads w} :
    ∃ D : BitVec 48, D.msb = true ∧ Command .rest D words p d :=
  ⟨.allOnes 48, by decide, trivial⟩

theorem harmless_reset (h : s.core = .reset ∧ s.pads = .reset ∧ s.wrmem.state = .idle) :
    Harmless s d := by
  obtain ⟨hcore, hpads, hidle⟩ := h
  refine ⟨?_, ?_, ?_, ?_, ?_⟩
  · simp [hcore, Core.reset]
  · simp [hcore, Core.reset]
  · simp [hcore, Core.reset]
  · have hrest : s.wrmem.bus.stage = .rest := Stage.of_rest_iff.2 hidle
    rw [hrest]
    exact exists_command_of_rest
  · simp [hpads, Pads.reset]

/-- `WRMEM1` is entered from `IDLE` on a write hit, or at the end of a fetch. -/
theorem Inv.enters_wrmem1 (h : s.Inv) (hst : (s.registers v i).state = .wrmem1) :
    s.accepts = some .s0Write ∧ s.bufferHit v = true ∨
      s.core.state = .rdmem2 ∧ (s.registers v i).rdTmp = true := by
  cases hs : s.core.state <;> simp only [registers, hs] at hst ⊢
  case idle =>
    unfold Core.dispatch at hst
    unfold accepts
    split_ifs at hst
    simp_all
  case rdmem2 =>
    cases he : s.rdmem.stmEnd
    case false => simp [he] at hst
    case true =>
      have htmp : s.core.rdTmp = true := h.tmp .rdmem (h.end_start .rdmem hs he)
      exact .inr (by simp [htmp])
  all_goals (try split_ifs at hst) <;> simp at hst

section step

variable (h : Harmless s d) (hs : s.Inv) (hr : i.rst = false)
include h hs hr

omit hr in
/-- In `WRMEM2` the command is that of a read. -/
theorem Harmless.formed_step (hst : (s.registers v i).start .wrmem = true) :
    (s.registers v i).caSigr.msb = true := by
  obtain ⟨hhome, he, -⟩ := hs.raises .wrmem hst
  simp only [Transaction.home, bus_wrmem, WrmemStm.bus_stmEnd] at hhome he
  have hca : (s.registers v i).caSigr = (s.decoded v).outAddr := by
    simp only [registers, hhome, he, Bool.false_eq_true, if_false]
  rw [hca, decoded, outAddr_msb]
  exact h.wrmem2 hhome

/-- A new transaction takes the command of the register, the others go on with theirs. -/
theorem Harmless.command_step : ∃ D : BitVec 48, D.msb = true ∧
    Command (s.step v i).wrmem.bus.stage D (s.step v i).wrmem.bus.words (s.step v i).pads
      (d.step s.pads) := by
  cases hst : s.core.start .wrmem
  case false =>
    have hrest : (s.step v i).wrmem.bus.stage = .rest := Stage.of_rest_iff.2 (hs.rest .wrmem hst)
    rw [hrest]
    exact exists_command_of_rest
  case true =>
    have hnext := hs.stage_next (i := i) .wrmem hr
    have hdrives := hs.drives (i := i) .wrmem hr hst
    by_cases hrest : s.wrmem.bus.stage = .rest
    · have hload := ((hs.next (i := i) hr .wrmem).idle (Stage.of_rest_iff.1 hrest)).2.2.2
      have hnew : Command s.wrmem.bus.stage s.core.caSigr s.wrmem.bus.words s.pads d := by
        rw [hrest]
        trivial
      exact ⟨s.core.caSigr, h.formed hst, hnew.step hnext hdrives fun _ _ => hload⟩
    · obtain ⟨D, hD, hcommand⟩ := h.command
      exact ⟨D, hD, hcommand.step hnext hdrives fun hst' _ => absurd hst' hrest⟩

/-- One clock that keeps an accepted hit. -/
theorem Harmless.step (hhit : ¬LosesHit s (s.step v i)) :
    Harmless (s.step v i) (d.step s.pads) where
  wrmem1 hst := by
    rw [step_core, coreStep_eq_registers hr] at hst ⊢
    rcases hs.enters_wrmem1 hst with ⟨hacc, hhit'⟩ | ⟨-, htmp⟩
    · exact .inr (by simpa [LosesHit, hacc, hhit'] using hhit)
    · exact .inl htmp
  wrmem2 hst := by
    by_cases hnow : s.core.state = .wrmem2
    · rw [step_core, coreStep_eq_registers hr]
      simpa [registers, hnow] using h.wrmem2 hnow
    · obtain ⟨hwas, hmiss⟩ := enters_wrmem2 hr hnow hst
      rw [step_core, coreStep_eq_registers hr]
      simpa [registers, hwas, hmiss] using h.wrmem1 hwas
  formed hst := by
    rw [step_core, coreStep_eq_registers hr] at hst ⊢
    exact h.formed_step hs hst
  command := h.command_step hs hr
  rwdsOe := hs.sent_of_rwdsOe hr

omit hs hr in
/-- Data comes to the device behind a whole command only, and that is the command of a read. -/
theorem Harmless.read_command (ho : s.pads.rwdsOe = true) : d.got = 3 ∧ d.ca.msb = true := by
  obtain ⟨D, hD, hcommand⟩ := h.command
  have hstage := h.rwdsOe ho
  refine ⟨?_, hcommand.ca_eq hstage ▸ hD⟩
  rcases hstage with hst | hst
  · rw [hst] at hcommand
    exact hcommand.1
  · rw [hst] at hcommand
    exact hcommand.1

omit hs hr in
/-- The device stores nothing. -/
theorem Harmless.mem_step : (d.step s.pads).mem = d.mem :=
  Device.step_mem fun ho _ => (h.read_command ho).2

end step

end harmless

/-! ## Along a run -/

namespace Run

variable {v : Variant} (r : Ctrl.Run v) (d : Device)

theorem harmless : ∀ {t}, (∀ u < t, ¬LosesHit (r.state u) (r.state (u + 1))) →
    Harmless (r.state t) (Run.device r d t)
  | 0, _ => by
    obtain ⟨hcore, hpads, hidle⟩ := AfterReset.idle r.start
    exact harmless_reset ⟨hcore, hpads, hidle .wrmem⟩
  | t + 1, h => by
    have ih := harmless (t := t) fun u hu => h u (by omega)
    have hhit := h t (by omega)
    rw [r.clock] at hhit ⊢
    cases hr : (r.input t).rst
    case true =>
      exact harmless_reset ⟨coreStep_reset hr, padsStep_reset hr, bus_reset hr .wrmem⟩
    case false => exact ih.step (r.inv t) hr hhit

end Run

/-- Until a hit is lost the device keeps its lines. -/
theorem Run.device_mem_eq {v : Variant} (r : Ctrl.Run v) (d : Device) :
    ∀ {t : ℕ}, (∀ u < t, ¬LosesHit (r.state u) (r.state (u + 1))) →
      (Run.device r d t).mem = d.mem
  | 0, _ => rfl
  | t + 1, h => by
    have hbefore : ∀ u < t, ¬LosesHit (r.state u) (r.state (u + 1)) := fun u hu =>
      h u (by omega)
    exact (Run.harmless r d hbefore).mem_step.trans (Run.device_mem_eq r d hbefore)

/-- In every run of the packaged IP from reset, under any inputs and resets, the device keeps
its lines : no write reaches it. Whenever data comes under `rwds_oe`, the device has the whole
command, and that is the command of a read. -/
theorem ip_never_writes (r : Ctrl.Run packaged) (d : Device) (t : ℕ) :
    (Run.device r d t).mem = d.mem ∧ ((r.state t).pads.rwdsOe = true →
      (Run.device r d t).got = 3 ∧ (Run.device r d t).ca.msb = true) := by
  have hkeeps : ∀ u < t, ¬LosesHit (r.state u) (r.state (u + 1)) :=
    fun _ _ h => Bool.false_ne_true h.2.1
  exact ⟨Run.device_mem_eq r d hkeeps, (Run.harmless r d hkeeps).read_command⟩

/-- In every run of the buffered controller from reset, under any inputs and resets, if the
lines of the device have changed then a write accepted as a hit was no longer one on the next
clock. -/
theorem buffered_writes_losesHit (r : Ctrl.Run buffered) (d : Device) {t : ℕ}
    (h : (Run.device r d t).mem ≠ d.mem) : ∃ u < t, LosesHit (r.state u) (r.state (u + 1)) := by
  by_contra hno
  exact h (Run.device_mem_eq r d fun u hu hl => hno ⟨u, hu, hl⟩)

/-- A read of address `32` in cycle `0` and a write of it in cycle `60`, with the address moved
to `64` under the write in cycle `61`. -/
def movedWrite (t : ℕ) : Inputs buffered.width :=
  { (quiet : Inputs 32) with
    dataout := 7, s0Read := t = 0, s0Write := t = 60 ∨ t = 61
    s0Address := if t < 61 then 32 else 64 }

/-- The run of `movedWrite` from the cleared registers. -/
def movedRun : Ctrl.Run buffered :=
  .ofInputs (afterReset_cleared buffered) movedWrite

theorem device_movedRun : (Run.device movedRun .zero 110).mem 32 0 = 7 := by
  decide +kernel

/-- The line fetched for address `32` is stored under address `64`. -/
theorem buffered_writes_losesHit_moved :
    ∃ u < 110, LosesHit (movedRun.state u) (movedRun.state (u + 1)) :=
  buffered_writes_losesHit movedRun .zero fun h => by
    have h7 := device_movedRun
    rw [h] at h7
    exact absurd h7 (by decide)

end Ctrl

end HyperRam
