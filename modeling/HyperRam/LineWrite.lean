import HyperRam.LineTransfer

/-!
# Line writes

`wrmem_stm` loads the sixteen halfwords of `buffer_wrmem` and shifts them out under `rwds_oe`.
`Loaded` says where they are in its shift register, behind the command words and as far as they are
not shifted out. A clock of a transaction shifts the register or leaves the data in it alone
(`Inv.step_shift`), so the halfwords stay behind each other.

`Sending` follows them from there through the output registers to the device, by the clock of
`STATE_RUN` the machine is in (`runClock`), each stage one clock behind the one before it. With the
last clock of `STATE_DONE` the device has received the halfwords the machine loaded, all of them
and in order (`Sending.data_done`).

`SendsLine` is the same with the loading in front of it : `WRMEM1` takes the line value from the
line buffer (`Inv.sendsLine`), the first clock of `WRMEM2` loads it, the others send it
(`SendsLine.step`). It names no source of the value, so it serves the echo of the packaged IP
and the residencies of the buffered controller alike.
-/

namespace HyperRam

open Clocked

/-- The halfwords of a line value are the upper and the lower half of each word. -/
theorem halfword_concat (words : Fin 8 → BitVec 32) (k : Fin 8) :
    halfword (concat words) (2 * k) = (words k).extractLsb' 16 16 ∧
      halfword (concat words) (2 * k + 1) = (words k).extractLsb' 0 16 := by
  unfold halfword concat
  constructor <;> fin_cases k <;>
    simp (disch := omega) only [BitVec.extractLsb'_append_eq_of_le,
      BitVec.extractLsb'_append_eq_of_add_le] <;>
    rfl

/-- A line value has its words in it. -/
theorem concat_inj {words words' : Fin 8 → BitVec 32} :
    concat words = concat words' ↔ words = words' := by
  refine ⟨fun h => funext fun k => ?_, congrArg concat⟩
  have hsplit (x : BitVec 32) : x.extractLsb' 16 16 ++ x.extractLsb' 0 16 = x :=
    BitVec.extractLsb'_append_extractLsb'
  rw [← hsplit (words k), ← hsplit (words' k), ← (halfword_concat words k).1,
    ← (halfword_concat words k).2, ← (halfword_concat words' k).1,
    ← (halfword_concat words' k).2, h]

/-! ## The shift register -/

namespace WrmemStm

variable {m : WrmemStm} {i : WriteIn} {L : ℕ → BitVec 16}

/-- Shifts since the load. -/
def shifted (m : WrmemStm) : ℕ :=
  match m.state with
  | .idle => 0
  | .ca => m.counter.toNat - 1
  | .run => if m.counter.toNat ≤ 13 then 3 else m.counter.toNat - 10
  | .done => 19

/-- The data halfwords `L` behind the command words, as far as they are not shifted out. -/
def Loaded (m : WrmemStm) (L : ℕ → BitVec 16) : Prop :=
  ∀ k : Fin 19, 3 ≤ k.val + m.shifted → k.val + m.shifted < 19 →
    m.bufferOut k = L (k.val + m.shifted - 3)

/-- A clock of `STATE_IDLE` with `valid` loads the halfwords of the line value. -/
theorem loaded_load (hs : m.state = .idle) (hr : i.rst = false) (hv : i.valid = true) :
    (m.step i).Loaded (halfword i.databuffer) := by
  have h0 : (m.step i).shifted = 0 := by
    unfold shifted WrmemStm.step
    cases i.stmStart <;> simp [hs, hr]
  intro k hk _
  rw [h0] at hk ⊢
  simp only [WrmemStm.step, hr, hs, load, hv, Bool.false_eq_true, if_false, if_true]
  rw [dif_neg (by omega)]
  rfl

/-- A clock of a transaction shifts the register, or leaves the data in it alone. -/
theorem Inv.step_shift (hm : m.Inv) (hr : i.rst = false) (hv : i.valid = false)
    (hd : m.state ≠ .done) :
    (m.step i).bufferOut = shiftIn m.bufferOut 0 ∧ (m.step i).shifted = m.shifted + 1 ∨
      (∀ k : Fin 19, 3 ≤ k.val + m.shifted → (m.step i).bufferOut k = m.bufferOut k) ∧
        (m.step i).shifted = m.shifted := by
  unfold WrmemStm.step shifted
  cases hs : m.state <;> simp only [hr, Bool.false_eq_true, if_false]
  case idle =>
    refine .inr ⟨fun k hk => ?_, ?_⟩
    · simp only [load, hv, Bool.false_eq_true, if_false]
      rw [dif_neg (by omega)]
    · cases i.stmStart <;> simp
  case ca =>
    have hle := hm.ca_le hs
    obtain hc | hc | hc | hc | hc : m.counter = 0 ∨ m.counter = 1 ∨ m.counter = 2 ∨
      m.counter = 3 ∨ m.counter = 4 := by bv_omega
    · right
      cases i.rwdsIn <;> simp [hc, hs]
    all_goals simp [hc]
  case run =>
    have hle := hm.run_le hs
    by_cases h29 : m.counter = 29
    · simp [h29]
    by_cases h12 : 12 < m.counter
    · left
      simp only [if_neg h29, if_pos h12, true_and]
      split_ifs <;> bv_omega
    · right
      simp only [if_neg h29, if_neg h12, implies_true, true_and]
      split_ifs <;> bv_omega
  case done => exact absurd hs hd

/-- One clock of a transaction keeps the halfwords behind each other. -/
theorem Loaded.step (h : m.Loaded L) (hm : m.Inv) (hr : i.rst = false) (hv : i.valid = false)
    (hd : m.state ≠ .done) : (m.step i).Loaded L := by
  intro k hk hlt
  rcases hm.step_shift hr hv hd with ⟨hb, hn⟩ | ⟨hb, hn⟩
  · rw [hn] at hk hlt ⊢
    have hk1 : k.val + 1 < 19 := by omega
    rw [hb, shiftIn_of_lt hk1, h ⟨k.val + 1, hk1⟩ (by simp only; omega) (by simp only; omega)]
    congr 1
    simp only
    omega
  · rw [hn] at hk hlt ⊢
    rw [hb k hk]
    exact h k hk hlt

/-- Clocks of `STATE_RUN` so far. -/
def runClock (m : WrmemStm) : ℕ :=
  match m.state with
  | .run => m.counter.toNat
  | .done => 30
  | _ => 0

theorem Inv.runClock_step (hm : m.Inv) (hr : i.rst = false) (hs : m.state = .run) :
    (m.step i).runClock = m.runClock + 1 := by
  have hle := hm.run_le hs
  unfold WrmemStm.step runClock
  simp only [hr, hs, Bool.false_eq_true, if_false]
  by_cases h29 : m.counter = 29
  · simp [h29]
  by_cases h12 : 12 < m.counter
  · simp only [if_neg h29, if_pos h12]
    bv_omega
  · simp only [if_neg h29, if_neg h12]
    bv_omega

/-- Outside `STATE_RUN` no clock of it has passed on the next one either. -/
theorem runClock_step_zero (hr : i.rst = false) (hs : m.state ≠ .run) :
    (m.step i).runClock = 0 := by
  unfold WrmemStm.step runClock
  cases hs' : m.state <;> simp only [hr, Bool.false_eq_true, if_false]
  case idle => cases i.stmStart <;> simp
  case ca => split_ifs <;> simp [hs']
  case run => exact absurd hs' hs

/-- The first word of the shift register in `STATE_RUN`, once the halfwords move. -/
theorem Loaded.datain (h : m.Loaded L) (hs : m.state = .run) (h13 : 13 ≤ m.runClock)
    (h29 : m.runClock < 29) : m.datain = L (m.runClock - 13) := by
  have hn : m.shifted = m.runClock - 10 := by
    simp only [shifted, runClock, hs] at *
    split_ifs <;> omega
  rw [WrmemStm.datain, h 0 (by simp only [hn, Fin.val_zero]; omega)
    (by simp only [hn, Fin.val_zero]; omega), hn, Fin.val_zero]
  congr 1
  omega

end WrmemStm

/-! ## From the machine to the device -/

namespace Ctrl

variable {v : Variant} {s : Ctrl v.width} {i : Inputs v.width} {d : Device} {L : ℕ → BitVec 16}
  {D : BitVec 48}

/-- The halfwords `L` on their way to the device : each stage is one clock behind the one
before it. -/
structure Sending {w : ℕ} (L : ℕ → BitVec 16) (s : Ctrl w) (d : Device) : Prop where
  loaded : s.wrmem.Loaded L
  rwdsOe : s.wrmem.state ≠ .idle → (s.pads.rwdsOe = true ↔ 15 ≤ s.wrmem.runClock)
  datain : 14 ≤ s.wrmem.runClock → s.wrmem.runClock < 30 →
    s.pads.datain = L (s.wrmem.runClock - 14)
  last : 15 ≤ s.wrmem.runClock → d.last = L (s.wrmem.runClock - 15)
  data : s.wrmem.state ≠ .idle → s.pads.csn = true ∧ s.wrmem.runClock = 0 ∨
    d.data = (List.range (s.wrmem.runClock - 15)).map L

/-- A loaded machine at rest is about to send. -/
theorem sending_of_idle {w : ℕ} {s : Ctrl w} (h : s.wrmem.Loaded L)
    (hidle : s.wrmem.state = .idle) (d : Device) : Sending L s d := by
  have hclock : s.wrmem.runClock = 0 := by simp [WrmemStm.runClock, hidle]
  refine ⟨h, ?_, ?_, ?_, ?_⟩ <;> simp [hidle, hclock]

/-- With its start bit up `wrmem_stm` has `rwds`. -/
theorem padsStep_rwdsOe (hr : i.rst = false) (hst : s.core.start .wrmem = true) :
    (s.padsStep v i).rwdsOe = s.wrmem.rwdsOe := by
  rw [(padsStep_enables hr).2.2]
  simpa using fun _ => hst

/-- The stage of a machine in `STATE_RUN`. -/
theorem stage_of_run {m : WrmemStm} (hs : m.state = .run) :
    m.bus.stage = if m.runClock = 0 then .turn else .sent := by
  simp only [BusStm.stage, WrmemStm.bus, WrmemStm.runClock, hs, Stage.of]

/-- One clock of the data the device has. -/
theorem Sending.data_step (h : Sending L s d)
    (hc : Command s.wrmem.bus.stage D s.wrmem.bus.words s.pads d) (hrun : s.wrmem.state = .run) :
    (d.step s.pads).data = (List.range (s.wrmem.runClock + 1 - 15)).map L := by
  have hne : s.wrmem.state ≠ .idle := by simp [hrun]
  have hstage := stage_of_run hrun
  by_cases h0 : s.wrmem.runClock = 0
  · rw [if_pos h0] at hstage
    have hgot := hc.got_lt (by simp [hstage]) (by simp [hstage]) (by simp [hstage])
    rw [Device.step_data_nil, h0]
    · rfl
    · rcases h.data hne with ⟨hcsn, -⟩ | hd
      · exact .inl hcsn
      · exact hgot.imp_right fun hg => ⟨by simpa [h0] using hd, hg⟩
  · rw [if_neg h0] at hstage
    have hsent := hc
    rw [hstage] at hsent
    have hd : d.data = (List.range (s.wrmem.runClock - 15)).map L := by
      rcases h.data hne with ⟨-, hz⟩ | hd
      · exact absurd hz h0
      · exact hd
    rw [Device.step_data hsent.2.2 hsent.1, hd]
    by_cases h15 : 15 ≤ s.wrmem.runClock
    · rw [if_pos ((h.rwdsOe hne).2 h15), h.last h15,
        show s.wrmem.runClock + 1 - 15 = s.wrmem.runClock - 15 + 1 by omega, List.range_succ,
        List.map_append]
      rfl
    · rw [if_neg (fun ho => h15 ((h.rwdsOe hne).1 ho)),
        show s.wrmem.runClock + 1 - 15 = s.wrmem.runClock - 15 by omega]

/-- In `STATE_CA` the device has no data. -/
theorem Sending.data_nil (h : Sending L s d)
    (hc : Command s.wrmem.bus.stage D s.wrmem.bus.words s.pads d) (hs : s.Inv)
    (hca : s.wrmem.state = .ca) : s.pads.csn = true ∨ d.data = [] ∧ d.got < 3 := by
  have hle := hs.wrmem.ca_le hca
  have hclock : s.wrmem.runClock = 0 := by simp [WrmemStm.runClock, hca]
  have hstage : s.wrmem.bus.stage ≠ .rest ∧ s.wrmem.bus.stage ≠ .sent ∧
      s.wrmem.bus.stage ≠ .done := by
    obtain hk | hk | hk | hk | hk : s.wrmem.counter = 0 ∨ s.wrmem.counter = 1 ∨
      s.wrmem.counter = 2 ∨ s.wrmem.counter = 3 ∨ s.wrmem.counter = 4 := by bv_omega
    all_goals simp [BusStm.stage, hca, hk, Stage.of]
  rcases h.data (by simp [hca]) with ⟨hcsn, -⟩ | hd
  · exact .inl hcsn
  · exact (hc.got_lt hstage.1 hstage.2.1 hstage.2.2).imp_right fun hg =>
      ⟨by simpa [hclock] using hd, hg⟩

/-- One clock of a line write. -/
theorem Sending.step (h : Sending L s d) (hs : s.Inv)
    (hc : Command s.wrmem.bus.stage D s.wrmem.bus.words s.pads d)
    (hr : i.rst = false) (hv : s.core.inbufferValid = false) (hd : s.wrmem.state ≠ .done) :
    Sending L (s.step v i) (d.step s.pads) := by
  have hloaded := h.loaded.step hs.wrmem (i := s.wrmemIn v i) hr hv hd
  cases hst : s.core.start .wrmem
  case false => exact sending_of_idle hloaded (hs.rest .wrmem hst) _
  case true =>
    have hrwds := padsStep_rwdsOe (i := i) hr hst
    obtain ⟨hcsn, -, -, hdatain⟩ := hs.padsStep_bus (i := i) .wrmem hr hst
    by_cases hrun : s.wrmem.state = .run
    · have hclock := hs.wrmem.runClock_step (i := s.wrmemIn v i) hr hrun
      have hnow : s.wrmem.runClock = s.wrmem.counter.toNat := by simp [WrmemStm.runClock, hrun]
      rw [← step_wrmem] at hclock
      refine ⟨hloaded, fun _ => ?_, fun h14 h30 => ?_, fun h15 => ?_, fun _ => .inr ?_⟩
      · rw [step_pads, hrwds, hs.wrmem.rwdsOe, hclock]
        simp only [hrun, true_and]
        bv_omega
      · rw [hclock] at h14 h30 ⊢
        have hword := h.loaded.datain hrun (by omega) (by omega)
        rw [step_pads, hdatain]
        exact hword.trans (congrArg L (by omega))
      · rw [hclock] at h15 ⊢
        have hle := hs.wrmem.run_le hrun
        rw [Device.step_last, h.datain (by omega) (by bv_omega)]
        congr 1
      · rw [hclock]
        exact h.data_step hc hrun
    · have hclock := WrmemStm.runClock_step_zero (i := s.wrmemIn v i) hr hrun
      rw [← step_wrmem] at hclock
      refine ⟨hloaded, fun _ => ?_, fun h14 => by omega, fun h15 => by omega, fun _ => ?_⟩
      · rw [step_pads, hrwds, hs.wrmem.rwdsOe, hclock]
        simp [hrun]
      · rw [step_pads, hcsn, bus_wrmem, hclock]
        cases hm : s.wrmem.state
        case idle =>
          left
          simpa [hm] using hs.wrmem.csn
        case ca =>
          right
          exact Device.step_data_nil (h.data_nil hc hs hm)
        case run => exact absurd hm hrun
        case done => exact absurd hm hd

/-- With the last clock of `STATE_DONE` the device has all sixteen halfwords. -/
theorem Sending.data_done (h : Sending L s d)
    (hc : Command s.wrmem.bus.stage D s.wrmem.bus.words s.pads d)
    (hd : s.wrmem.state = .done) :
    (d.step s.pads).data = (List.range 16).map L := by
  have hclock : s.wrmem.runClock = 30 := by simp [WrmemStm.runClock, hd]
  have hsent := hc
  rw [show s.wrmem.bus.stage = .done by simp [BusStm.stage, hd, Stage.of]] at hsent
  have hdata : d.data = (List.range 15).map L := by
    simpa [hclock] using h.data (by simp [hd])
  rw [Device.step_data hsent.2.2 hsent.1, if_pos ((h.rwdsOe (by simp [hd])).2 (by omega)), hdata,
    h.last (by omega), hclock, List.range_succ, List.map_append]
  rfl

/-! ## From the line buffer to the machine -/

/-- The line value `x` on its way to the device : about to be loaded, or loaded. -/
def SendsLine {w : ℕ} (x : BitVec 256) (s : Ctrl w) (d : Device) : Prop :=
  s.core.inbufferValid = true ∧ s.core.bufferWrmem = x ∧ s.wrmem.state = .idle ∧
      s.core.start .wrmem = false ∨
    s.core.inbufferValid = false ∧ Sending (halfword x) s d

/-- `WRMEM1` takes the line value from the line buffer. -/
theorem Inv.sendsLine (hs : s.Inv) (hr : i.rst = false) (hst : s.core.state = .wrmem1)
    (hhit : s.bufferHit v = false) (d : Device) :
    SendsLine (concat s.core.buffer) (s.step v i) d := by
  have hstart : s.core.stmStart.wrmem = false := Bool.eq_false_iff.2 fun hup => by
    simpa [hst] using hs.home .wrmem hup
  refine .inl ⟨?_, ?_, hs.idle .wrmem (by simp [hst]), ?_⟩
  · simp [coreStep_eq_registers hr, registers, hst, hhit]
  · simp [coreStep_eq_registers hr, registers, hst, hhit]
  · simp [coreStep_eq_registers hr, registers, hst, hstart]

/-- The first clock of `WRMEM2` loads the line value, the others send it. -/
theorem SendsLine.step {x : BitVec 256} (h : SendsLine x s d) (hs : s.Inv)
    (hc : Command s.wrmem.bus.stage D s.wrmem.bus.words s.pads d) (hr : i.rst = false)
    (hst : s.core.state = .wrmem2) (he : s.wrmem.stmEnd = false) :
    SendsLine x (s.step v i) (d.step s.pads) := by
  refine .inr ⟨by simp [coreStep_eq_registers hr, registers, hst], ?_⟩
  rcases h with ⟨hv, hbuffer, hidle, hstart⟩ | ⟨hv, hsending⟩
  · have hloaded := WrmemStm.loaded_load (i := s.wrmemIn v i) hidle hr hv
    rw [← hbuffer]
    exact sending_of_idle hloaded (hs.rest .wrmem hstart) _
  · have hd : s.wrmem.state ≠ .done := fun hd => by simpa [hd, he] using hs.wrmem.stmEnd
    exact hsending.step hs hc hr hv hd

/-- With the last clock of `STATE_DONE` the device has the line value. -/
theorem SendsLine.data_done {x : BitVec 256} (h : SendsLine x s d)
    (hc : Command s.wrmem.bus.stage D s.wrmem.bus.words s.pads d) (hd : s.wrmem.state = .done) :
    (d.step s.pads).data = (List.range 16).map (halfword x) := by
  rcases h with ⟨-, -, hidle, -⟩ | ⟨-, hsending⟩
  · exact absurd (hidle.symm.trans hd) (by simp)
  · exact hsending.data_done hc hd

end Ctrl

end HyperRam
