import HyperRam.BusStm

/-!
# Invariants of the bus machines

Each machine on its own, from reset and under any inputs : the enables, `csn`, `stm_end` and the
valid flags are functions of the state and the counter, and the counter stays in the range its phase
counts through. `Inv` is that for each of them, with what only that machine has : the valid bit of
`rdreg_stm`, the mask of `wrmem_stm`, the inner counter of `rdmem_stm`. `Inv.step` is its
preservation, by a split on the state and on the tests of its branch.

Each is a bus machine under its view `bus` (`isBusStm`), with its own last count of `STATE_RUN` :
14, 29 and 32. For that the outputs are led over to those of a bus machine (`Inv.bus`), and a clock
to one of a bus machine (`Inv.bus_step`), in which the tests of `STATE_CA` go through `caClock_eq`.

What is left are the clocks of the data, which are those of one machine only : `rdmem_stm` counts
the latency, samples the two halves of a word in turn, and ends (`step_latency`, `step_first`,
`step_second`, `step_last`).
-/

namespace HyperRam

open Clocked

/-! ## `rdreg_stm` -/

namespace RdregStm

variable {m : RdregStm}

/-- What the master and the pads see of `rdreg_stm`. -/
@[simps]
def bus (m : RdregStm) : BusStm 0 where
  state := m.state
  counter := m.counter.toNat
  bufferOut := m.bufferOut
  stmEnd := m.stmEnd
  csn := m.csn
  oe := m.oe
  oeClk := m.oeClk

/-- What holds of `rdreg_stm` in every cycle after a reset. -/
structure Inv (m : RdregStm) : Prop where
  csn : m.csn = false ↔ m.state = .ca ∨ m.state = .run
  oe : m.oe = true ↔ m.state = .ca ∧ m.counter ≠ 0
  oeClk : m.oeClk = true ↔ m.state = .ca ∧ 1 < m.counter ∨ m.state = .run ∨ m.state = .done
  ca_le : m.state = .ca → m.counter ≤ 4
  run_le : m.state = .run → m.counter ≤ 14
  stmEnd : m.state ≠ .idle → (m.stmEnd = true ↔ m.state = .done)
  valid : m.valid = true ↔ m.state = .done

theorem inv_reset {i : ReadIn} (hr : i.rst = true) : (m.step i).Inv := by
  unfold step
  rw [if_pos hr]
  constructor <;> simp

theorem Inv.step (h : m.Inv) (i : ReadIn) : (m.step i).Inv := by
  by_cases hr : i.rst = true
  · exact inv_reset hr
  rcases m with ⟨stmEnd, oe, oeClk, csn, valid, dataoutr, counter, state, bufferOut⟩
  obtain ⟨h1, h2, h3, h4, h5, h6, h7⟩ := h
  unfold RdregStm.step
  rw [if_neg hr]
  cases state <;> simp at h1 h2 h3 h4 h5 h6 h7 ⊢
  case idle => cases i.stmStart <;> constructor <;> simp [*]
  case ca => split_ifs <;> constructor <;> simp [*] <;> bv_omega
  case run =>
    split_ifs
    · constructor <;> simp [*]
    · constructor <;> simp [*]
      bv_omega
  case done => constructor <;> simp [*]

/-- A clock of `STATE_IDLE` loads the command words. -/
theorem step_words {i : ReadIn} (hr : i.rst = false) (hs : m.state = .idle) :
    (m.step i).bus.words = caWords i.casig := by
  funext k
  fin_cases k <;> simp [RdregStm.step, hr, hs, BusStm.words]

/-- The outputs are those of a bus machine. -/
theorem Inv.bus (h : m.Inv) : m.bus.Inv 14 :=
  .of_bits (k := 14) (by decide) rfl rfl h.csn
    (fun hs => by
      rw [bus_oe, h.oe]
      rcases hs with hs | hs <;> simp_all)
    (fun hs => by
      rw [bus_oeClk, h.oeClk]
      simp_all)
    h.ca_le h.run_le h.stmEnd

/-- A clock is that of a bus machine. -/
theorem Inv.bus_step (h : m.Inv) {i : ReadIn} (hr : i.rst = false) :
    m.bus.Next 14 i.stmStart i.rwdsIn i.casig (m.step i).bus := by
  refine .of_bits (k := 14) (by decide) rfl rfl rfl (by decide) h.bus ?idle ?ca ?run ?leave ?done
  case idle =>
    intro (hs : m.state = .idle)
    refine ⟨?_, ?_, ?_, step_words hr hs⟩ <;> simp [RdregStm.step, hr, hs]
  case ca =>
    intro (hs : m.state = .ca)
    simp only [RdregStm.step, hr, hs, Bool.false_eq_true, if_false]
    exact caClock_eq (f := fun m : RdregStm => (m.bus.state, m.bus.counter, m.bus.bufferOut))
      (by decide) (by rfl) (by rfl) (by rfl) (by simp [hs])
  case run =>
    intro (hs : m.state = .run) (hne : m.counter ≠ 14)
    simp only [RdregStm.step, hr, hs, if_neg hne, Bool.false_eq_true, if_false]
    exact ⟨rfl, trivial⟩
  case leave =>
    intro (hs : m.state = .run) (hlast : m.counter = 14)
    simp [RdregStm.step, hr, hs, hlast]
  case done =>
    intro (hs : m.state = .done)
    simp [RdregStm.step, hr, hs]

theorem isBusStm : IsBusStm 14 RdregStm.step ReadIn.rst ReadIn.stmStart ReadIn.rwdsIn
    ReadIn.casig RdregStm.bus Inv where
  inv_reset _ _ := inv_reset
  inv_step _ i h := h.step i
  inv _ h := h.bus
  reset _ _ hr := by simp [RdregStm.step, hr]
  next _ _ h := h.bus_step

end RdregStm

/-! ## `wrmem_stm` -/

namespace WrmemStm

variable {m : WrmemStm}

/-- What the master and the pads see of `wrmem_stm`. -/
@[simps]
def bus (m : WrmemStm) : BusStm 16 where
  state := m.state
  counter := m.counter.toNat
  bufferOut := m.bufferOut
  stmEnd := m.stmEnd
  csn := m.csn
  oe := m.oe
  oeClk := m.oeClk

/-- What holds of `wrmem_stm` in every cycle after a reset. -/
structure Inv (m : WrmemStm) : Prop where
  csn : m.csn = false ↔ m.state = .ca ∨ m.state = .run
  oe : m.oe = true ↔ m.state = .ca ∧ m.counter ≠ 0 ∨ m.state = .run ∧ 13 < m.counter
  oeClk : m.oeClk = true ↔ m.state = .ca ∧ 1 < m.counter ∨ m.state = .run
  rwdsOe : m.rwdsOe = true ↔ m.state = .run ∧ 13 < m.counter
  rwdsOut : m.rwdsOut = false
  ca_le : m.state = .ca → m.counter ≤ 4
  run_le : m.state = .run → m.counter ≤ 29
  stmEnd : m.state ≠ .idle → (m.stmEnd = true ↔ m.state = .done)

theorem inv_reset {i : WriteIn} (hr : i.rst = true) : (m.step i).Inv := by
  unfold step
  rw [if_pos hr]
  constructor <;> simp

theorem Inv.step (h : m.Inv) (i : WriteIn) : (m.step i).Inv := by
  by_cases hr : i.rst = true
  · exact inv_reset hr
  rcases m with ⟨stmEnd, oe, oeClk, csn, rwdsOut, rwdsOe, counter, state, bufferOut⟩
  obtain ⟨h1, h2, h3, h4, h5, h6, h7, h8⟩ := h
  unfold WrmemStm.step
  rw [if_neg hr]
  cases state <;> simp at h1 h2 h3 h4 h5 h6 h7 h8 ⊢
  case idle => cases i.stmStart <;> constructor <;> simp [*]
  case ca => split_ifs <;> constructor <;> simp [*] <;> bv_omega
  case run => split_ifs <;> constructor <;> simp [*] <;> bv_omega
  case done => constructor <;> simp [*]

/-- A clock of `STATE_IDLE` loads the command words. -/
theorem step_words {i : WriteIn} (hr : i.rst = false) (hs : m.state = .idle) :
    (m.step i).bus.words = caWords i.casig := by
  funext k
  fin_cases k <;> simp [WrmemStm.step, hr, hs, BusStm.words, load]

/-- The outputs are those of a bus machine. -/
theorem Inv.bus (h : m.Inv) : m.bus.Inv 29 :=
  .of_bits (k := 29) (by decide) rfl rfl h.csn
    (fun hs => by
      rw [bus_oe, h.oe]
      rcases hs with hs | hs <;> simp_all)
    (fun hs => by
      rw [bus_oeClk, h.oeClk]
      simp_all)
    h.ca_le h.run_le h.stmEnd

/-- A clock is that of a bus machine. -/
theorem Inv.bus_step (h : m.Inv) {i : WriteIn} (hr : i.rst = false) :
    m.bus.Next 29 i.stmStart i.rwdsIn i.casig (m.step i).bus := by
  refine .of_bits (k := 29) (by decide) rfl rfl rfl (by decide) h.bus ?idle ?ca ?run ?leave ?done
  case idle =>
    intro (hs : m.state = .idle)
    refine ⟨?_, ?_, ?_, step_words hr hs⟩ <;> simp [WrmemStm.step, hr, hs]
  case ca =>
    intro (hs : m.state = .ca)
    simp only [WrmemStm.step, hr, hs, Bool.false_eq_true, if_false]
    exact caClock_eq (f := fun m : WrmemStm => (m.bus.state, m.bus.counter, m.bus.bufferOut))
      (by decide) (by rfl) (by rfl) (by rfl) (by simp [hs])
  case run =>
    intro (hs : m.state = .run) (hne : m.counter ≠ 29)
    simp only [WrmemStm.step, hr, hs, if_neg hne, Bool.false_eq_true, if_false]
    split_ifs <;> exact ⟨rfl, rfl⟩
  case leave =>
    intro (hs : m.state = .run) (hlast : m.counter = 29)
    simp [WrmemStm.step, hr, hs, hlast]
  case done =>
    intro (hs : m.state = .done)
    simp [WrmemStm.step, hr, hs]

theorem isBusStm : IsBusStm 29 WrmemStm.step WriteIn.rst WriteIn.stmStart WriteIn.rwdsIn
    WriteIn.casig WrmemStm.bus Inv where
  inv_reset _ _ := inv_reset
  inv_step _ i h := h.step i
  inv _ h := h.bus
  reset _ _ hr := by simp [WrmemStm.step, hr]
  next _ _ h := h.bus_step

end WrmemStm

/-! ## `rdmem_stm` -/

namespace RdmemStm

variable {m : RdmemStm}

/-- What the master and the pads see of `rdmem_stm`. -/
@[simps]
def bus (m : RdmemStm) : BusStm 0 where
  state := m.state
  counter := m.counter.toNat
  bufferOut := m.bufferOut
  stmEnd := m.stmEnd
  csn := m.csn
  oe := m.oe
  oeClk := m.oeClk

/-- What holds of `rdmem_stm` in every cycle after a reset. `inner_counter` follows the
parity of `counter` once data is sampled, so a transaction ends with it cleared. -/
structure Inv (m : RdmemStm) : Prop where
  csn : m.csn = false ↔ m.state = .ca ∨ m.state = .run
  oe : m.oe = true ↔ m.state = .ca ∧ m.counter ≠ 0
  oeClk : m.oeClk = true ↔ m.state = .ca ∧ 1 < m.counter ∨ m.state = .run ∨ m.state = .done
  ca_le : m.state = .ca → m.counter ≤ 4
  run_le : m.state = .run → m.counter ≤ 32
  stmEnd : m.state ≠ .idle → (m.stmEnd = true ↔ m.state = .done)
  half : m.innerCounter = true ↔ m.state = .run ∧ 16 ≤ m.counter ∧ m.counter.toNat % 2 = 1
  wordvalid : m.wordvalid = true ↔ m.state = .run ∧ 17 < m.counter ∧ m.counter.toNat % 2 = 0

theorem inv_reset {i : ReadIn} (hr : i.rst = true) : (m.step i).Inv := by
  unfold step
  rw [if_pos hr]
  constructor <;> simp

theorem Inv.step (h : m.Inv) (i : ReadIn) : (m.step i).Inv := by
  by_cases hr : i.rst = true
  · exact inv_reset hr
  rcases m with ⟨stmEnd, oe, oeClk, csn, dataoutr, wordvalid, counter, state, bufferOut, half⟩
  obtain ⟨h1, h2, h3, h4, h5, h6, h7, h8⟩ := h
  unfold RdmemStm.step
  rw [if_neg hr]
  cases state <;> simp at h1 h2 h3 h4 h5 h6 h7 h8 ⊢
  case idle => cases i.stmStart <;> constructor <;> simp [*]
  case ca => split_ifs <;> constructor <;> simp [*] <;> bv_omega
  case run =>
    split_ifs with h32 h15 hh
    · constructor <;> simp [*]
    · simp only [hh, true_iff] at h7
      constructor <;> simp [*] <;> bv_omega
    · have heven : counter.toNat % 2 = 0 := by
        by_contra hodd
        exact hh (h7.2 ⟨by bv_omega, by omega⟩)
      constructor <;> simp [*] <;> bv_omega
    · constructor <;> simp_all <;> bv_omega
  case done => constructor <;> simp [*]

/-- A clock of `STATE_IDLE` loads the command words. -/
theorem step_words {i : ReadIn} (hr : i.rst = false) (hs : m.state = .idle) :
    (m.step i).bus.words = caWords i.casig := by
  funext k
  fin_cases k <;> simp [RdmemStm.step, hr, hs, BusStm.words]

/-- The outputs are those of a bus machine. -/
theorem Inv.bus (h : m.Inv) : m.bus.Inv 32 :=
  .of_bits (k := 32) (by decide) rfl rfl h.csn
    (fun hs => by
      rw [bus_oe, h.oe]
      rcases hs with hs | hs <;> simp_all)
    (fun hs => by
      rw [bus_oeClk, h.oeClk]
      simp_all)
    h.ca_le h.run_le h.stmEnd

/-- A clock is that of a bus machine. -/
theorem Inv.bus_step (h : m.Inv) {i : ReadIn} (hr : i.rst = false) :
    m.bus.Next 32 i.stmStart i.rwdsIn i.casig (m.step i).bus := by
  refine .of_bits (k := 32) (by decide) rfl rfl rfl (by decide) h.bus ?idle ?ca ?run ?leave ?done
  case idle =>
    intro (hs : m.state = .idle)
    refine ⟨?_, ?_, ?_, step_words hr hs⟩ <;> simp [RdmemStm.step, hr, hs]
  case ca =>
    intro (hs : m.state = .ca)
    simp only [RdmemStm.step, hr, hs, Bool.false_eq_true, if_false]
    exact caClock_eq (f := fun m : RdmemStm => (m.bus.state, m.bus.counter, m.bus.bufferOut))
      (by decide) (by rfl) (by rfl) (by rfl) (by simp [hs])
  case run =>
    intro (hs : m.state = .run) (hne : m.counter ≠ 32)
    simp only [RdmemStm.step, hr, hs, if_neg hne, Bool.false_eq_true, if_false]
    split_ifs <;> exact ⟨rfl, rfl⟩
  case leave =>
    intro (hs : m.state = .run) (hlast : m.counter = 32)
    simp [RdmemStm.step, hr, hs, hlast]
  case done =>
    intro (hs : m.state = .done)
    simp [RdmemStm.step, hr, hs]

theorem isBusStm : IsBusStm 32 RdmemStm.step ReadIn.rst ReadIn.stmStart ReadIn.rwdsIn
    ReadIn.casig RdmemStm.bus Inv where
  inv_reset _ _ := inv_reset
  inv_step _ i h := h.step i
  inv _ h := h.bus
  reset _ _ hr := by simp [RdmemStm.step, hr]
  next _ _ h := h.bus_step

/-! ### The clocks of `STATE_RUN` -/

section run

variable {i : ReadIn} (hr : i.rst = false) (hs : m.state = .run)
include hr hs

theorem step_latency (hc : m.counter.toNat < 16) :
    m.step i = { m with counter := m.counter + 1 } := by
  have h32 : m.counter ≠ 32 := by bv_omega
  have h15 : ¬15 < m.counter := by bv_omega
  simp only [step, hr, hs, Bool.false_eq_true, if_false]
  rw [if_neg h32, if_neg h15]

theorem step_first (hc : 16 ≤ m.counter.toNat) (hlt : m.counter.toNat < 32)
    (hin : m.innerCounter = false) :
    m.step i =
      { m with
        dataoutr := m.dataoutr.extractLsb' 16 16 ++ i.dataout, innerCounter := true,
        wordvalid := false, counter := m.counter + 1 } := by
  have h32 : m.counter ≠ 32 := by bv_omega
  have h15 : 15 < m.counter := by bv_omega
  simp only [step, hr, hs, Bool.false_eq_true, if_false]
  rw [if_neg h32, if_pos h15, if_neg (by simp [hin])]

theorem step_second (hc : 16 ≤ m.counter.toNat) (hlt : m.counter.toNat < 32)
    (hin : m.innerCounter = true) :
    m.step i =
      { m with
        dataoutr := m.dataoutr.extractLsb' 0 16 ++ i.dataout, innerCounter := false,
        wordvalid := true, counter := m.counter + 1 } := by
  have h32 : m.counter ≠ 32 := by bv_omega
  have h15 : 15 < m.counter := by bv_omega
  simp only [step, hr, hs, Bool.false_eq_true, if_false]
  rw [if_neg h32, if_pos h15, if_pos hin]

theorem step_last (hc : m.counter.toNat = 32) :
    m.step i =
      { m with state := .done, stmEnd := true, counter := 0, csn := true, wordvalid := false } := by
  have h32 : m.counter = 32 := by bv_omega
  simp [step, hr, hs, h32]

end run

end RdmemStm

end HyperRam
