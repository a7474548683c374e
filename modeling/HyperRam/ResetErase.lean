import HyperRam.LineTransfer

/-!
# Reset erases history

Reset leaves three banks of registers as they are : the `dataoutr` of the two read machines
and the sixteen data words of `wrmem_stm`. Two controllers that were reset in different states
stay equal but for those (`Erased`), as each is written before it is shown.

A `dataoutr` is shown under its valid bit only, and is sampled on the clock that raises the bit. In
`rdmem_stm` that takes two clocks, so there the first half may be sampled while the other is still
from before (`RdmemStm.Erased`). The data words are shown in a line write only, and the clock of
`WRMEM2` with `inbuffer_valid` loads them before `stm_start` is up (`SameWords`). The shift register
of `wrmem_stm` has no influence on the other registers of the machine (`WrmemStm.step_regs`).

`Erased.step` is one clock on the same inputs, further resets included, and under it the two show
the same on the pads and on the read ports (`Erased.sameOutputs`). `ip_reset_erases` is that for two
arbitrary states of the packaged IP and every cycle after a reset.
-/

namespace HyperRam

open Clocked

/-! ## Machines with other data -/

namespace RdregStm

/-- Two machines that differ at most in a `dataoutr` that is not valid. -/
structure Erased (m m' : RdregStm) : Prop where
  regs : m' = { m with dataoutr := m'.dataoutr }
  valid : m.valid = true → m.dataoutr = m'.dataoutr

theorem erased_reset {m m' : RdregStm} {i i' : ReadIn} (hr : i.rst = true) (hr' : i'.rst = true) :
    Erased (m.step i) (m'.step i') := by
  unfold step
  rw [if_pos hr, if_pos hr']
  exact ⟨rfl, fun h => absurd h (by simp)⟩

theorem Erased.step {m m' : RdregStm} (h : Erased m m') (i : ReadIn) :
    Erased (m.step i) (m'.step i) := by
  cases hr : i.rst
  case true => exact erased_reset hr hr
  rw [h.regs]
  rcases m with ⟨stmEnd, oe, oeClk, csn, valid, dataoutr, counter, state, bufferOut⟩
  unfold RdregStm.step
  cases state <;> simp only [hr, Bool.false_eq_true, if_false]
  case idle => exact ⟨rfl, fun hv => absurd hv (by simp)⟩
  case ca => split_ifs <;> exact ⟨rfl, h.valid⟩
  case run =>
    split_ifs
    · exact ⟨rfl, fun _ => rfl⟩
    · exact ⟨rfl, h.valid⟩
  case done => exact ⟨rfl, fun hv => absurd hv (by simp)⟩

end RdregStm

namespace RdmemStm

/-- Two machines that differ at most in the part of `dataoutr` that is not yet sampled. -/
structure Erased (m m' : RdmemStm) : Prop where
  regs : m' = { m with dataoutr := m'.dataoutr }
  word : m.wordvalid = true → m.dataoutr = m'.dataoutr
  half : m.innerCounter = true → m.dataoutr.extractLsb' 0 16 = m'.dataoutr.extractLsb' 0 16

theorem erased_reset {m m' : RdmemStm} {i i' : ReadIn} (hr : i.rst = true) (hr' : i'.rst = true) :
    Erased (m.step i) (m'.step i') := by
  unfold step
  rw [if_pos hr, if_pos hr']
  exact ⟨rfl, fun h => absurd h (by simp), fun h => absurd h (by simp)⟩

theorem Erased.step {m m' : RdmemStm} (h : Erased m m') (i : ReadIn) :
    Erased (m.step i) (m'.step i) := by
  cases hr : i.rst
  case true => exact erased_reset hr hr
  rw [h.regs]
  rcases m with ⟨stmEnd, oe, oeClk, csn, dataoutr, wordvalid, counter, state, bufferOut, half⟩
  unfold RdmemStm.step
  cases state <;> simp only [hr, Bool.false_eq_true, if_false]
  case idle => exact ⟨rfl, fun hv => absurd hv (by simp), h.half⟩
  case ca => split_ifs <;> exact ⟨rfl, h.word, h.half⟩
  case run =>
    split_ifs with h32 h15 hin
    · exact ⟨rfl, fun hv => absurd hv (by simp), h.half⟩
    · -- the second half : the first one was sampled by both
      refine ⟨rfl, fun _ => ?_, fun hi => absurd hi (by simp)⟩
      exact congrArg (· ++ i.dataout) (h.half hin)
    · refine ⟨rfl, fun hv => absurd hv (by simp), fun _ => ?_⟩
      exact (extractLsb'_append_low _ _).trans (extractLsb'_append_low _ _).symm
    · exact ⟨rfl, h.word, h.half⟩
  case done => exact ⟨rfl, fun hv => absurd hv (by simp), h.half⟩

end RdmemStm

/-- The shift register of `wrmem_stm` has no influence on its other registers. -/
theorem WrmemStm.step_regs {m m' : WrmemStm} (h : m' = { m with bufferOut := m'.bufferOut })
    (i : WriteIn) : m'.step i = { m.step i with bufferOut := (m'.step i).bufferOut } := by
  rw [h]
  rcases m with ⟨stmEnd, oe, oeClk, csn, rwdsOut, rwdsOe, counter, state, bufferOut⟩
  unfold WrmemStm.step
  cases hr : i.rst <;> cases state <;> simp only [Bool.false_eq_true, if_false, if_true]
  case false.ca => split_ifs <;> rfl
  case false.run => split_ifs <;> rfl

/-! ## Controllers with another past -/

namespace Ctrl

/-- The data words of two `wrmem_stm` : equal, or not yet loaded. -/
def SameWords {w : ℕ} (s s' : Ctrl w) : Prop :=
  s.wrmem.bufferOut = s'.wrmem.bufferOut ∨
    s.wrmem.state = .idle ∧ s.wrmem.bus.words = s'.wrmem.bus.words ∧
      (s.core.state = .wrmem2 → s.core.inbufferValid = true ∧ s.core.stmStart.wrmem = false)

/-- Two controllers that differ at most in registers that reset leaves alone and that are not
shown. -/
structure Erased {w : ℕ} (s s' : Ctrl w) : Prop where
  core : s.core = s'.core
  pads : s.pads = s'.pads
  rdreg : s.rdreg.Erased s'.rdreg
  rdmem : s.rdmem.Erased s'.rdmem
  wrmem : s'.wrmem = { s.wrmem with bufferOut := s'.wrmem.bufferOut }
  words : SameWords s s'

/-- Two controllers show the same on the pads and on the read ports. -/
structure SameOutputs {w : ℕ} (s s' : Ctrl w) : Prop where
  oeData : s.pads.oeData = s'.pads.oeData
  oeClk : s.pads.oeClk = s'.pads.oeClk
  csn : s.pads.csn = s'.pads.csn
  rwdsOe : s.pads.rwdsOe = s'.pads.rwdsOe
  rwdsOut : s.pads.rwdsOut = s'.pads.rwdsOut
  datain : s.pads.datain = s'.pads.datain
  s0Readdata : s.core.s0Readdata = s'.core.s0Readdata
  s0Readdatavalid : s.core.s0Readdatavalid = s'.core.s0Readdatavalid
  csrReaddatavalid : s.csrReaddatavalid = s'.csrReaddatavalid
  csrReaddata : s.csrReaddatavalid = true → s.csrReaddata = s'.csrReaddata

section

variable {v : Variant} {s s' : Ctrl v.width} {i i' : Inputs v.width}

theorem Erased.sameOutputs (h : Erased s s') : SameOutputs s s' := by
  have hvalid : s.csrReaddatavalid = s'.csrReaddatavalid := by
    rw [csrReaddatavalid, csrReaddatavalid, h.rdreg.regs]
  refine ⟨?_, ?_, ?_, ?_, ?_, ?_, ?_, ?_, hvalid, fun hv => ?_⟩
  · rw [h.pads]
  · rw [h.pads]
  · rw [h.pads]
  · rw [h.pads]
  · rw [h.pads]
  · rw [h.pads]
  · rw [h.core]
  · rw [h.core]
  · rw [csrReaddata, csrReaddata, h.rdreg.valid hv]

/-- Reset leaves the unloaded data words as they are and clears the others. -/
theorem erased_reset (hr : i.rst = true) (hr' : i'.rst = true) :
    Erased (s.step v i) (s'.step v i') := by
  have hcore : (s.step v i).core = .reset := coreStep_reset hr
  refine ⟨by rw [hcore, step_core, coreStep_reset hr'], ?_, ?_, ?_, ?_, .inr ⟨?_, ?_, ?_⟩⟩
  · rw [step_pads, step_pads, padsStep_reset hr, padsStep_reset hr']
  · exact RdregStm.erased_reset (by exact hr) (by exact hr')
  · exact RdmemStm.erased_reset (by exact hr) (by exact hr')
  · simp [WrmemStm.step, wrmemIn, hr, hr']
  · simp [WrmemStm.step, wrmemIn, hr]
  · funext k
    have hk : k.val < 3 := k.isLt
    simp [WrmemStm.step, BusStm.words, wrmemIn, hr, hr', hk]
  · rw [hcore]
    intro hs
    exact absurd hs (by simp [Core.reset])

/-- The data words are loaded before they are shifted. -/
theorem SameWords.step (h : SameWords s s') (hs : s.Inv) (hr : i.rst = false)
    (hcore : s.core = s'.core)
    (hw : s'.wrmem = { s.wrmem with bufferOut := s'.wrmem.bufferOut }) :
    SameWords (s.step v i) (s'.step v i) := by
  have hin : s'.wrmemIn v i = s.wrmemIn v i := by rw [wrmemIn, wrmemIn, hcore]
  rcases h with heq | ⟨hidle, hwords, hload⟩
  · left
    rw [step_wrmem, step_wrmem, hin, hw, ← heq]
  have hidle' : s'.wrmem.state = .idle := by rw [hw, hidle]
  cases hv : s.core.inbufferValid
  case true =>
    left
    funext k
    rw [step_wrmem, step_wrmem, hin]
    simp only [WrmemStm.step, hidle, hidle', wrmemIn, hr, WrmemStm.load, hv, Bool.false_eq_true,
      if_false, if_true]
  case false =>
    have hne : s.core.state ≠ .wrmem2 := fun hst => by simpa [hv] using (hload hst).1
    have hstart : s.core.stmStart.wrmem = false := Bool.eq_false_iff.2 fun hup =>
      hne (hs.home .wrmem hup)
    refine .inr ⟨hs.idle .wrmem hne, ?_, fun hst => ?_⟩
    · rw [step_wrmem, step_wrmem, hin, WrmemStm.step_words hr hidle, WrmemStm.step_words hr hidle']
    · obtain ⟨hs1, hhit⟩ := enters_wrmem2 hr hne hst
      rw [step_core, coreStep_eq_registers hr]
      simp [registers, hs1, hhit, hstart]

/-- The main processes go on alike. -/
theorem Erased.registers_eq (h : Erased s s') : s'.registers v i = s.registers v i := by
  have hrdreg : s'.rdreg.stmEnd = s.rdreg.stmEnd := by rw [h.rdreg.regs]
  have hrdmem : s'.rdmem.stmEnd = s.rdmem.stmEnd := by rw [h.rdmem.regs]
  have hvalid : s'.rdmem.wordvalid = s.rdmem.wordvalid := by rw [h.rdmem.regs]
  have hwrmem : s'.wrmem.stmEnd = s.wrmem.stmEnd := by rw [h.wrmem]
  have hword : (if s.rdmem.wordvalid then shiftIn s.core.buffer s'.rdmem.dataoutr
      else s.core.buffer) = if s.rdmem.wordvalid then shiftIn s.core.buffer s.rdmem.dataoutr
      else s.core.buffer := by
    cases hv : s.rdmem.wordvalid
    case true => rw [h.rdmem.word hv]
    case false => rfl
  have hdecoded : s'.decoded v = s.decoded v := by rw [decoded, decoded, h.core, h.pads]
  have hsel : s'.bufSel v = s.bufSel v := by rw [bufSel, bufSel, hdecoded]
  have hhit : s'.bufferHit v = s.bufferHit v := by rw [bufferHit, bufferHit, hdecoded, h.core]
  unfold registers
  rw [hdecoded, hsel, hhit, hrdreg, hrdmem, hvalid, hwrmem, ← h.core, ← h.pads, hword]

/-- The pads go on alike. -/
theorem Erased.padsStep_eq (h : Erased s s') : s'.padsStep v i = s.padsStep v i := by
  have hrdreg : s'.rdreg.datain = s.rdreg.datain ∧ s'.rdreg.oe = s.rdreg.oe ∧
      s'.rdreg.oeClk = s.rdreg.oeClk ∧ s'.rdreg.csn = s.rdreg.csn := by
    rw [h.rdreg.regs]
    exact ⟨rfl, rfl, rfl, rfl⟩
  have hrdmem : s'.rdmem.datain = s.rdmem.datain ∧ s'.rdmem.oe = s.rdmem.oe ∧
      s'.rdmem.oeClk = s.rdmem.oeClk ∧ s'.rdmem.csn = s.rdmem.csn := by
    rw [h.rdmem.regs]
    exact ⟨rfl, rfl, rfl, rfl⟩
  have hdatain : s'.wrmem.datain = s.wrmem.datain := by
    rcases h.words with heq | ⟨-, hwords, -⟩
    · exact congrFun heq.symm 0
    · exact congrFun hwords.symm 0
  have hwrmem : s'.wrmem.oe = s.wrmem.oe ∧ s'.wrmem.oeClk = s.wrmem.oeClk ∧
      s'.wrmem.csn = s.wrmem.csn ∧ s'.wrmem.rwdsOe = s.wrmem.rwdsOe ∧
      s'.wrmem.rwdsOut = s.wrmem.rwdsOut := by
    rw [h.wrmem]
    exact ⟨rfl, rfl, rfl, rfl, rfl⟩
  simp only [padsStep, mux, ← h.core, ← h.pads, hrdreg, hrdmem, hdatain, hwrmem]

/-- One clock on the same inputs. -/
theorem Erased.step (h : Erased s s') (hs : s.Inv) (i : Inputs v.width) :
    Erased (s.step v i) (s'.step v i) := by
  cases hr : i.rst
  case true => exact erased_reset hr hr
  refine ⟨?_, h.padsStep_eq.symm, ?_, ?_, ?_, h.words.step hs hr h.core h.wrmem⟩
  · rw [step_core, step_core, coreStep_eq_registers hr, coreStep_eq_registers hr, h.registers_eq]
  · rw [step_rdreg, step_rdreg, rdregIn, rdregIn, ← h.core]
    exact h.rdreg.step _
  · rw [step_rdmem, step_rdmem, rdmemIn, rdmemIn, ← h.core]
    exact h.rdmem.step _
  · rw [step_wrmem, step_wrmem, wrmemIn, wrmemIn, ← h.core]
    exact WrmemStm.step_regs h.wrmem _

end

/-- Two states of the packaged IP, whatever its registers hold, show the same in every cycle
after a reset, on the same inputs. -/
theorem ip_reset_erases (s s' : Ctrl packaged.width) {x x' : Inputs packaged.width}
    (hx : x.rst = true) (hx' : x'.rst = true) (is : ℕ → Inputs packaged.width) (t : ℕ) :
    SameOutputs (trace (Ctrl.step packaged) (s.step packaged x) is t)
      (trace (Ctrl.step packaged) (s'.step packaged x') is t) := by
  refine (trace_rel (R := Erased) (erased_reset hx hx') (n := t) (fun n _ h => ?_)
    t le_rfl).sameOutputs
  exact h.step (inv_trace (inv_reset hx) n) (is n)

/-- The registers that reset leaves alone, all bits set. -/
def littered : Ctrl packaged.width :=
  { cleared packaged.width with
    rdreg := { (cleared packaged.width).rdreg with dataoutr := BitVec.allOnes 16 }
    rdmem := { (cleared packaged.width).rdmem with dataoutr := BitVec.allOnes 32 }
    wrmem := { (cleared packaged.width).wrmem with bufferOut := fun _ => BitVec.allOnes 16 } }

/-- Reset in a cleared state and in a littered one, before a line write. -/
theorem ip_reset_erases_littered :
    SameOutputs
      (trace (Ctrl.step packaged) ((cleared _).step packaged { quiet with rst := true })
        (fun t => { quiet with s0Write := t = 0 }) 70)
      (trace (Ctrl.step packaged) (littered.step packaged { quiet with rst := true })
        (fun t => { quiet with s0Write := t = 0 }) 70) :=
  ip_reset_erases (cleared _) littered rfl rfl _ 70

end Ctrl

end HyperRam
