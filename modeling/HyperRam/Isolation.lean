import HyperRam.Requests

/-!
# Isolation of an accepted request

Two runs that part after the same acceptance of an `s0` request, with the same `rwds_in` and
`dataout` : how far can the ports disturb the request? The address register is captured anew
by every later `s0_read` or `s0_write`, and the write data is taken from the port in `WRMEM1`.
What a request uses of them is little (`Ctrl.SameUse`) : the line bits of the address in the
one clock that forms the command, the word bits in `RDMEM1` and `WRMEM1`, the data in
`WRMEM1`. Where two runs agree on that, everything they show of the request is equal until
the controller is back in `IDLE` (`ip_isolated`).

The proof is a simulation. `SameRequest` relates two controllers at the same point of the same
request : all that is shown is equal, and so are the machines, up to command words that sit in an
idle shift register and will be loaded anew (`Same`). The command register itself may differ until a
machine is about to load it, except for its first word, which has no address bit
(`caWords_outAddr_zero`). `SameRequest.step` is assembled from a lemma for each part : the main
process, the output registers, the command, the machines.
-/

namespace HyperRam

open Clocked

/-- The first command word has no address bit. -/
theorem caWords_outAddr_zero (a : BitVec 32) (read write : Bool) :
    caWords (addrDecode a read write).outAddr 0 = if read then 0x8000 else 0 := by
  simp only [caWords, addrDecode, Matrix.cons_val_zero]
  ext j hj
  simp only [BitVec.getElem_extractLsb', BitVec.getLsbD_append]
  cases read <;> interval_cases j <;> simp

/-! ## Machines that differ in their command words -/

namespace RdmemStm

/-- Two machines that differ at most in the last command words of an idle shift register. -/
structure Same (m m' : RdmemStm) : Prop where
  regs : m' = { m with bufferOut := m'.bufferOut }
  datain : m.bufferOut 0 = m'.bufferOut 0
  words : m.state ≠ .idle → m.bufferOut = m'.bufferOut

theorem Same.refl (m : RdmemStm) : Same m m :=
  ⟨rfl, rfl, fun _ => rfl⟩

/-- The command input is read in `STATE_IDLE` only. -/
theorem step_casig {m : RdmemStm} (hs : m.state ≠ .idle) (i : ReadIn) (c : BitVec 48) :
    m.step { i with casig := c } = m.step i := by
  unfold RdmemStm.step
  cases hm : m.state <;> simp only
  exact absurd hm hs

theorem Same.step {m m' : RdmemStm} (h : Same m m') {i i' : ReadIn} (hr : i.rst = false)
    (hi : i' = { i with casig := i'.casig }) (h0 : caWords i.casig 0 = caWords i'.casig 0)
    (hca : i.stmStart = true → m.state = .idle → i.casig = i'.casig) :
    Same (m.step i) (m'.step i') := by
  by_cases hs : m.state = .idle
  · rw [h.regs, hi]
    unfold RdmemStm.step
    simp only [hr, hs, Bool.false_eq_true, if_false]
    refine ⟨rfl, h0, fun hrun => ?_⟩
    cases hst : i.stmStart
    · simp [hst] at hrun
    · rw [hca hst hs]
  · have hm : m' = m := by rw [h.regs, ← h.words hs]
    rw [hm, hi, step_casig hs i i'.casig]
    exact .refl _

end RdmemStm

namespace WrmemStm

/-- Two machines that differ at most in the last command words of an idle shift register. -/
structure Same (m m' : WrmemStm) : Prop where
  regs : m' = { m with bufferOut := m'.bufferOut }
  datain : ∀ k : Fin 19, k.val = 0 ∨ 3 ≤ k.val → m.bufferOut k = m'.bufferOut k
  words : m.state ≠ .idle → m.bufferOut = m'.bufferOut

theorem Same.refl (m : WrmemStm) : Same m m :=
  ⟨rfl, fun _ _ => rfl, fun _ => rfl⟩

/-- The command input is read in `STATE_IDLE` only. -/
theorem step_casig {m : WrmemStm} (hs : m.state ≠ .idle) (i : WriteIn) (c : BitVec 48) :
    m.step { i with casig := c } = m.step i := by
  unfold WrmemStm.step
  cases hm : m.state <;> simp only
  exact absurd hm hs

theorem load_of_lt {m : WrmemStm} {i : WriteIn} {k : Fin 19} (hk : k.val < 3) :
    m.load i k = caWords i.casig ⟨k.val, hk⟩ :=
  dif_pos hk

theorem load_of_le {m : WrmemStm} {i : WriteIn} {k : Fin 19} (hk : 3 ≤ k.val) :
    m.load i k = if i.valid then halfword i.databuffer (k.val - 3) else m.bufferOut k :=
  dif_neg (Nat.not_lt.2 hk)

theorem Same.step {m m' : WrmemStm} (h : Same m m') {i i' : WriteIn} (hr : i.rst = false)
    (hi : i' = { i with casig := i'.casig }) (h0 : caWords i.casig 0 = caWords i'.casig 0)
    (hca : i.stmStart = true → m.state = .idle → i.casig = i'.casig) :
    Same (m.step i) (m'.step i') := by
  by_cases hs : m.state = .idle
  · have hload : ∀ k : Fin 19, 3 ≤ k.val → m.load i k = m'.load i' k := fun k hk => by
      rw [load_of_le hk, load_of_le hk, hi, h.datain k (.inr hk)]
    have hstep : m'.step i' = { m.step i with bufferOut := m'.load i' } := by
      rw [hi, h.regs]
      unfold WrmemStm.step
      simp only [hr, hs, Bool.false_eq_true, if_false]
    have hnow : (m.step i).bufferOut = m.load i := by
      unfold WrmemStm.step
      simp only [hr, hs, Bool.false_eq_true, if_false]
    rw [hstep]
    refine ⟨rfl, fun k hk => ?_, fun hrun => ?_⟩
    · rw [hnow]
      rcases hk with hk | hk
      · obtain rfl : k = 0 := Fin.ext hk
        exact h0
      · exact hload k hk
    · rw [hnow]
      funext k
      show m.load i k = m'.load i' k
      rcases Nat.lt_or_ge k.val 3 with hk | hk
      · have hst : i.stmStart = true := by
          by_contra hst
          simp [WrmemStm.step, hr, hs, hst] at hrun
        rw [load_of_lt hk, load_of_lt hk, hca hst hs]
      · exact hload k hk
  · have hm : m' = m := by rw [h.regs, ← h.words hs]
    rw [hm, hi, step_casig hs i i'.casig]
    exact .refl _

end WrmemStm

namespace Ctrl

/-! ## Two runs of one request -/

/-- What the pads, the line buffer and the read port show. -/
structure Shown where
  csn : Bool
  oeClk : Bool
  oeData : Bool
  datain : BitVec 16
  rwdsOe : Bool
  rwdsOut : Bool
  buffer : Fin 8 → BitVec 32
  bufferWrmem : BitVec 256
  s0Readdata : BitVec 32
  s0Readdatavalid : Bool

section

variable {w : ℕ} (s : Ctrl w)

/-- The shown registers of a controller. -/
def shown : Shown where
  csn := s.pads.csn
  oeClk := s.pads.oeClk
  oeData := s.pads.oeData
  datain := s.pads.datain
  rwdsOe := s.pads.rwdsOe
  rwdsOut := s.pads.rwdsOut
  buffer := s.core.buffer
  bufferWrmem := s.core.bufferWrmem
  s0Readdata := s.core.s0Readdata
  s0Readdatavalid := s.core.s0Readdatavalid

/-- The line bits of the captured address, as they stand in the command. -/
def line : BitVec 6 :=
  upperColumn (s.pads.capturedS0Address.setWidth 32)

/-- The next clock forms the command of a line transfer. -/
def FormsCommand : Prop :=
  s.core.state = .rdmem2 ∧ s.core.rdTmp = true ∧ s.core.stmStart.rdmem = false ∨
    s.core.state = .wrmem2 ∧ s.core.wrTmp = true ∧ s.core.stmStart.wrmem = false

end

/-- Two controllers and their inputs agree on what the next clock uses of the address and the
write data. -/
structure SameUse (s s' : Ctrl packaged.width) (i i' : Inputs packaged.width) : Prop where
  line : s.FormsCommand → s.line = s'.line
  word : s.core.state = .rdmem1 ∨ s.core.state = .wrmem1 →
    s.bufSel packaged = s'.bufSel packaged
  data : s.core.state = .wrmem1 → s.bufSel packaged ≠ none → i.s0Writedata = i'.s0Writedata

/-- Two controllers at the same point of the same memory request. They may differ in the
registers of the ports, and in a command that has not been sent. -/
structure SameRequest (s s' : Ctrl packaged.width) : Prop where
  memory : s.core.state ≠ .rdreg ∧ s.core.state ≠ .wrreg
  core : s'.core = { s.core with
    edges := s'.core.edges, caSigr := s'.core.caSigr
    currRowId := s'.core.currRowId, currPageId := s'.core.currPageId }
  pads : s'.pads = { s.pads with
    capturedS0Address := s'.pads.capturedS0Address
    capturedCsrAddress := s'.pads.capturedCsrAddress }
  rdmem : s.rdmem.Same s'.rdmem
  wrmem : s.wrmem.Same s'.wrmem
  ca0 : caWords s.core.caSigr 0 = caWords s'.core.caSigr 0
  ca : ∀ k, k ≠ .rdreg → s.core.start k = true → (s.bus k).state = .idle →
    s.core.caSigr = s'.core.caSigr

/-- Inputs that agree on the pads, outside reset. -/
structure SamePads (i i' : Inputs packaged.width) : Prop where
  rst : i.rst = false
  rst' : i'.rst = false
  rwdsIn : i.rwdsIn = i'.rwdsIn
  dataout : i.dataout = i'.dataout

section step

variable {s s' : Ctrl packaged.width} {i i' : Inputs packaged.width}

theorem SameRequest.shown_eq (h : SameRequest s s') : s.shown = s'.shown := by
  unfold shown
  rw [h.core, h.pads]

/-- The commands formed for one line are equal, and the first words of any two. -/
theorem decoded_ca0 (s s' : Ctrl packaged.width) (h : s.core.rdTmp = s'.core.rdTmp) :
    caWords (s.decoded packaged).outAddr 0 = caWords (s'.decoded packaged).outAddr 0 := by
  unfold decoded
  rw [caWords_outAddr_zero, caWords_outAddr_zero, h]

theorem decoded_of_line (hl : s.line = s'.line) (h : s.core.rdTmp = s'.core.rdTmp) :
    (s.decoded packaged).outAddr = (s'.decoded packaged).outAddr := by
  unfold line at hl
  simp only [decoded, addrDecode, hl, h]

/-- The main processes stay at the same point. -/
theorem SameRequest.core_step (h : SameRequest s s')
    (hu : SameUse s s' i i') (hb : s.core.state ≠ .idle) :
    s'.registers packaged i' = { s.registers packaged i with
      edges := (s'.registers packaged i').edges
      caSigr := (s'.registers packaged i').caSigr
      currRowId := (s'.registers packaged i').currRowId
      currPageId := (s'.registers packaged i').currPageId } := by
  obtain ⟨e, ca, row, page, hcore⟩ : ∃ e ca row page, s'.core = { s.core with
      edges := e, caSigr := ca, currRowId := row, currPageId := page } := ⟨_, _, _, _, h.core⟩
  have hend2 : s'.rdmem.stmEnd = s.rdmem.stmEnd := by rw [h.rdmem.regs]
  have hvalid : s'.rdmem.wordvalid = s.rdmem.wordvalid := by rw [h.rdmem.regs]
  have hdata : s'.rdmem.dataoutr = s.rdmem.dataoutr := by rw [h.rdmem.regs]
  have hend3 : s'.wrmem.stmEnd = s.wrmem.stmEnd := by rw [h.wrmem.regs]
  have hhit : s.bufferHit packaged = false := rfl
  have hhit' : s'.bufferHit packaged = false := rfl
  unfold registers
  simp only [hcore, hend2, hvalid, hdata, hend3, hhit, hhit']
  cases hs : s.core.state
  case idle => exact absurd hs hb
  case rdreg => exact absurd hs h.memory.1
  case wrreg => exact absurd hs h.memory.2
  case rdmem1 =>
    simp only [hu.word (.inl hs), Core.readWord]
    rfl
  case wrmem1 =>
    have hwrite : s.core.writeWord (s.bufSel packaged) i.s0Writedata =
        s.core.writeWord (s'.bufSel packaged) i'.s0Writedata := by
      rw [← hu.word (.inr hs)]
      cases hsel : s.bufSel packaged
      case none => rfl
      case some k => rw [hu.data hs (by simp [hsel])]
    simp only [hwrite]
    rfl
  case rdmem2 => rfl
  case wrmem2 => rfl
  case accdly => rfl

/-- The output registers take over the same values. -/
theorem SameRequest.pads_step (h : SameRequest s s') (hs : s.Inv) (hi : SamePads i i') :
    s'.padsStep packaged i' = { s.padsStep packaged i with
      capturedS0Address := (s'.padsStep packaged i').capturedS0Address
      capturedCsrAddress := (s'.padsStep packaged i').capturedCsrAddress } := by
  have hstart : s'.core.stmStart = s.core.stmStart := by rw [h.core]
  have h0 : s.core.stmStart.rdreg = false := by
    by_contra hb
    exact h.memory.1 (hs.home .rdreg (by simpa using hb))
  have h1 : s.core.stmStart.wrreg = false := by
    by_contra hb
    exact h.memory.2 (hs.startWrreg (by simpa using hb))
  have hd2 : s'.rdmem.datain = s.rdmem.datain := h.rdmem.datain.symm
  have hd3 : s'.wrmem.datain = s.wrmem.datain := (h.wrmem.datain 0 (.inl rfl)).symm
  have hr2 := h.rdmem.regs
  have hr3 := h.wrmem.regs
  unfold padsStep
  simp only [hi.rst, hi.rst', mux, hstart, h0, h1, hd2, hd3, Bool.false_eq_true, if_false]
  rw [hr2, hr3]

/-- A formed command is equal in both controllers when a machine is about to load it. -/
theorem SameRequest.ca_step (h : SameRequest s s') (hs : s.Inv) (hi : SamePads i i')
    (hu : SameUse s s' i i') {k : Transaction} (hk : k ≠ .rdreg)
    (hup : (s.registers packaged i).start k = true)
    (hidle : ((s.step packaged i).bus k).state = .idle) :
    (s.registers packaged i).caSigr = (s'.registers packaged i').caSigr := by
  have hst : s'.core.state = s.core.state := by rw [h.core]
  have htmp : s.core.rdTmp = s'.core.rdTmp := by rw [h.core]
  have hend2 : s'.rdmem.stmEnd = s.rdmem.stmEnd := by rw [h.rdmem.regs]
  have hend3 : s'.wrmem.stmEnd = s.wrmem.stmEnd := by rw [h.wrmem.regs]
  obtain ⟨hhome, he, ht⟩ := hs.raises k hup
  have hno : s.core.start k = false := Bool.eq_false_iff.2 fun hst =>
    hs.starts_work k hi.rst hst he hidle
  have hforms : s.FormsCommand := by
    cases k
    case rdreg => exact absurd rfl hk
    case rdmem => exact .inl ⟨hhome, ht, hno⟩
    case wrmem => exact .inr ⟨hhome, ht, hno⟩
  have hline := decoded_of_line (hu.line hforms) htmp
  cases k <;> simp_all [registers]

/-- The first command word stays equal. -/
theorem SameRequest.ca0_step (h : SameRequest s s') :
    caWords (s.registers packaged i).caSigr 0 = caWords (s'.registers packaged i').caSigr 0 := by
  have hst : s'.core.state = s.core.state := by rw [h.core]
  have htmp : s.core.rdTmp = s'.core.rdTmp := by rw [h.core]
  have hend2 : s'.rdmem.stmEnd = s.rdmem.stmEnd := by rw [h.rdmem.regs]
  have hend3 : s'.wrmem.stmEnd = s.wrmem.stmEnd := by rw [h.wrmem.regs]
  have hform := decoded_ca0 s s' htmp
  cases hs : s.core.state <;> simp only [registers, hst, hs, hend2, hend3]
  case rdreg => exact absurd hs h.memory.1
  case rdmem2 =>
    split_ifs
    · exact h.ca0
    · exact hform
  case wrmem2 =>
    split_ifs
    · exact h.ca0
    · exact hform
  all_goals exact h.ca0

/-- A memory request stays clear of the `csr` states. -/
theorem SameRequest.memory_step (h : SameRequest s s') (hb : s.core.state ≠ .idle) :
    (s.registers packaged i).state ≠ .rdreg ∧ (s.registers packaged i).state ≠ .wrreg := by
  have hhit : s.bufferHit packaged = false := rfl
  cases hs : s.core.state <;> simp only [registers, hs, hhit]
  case idle => exact absurd hs hb
  case rdreg => exact absurd hs h.memory.1
  case wrreg => exact absurd hs h.memory.2
  all_goals (try split_ifs) <;> simp

/-- One clock keeps two controllers at the same point of the request. -/
theorem SameRequest.step (h : SameRequest s s') (hs : s.Inv)
    (hi : SamePads i i') (hu : SameUse s s' i i') (hb : s.core.state ≠ .idle) :
    SameRequest (s.step packaged i) (s'.step packaged i') := by
  have hcore : (s.step packaged i).core = s.registers packaged i := coreStep_eq_registers hi.rst
  have hcore' : (s'.step packaged i').core = s'.registers packaged i' :=
    coreStep_eq_registers hi.rst'
  have hrdmem : s'.rdmemIn packaged i' = { s.rdmemIn packaged i with casig := s'.core.caSigr } := by
    rw [rdmemIn, h.core, hi.rst', ← hi.rwdsIn, ← hi.dataout]
    simp [rdmemIn, hi.rst]
  have hwrmem : s'.wrmemIn packaged i' = { s.wrmemIn packaged i with casig := s'.core.caSigr } := by
    rw [wrmemIn, h.core, hi.rst', ← hi.rwdsIn]
    simp [wrmemIn, hi.rst]
  constructor
  case memory =>
    rw [hcore]
    exact h.memory_step hb
  case core =>
    rw [hcore, hcore']
    exact h.core_step hu hb
  case pads => exact h.pads_step hs hi
  case rdmem =>
    refine h.rdmem.step hi.rst hrdmem ?_ fun hst hidle => ?_
    · rw [hrdmem]
      exact h.ca0
    · rw [hrdmem]
      exact h.ca .rdmem (by simp) hst hidle
  case wrmem =>
    refine h.wrmem.step hi.rst hwrmem ?_ fun hst hidle => ?_
    · rw [hwrmem]
      exact h.ca0
    · rw [hwrmem]
      exact h.ca .wrmem (by simp) hst hidle
  case ca0 =>
    rw [hcore, hcore']
    exact h.ca0_step
  case ca =>
    rw [hcore, hcore']
    exact fun k hk => h.ca_step hs hi hu hk

end step

/-! ## Along two runs -/

/-- Until the run from `s` under `is` is back in `IDLE`, that cycle included, the run under
`is'` shows the same. -/
def Undisturbed (s : Ctrl packaged.width) (is is' : ℕ → Inputs packaged.width) : Prop :=
  ∀ n, (∀ m < n, (trace (Ctrl.step packaged) s is m).core.state ≠ .idle) →
    (trace (Ctrl.step packaged) s is n).shown = (trace (Ctrl.step packaged) s is' n).shown

section trace

variable {s : Ctrl packaged.width} {is is' : ℕ → Inputs packaged.width}

/-- A controller is at the same point as itself. -/
theorem SameRequest.refl (hs : s.core.state ≠ .rdreg ∧ s.core.state ≠ .wrreg) :
    SameRequest s s :=
  ⟨hs, rfl, rfl, .refl _, .refl _, rfl, fun _ _ _ _ => rfl⟩

/-- `IDLE` leaves for `RDMEM2` with an accepted `s0` request. -/
theorem accepts_s0_state {i : Inputs packaged.width} (hr : i.rst = false)
    (ha : s.accepts = some .s0Read ∨ s.accepts = some .s0Write) :
    (s.step packaged i).core.state = .rdmem2 := by
  have hhit : s.bufferHit packaged = false := rfl
  simp only [step_core, coreStep_eq_registers hr]
  rcases ha with ha | ha
  · obtain ⟨hrise, hs, hp⟩ := accepts_iff.1 ha
    have h0 : s.core.edges.regrRise = false := hp .csrRead (by decide)
    have h1 : s.core.edges.regwRise = false := hp .csrWrite (by decide)
    have h2 : s.core.edges.memrRise = true := hrise
    simp [registers, hs, Core.dispatch, hhit, h0, h1, h2]
  · obtain ⟨hrise, hs, hp⟩ := accepts_iff.1 ha
    have h0 : s.core.edges.regrRise = false := hp .csrRead (by decide)
    have h1 : s.core.edges.regwRise = false := hp .csrWrite (by decide)
    have h2 : s.core.edges.memrRise = false := hp .s0Read (by decide)
    have h3 : s.core.edges.memwRise = true := hrise
    simp [registers, hs, Core.dispatch, hhit, h0, h1, h2, h3]

/-- The captured address follows the `s0` port alone. -/
theorem captured_trace (hr : ∀ n, (is n).rst = false) (hr' : ∀ n, (is' n).rst = false)
    (hport : ∀ n, (is n).s0Read = (is' n).s0Read ∧ (is n).s0Write = (is' n).s0Write ∧
      (is n).s0Address = (is' n).s0Address) :
    ∀ n, (trace (Ctrl.step packaged) s is n).pads.capturedS0Address =
      (trace (Ctrl.step packaged) s is' n).pads.capturedS0Address
  | 0 => rfl
  | n + 1 => by
    obtain ⟨h0, h1, h2⟩ := hport n
    rw [trace_succ, trace_succ, step_pads, step_pads]
    simp only [padsStep, hr n, hr' n, h0, h1, h2, captured_trace hr hr' hport n,
      Bool.false_eq_true, if_false]

theorem SameUse.of_captured {s' : Ctrl packaged.width} {i i' : Inputs packaged.width}
    (hc : s.pads.capturedS0Address = s'.pads.capturedS0Address)
    (hd : i.s0Writedata = i'.s0Writedata) : SameUse s s' i i' where
  line _ := by simp only [Ctrl.line, hc]
  word _ := by simp only [bufSel, decoded, addrDecode, hc]
  data _ _ := hd

end trace

/-- Two runs of the packaged IP that part after the acceptance of an `s0` request and agree on
what it uses of the address and the write data show the same until `IDLE`. -/
theorem ip_isolated (r : Ctrl.Run packaged) {t : ℕ} (hr : (r.input t).rst = false)
    (ha : (r.state t).accepts = some .s0Read ∨ (r.state t).accepts = some .s0Write)
    {is is' : ℕ → Inputs packaged.width} (hi : ∀ n, SamePads (is n) (is' n))
    (hu : ∀ n, (∀ m ≤ n,
        (trace (Ctrl.step packaged) (r.state (t + 1)) is m).core.state ≠ .idle) →
      SameUse (trace (Ctrl.step packaged) (r.state (t + 1)) is n)
        (trace (Ctrl.step packaged) (r.state (t + 1)) is' n) (is n) (is' n)) :
    Undisturbed (r.state (t + 1)) is is' := by
  have hstate : (r.state (t + 1)).core.state = .rdmem2 := by
    rw [r.clock]
    exact accepts_s0_state hr ha
  intro n hb
  refine (trace_rel (R := SameRequest) (.refl (by simp [hstate])) (n := n) (fun m hm h => ?_)
    n le_rfl).shown_eq
  exact h.step (inv_trace (r.inv (t + 1)) m) (hi m) (hu m fun k hk => hb k (by omega)) (hb m hm)

/-- A write of `5` to address `0`, its pulse one cycle long. -/
def writePulse (t : ℕ) : Inputs packaged.width :=
  { quiet with s0Write := t = 0, s0Writedata := 5 }

/-- The data of `writePulse` held on the port, and `csr_read` up in every other cycle. -/
def csrActivity (active : Bool) (n : ℕ) : Inputs packaged.width :=
  { quiet with csrRead := active && n % 2 = 0, s0Writedata := 5 }

/-- Activity on the `csr` port does not disturb the write. -/
theorem ip_isolated_writePulse : Undisturbed ((ipRun writePulse).state 2)
    (csrActivity false) (csrActivity true) := by
  have hr : ∀ active n, (csrActivity active n).rst = false := fun _ _ => rfl
  refine ip_isolated (ipRun writePulse) (t := 1) rfl (.inr (by decide +kernel))
    (fun _ => ⟨rfl, rfl, rfl, rfl⟩) fun n _ => .of_captured ?_ rfl
  exact captured_trace (hr false) (hr true) (fun _ => ⟨rfl, rfl, rfl⟩) n

/-- The write disturbed by `s0_writedata` changing after the acceptance. -/
theorem ip_isolated_fails : ¬∀ (r : Ctrl.Run packaged) (t : ℕ), (r.input t).rst = false →
    ((r.state t).accepts = some .s0Read ∨ (r.state t).accepts = some .s0Write) →
    ∀ is is' : ℕ → Inputs packaged.width, (∀ n, SamePads (is n) (is' n)) →
      Undisturbed (r.state (t + 1)) is is' := by
  intro h
  have hbusy : ∀ m < 43, (trace (Ctrl.step packaged) ((ipRun writePulse).state 2)
      (csrActivity false) m).core.state ≠ .idle := by
    decide +kernel
  have hshown := h (ipRun writePulse) 1 rfl (.inr (by decide +kernel))
    (csrActivity false) (fun _ => quiet) (fun _ => ⟨rfl, rfl, rfl, rfl⟩) 43 hbusy
  have hdiff : (trace (Ctrl.step packaged) ((ipRun writePulse).state 2) (csrActivity false)
        43).core.buffer 0 ≠
      (trace (Ctrl.step packaged) ((ipRun writePulse).state 2) (fun _ => quiet)
        43).core.buffer 0 := by
    decide +kernel
  exact hdiff (congrFun (congrArg Shown.buffer hshown) 0)

end Ctrl

end HyperRam
