import HyperRam.BusSafety
import HyperRam.Device

/-!
# Line transfers

A line transfer sends the command of the captured address and then moves sixteen halfwords. This
module has the two halves of it that all results about transfers share.

The command side. The stage of a machine in sending its command is a function of its state and
counter (`BusStm.stage`). A clock moves it on by a stage (`Next.stage_next`), and what the machine
drives in a stage is what its invariant says of the enables (`Inv.drives`), so each of the three
machines of a controller fits `Command.step` of the device. `CommandInv` is the invariant that comes
of it : from the clock that forms it to the device, a command is the command of the captured
address, as long as that stands still. It is stated for every transaction whose command is from
an `s0` address, and kept clock by clock (`CommandInv.step`). Data comes under `rwds_oe` behind
a whole command only (`Inv.sent_of_rwdsOe`).

The data side. `Fetch` is `rdmem_stm` and the line buffer in the middle of a line : how many
halfwords are sampled, the half word in the data register, and the words that have gone into the
buffer. `Fetch.step` is one clock of it, by the parity of the counter, and at the end the buffer
has the eight words of the line, in order (`Inv.fetch_end`).
-/

namespace HyperRam

open Clocked

/-! ## The stages of the machines -/

namespace Stage

theorem of_rest_iff {state : FsmState} {counter : ℕ} : of state counter = rest ↔ state = .idle := by
  unfold of
  cases state <;> simp
  · split <;> simp
  · split_ifs <;> simp

theorem of_done_iff {state : FsmState} {counter : ℕ} : of state counter = done ↔ state = .done := by
  unfold of
  cases state <;> simp
  · split <;> simp
  · split_ifs <;> simp

theorem of_run {counter : ℕ} (h : counter ≠ 0) : of .run counter = sent :=
  if_neg h

/-- A clock of `STATE_CA` moves the command on by a stage, or waits. -/
theorem next_ca {n c c' : ℕ} {b b' : Fin n → BitVec 16} {rwds : Bool} {state : FsmState}
    (h : (state, c', b') = caClock c b rwds) (hc : c ≤ 4) (hn : 3 ≤ n) :
    (of .ca c).Next (of state c') (fun k => b (k.castLE hn)) fun k => b' (k.castLE hn) := by
  have h0 : shiftIn b 0#16 (slot0.castLE hn) = b (slot1.castLE hn) := shiftIn_of_lt (by simp; omega)
  have h1 : shiftIn b 0#16 (slot1.castLE hn) = b (slot2.castLE hn) := shiftIn_of_lt (by simp; omega)
  obtain rfl | rfl | rfl | rfl | rfl : c = 0 ∨ c = 1 ∨ c = 2 ∨ c = 3 ∨ c = 4 := by omega
  · cases rwds <;> simp [caClock] at h <;> obtain ⟨rfl, rfl, rfl⟩ := h <;> simp [of, Next]
  all_goals
    simp [caClock] at h
    obtain ⟨rfl, rfl, rfl⟩ := h
    simp [of, Next, h0, h1]

/-- A clock of `STATE_RUN` counts on, or ends the run past its first clock. -/
theorem next_run {c c' : ℕ} {state : FsmState} {words words' : Fin 3 → BitVec 16}
    (h : state = .run ∧ c' ≠ 0 ∨ state = .done ∧ c ≠ 0) :
    (of .run c).Next (of state c') words words' := by
  rcases h with ⟨rfl, hc'⟩ | ⟨rfl, hc⟩
  · rw [of_run hc']
    by_cases hc : c = 0
    · simp [of, Next, hc]
    · rw [of_run hc]
      exact .inl rfl
  · rw [of_run hc]
    exact .inr rfl

/-- What a machine drives by its stage, from its enables as functions of state and counter. -/
theorem drives_of {w : ℕ} {state : FsmState} {counter : ℕ} {words : Fin 3 → BitVec 16} {p : Pads w}
    (hle : state = .ca → counter ≤ 4) (hcsn : p.csn = false ↔ state = .ca ∨ state = .run)
    (hoe : state = .idle ∨ state = .ca → (p.oeData = true ↔ state = .ca ∧ counter ≠ 0))
    (hclk : state = .ca → (p.oeClk = true ↔ 1 < counter)) (hd : p.datain = words slot0) :
    (of state counter).Drives words p := by
  cases state
  case idle =>
    simp at hcsn hoe
    exact ⟨hcsn, hoe⟩
  case ca =>
    have hle := hle rfl
    obtain rfl | rfl | rfl | rfl | rfl : counter = 0 ∨ counter = 1 ∨ counter = 2 ∨ counter = 3 ∨
      counter = 4 := by omega
    all_goals
      simp at hcsn hoe hclk
      simp [of, Drives, hcsn, hoe, hclk, hd]
  case run =>
    simp only [reduceCtorEq, or_true, iff_true] at hcsn
    by_cases hc : counter = 0
    · simp [of, Drives, hc, hcsn]
    · rw [of_run hc]
      exact hcsn
  case done => trivial

end Stage

namespace BusStm

variable {n last : ℕ} {start rwds : Bool} {casig : BitVec 48} {m m' : BusStm n}

/-- The stage of a machine in sending its command. -/
def stage (m : BusStm n) : Stage :=
  .of m.state m.counter

/-- A clock of a machine moves its command on by a stage. -/
theorem Next.stage_next (hn : m.Next last start rwds casig m') (h : m.Inv last)
    (hlast : last ≠ 0) : m.stage.Next m'.stage m.words m'.words := by
  unfold stage
  cases hs : m.state
  case idle =>
    obtain ⟨hst, hc, -⟩ := hn.idle hs
    rw [hst, hc]
    cases start <;> simp [Stage.of, Stage.Next]
  case ca => exact Stage.next_ca (hn.ca hs) (h.ca_le hs) (Nat.le_add_left 3 n)
  case run =>
    refine Stage.next_run ?_
    by_cases hl : m.counter = last
    · exact .inr ⟨hn.last hs hl, hl ▸ hlast⟩
    · obtain ⟨hst, hc⟩ := hn.run hs hl
      exact .inl ⟨hst, by omega⟩
  case done => simp [(hn.done hs).1, Stage.of, Stage.Next]

/-- What a machine drives on pads that take its outputs over. -/
theorem Inv.drives (h : m.Inv last) {w : ℕ} {p : Pads w} (hcsn : p.csn = m.csn)
    (hoe : p.oeData = m.oe) (hclk : p.oeClk = m.oeClk) (hd : p.datain = m.words slot0) :
    m.stage.Drives m.words p :=
  Stage.drives_of h.ca_le (hcsn ▸ h.csn) (hoe ▸ h.oe) (hclk ▸ h.oeClk) hd

end BusStm

/-- Bit 47 of a command is the `read` input of the decoder. -/
theorem outAddr_msb (a : BitVec 32) (read write : Bool) :
    (addrDecode a read write).outAddr.msb = read := by
  simp only [addrDecode, BitVec.msb_append]
  cases read <;> simp

namespace Ctrl

variable {v : Variant} {s : Ctrl v.width} {i : Inputs v.width} {d : Device}

/-! ## Machines on the pads -/

/-- With its start bit up a machine drives the pads. -/
theorem Inv.drives (h : s.Inv) (k : Transaction) (hr : i.rst = false)
    (hst : s.core.start k = true) :
    (s.bus k).stage.Drives (s.bus k).words (s.padsStep v i) := by
  obtain ⟨hcsn, hoe, hclk, hd⟩ := h.padsStep_bus (i := i) k hr hst
  exact (h.bus k).drives hcsn hoe hclk hd

/-- A clock moves the command of a machine on by a stage. -/
theorem Inv.stage_next (h : s.Inv) (k : Transaction) (hr : i.rst = false) :
    (s.bus k).stage.Next ((s.step v i).bus k).stage (s.bus k).words ((s.step v i).bus k).words :=
  (h.next hr k).stage_next (h.bus k) (by cases k <;> simp)

/-- Data comes under `rwds_oe` behind a whole command only. -/
theorem Inv.sent_of_rwdsOe (h : s.Inv) (hr : i.rst = false)
    (ho : (s.padsStep v i).rwdsOe = true) :
    (s.step v i).wrmem.bus.stage = .sent ∨ (s.step v i).wrmem.bus.stage = .done := by
  obtain ⟨-, -, hrun, hc⟩ := h.rwdsOe_step hr ho
  have hsent : s.wrmem.bus.stage = .sent := by
    rw [BusStm.stage, WrmemStm.bus_state, hrun, WrmemStm.bus_counter, Stage.of_run (by bv_omega)]
  have hnext : s.wrmem.bus.stage.Next _ _ _ := h.stage_next (i := i) .wrmem hr
  rw [hsent] at hnext
  exact hnext

/-! ## The command of the captured address -/

/-- The command of the captured address, as `addr_decode` gives it in this cycle. -/
def command (v : Variant) (s : Ctrl v.width) : BitVec 48 :=
  (s.decoded v).outAddr

/-- The command stands with the captured address and the direction register. -/
theorem command_eq {s' : Ctrl v.width}
    (hc : s'.pads.capturedS0Address = s.pads.capturedS0Address)
    (ht : s'.core.rdTmp = s.core.rdTmp) : command v s' = command v s := by
  simp only [command, decoded, addrDecode, hc, ht]

/-- A command under way to or from the memory is the command of the captured address. -/
structure CommandInv (v : Variant) (s : Ctrl v.width) (d : Device) : Prop where
  formed : ∀ k, k ≠ .rdreg → s.core.start k = true → s.core.caSigr = command v s
  underWay : ∀ k, k ≠ .rdreg →
    Command (s.bus k).stage (command v s) (s.bus k).words s.pads d

theorem commandInv_reset (h : AfterReset v s) (d : Device) : CommandInv v s d := by
  obtain ⟨hcore, -, hidle⟩ := h.idle
  constructor
  case formed =>
    intro k hk hst
    cases k <;> simp [hcore, Core.reset] at hst
  case underWay =>
    intro k _
    rw [BusStm.stage, Stage.of_rest_iff.2 (hidle k)]
    trivial

section step

variable (hr : i.rst = false) (hhold : s.core.state ≠ .idle →
  (s.step v i).pads.capturedS0Address = s.pads.capturedS0Address)
include hr hhold

/-- The command stands while its machine is at work. -/
theorem command_step (k : Transaction) (hk : k ≠ .rdreg) (hs : s.core.state = k.home)
    (ht : s.core.tmp k = true) : command v (s.step v i) = command v s := by
  refine command_eq (hhold ?_) ?_
  · cases k <;> simp [hs]
  · cases k <;> simp_all [coreStep_eq_registers hr, registers]

/-- One clock of a command. -/
theorem CommandInv.step (h : CommandInv v s d) (hs : s.Inv) :
    CommandInv v (s.step v i) (d.step s.pads) where
  formed k hk hst := by
    rw [step_core, coreStep_eq_registers hr] at hst ⊢
    obtain ⟨hhome, he, ht⟩ := hs.raises k hst
    rw [command_step hr hhold k hk hhome ht]
    cases k <;> simp_all [registers, Ctrl.command]
  underWay k hk := by
    cases hst : s.core.start k
    case true =>
      rw [command_step hr hhold k hk (hs.home k hst) (hs.tmp k hst)]
      refine (h.underWay k hk).step (hs.stage_next k hr) (hs.drives k hr hst) fun hrest _ => ?_
      have hload := ((hs.next (i := i) hr k).idle (Stage.of_rest_iff.1 hrest)).2.2.2
      exact hload.trans (congrArg caWords (h.formed k hk hst))
    case false =>
      rw [BusStm.stage, Stage.of_rest_iff.2 (hs.rest k hst)]
      trivial

end step

/-- The packaged IP leaves `RDMEM2` with `rd_tmp` set, and clears it in `IDLE` only. -/
theorem Inv.direction_step {s : Ctrl packaged.width} {i : Inputs packaged.width} (hs : s.Inv)
    (hdir : s.core.state = .rdmem1 ∨ s.core.state = .wrmem1 ∨ s.core.state = .wrmem2 →
      s.core.rdTmp = true) :
    (s.registers packaged i).state = .rdmem1 ∨ (s.registers packaged i).state = .wrmem1 ∨
      (s.registers packaged i).state = .wrmem2 → (s.registers packaged i).rdTmp = true := by
  have hhit : s.bufferHit packaged = false := rfl
  cases hst : s.core.state <;> simp only [registers, hst, hhit, Core.dispatch]
  case rdmem2 =>
    cases he : s.rdmem.stmEnd
    case false => simp
    case true =>
      have htmp : s.core.rdTmp = true := hs.tmp .rdmem (hs.end_start .rdmem hst he)
      simp [htmp]
  case wrmem1 => simp [hdir (.inr (.inl hst))]
  case wrmem2 => simp [hdir (.inr (.inr hst))]
  all_goals (try split_ifs) <;> simp_all

end Ctrl

/-! ## Fetched data -/

/-- Word `k` of a line of halfwords. -/
def lineWord (h : ℕ → BitVec 16) (k : ℕ) : BitVec 32 :=
  h (2 * k) ++ h (2 * k + 1)

/-- `rdmem_stm` and the line buffer in the middle of fetching the halfwords `h`. -/
structure Fetch (m : RdmemStm) (buffer : Fin 8 → BitVec 32) (h : ℕ → BitVec 16) : Prop where
  half : m.state = .run → m.innerCounter = true →
    m.dataoutr.extractLsb' 0 16 = h (m.counter.toNat - 17)
  word : m.wordvalid = true → m.dataoutr = lineWord h ((m.counter.toNat - 17) / 2)
  filled : m.state = .run → Filled buffer (lineWord h) ((m.counter.toNat - 17) / 2)
  done : m.state = .done → Filled buffer (lineWord h) 8

theorem extractLsb'_append_low (x y : BitVec 16) : (x ++ y).extractLsb' 0 16 = y :=
  BitVec.extractLsb'_append_eq_right

namespace Fetch

variable {m : RdmemStm} {buffer : Fin 8 → BitVec 32} {h : ℕ → BitVec 16}

/-- The line buffer takes a valid word in. -/
theorem push (hf : Fetch m buffer h) (hs : m.state = .run) (hv : m.wordvalid = true) :
    Filled (if m.wordvalid then shiftIn buffer m.dataoutr else buffer) (lineWord h)
      ((m.counter.toNat - 17) / 2 + 1) := by
  rw [if_pos hv, hf.word hv]
  exact (hf.filled hs).shiftIn

theorem keep (hf : Fetch m buffer h) (hs : m.state = .run) (hv : m.wordvalid = false) :
    Filled (if m.wordvalid then shiftIn buffer m.dataoutr else buffer) (lineWord h)
      ((m.counter.toNat - 17) / 2) := by
  rw [if_neg (by simp [hv])]
  exact hf.filled hs

variable {i : ReadIn}

/-- While the latency is counted nothing is sampled. -/
theorem step_latency (hf : Fetch m buffer h) (hm : m.Inv) (hr : i.rst = false)
    (hs : m.state = .run) (hc : m.counter.toNat < 16) :
    Fetch (m.step i) (if m.wordvalid then shiftIn buffer m.dataoutr else buffer) h := by
  have hv : m.wordvalid = false := Bool.eq_false_iff.2 fun hv => by
    have := (hm.wordvalid.1 hv).2.1
    bv_omega
  have hin : m.innerCounter = false := Bool.eq_false_iff.2 fun hi => by
    have := (hm.half.1 hi).2.1
    bv_omega
  have hfilled := hf.keep hs hv
  rw [show (m.counter.toNat - 17) / 2 = ((m.counter + 1).toNat - 17) / 2 by bv_omega] at hfilled
  rw [RdmemStm.step_latency hr hs hc]
  exact ⟨fun _ hi => by simp [hin] at hi, fun hv' => by simp [hv] at hv', fun _ => hfilled,
    fun hd => by simp [hs] at hd⟩

/-- The first half of a word is sampled, the word before it taken in. -/
theorem step_first (hf : Fetch m buffer h) (hm : m.Inv) (hr : i.rst = false)
    (hs : m.state = .run) (hc : 16 ≤ m.counter.toNat) (h32 : m.counter.toNat < 32)
    (hin : m.innerCounter = false) (hd : i.dataout = h (m.counter.toNat - 16)) :
    Fetch (m.step i) (if m.wordvalid then shiftIn buffer m.dataoutr else buffer) h := by
  have heven : m.counter.toNat % 2 = 0 := by
    by_contra hodd
    have hi := hm.half.2 ⟨hs, by bv_omega, by omega⟩
    simp [hi] at hin
  have hnext : (m.counter + 1).toNat = m.counter.toNat + 1 := by bv_omega
  have hfilled : Filled (if m.wordvalid then shiftIn buffer m.dataoutr else buffer) (lineWord h)
      (((m.counter + 1).toNat - 17) / 2) := by
    cases hv : m.wordvalid
    case false =>
      have h16 : m.counter.toNat = 16 := by
        by_contra hne
        have := hm.wordvalid.2 ⟨hs, by bv_omega, heven⟩
        simp [hv] at this
      have hzero := hf.keep hs hv
      rw [hv] at hzero
      convert hzero using 1
      omega
    case true =>
      have h17 := (hm.wordvalid.1 hv).2.1
      have hpush := hf.push hs hv
      rw [hv] at hpush
      convert hpush using 1
      bv_omega
  rw [RdmemStm.step_first hr hs hc h32 hin]
  refine ⟨fun _ _ => ?_, fun hv => by simp at hv, fun _ => hfilled, fun hd => by simp [hs] at hd⟩
  show (m.dataoutr.extractLsb' 16 16 ++ i.dataout).extractLsb' 0 16 =
    h ((m.counter + 1).toNat - 17)
  rw [extractLsb'_append_low, hd, hnext]
  congr 1

/-- The second half completes a word. -/
theorem step_second (hf : Fetch m buffer h) (hm : m.Inv) (hr : i.rst = false)
    (hs : m.state = .run) (hc : 16 ≤ m.counter.toNat) (h32 : m.counter.toNat < 32)
    (hin : m.innerCounter = true) (hd : i.dataout = h (m.counter.toNat - 16)) :
    Fetch (m.step i) (if m.wordvalid then shiftIn buffer m.dataoutr else buffer) h := by
  have hodd := (hm.half.1 hin).2.2
  have hv : m.wordvalid = false := Bool.eq_false_iff.2 fun hv => by
    have := (hm.wordvalid.1 hv).2.2
    omega
  have hnext : (m.counter + 1).toNat = m.counter.toNat + 1 := by bv_omega
  have hfilled := hf.keep hs hv
  rw [show (m.counter.toNat - 17) / 2 = ((m.counter + 1).toNat - 17) / 2 by omega] at hfilled
  have hlow := hf.half hs hin
  rw [RdmemStm.step_second hr hs hc h32 hin]
  refine ⟨fun _ hi => by simp at hi, fun _ => ?_, fun _ => hfilled, fun hd => by simp [hs] at hd⟩
  show m.dataoutr.extractLsb' 0 16 ++ i.dataout = lineWord h (((m.counter + 1).toNat - 17) / 2)
  rw [hlow, hd, lineWord, hnext]
  congr 2 <;> omega

/-- The last clock takes the eighth word in. -/
theorem step_last (hf : Fetch m buffer h) (hm : m.Inv) (hr : i.rst = false)
    (hs : m.state = .run) (hc : m.counter.toNat = 32) :
    Fetch (m.step i) (if m.wordvalid then shiftIn buffer m.dataoutr else buffer) h := by
  have h8 := hf.push hs (hm.wordvalid.2 ⟨hs, by bv_omega, by omega⟩)
  rw [hc] at h8
  rw [RdmemStm.step_last hr hs hc]
  exact ⟨fun hs' => by simp at hs', fun hv => by simp at hv, fun hs' => by simp at hs', fun _ => h8⟩

/-- One clock of a fetch, with the halfwords sampled in order. -/
theorem step (hf : Fetch m buffer h) (hm : m.Inv) (hr : i.rst = false)
    (hdata : m.state = .run → 16 ≤ m.counter.toNat → m.counter.toNat < 32 →
      i.dataout = h (m.counter.toNat - 16)) :
    Fetch (m.step i) (if m.wordvalid then shiftIn buffer m.dataoutr else buffer) h := by
  cases hs : m.state
  case idle =>
    simp only [RdmemStm.step, hs, hr, Bool.false_eq_true, if_false]
    cases i.stmStart <;> constructor <;> simp
  case ca =>
    have hv : m.wordvalid = false := by simpa [hs] using hm.wordvalid
    have hi : m.innerCounter = false := by simpa [hs] using hm.half
    simp only [RdmemStm.step, hs, hr, hv, Bool.false_eq_true, if_false]
    split_ifs <;> constructor <;> simp [hv, hi, hs, Filled.zero]
  case done =>
    simp only [RdmemStm.step, hs, hr, Bool.false_eq_true, if_false]
    constructor <;> simp
  case run =>
    have hle := hm.run_le hs
    rcases Nat.lt_or_ge m.counter.toNat 16 with hlt | hge
    · exact hf.step_latency hm hr hs hlt
    rcases Nat.lt_or_ge m.counter.toNat 32 with h32 | h32
    · cases hin : m.innerCounter
      case false => exact hf.step_first hm hr hs hge h32 hin (hdata hs hge h32)
      case true => exact hf.step_second hm hr hs hge h32 hin (hdata hs hge h32)
    · exact hf.step_last hm hr hs (by bv_omega)

end Fetch

/-- A machine at rest fetches nothing. -/
theorem fetch_of_idle {m : RdmemStm} (hm : m.Inv) (hs : m.state = .idle)
    (buffer : Fin 8 → BitVec 32) (h : ℕ → BitVec 16) : Fetch m buffer h := by
  have hv : m.wordvalid = false := by simpa [hs] using hm.wordvalid
  constructor <;> simp [hs, hv]

namespace Ctrl

variable {v : Variant} {s : Ctrl v.width} {i : Inputs v.width} {d : Device}

/-- One clock of the fetch of the captured line, with a device that answers a read command with
the halfwords `f` has for it. -/
theorem CommandInv.fetch_step (h : CommandInv v s d) (hs : s.Inv) (hr : i.rst = false)
    (hhold : s.core.state ≠ .idle →
      (s.step v i).pads.capturedS0Address = s.pads.capturedS0Address)
    {f : BitVec 48 → ℕ → BitVec 16} (hf : Fetch s.rdmem s.core.buffer (f (command v s)))
    (hd : s.rdmem.state = .run → 16 ≤ s.rdmem.counter.toNat → s.rdmem.counter.toNat < 32 →
      d.ca.msb = true → i.dataout = f d.ca (s.rdmem.counter.toNat - 16)) :
    Fetch (s.step v i).rdmem (s.step v i).core.buffer (f (command v (s.step v i))) := by
  cases hst : s.core.start .rdmem
  case false => exact fetch_of_idle (hs.rdmem.step _) (hs.rest .rdmem hst) _ _
  case true =>
    have hhome : s.core.state = .rdmem2 := hs.home .rdmem hst
    have htmp : s.core.rdTmp = true := hs.tmp .rdmem hst
    have hbuffer : (s.step v i).core.buffer =
        if s.rdmem.wordvalid then shiftIn s.core.buffer s.rdmem.dataoutr else s.core.buffer := by
      simp only [step_core, coreStep_eq_registers hr, registers, hhome]
    rw [command_step hr hhold .rdmem (by simp) hhome htmp, hbuffer]
    refine hf.step hs.rdmem (i := s.rdmemIn v i) hr fun hrun h16 h32 => ?_
    have hsent : s.rdmem.bus.stage = .sent := by
      rw [BusStm.stage, RdmemStm.bus_state, hrun, RdmemStm.bus_counter, Stage.of_run (by omega)]
    have hca : d.ca = command v s := (h.underWay .rdmem (by simp)).ca_eq (.inl hsent)
    have hmsb : d.ca.msb = true := by
      rw [hca, Ctrl.command, decoded, outAddr_msb, htmp]
    rw [← hca]
    exact hd hrun h16 h32 hmsb

/-- At the end of a fetch the line buffer has the line, and keeps it. -/
theorem Inv.fetch_end (hs : s.Inv) (hr : i.rst = false) (hst : s.core.state = .rdmem2)
    (he : s.rdmem.stmEnd = true) {h : ℕ → BitVec 16} (hf : Fetch s.rdmem s.core.buffer h) :
    (s.step v i).core.buffer = s.core.buffer ∧ ∀ k : Fin 8, s.core.buffer k = lineWord h k := by
  have hdone : s.rdmem.state = .done := hs.done .rdmem hst he
  have hv : s.rdmem.wordvalid = false := by simpa [hdone] using hs.rdmem.wordvalid
  exact ⟨by simp [coreStep_eq_registers hr, registers, hst, hv], (hf.done hdone).all⟩

end Ctrl

end HyperRam
