import HyperRam.CompStm

/-!
# The probed top

`topv2` is the top of an earlier bring-up : the requests `regr`, `memw` and `memr` and the command
come from in-system probes, and one state machine drives the pads. It is two clocked processes.
`Rwr` tracks `csn` and stalls requests for the read-write recovery time, `Hr` is the state
machine. `csn` is an output of the second one that the first one reads, `rwr_stall` goes the
other way, and so do the command and the register data, which `Rwr` samples from the probes.

Both processes have an asynchronous reset. A `step` with `rst` is a clock under reset, its result
is the state the reset holds. The reset of `Hr` lowers `csn`, and it leaves `prev_memw`,
`prev_memr`, the `rwds` pad and the last words of the shift register alone.

The blocking increments of `counter` (in `RD_REG1` and `MEM_WR1`) are the last reads of `counter` in
their branch, so they act as non-blocking ones. The three command states wait for `rwds` and shift
the command out in the same way, and are one definition with the state they go on to
(`Hr.command`).
-/

namespace HyperRam

open Clocked

/-- `state_t`. `SET_CA` and `WR_REG0` are declared only. -/
inductive HrState
  | idle
  | setCa
  | rdReg0
  | rdReg1
  | wrReg0
  | memWr0
  | memWr1
  | memRd0
  | memRd1
  deriving DecidableEq, Repr

/-- Inputs of `topv2` : the probe sources, the pads `rwds` and `dq`, and the net `latency` that
nothing drives. -/
structure TopIn where
  rst : Bool
  regr : Bool
  regw : Bool
  memr : Bool
  memw : Bool
  caSig : BitVec 48
  regdata : BitVec 16
  latency : BitVec 4
  rwdsIn : Bool
  dataout : BitVec 16

/-! ## The recovery process -/

/-- Registers of the process that handles the read-write recovery delay. -/
structure Rwr where
  prevCsnD0 : Bool
  prevCsnD1 : Bool
  rwrCounter : BitVec 3
  rwrStall : Bool
  regdatar : BitVec 16
  caSigr : Fin 3 → BitVec 48
  latencyr : BitVec 4

namespace Rwr

variable (m : Rwr)

/-- One clock of the process. `csn` is the register as it was before the edge. The clock that
loads the counter leaves the stall flag alone. -/
def step (csn : Bool) (i : TopIn) : Rwr :=
  if i.rst then
    { prevCsnD0 := false, prevCsnD1 := false, rwrCounter := 0, rwrStall := false, regdatar := 0,
      caSigr := fun _ => 0, latencyr := 0 }
  else
    let m' : Rwr :=
      { m with
        prevCsnD1 := m.prevCsnD0, prevCsnD0 := csn, regdatar := i.regdata,
        caSigr := shiftIn m.caSigr i.caSig, latencyr := i.latency }
    if !m.prevCsnD1 && m.prevCsnD0 then
      { m' with rwrCounter := 7 }
    else if m.rwrCounter = 0 then
      { m' with rwrStall := false }
    else
      { m' with rwrStall := true, rwrCounter := m.rwrCounter - 1 }

end Rwr

/-! ## The state machine -/

/-- Registers of the state machine. -/
structure Hr where
  state : HrState
  csn : Bool
  regrDone : Bool
  oe : Bool
  clken : Bool
  counter : BitVec 6
  prevRegw : Bool
  prevRegr : Bool
  prevMemw : Bool
  prevMemr : Bool
  rwdsOut : Bool
  rwdsOe : Bool
  dataoutReg : Fin 3 → BitVec 16
  capturedData : BitVec 16
  datavalid : Bool
  bufferOut : Fin 19 → BitVec 16

/-- The sixteen halfwords that `MEM_WR0` is entered with. -/
def burstData : List (BitVec 16) :=
  [0xabcd, 0x1234, 0xa515, 0xbab1, 0xdead, 0xfa11, 0x7373, 0x8811,
    0x8181, 0xabab, 0xbaba, 0xc1c1, 0xdeda, 0xdada, 0xf3d1, 0x9092]

/-- `buffer_out[0..2]` takes the command, the rest stays. -/
def loadCommand (b : Fin 19 → BitVec 16) (ca : BitVec 48) : Fin 19 → BitVec 16 :=
  fun k => if h : k.val < 3 then caWords ca ⟨k.val, h⟩ else b k

/-- `buffer_out[3..18]` takes the data, the rest stays. -/
def loadBurst (b : Fin 19 → BitVec 16) : Fin 19 → BitVec 16 :=
  fun k => if k.val < 3 then b k else burstData.getD (k.val - 3) 0

/-- `buffer_out[0..2]` shifts, the rest stays. -/
def shiftCommand (b : Fin 19 → BitVec 16) : Fin 19 → BitVec 16 :=
  fun k => if k.val < 2 then shiftIn b 0 k else if k.val = 2 then 0 else b k

namespace Hr

variable (m : Hr)

/-- A request starts : chip select goes down in the state `s`. -/
def start (s : HrState) : Hr :=
  { m with state := s, csn := false, oe := false, clken := false, counter := 0 }

/-- `HR_IDLE`. Each request acts on its rising edge unless stalled, the later assignments win. -/
def idle (stall : Bool) (ca : BitVec 48) (i : TopIn) : Hr :=
  let m' := { m with csn := true, bufferOut := loadCommand m.bufferOut ca }
  let m' := if (i.regr && !m.prevRegr) && !stall then m'.start .rdReg0 else m'
  let m' :=
    if (i.memw && !m.prevMemw) && !stall then
      { m'.start .memWr0 with bufferOut := loadBurst m'.bufferOut }
    else m'
  if (i.memr && !m.prevMemr) && !stall then m'.start .memRd0 else m'

/-- `RD_REG0`, `MEM_WR0` and `MEM_RD0` : wait for `rwds`, shift the command out, go on to
`next`. -/
def command (shifted : Fin 19 → BitVec 16) (next : HrState) (i : TopIn) : Hr :=
  if m.counter = 4 then
    { m with state := next, counter := 0, oe := false }
  else if 0 < m.counter ∧ m.counter < 4 then
    { m with bufferOut := shifted, oe := true, clken := true, counter := m.counter + 1 }
  else if i.rwdsIn then
    { m with counter := 1, oe := true, clken := false }
  else m

/-- `RD_REG0`. -/
def rdReg0 (i : TopIn) : Hr :=
  m.command (shiftCommand m.bufferOut) .rdReg1 i

/-- `RD_REG1`. -/
def rdReg1 (i : TopIn) : Hr :=
  if m.counter = 16 then
    { m with state := .idle, counter := 0, csn := true, clken := false }
  else if 12 < m.counter ∧ m.counter < 16 then
    { m with counter := m.counter + 1, dataoutReg := shiftIn m.dataoutReg i.dataout }
  else
    { m with counter := m.counter + 1 }

/-- `MEM_WR0`. -/
def memWr0 (i : TopIn) : Hr :=
  m.command (shiftIn m.bufferOut 0) .memWr1 i

/-- `MEM_WR1`. -/
def memWr1 : Hr :=
  if m.counter = 28 then
    { m with
      state := .idle, counter := 0, csn := true, oe := false, clken := false, rwdsOe := false }
  else if 12 < m.counter ∧ m.counter < 28 then
    { m with
      bufferOut := shiftIn m.bufferOut 0, counter := m.counter + 1, oe := true, clken := true,
      rwdsOut := false, rwdsOe := true }
  else
    { m with counter := m.counter + 1 }

/-- `MEM_RD0`. -/
def memRd0 (i : TopIn) : Hr :=
  m.command (shiftCommand m.bufferOut) .memRd1 i

/-- `MEM_RD1`. -/
def memRd1 (i : TopIn) : Hr :=
  let m' := { m with dataoutReg := shiftIn m.dataoutReg i.dataout, counter := m.counter + 1 }
  if m.counter = 32 then
    { m' with
      state := .idle, counter := 0, csn := true, clken := false, capturedData := 0,
      datavalid := false }
  else if 17 < m.counter then
    { m' with capturedData := m.dataoutReg slot0, datavalid := true }
  else
    { m' with datavalid := false, capturedData := 0 }

/-- One clock of the process. Reset lowers `csn`, and leaves `prev_memw`, `prev_memr`, the `rwds`
pad and the last three words of `buffer_out` alone. -/
def step (stall : Bool) (ca : BitVec 48) (i : TopIn) : Hr :=
  if i.rst then
    { m with
      state := .idle, csn := false, regrDone := false, oe := false, clken := false, counter := 0,
      prevRegw := false, prevRegr := false, dataoutReg := fun _ => 0, capturedData := 0,
      datavalid := false, bufferOut := fun k => if k.val < 16 then 0 else m.bufferOut k }
  else
    let m' :=
      match m.state with
      | .idle => m.idle stall ca i
      | .rdReg0 => m.rdReg0 i
      | .rdReg1 => m.rdReg1 i
      | .memWr0 => m.memWr0 i
      | .memWr1 => m.memWr1
      | .memRd0 => m.memRd0 i
      | .memRd1 => m.memRd1 i
      | .setCa | .wrReg0 => { m with state := .idle }
    { m' with
      prevRegw := i.regw, prevRegr := i.regr, prevMemw := i.memw, prevMemr := i.memr }

end Hr

/-! ## The top -/

/-- Registers of `topv2`. -/
structure TopV2 where
  rwr : Rwr
  hr : Hr

namespace TopV2

/-- One clock : both processes read the registers as they were before the edge. -/
def step (s : TopV2) (i : TopIn) : TopV2 where
  rwr := s.rwr.step s.hr.csn i
  hr := s.hr.step s.rwr.rwrStall (s.rwr.caSigr slot0) i

/-- The states after a reset clock. -/
def Init (s : TopV2) : Prop :=
  ∃ s₀ i, TopIn.rst i = true ∧ s = step s₀ i

end TopV2

end HyperRam
