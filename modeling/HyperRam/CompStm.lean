import HyperRam.AddrDecode
import HyperRam.Clocked.Shift

/-!
# The bus state machines

The three clocked machines of `comp_stm.sv` : `rdreg_stm` reads a device register,
`rdmem_stm` reads a line of sixteen halfwords, `wrmem_stm` writes one. Each waits in
`STATE_CA` for `rwds_in`, shifts the three command words out, counts the latency in
`STATE_RUN` and raises `stm_end` for its master on the way to `STATE_DONE`. The fourth module of
the file, `wrreg_stm`, is empty.

A `step` is one rising clock edge. Every right-hand side reads the registers as they were
before the edge, which is what the non-blocking assignments of the source do, and where a branch
assigns a register twice the later assignment stands. A register that a branch does not mention
keeps its value, also under reset : the sampled data of the read machines and the data words of
`wrmem_stm` come through a reset as they were.

Each `step` is kept as the source has it, with the widths of the source. What the three machines
have in common is stated of them in `BusStm`.
-/

namespace HyperRam

open Clocked

/-- `fsm_state_e`, shared by the three machines. -/
inductive FsmState
  | idle
  | ca
  | run
  | done
  deriving DecidableEq, Repr

/-- Inputs of the two read machines. -/
structure ReadIn where
  rst : Bool
  stmStart : Bool
  rwdsIn : Bool
  dataout : BitVec 16
  casig : BitVec 48

/-- Inputs of `wrmem_stm`. -/
structure WriteIn where
  rst : Bool
  stmStart : Bool
  rwdsIn : Bool
  databuffer : BitVec 256
  valid : Bool
  casig : BitVec 48

/-- The places of three words, the first one sent first. -/
abbrev slot0 : Fin 3 := 0

@[inherit_doc slot0]
abbrev slot1 : Fin 3 := 1

@[inherit_doc slot0]
abbrev slot2 : Fin 3 := 2

/-- The place of the word that goes out next, of a command and a line. -/
abbrev wordOut : Fin 19 := 0

/-! ## `rdreg_stm` -/

/-- Registers of `rdreg_stm`. -/
structure RdregStm where
  stmEnd : Bool
  oe : Bool
  oeClk : Bool
  csn : Bool
  valid : Bool
  dataoutr : BitVec 16
  counter : BitVec 4
  state : FsmState
  bufferOut : Fin 3 → BitVec 16

namespace RdregStm

variable (m : RdregStm)

/-- `datain`, a wire on the first word of the shift register. -/
def datain : BitVec 16 :=
  m.bufferOut 0

/-- One clock. Reset leaves `dataoutr` alone. The last branch of `STATE_RUN` has no `else`, so the
increment below it is the assignment that wins. -/
def step (i : ReadIn) : RdregStm :=
  if i.rst then
    { m with
      stmEnd := false, counter := 0, state := .idle, oe := false, oeClk := false, csn := true,
      valid := false, bufferOut := fun _ => 0 }
  else
    match m.state with
    | .idle =>
      { m with
        counter := 0, stmEnd := false, bufferOut := caWords i.casig, valid := false,
        csn := !i.stmStart, state := if i.stmStart then .ca else .idle }
    | .ca =>
      if m.counter = 4 then
        { m with state := .run, counter := 0, oe := false }
      else if 0 < m.counter ∧ m.counter < 4 then
        { m with counter := m.counter + 1, bufferOut := shiftIn m.bufferOut 0, oeClk := true }
      else if i.rwdsIn then
        { m with oe := true, oeClk := false, counter := 1 }
      else m
    | .run =>
      if m.counter = 14 then
        { m with
          state := .done, stmEnd := true, csn := true, dataoutr := i.dataout, valid := true,
          counter := m.counter + 1 }
      else
        { m with counter := m.counter + 1 }
    | .done =>
      { m with state := .idle, oeClk := false, valid := false }

end RdregStm

/-! ## `wrmem_stm` -/

/-- Registers of `wrmem_stm`. -/
structure WrmemStm where
  stmEnd : Bool
  oe : Bool
  oeClk : Bool
  csn : Bool
  rwdsOut : Bool
  rwdsOe : Bool
  counter : BitVec 5
  state : FsmState
  bufferOut : Fin 19 → BitVec 16

/-- Halfword `j` of a line value, most significant first : bits `255 - 16 j` down to
`240 - 16 j`. -/
def halfword (databuffer : BitVec 256) (j : ℕ) : BitVec 16 :=
  databuffer.extractLsb' (240 - 16 * j) 16

namespace WrmemStm

variable (m : WrmemStm)

/-- `datain`, a wire on the first word of the shift register. -/
def datain : BitVec 16 :=
  m.bufferOut 0

/-- What `STATE_IDLE` loads : the command words on every clock, the data halfwords under
`valid` only. -/
def load (i : WriteIn) : Fin 19 → BitVec 16 :=
  fun k =>
    if h : k.val < 3 then caWords i.casig ⟨k.val, h⟩
    else if i.valid then halfword i.databuffer (k.val - 3)
    else m.bufferOut k

/-- One clock. Reset clears the first three words of the shift register only. -/
def step (i : WriteIn) : WrmemStm :=
  if i.rst then
    { stmEnd := false, counter := 0, state := .idle, oe := false, oeClk := false, csn := true,
      rwdsOut := false, rwdsOe := false,
      bufferOut := fun k => if k.val < 3 then 0 else m.bufferOut k }
  else
    match m.state with
    | .idle =>
      { m with
        counter := 0, stmEnd := false, bufferOut := m.load i,
        csn := !i.stmStart, state := if i.stmStart then .ca else .idle }
    | .ca =>
      if m.counter = 4 then
        { m with state := .run, counter := 0, oe := false }
      else if 0 < m.counter ∧ m.counter < 4 then
        { m with
          bufferOut := shiftIn m.bufferOut 0, oe := true, oeClk := true,
          counter := m.counter + 1 }
      else if i.rwdsIn then
        { m with oe := true, oeClk := false, counter := 1 }
      else m
    | .run =>
      if m.counter = 29 then
        { m with
          state := .done, counter := 0, stmEnd := true, csn := true, oe := false,
          oeClk := false, rwdsOe := false }
      else if 12 < m.counter then
        { m with
          bufferOut := shiftIn m.bufferOut 0, counter := m.counter + 1, oe := true,
          oeClk := true, rwdsOut := false, rwdsOe := true }
      else
        { m with counter := m.counter + 1 }
    | .done =>
      { m with state := .idle, oeClk := false }

end WrmemStm

/-! ## `rdmem_stm` -/

/-- Registers of `rdmem_stm`. -/
structure RdmemStm where
  stmEnd : Bool
  oe : Bool
  oeClk : Bool
  csn : Bool
  dataoutr : BitVec 32
  wordvalid : Bool
  counter : BitVec 6
  state : FsmState
  bufferOut : Fin 3 → BitVec 16
  innerCounter : Bool

namespace RdmemStm

variable (m : RdmemStm)

/-- `datain`, a wire on the first word of the shift register. -/
def datain : BitVec 16 :=
  m.bufferOut 0

/-- One clock. Reset leaves `dataoutr` alone. A word takes two clocks, the second half moves the
first one up and completes it. -/
def step (i : ReadIn) : RdmemStm :=
  if i.rst then
    { m with
      stmEnd := false, counter := 0, state := .idle, oe := false, oeClk := false, csn := true,
      innerCounter := false, wordvalid := false, bufferOut := fun _ => 0 }
  else
    match m.state with
    | .idle =>
      { m with
        counter := 0, stmEnd := false, bufferOut := caWords i.casig, wordvalid := false,
        csn := !i.stmStart, state := if i.stmStart then .ca else .idle }
    | .ca =>
      if m.counter = 4 then
        { m with state := .run, counter := 0, oe := false }
      else if 0 < m.counter ∧ m.counter < 4 then
        { m with counter := m.counter + 1, bufferOut := shiftIn m.bufferOut 0, oeClk := true }
      else if i.rwdsIn then
        { m with oe := true, oeClk := false, counter := 1 }
      else m
    | .run =>
      if m.counter = 32 then
        { m with state := .done, stmEnd := true, counter := 0, csn := true, wordvalid := false }
      else if 15 < m.counter then
        if m.innerCounter then
          { m with
            dataoutr := m.dataoutr.extractLsb' 0 16 ++ i.dataout, innerCounter := false,
            wordvalid := true, counter := m.counter + 1 }
        else
          { m with
            dataoutr := m.dataoutr.extractLsb' 16 16 ++ i.dataout, innerCounter := true,
            wordvalid := false, counter := m.counter + 1 }
      else
        { m with counter := m.counter + 1 }
    | .done =>
      { m with state := .idle, oeClk := false, wordvalid := false }

end RdmemStm

end HyperRam
