import HyperRam.CompStm

/-!
# The controller

`hyperram_controller.sv` exists more than once. The packaged IP (`hyperram_controller_ip/src`) takes
22-bit word addresses and ties `buffer_hit` to 0, the buffered controller at the root of the
repository takes 32-bit byte addresses and compares its line tag. `Variant` holds what they
differ in, the width of the address, the case labels and the hit, and the rest is one definition.
The copy in the generated systems is a variant too (`Generated`).

A controller is two clocked processes and an instance of each bus machine. `Core` holds the
registers of the main process, which has one definition for each of its states, and `Pads` those of
the process in front of the pads, which takes over the outputs of one machine by a priority on
`stm_start` (`mux`) and captures the addresses of requests. `Ctrl.step` is one clock of everything,
in which each part reads the registers of the others as they were before the edge.

`wrreg_stm` is an empty module that is not instantiated : the nets it would drive
(`stm_end[1]`, `wrreg_datain`, `wrreg_oe`, `wrreg_oe_clk`, `wrreg_csn`) are constant 0. So `WRREG`
has no way out, and its `csn` is low.
-/

namespace HyperRam

open Clocked

/-- `top_state`. -/
inductive TopState
  | idle
  | rdreg
  | wrreg
  | rdmem1
  | wrmem1
  | rdmem2
  | wrmem2
  | accdly
  deriving DecidableEq, Repr

/-- What the copies of the controller differ in : the packaged IP, the buffered controller and the
one of the generated systems are three values of it. -/
structure Variant where
  /-- Width of `s0_address`. -/
  width : ℕ
  /-- `RDREG` : the command of a `csr` address. -/
  csrCa : BitVec 10 → BitVec 48
  /-- `RDMEM1`, `WRMEM1` : the buffer word a `buf_addr` selects, `none` for `default`. -/
  wordSel : BitVec 5 → Option (Fin 8)
  /-- `buffer_hit` from the tag (`curr_row_id`, `curr_page_id`) and the decoded address. -/
  bufferHit : BitVec 14 → BitVec 5 → Decoded → Bool

/-- Input ports, with an `s0_address` of `w` bits. -/
structure Inputs (w : ℕ) where
  rst : Bool
  rwdsIn : Bool
  dataout : BitVec 16
  csrAddress : BitVec 10
  csrRead : Bool
  csrWrite : Bool
  csrWritedata : BitVec 32
  s0Address : BitVec w
  s0Read : Bool
  s0Write : Bool
  s0Writedata : BitVec 32

/-- The request inputs as registered on the last clock (`regr`, `regw`, `memr`, `memw`) and
on the one before (`prev_*`). -/
structure Edges where
  regr : Bool
  regw : Bool
  memr : Bool
  memw : Bool
  prevRegr : Bool
  prevRegw : Bool
  prevMemr : Bool
  prevMemw : Bool
  deriving DecidableEq, Repr

namespace Edges

variable (e : Edges)

/-- `regr && !prev_regr`. -/
def regrRise : Bool := e.regr && !e.prevRegr

/-- `regw && !prev_regw`. -/
def regwRise : Bool := e.regw && !e.prevRegw

/-- `memr && !prev_memr`. -/
def memrRise : Bool := e.memr && !e.prevMemr

/-- `memw && !prev_memw`. -/
def memwRise : Bool := e.memw && !e.prevMemw

/-- Sample the request inputs. -/
def sample {w : ℕ} (i : Inputs w) : Edges where
  regr := i.csrRead
  regw := i.csrWrite
  memr := i.s0Read
  memw := i.s0Write
  prevRegr := e.regr
  prevRegw := e.regw
  prevMemr := e.memr
  prevMemw := e.memw

/-- All request registers low. -/
def low : Edges := ⟨false, false, false, false, false, false, false, false⟩

end Edges

/-- `stm_start[0]` to `stm_start[3]`, each under the machine it starts. -/
structure StmStart where
  rdreg : Bool
  wrreg : Bool
  rdmem : Bool
  wrmem : Bool
  deriving DecidableEq, Repr

/-- Registers of the main process. -/
structure Core where
  state : TopState
  edges : Edges
  caSigr : BitVec 48
  stmStart : StmStart
  accCounter : BitVec 4
  rdTmp : Bool
  wrTmp : Bool
  s0Readdata : BitVec 32
  s0Readdatavalid : Bool
  currRowId : BitVec 14
  currPageId : BitVec 5
  bufferWrmem : BitVec 256
  buffer : Fin 8 → BitVec 32
  row : Bool
  inbufferValid : Bool

/-- Registers of the output process : the pad controls and the captured addresses. -/
structure Pads (w : ℕ) where
  rwdsOut : Bool
  rwdsOe : Bool
  datain : BitVec 16
  oeData : Bool
  oeClk : Bool
  csn : Bool
  capturedS0Address : BitVec w
  capturedCsrAddress : BitVec 10

/-- Every register of a controller and its bus machines. -/
structure Ctrl (w : ℕ) where
  core : Core
  pads : Pads w
  rdreg : RdregStm
  rdmem : RdmemStm
  wrmem : WrmemStm

/-- `{buffer[0], ..., buffer[7]}`. -/
def concat (buffer : Fin 8 → BitVec 32) : BitVec 256 :=
  buffer 0 ++ buffer 1 ++ buffer 2 ++ buffer 3 ++ buffer 4 ++ buffer 5 ++ buffer 6 ++ buffer 7

namespace Core

variable (c : Core)

/-! ## The states of the main process -/

/-- Reset branch. -/
def reset : Core where
  state := .idle
  edges := .low
  caSigr := 0
  stmStart := ⟨false, false, false, false⟩
  accCounter := 0
  rdTmp := false
  wrTmp := false
  s0Readdata := 0
  s0Readdatavalid := false
  currRowId := 0
  currPageId := 0
  bufferWrmem := 0
  buffer := fun _ => 0
  row := false
  inbufferValid := false

/-- The state `IDLE` dispatches to, in the priority of its `if` chain. -/
def dispatch (hit : Bool) : TopState :=
  if c.edges.regrRise then .rdreg
  else if c.edges.regwRise then .wrreg
  else if c.edges.memrRise then if hit then .rdmem1 else .rdmem2
  else if c.edges.memwRise then if hit then .wrmem1 else .rdmem2
  else .idle

/-- `row` after `IDLE` : set by an accepted read, cleared by an accepted write. -/
def dispatchRow : Bool :=
  if c.edges.regrRise || c.edges.regwRise then c.row
  else if c.edges.memrRise then true
  else if c.edges.memwRise then false
  else c.row

/-- `IDLE`. -/
def idle (hit : Bool) : Core :=
  { c with
    caSigr := 0, rdTmp := false, wrTmp := false, bufferWrmem := 0, s0Readdatavalid := false,
    accCounter := 8, inbufferValid := false, state := c.dispatch hit, row := c.dispatchRow }

/-- `RDREG`. -/
def rdreg (stmEnd : Bool) (ca : BitVec 48) : Core :=
  { c with
    state := if stmEnd then .idle else .rdreg
    stmStart := { c.stmStart with rdreg := !stmEnd }
    caSigr := ca }

/-- `WRREG`. -/
def wrreg (stmEnd : Bool) : Core :=
  { c with
    state := if stmEnd then .idle else .wrreg
    stmStart := { c.stmStart with wrreg := !stmEnd } }

/-- The `case (buf_addr)` of `RDMEM1`. -/
def readWord (sel : Option (Fin 8)) : BitVec 32 :=
  match sel with
  | some k => c.buffer k
  | none => 0

/-- The `case (buf_addr)` of `WRMEM1`. Its `default` branch clears word 0. -/
def writeWord (sel : Option (Fin 8)) (s0Writedata : BitVec 32) : Fin 8 → BitVec 32 :=
  match sel with
  | some k => Function.update c.buffer k s0Writedata
  | none => Function.update c.buffer 0 0

/-- The word `WRMEM1` writes. -/
def writtenWord (sel : Option (Fin 8)) : Fin 8 :=
  sel.getD 0

/-- `RDMEM1`. -/
def rdmem1 (sel : Option (Fin 8)) : Core :=
  { c with s0Readdata := c.readWord sel, s0Readdatavalid := true, state := .idle }

/-- `WRMEM1`. `buffer_wrmem` takes the words as they were before the update. -/
def wrmem1 (sel : Option (Fin 8)) (hit : Bool) (s0Writedata : BitVec 32) : Core :=
  let c' := { c with buffer := c.writeWord sel s0Writedata }
  if hit then
    { c' with state := .idle }
  else
    { c' with state := .wrmem2, inbufferValid := true, bufferWrmem := concat c.buffer }

/-- `RDMEM2`. The buffer shift runs beside the `stm_end` branch. -/
def rdmem2 (stmEnd : Bool) (d : Decoded) (bufferValid : Bool) (bufferDataout : BitVec 32) :
    Core :=
  let c' := { c with
    buffer := if bufferValid then shiftIn c.buffer bufferDataout else c.buffer }
  if stmEnd then
    if c.row then
      { c' with
        state := .rdmem1, currRowId := d.rowId, currPageId := d.pageId
        stmStart := { c.stmStart with rdmem := false } }
    else
      { c' with
        inbufferValid := false, state := .wrmem1
        stmStart := { c.stmStart with rdmem := false } }
  else
    { c' with
      stmStart := { c.stmStart with rdmem := c.rdTmp }, rdTmp := true, caSigr := d.outAddr }

/-- `WRMEM2`. -/
def wrmem2 (stmEnd : Bool) (d : Decoded) : Core :=
  if stmEnd then
    { c with
      inbufferValid := false, state := .accdly, currRowId := d.rowId, currPageId := d.pageId
      stmStart := { c.stmStart with wrmem := false } }
  else
    { c with
      inbufferValid := false, stmStart := { c.stmStart with wrmem := c.wrTmp }, wrTmp := true
      caSigr := d.outAddr }

/-- `ACCDLY`. -/
def accdly : Core :=
  if c.accCounter = 0 then { c with state := .idle }
  else { c with accCounter := c.accCounter - 1 }

end Core

namespace Pads

variable {w : ℕ}

/-- Reset branch of the output process. -/
def reset : Pads w where
  rwdsOut := false
  rwdsOe := false
  datain := 0
  oeData := false
  oeClk := false
  csn := true
  capturedS0Address := 0
  capturedCsrAddress := 0

end Pads

namespace Ctrl

/-- `csr_readdata`, 32 bits wide on the 16-bit output of `rdreg_stm`. -/
def csrReaddata {w : ℕ} (s : Ctrl w) : BitVec 32 :=
  s.rdreg.dataoutr.setWidth 32

/-- `csr_readdatavalid`. -/
def csrReaddatavalid {w : ℕ} (s : Ctrl w) : Bool :=
  s.rdreg.valid

variable (v : Variant) (s : Ctrl v.width)

/-- `addr_decode_inst`, on the captured address and the direction registers. -/
def decoded : Decoded :=
  addrDecode (s.pads.capturedS0Address.setWidth 32) s.core.rdTmp s.core.wrTmp

/-- The word `buf_addr` selects. -/
def bufSel : Option (Fin 8) :=
  v.wordSel (s.decoded v).bufferAddr

/-- `buffer_hit`. -/
def bufferHit : Bool :=
  v.bufferHit s.core.currRowId s.core.currPageId (s.decoded v)

/-- One clock of the main process. -/
def coreStep (i : Inputs v.width) : Core :=
  if i.rst then .reset
  else
    let c := s.core
    let d := s.decoded v
    let hit := s.bufferHit v
    let c' := match c.state with
      | .idle => c.idle hit
      | .rdreg => c.rdreg s.rdreg.stmEnd (v.csrCa s.pads.capturedCsrAddress)
      | .wrreg => c.wrreg false
      | .rdmem1 => c.rdmem1 (s.bufSel v)
      | .wrmem1 => c.wrmem1 (s.bufSel v) hit i.s0Writedata
      | .rdmem2 => c.rdmem2 s.rdmem.stmEnd d s.rdmem.wordvalid s.rdmem.dataoutr
      | .wrmem2 => c.wrmem2 s.wrmem.stmEnd d
      | .accdly => c.accdly
    { c' with edges := c.edges.sample i }

/-- The priority multiplexer in front of the output registers. -/
def mux {α : Type*} (rdreg wrreg rdmem wrmem none : α) : α :=
  let start := s.core.stmStart
  if start.rdreg then rdreg
  else if start.wrreg then wrreg
  else if start.rdmem then rdmem
  else if start.wrmem then wrmem
  else none

/-- One clock of the output process. -/
def padsStep (i : Inputs v.width) : Pads v.width :=
  if i.rst then .reset
  else
    { capturedS0Address :=
        if i.s0Read || i.s0Write then i.s0Address else s.pads.capturedS0Address
      capturedCsrAddress :=
        if i.csrRead || i.csrWrite then i.csrAddress else s.pads.capturedCsrAddress
      rwdsOut := if s.core.stmStart.wrmem then s.wrmem.rwdsOut else false
      rwdsOe := if s.core.stmStart.wrmem then s.wrmem.rwdsOe else false
      datain := s.mux v s.rdreg.datain 0 s.rdmem.datain s.wrmem.datain 0
      oeData := s.mux v s.rdreg.oe false s.rdmem.oe s.wrmem.oe false
      oeClk := s.mux v s.rdreg.oeClk false s.rdmem.oeClk s.wrmem.oeClk false
      csn := s.mux v s.rdreg.csn false s.rdmem.csn s.wrmem.csn true }

/-- Port map of `rdreg_inst`. -/
def rdregIn (i : Inputs v.width) : ReadIn :=
  ⟨i.rst, s.core.stmStart.rdreg, i.rwdsIn, i.dataout, s.core.caSigr⟩

/-- Port map of `rdmem_inst`. -/
def rdmemIn (i : Inputs v.width) : ReadIn :=
  ⟨i.rst, s.core.stmStart.rdmem, i.rwdsIn, i.dataout, s.core.caSigr⟩

/-- Port map of `wrmem_inst`. -/
def wrmemIn (i : Inputs v.width) : WriteIn :=
  ⟨i.rst, s.core.stmStart.wrmem, i.rwdsIn, s.core.bufferWrmem, s.core.inbufferValid,
    s.core.caSigr⟩

/-- One clock of the controller with its bus machines. -/
def step (i : Inputs v.width) : Ctrl v.width where
  core := s.coreStep v i
  pads := s.padsStep v i
  rdreg := s.rdreg.step (s.rdregIn v i)
  rdmem := s.rdmem.step (s.rdmemIn v i)
  wrmem := s.wrmem.step (s.wrmemIn v i)

end Ctrl

/-! ## The two controllers -/

/-- The controller of the packaged IP. Its `IDLE` and `WRMEM1` carry no test of `buffer_hit`,
which a `bufferHit` that is false gives. -/
def packaged : Variant where
  width := 22
  csrCa captured :=
    match captured with
    | 0x0#10 => 0xc000_0000_0000
    | 0x1#10 => 0xc000_0000_0001
    | 0x2#10 => 0xc000_0100_0000
    | 0x3#10 => 0xc000_0100_0001
    | _ => 0xc000_0000_0000
  wordSel bufAddr :=
    match bufAddr with
    | 0x0#5 => some 0
    | 0x1#5 => some 1
    | 0x2#5 => some 2
    | 0x3#5 => some 3
    | 0x4#5 => some 4
    | 0x5#5 => some 5
    | 0x6#5 => some 6
    | 0x7#5 => some 7
    | _ => none
  bufferHit _ _ _ := false

/-- The buffered controller at the root of the repository. -/
def buffered : Variant where
  width := 32
  csrCa captured :=
    match captured with
    | 0x0#10 => 0xc000_0000_0000
    | 0x4#10 => 0xc000_0000_0001
    | 0x8#10 => 0xc000_0100_0000
    | 0xc#10 => 0xc000_0100_0001
    | _ => 0xc000_0000_0000
  wordSel bufAddr :=
    match bufAddr with
    | 0x00#5 => some 0
    | 0x04#5 => some 1
    | 0x08#5 => some 2
    | 0x0c#5 => some 3
    | 0x10#5 => some 4
    | 0x14#5 => some 5
    | 0x18#5 => some 6
    | 0x1c#5 => some 7
    | _ => none
  bufferHit currRowId currPageId d := currRowId == d.rowId && currPageId == d.pageId

end HyperRam
