import HyperRam.Controller
import HyperRam.StmInvariants

/-!
# Register equations

`Ctrl.coreStep` follows the main process of the source, state by state and branch by branch, which
is the form to compare with the source. What becomes of one register is spread over its branches.
`Ctrl.registers` is the same clock read register by register : the next value of each one as an
expression in the registers before the edge. `coreStep_eq_registers` is their equality outside
reset, and what is proved about the main process goes through it : a proof about one register
unfolds one expression and splits on the state, and a change of a state in the source is met by the
one lemma that compares the two.

The rest is about the ways into the memory states, where the copies of the controller differ : a
hit leads from `IDLE` to `WRMEM1` and a miss to `RDMEM2` (`dispatch_wrmem1`, `dispatch_rdmem2`), and
`WRMEM2` is entered from `WRMEM1` without a hit only (`enters_wrmem2`).
-/

namespace HyperRam

open Clocked

namespace Ctrl

variable (v : Variant) (s : Ctrl v.width) (i : Inputs v.width)

/-- The main process register by register. -/
def registers : Core where
  state := match s.core.state with
    | .idle => s.core.dispatch (s.bufferHit v)
    | .rdreg => if s.rdreg.stmEnd then .idle else .rdreg
    | .wrreg => .wrreg
    | .rdmem1 => .idle
    | .wrmem1 => if s.bufferHit v then .idle else .wrmem2
    | .rdmem2 => if s.rdmem.stmEnd then if s.core.row then .rdmem1 else .wrmem1 else .rdmem2
    | .wrmem2 => if s.wrmem.stmEnd then .accdly else .wrmem2
    | .accdly => if s.core.accCounter = 0 then .idle else .accdly
  edges := s.core.edges.sample i
  caSigr := match s.core.state with
    | .idle => 0
    | .rdreg => v.csrCa s.pads.capturedCsrAddress
    | .rdmem2 => if s.rdmem.stmEnd then s.core.caSigr else (s.decoded v).outAddr
    | .wrmem2 => if s.wrmem.stmEnd then s.core.caSigr else (s.decoded v).outAddr
    | _ => s.core.caSigr
  stmStart :=
    { rdreg := if s.core.state = .rdreg then !s.rdreg.stmEnd else s.core.stmStart.rdreg
      wrreg := decide (s.core.state = .wrreg) || s.core.stmStart.wrreg
      rdmem := if s.core.state = .rdmem2 then !s.rdmem.stmEnd && s.core.rdTmp
        else s.core.stmStart.rdmem
      wrmem := if s.core.state = .wrmem2 then !s.wrmem.stmEnd && s.core.wrTmp
        else s.core.stmStart.wrmem }
  accCounter := match s.core.state with
    | .idle => 8
    | .accdly => if s.core.accCounter = 0 then s.core.accCounter else s.core.accCounter - 1
    | _ => s.core.accCounter
  rdTmp := match s.core.state with
    | .idle => false
    | .rdmem2 => s.core.rdTmp || !s.rdmem.stmEnd
    | _ => s.core.rdTmp
  wrTmp := match s.core.state with
    | .idle => false
    | .wrmem2 => s.core.wrTmp || !s.wrmem.stmEnd
    | _ => s.core.wrTmp
  s0Readdata :=
    if s.core.state = .rdmem1 then s.core.readWord (s.bufSel v) else s.core.s0Readdata
  s0Readdatavalid := match s.core.state with
    | .idle => false
    | .rdmem1 => true
    | _ => s.core.s0Readdatavalid
  currRowId := match s.core.state with
    | .rdmem2 => if s.rdmem.stmEnd && s.core.row then (s.decoded v).rowId else s.core.currRowId
    | .wrmem2 => if s.wrmem.stmEnd then (s.decoded v).rowId else s.core.currRowId
    | _ => s.core.currRowId
  currPageId := match s.core.state with
    | .rdmem2 => if s.rdmem.stmEnd && s.core.row then (s.decoded v).pageId else s.core.currPageId
    | .wrmem2 => if s.wrmem.stmEnd then (s.decoded v).pageId else s.core.currPageId
    | _ => s.core.currPageId
  bufferWrmem := match s.core.state with
    | .idle => 0
    | .wrmem1 => if s.bufferHit v then s.core.bufferWrmem else concat s.core.buffer
    | _ => s.core.bufferWrmem
  buffer := match s.core.state with
    | .wrmem1 => s.core.writeWord (s.bufSel v) i.s0Writedata
    | .rdmem2 =>
      if s.rdmem.wordvalid then shiftIn s.core.buffer s.rdmem.dataoutr else s.core.buffer
    | _ => s.core.buffer
  row := if s.core.state = .idle then s.core.dispatchRow else s.core.row
  inbufferValid := match s.core.state with
    | .idle => false
    | .wrmem1 => !s.bufferHit v || s.core.inbufferValid
    | .rdmem2 => (!s.rdmem.stmEnd || s.core.row) && s.core.inbufferValid
    | .wrmem2 => false
    | _ => s.core.inbufferValid

variable {v s i}

@[simp] theorem step_core : (s.step v i).core = s.coreStep v i :=
  rfl

@[simp] theorem step_pads : (s.step v i).pads = s.padsStep v i :=
  rfl

@[simp] theorem step_rdreg : (s.step v i).rdreg = s.rdreg.step (s.rdregIn v i) :=
  rfl

@[simp] theorem step_rdmem : (s.step v i).rdmem = s.rdmem.step (s.rdmemIn v i) :=
  rfl

@[simp] theorem step_wrmem : (s.step v i).wrmem = s.wrmem.step (s.wrmemIn v i) :=
  rfl

theorem coreStep_reset (hr : i.rst = true) : s.coreStep v i = .reset := by
  simp [coreStep, hr]

theorem padsStep_reset (hr : i.rst = true) : s.padsStep v i = .reset := by
  simp [padsStep, hr]

theorem coreStep_eq_registers (hr : i.rst = false) : s.coreStep v i = s.registers v i := by
  unfold coreStep registers
  rw [if_neg (by simp [hr])]
  cases hs : s.core.state
  case idle => simp [Core.idle, hs]
  case rdreg => simp [Core.rdreg, hs]
  case wrreg => simp [Core.wrreg, hs]
  case rdmem1 => simp [Core.rdmem1, hs]
  case wrmem1 => cases hh : s.bufferHit v <;> simp [Core.wrmem1, hs]
  case rdmem2 =>
    cases he : s.rdmem.stmEnd <;> cases hrow : s.core.row <;> simp [Core.rdmem2, hs, hrow]
  case wrmem2 => cases he : s.wrmem.stmEnd <;> simp [Core.wrmem2, hs]
  case accdly => by_cases h : s.core.accCounter = 0#4 <;> simp [Core.accdly, h, hs]

/-! ## Ways into the memory states -/

/-- `IDLE` goes to `WRMEM1` on a hit only. -/
theorem dispatch_wrmem1 {c : Core} {hit : Bool} (h : c.dispatch hit = .wrmem1) : hit = true := by
  unfold Core.dispatch at h
  split_ifs at h
  assumption

theorem dispatch_ne_wrmem2 {c : Core} {hit : Bool} : c.dispatch hit ≠ .wrmem2 := by
  unfold Core.dispatch
  split_ifs <;> simp

/-- `IDLE` goes to `RDMEM2` on a miss only. -/
theorem dispatch_rdmem2 {c : Core} {hit : Bool} (h : c.dispatch hit = .rdmem2) : hit = false := by
  unfold Core.dispatch at h
  split_ifs at h <;> simp_all

/-- `WRMEM2` is entered from `WRMEM1`, without a hit. -/
theorem enters_wrmem2 (hr : i.rst = false) (hs : s.core.state ≠ .wrmem2)
    (hs' : (s.step v i).core.state = .wrmem2) :
    s.core.state = .wrmem1 ∧ s.bufferHit v = false := by
  rw [step_core, coreStep_eq_registers hr] at hs'
  cases hst : s.core.state <;> simp only [registers, hst] at hs'
  case idle => exact absurd hs' dispatch_ne_wrmem2
  case wrmem2 => exact absurd hst hs
  case wrmem1 =>
    cases hhit : s.bufferHit v
    case true => simp [hhit] at hs'
    case false => exact ⟨rfl, rfl⟩
  all_goals (try split_ifs at hs') <;> simp at hs'

end Ctrl

end HyperRam
