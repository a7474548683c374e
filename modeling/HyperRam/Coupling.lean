import HyperRam.Clocked.Run
import HyperRam.Registers

/-!
# The controller and its machines

A run of a controller starts with the registers that a reset clock leaves, whatever they held
before (`AfterReset`), and goes on under any inputs, further resets included.

A `Transaction` stands for one of the three bus machines, together with all that the controller has
for it : the state in which it is started and waited for (`home`), its start bit, the direction
register that the start bit follows, and the view of it as a bus machine (`Ctrl.bus`). A lemma
about a transaction is one about all three of them, and most of what follows is stated so. The main
process is the requester of the start/end handshake with each of them (`requester`).

`Inv` is the invariant of the product : each machine keeps its own (`StmInvariants`), the
handshake of each transaction holds, and a start bit comes behind its direction register. `Inv.step`
puts the steps of the machines and the one of the handshake together. It holds in every cycle of
every run (`Ctrl.Run.inv`), for every variant of the controller.
-/

namespace HyperRam

open Clocked

namespace Ctrl

/-! ## Runs -/

/-- The registers right after a clock with `rst`, whatever they held before. -/
def AfterReset (v : Variant) (s : Ctrl v.width) : Prop :=
  ∃ (s₀ : Ctrl v.width) (i : Inputs v.width), i.rst = true ∧ s = s₀.step v i

/-- The reset state with every register at its power-up value `0` where reset leaves it. -/
def cleared (w : ℕ) : Ctrl w where
  core := .reset
  pads := .reset
  rdreg := ⟨false, false, false, true, false, 0, 0, .idle, fun _ => 0⟩
  rdmem := ⟨false, false, false, true, 0, false, 0, .idle, fun _ => 0, false⟩
  wrmem := ⟨false, false, false, true, false, false, 0, .idle, fun _ => 0⟩

/-- No request, no reset, `rwds` high. -/
def quiet {w : ℕ} : Inputs w :=
  ⟨false, true, 0, 0, false, false, 0, 0, false, false, 0⟩

theorem afterReset_cleared (v : Variant) : AfterReset v (cleared v.width) := by
  refine ⟨cleared v.width, { quiet with rst := true }, rfl, ?_⟩
  simp [step, coreStep, padsStep, RdregStm.step, RdmemStm.step, WrmemStm.step, rdregIn,
    rdmemIn, wrmemIn, cleared]

/-- A run of a controller from reset. -/
abbrev Run (v : Variant) : Type :=
  Clocked.Run (AfterReset v) (Ctrl.step v)

/-- The run of the packaged IP from the cleared registers under the inputs `i`. -/
def ipRun (i : ℕ → Inputs packaged.width) : Ctrl.Run packaged :=
  .ofInputs (afterReset_cleared packaged) i

/-! ## The machines of a controller -/

end Ctrl

/-- A transaction on the bus, by the machine that runs it. -/
inductive Transaction
  | rdreg
  | rdmem
  | wrmem
  deriving DecidableEq, Repr

namespace Transaction

instance : Fintype Transaction where
  elems := {rdreg, rdmem, wrmem}
  complete k := by cases k <;> decide

/-- The state in which the main process starts the transaction and waits for its end. -/
@[simp]
def home : Transaction → TopState
  | rdreg => .rdreg
  | rdmem => .rdmem2
  | wrmem => .wrmem2

theorem home_injective : home.Injective := by
  intro k k' h
  cases k <;> cases k' <;> simp at h ⊢

/-- Data words behind the command in the shift register. -/
def data : Transaction → ℕ
  | rdreg => 0
  | rdmem => 0
  | wrmem => 16

/-- The last count of `STATE_RUN`. -/
@[simp]
def last : Transaction → ℕ
  | rdreg => 14
  | rdmem => 32
  | wrmem => 29

end Transaction

/-- The start bit of a transaction. -/
@[simp]
def Core.start (c : Core) : Transaction → Bool
  | .rdreg => c.stmStart.rdreg
  | .rdmem => c.stmStart.rdmem
  | .wrmem => c.stmStart.wrmem

/-- The direction register that the start bit follows. `RDREG` raises its start bit at once. -/
@[simp]
def Core.tmp (c : Core) : Transaction → Bool
  | .rdreg => true
  | .rdmem => c.rdTmp
  | .wrmem => c.wrTmp

namespace Ctrl

/-- The machine of a transaction. -/
def bus {w : ℕ} (s : Ctrl w) : (k : Transaction) → BusStm k.data
  | .rdreg => s.rdreg.bus
  | .rdmem => s.rdmem.bus
  | .wrmem => s.wrmem.bus

@[simp] theorem bus_rdreg {w : ℕ} (s : Ctrl w) : s.bus .rdreg = s.rdreg.bus :=
  rfl

@[simp] theorem bus_rdmem {w : ℕ} (s : Ctrl w) : s.bus .rdmem = s.rdmem.bus :=
  rfl

@[simp] theorem bus_wrmem {w : ℕ} (s : Ctrl w) : s.bus .wrmem = s.wrmem.bus :=
  rfl

/-- The main process is the requester of a transaction. -/
theorem requester {v : Variant} {s : Ctrl v.width} {i : Inputs v.width} (k : Transaction)
    (ht : s.core.start k = true → s.core.tmp k = true) :
    Requester (s.core.state = k.home) (s.core.start k) (s.bus k).stmEnd
      ((s.registers v i).state = k.home) ((s.registers v i).start k) := by
  cases k
  case rdreg =>
    cases hs : s.core.state <;> cases he : s.rdreg.stmEnd <;> constructor <;>
      simp [registers, hs, he]
  case rdmem =>
    cases hs : s.core.state <;> cases he : s.rdmem.stmEnd <;> cases hrow : s.core.row <;>
      constructor <;> simp [registers, hs, he, hrow] <;> exact ht
  case wrmem =>
    cases hs : s.core.state <;> cases he : s.wrmem.stmEnd <;> constructor <;>
      simp [registers, hs, he]
    exact ht

/-! ## The invariant -/

/-- What holds of a controller and its machines in every cycle after a reset. -/
structure Inv {w : ℕ} (s : Ctrl w) : Prop where
  rdreg : s.rdreg.Inv
  rdmem : s.rdmem.Inv
  wrmem : s.wrmem.Inv
  handshake : ∀ k, Handshake (s.core.state = k.home) (s.core.start k) (s.bus k).state.busy
    (s.bus k).stmEnd
  tmp : ∀ k, s.core.start k = true → s.core.tmp k = true
  startWrreg : s.core.stmStart.wrreg = true → s.core.state = .wrreg
  accCounter : s.core.accCounter ≤ 8
  readdatavalid : s.core.s0Readdatavalid = true → s.core.state = .idle

/-- Each machine keeps the invariant of a bus machine. -/
theorem Inv.bus {w : ℕ} {s : Ctrl w} (h : s.Inv) (k : Transaction) : (s.bus k).Inv k.last := by
  cases k
  · exact h.rdreg.bus
  · exact h.rdmem.bus
  · exact h.wrmem.bus

variable {v : Variant} {s : Ctrl v.width} {i : Inputs v.width}

/-- A clock outside reset is one of each bus machine. -/
theorem Inv.next (h : s.Inv) (hr : i.rst = false) (k : Transaction) :
    (s.bus k).Next k.last (s.core.start k) i.rwdsIn s.core.caSigr ((s.step v i).bus k) := by
  cases k
  · exact h.rdreg.bus_step (i := s.rdregIn v i) hr
  · exact h.rdmem.bus_step (i := s.rdmemIn v i) hr
  · exact h.wrmem.bus_step (i := s.wrmemIn v i) hr

/-- A reset leaves every machine in `STATE_IDLE`. -/
theorem bus_reset (hr : i.rst = true) (k : Transaction) : ((s.step v i).bus k).state = .idle := by
  cases k
  · exact (RdregStm.isBusStm.reset _ (s.rdregIn v i) hr).1
  · exact (RdmemStm.isBusStm.reset _ (s.rdmemIn v i) hr).1
  · exact (WrmemStm.isBusStm.reset _ (s.wrmemIn v i) hr).1

theorem inv_reset (hr : i.rst = true) : (s.step v i).Inv where
  rdreg := RdregStm.inv_reset (i := s.rdregIn v i) hr
  rdmem := RdmemStm.inv_reset (i := s.rdmemIn v i) hr
  wrmem := WrmemStm.inv_reset (i := s.wrmemIn v i) hr
  handshake k := by
    rw [bus_reset hr, step_core, coreStep_reset hr]
    cases k <;> exact .rest _
  tmp k := by
    rw [step_core, coreStep_reset hr]
    cases k <;> simp [Core.reset]
  startWrreg := by simp [coreStep_reset hr, Core.reset]
  accCounter := by simp [coreStep_reset hr, Core.reset]
  readdatavalid := by simp [coreStep_reset hr, Core.reset]

theorem Inv.step (h : s.Inv) (i : Inputs v.width) : (s.step v i).Inv := by
  by_cases hr : i.rst = true
  · exact inv_reset hr
  rw [Bool.not_eq_true] at hr
  have hcore : (s.step v i).core = s.registers v i := coreStep_eq_registers hr
  constructor
  case rdreg => exact h.rdreg.step _
  case rdmem => exact h.rdmem.step _
  case wrmem => exact h.wrmem.step _
  case handshake =>
    intro k
    rw [hcore]
    exact (h.handshake k).step (requester k (h.tmp k)) ((h.next hr k).server (h.bus k))
  case tmp =>
    intro k
    have htmp := h.tmp k
    have hhome := (h.handshake k).start_home
    rw [hcore]
    cases k <;> cases hs : s.core.state <;> simp_all [registers]
  case startWrreg =>
    have := h.startWrreg
    rw [hcore]
    cases hs : s.core.state <;> simp_all [registers]
  case accCounter =>
    have := h.accCounter
    rw [hcore]
    cases hs : s.core.state <;> simp only [registers, hs]
    case accdly => split_ifs <;> bv_omega
    all_goals first | exact this | decide
  case readdatavalid =>
    have := h.readdatavalid
    rw [hcore]
    cases hs : s.core.state <;> simp_all [registers]

/-- The invariant holds along a trace. -/
theorem inv_trace (h : s.Inv) {is : ℕ → Inputs v.width} :
    ∀ n, (trace (Ctrl.step v) s is n).Inv
  | 0 => h
  | n + 1 => (inv_trace h n).step _

namespace Run

/-- The invariant holds in every cycle of a run. -/
theorem inv (r : Run v) : ∀ t, (r.state t).Inv :=
  r.invariant (by rintro s ⟨s₀, i, hr, rfl⟩; exact inv_reset hr) fun _ i h => h.step i

end Run

end Ctrl

end HyperRam
