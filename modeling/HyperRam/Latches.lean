import HyperRam.LineWrite
import HyperRam.OneAtATime

/-!
# What the machines latch

A bus machine takes its command over in `STATE_IDLE`, and `wrmem_stm` with it the line value
under `valid`. This module says what they get, for requests whose address is held until the
controller is back in `IDLE` (`AddressHeld`). Then from one cycle in a memory state to the next
the captured address stands still (`captured_succ`), through any resets between requests.

`rd_tmp` is the direction bit of the command. It is set in `RDMEM2` and cleared
in `IDLE` only, so the command of a line write is a read command of the right line. A start bit that
is up was raised on the clock before (`core_succ_of_start`), so a machine that leaves
`STATE_IDLE` finds the command formed from the captured address (`ca_of_start`), and
`ip_commandLatch_iff` compares it with the one that it should be : it is right on a clock if and
only if no line write starts on it.

The line value is the buffer as `RDMEM2` left it : `WRMEM1` takes it together with changing the
word, so the changed word is in it only if it was there before. For a held write `RDMEM2` hands the
buffer over (`HandsOver`), the machine loads a value two clocks behind that and at no other time
(`HandsOver.loads`, `HandsOver.eq_of_loads`), and `ip_merge_iff` says when it is the line with the
word in it.
-/

namespace HyperRam

open Clocked

namespace Ctrl

namespace Run

variable (r : Ctrl.Run packaged)

/-! ## Requests with a held address -/

/-- The `s0` request on the port in cycle `t` is accepted, in cycle `t + 1`. -/
def Takes (t : ℕ) : Prop :=
  (r.state (t + 1)).accepts = some .s0Read ∨ (r.state (t + 1)).accepts = some .s0Write

/-- The address of an accepted `s0` request is held until the controller is back in `IDLE`. -/
def AddressHeld : Prop :=
  ∀ t u, Run.Takes r t → Run.UnderWay r t u → (r.input u).s0Address = (r.input t).s0Address

variable {r}

/-- Nothing is accepted right after a reset. -/
theorem rst_of_takes {t : ℕ} (h : Run.Takes r t) : (r.input t).rst = false := by
  by_contra hr
  have hedges : (r.state (t + 1)).core.edges = .low := by
    rw [r.clock, step_core, coreStep_reset (by simpa using hr)]
    rfl
  rcases h with h | h
  · simpa [hedges] using accepts_rise h
  · simpa [hedges] using accepts_rise h

/-- The port of an accepted request was up. -/
theorem port_of_takes {t : ℕ} (h : Run.Takes r t) :
    ((r.input t).s0Read || (r.input t).s0Write) = true := by
  have hedges : (r.state (t + 1)).core.edges = (r.state t).core.edges.sample (r.input t) := by
    rw [r.clock, step_core, coreStep_eq_registers (rst_of_takes h)]
    rfl
  have hport : ∀ q, (r.state (t + 1)).accepts = some q → q.port (r.input t) = true := fun q hq => by
    have hrise := accepts_rise hq
    rw [hedges, Request.rise_sample, Bool.and_eq_true] at hrise
    exact hrise.1
  rcases h with h | h
  · exact Bool.or_eq_true_iff.2 (.inl (hport _ h))
  · exact Bool.or_eq_true_iff.2 (.inr (hport _ h))

/-- `IDLE` goes to a memory state with an accepted `s0` request. -/
theorem accepts_of_dispatch {s : Ctrl packaged.width} (hs : s.core.state = .idle) {hit : Bool}
    (h0 : s.core.dispatch hit ≠ .idle) (h1 : s.core.dispatch hit ≠ .rdreg)
    (h2 : s.core.dispatch hit ≠ .wrreg) :
    s.accepts = some .s0Read ∨ s.accepts = some .s0Write := by
  rw [accepts, if_pos hs]
  unfold Core.dispatch at h0 h1 h2
  split_ifs at h0 h1 h2 ⊢ <;> simp_all

/-- The memory states are entered with an accepted `s0` request. -/
theorem takes_of_enters {x : ℕ}
    (hx : ¬((r.state x).core.state ≠ .idle ∧ (r.state x).core.state ≠ .rdreg ∧
      (r.state x).core.state ≠ .wrreg))
    (h0 : (r.state (x + 1)).core.state ≠ .idle) (h1 : (r.state (x + 1)).core.state ≠ .rdreg)
    (h2 : (r.state (x + 1)).core.state ≠ .wrreg) : ∃ t, x = t + 1 ∧ Run.Takes r t := by
  have hr : (r.input x).rst = false := Bool.eq_false_iff.2 fun hr =>
    h0 (by rw [r.clock, step_core, coreStep_reset hr]; rfl)
  have hnext : (r.state (x + 1)).core.state =
      ((r.state x).registers packaged (r.input x)).state := by
    rw [r.clock, step_core, coreStep_eq_registers hr]
  rw [hnext] at h0 h1 h2
  cases hs : (r.state x).core.state <;> simp only [registers, hs] at h0 h1 h2
  case idle =>
    have ha := accepts_of_dispatch hs h0 h1 h2
    cases x with
    | zero => simp [accepts, (AfterReset.idle r.start).1, Core.reset, Edges.low, Edges.regrRise,
        Edges.regwRise, Edges.memrRise, Edges.memwRise] at ha
    | succ t => exact ⟨t, rfl, ha⟩
  case rdreg => split_ifs at h0 h1 <;> simp at h0 h1
  case wrreg => exact absurd rfl h2
  all_goals exact absurd ⟨by simp [hs], by simp [hs], by simp [hs]⟩ hx

/-- In a memory state an accepted `s0` request is under way. -/
theorem exists_takes {u : ℕ} (h0 : (r.state u).core.state ≠ .idle)
    (h1 : (r.state u).core.state ≠ .rdreg) (h2 : (r.state u).core.state ≠ .wrreg) :
    ∃ t, Run.Takes r t ∧ t + 2 ≤ u ∧ Run.UnderWay r t u := by
  obtain ⟨a, hau, ⟨t, rfl, ht⟩, -, hmem⟩ := opened_by
    (p := fun x => (r.state x).core.state ≠ .idle ∧ (r.state x).core.state ≠ .rdreg ∧
      (r.state x).core.state ≠ .wrreg)
    (q := fun x => ∃ t, x = t + 1 ∧ Run.Takes r t)
    (by simp [(AfterReset.idle r.start).1, Core.reset])
    (fun x hx hx' => takes_of_enters hx hx'.1 hx'.2.1 hx'.2.2) u ⟨h0, h1, h2⟩
  exact ⟨t, ht, by omega, by omega, fun x hx hxu => (hmem x (by omega) hxu).1⟩

/-- There is no reset while a request is under way. -/
theorem rst_of_underWay {t u : ℕ} (h : Run.UnderWay r t (u + 1)) (hu : t < u) :
    (r.input u).rst = false := Bool.eq_false_iff.2 fun hr =>
  h.2 (u + 1) (by omega) le_rfl (by rw [r.clock, step_core, coreStep_reset hr]; rfl)

/-- The captured address of a request under way is the one it came with. -/
theorem captured_of_takes (h : Run.AddressHeld r) {t : ℕ} (ht : Run.Takes r t) :
    ∀ {u}, Run.UnderWay r t u →
      (r.state u).pads.capturedS0Address = (r.input t).s0Address
  | 0, hu => absurd hu.1 (by omega)
  | u + 1, hu => by
    have htu := hu.1
    rcases Nat.lt_or_ge t u with hlt | hge
    · have hway : Run.UnderWay r t u := ⟨hlt, fun x hx hxu => hu.2 x hx (by omega)⟩
      rw [r.clock, step_pads]
      simp only [padsStep, rst_of_underWay hu hlt, Bool.false_eq_true, if_false,
        captured_of_takes h ht hway, h t u ht hway, ite_self]
    · obtain rfl : t = u := by omega
      rw [r.clock, step_pads]
      simp only [padsStep, rst_of_takes ht, port_of_takes ht, Bool.false_eq_true, if_false,
        if_true]

/-- From one cycle in a memory state to the next the captured address stands still. -/
theorem captured_succ (h : Run.AddressHeld r) {u : ℕ} (h0 : (r.state u).core.state ≠ .idle)
    (h1 : (r.state u).core.state ≠ .rdreg) (h2 : (r.state u).core.state ≠ .wrreg)
    (hu : (r.state (u + 1)).core.state ≠ .idle) :
    (r.state (u + 1)).pads.capturedS0Address = (r.state u).pads.capturedS0Address := by
  obtain ⟨t, ht, htu, hway⟩ := exists_takes h0 h1 h2
  have hnext : Run.UnderWay r t (u + 1) := by
    refine ⟨by omega, fun x hx hxu => ?_⟩
    rcases Nat.lt_or_ge u x with hlt | hge
    · obtain rfl : x = u + 1 := by omega
      exact hu
    · exact hway.2 x hx hge
  rw [captured_of_takes h ht hway, captured_of_takes h ht hnext]

/-! ## The command -/

/-- In the memory states behind `RDMEM2` the direction register says read. -/
theorem direction : ∀ t, (r.state t).core.state = .rdmem1 ∨ (r.state t).core.state = .wrmem1 ∨
    (r.state t).core.state = .wrmem2 → (r.state t).core.rdTmp = true
  | 0 => by simp [(AfterReset.idle r.start).1, Core.reset]
  | t + 1 => by
    rw [r.clock, step_core]
    cases hr : (r.input t).rst
    case true => simp [coreStep_reset hr, Core.reset]
    case false =>
      rw [coreStep_eq_registers hr]
      exact (r.inv t).direction_step (direction t)

/-- The command of a `csr` address is a read command. -/
theorem csrCa_msb (a : BitVec 10) : (packaged.csrCa a).msb = true := by
  simp only [packaged]
  split <;> decide

/-- A start bit that is up was raised on the clock before, which was not a reset. -/
theorem core_succ_of_start {t : ℕ} {k : Transaction} (hst : (r.state t).core.start k = true) :
    ∃ y, t = y + 1 ∧ (r.input y).rst = false ∧
      (r.state t).core = (r.state y).registers packaged (r.input y) := by
  have hno : Core.reset.start k = false := by cases k <;> rfl
  cases t with
  | zero =>
    rw [(AfterReset.idle r.start).1] at hst
    exact absurd (hno.symm.trans hst) (by simp)
  | succ y =>
    have hr : (r.input y).rst = false := Bool.eq_false_iff.2 fun hr => by
      rw [r.clock, step_core, coreStep_reset hr] at hst
      exact absurd (hno.symm.trans hst) (by simp)
    exact ⟨y, rfl, hr, by rw [r.clock, step_core, coreStep_eq_registers hr]⟩

/-- A started `rdreg_stm` has a read command. -/
theorem rdreg_ca_msb {t : ℕ} (hst : (r.state t).core.start .rdreg = true) :
    (r.state t).core.caSigr.msb = true := by
  obtain ⟨y, rfl, -, hcore⟩ := core_succ_of_start hst
  rw [hcore] at hst ⊢
  have hs := ((r.inv y).raises .rdreg hst).1
  simp only [Transaction.home] at hs
  simp only [registers, hs]
  exact csrCa_msb _

/-- A memory machine is started with the command of the captured address. -/
theorem ca_of_start (h : Run.AddressHeld r) {t : ℕ} {k : Transaction} (hk : k ≠ .rdreg)
    (hst : (r.state t).core.start k = true) :
    (r.state t).core.caSigr = command packaged (r.state t) := by
  have hhome := (r.inv t).home k hst
  obtain ⟨y, rfl, hr, hcore⟩ := core_succ_of_start hst
  rw [hcore] at hst
  obtain ⟨hs, he, ht⟩ := (r.inv y).raises k hst
  have hcap := captured_succ h (u := y) (by cases k <;> simp [hs]) (by cases k <;> simp_all)
    (by cases k <;> simp [hs]) (by cases k <;> simp [hhome])
  have htmp : ((r.state y).registers packaged (r.input y)).rdTmp = (r.state y).core.rdTmp := by
    cases k <;> simp_all [registers]
  rw [command_eq hcap (by rw [hcore, htmp]), hcore]
  cases k <;> simp_all [registers, command]

end Run

/-- The machine leaves `STATE_IDLE` on the clock from `s` to `s'`. -/
def Leaves (state state' : FsmState) : Prop :=
  state = .idle ∧ state' ≠ .idle

instance (state state' : FsmState) : Decidable (Leaves state state') :=
  inferInstanceAs (Decidable (_ ∧ _))

/-- The commands latched on the clock from `s` to `s'` : a read has bit 47 set, a line write has
it clear, and the rest is what `addr_decode` gives for the captured address. -/
structure CommandLatch (s s' : Ctrl packaged.width) : Prop where
  rdreg : Leaves s.rdreg.state s'.rdreg.state → s.core.caSigr.msb = true
  rdmem : Leaves s.rdmem.state s'.rdmem.state → s.core.caSigr.msb = true ∧
    s.core.caSigr.extractLsb' 0 47 = (s.decoded packaged).outAddr.extractLsb' 0 47
  wrmem : Leaves s.wrmem.state s'.wrmem.state → s.core.caSigr.msb = false ∧
    s.core.caSigr.extractLsb' 0 47 = (s.decoded packaged).outAddr.extractLsb' 0 47

namespace Run

variable {r : Ctrl.Run packaged}

/-- A machine leaves `STATE_IDLE` with its start bit up. -/
theorem start_of_leaves {t : ℕ} (k : Transaction)
    (hl : Leaves ((r.state t).bus k).state ((r.state (t + 1)).bus k).state) :
    (r.state t).core.start k = true := by
  by_contra hst
  rw [r.clock] at hl
  exact hl.2 ((r.inv t).rest k (by simpa using hst))

end Run

/-- In a run of the packaged IP with held addresses the commands latched on a clock are as they
should be if and only if no line write starts on it. -/
theorem ip_commandLatch_iff {r : Ctrl.Run packaged} (h : Run.AddressHeld r) (t : ℕ) :
    CommandLatch (r.state t) (r.state (t + 1)) ↔
      ¬Leaves (r.state t).wrmem.state (r.state (t + 1)).wrmem.state := by
  constructor
  · intro hlatch hl
    have hst := Run.start_of_leaves .wrmem hl
    have hmsb : (r.state t).core.caSigr.msb = true := by
      rw [Run.ca_of_start h (k := .wrmem) (by simp) hst, command, decoded, outAddr_msb]
      exact Run.direction t (.inr (.inr ((r.inv t).home .wrmem hst)))
    exact Bool.false_ne_true ((hlatch.wrmem hl).1.symm.trans hmsb)
  · intro hno
    refine ⟨fun hl => Run.rdreg_ca_msb (Run.start_of_leaves .rdreg hl), fun hl => ?_,
      fun hl => absurd hl hno⟩
    have hst := Run.start_of_leaves .rdmem hl
    rw [Run.ca_of_start h (k := .rdmem) (by simp) hst, command]
    refine ⟨?_, rfl⟩
    rw [decoded, outAddr_msb]
    exact (r.inv t).tmp .rdmem hst

/-- A write of `5` to address `0`. -/
def writeFive (t : ℕ) : Inputs packaged.width :=
  { quiet with s0Write := t < 2, s0Writedata := 5 }

theorem addressHeld_writeFive : Run.AddressHeld (ipRun writeFive) :=
  fun _ _ _ _ => rfl

/-- The line read of the write. -/
theorem ip_commandLatch_iff_writeFive :
    CommandLatch ((ipRun writeFive).state 4) ((ipRun writeFive).state 5) ↔
      ¬Leaves ((ipRun writeFive).state 4).wrmem.state ((ipRun writeFive).state 5).wrmem.state :=
  ip_commandLatch_iff addressHeld_writeFive 4

/-- The line write of the write has bit 47 set. -/
theorem ip_commandLatch_fails : ¬∀ r : Ctrl.Run packaged, Run.AddressHeld r →
    ∀ t, CommandLatch (r.state t) (r.state (t + 1)) := by
  intro h
  have hl : Leaves ((ipRun writeFive).state 47).wrmem.state
      ((ipRun writeFive).state 48).wrmem.state := by
    decide +kernel
  have hmsb : ((ipRun writeFive).state 47).core.caSigr.msb = true := by decide +kernel
  have hlatch := h (ipRun writeFive) addressHeld_writeFive 47
  exact Bool.false_ne_true ((hlatch.wrmem hl).1.symm.trans hmsb)

/-! ## The line value -/

/-- The line value of the words `L` with word `k` replaced by `x`. -/
def merged (L : Fin 8 → BitVec 32) (k : Fin 8) (x : BitVec 32) : BitVec 256 :=
  concat (Function.update L k x)

/-- The merge changes nothing iff the word was there before. -/
theorem concat_eq_merged_iff {L : Fin 8 → BitVec 32} {k : Fin 8} {x : BitVec 32} :
    concat L = merged L k x ↔ L k = x := by
  rw [merged, concat_inj, eq_comm, Function.update_eq_self_iff, eq_comm]

section step

variable {s : Ctrl packaged.width} {i : Inputs packaged.width}

/-- `inbuffer_valid` goes up with the clock of `WRMEM1`. -/
theorem inbufferValid_step (h : s.core.inbufferValid = true → s.core.state = .wrmem2) :
    (s.registers packaged i).inbufferValid = true ↔ s.core.state = .wrmem1 := by
  have hhit : s.bufferHit packaged = false := rfl
  have hlow : s.core.state ≠ .wrmem2 → s.core.inbufferValid = false := fun hs =>
    Bool.eq_false_iff.2 fun hv => hs (h hv)
  cases hs : s.core.state <;> simp only [registers, hs, hhit]
  case idle => simp
  case wrmem1 => simp
  case wrmem2 => simp
  all_goals simp [hlow (by simp [hs])]

end step

namespace Run

variable {r : Ctrl.Run packaged}

/-- `inbuffer_valid` comes from a clock of `WRMEM1`. -/
theorem inbufferValid_iff : ∀ {t}, (r.state t).core.inbufferValid = true ↔
    ∃ y, t = y + 1 ∧ (r.input y).rst = false ∧ (r.state y).core.state = .wrmem1
  | 0 => by simp [(AfterReset.idle r.start).1, Core.reset]
  | t + 1 => by
    have hprev : (r.state t).core.inbufferValid = true → (r.state t).core.state = .wrmem2 :=
      fun hv => by
        obtain ⟨y, rfl, hr, hs⟩ := inbufferValid_iff.1 hv
        have hhit : (r.state y).bufferHit packaged = false := rfl
        rw [r.clock, step_core, coreStep_eq_registers hr]
        simp [registers, hs, hhit]
    rw [r.clock, step_core]
    cases hr : (r.input t).rst
    case true =>
      rw [coreStep_reset hr]
      refine ⟨fun hv => absurd hv (by simp [Core.reset]), ?_⟩
      rintro ⟨y, hy, hry, -⟩
      obtain rfl : t = y := by omega
      exact absurd (hr.symm.trans hry) (by simp)
    case false =>
      rw [coreStep_eq_registers hr, inbufferValid_step hprev]
      refine ⟨fun hs => ⟨t, rfl, hr, hs⟩, ?_⟩
      rintro ⟨y, hy, -, hs⟩
      obtain rfl : t = y := by omega
      exact hs

/-- Behind `WRMEM1` the controller stays with the line write until it is back in `IDLE`. -/
theorem state_of_wrmem1 {t z y : ℕ} (hz : Run.UnderWay r t z) (hty : t < y)
    (hy : (r.state y).core.state = .wrmem1) : ∀ x, y < x → x ≤ z →
      (r.state x).core.state = .wrmem2 ∨ (r.state x).core.state = .accdly
  | 0, hx, _ => by omega
  | x + 1, hx, hxz => by
    have hne := hz.2 (x + 1) (by omega) hxz
    have hr : (r.input x).rst = false := Bool.eq_false_iff.2 fun hr =>
      hne (by rw [r.clock, step_core, coreStep_reset hr]; rfl)
    have hhit : (r.state x).bufferHit packaged = false := rfl
    rw [r.clock, step_core, coreStep_eq_registers hr] at hne ⊢
    have hprev : x = y ∨ (r.state x).core.state = .wrmem2 ∨ (r.state x).core.state = .accdly := by
      rcases Nat.lt_or_ge y x with hlt | hge
      · exact .inr (state_of_wrmem1 hz hty hy x hlt (by omega))
      · exact .inl (by omega)
    rcases hprev with rfl | hs | hs
    · simp [registers, hy, hhit]
    · cases he : (r.state x).wrmem.stmEnd <;> simp [registers, hs, he]
    · simp only [registers, hs] at hne ⊢
      split_ifs at hne ⊢ <;> simp_all

/-- The write on the port in cycle `t` is accepted, and its address and data are held, without
a reset, until the controller is back in `IDLE`. -/
structure HeldWrite (r : Ctrl.Run packaged) (t : ℕ) : Prop where
  accepts : (r.state (t + 1)).accepts = some .s0Write
  rst : ∀ u, Run.UnderWay r t u → (r.input u).rst = false
  address : ∀ u, Run.UnderWay r t u → (r.input u).s0Address = (r.input t).s0Address
  data : ∀ u, Run.UnderWay r t u → (r.input u).s0Writedata = (r.input t).s0Writedata

/-- For the request of cycle `t`, `RDMEM2` hands the line buffer `L` over to `WRMEM1`. -/
structure HandsOver (r : Ctrl.Run packaged) (t u : ℕ) (L : Fin 8 → BitVec 32) : Prop where
  underWay : Run.UnderWay r t (u + 1)
  rdmem2 : (r.state u).core.state = .rdmem2
  wrmem1 : (r.state (u + 1)).core.state = .wrmem1
  buffer : (r.state (u + 1)).core.buffer = L

/-- For the request of cycle `t`, `wrmem_stm` loads the line value `D` in cycle `z`. -/
structure LoadsLine (r : Ctrl.Run packaged) (t z : ℕ) (D : BitVec 256) : Prop where
  underWay : Run.UnderWay r t z
  idle : (r.state z).wrmem.state = .idle
  valid : ((r.state z).wrmemIn packaged (r.input z)).valid = true
  databuffer : ((r.state z).wrmemIn packaged (r.input z)).databuffer = D

/-- The line value is loaded two clocks behind the hand-over. -/
theorem HandsOver.loads {t u : ℕ} {L : Fin 8 → BitVec 32} (h : Run.HandsOver r t u L)
    (hr : (r.input (u + 1)).rst = false) : Run.LoadsLine r t (u + 2) (concat L) := by
  have hlt := h.underWay.1
  have hhit : (r.state (u + 1)).bufferHit packaged = false := rfl
  have hcore : (r.state (u + 2)).core = (r.state (u + 1)).registers packaged (r.input (u + 1)) := by
    rw [r.clock, step_core, coreStep_eq_registers hr]
  refine ⟨⟨by omega, fun x hx hxu => ?_⟩, ?_, ?_, ?_⟩
  · rcases Nat.lt_or_ge (u + 1) x with hxl | hxg
    · obtain rfl : x = u + 2 := by omega
      rw [hcore]
      simp [registers, h.wrmem1, hhit]
    · exact h.underWay.2 x hx hxg
  · rw [r.clock]
    exact (r.inv (u + 1)).idle .wrmem (by rw [h.wrmem1]; simp)
  · exact inbufferValid_iff.2 ⟨u + 1, rfl, hr, h.wrmem1⟩
  · simp only [wrmemIn, hcore, registers, h.wrmem1, hhit, h.buffer, Bool.false_eq_true, if_false]

/-- There is no other one for the request. -/
theorem HandsOver.eq_of_loads {t u z : ℕ} {L : Fin 8 → BitVec 32} {D : BitVec 256}
    (h : Run.HandsOver r t u L) (hidle : (r.state (t + 1)).core.state = .idle)
    (hz : Run.LoadsLine r t z D) : z = u + 2 := by
  obtain ⟨y, rfl, hr, hy⟩ := inbufferValid_iff.1 hz.valid
  have hty : t < y := by
    have hlt := hz.underWay.1
    rcases Nat.lt_or_ge t y with hlt | hge
    · exact hlt
    · obtain rfl : t = y := by omega
      have hhit : (r.state t).bufferHit packaged = false := rfl
      rw [r.clock, step_core, coreStep_eq_registers hr] at hidle
      simp [registers, hy, hhit] at hidle
  rcases Nat.lt_trichotomy y (u + 1) with hlt | rfl | hgt
  · -- a `WRMEM1` before the hand-over leaves no way to it
    have hne : y ≠ u := fun hyu => by
      rw [hyu, h.rdmem2] at hy
      simp at hy
    have hs := state_of_wrmem1 h.underWay hty hy u (by omega) (by omega)
    simp [h.rdmem2] at hs
  · rfl
  · have hs := state_of_wrmem1 hz.underWay (by have := h.underWay.1; omega) h.wrmem1 y hgt
      (by omega)
    simp [hy] at hs

end Run

/-- For a held write of the packaged IP, `wrmem_stm` loads the line value, and that is the line
buffer with the written word in its place if and only if the word was there before. -/
theorem ip_merge_iff {r : Ctrl.Run packaged} {t u : ℕ} {L : Fin 8 → BitVec 32}
    (h : Run.HeldWrite r t) (hu : Run.HandsOver r t u L) :
    (∃ z D, Run.LoadsLine r t z D) ∧ ∀ z D, Run.LoadsLine r t z D →
      (D = merged L (Fin.ofNat 8 (r.input t).s0Address.toNat) (r.input t).s0Writedata ↔
        L (Fin.ofNat 8 (r.input t).s0Address.toNat) = (r.input t).s0Writedata) := by
  have hloads := hu.loads (h.rst (u + 1) hu.underWay)
  refine ⟨⟨u + 2, concat L, hloads⟩, fun z D hz => ?_⟩
  obtain rfl := hu.eq_of_loads (accepts_idle h.accepts) hz
  have hD : D = concat L := hz.databuffer.symm.trans hloads.databuffer
  rw [hD, concat_eq_merged_iff]

theorem heldWrite_writeFive : Run.HeldWrite (ipRun writeFive) 0 :=
  ⟨by decide +kernel, fun _ _ => rfl, fun _ _ => rfl, fun _ _ => rfl⟩

/-- The line read of the write brings zeros. -/
theorem handsOver_writeFive : Run.HandsOver (ipRun writeFive) 0 43 (fun _ => 0) := by
  refine ⟨⟨by omega, ?_⟩, by decide +kernel, by decide +kernel, ?_⟩
  · decide +kernel
  · decide +kernel

/-- The word `0` is not there before the write. -/
theorem ip_merge_iff_writeFive :
    (∃ z D, Run.LoadsLine (ipRun writeFive) 0 z D) ∧
      ∀ z D, Run.LoadsLine (ipRun writeFive) 0 z D →
        (D = merged (fun _ => 0) 0 5#32 ↔ (0 : BitVec 32) = 5) :=
  ip_merge_iff heldWrite_writeFive handsOver_writeFive

/-- The line write of the write has the words as they were read. -/
theorem ip_merge_fails : ¬∀ (r : Ctrl.Run packaged) t u L, Run.HeldWrite r t →
    Run.HandsOver r t u L → ∀ z D, Run.LoadsLine r t z D →
      D = merged L (Fin.ofNat 8 (r.input t).s0Address.toNat) (r.input t).s0Writedata := by
  intro h
  have hloads := handsOver_writeFive.loads (r := ipRun writeFive) rfl
  have hmerged := h _ _ _ _ heldWrite_writeFive handsOver_writeFive _ _ hloads
  rw [concat_eq_merged_iff] at hmerged
  exact absurd hmerged (by decide)

end Ctrl

end HyperRam
