import HyperRam.BusSafety
import HyperRam.Progress
import HyperRam.Recovery

/-!
# The `rwds` pad

Both tops close a loop through the `rwds` pad : `rwds_in` is the pad, and under `rwds_oe` the pad
is what the top drives.

In `hyperram_controller_top` the loop makes no difference, whichever copy of the controller is in
it. A machine looks at `rwds_in` while it waits and at no other time (`Inv.step_rwds`), and no
machine waits while the controller drives the pad (`NoContention.not_waits`). So each clock of
the top is that of the controller with the `rwds` of the memory, and what was proved about the
controller holds of the top : the pads are driven against nobody and at most one machine is at
work (`top_rwds_loop`).

In `topv2` a reset leaves `rwds_oe` as it is. A reset within the data of a write burst leaves
the pad driven low for good, and every later command waits for an `rwds` that cannot come
(`Locked`, `Locked.step`). This is the only way to lock it up : from a released pad on, a run is
locked up if and only if a reset has found the pad driven, and then for good (`locked_iff`).

As long as it has not happened, `topv2` drives each pad in its own part of a transaction only
(`pads_safe`). `PadsSafe` is the invariant for that, with the counts at which each enable goes up
and down, and the results on transfers build on it.
-/

namespace HyperRam

open Clocked

/-- The pad : what the top drives under the enable, otherwise what the memory drives. -/
def rwdsPad (rwdsOe rwdsOut memory : Bool) : Bool :=
  if rwdsOe then rwdsOut else memory

/-! ## `hyperram_controller_top` -/

/-- `STATE_CA` looks at `rwds_in` behind the tests on the counter, with the counter at 0. -/
theorem ca_rwds {σ : Type*} {w : ℕ} {c : BitVec w} (hle : c ≤ 4) (hne : c ≠ 0)
    (leave shift rest rest' : σ) :
    (if c = 4 then leave else if 0 < c ∧ c < 4 then shift else rest) =
      if c = 4 then leave else if 0 < c ∧ c < 4 then shift else rest' := by
  by_cases h4 : c = 4
  · rw [if_pos h4, if_pos h4]
  · have hlt : 0 < c ∧ c < 4 := ⟨(BitVec.pos_iff_ne_zero c).2 hne, BitVec.lt_of_le_ne hle h4⟩
    rw [if_neg h4, if_neg h4, if_pos hlt, if_pos hlt]

/-- Only a machine that waits looks at `rwds_in`. -/
theorem RdregStm.Inv.step_rwds {m : RdregStm} (h : m.Inv) (hw : ¬m.bus.Waits) (i : ReadIn)
    (b : Bool) : m.step { i with rwdsIn := b } = m.step i := by
  unfold RdregStm.step
  cases hs : m.state <;> simp only
  have hne : m.counter ≠ 0 := fun hc => hw ⟨hs, by simp [hc]⟩
  rw [ca_rwds (h.ca_le hs) hne]

@[inherit_doc RdregStm.Inv.step_rwds]
theorem RdmemStm.Inv.step_rwds {m : RdmemStm} (h : m.Inv) (hw : ¬m.bus.Waits) (i : ReadIn)
    (b : Bool) : m.step { i with rwdsIn := b } = m.step i := by
  unfold RdmemStm.step
  cases hs : m.state <;> simp only
  have hne : m.counter ≠ 0 := fun hc => hw ⟨hs, by simp [hc]⟩
  rw [ca_rwds (h.ca_le hs) hne]

@[inherit_doc RdregStm.Inv.step_rwds]
theorem WrmemStm.Inv.step_rwds {m : WrmemStm} (h : m.Inv) (hw : ¬m.bus.Waits) (i : WriteIn)
    (b : Bool) : m.step { i with rwdsIn := b } = m.step i := by
  unfold WrmemStm.step
  cases hs : m.state <;> simp only
  case idle => rfl
  case ca =>
    have hne : m.counter ≠ 0 := fun hc => hw ⟨hs, by simp [hc]⟩
    rw [ca_rwds (h.ca_le hs) hne]

namespace Ctrl

/-- A controller none of whose machines waits does not look at `rwds_in`. -/
theorem Inv.step_rwds {v : Variant} {s : Ctrl v.width} (h : s.Inv) (hw : ¬s.Waits)
    (i : Inputs v.width) (b : Bool) : s.step v { i with rwdsIn := b } = s.step v i := by
  have h0 := h.rdreg.step_rwds (fun hm => hw ⟨.rdreg, hm⟩) (s.rdregIn v i) b
  have h2 := h.rdmem.step_rwds (fun hm => hw ⟨.rdmem, hm⟩) (s.rdmemIn v i) b
  have h3 := h.wrmem.step_rwds (fun hm => hw ⟨.wrmem, hm⟩) (s.wrmemIn v i) b
  unfold Ctrl.step
  rw [← h0, ← h2, ← h3]
  rfl

/-- While the controller drives the pad no machine waits for it. -/
theorem NoContention.not_waits {w : ℕ} {s : Ctrl w} (h : NoContention s)
    (ho : s.pads.rwdsOe = true) : ¬s.Waits := by
  rintro ⟨k, hw⟩
  have hca : s.rdreg.state = .ca ∨ s.rdmem.state = .ca ∨ s.wrmem.state = .ca := by
    cases k
    case rdreg => exact .inl hw.1
    case rdmem => exact .inr (.inl hw.1)
    case wrmem => exact .inr (.inr hw.1)
  exact Bool.false_ne_true ((h.rwdsOe_ca hca).symm.trans ho)

/-- One clock of `hyperram_controller_top` around a copy of the controller, with the `rwds` of the
memory among the inputs. -/
def topStep (v : Variant) (s : Ctrl v.width) (i : Inputs v.width) : Ctrl v.width :=
  s.step v { i with rwdsIn := rwdsPad s.pads.rwdsOe s.pads.rwdsOut i.rwdsIn }

/-- In every run of `hyperram_controller_top` from reset, around any copy of the controller and
under any inputs, each clock is that of the controller with the `rwds` of the memory for the pad,
the pads are driven as they are without the loop, and at most one machine is at work on them. -/
theorem top_rwds_loop {v : Variant} (r : Clocked.Run (AfterReset v) (topStep v)) (t : ℕ) :
    r.state (t + 1) = (r.state t).step v (r.input t) ∧ NoContention (r.state t) ∧
      [(r.state t).rdreg.state.busy, (r.state t).rdmem.state.busy,
        (r.state t).wrmem.state.busy].count true ≤ 1 := by
  have hsafe : ∀ t, (r.state t).Inv ∧ NoContention (r.state t) :=
    r.invariant (P := fun s => s.Inv ∧ NoContention s)
      (by
        rintro _ ⟨s₀, i, hr, rfl⟩
        exact ⟨inv_reset hr, noContention_reset (padsStep_reset hr)⟩)
      fun s i h => ⟨h.1.step _, h.1.noContention_step⟩
  obtain ⟨hinv, hbus⟩ := hsafe t
  refine ⟨?_, hbus, hinv.one_active⟩
  rw [r.clock, topStep]
  cases ho : (r.state t).pads.rwdsOe
  case false => rfl
  case true => exact hinv.step_rwds (hbus.not_waits ho) _ _

end Ctrl

/-! ## `topv2` -/

namespace Hr

variable {m : Hr} {stall : Bool} {ca : BitVec 48} {i : TopIn}

/-- Locked up : the pad is driven low outside a write, and a command can only wait for it. -/
structure Locked (m : Hr) : Prop where
  rwdsOe : m.rwdsOe = true
  rwdsOut : m.rwdsOut = false
  oe : m.oe = false
  clken : m.clken = false
  waits : m.state = .idle ∨ m.state.IsCommand ∧ m.counter = 0

/-- Who drives what. The pads are driven while the device is selected, `dq` and the clock for the
command and in the data of a transaction, `rwds` in the data of a write. -/
structure PadsSafe (m : Hr) : Prop where
  state : m.state = .idle ∨ m.state.IsCommand ∨ m.state.IsRun
  csn : m.state ≠ .idle → m.csn = false
  oe : m.oe = true ↔ m.state.IsCommand ∧ m.counter ≠ 0 ∨ m.state = .memWr1 ∧ 13 < m.counter
  clken : m.clken = true ↔ m.state.IsCommand ∧ 1 < m.counter ∨ m.state.IsRun
  rwdsOe : m.rwdsOe = true ↔ m.state = .memWr1 ∧ 13 < m.counter
  rwdsOut : m.rwdsOe = true → m.rwdsOut = false
  command_le : m.state.IsCommand → m.counter ≤ 4
  run_le : m.state = .memWr1 → m.counter ≤ 28

theorem padsSafe_rest (hs : m.state = .idle) (hoe : m.oe = false) (hck : m.clken = false)
    (ho : m.rwdsOe = false) : m.PadsSafe := by
  constructor <;> simp [hs, hoe, hck, ho, HrState.IsCommand, HrState.IsRun]

theorem padsSafe_read (hs : m.state = .rdReg1 ∨ m.state = .memRd1) (hcsn : m.csn = false)
    (hoe : m.oe = false) (hck : m.clken = true) (ho : m.rwdsOe = false) : m.PadsSafe := by
  rcases hs with hs | hs <;> constructor <;>
    simp [hs, hcsn, hoe, hck, ho, HrState.IsCommand, HrState.IsRun]

/-- A reset that finds the pad released. -/
theorem padsSafe_reset (hr : i.rst = true) (ho : m.rwdsOe = false) :
    (m.step stall ca i).PadsSafe := by
  unfold step
  rw [if_pos hr]
  exact padsSafe_rest rfl rfl rfl ho

/-- A reset that finds the pad driven low. -/
theorem locked_reset (hr : i.rst = true) (ho : m.rwdsOe = true) (hout : m.rwdsOut = false) :
    (m.step stall ca i).Locked := by
  unfold step
  rw [if_pos hr]
  constructor <;> simp [ho, hout]

theorem Locked.not_safe (h : m.Locked) : ¬m.PadsSafe := by
  intro hsafe
  have hs := (hsafe.rwdsOe.1 h.rwdsOe).1
  simpa [hs, HrState.IsCommand] using h.waits

/-- Nothing leads out of it, a reset does not either. -/
theorem Locked.step (h : m.Locked) (hlow : i.rwdsIn = false) : (m.step stall ca i).Locked := by
  cases hr : i.rst
  case true => exact locked_reset hr h.rwdsOe h.rwdsOut
  case false =>
    obtain ⟨ho, hout, hoe, hck, hw⟩ := h
    unfold Hr.step
    rw [if_neg (by simp [hr])]
    rcases hw with hs | ⟨hs | hs | hs, hc⟩
    · simp only [hs, idle]
      split_ifs <;> constructor <;>
        simp [start, ho, hout, hoe, hck, HrState.IsCommand]
    all_goals
      simp only [hs, rdReg0, memWr0, memRd0, command, hc, hlow]
      constructor <;> simp [ho, hout, hoe, hck, hs, hc, HrState.IsCommand]

theorem PadsSafe.step_idle (h : m.PadsSafe) (hs : m.state = .idle) :
    (m.idle stall ca i).PadsSafe := by
  have hoe : m.oe = false := by simpa [hs, HrState.IsCommand] using h.oe
  have hck : m.clken = false := by simpa [hs, HrState.IsCommand, HrState.IsRun] using h.clken
  have ho : m.rwdsOe = false := by simpa [hs] using h.rwdsOe
  unfold idle
  simp only
  split_ifs <;> constructor <;> simp [start, hs, hoe, hck, ho, HrState.IsCommand, HrState.IsRun]

theorem PadsSafe.step_command (h : m.PadsSafe) (hs : m.state.IsCommand) {next : HrState}
    (hn : next.IsRun) (shifted : Fin 19 → BitVec 16) : (m.command shifted next i).PadsSafe := by
  have hcsn : m.csn = false := h.csn (by rintro he; simp [he, HrState.IsCommand] at hs)
  have hle := h.command_le hs
  have hrun : ¬m.state.IsRun := by
    rcases hs with hs | hs | hs <;> simp [hs, HrState.IsRun]
  have hwr : m.state ≠ .memWr1 := fun he => hrun (by simp [he, HrState.IsRun])
  have ho : m.rwdsOe = false := by simpa [hwr] using h.rwdsOe
  have hoe : m.oe = true ↔ m.counter ≠ 0 := by simpa [hs, hwr] using h.oe
  have hck : m.clken = true ↔ 1 < m.counter := by simpa [hs, hrun] using h.clken
  have hnc : ¬next.IsCommand := by
    rcases hn with hn | hn | hn <;> simp [hn, HrState.IsCommand]
  unfold command
  split_ifs with h4 hlt hrw
  · have hck4 : m.clken = true := hck.2 (by rw [h4]; decide)
    constructor <;> simp [hn, hnc, hcsn, hck4, ho]
  · constructor <;> simp [hs, hwr, hrun, hcsn, ho] <;> bv_omega
  · constructor <;> simp [hs, hwr, hrun, hcsn, ho]
  · exact h

/-- The reads only count in their last part, the pads stay. -/
theorem PadsSafe.step_read (h : m.PadsSafe) (hs : m.state = .rdReg1 ∨ m.state = .memRd1) :
    (m.rdReg1 i).PadsSafe ∧ (m.memRd1 i).PadsSafe := by
  have hcmd : ¬m.state.IsCommand := by rcases hs with hs | hs <;> simp [hs, HrState.IsCommand]
  have hwr : m.state ≠ .memWr1 := by rcases hs with hs | hs <;> simp [hs]
  have hcsn : m.csn = false := h.csn (by rcases hs with hs | hs <;> simp [hs])
  have hoe : m.oe = false := by simpa [hcmd, hwr] using h.oe
  have hck : m.clken = true :=
    h.clken.2 (.inr (by rcases hs with hs | hs <;> simp [hs, HrState.IsRun]))
  have ho : m.rwdsOe = false := by simpa [hwr] using h.rwdsOe
  constructor
  · unfold rdReg1
    split_ifs
    · exact padsSafe_rest rfl hoe rfl ho
    · exact padsSafe_read hs hcsn hoe hck ho
    · exact padsSafe_read hs hcsn hoe hck ho
  · unfold memRd1
    simp only
    split_ifs
    · exact padsSafe_rest rfl hoe rfl ho
    · exact padsSafe_read hs hcsn hoe hck ho
    · exact padsSafe_read hs hcsn hoe hck ho

theorem PadsSafe.step_write (h : m.PadsSafe) (hs : m.state = .memWr1) : m.memWr1.PadsSafe := by
  have hcsn : m.csn = false := h.csn (by simp [hs])
  have hck : m.clken = true := h.clken.2 (.inr (by simp [hs, HrState.IsRun]))
  have hle := h.run_le hs
  have hoe : m.oe = true ↔ 13 < m.counter := by simpa [hs, HrState.IsCommand] using h.oe
  have ho : m.rwdsOe = true ↔ 13 < m.counter := by simpa [hs] using h.rwdsOe
  have hout := h.rwdsOut
  unfold memWr1
  split_ifs with h28 h12
  · constructor <;> simp [HrState.IsRun, HrState.IsCommand]
  · constructor <;> simp [hs, hcsn, HrState.IsRun, HrState.IsCommand] <;> bv_omega
  · have h13 : m.counter.toNat ≤ 12 := by bv_omega
    have hoff : m.oe = false := Bool.eq_false_iff.2 fun hup => by
      have := hoe.1 hup
      bv_omega
    have hooff : m.rwdsOe = false := Bool.eq_false_iff.2 fun hup => by
      have := ho.1 hup
      bv_omega
    constructor <;> simp [hs, hcsn, hck, hoff, hooff, HrState.IsRun, HrState.IsCommand] <;>
      bv_omega

/-- One clock, except for a reset that finds `rwds` driven. -/
theorem PadsSafe.step (h : m.PadsSafe) (hr : i.rst = true → m.rwdsOe = false) :
    (m.step stall ca i).PadsSafe := by
  cases hrst : i.rst
  case true => exact padsSafe_reset hrst (hr hrst)
  case false =>
    have hsafe {m' : Hr} (h' : m'.PadsSafe) : PadsSafe
        { m' with
          prevRegw := i.regw, prevRegr := i.regr, prevMemw := i.memw, prevMemr := i.memr } :=
      ⟨h'.1, h'.2, h'.3, h'.4, h'.5, h'.6, h'.7, h'.8⟩
    unfold Hr.step
    rw [if_neg (by simp [hrst])]
    refine hsafe ?_
    cases hs : m.state <;> simp only
    case idle => exact h.step_idle hs
    case rdReg0 => exact h.step_command (.inl hs) (.inl rfl) _
    case rdReg1 => exact (h.step_read (.inl hs)).1
    case memWr0 => exact h.step_command (.inr (.inl hs)) (.inr (.inl rfl)) _
    case memWr1 => exact h.step_write hs
    case memRd0 => exact h.step_command (.inr (.inr hs)) (.inr (.inr rfl)) _
    case memRd1 => exact (h.step_read (.inr hs)).2
    all_goals simpa [hs, HrState.IsCommand, HrState.IsRun] using h.state

end Hr

namespace TopV2

/-- One clock of `topv2`, with the `rwds` of the memory among the inputs. -/
def padStep (s : TopV2) (i : TopIn) : TopV2 :=
  s.step { i with rwdsIn := rwdsPad s.hr.rwdsOe s.hr.rwdsOut i.rwdsIn }

/-- A reset before cycle `t` has found the pad driven. -/
def ResetInData (r : Clocked.Run Init padStep) (t : ℕ) : Prop :=
  ∃ u < t, (r.input u).rst = true ∧ (r.state u).hr.rwdsOe = true

theorem locked_or_safe (r : Clocked.Run Init padStep) (h0 : (r.state 0).hr.rwdsOe = false) :
    ∀ t, ResetInData r t ∧ (r.state t).hr.Locked ∨
      ¬ResetInData r t ∧ (r.state t).hr.PadsSafe
  | 0 => by
    refine .inr ⟨by simp [ResetInData], ?_⟩
    obtain ⟨s₀, i, hr, hs⟩ := r.start
    rw [hs] at h0 ⊢
    have hbefore : s₀.hr.rwdsOe = false := by simpa [step, Hr.step, hr] using h0
    exact Hr.padsSafe_reset hr hbefore
  | t + 1 => by
    have hnext : ResetInData r (t + 1) ↔
        ResetInData r t ∨ (r.input t).rst = true ∧ (r.state t).hr.rwdsOe = true := by
      simp only [ResetInData, Nat.lt_succ_iff_lt_or_eq, or_and_right, exists_or, exists_eq_left]
    rw [hnext, r.clock]
    rcases locked_or_safe r h0 t with ⟨hin, hlocked⟩ | ⟨hno, hsafe⟩
    · refine .inl ⟨.inl hin, hlocked.step ?_⟩
      simp [rwdsPad, hlocked.rwdsOe, hlocked.rwdsOut]
    · by_cases hnow : (r.input t).rst = true ∧ (r.state t).hr.rwdsOe = true
      · exact .inl ⟨.inr hnow, Hr.locked_reset hnow.1 hnow.2 (hsafe.rwdsOut hnow.2)⟩
      · refine .inr ⟨by simp [hno, hnow], hsafe.step fun hr => ?_⟩
        exact Bool.eq_false_iff.2 fun ho => hnow ⟨hr, ho⟩

/-- `topv2`, released at first, is locked up exactly if a reset has found the pad driven, and then
for good, whatever resets and requests come. -/
theorem locked_iff (r : Clocked.Run Init padStep) (h0 : (r.state 0).hr.rwdsOe = false) (t : ℕ) :
    (r.state t).hr.Locked ↔ ResetInData r t := by
  rcases locked_or_safe r h0 t with ⟨hin, hlocked⟩ | ⟨hno, hsafe⟩
  · exact ⟨fun _ => hin, fun _ => hlocked⟩
  · exact ⟨fun hlocked => absurd hsafe hlocked.not_safe, fun hin => absurd hin hno⟩

/-- A write request in cycle `1`, a reset in cycle `25` and a read request in cycle `40`. -/
def resetInWrite (t : ℕ) : TopIn :=
  { rst := decide (t = 25), regr := false, regw := false, memr := decide (t = 40),
    memw := decide (t = 1), caSig := 0, regdata := 0, latency := 0, rwdsIn := true, dataout := 0 }

/-- The run of `resetInWrite` from a reset. -/
def lockedRun : Clocked.Run Init padStep :=
  Run.ofInputs (s := step rest { resetInWrite 0 with rst := true }) ⟨_, _, rfl, rfl⟩ resetInWrite

/-- The read of `resetInWrite` is never served. -/
theorem locked_iff_lockedRun : (lockedRun.state 90).hr.Locked :=
  (locked_iff lockedRun rfl 90).2 ⟨25, by decide, rfl, by decide +kernel⟩

/-- As long as no reset has found the pad driven, the pads are safe. -/
theorem pads_safe (r : Clocked.Run Init padStep) (h0 : (r.state 0).hr.rwdsOe = false) {t : ℕ}
    (h : ¬ResetInData r t) : (r.state t).hr.PadsSafe := by
  rcases locked_or_safe r h0 t with ⟨hin, -⟩ | ⟨-, hsafe⟩
  · exact absurd hin h
  · exact hsafe

/-- The data of the write of `resetInWrite`. -/
theorem pads_safe_lockedRun : (lockedRun.state 25).hr.PadsSafe := by
  refine pads_safe lockedRun rfl ?_
  rintro ⟨u, hu, hr, -⟩
  have h25 : u = 25 := of_decide_eq_true hr
  omega

end TopV2

end HyperRam
