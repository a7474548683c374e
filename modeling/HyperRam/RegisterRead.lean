import HyperRam.Requests
import HyperRam.Serial

/-!
# Register reads

A `csr` read from the port to the pads and back. The command of a stay in `RDREG` is formed in
its first clock, from the address captured by then. `CsrCommand` follows it through
`ca_sigr`, `rdreg_stm`, the output registers and the device : it is still to be formed, or formed
and at rest, or under way, and a clock inside `RDREG` takes it from one to the next
(`CsrCommand.step`). Later requests on the `csr` port change the captured address but not the
command, so what is answered is what the device shows for the register of the accepted read.

`RDREG` is entered with an accepted `csr` read only (`accepts_of_enters_rdreg`), and the
address captured by then is the one on the port in the cycle of the acceptance if the port is still
in use, or the one of the cycle before (`csrAddress`). `csrRead_answer` puts this together for every
answer in a run of any copy of the controller and in front of any device. Resets may come at any
time, a read that is cut off has no answer.
-/

namespace HyperRam

open Clocked

namespace RdregStm

variable {m : RdregStm} {i : ReadIn}

/-- The clock into `STATE_DONE` is the last one of `STATE_RUN`, and samples the data. -/
theorem step_done (hd : (m.step i).state = .done) :
    m.state = .run ∧ m.counter = 14 ∧ (m.step i).dataoutr = i.dataout := by
  revert hd
  unfold RdregStm.step
  cases hr : i.rst
  case true => simp
  case false =>
    cases hs : m.state <;> simp only [Bool.false_eq_true, if_false]
    case idle => cases i.stmStart <;> simp
    case ca => split_ifs <;> simp [hs]
    case run => split_ifs <;> simp_all
    case done => simp

end RdregStm

namespace Ctrl

variable {v : Variant} {s : Ctrl v.width} {i : Inputs v.width} {d : Device} {D : BitVec 48}

/-- The command `D` of a stay in `RDREG` : still to be formed, formed, or under way. -/
inductive CsrCommand (v : Variant) (D : BitVec 48) (s : Ctrl v.width) (d : Device) : Prop
  | form (hst : s.core.stmStart.rdreg = false) (hD : v.csrCa s.pads.capturedCsrAddress = D)
  | formed (hst : s.core.stmStart.rdreg = true) (hidle : s.rdreg.state = .idle)
      (hD : s.core.caSigr = D)
  | sent (hbusy : s.rdreg.state ≠ .idle)
      (hD : Command s.rdreg.bus.stage D s.rdreg.bus.words s.pads d)

/-- A clock inside `RDREG`. -/
theorem CsrCommand.step (h : CsrCommand v D s d) (hs : s.Inv) (hr : i.rst = false)
    (hin : s.core.state = .rdreg) (hstay : (s.step v i).core.state = .rdreg) :
    CsrCommand v D (s.step v i) (d.step s.pads) := by
  have hcore := coreStep_eq_registers (s := s) (i := i) hr
  have he : s.rdreg.stmEnd = false := Bool.eq_false_iff.2 fun he => by
    simp [hcore, registers, hin, he] at hstay
  have hup : (s.step v i).core.stmStart.rdreg = true := by simp [hcore, registers, hin, he]
  have hnext := hs.next hr .rdreg
  have hstage := hs.stage_next (i := i) .rdreg hr
  cases h with
  | form hst hD => exact .formed hup (hs.rest .rdreg hst) (by simp [hcore, registers, hin, hD])
  | formed hst hidle hD =>
    obtain ⟨hgo, -, -, hload⟩ := hnext.idle hidle
    refine .sent (fun hno => ?_) ?_
    · have hca : (s.step v i).rdreg.state = .ca := hgo.trans (if_pos hst)
      exact absurd (hca.symm.trans hno) (by simp)
    · have hrest : s.rdreg.bus.stage = .rest := Stage.of_rest_iff.2 hidle
      have hcommand : Command s.rdreg.bus.stage D s.rdreg.bus.words s.pads d := by
        rw [hrest]
        trivial
      exact hcommand.step hstage (hs.drives .rdreg hr hst) fun _ _ =>
        hload.trans (congrArg caWords hD)
  | sent hbusy hD =>
    refine .sent (hnext.work (hs.bus .rdreg) hbusy he) ?_
    refine hD.step hstage (hs.drives .rdreg hr (hs.active .rdreg hbusy).2) fun hrest _ => ?_
    exact absurd (Stage.of_rest_iff.1 hrest) hbusy

/-- Only an accepted `csr` read leads to `RDREG`. -/
theorem accepts_of_enters_rdreg (hs : s.core.state ≠ .rdreg)
    (hs' : (s.step v i).core.state = .rdreg) : i.rst = false ∧ s.accepts = some .csrRead := by
  have hr : i.rst = false := Bool.eq_false_iff.2 fun hr => by
    simp [coreStep_reset hr, Core.reset] at hs'
  rw [step_core, coreStep_eq_registers hr] at hs'
  refine ⟨hr, ?_⟩
  cases hst : s.core.state <;> simp only [registers, hst] at hs'
  case idle =>
    unfold Core.dispatch at hs'
    split_ifs at hs' with hrise
    simp [accepts, hst, hrise]
  case rdreg => exact absurd hst hs
  all_goals (try split_ifs at hs') <;> simp at hs'

/-! ## Along a run -/

namespace Run

variable {r : Ctrl.Run v}

/-- The command of a stay in `RDREG` is that of the address captured in its first cycle. -/
theorem csrCommand (d : Device) {a : ℕ} (ha : (r.state a).core.state ≠ .rdreg) :
    ∀ {u}, a < u → (∀ x, a < x → x ≤ u → (r.state x).core.state = .rdreg) →
      CsrCommand v (v.csrCa (r.state (a + 1)).pads.capturedCsrAddress) (r.state u)
        (Run.device r d u)
  | 0, hu, _ => by omega
  | u + 1, _, hin => by
    rcases Nat.lt_or_ge a u with hlt | hge
    · have ih := csrCommand d ha hlt fun x hx hxu => hin x hx (by omega)
      have hstay := hin (u + 1) (by omega) le_rfl
      have hr : (r.input u).rst = false := Bool.eq_false_iff.2 fun hr => by
        rw [r.clock] at hstay
        simp [coreStep_reset hr, Core.reset] at hstay
      have hnow := hin u hlt (by omega)
      generalize v.csrCa (r.state (a + 1)).pads.capturedCsrAddress = D at ih ⊢
      rw [r.clock] at hstay ⊢
      exact ih.step (r.inv u) hr hnow hstay
    · obtain rfl : u = a := by omega
      refine .form ?_ rfl
      have henter := hin (u + 1) (by omega) le_rfl
      rw [r.clock] at henter ⊢
      obtain ⟨hr, -⟩ := accepts_of_enters_rdreg ha henter
      have hst : (r.state u).core.stmStart.rdreg = false := Bool.eq_false_iff.2 fun hup =>
        ha ((r.inv u).home .rdreg hup)
      simp [coreStep_eq_registers hr, registers, ha, hst]

variable (r) in
/-- The address the `csr` port has for a request accepted in cycle `a` : the one of that cycle if
the port is still in use, otherwise the one of the cycle before. -/
def csrAddress (a : ℕ) : BitVec 10 :=
  if (r.input a).csrRead || (r.input a).csrWrite then (r.input a).csrAddress
  else (r.input (a - 1)).csrAddress

theorem captured_csrAddress {a : ℕ} (hr : (r.input a).rst = false)
    (ha : (r.state a).accepts = some .csrRead) :
    (r.state (a + 1)).pads.capturedCsrAddress = Run.csrAddress r a := by
  have hlevel := Request.level_of_rise (accepts_rise ha)
  cases a with
  | zero => simp [(AfterReset.idle r.start).1, Core.reset, -Request.level_low, Edges.low,
      Request.level] at hlevel
  | succ x =>
    rw [r.clock] at hlevel
    cases hx : (r.input x).rst
    case true => simp [coreStep_reset hx, Core.reset] at hlevel
    case false =>
      have hport : (r.input x).csrRead = true := by
        simpa [coreStep_eq_registers hx, registers, Request.level_sample, Request.port] using hlevel
      have hbefore : (r.state (x + 1)).pads.capturedCsrAddress = (r.input x).csrAddress := by
        simp [r.clock, padsStep, hx, hport]
      have hafter : (r.state (x + 1 + 1)).pads.capturedCsrAddress =
          if (r.input (x + 1)).csrRead || (r.input (x + 1)).csrWrite then
            (r.input (x + 1)).csrAddress
          else (r.state (x + 1)).pads.capturedCsrAddress := by
        rw [r.clock (x + 1)]
        simp [padsStep, hr]
      rw [hafter, hbefore]
      rfl

end Run

/-- Every answer on the `csr` port is for an accepted `csr` read. The controller is in `RDREG`
since, the device has had the whole command of that register when the halfword was sampled, and
the answer is that halfword. -/
theorem csrRead_answer (r : Ctrl.Run v) (d : Device) {u : ℕ}
    (hu : (r.state u).csrReaddatavalid = true) :
    ∃ a, a + 1 < u ∧ (r.state a).accepts = some .csrRead ∧
      (∀ x, a < x → x ≤ u → (r.state x).core.state = .rdreg) ∧
      (Run.device r d (u - 1)).got = 3 ∧
      (Run.device r d (u - 1)).ca = v.csrCa (Run.csrAddress r a) ∧
      (r.state u).csrReaddata = (r.input (u - 1)).dataout.setWidth 32 := by
  have hdone : (r.state u).rdreg.state = .done := (r.inv u).rdreg.valid.1 hu
  have hrdreg := ((r.inv u).active .rdreg (by simp [hdone])).1
  obtain ⟨a, hau, hgo, hnot, hin⟩ := opened_by (p := fun t => (r.state t).core.state = .rdreg)
    (q := fun t => (r.input t).rst = false ∧ (r.state t).accepts = some .csrRead)
    (by simp [(AfterReset.idle r.start).1, Core.reset])
    (fun t hnow hnext => accepts_of_enters_rdreg hnow (by rwa [← r.clock])) u hrdreg
  obtain ⟨x, rfl⟩ : ∃ x, u = x + 1 := ⟨u - 1, by omega⟩
  rw [r.clock, step_rdreg] at hdone
  obtain ⟨hrun, hcount, hdata⟩ := RdregStm.step_done hdone
  have hx := ((r.inv x).active .rdreg (by simp [hrun])).1
  have hax : a < x := by
    rcases Nat.lt_or_ge a x with hlt | hge
    · exact hlt
    · obtain rfl : a = x := by omega
      exact absurd hx hnot
  have hsent : (r.state x).rdreg.bus.stage = .sent := by
    simp [BusStm.stage, hrun, Stage.of, hcount]
  have hcommand := Run.csrCommand d hnot hax fun y hy hyx => hin y hy (by omega)
  rw [Run.captured_csrAddress hgo.1 hgo.2] at hcommand
  have hsending : Command .sent (v.csrCa (Run.csrAddress r a)) (r.state x).rdreg.bus.words
      (r.state x).pads (Run.device r d x) := by
    cases hcommand with
    | form hst => exact absurd ((r.inv x).active .rdreg (by simp [hrun])).2 (by simp [hst])
    | formed _ hidle => exact absurd (hidle.symm.trans hrun) (by simp)
    | sent _ hD => exact hsent ▸ hD
  refine ⟨a, by omega, hgo.2, hin, hsending.1, hsending.ca_eq (.inl rfl), ?_⟩
  rw [csrReaddata, r.clock, step_rdreg, hdata]
  rfl

/-- A read of register address `2`, the configuration register `0`, and a request for address
`1` while it is at work. The device shows the number of the cycle. -/
def csrReads (t : ℕ) : Inputs packaged.width :=
  { quiet with
    csrRead := t = 0 ∨ t = 5, csrAddress := if t < 5 then 2 else 1, dataout := BitVec.ofNat 16 t }

/-- It gets the command of address `2` and the halfword of cycle `23`. -/
theorem csrRead_answer_csrReads :
    (Run.device (ipRun csrReads) .zero 23).ca = 0xc00001000000 ∧
      ((ipRun csrReads).state 24).csrReaddata = 23 := by
  have hvalid : ((ipRun csrReads).state 24).csrReaddatavalid = true := by
    show (trace (Ctrl.step packaged) (cleared _) csrReads 24).csrReaddatavalid = true
    decide +kernel
  obtain ⟨a, ha, haccepts, hin, -, hca, hdata⟩ := csrRead_answer (ipRun csrReads) .zero hvalid
  have hfirst : a = 1 := by
    by_contra hne
    have hzero : ((ipRun csrReads).state 0).accepts ≠ some .csrRead := by decide +kernel
    have hbusy : ∀ k < 22, ((ipRun csrReads).state (2 + k)).core.state ≠ .idle := by
      show ∀ k < 22, (trace (Ctrl.step packaged) (cleared _) csrReads (2 + k)).core.state ≠ .idle
      decide +kernel
    rcases Nat.lt_or_ge a 1 with hlt | hge
    · obtain rfl : a = 0 := by omega
      exact hzero haccepts
    · obtain ⟨k, rfl⟩ := Nat.exists_eq_add_of_le (show 2 ≤ a by omega)
      exact hbusy k (by omega) (accepts_idle haccepts)
  subst hfirst
  exact ⟨hca, hdata⟩

end Ctrl

end HyperRam
