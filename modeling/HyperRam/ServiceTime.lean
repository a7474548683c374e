import HyperRam.CacheTrace
import HyperRam.Progress

/-!
# Service times

How long a request takes, to the clock. `Ctrl.clocks` are the clocks until `IDLE` if no machine
has to wait for `rwds` : the rank of `Progress`, except in `WRMEM1`, where a hit goes back at once.
They go down by one on every clock at work that no machine spends waiting (`Inv.clocks_step`), and
stand on the others (`Inv.clocks_stall`). So a request takes the clocks it starts with
(`Request.clocks`) and one for each clock spent waiting, which is the rule `measure_stalls`.

The only other unknown is whether `WRMEM1` finds a hit. With the packaged IP it does not, with the
buffered controller under one request at a time it finds the one that `IDLE` found. The exact number
needs one more register : `IDLE` leaves the direction register of the line write down until
`WRMEM2`, so the start of a line write always has its full delay (`Fresh`).

`ip_service_time` and `buffered_service_time` state the time for the two controllers. That the
controller comes back is part of the result, under a device that raises `rwds` in every command
phase.
-/

namespace HyperRam

open Clocked

namespace Ctrl

/-! ## Clocks to `IDLE` -/

section clocks

/-- Clocks until `IDLE` with `rwds` high, outside `WRREG`. -/
def clocks (v : Variant) (s : Ctrl v.width) : ℕ :=
  if s.core.state = .wrmem1 ∧ s.bufferHit v = true then 1 else s.rank

/-- `IDLE` leaves the direction register of the line write down until `WRMEM2`. -/
def Fresh {w : ℕ} (s : Ctrl w) : Prop :=
  s.core.state = .rdmem2 ∨ s.core.state = .wrmem1 → s.core.wrTmp = false

variable {v : Variant} {s : Ctrl v.width} {i : Inputs v.width}

theorem fresh_reset (h : s.core = .reset) : s.Fresh := by
  simp [Fresh, h, Core.reset]

theorem Fresh.step (h : s.Fresh) (hr : i.rst = false) : (s.step v i).Fresh := by
  rw [Fresh, step_core, coreStep_eq_registers hr]
  intro hst
  cases hs : s.core.state <;> simp only [registers, hs] at hst ⊢
  case rdmem2 => exact h (.inl hs)
  case wrmem1 => exact h (.inr hs)
  all_goals (try split_ifs at hst) <;> simp at hst

theorem clocks_eq_rank (hhit : s.core.state = .wrmem1 → s.bufferHit v = false) :
    s.clocks v = s.rank :=
  if_neg fun hc => Bool.false_ne_true ((hhit hc.1).symm.trans hc.2)

section step

variable (h : s.Inv) (hr : i.rst = false)
include h hr

/-- A clock of `WRMEM1`. -/
theorem Inv.clocks_wrmem1 (hf : s.Fresh) (hs : s.core.state = .wrmem1) :
    (s.step v i).rank + 1 = s.clocks v := by
  rw [rank_wrmem1 hr hs, clocks]
  cases hhit : s.bufferHit v
  case true => simp [hs]
  case false =>
    have hrest : s.core.stmStart.wrmem = false := Bool.eq_false_iff.2 fun hup => by
      simpa [hs] using h.home .wrmem hup
    have hstart : (s.registers v i).stmStart.wrmem = false := by simp [registers, hs, hrest]
    have htmp : (s.registers v i).wrTmp = false := by simp [registers, hs, hf (.inr hs)]
    have hnow : s.rank = s.core.accCounter.toNat + 41 := by simp [rank, hs]
    have hleft : (s.step v i).clocksLeft .wrmem = 39 := by
      rw [clocksLeft, BusStm.left_of_idle (h.idle .wrmem (by simp [hs])), step_core,
        coreStep_eq_registers hr]
      simp [startDelay, hstart, htmp]
    rw [hleft, hnow]
    simp
    omega

/-- A clock at work that no machine spends waiting brings `IDLE` nearer by one. -/
theorem Inv.clocks_step (hf : s.Fresh) (hw : s.Waits → i.rwdsIn = true)
    (hidle : s.core.state ≠ .idle) (hwrreg : s.core.state ≠ .wrreg)
    (hmiss : s.core.state = .rdmem2 → (s.step v i).core.state = .wrmem1 →
      (s.step v i).bufferHit v = false) :
    (s.step v i).clocks v + 1 = s.clocks v := by
  have hnext : (s.step v i).clocks v = (s.step v i).rank := by
    refine clocks_eq_rank fun hs' => ?_
    by_cases hs : s.core.state = .rdmem2
    · exact hmiss hs hs'
    · rw [step_core, coreStep_eq_registers hr] at hs'
      cases hst : s.core.state <;> simp only [registers, hst] at hs'
      case idle => exact absurd hst hidle
      case rdmem2 => exact absurd hst hs
      all_goals (try split_ifs at hs') <;> simp at hs'
  rw [hnext]
  by_cases hs : s.core.state = .wrmem1
  · exact h.clocks_wrmem1 hr hf hs
  · rw [clocks_eq_rank fun hst => absurd hst hs]
    exact h.rank_step hr hw hidle hwrreg hs

/-- A clock spent waiting does not. -/
theorem Inv.clocks_stall (hw : s.Stalls i) : (s.step v i).clocks v = s.clocks v := by
  obtain ⟨-, ⟨k, hs⟩, hst, hrank⟩ := h.wait_step hr hw.1 hw.2
  have hne : s.core.state ≠ .wrmem1 := by
    rw [hs]
    cases k <;> simp
  rw [clocks_eq_rank fun hgo => absurd hgo hne, clocks_eq_rank fun hgo => absurd (hst ▸ hgo) hne,
    hrank]

end step

end clocks

/-! ## Along a run -/

end Ctrl

/-- The clocks of a request that no machine spends waiting, from the one after it is accepted. -/
def Request.clocks (q : Request) (hit : Bool) : ℕ :=
  match q, hit with
  | csrRead, _ => 23
  | csrWrite, _ => 0
  | s0Read, true => 1
  | s0Read, false => 43
  | s0Write, true => 1
  | s0Write, false => 91

namespace Ctrl

/-- The clocks to go right after a request is accepted. -/
theorem Inv.clocks_accept {v : Variant} {s : Ctrl v.width} {i : Inputs v.width} (h : s.Inv)
    (hr : i.rst = false) {q : Request} (ha : s.accepts = some q) (hq : q ≠ .csrWrite)
    (hhit : (s.step v i).core.state = .wrmem1 →
      (s.step v i).bufferHit v = s.bufferHit v) :
    (s.step v i).clocks v = q.clocks (s.bufferHit v) := by
  have hs := accepts_idle ha
  have hcore := coreStep_eq_registers (s := s) (i := i) hr
  have hrest (k : Transaction) : s.core.start k = false := Bool.eq_false_iff.2 fun hup => by
    have hhome := h.home k hup
    cases k <;> simp [hs] at hhome
  have hleft (k : Transaction) : ((s.step v i).bus k).left k.last = k.last + 8 := by
    refine BusStm.left_of_idle (h.idle k ?_)
    cases k <;> simp [hs]
  have h0 : (s.step v i).clocksLeft .rdreg = 23 := by
    rw [clocksLeft, hleft, step_core, hcore]
    have hdown : s.core.stmStart.rdreg = false := hrest .rdreg
    simp [registers, hs, startDelay, hdown]
  have h2 : (s.step v i).clocksLeft .rdmem = 42 := by
    rw [clocksLeft, hleft, step_core, hcore]
    have hdown : s.core.stmStart.rdmem = false := hrest .rdmem
    simp [registers, hs, startDelay, hdown]
  have hnext : (s.step v i).core.state = s.core.dispatch (s.bufferHit v) := by
    simp only [step_core, hcore, registers, hs]
  have hrow : (s.step v i).core.row = s.core.dispatchRow := by
    simp only [step_core, hcore, registers, hs, if_true]
  have hacc : (s.step v i).core.accCounter = 8 := by simp [hcore, registers, hs]
  rw [hnext] at hhit
  unfold accepts at ha
  unfold clocks rank after
  rw [hnext, h0, h2, hrow, hacc]
  revert ha hhit
  unfold Core.dispatch Core.dispatchRow
  rw [if_pos hs]
  cases s.core.edges.regrRise <;> cases s.core.edges.regwRise <;>
    cases s.core.edges.memrRise <;> cases s.core.edges.memwRise <;>
      cases hh : s.bufferHit v <;> intro ha hhit <;> simp at ha hhit <;> subst ha <;>
        simp_all [Request.clocks]

namespace Run

variable {v : Variant} {r : Ctrl.Run v}

/-- The clocks of the `n` from cycle `a` on that a machine spends waiting for `rwds`. -/
def stalls (r : Ctrl.Run v) (a n : ℕ) : ℕ :=
  Nat.count (fun k => (r.state (a + k)).Stalls (r.input (a + k))) n

variable (hr : ∀ t, (r.input t).rst = false)
include hr

theorem fresh : ∀ t, (r.state t).Fresh
  | 0 => fresh_reset (AfterReset.idle r.start).1
  | t + 1 => by
    rw [r.clock]
    exact (fresh t).step (hr t)

/-- Under a fair device an accepted read or write comes back. -/
theorem back_of_accepts (hf : Run.RwdsFair r) {a : ℕ} {q : Request}
    (ha : (r.state a).accepts = some q) (hq : q ≠ .csrWrite) : ∃ n, Run.BackAfter r (a + 1) n := by
  refine exists_backAfter hf hr ?_
  rw [r.clock]
  exact state_step_of_accepts (hr a) ha hq

/-- A request accepted in cycle `a` is served in the clocks it starts with and those spent
waiting, if a hit stands where it counts. -/
theorem service_time (hhit : ∀ t, (r.state (t + 1)).core.state = .wrmem1 →
      (r.state (t + 1)).bufferHit v = (r.state t).bufferHit v)
    (hmiss : ∀ t, (r.state t).core.state = .rdmem2 → (r.state t).bufferHit v = false)
    {a n : ℕ} {q : Request} (ha : (r.state a).accepts = some q) (hq : q ≠ .csrWrite)
    (hback : Run.BackAfter r (a + 1) n) :
    n = q.clocks ((r.state a).bufferHit v) + Run.stalls r (a + 1) n := by
  obtain ⟨hidle, hbusy⟩ := hback
  have hwrreg : ∀ k ≤ n, (r.state (a + 1 + k)).core.state ≠ .wrreg := by
    intro k hk
    induction k with
    | zero =>
      rw [Nat.add_zero, r.clock]
      exact state_step_of_accepts (hr a) ha hq
    | succ k ih =>
      show (r.state (a + 1 + k + 1)).core.state ≠ .wrreg
      rw [r.clock, Ne, state_step_wrreg (hr _)]
      rintro (hw | hw)
      · exact ih (by omega) hw
      · exact hbusy k (by omega) hw.1
  have hfirst : (r.state (a + 1)).clocks v = q.clocks ((r.state a).bufferHit v) := by
    have hstay := hhit a
    rw [r.clock] at hstay ⊢
    exact (r.inv a).clocks_accept (hr a) ha hq hstay
  have hlast : (r.state (a + 1 + n)).clocks v = 0 := by simp [clocks, rank, hidle]
  have hcount := measure_stalls (f := fun t => (r.state t).clocks v)
    (p := fun t => (r.state t).Stalls (r.input t)) (n := a + 1) (m := n) (fun k hk => ?_) n le_rfl
  · rw [hlast, hfirst] at hcount
    unfold stalls
    omega
  · have hstay := hhit (a + 1 + k)
    show (r.state (a + 1 + k + 1)).clocks v + _ = (r.state (a + 1 + k)).clocks v
    rw [r.clock] at hstay ⊢
    split_ifs with hstall
    · exact (r.inv _).clocks_stall (hr _) hstall
    · refine (r.inv _).clocks_step (hr _) (fresh hr _) (fun hw => ?_) (hbusy k hk)
        (hwrreg k hk.le) fun hst hgo => (hstay hgo).trans (hmiss _ hst)
      simpa [Stalls, hw] using hstall

end Run

/-- In every run of the packaged IP from reset without a further one, an accepted read or write
comes back to `IDLE` under a fair device. A `csr` read takes 23 clocks from its acceptance, a
memory read 43 and a write 91, and each of them one more for every clock that a machine waits for
`rwds`. -/
theorem ip_service_time (r : Ctrl.Run packaged) (hr : ∀ t, (r.input t).rst = false) {a : ℕ}
    {q : Request} (ha : (r.state a).accepts = some q) (hq : q ≠ .csrWrite) :
    (Run.RwdsFair r → ∃ n, Run.BackAfter r (a + 1) n) ∧
      ∀ n, Run.BackAfter r (a + 1) n → n = q.clocks false + Run.stalls r (a + 1) n :=
  ⟨fun hf => Run.back_of_accepts hr hf ha hq, fun _ hback =>
    Run.service_time hr (fun _ _ => rfl) (fun _ _ => rfl) ha hq hback⟩

/-- The read of `waitingRead` takes 43 clocks and the five of the wait. -/
theorem ip_service_time_waitingRead : (∃ n, Run.BackAfter (ipRun waitingRead) 2 n) ∧
    Run.stalls (ipRun waitingRead) 2 48 = 5 := by
  obtain ⟨hreturns, htime⟩ := ip_service_time (ipRun waitingRead) (fun _ => rfl)
    accepts_waitingRead (by decide)
  have hbusy : ∀ k < 48, ((ipRun waitingRead).state (2 + k)).core.state ≠ .idle := by
    show ∀ k < 48, (trace (Ctrl.step packaged) (cleared _) waitingRead (2 + k)).core.state ≠ .idle
    decide +kernel
  have hback : ((ipRun waitingRead).state (2 + 48)).core.state = .idle := by
    show (trace (Ctrl.step packaged) (cleared _) waitingRead 50).core.state = .idle
    decide +kernel
  have hclocks : 48 = 43 + Run.stalls (ipRun waitingRead) 2 48 := htime 48 ⟨hback, hbusy⟩
  exact ⟨hreturns rwdsFair_waitingRead, by omega⟩

/-- Under the discipline of one request at a time, and with a device that answers from its lines,
an access of the buffered controller comes back to `IDLE` if the device is fair. One whose tag is
the tag of the access before it is back one clock after it leaves `IDLE`. Any other read takes 43
clocks and any other write 91, and one more for every clock that a machine waits for `rwds`. -/
theorem buffered_service_time {r : Ctrl.Run buffered} (h : Run.OneAtATime r) {d : Device}
    (hd : Run.Supplies r d) {t : ℕ} {q : Request} (hq : q = .s0Read ∨ q = .s0Write)
    (ht : Rising (Run.port r q) t) :
    let hit := decide (Memory.Cache.lastTag (lineGeometry d.mem) coldCache.tag (Run.issued r t) =
      addressTag (r.input t).s0Address)
    (Run.RwdsFair r → ∃ n, Run.BackAfter r (t + 2) n) ∧
      ∀ n, Run.BackAfter r (t + 2) n → n = q.clocks hit + Run.stalls r (t + 2) n := by
  have hissues : Run.Issues r t := by
    rcases hq with rfl | rfl
    · exact .inl ht
    · exact .inr ht
  have hq' : q ≠ .csrWrite := by rcases hq with rfl | rfl <;> simp
  rw [← h.bufferHit_eq hd hissues]
  have ha := h.accepts_succ hq ht
  exact ⟨fun hf => Run.back_of_accepts h.rst hf ha hq', fun n hback =>
    Run.service_time h.rst (fun t => h.bufferHit_wrmem1) (fun t => h.bufferHit_rdmem2 hd) ha hq'
      hback⟩

/-- The write hit of `readWriteRead` comes back, in one clock. -/
theorem buffered_service_time_dropRun : (∃ n, Run.BackAfter dropRun (60 + 2) n) ∧
    1 = Request.s0Write.clocks true + Run.stalls dropRun (60 + 2) 1 := by
  have hidle : (dropRun.state 63).core.state = .idle ∧ (dropRun.state 62).core.state ≠ .idle := by
    show (trace (Ctrl.step buffered) (cleared _) readWriteRead 63).core.state = .idle ∧
      (trace (Ctrl.step buffered) (cleared _) readWriteRead 62).core.state ≠ .idle
    decide +kernel
  have hback : Run.BackAfter dropRun (60 + 2) 1 := ⟨hidle.1, fun k hk => by
    obtain rfl : k = 0 := by omega
    exact hidle.2⟩
  obtain ⟨hreturns, htime⟩ := buffered_service_time oneAtATime_dropRun supplies_dropRun (t := 60)
    (q := .s0Write) (.inr rfl) (by decide +kernel)
  have hhit : decide (Memory.Cache.lastTag (lineGeometry Device.zero.mem) coldCache.tag
      (Run.issued dropRun 60) = addressTag (dropRun.input 60).s0Address) = true := by
    decide +kernel
  refine ⟨hreturns rwdsFair_dropRun, ?_⟩
  rw [← hhit]
  exact htime 1 hback

end Ctrl

end HyperRam
