import HyperRam.Requests

/-!
# Progress to `IDLE`

`Ctrl.rank` is the number of clocks a controller still needs until it is back in `IDLE` when the
device keeps `rwds` high : those of the transaction it is at (`clocksLeft`), the start delay
included, and those of what follows the transaction (`after`). A clock of a transaction that is not
spent waiting leaves one less of it (`Inv.clocksLeft_step`), from the clocks that a bus machine has
left and the delay of its start bit, in one statement for the three. So outside `IDLE`, `WRREG` and
`WRMEM1` the rank falls by one (`Inv.rank_step`), and in `WRMEM1`, where it cannot know of a hit, by
one at least (`Inv.rank_step_lt`). While a machine waits for `rwds` it stands (`Inv.wait_step`).

With the rule for progress that gives the return to `IDLE` under a device that raises `rwds` in
every command phase (`Run.exists_idle`), for every variant of the controller, and the measure of
`ip_terminates`, which is at most 91.

`WRREG` waits for `stm_end[1]`, which no module drives, so it is left by a reset only
(`wrreg_stuck`). It is the only trap : a reachable state of the packaged IP can be brought back to
`IDLE` without a reset if and only if no `csr_write` was taken since the last one
(`ip_canIdle_iff`).
-/

namespace HyperRam

open Clocked

namespace Ctrl

/-! ## The clocks of a transaction -/

/-- Clocks before `stm_start` of a machine is up, from the start bit and the direction register it
follows. -/
def startDelay (start tmp : Bool) : ℕ :=
  if start then 0 else if tmp then 1 else 2

theorem startDelay_le (start tmp : Bool) : startDelay start tmp ≤ 2 := by
  unfold startDelay
  split_ifs <;> omega

/-- A clock of the start delay, or of a machine with `l` clocks left. -/
theorem startDelay_step {start tmp : Bool} {l l' : ℕ}
    (hup : start = true → tmp = true ∧ l' + 1 = l) (hdown : start = false → l' = l) :
    l' + startDelay tmp true + 1 = l + startDelay start tmp := by
  unfold startDelay
  cases start
  case true =>
    obtain ⟨rfl, hl⟩ := hup rfl
    simp only [if_true]
    omega
  case false =>
    have heq := hdown rfl
    cases tmp <;> simp only [Bool.false_eq_true, if_false, if_true] <;> omega

/-- Clocks until the controller takes `stm_end` of a transaction in its home state, with `rwds`
high. -/
def clocksLeft {w : ℕ} (s : Ctrl w) (k : Transaction) : ℕ :=
  (s.bus k).left k.last + startDelay (s.core.start k) (s.core.tmp k)

/-- A machine waits for `rwds`. -/
def Waits {w : ℕ} (s : Ctrl w) : Prop :=
  ∃ k, (s.bus k).Waits

/-- A machine spends the clock waiting for `rwds`. -/
def Stalls {v : Variant} (s : Ctrl v.width) (i : Inputs v.width) : Prop :=
  s.Waits ∧ i.rwdsIn = false

instance {w : ℕ} (s : Ctrl w) : Decidable s.Waits :=
  inferInstanceAs (Decidable (∃ k, (s.bus k).Waits))

instance {v : Variant} (s : Ctrl v.width) (i : Inputs v.width) : Decidable (s.Stalls i) :=
  inferInstanceAs (Decidable (_ ∧ _))

theorem clocksLeft_le {w : ℕ} (s : Ctrl w) (k : Transaction) : s.clocksLeft k ≤ k.last + 10 := by
  have hleft := (s.bus k).left_le k.last
  have hdelay := startDelay_le (s.core.start k) (s.core.tmp k)
  unfold clocksLeft
  omega

section clocksLeft

variable {v : Variant} {s : Ctrl v.width} {i : Inputs v.width} (k : Transaction)

/-- In its home state the start bit follows the direction register, which is set. -/
theorem registers_home (hs : s.core.state = k.home) (he : (s.bus k).stmEnd = false) :
    (s.registers v i).start k = s.core.tmp k ∧ (s.registers v i).tmp k = true := by
  cases k <;> simp_all [registers]

variable (h : s.Inv)
include h

/-- The controller stays in a home state until the end. -/
theorem Inv.stays_home (hr : i.rst = false) (hs : s.core.state = k.home)
    (he : (s.bus k).stmEnd = false) : (s.step v i).core.state = k.home := by
  rw [step_core, coreStep_eq_registers hr]
  exact of_decide_eq_true ((requester k (h.tmp k)).stay (decide_eq_true hs) he)

/-- On its last clock a transaction has one clock left. -/
theorem Inv.clocksLeft_end (hs : s.core.state = k.home) (he : (s.bus k).stmEnd = true) :
    s.clocksLeft k = 1 := by
  rw [clocksLeft, BusStm.left_of_done (h.done k hs he), h.end_start k hs he]
  rfl

/-- A clock of a transaction that is not spent waiting leaves one clock less. -/
theorem Inv.clocksLeft_step (hr : i.rst = false) (hw : s.Waits → i.rwdsIn = true)
    (hs : s.core.state = k.home) (he : (s.bus k).stmEnd = false) :
    (s.step v i).clocksLeft k + 1 = s.clocksLeft k := by
  obtain ⟨hstart, htmp⟩ := registers_home (i := i) k hs he
  unfold clocksLeft
  rw [step_core, coreStep_eq_registers hr, hstart, htmp]
  refine startDelay_step (fun hst => ⟨h.tmp k hst, ?_⟩) fun hst => ?_
  · refine (h.next hr k).left_step (h.bus k) (fun hm => hw ⟨k, hm⟩) (fun _ => hst) fun hd => ?_
    exact Bool.false_ne_true (he.symm.trans (((h.bus k).stmEnd (by simp [hd])).2 hd))
  · rw [BusStm.left_of_idle (h.rest k hst), BusStm.left_of_idle (h.idle_of_not_start k hst)]

/-- A clock that a machine spends waiting leaves the transaction where it is. -/
theorem Inv.clocksLeft_stall (hr : i.rst = false) (hw : (s.bus k).Waits)
    (hrw : i.rwdsIn = false) :
    s.core.state = k.home ∧ (s.step v i).core.state = k.home ∧ ((s.step v i).bus k).Waits ∧
      (s.step v i).clocksLeft k = s.clocksLeft k := by
  obtain ⟨hs, hst⟩ := h.active k (by simp [hw.1])
  have he : (s.bus k).stmEnd = false := (h.bus k).not_stmEnd (by simp [hw.1]) (by simp [hw.1])
  have hw' : ((s.step v i).bus k).Waits := (h.next hr k).waits hw hrw
  have hstart := (registers_home (i := i) k hs he).1
  refine ⟨hs, h.stays_home k hr hs he, hw', ?_⟩
  unfold clocksLeft
  rw [step_core, coreStep_eq_registers hr, hstart, h.tmp k hst, hst]
  simp [startDelay, BusStm.left, hw.1, hw.2, hw'.1, hw'.2]

end clocksLeft

/-! ## The rank of a controller -/

/-- Clocks until `IDLE` behind a transaction. -/
def after {w : ℕ} (s : Ctrl w) : Transaction → ℕ
  | .rdreg => 0
  | .rdmem => if s.core.row then 1 else s.core.accCounter.toNat + 41
  | .wrmem => s.core.accCounter.toNat + 1

/-- Clocks until `IDLE` with `rwds` high, outside `WRREG`. -/
def rank {w : ℕ} (s : Ctrl w) : ℕ :=
  match s.core.state with
  | .idle => 0
  | .wrreg => 0
  | .rdreg => s.clocksLeft .rdreg + s.after .rdreg
  | .rdmem1 => 1
  | .rdmem2 => s.clocksLeft .rdmem + s.after .rdmem
  | .wrmem1 => s.core.accCounter.toNat + 41
  | .wrmem2 => s.clocksLeft .wrmem + s.after .wrmem
  | .accdly => s.core.accCounter.toNat + 1

theorem rank_home {w : ℕ} {s : Ctrl w} {k : Transaction} (hs : s.core.state = k.home) :
    s.rank = s.clocksLeft k + s.after k := by
  cases k <;> simp only [Transaction.home] at hs <;> simp only [rank, hs]

theorem Inv.rank_le {w : ℕ} {s : Ctrl w} (h : s.Inv) : s.rank ≤ 91 := by
  have hacc : s.core.accCounter.toNat ≤ 8 := h.accCounter
  have h0 := s.clocksLeft_le .rdreg
  have h2 := s.clocksLeft_le .rdmem
  have h3 := s.clocksLeft_le .wrmem
  simp only [Transaction.last] at h0 h2 h3
  unfold rank after
  cases s.core.state <;> simp only
  all_goals (try split_ifs) <;> omega

section rank

variable {v : Variant} {s : Ctrl v.width} {i : Inputs v.width}

/-- What follows a transaction stands while it is at work. -/
theorem after_step (hr : i.rst = false) {k : Transaction} (hs : s.core.state = k.home)
    (he : (s.bus k).stmEnd = false) : (s.step v i).after k = s.after k := by
  cases k <;> simp_all [after, coreStep_eq_registers hr, registers]

section home

variable (h : s.Inv) (hr : i.rst = false) {k : Transaction} (hs : s.core.state = k.home)
include h hr hs

/-- A clock of a transaction at work brings `IDLE` nearer by one. -/
theorem Inv.rank_work (hw : s.Waits → i.rwdsIn = true) (he : (s.bus k).stmEnd = false) :
    (s.step v i).rank + 1 = s.rank := by
  have hstep := h.clocksLeft_step k hr hw hs he
  rw [rank_home hs, rank_home (h.stays_home k hr hs he), after_step hr hs he]
  omega

/-- The end of a transaction leads to what follows it. -/
theorem Inv.rank_end (he : (s.bus k).stmEnd = true) : (s.step v i).rank + 1 = s.rank := by
  rw [rank_home hs, h.clocksLeft_end k hs he, Nat.add_comm 1]
  congr 1
  cases k <;> simp only [Transaction.home, bus_rdreg, bus_rdmem, bus_wrmem, RdregStm.bus_stmEnd,
    RdmemStm.bus_stmEnd, WrmemStm.bus_stmEnd] at hs he
  case rdmem =>
    cases hrow : s.core.row <;>
      simp [rank, after, coreStep_eq_registers hr, registers, hs, he, hrow]
  all_goals simp [rank, after, coreStep_eq_registers hr, registers, hs, he]

/-- A clock of a home state that no machine spends waiting brings `IDLE` nearer by one. -/
theorem Inv.rank_home_step (hw : s.Waits → i.rwdsIn = true) :
    (s.step v i).rank + 1 = s.rank := by
  cases he : (s.bus k).stmEnd
  case true => exact h.rank_end hr hs he
  case false => exact h.rank_work hr hs hw he

end home

/-- `WRMEM1` goes on to the line write, or back on a hit. -/
theorem rank_wrmem1 (hr : i.rst = false) (hs : s.core.state = .wrmem1) :
    (s.step v i).rank = if s.bufferHit v then 0
      else (s.step v i).clocksLeft .wrmem + s.core.accCounter.toNat + 1 := by
  cases hh : s.bufferHit v
  case true => simp [rank, coreStep_eq_registers hr, registers, hs, hh]
  case false =>
    have hgo : (s.step v i).core.state = Transaction.wrmem.home := by
      simp [coreStep_eq_registers hr, registers, hs, hh]
    rw [rank_home hgo]
    simp [after, coreStep_eq_registers hr, registers, hs]
    omega

/-- Unless a machine waits for `rwds`, every clock outside `IDLE`, `WRREG` and `WRMEM1` brings
`IDLE` nearer by one. -/
theorem Inv.rank_step (h : s.Inv) (hr : i.rst = false) (hw : s.Waits → i.rwdsIn = true)
    (hidle : s.core.state ≠ .idle) (hwrreg : s.core.state ≠ .wrreg)
    (hwrmem1 : s.core.state ≠ .wrmem1) : (s.step v i).rank + 1 = s.rank := by
  cases hs : s.core.state
  case idle => exact absurd hs hidle
  case wrreg => exact absurd hs hwrreg
  case wrmem1 => exact absurd hs hwrmem1
  case rdreg => exact h.rank_home_step hr (k := .rdreg) hs hw
  case rdmem2 => exact h.rank_home_step hr (k := .rdmem) hs hw
  case wrmem2 => exact h.rank_home_step hr (k := .wrmem) hs hw
  case rdmem1 => simp [rank, coreStep_eq_registers hr, registers, hs]
  case accdly =>
    by_cases h0 : s.core.accCounter = 0#4
    · simp [rank, coreStep_eq_registers hr, registers, hs, h0]
    · have hnext : (s.step v i).rank = (s.core.accCounter - 1).toNat + 1 := by
        simp [rank, coreStep_eq_registers hr, registers, hs, h0]
      have hnow : s.rank = s.core.accCounter.toNat + 1 := by simp [rank, hs]
      bv_omega

/-- Unless a machine waits for `rwds`, every clock outside `IDLE` and `WRREG` brings `IDLE`
nearer. -/
theorem Inv.rank_step_lt (h : s.Inv) (hr : i.rst = false)
    (hw : s.Waits → i.rwdsIn = true) (hidle : s.core.state ≠ .idle)
    (hwrreg : s.core.state ≠ .wrreg) :
    (s.step v i).rank < s.rank := by
  by_cases hs : s.core.state = .wrmem1
  · have hnow : s.rank = s.core.accCounter.toNat + 41 := by simp [rank, hs]
    have hle := (s.step v i).clocksLeft_le .wrmem
    rw [rank_wrmem1 hr hs, hnow]
    simp only [Transaction.last] at hle
    split_ifs <;> omega
  · have hstep := h.rank_step hr hw hidle hwrreg hs
    omega

/-- While `rwds` stays low a controller with a waiting machine stays where it is. -/
theorem Inv.wait_step (h : s.Inv) (hr : i.rst = false) (hw : s.Waits) (hrw : i.rwdsIn = false) :
    (s.step v i).Waits ∧ (∃ k : Transaction, s.core.state = k.home) ∧
      (s.step v i).core.state = s.core.state ∧ (s.step v i).rank = s.rank := by
  obtain ⟨k, hk⟩ := hw
  obtain ⟨hs, hs', hk', hleft⟩ := h.clocksLeft_stall k hr hk hrw
  have he : (s.bus k).stmEnd = false := (h.bus k).not_stmEnd (by simp [hk.1]) (by simp [hk.1])
  refine ⟨⟨k, hk'⟩, ⟨k, hs⟩, hs'.trans hs.symm, ?_⟩
  rw [rank_home hs, rank_home hs', hleft, after_step hr hs he]

end rank

/-! ## The trap -/

section trap

variable {v : Variant} {s : Ctrl v.width} {i : Inputs v.width}

/-- `IDLE` takes a `csr_write` : its edge is seen and no `csr_read` edge comes before it. -/
def TakesCsrWrite {w : ℕ} (s : Ctrl w) : Prop :=
  s.core.state = .idle ∧ s.core.edges.regwRise = true ∧ s.core.edges.regrRise = false

/-- `WRREG` is entered by taking a `csr_write`. -/
theorem state_step_wrreg (hr : i.rst = false) :
    (s.step v i).core.state = .wrreg ↔ s.core.state = .wrreg ∨ s.TakesCsrWrite := by
  simp only [step_core, coreStep_eq_registers hr, TakesCsrWrite]
  cases hs : s.core.state <;> simp only [registers, hs]
  case idle =>
    unfold Core.dispatch
    cases s.core.edges.regrRise <;> cases s.core.edges.regwRise <;> simp
    split_ifs <;> simp
  all_goals (try split_ifs) <;> simp

/-- An accepted read or write leaves `IDLE` for a state other than `WRREG`. -/
theorem state_step_of_accepts (hr : i.rst = false) {q : Request} (ha : s.accepts = some q)
    (hq : q ≠ .csrWrite) : (s.step v i).core.state ≠ .wrreg := by
  have hidle := accepts_idle ha
  rw [Ne, state_step_wrreg hr, hidle]
  rintro (hs | ⟨-, hrise, hno⟩)
  · exact absurd hs (by simp)
  · rw [accepts, if_pos hidle, if_neg (by simp [hno]), if_pos hrise] at ha
    exact hq (Option.some.inj ha).symm

/-- `WRREG` is left by a reset only. -/
theorem wrreg_stuck {is : ℕ → Inputs v.width} (hr : ∀ u, (is u).rst = false)
    (hs : s.core.state = .wrreg) : ∀ n, (trace (Ctrl.step v) s is n).core.state = .wrreg
  | 0 => hs
  | n + 1 => by
    rw [trace_succ, state_step_wrreg (hr n)]
    exact .inl (wrreg_stuck hr hs n)

/-- Outside `WRREG` the controller is back in `IDLE` on its own. -/
theorem Inv.exists_idle (h : s.Inv) (hs : s.core.state ≠ .wrreg) :
    ∃ n, (trace (Ctrl.step v) s (fun _ => quiet) n).core.state = .idle := by
  refine exists_trace (P := fun s => s.Inv ∧ s.core.state ≠ .wrreg)
    (Q := fun s => s.core.state = .idle) rank ?_ ?_ s ⟨h, hs⟩
  · rintro s ⟨h, hs⟩ hg
    refine ⟨h.step _, ?_⟩
    rw [Ne, state_step_wrreg rfl]
    rintro (hw | hw)
    · exact hs hw
    · exact hg hw.1
  · rintro s ⟨h, hs⟩ hg
    exact h.rank_step_lt rfl (fun _ => rfl) hg hs

/-- `WRREG` at cycle `t` goes back to a `csr_write` taken since the last reset. -/
theorem wrreg_iff_taken (r : Ctrl.Run v) : ∀ t, (r.state t).core.state = .wrreg ↔
    ∃ u < t, (r.state u).TakesCsrWrite ∧ ∀ x, u ≤ x → x < t → (r.input x).rst = false
  | 0 => by simp [(AfterReset.idle r.start).1, Core.reset]
  | t + 1 => by
    rw [r.clock]
    cases hr : (r.input t).rst
    case true =>
      simp only [step_core, coreStep_reset hr, Core.reset, reduceCtorEq, false_iff]
      rintro ⟨u, hu, -, hx⟩
      simp [hx t (by omega) (by omega)] at hr
    case false =>
      rw [state_step_wrreg hr, wrreg_iff_taken r t]
      constructor
      · rintro (⟨u, hu, htake, hx⟩ | htake)
        · refine ⟨u, by omega, htake, fun x hux hxt => ?_⟩
          rcases Nat.lt_or_ge x t with hlt | hge
          · exact hx x hux hlt
          · obtain rfl : x = t := by omega
            exact hr
        · refine ⟨t, by omega, htake, fun x hux hxt => ?_⟩
          obtain rfl : x = t := by omega
          exact hr
      · rintro ⟨u, hu, htake, hx⟩
        rcases Nat.lt_or_ge u t with hlt | hge
        · exact .inl ⟨u, hlt, htake, fun x hux hxt => hx x hux (by omega)⟩
        · obtain rfl : u = t := by omega
          exact .inr htake

/-- Some continuation without reset leads to `IDLE`. -/
def CanIdle (v : Variant) (s : Ctrl v.width) : Prop :=
  ∃ (is : ℕ → Inputs v.width) (n : ℕ), (∀ u, (is u).rst = false) ∧
    (trace (Ctrl.step v) s is n).core.state = .idle

/-- A reachable state of the packaged IP can be brought back to `IDLE` without a reset if and
only if no `csr_write` was taken since the last one. -/
theorem ip_canIdle_iff (r : Ctrl.Run packaged) (t : ℕ) : CanIdle packaged (r.state t) ↔
    ¬∃ u < t, (r.state u).TakesCsrWrite ∧ ∀ x, u ≤ x → x < t → (r.input x).rst = false := by
  rw [← wrreg_iff_taken r t]
  constructor
  · rintro ⟨is, n, hr, hidle⟩ hs
    simp [wrreg_stuck hr hs n] at hidle
  · intro hs
    obtain ⟨n, hn⟩ := (r.inv t).exists_idle hs
    exact ⟨fun _ => quiet, n, fun _ => rfl, hn⟩

/-- `csr_write` raised in the first cycle and lowered in the next. -/
def csrWritePulse (t : ℕ) : Inputs packaged.width :=
  { quiet with csrWrite := t = 0 }

/-- One `csr_write` after a reset disables the controller. -/
theorem ip_canIdle_fails : ¬∀ (r : Ctrl.Run packaged) t, CanIdle packaged (r.state t) := by
  intro h
  obtain ⟨is, n, hr, hidle⟩ := h (ipRun csrWritePulse) 2
  have hs : (trace (Ctrl.step packaged) (cleared _) csrWritePulse 2).core.state = .wrreg := by
    decide +kernel
  exact absurd (hidle.symm.trans (wrreg_stuck hr hs n)) (by simp)

end trap

/-! ## Termination -/

namespace Run

variable {v : Variant} {r : Ctrl.Run v}

/-- The device raises `rwds` in every command phase. -/
def RwdsFair (r : Ctrl.Run v) : Prop :=
  ∀ t, (r.state t).Waits → ∃ n, (r.input (t + n)).rwdsIn = true

/-- Outside `WRREG` a run without further reset comes back to `IDLE` under a fair device. -/
theorem exists_idle {t : ℕ} (hr : ∀ u, t ≤ u → (r.input u).rst = false)
    (hf : ∀ u, t ≤ u → (r.state u).Waits → ∃ n, (r.input (u + n)).rwdsIn = true)
    (hw : (r.state t).core.state ≠ .wrreg) : ∃ n, (r.state (t + n)).core.state = .idle := by
  refine exists_of_progress (f := fun u => (r.state u).rank)
    (P := fun u => t ≤ u ∧ (r.state u).core.state ≠ .wrreg)
    (Q := fun u => (r.state u).core.state = .idle)
    (S := fun u => (r.state u).Stalls (r.input u)) ?_ ?_ ⟨le_rfl, hw⟩
  · rintro u ⟨htu, hwu⟩ hidle
    rw [r.clock]
    have hsafe : ((r.state u).step v (r.input u)).core.state ≠ .wrreg := by
      rw [Ne, state_step_wrreg (hr u htu)]
      rintro (hw | hw)
      · exact hwu hw
      · exact hidle hw.1
    by_cases hstall : (r.state u).Stalls (r.input u)
    · obtain ⟨-, -, -, hrank⟩ := (r.inv u).wait_step (hr u htu) hstall.1 hstall.2
      exact ⟨⟨by omega, hsafe⟩, hrank.le, fun hgo => absurd hstall hgo⟩
    · have hlt := (r.inv u).rank_step_lt (hr u htu)
        (fun hwait => by simpa [Stalls, hwait] using hstall) hidle hwu
      exact ⟨⟨by omega, hsafe⟩, hlt.le, fun _ => hlt⟩
  · rintro u ⟨htu, -⟩
    by_cases hwait : (r.state u).Waits
    · obtain ⟨n, hn⟩ := hf u htu hwait
      exact ⟨n, fun hstall => Bool.false_ne_true (hstall.2.symm.trans hn)⟩
    · exact ⟨0, fun hstall => hwait hstall.1⟩

/-- From cycle `a` on the controller is back in `IDLE` after `n` cycles. -/
def BackAfter (r : Ctrl.Run v) (a n : ℕ) : Prop :=
  FirstFrom (fun t => (r.state t).core.state = .idle) a n

/-- Under a fair device it is back at some time. -/
theorem exists_backAfter (hf : Run.RwdsFair r) (hr : ∀ t, (r.input t).rst = false) {a : ℕ}
    (hw : (r.state a).core.state ≠ .wrreg) : ∃ n, Run.BackAfter r a n :=
  exists_firstFrom (exists_idle (fun u _ => hr u) (fun u _ => hf u) hw)

end Run

/-- A measure of at most 91 falls with every clock without reset on which `rwds` is high, from
every reachable state of the packaged IP outside `IDLE` and `WRREG`. So the controller comes
back to `IDLE` from every accepted read or write, also where the device holds `rwds` low for a
while. -/
theorem ip_terminates : ∃ measure : Ctrl packaged.width → ℕ, ∀ r : Ctrl.Run packaged,
    (∀ t, measure (r.state t) ≤ 91) ∧
      (∀ t, (r.input t).rst = false → (r.input t).rwdsIn = true →
        (r.state t).core.state ≠ .idle → (r.state t).core.state ≠ .wrreg →
        measure (r.state (t + 1)) < measure (r.state t)) ∧
      ∀ t q, (r.state t).accepts = some q → q ≠ .csrWrite →
        (∀ u, t ≤ u → (r.input u).rst = false) →
        (∀ u, t ≤ u → (r.state u).Waits → ∃ n, (r.input (u + n)).rwdsIn = true) →
        ∃ u, t < u ∧ (r.state u).core.state = .idle := by
  refine ⟨rank, fun r => ⟨fun t => (r.inv t).rank_le, ?_, ?_⟩⟩
  · intro t hr hrw hidle hwrreg
    rw [r.clock]
    exact (r.inv t).rank_step_lt hr (fun _ => hrw) hidle hwrreg
  · intro t q ha hq hr hf
    have hw : (r.state (t + 1)).core.state ≠ .wrreg := by
      rw [r.clock]
      exact state_step_of_accepts (hr t le_rfl) ha hq
    obtain ⟨n, hn⟩ := Run.exists_idle (fun u hu => hr u (by omega))
      (fun u hu => hf u (by omega)) hw
    exact ⟨t + 1 + n, by omega, hn⟩

/-- One read, with `rwds` low for five clocks of its wait. -/
def waitingRead (t : ℕ) : Inputs packaged.width :=
  { quiet with s0Read := t = 0, rwdsIn := t < 4 ∨ 10 ≤ t }

/-- The device of `waitingRead` keeps `rwds` low for a while only. -/
theorem rwdsFair_waitingRead : Run.RwdsFair (ipRun waitingRead) := fun t _ => by
  have hup : t + 10 < 4 ∨ 10 ≤ t + 10 := by omega
  exact ⟨10, decide_eq_true hup⟩

/-- The read of `waitingRead` is accepted in cycle `1`. -/
theorem accepts_waitingRead : ((ipRun waitingRead).state 1).accepts = some .s0Read := by
  decide +kernel

/-- It comes back, after a machine has waited in cycle `5`. -/
theorem ip_terminates_waitingRead : ((ipRun waitingRead).state 5).Stalls (waitingRead 5) ∧
    ∃ u, 1 < u ∧ ((ipRun waitingRead).state u).core.state = .idle := by
  obtain ⟨measure, hall⟩ := ip_terminates
  exact ⟨by decide +kernel, (hall (ipRun waitingRead)).2.2 1 .s0Read accepts_waitingRead
    (by decide) (fun _ _ => rfl) fun u _ => rwdsFair_waitingRead u⟩

end Ctrl

end HyperRam
