import HyperRam.ProbedTransfers

/-!
# Reads and service times of the probed top

`MEM_RD1` shifts `dataout` through three registers and shows the oldest one to the probe while
its counter is past 18. So each memory read shows fourteen halfwords, the ones on the pads with
the counter from 15 to 28, and the probe shows nothing else.

`Reading` says what the three registers hold in a cycle of `MEM_RD1`, the `dataout` of the three
cycles before it. What a read is to show is a window of cycles behind the one in which it enters
`MEM_RD1` (`window`), and of that window `unread` is what is left. A clock shows what is next of it
(`unread_next`), so the halfwords shown and those left are the windows of the reads taken, and
once the reads are over there is nothing left (`captured_eq_reads`).

A request takes the clocks of its state, and one more for each clock it waits for `rwds`
(`probed_service_time`). `Hr.clocks` are the clocks to `HR_IDLE` from the state and the counter, and
each clock outside `HR_IDLE` lowers them by one unless it is spent waiting (`Counts.clocks_step`).
The return is part of the result : under a memory that raises `rwds` in every command phase the
state machine comes back from every cycle (`exists_backAfter`), by the rule for progress that the
controllers use too.
-/

namespace HyperRam

open Clocked

namespace Hr

variable {m : Hr} {stall : Bool} {ca : BitVec 48} {i : TopIn}

/-- A clock of `MEM_RD1` before the last. -/
theorem step_memRd1 (hr : i.rst = false) (hs : m.state = .memRd1) (hc : m.counter.toNat < 32) :
    (m.step stall ca i).state = .memRd1 ∧
      (m.step stall ca i).counter.toNat = m.counter.toNat + 1 ∧
      (m.step stall ca i).dataoutReg = shiftIn m.dataoutReg i.dataout ∧
      (m.step stall ca i).datavalid = decide (17 < m.counter.toNat) ∧
      (17 < m.counter.toNat → (m.step stall ca i).capturedData = m.dataoutReg slot0) := by
  have h32 : m.counter ≠ 32 := by bv_omega
  have hnext : (m.counter + 1).toNat = m.counter.toNat + 1 := by bv_omega
  have hlt : 17 < m.counter ↔ 17 < m.counter.toNat := by bv_omega
  simp only [step, hr, hs, memRd1, if_neg h32, Bool.false_eq_true, if_false, hlt]
  split_ifs with h17 <;> exact ⟨rfl, hnext, rfl, by simp [h17], by simp [h17]⟩

/-- The last one. -/
theorem step_memRd1_last (hr : i.rst = false) (hs : m.state = .memRd1) (hc : m.counter = 32) :
    (m.step stall ca i).state = .idle ∧ (m.step stall ca i).datavalid = false := by
  simp [step, hr, hs, memRd1, hc]

/-- Elsewhere the probe stays as it is, and `MEM_RD1` is entered with its counter at zero. -/
theorem step_datavalid (hr : i.rst = false) (hs : m.state ≠ .memRd1) :
    (m.step stall ca i).datavalid = m.datavalid ∧
      ((m.step stall ca i).state = .memRd1 → (m.step stall ca i).counter = 0) := by
  unfold step
  rw [if_neg (by simp [hr])]
  cases hst : m.state <;> simp only
  case idle =>
    unfold idle
    simp only
    split_ifs <;> simp [start, hst]
  case memRd1 => exact absurd hst hs
  case rdReg1 =>
    unfold rdReg1
    split_ifs <;> simp [hst]
  case memWr1 =>
    unfold memWr1
    split_ifs <;> simp [hst]
  case rdReg0 =>
    unfold rdReg0 command
    split_ifs <;> simp [hst]
  case memWr0 =>
    unfold memWr0 command
    split_ifs <;> simp [hst]
  case memRd0 =>
    unfold memRd0 command
    split_ifs <;> simp [hst]
  all_goals simp

end Hr

namespace TopV2

/-! ## What the probe shows -/

/-- The data registers in `MEM_RD1`, in cycle `t` of a run. -/
structure Reading (r : Run Init TopV2.step) (t : ℕ) : Prop where
  count : (r.state t).hr.counter.toNat < t ∧ (r.state t).hr.counter.toNat ≤ 32
  shifted : ∀ k : Fin 3, 3 ≤ (r.state t).hr.counter.toNat + k.val →
    (r.state t).hr.dataoutReg k = (r.input (t + k.val - 3)).dataout
  valid : (r.state t).hr.datavalid = decide (18 < (r.state t).hr.counter.toNat)
  captured : 18 < (r.state t).hr.counter.toNat →
    (r.state t).hr.capturedData = (r.input (t - 4)).dataout

/-- What the probe shows as valid in cycle `t`. -/
def captured (r : Run Init TopV2.step) (t : ℕ) : List (BitVec 16) :=
  if (r.state t).hr.datavalid then [(r.state t).hr.capturedData] else []

/-- The halfwords that a memory read is to show, `t` its first cycle of `MEM_RD1`. -/
def window (r : Run Init TopV2.step) (t : ℕ) : List (BitVec 16) :=
  (List.range 14).map fun j => (r.input (t + 15 + j)).dataout

/-- The read that enters `MEM_RD1` on the clock after cycle `t`. -/
def readTaken (r : Run Init TopV2.step) (t : ℕ) : List (BitVec 16) :=
  if (r.state t).hr.state ≠ .memRd1 ∧ (r.state (t + 1)).hr.state = .memRd1 then window r (t + 1)
  else []

/-- What is left of it in cycle `t`. -/
def unread (r : Run Init TopV2.step) (t : ℕ) : List (BitVec 16) :=
  if (r.state t).hr.state = .memRd1 then
    (window r (t - (r.state t).hr.counter.toNat)).drop ((r.state t).hr.counter.toNat - 19)
  else []

section run

variable {r : Run Init TopV2.step} (hr : ∀ t, (r.input t).rst = false)
include hr

theorem Reading.next {t : ℕ} (h : Reading r t) (hs : (r.state t).hr.state = .memRd1)
    (hc : (r.state t).hr.counter.toNat < 32) :
    (r.state (t + 1)).hr.state = .memRd1 ∧
      (r.state (t + 1)).hr.counter.toNat = (r.state t).hr.counter.toNat + 1 ∧
      Reading r (t + 1) := by
  have hstep : ((r.state t).step (r.input t)).hr.state = .memRd1 ∧ _ :=
    Hr.step_memRd1 (hr t) hs hc
  rw [← step_hr, ← r.clock] at hstep
  obtain ⟨hst, hcount, hshift, hvalid, hcaptured⟩ := hstep
  have hlt := h.count.1
  refine ⟨hst, hcount, ⟨by omega, by omega⟩, fun k hk => ?_, ?_, fun h18 => ?_⟩
  · rw [hcount] at hk
    rw [hshift]
    by_cases hk1 : k.val + 1 < 3
    · rw [shiftIn_of_lt hk1, h.shifted ⟨k.val + 1, hk1⟩ (by simp only; omega)]
      simp only [show t + (k.val + 1) - 3 = t + 1 + k.val - 3 by omega]
    · rw [shiftIn_last hk1]
      simp only [show t + 1 + k.val - 3 = t by omega]
  · rw [hvalid, hcount]
    exact decide_eq_decide.2 (by omega)
  · rw [hcount] at h18
    rw [hcaptured (by omega), h.shifted slot0 (by omega)]
    rfl

/-- `MEM_RD1` is entered with the probe low, and it is low outside. -/
theorem reading : ∀ t, ((r.state t).hr.state = .memRd1 → Reading r t) ∧
    ((r.state t).hr.state ≠ .memRd1 → (r.state t).hr.datavalid = false)
  | 0 => by
    obtain ⟨s₀, i, hrst, hs⟩ := r.start
    simp [hs, step, Hr.step, hrst]
  | t + 1 => by
    obtain ⟨hin, hout⟩ := reading t
    by_cases hs : (r.state t).hr.state = .memRd1
    · have h := hin hs
      by_cases hc : (r.state t).hr.counter = 32
      · have hlast : ((r.state t).step (r.input t)).hr.state = .idle ∧ _ :=
          Hr.step_memRd1_last (hr t) hs hc
        rw [← step_hr, ← r.clock] at hlast
        exact ⟨fun he => absurd (hlast.1.symm.trans he) (by simp), fun _ => hlast.2⟩
      · have hle := h.count.2
        obtain ⟨hst, -, hnext⟩ := h.next hr hs (by bv_omega)
        exact ⟨fun _ => hnext, fun hne => absurd hst hne⟩
    · have hkeep : ((r.state t).step (r.input t)).hr.datavalid = _ ∧ _ :=
        Hr.step_datavalid (hr t) hs
      rw [← step_hr, ← r.clock, hout hs] at hkeep
      refine ⟨fun hst => ?_, fun _ => hkeep.1⟩
      have hc := hkeep.2 hst
      refine ⟨by simp [hc], fun k hk => ?_, by simp [hkeep.1, hc], by simp [hc]⟩
      have hk3 := k.isLt
      simp [hc] at hk
      omega

omit hr in
theorem drop_window (t : ℕ) {n : ℕ} (hn : n < 14) :
    (window r t).drop n = (r.input (t + 15 + n)).dataout :: (window r t).drop (n + 1) := by
  have hlen : n < (window r t).length := by simpa [window] using hn
  rw [List.drop_eq_getElem_cons hlen]
  simp [window]

omit hr in
/-- The window of a read, as far as it is not shown. -/
theorem Reading.drop_window {t : ℕ} (h : Reading r t) :
    (window r (t - (r.state t).hr.counter.toNat)).drop ((r.state t).hr.counter.toNat - 19) =
      TopV2.captured r t ++ (window r (t - (r.state t).hr.counter.toNat)).drop
        ((r.state t).hr.counter.toNat + 1 - 19) := by
  have hc := h.count
  unfold TopV2.captured
  rw [h.valid]
  by_cases h18 : 18 < (r.state t).hr.counter.toNat
  · have hcycle : t - (r.state t).hr.counter.toNat + 15 + ((r.state t).hr.counter.toNat - 19) =
        t - 4 := by omega
    rw [TopV2.drop_window _ (by omega), hcycle, h.captured h18, if_pos (decide_eq_true h18),
      show (r.state t).hr.counter.toNat - 19 + 1 = (r.state t).hr.counter.toNat + 1 - 19 by omega]
    rfl
  · rw [if_neg (by simpa using h18),
      show (r.state t).hr.counter.toNat - 19 = (r.state t).hr.counter.toNat + 1 - 19 by omega]
    rfl

/-- One clock of a read shows what is next of it. -/
theorem unread_next (t : ℕ) :
    unread r t ++ readTaken r t = captured r t ++ unread r (t + 1) := by
  obtain ⟨hin, hout⟩ := reading hr t
  by_cases hs : (r.state t).hr.state = .memRd1
  · have h := hin hs
    have hle := h.count
    have hnone : readTaken r t = [] := if_neg fun hne => hne.1 hs
    have hnow : unread r t = _ := if_pos hs
    rw [hnone, List.append_nil, hnow, h.drop_window]
    congr 1
    by_cases hc : (r.state t).hr.counter = 32
    · have hlast : ((r.state t).step (r.input t)).hr.state = .idle ∧ _ :=
        Hr.step_memRd1_last (hr t) hs hc
      rw [← step_hr, ← r.clock] at hlast
      have hnext : unread r (t + 1) = [] := if_neg (by rw [hlast.1]; simp)
      rw [hnext, hc]
      simp [window]
    · obtain ⟨hst, hcount, -⟩ := h.next hr hs (by bv_omega)
      have hnext : unread r (t + 1) = _ := if_pos hst
      rw [hnext, hcount, Nat.add_sub_add_right t]
  · have hnow : unread r t = [] := if_neg hs
    have hshown : captured r t = [] := if_neg (by simp [hout hs])
    rw [hnow, hshown, List.nil_append, List.nil_append]
    by_cases hst : (r.state (t + 1)).hr.state = .memRd1
    · have hkeep : ((r.state t).step (r.input t)).hr.datavalid = _ ∧ _ :=
        Hr.step_datavalid (hr t) hs
      rw [← step_hr, ← r.clock] at hkeep
      have htaken : readTaken r t = window r (t + 1) := if_pos ⟨hs, hst⟩
      have hnext : unread r (t + 1) = _ := if_pos hst
      rw [htaken, hnext, hkeep.2 hst]
      rfl
    · have htaken : readTaken r t = [] := if_neg fun hgo => hst hgo.2
      have hnext : unread r (t + 1) = [] := if_neg hst
      rw [htaken, hnext]

end run

/-- In a run of `topv2` without a further reset, once its reads are over, the probe has shown as
valid, in order, fourteen halfwords for each of them and nothing else : those on the pads from
the sixteenth clock of `MEM_RD1` on. -/
theorem captured_eq_reads (r : Run Init TopV2.step) (hr : ∀ t, (r.input t).rst = false) {t : ℕ}
    (ht : (r.state t).hr.state ≠ .memRd1) : log (captured r) t = log (readTaken r) t := by
  have hidle : (r.state 0).hr.state = .idle := by
    obtain ⟨s₀, i, hrst, hs⟩ := r.start
    simp [hs, step, Hr.step, hrst]
  have h0 : unread r 0 = [] := if_neg (by simp [hidle])
  have hbalance := log_balance h0 (unread_next hr) t
  have hnow : unread r t = [] := if_neg ht
  rwa [hnow, List.append_nil] at hbalance

/-- A memory read in cycle `12`. The device shows the number of the cycle. -/
def readLine (t : ℕ) : TopIn :=
  { rst := false, regr := false, regw := false, memr := decide (t = 12), memw := false, caSig := 0,
    regdata := 0, latency := 0, rwdsIn := true, dataout := BitVec.ofNat 16 t }

/-- The run of `readLine` from a reset. -/
def readLineRun : Run Init TopV2.step :=
  Run.ofInputs (s := TopV2.step rest { readLine 0 with rst := true }) ⟨_, _, rfl, rfl⟩ readLine

/-- The probe shows the cycles `33` to `46`. -/
theorem captured_eq_reads_readLine :
    log (captured readLineRun) 52 = (List.range 14).map fun j => BitVec.ofNat 16 (33 + j) := by
  rw [captured_eq_reads readLineRun (fun _ => rfl) (by decide +kernel)]
  decide +kernel

/-! ## Service times -/

end TopV2

namespace Hr

/-- Clocks until `HR_IDLE` with `rwds` high. -/
def clocks (m : Hr) : ℕ :=
  match m.state with
  | .idle | .setCa | .wrReg0 => 0
  | .rdReg0 => 22 - m.counter.toNat
  | .rdReg1 => 17 - m.counter.toNat
  | .memWr0 => 34 - m.counter.toNat
  | .memWr1 => 29 - m.counter.toNat
  | .memRd0 => 38 - m.counter.toNat
  | .memRd1 => 33 - m.counter.toNat

/-- The state machine spends the clock waiting for `rwds`. -/
def Stalls (m : Hr) (i : TopIn) : Prop :=
  m.state.IsCommand ∧ m.counter = 0 ∧ i.rwdsIn = false

instance (m : Hr) (i : TopIn) : Decidable (m.Stalls i) :=
  inferInstanceAs (Decidable (_ ∧ _ ∧ _))

variable {m : Hr} {stall : Bool} {ca : BitVec 48} {i : TopIn}

/-- The counters in range. -/
structure Counts (m : Hr) : Prop where
  state : m.state = .idle ∨ m.state.IsCommand ∨ m.state.IsRun
  command_le : m.state.IsCommand → m.counter.toNat ≤ 4
  run_pos : m.state.IsRun → 0 < m.clocks

theorem counts_idle (h : m.state = .idle) : m.Counts := by
  refine ⟨.inl h, ?_, ?_⟩ <;> simp [h, HrState.IsCommand, HrState.IsRun]

theorem Counts.command_cases (h : m.Counts) (hs : m.state.IsCommand)
    (shifted : Fin 19 → BitVec 16) (next : HrState) (i : TopIn) :
    (m.command shifted next i).state = m.state ∧ (m.command shifted next i).counter.toNat ≤ 4 ∨
      (m.command shifted next i).state = next ∧ (m.command shifted next i).counter = 0 := by
  have hle := h.command_le hs
  unfold command
  split_ifs with h4 hlt
  · exact .inr ⟨rfl, rfl⟩
  · exact .inl ⟨rfl, by simp only; bv_omega⟩
  · exact .inl ⟨rfl, by simp⟩
  · exact .inl ⟨rfl, hle⟩

/-- A clock of `RD_REG0`, `MEM_WR0` or `MEM_RD0`, `n` the clocks of what follows. -/
theorem Counts.command_clocks (h : m.Counts) (hs : m.state.IsCommand)
    (shifted : Fin 19 → BitVec 16) {next : HrState} {n : ℕ}
    (hm : ∀ m' : Hr, m'.state = m.state → m'.clocks = n + 5 - m'.counter.toNat)
    (hn : ∀ m' : Hr, m'.state = next → m'.clocks = n - m'.counter.toNat) :
    (m.command shifted next i).clocks + (if m.Stalls i then 0 else 1) = m.clocks := by
  have hle := h.command_le hs
  have hnow := hm m rfl
  by_cases h4 : m.counter = 4
  · have hgo : m.command shifted next i = { m with state := next, counter := 0, oe := false } := by
      simp [command, h4]
    have hlast := hn (m.command shifted next i) (by rw [hgo])
    rw [hlast, hnow, if_neg (fun hw => absurd (h4.symm.trans hw.2.1) (by decide)), hgo, h4]
    rfl
  by_cases hlt : 0 < m.counter ∧ m.counter < 4
  · have hgo : m.command shifted next i =
        { m with bufferOut := shifted, oe := true, clken := true, counter := m.counter + 1 } := by
      rw [command, if_neg h4, if_pos hlt]
    have hnext := hm (m.command shifted next i) (by rw [hgo])
    have hcount : (m.counter + 1).toNat = m.counter.toNat + 1 := by bv_omega
    rw [hnext, hnow, if_neg (fun hw => by simp [hw.2.1] at hlt), hgo]
    simp only [hcount]
    omega
  have h0 : m.counter = 0 := by bv_omega
  cases hw : i.rwdsIn
  case false =>
    have hstay : m.command shifted next i = m := by simp [command, h0, hw]
    rw [hstay, if_pos ⟨hs, h0, hw⟩, Nat.add_zero]
  case true =>
    have hgo : m.command shifted next i = { m with counter := 1, oe := true, clken := false } := by
      simp [command, h0, hw]
    have hnext := hm (m.command shifted next i) (by rw [hgo])
    rw [hnext, hnow, if_neg (fun hst => Bool.false_ne_true (hst.2.2.symm.trans hw)), hgo, h0]
    simp

/-- A clock of `RD_REG1`, `MEM_WR1` or `MEM_RD1`. -/
theorem Counts.run_clocks (h : m.Counts) (hs : m.state.IsRun) (hr : i.rst = false) :
    (m.step stall ca i).Counts ∧ (m.step stall ca i).clocks + 1 = m.clocks := by
  have hpos := h.run_pos hs
  have hcmd : ¬m.state.IsCommand := by rcases hs with hs | hs | hs <;> simp [hs, HrState.IsCommand]
  have hclock : (m.step stall ca i).state = .idle ∧ m.clocks = 1 ∨
      (m.step stall ca i).state = m.state ∧
        (m.step stall ca i).counter.toNat = m.counter.toNat + 1 ∧ 1 < m.clocks := by
    unfold Hr.step clocks at *
    rw [if_neg (by simp [hr])]
    rcases hs with hs | hs | hs <;> simp only [hs] at hpos ⊢
    · unfold rdReg1
      by_cases hc : m.counter = 16
      · simp [hc]
      · have hnext : (m.counter + 1).toNat = m.counter.toNat + 1 := by bv_omega
        rw [if_neg hc]
        refine .inr ?_
        split_ifs <;> exact ⟨hs, hnext, by bv_omega⟩
    · unfold memWr1
      by_cases hc : m.counter = 28
      · simp [hc]
      · have hnext : (m.counter + 1).toNat = m.counter.toNat + 1 := by bv_omega
        rw [if_neg hc]
        refine .inr ?_
        split_ifs <;> exact ⟨hs, hnext, by bv_omega⟩
    · unfold memRd1
      by_cases hc : m.counter = 32
      · simp [hc]
      · have hnext : (m.counter + 1).toNat = m.counter.toNat + 1 := by bv_omega
        simp only [if_neg hc]
        refine .inr ?_
        split_ifs <;> exact ⟨hs, hnext, by bv_omega⟩
  rcases hclock with ⟨hst, hone⟩ | ⟨hst, hcount, hmore⟩
  · have hzero : (m.step stall ca i).clocks = 0 := by simp only [clocks, hst]
    exact ⟨counts_idle hst, by rw [hzero, hone]⟩
  · have hnext : (m.step stall ca i).clocks + 1 = m.clocks := by
      unfold clocks at hmore ⊢
      rw [hst, hcount]
      rcases hs with hs | hs | hs <;> simp only [hs] at hmore ⊢ <;> omega
    exact ⟨⟨.inr (.inr (hst ▸ hs)), fun hc => absurd (hst ▸ hc) hcmd, fun _ => by omega⟩, hnext⟩

/-- A clock of one of the three command states. -/
theorem Counts.step_command (h : m.Counts) (hs : m.state.IsCommand) (hr : i.rst = false) :
    (m.step stall ca i).Counts ∧
      (m.step stall ca i).clocks + (if m.Stalls i then 0 else 1) = m.clocks := by
  have hcounts {m' : Hr} {next : HrState} (hnext : next.IsRun)
      (hcase : m'.state = m.state ∧ m'.counter.toNat ≤ 4 ∨ m'.state = next ∧ m'.counter = 0) :
      m'.Counts := by
    rcases hcase with ⟨hst, hc⟩ | ⟨hst, hc⟩
    · refine ⟨.inr (.inl (hst ▸ hs)), fun _ => hc, fun hrun => ?_⟩
      rw [hst] at hrun
      rcases hs with hs | hs | hs <;> simp [hs, HrState.IsRun] at hrun
    · refine ⟨.inr (.inr (hst ▸ hnext)), fun _ => by simp [hc], fun _ => ?_⟩
      rcases hnext with hn | hn | hn <;> simp [clocks, hst, hn, hc]
  have hcases := h.command_cases hs
  unfold Hr.step
  rw [if_neg (by simp [hr])]
  rcases id hs with hs' | hs' | hs' <;> simp only [hs']
  · refine ⟨hcounts (.inl rfl) (hcases (shiftCommand m.bufferOut) .rdReg1 i), ?_⟩
    exact h.command_clocks (n := 17) hs _ (fun m' hm' => by simp only [clocks, hm', hs'])
      fun m' hm' => by simp only [clocks, hm']
  · refine ⟨hcounts (.inr (.inl rfl)) (hcases (shiftIn m.bufferOut 0) .memWr1 i), ?_⟩
    exact h.command_clocks (n := 29) hs _ (fun m' hm' => by simp only [clocks, hm', hs'])
      fun m' hm' => by simp only [clocks, hm']
  · refine ⟨hcounts (.inr (.inr rfl)) (hcases (shiftCommand m.bufferOut) .memRd1 i), ?_⟩
    exact h.command_clocks (n := 33) hs _ (fun m' hm' => by simp only [clocks, hm', hs'])
      fun m' hm' => by simp only [clocks, hm']

theorem Counts.step (h : m.Counts) (hr : i.rst = false) : (m.step stall ca i).Counts := by
  rcases h.state with hs | hs | hs
  · rcases Hr.step_idle hs hr with ⟨hst, -⟩ | ⟨hst, -, hc, -⟩
    · exact counts_idle hst
    · refine ⟨.inr (.inl hst), fun _ => by rw [hc]; omega, fun hrun => ?_⟩
      rcases hst with hst | hst | hst <;> rw [hst] at hrun <;> simp [HrState.IsRun] at hrun
  · exact (h.step_command hs hr).1
  · exact (h.run_clocks hs hr).1

/-- Outside `HR_IDLE` each clock brings it nearer by one, if it is not spent waiting. -/
theorem Counts.clocks_step (h : m.Counts) (hs : m.state ≠ .idle) (hr : i.rst = false) :
    (m.step stall ca i).clocks + (if m.Stalls i then 0 else 1) = m.clocks := by
  rcases h.state with hs' | hs' | hs'
  · exact absurd hs' hs
  · exact (h.step_command hs' hr).2
  · have hno : ¬m.Stalls i := fun hst => by
      have hcmd := hst.1
      rcases hs' with hs' | hs' | hs' <;> rw [hs'] at hcmd <;> simp [HrState.IsCommand] at hcmd
    rw [if_neg hno]
    exact (h.run_clocks hs' hr).2

end Hr

namespace TopV2

/-- The clocks of the `n` from cycle `a` on that are spent waiting for `rwds`. -/
def stalls (r : Run Init TopV2.step) (a n : ℕ) : ℕ :=
  Nat.count (fun k => (r.state (a + k)).hr.Stalls (r.input (a + k))) n

/-- The memory raises `rwds` in every command phase. -/
def RwdsFair (r : Run Init TopV2.step) : Prop :=
  ∀ t, (r.state t).hr.state.IsCommand → (r.state t).hr.counter = 0 →
    ∃ n, (r.input (t + n)).rwdsIn = true

/-- From cycle `a` on the state machine is back in `HR_IDLE` after `n` cycles. -/
def BackAfter (r : Run Init TopV2.step) (a n : ℕ) : Prop :=
  FirstFrom (fun t => (r.state t).hr.state = .idle) a n

section back

variable {r : Run Init TopV2.step} (hr : ∀ t, (r.input t).rst = false)
include hr

theorem counts (t : ℕ) : (r.state t).hr.Counts := by
  induction t with
  | zero =>
    obtain ⟨s₀, i, hrst, hs⟩ := r.start
    exact Hr.counts_idle (by simp [hs, step, Hr.step, hrst])
  | succ t ih =>
    rw [r.clock]
    exact ih.step (hr t)

/-- Outside `HR_IDLE` the clocks that are left go down by one, except for those spent waiting. -/
theorem clocks_succ {t : ℕ} (hs : (r.state t).hr.state ≠ .idle) : (r.state (t + 1)).hr.clocks +
    (if (r.state t).hr.Stalls (r.input t) then 0 else 1) = (r.state t).hr.clocks := by
  rw [r.clock]
  exact (counts hr t).clocks_step hs (hr t)

/-- With a fair memory it comes back from every cycle. -/
theorem exists_backAfter (hf : RwdsFair r) (a : ℕ) : ∃ n, BackAfter r a n := by
  refine exists_firstFrom (exists_of_progress (f := fun t => (r.state t).hr.clocks)
    (P := fun _ => True) (Q := fun t => (r.state t).hr.state = .idle)
    (S := fun t => (r.state t).hr.Stalls (r.input t)) ?_ ?_ trivial)
  · intro t _ hbusy
    have hstep := clocks_succ hr hbusy
    refine ⟨trivial, by omega, fun hgo => ?_⟩
    rw [if_neg hgo] at hstep
    omega
  · intro t _
    by_cases hw : (r.state t).hr.state.IsCommand ∧ (r.state t).hr.counter = 0
    · obtain ⟨n, hn⟩ := hf t hw.1 hw.2
      exact ⟨n, fun hstall => Bool.false_ne_true (hstall.2.2.symm.trans hn)⟩
    · exact ⟨0, fun hstall => hw ⟨hstall.1, hstall.2.1⟩⟩

end back

end TopV2

end HyperRam
