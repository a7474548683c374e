import HyperRam.TopV2
import HyperRam.Clocked.Run
import HyperRam.Clocked.Events
import Mathlib.Tactic

/-!
# Recovery between transactions

`topv2` has to keep `csn` high for a while between two transactions. Its recovery process watches
`csn` through two registers, loads a counter when it sees it rise, and stalls requests while it
counts down.

`Rwr.Tracks` says what the recovery process holds when `csn` has been up for `n` cycles,
`Rwr.Settles` that it comes to rest while `csn` is low, nine clocks after any state
(`settles_nine`), which is long before a transaction is over (`step_run`). So the process is the
same function of `n` after each transaction and after reset : it stalls requests for `n` from 4 to
10. `Guarded` holds the two processes together, and a clock either lets `csn` be up for one cycle
more or finds it low (`Guarded.step`).

The flag comes too late for the first cycles. `csn` is seen to rise two clocks after it does, and
the stall goes up a clock behind the load of the counter, so requests in the first cycles find no
stall, and they are the ones whose recovery is cut short. `recovery_iff` is the exact statement, in
every cycle of every run in which the state machine leaves `HR_IDLE` : `csn` has been up for seven
cycles if and only if the process has seen it rise and has counted down. In `recovery_fails` it was
up for one.
-/

namespace HyperRam

open Clocked

/-! ## The recovery process -/

namespace Rwr

variable {m : Rwr} {csn : Bool} {i : TopIn} {n k l : ℕ}

theorem step_d0 (hr : i.rst = false) : (m.step csn i).prevCsnD0 = csn := by
  unfold step
  rw [if_neg (by simp [hr])]
  split_ifs <;> rfl

theorem step_d1 (hr : i.rst = false) : (m.step csn i).prevCsnD1 = m.prevCsnD0 := by
  unfold step
  rw [if_neg (by simp [hr])]
  split_ifs <;> rfl

/-- `csn` is seen to rise. -/
def Loads (m : Rwr) : Prop :=
  m.prevCsnD0 = true ∧ m.prevCsnD1 = false

/-- What a clock does to the counter and the stall flag : load, rest or count. -/
theorem step_guard (m : Rwr) (csn : Bool) (hr : i.rst = false) :
    (m.Loads ∧ (m.step csn i).rwrCounter.toNat = 7 ∧ (m.step csn i).rwrStall = m.rwrStall) ∨
    (¬m.Loads ∧ m.rwrCounter.toNat = 0 ∧ (m.step csn i).rwrCounter.toNat = 0 ∧
      (m.step csn i).rwrStall = false) ∨
    (¬m.Loads ∧ (m.step csn i).rwrCounter.toNat + 1 = m.rwrCounter.toNat ∧
      (m.step csn i).rwrStall = true) := by
  have hload : (!m.prevCsnD1 && m.prevCsnD0) = true ↔ m.Loads := by
    simp [Loads, and_comm]
  rw [← hload]
  unfold step
  rw [if_neg (by simp [hr])]
  split_ifs with hl h0
  · exact .inl ⟨hl, rfl, rfl⟩
  · exact .inr (.inl ⟨hl, by simp [h0], by simp [h0], rfl⟩)
  · exact .inr (.inr ⟨hl, by simp only; bv_omega, rfl⟩)

/-- The registers when `csn` has been up for `n` cycles. -/
structure Tracks (m : Rwr) (n : ℕ) : Prop where
  d0 : m.prevCsnD0 = true ↔ 2 ≤ n
  d1 : m.prevCsnD1 = true ↔ 3 ≤ n
  counter : m.rwrCounter.toNat = if 3 ≤ n then 10 - n else 0
  stall : m.rwrStall = true ↔ 4 ≤ n ∧ n ≤ 10

theorem tracks_reset (hr : i.rst = true) : (m.step csn i).Tracks 0 := by
  unfold step
  rw [if_pos hr]
  constructor <;> simp

theorem Tracks.loads_iff (h : m.Tracks n) : m.Loads ↔ n = 2 := by
  rw [Loads, ← Bool.not_eq_true, h.d0, h.d1]
  omega

theorem Tracks.step (h : m.Tracks n) (hr : i.rst = false) :
    (m.step (decide (0 < n)) i).Tracks (n + 1) := by
  have hc := h.counter
  have hs := h.stall
  have hd0 : (m.step (decide (0 < n)) i).prevCsnD0 = true ↔ 2 ≤ n + 1 := by
    rw [step_d0 hr, decide_eq_true_iff]
    omega
  have hd1 : (m.step (decide (0 < n)) i).prevCsnD1 = true ↔ 3 ≤ n + 1 := by
    rw [step_d1 hr, h.d0]
    omega
  rcases m.step_guard (decide (0 < n)) hr with ⟨hl, hc', hs'⟩ | ⟨hl, h0, hc', hs'⟩ | ⟨hl, hc', hs'⟩
    <;> rw [h.loads_iff] at hl
  · subst hl
    exact ⟨hd0, hd1, hc', by rw [hs', hs]; omega⟩
  · rw [h0] at hc
    refine ⟨hd0, hd1, ?_, by rw [hs']; split_ifs at hc <;> simp <;> omega⟩
    rw [hc']
    split_ifs at hc ⊢ <;> omega
  · have h3 : 3 ≤ n ∧ n < 10 := by split_ifs at hc <;> omega
    refine ⟨hd0, hd1, ?_, by rw [hs']; simp; omega⟩
    rw [if_pos h3.1] at hc
    rw [if_pos (by omega)]
    omega

/-- With `csn` low the process is at rest after `k` clocks at most. -/
structure Settles (m : Rwr) (k : ℕ) : Prop where
  load : m.Loads → 9 ≤ k
  d0 : m.prevCsnD0 = true → 2 ≤ k
  d1 : m.prevCsnD1 = true → 1 ≤ k
  counter : m.rwrCounter.toNat ≠ 0 → m.rwrCounter.toNat < k
  stall : m.rwrStall = true → 1 ≤ k

/-- Nine clocks are enough from any state. -/
theorem settles_nine (m : Rwr) : m.Settles 9 where
  load _ := le_rfl
  d0 _ := by omega
  d1 _ := by omega
  counter _ := by omega
  stall _ := by omega

theorem Settles.mono (h : m.Settles k) (hkl : k ≤ l) : m.Settles l where
  load hl := (h.load hl).trans hkl
  d0 h0 := (h.d0 h0).trans hkl
  d1 h1 := (h.d1 h1).trans hkl
  counter hc := (h.counter hc).trans_le hkl
  stall hs := (h.stall hs).trans hkl

theorem Settles.step (h : m.Settles k) (hr : i.rst = false) :
    (m.step false i).Settles (k - 1) := by
  have hload := h.load
  have hc := h.counter
  have hd0 : (m.step false i).prevCsnD0 = false := step_d0 hr
  have hd1 : (m.step false i).prevCsnD1 = true → 1 ≤ k - 1 := fun h1 => by
    have := h.d0 (by rwa [step_d1 hr] at h1)
    omega
  rcases m.step_guard false hr with ⟨hl, hc', hs'⟩ | ⟨hl, h0, hc', hs'⟩ | ⟨hl, hc', hs'⟩
  · have := hload hl
    exact ⟨by simp [Loads, hd0], by simp [hd0], hd1, by omega, by omega⟩
  · exact ⟨by simp [Loads, hd0], by simp [hd0], hd1, by omega, by simp [hs']⟩
  · exact ⟨by simp [Loads, hd0], by simp [hd0], hd1, by omega, by omega⟩

/-- At rest it is as if `csn` had never been up. -/
theorem Settles.tracks (h : m.Settles 0) : m.Tracks 0 := by
  have hd0 : ¬m.prevCsnD0 = true := fun h0 => by have := h.d0 h0; omega
  have hd1 : ¬m.prevCsnD1 = true := fun h1 => by have := h.d1 h1; omega
  have hs : ¬m.rwrStall = true := fun hs => by have := h.stall hs; omega
  have hc := h.counter
  exact ⟨by simpa using hd0, by simpa using hd1, by simp; omega, by simpa using hs⟩

end Rwr

/-! ## The state machine -/

/-- `RD_REG0`, `MEM_WR0` and `MEM_RD0`, the states a request leads to. -/
def HrState.IsCommand (s : HrState) : Prop :=
  s = .rdReg0 ∨ s = .memWr0 ∨ s = .memRd0

/-- `RD_REG1`, `MEM_WR1` and `MEM_RD1`. -/
def HrState.IsRun (s : HrState) : Prop :=
  s = .rdReg1 ∨ s = .memWr1 ∨ s = .memRd1

instance : DecidablePred HrState.IsCommand :=
  fun s => inferInstanceAs (Decidable (s = .rdReg0 ∨ s = .memWr0 ∨ s = .memRd0))

instance : DecidablePred HrState.IsRun :=
  fun s => inferInstanceAs (Decidable (s = .rdReg1 ∨ s = .memWr1 ∨ s = .memRd1))

namespace Hr

variable {m : Hr} {stall : Bool} {ca : BitVec 48} {i : TopIn}

/-- A clock inside a state : `csn` stays and the counter goes up by one at most. -/
def Keeps (m m' : Hr) : Prop :=
  m'.csn = m.csn ∧ m'.counter.toNat ≤ m.counter.toNat + 1

theorem idle_cases (m : Hr) (stall : Bool) (ca : BitVec 48) (i : TopIn) :
    (m.idle stall ca i).state = m.state ∧ (m.idle stall ca i).csn = true ∨
    (m.idle stall ca i).state.IsCommand ∧ (m.idle stall ca i).csn = false ∧
      (m.idle stall ca i).counter.toNat = 0 ∧ stall = false := by
  unfold idle
  by_cases hst : stall = true
  · exact .inl (by simp [hst])
  · simp only [Bool.not_eq_true] at hst
    split_ifs
    all_goals first
      | exact .inr ⟨by simp [start, HrState.IsCommand], rfl, rfl, hst⟩
      | exact .inl ⟨rfl, rfl⟩

theorem command_cases {next : HrState} (hs : m.state.IsCommand) (hn : next.IsRun)
    (shifted : Fin 19 → BitVec 16) (i : TopIn) :
    (m.command shifted next i).state.IsCommand ∧ m.Keeps (m.command shifted next i) ∨
    (m.command shifted next i).state.IsRun ∧ (m.command shifted next i).csn = m.csn ∧
      m.counter.toNat = 4 ∧ (m.command shifted next i).counter.toNat = 0 := by
  unfold command
  split_ifs with h4 hlt hrw
  · exact .inr ⟨hn, rfl, by simp [h4], rfl⟩
  · exact .inl ⟨hs, rfl, by simp only; bv_omega⟩
  · exact .inl ⟨hs, rfl, by simp⟩
  · exact .inl ⟨hs, rfl, by omega⟩

theorem rdReg1_cases (m : Hr) (i : TopIn) :
    (m.rdReg1 i).state = m.state ∧ m.Keeps (m.rdReg1 i) ∨
    (m.rdReg1 i).state = .idle ∧ (m.rdReg1 i).csn = true ∧ m.counter.toNat = 16 := by
  unfold rdReg1
  split_ifs with hend hwin
  · exact .inr ⟨rfl, rfl, by simp [hend]⟩
  · exact .inl ⟨rfl, rfl, by simp only; bv_omega⟩
  · exact .inl ⟨rfl, rfl, by simp only; bv_omega⟩

theorem memWr1_cases (m : Hr) :
    m.memWr1.state = m.state ∧ m.Keeps m.memWr1 ∨
    m.memWr1.state = .idle ∧ m.memWr1.csn = true ∧ m.counter.toNat = 28 := by
  unfold memWr1
  split_ifs with hend hwin
  · exact .inr ⟨rfl, rfl, by simp [hend]⟩
  · exact .inl ⟨rfl, rfl, by simp only; bv_omega⟩
  · exact .inl ⟨rfl, rfl, by simp only; bv_omega⟩

theorem memRd1_cases (m : Hr) (i : TopIn) :
    (m.memRd1 i).state = m.state ∧ m.Keeps (m.memRd1 i) ∨
    (m.memRd1 i).state = .idle ∧ (m.memRd1 i).csn = true ∧ m.counter.toNat = 32 := by
  unfold memRd1
  simp only
  split_ifs with hend hwin
  · exact .inr ⟨rfl, rfl, by simp [hend]⟩
  · exact .inl ⟨rfl, rfl, by simp only; bv_omega⟩
  · exact .inl ⟨rfl, rfl, by simp only; bv_omega⟩

/-- From `HR_IDLE` : it stays and `csn` goes up, or a request that is not stalled starts. -/
theorem step_idle (hs : m.state = .idle) (hr : i.rst = false) :
    (m.step stall ca i).state = .idle ∧ (m.step stall ca i).csn = true ∨
    (m.step stall ca i).state.IsCommand ∧ (m.step stall ca i).csn = false ∧
      (m.step stall ca i).counter.toNat = 0 ∧ stall = false := by
  have h := m.idle_cases stall ca i
  rw [hs] at h
  unfold step
  rw [if_neg (by simp [hr])]
  simp only [hs]
  exact h

/-- While the command is sent. -/
theorem step_command (hs : m.state.IsCommand) (hr : i.rst = false) :
    (m.step stall ca i).state.IsCommand ∧ m.Keeps (m.step stall ca i) ∨
    (m.step stall ca i).state.IsRun ∧ (m.step stall ca i).csn = m.csn ∧
      m.counter.toNat = 4 ∧ (m.step stall ca i).counter.toNat = 0 := by
  unfold step
  rw [if_neg (by simp [hr])]
  rcases id hs with h1 | h1 | h1 <;> simp only [h1]
  · exact command_cases hs (.inl rfl) _ i
  · exact command_cases hs (.inr (.inl rfl)) _ i
  · exact command_cases hs (.inr (.inr rfl)) _ i

/-- While the latency and the data are counted, for 16 clocks at least. -/
theorem step_run (hs : m.state.IsRun) (hr : i.rst = false) :
    (m.step stall ca i).state.IsRun ∧ m.Keeps (m.step stall ca i) ∨
    (m.step stall ca i).state = .idle ∧ (m.step stall ca i).csn = true ∧
      16 ≤ m.counter.toNat := by
  unfold step
  rw [if_neg (by simp [hr])]
  rcases id hs with h1 | h1 | h1 <;> simp only [h1]
  · rcases m.rdReg1_cases i with ⟨hst, hk⟩ | ⟨hst, hc, hn⟩
    · exact .inl ⟨hst ▸ hs, hk⟩
    · exact .inr ⟨hst, hc, by omega⟩
  · rcases m.memWr1_cases with ⟨hst, hk⟩ | ⟨hst, hc, hn⟩
    · exact .inl ⟨hst ▸ hs, hk⟩
    · exact .inr ⟨hst, hc, by omega⟩
  · rcases m.memRd1_cases i with ⟨hst, hk⟩ | ⟨hst, hc, hn⟩
    · exact .inl ⟨hst ▸ hs, hk⟩
    · exact .inr ⟨hst, hc, by omega⟩

end Hr

/-! ## Both -/

namespace TopV2

variable {s : TopV2} {i : TopIn} {n : ℕ}

/-- What holds when `csn` has been up for `n` cycles. The recovery process is at rest before a
transaction is over. -/
inductive Guarded (s : TopV2) : ℕ → Prop
  | idle {n : ℕ} (hs : s.hr.state = .idle) (hc : s.hr.csn = decide (0 < n))
      (h : s.rwr.Tracks n) : Guarded s n
  | command (hs : s.hr.state.IsCommand) (hc : s.hr.csn = false)
      (h : s.rwr.Settles (9 - s.hr.counter.toNat)) : Guarded s 0
  | run (hs : s.hr.state.IsRun) (hc : s.hr.csn = false)
      (h : s.rwr.Settles (4 - s.hr.counter.toNat)) : Guarded s 0

theorem step_rwr : (s.step i).rwr = s.rwr.step s.hr.csn i :=
  rfl

theorem step_hr : (s.step i).hr = s.hr.step s.rwr.rwrStall (s.rwr.caSigr slot0) i :=
  rfl

theorem guarded_reset (hr : i.rst = true) : Guarded (s.step i) 0 :=
  .idle (by simp [step, Hr.step, hr]) (by simp [step, Hr.step, hr]) (Rwr.tracks_reset hr)

/-- A clock without reset : `csn` has been up for one more cycle, or is low. -/
theorem Guarded.step (h : Guarded s n) (hr : i.rst = false) :
    (s.step i).hr.csn = true ∧ Guarded (s.step i) (n + 1) ∨
    (s.step i).hr.csn = false ∧ Guarded (s.step i) 0 := by
  cases h with
  | idle hs hc h =>
    rcases Hr.step_idle hs hr with ⟨hs', hc'⟩ | ⟨hs', hc', hn', -⟩
    · have ht := h.step hr
      rw [← hc] at ht
      exact .inl ⟨hc', .idle hs' (hc'.trans (by simp)) ht⟩
    · refine .inr ⟨hc', .command hs' hc' ?_⟩
      rw [step_hr, hn']
      exact Rwr.settles_nine _
  | command hs hc h =>
    have hset := h.step hr
    rw [← hc, ← step_rwr] at hset
    rcases Hr.step_command hs hr with ⟨hs', hc', hn'⟩ | ⟨hs', hc', hn, hn'⟩
    · rw [hc] at hc'
      exact .inr ⟨hc', .command hs' hc' (hset.mono (by rw [step_hr]; omega))⟩
    · rw [hc] at hc'
      exact .inr ⟨hc', .run hs' hc' (hset.mono (by rw [step_hr]; omega))⟩
  | run hs hc h =>
    rcases Hr.step_run hs hr with ⟨hs', hc', hn'⟩ | ⟨hs', hc', hn⟩
    · have hset := h.step hr
      rw [← hc, ← step_rwr] at hset
      rw [hc] at hc'
      exact .inr ⟨hc', .run hs' hc' (hset.mono (by rw [step_hr]; omega))⟩
    · have ht := (h.mono (show 4 - s.hr.counter.toNat ≤ 0 by omega)).tracks.step hr
      rw [show decide (0 < 0) = s.hr.csn by simp [hc], ← step_rwr] at ht
      exact .inl ⟨hc', .idle hs' (hc'.trans (by simp)) ht⟩

/-- In `HR_IDLE` the recovery process tracks `csn`. -/
theorem Guarded.tracks (h : Guarded s n) (hs : s.hr.state = .idle) : s.rwr.Tracks n := by
  cases h with
  | idle _ _ h => exact h
  | command hs' => exact absurd (hs ▸ hs') (by decide)
  | run hs' => exact absurd (hs ▸ hs') (by decide)

/-! ## Runs -/

variable (r : Run Init step)

/-- `csn` of a run. -/
def csn (t : ℕ) : Bool :=
  (r.state t).hr.csn

/-- The state machine leaves `HR_IDLE` for a request on the clock after cycle `t`. -/
def Leaves (t : ℕ) : Prop :=
  (r.state t).hr.state = .idle ∧ (r.state (t + 1)).hr.state.IsCommand

theorem guarded : ∀ t, Guarded (r.state t) (upFor (csn r) t)
  | 0 => by
    obtain ⟨s₀, i, hr, hs⟩ := r.start
    have hcsn : csn r 0 = false := by simp [csn, hs, step, Hr.step, hr]
    rw [upFor, hcsn, hs]
    exact guarded_reset hr
  | t + 1 => by
    have ih := guarded t
    have hcsn : csn r (t + 1) = ((r.state t).step (r.input t)).hr.csn := by
      rw [csn, r.clock]
    rw [upFor, hcsn, r.clock]
    cases hr : (r.input t).rst with
    | true =>
      have hlow : ((r.state t).step (r.input t)).hr.csn = false := by simp [step, Hr.step, hr]
      rw [hlow]
      exact guarded_reset hr
    | false =>
      rcases ih.step hr with ⟨hc, hg⟩ | ⟨hc, hg⟩ <;> rw [hc]
      · exact hg
      · exact hg

/-- Whenever the state machine leaves `HR_IDLE`, `csn` has been up for seven cycles exactly if the
recovery process has seen it rise and counted down. -/
theorem recovery_iff {t : ℕ} (h : Leaves r t) :
    (∀ k, k < 7 → k ≤ t ∧ csn r (t - k) = true) ↔
      (r.state t).rwr.prevCsnD1 = true ∧ (r.state t).rwr.rwrCounter = 0 := by
  have hr : (r.input t).rst = false := Bool.eq_false_iff.2 fun hr => by
    have hs := h.2
    rw [r.clock] at hs
    simp [step, Hr.step, hr, HrState.IsCommand] at hs
  have hstall : (r.state t).rwr.rwrStall = false := by
    have hs := h.2
    rw [r.clock] at hs
    rcases Hr.step_idle h.1 hr with ⟨hidle, -⟩ | ⟨-, -, -, hst⟩
    · rw [step_hr, hidle] at hs
      exact absurd hs (by decide)
    · exact hst
  have ht := (guarded r t).tracks h.1
  have hs := ht.stall
  have hc := ht.counter
  rw [← le_upFor_iff, ht.d1, ← BitVec.toNat_inj, hc]
  rw [hstall] at hs
  constructor
  · intro h7
    have h11 : ¬upFor (csn r) t ≤ 10 := fun hle => absurd (hs.2 ⟨by omega, hle⟩) (by simp)
    exact ⟨by omega, by rw [if_pos (by omega)]; simp; omega⟩
  · rintro ⟨h3, h0⟩
    rw [if_pos h3] at h0
    simp at h0
    omega

/-! ## Two requests in one run -/

/-- Requests from the probes : a register read in cycle 12, a memory read in cycle `t`. -/
def requests (t : ℕ) : ℕ → TopIn := fun u =>
  { rst := false, regr := decide (u = 12), regw := false, memr := decide (u = t), memw := false,
    caSig := 0, regdata := 0, latency := 0, rwdsIn := true, dataout := 0 }

/-- Registers at rest. -/
def rest : TopV2 where
  rwr :=
    { prevCsnD0 := false, prevCsnD1 := false, rwrCounter := 0, rwrStall := false, regdatar := 0,
      caSigr := fun _ => 0, latencyr := 0 }
  hr :=
    { state := .idle, csn := false, regrDone := false, oe := false, clken := false, counter := 0,
      prevRegw := false, prevRegr := false, prevMemw := false, prevMemr := false,
      rwdsOut := false, rwdsOe := false, dataoutReg := fun _ => 0, capturedData := 0,
      datavalid := false, bufferOut := fun _ => 0 }

/-- The run of `requests t` from a reset. -/
def requestRun (t : ℕ) : Run Init step :=
  Run.ofInputs (s := step rest { requests t 0 with rst := true }) ⟨_, _, rfl, rfl⟩ (requests t)

theorem leaves_first : Leaves (requestRun 35) 12 :=
  ⟨by decide +kernel, by decide +kernel⟩

/-- The first request comes late enough. -/
theorem recovery_iff_first :
    Leaves (requestRun 35) 12 ∧ ∀ k, k < 7 → k ≤ 12 ∧ csn (requestRun 35) (12 - k) = true :=
  ⟨leaves_first, (recovery_iff _ leaves_first).2 ⟨by decide +kernel, by decide +kernel⟩⟩

/-- The second comes in the cycle in which `csn` is back up : it is low in cycle 34 and again
in cycle 36. -/
theorem recovery_fails :
    ¬∀ (r : Run Init step) (t : ℕ), Leaves r t → ∀ k, k < 7 → k ≤ t ∧ csn r (t - k) = true := by
  intro h
  have hlow := (h (requestRun 35) 35 ⟨by decide +kernel, by decide +kernel⟩ 1 (by omega)).2
  exact absurd hlow (by decide +kernel)

end TopV2

end HyperRam
