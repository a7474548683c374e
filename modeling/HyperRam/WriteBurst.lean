import HyperRam.StmInvariants
import HyperRam.Recovery
import HyperRam.Clocked.Events
import HyperRam.Clocked.Run

/-!
# The write burst

`topv2` and `wrmem_stm` write a line the same way : wait for `rwds`, shift the three command
words out, count the latency and shift the data out, until the counter stands at `last`. `Burst`
is that much of both machines, with the shift register as a queue of words. A word is clocked
out by a clock after which the output and the clock are enabled.

A burst clocks out what it was entered with up to the word `3 + (last - 13)`, in order, however
long `rwds` takes (`Burst.sends`). What was clocked out and what is to go begin with the words it
was entered with (`prefix_sent`), one word is clocked out for each clock that shifts
(`length_sent`), and the number of clocks that shift is fixed by `last`.

Each machine refines a burst as long as there is no reset (`TopV2.refines`, `WrmemStm.refines`),
with 28 for `last` in `topv2` and 29 in `wrmem_stm`, and each is entered with the command and the
halfwords of its source, however it came there. So `wrmem_stm` clocks the three command words and
the sixteen halfwords out, and `topv2` keeps the last halfword. For one set of words the two
never agree, whatever their waits (`writeBurst_agree_never`).
-/

namespace HyperRam

open Clocked

/-! ## The burst -/

/-- Until it has `ended` for the first time, a machine clocks out `ws` : the word of the cycle
before for each cycle in which the output and the clock are enabled. -/
def ClocksOut (ended oe clk : ℕ → Bool) (word : ℕ → BitVec 16) (ws : List (BitVec 16)) : Prop :=
  ∃ u, FirstUp ended u ∧ log (fun x => if oe (x + 1) && clk (x + 1) then [word x] else []) u = ws

theorem ClocksOut.unique {ended oe clk : ℕ → Bool} {word : ℕ → BitVec 16}
    {ws ws' : List (BitVec 16)} (h : ClocksOut ended oe clk word ws)
    (h' : ClocksOut ended oe clk word ws') : ws = ws' := by
  obtain ⟨u, hu, rfl⟩ := h
  obtain ⟨u', hu', rfl⟩ := h'
  rw [hu.unique hu']

/-- The phases of a burst : the command, the data, and past the end. -/
inductive BurstPhase
  | command
  | data
  | ended
  deriving DecidableEq, Repr

/-- A burst : its phase, its counter, the words to go, the output and the clock enable. -/
structure Burst where
  phase : BurstPhase
  counter : ℕ
  queue : List (BitVec 16)
  oe : Bool
  clk : Bool

namespace Burst

/-- A burst as it is entered with the words `ws`. -/
def entry (ws : List (BitVec 16)) : Burst :=
  { phase := .command, counter := 0, queue := ws, oe := false, clk := false }

variable (last : ℕ) (b : Burst)

/-- The first word goes out and a zero comes in. -/
def shift : Burst :=
  { b with counter := b.counter + 1, queue := b.queue.tail ++ [0], oe := true, clk := true }

/-- One clock of a burst that ends at `last`. -/
def step (rwds : Bool) : Burst :=
  match b.phase with
  | .command =>
    if b.counter = 4 then { b with phase := .data, counter := 0, oe := false }
    else if 0 < b.counter ∧ b.counter < 4 then b.shift
    else if rwds then { b with counter := 1, oe := true, clk := false }
    else b
  | .data =>
    if b.counter = last then { b with phase := .ended, counter := 0, oe := false, clk := false }
    else if 12 < b.counter then b.shift
    else { b with counter := b.counter + 1 }
  | .ended => b

/-- Past the end. -/
def ended : Bool :=
  b.phase = .ended

/-- The word that goes out next. -/
def word : BitVec 16 :=
  b.queue.headD 0

/-- Both enables are up : a word was clocked out. -/
def clocked : Bool :=
  b.oe && b.clk

/-- The words clocked out before cycle `t`. -/
def sent (f : ℕ → Burst) (t : ℕ) : List (BitVec 16) :=
  log (fun x => if (f (x + 1)).clocked then [(f x).word] else []) t

/-- The burst clocks out `ws` until it ends. -/
def Sends (f : ℕ → Burst) (ws : List (BitVec 16)) : Prop :=
  ClocksOut (fun t => (f t).ended) (fun t => (f t).oe) (fun t => (f t).clk)
    (fun t => (f t).word) ws

/-- What holds of a burst in every cycle. -/
structure InRange : Prop where
  command_le : b.phase = .command → b.counter ≤ 4
  data_le : b.phase = .data → b.counter ≤ last
  oe : b.oe = true → b.phase = .command ∧ 0 < b.counter ∨ b.phase = .data ∧ 13 < b.counter
  length : b.queue.length = 19

/-- The clocks that have shifted. -/
def shifts : ℕ :=
  match b.phase with
  | .command => b.counter - 1
  | .data => 3 + (b.counter - 13)
  | .ended => 3 + (last - 13)

/-- The clocks that are left, the wait for `rwds` apart. -/
def left : ℕ :=
  match b.phase with
  | .command => (5 - b.counter) + (last + 1)
  | .data => last + 1 - b.counter
  | .ended => 0

/-- Waiting for `rwds`. -/
def Waits : Prop :=
  b.phase = .command ∧ b.counter = 0

variable {last b}

/-- A clock shifts a word out, or leaves the words alone and clocks none out. -/
inductive StepCase (last : ℕ) (b b' : Burst) : Prop
  | shift (clocked : b'.clocked = true) (queue : b'.queue = b.queue.tail ++ [0])
      (shifts : b'.shifts last = b.shifts last + 1)
  | keep (clocked : b'.clocked = false) (queue : b'.queue = b.queue)
      (shifts : b'.shifts last = b.shifts last)

theorem InRange.oe_eq (h : b.InRange last)
    (hn : ¬(b.phase = .command ∧ 0 < b.counter ∨ b.phase = .data ∧ 13 < b.counter)) :
    b.oe = false :=
  Bool.eq_false_iff.2 fun hup => hn (h.oe hup)

theorem InRange.step_cases (h : b.InRange last) (hl : 13 ≤ last) (rwds : Bool) :
    StepCase last b (b.step last rwds) := by
  obtain ⟨phase, counter, queue, oe, clk⟩ := b
  cases phase <;> simp only [step]
  case command =>
    have h4 : counter ≤ 4 := h.command_le rfl
    split_ifs with hc hc' hr
    · exact .keep rfl rfl (by simp [shifts]; omega)
    · exact .shift rfl rfl (by simp [shifts, Burst.shift]; omega)
    · exact .keep rfl rfl (by simp [shifts]; omega)
    · have hlow : oe = false := h.oe_eq (by simp; omega)
      exact .keep (by simp [clocked, hlow]) rfl rfl
  case data =>
    have hlast : counter ≤ last := h.data_le rfl
    split_ifs with hc hc'
    · exact .keep rfl rfl (by simp [shifts]; omega)
    · exact .shift rfl rfl (by simp [shifts, Burst.shift]; omega)
    · have hlow : oe = false := h.oe_eq (by simp; omega)
      exact .keep (by simp [clocked, hlow]) rfl (by simp [shifts]; omega)
  case ended =>
    have hlow : oe = false := h.oe_eq (by simp)
    exact .keep (by simp [clocked, hlow]) rfl rfl

theorem InRange.step (h : b.InRange last) (hl : 13 ≤ last) (rwds : Bool) :
    (b.step last rwds).InRange last := by
  obtain ⟨phase, counter, queue, oe, clk⟩ := b
  obtain ⟨h4, hlast, hoe, hlen⟩ := h
  cases phase <;> simp only [Burst.step]
  case command =>
    have h4 : counter ≤ 4 := h4 rfl
    split_ifs with hc hc' hr
    · exact ⟨by simp, by simp, by simp, hlen⟩
    · exact ⟨fun _ => by simp only [shift]; omega, by simp [shift],
        fun _ => .inl ⟨rfl, by simp [shift]⟩, by simp [shift, hlen]⟩
    · exact ⟨by simp, by simp, by simp, hlen⟩
    · exact ⟨fun _ => h4, by simp, hoe, hlen⟩
  case data =>
    have hlast : counter ≤ last := hlast rfl
    split_ifs with hc hc'
    · exact ⟨by simp, by simp, by simp, hlen⟩
    · exact ⟨by simp [shift], fun _ => by simp only [shift]; omega,
        fun _ => .inr ⟨rfl, by simp only [shift]; omega⟩, by simp [shift, hlen]⟩
    · refine ⟨by simp, fun _ => by simp only; omega, fun hup => ?_, hlen⟩
      have := hoe hup
      simp at this
      omega
  case ended => exact ⟨h4, hlast, hoe, hlen⟩

theorem inRange_entry {ws : List (BitVec 16)} (hw : ws.length = 19) : (entry ws).InRange last :=
  ⟨by simp [entry], by simp [entry], by simp [entry], hw⟩

theorem InRange.word_cons (h : b.InRange last) : b.word :: b.queue.tail = b.queue := by
  have hlen := h.length
  cases hq : b.queue with
  | nil => simp [hq] at hlen
  | cons w q => simp [word, hq]

theorem InRange.shifts_le (h : b.InRange last) (hl : 13 ≤ last) :
    b.shifts last ≤ 3 + (last - 13) := by
  unfold shifts
  split
  · have := h.command_le ‹_›
    omega
  · have := h.data_le ‹_›
    omega
  · exact le_rfl

theorem shifts_of_ended (h : b.ended = true) : b.shifts last = 3 + (last - 13) := by
  simp [shifts, of_decide_eq_true h]

/-- Once `rwds` is up in a cycle the burst has stopped waiting, and does not wait again. -/
theorem InRange.not_waits (h : b.InRange last) {rwds : Bool} (hw : rwds = true ∨ ¬b.Waits) :
    ¬(b.step last rwds).Waits := by
  rintro ⟨hs, hc⟩
  have h4 := h.command_le
  unfold Burst.step at hs hc
  unfold Waits at hw
  split at hs <;> split_ifs at hs hc <;> simp_all [shift]

/-- A burst that does not wait comes closer to its end. -/
theorem InRange.left_step (h : b.InRange last) {rwds : Bool} (hw : ¬b.Waits)
    (he : b.ended = false) : (b.step last rwds).left last < b.left last := by
  obtain ⟨phase, counter, queue, oe, clk⟩ := b
  obtain ⟨h4, hlast, -, -⟩ := h
  cases phase <;> simp only [Burst.step]
  case command =>
    have h4 : counter ≤ 4 := h4 rfl
    have h0 : counter ≠ 0 := fun h0 => hw ⟨rfl, h0⟩
    rcases Nat.lt_or_ge counter 4 with hlt | hge
    · rw [if_neg (by omega), if_pos (by omega)]
      simp only [left, shift]
      omega
    · rw [if_pos (by omega)]
      simp only [left]
      omega
  case data =>
    have hlast : counter ≤ last := hlast rfl
    split_ifs with hc hc' <;> simp only [left, shift] <;> omega
  case ended => simp [ended] at he

/-! ### Runs of a burst -/

section run

variable (last) in
/-- The burst that is entered with `ws`, under the levels `i` of `rwds`. -/
def run (ws : List (BitVec 16)) (i : ℕ → Bool) : ℕ → Burst :=
  trace (step last) (entry ws) i

theorem run_succ (ws : List (BitVec 16)) (i : ℕ → Bool) (t : ℕ) :
    run last ws i (t + 1) = (run last ws i t).step last (i t) :=
  rfl

variable {ws : List (BitVec 16)} (hw : ws.length = 19) (hl : 13 ≤ last) (i : ℕ → Bool)
include hw hl

theorem inRange : ∀ t, (run last ws i t).InRange last
  | 0 => inRange_entry hw
  | t + 1 => (inRange t).step hl (i t)

/-- One word is clocked out for each clock that shifts. -/
theorem length_sent : ∀ t, (sent (run last ws i) t).length = (run last ws i t).shifts last
  | 0 => rfl
  | t + 1 => by
    have h := inRange hw hl i t
    rw [sent, log_succ, List.length_append, ← sent, length_sent t, run_succ]
    rcases h.step_cases hl (i t) with ⟨hc, -, hs⟩ | ⟨hc, -, hs⟩ <;> simp [hc, hs]

/-- What was clocked out and what is to go begin with the words the burst was entered with. -/
theorem prefix_sent : ∀ t, ws <+: sent (run last ws i) t ++ (run last ws i t).queue
  | 0 => List.prefix_rfl
  | t + 1 => by
    have ih := prefix_sent t
    rw [sent, log_succ, ← sent, run_succ]
    rcases (inRange hw hl i t).step_cases hl (i t) with ⟨hc, hq, -⟩ | ⟨hc, hq, -⟩
    · have hsplit : [(run last ws i t).word] ++ ((run last ws i t).queue.tail ++ [0]) =
          (run last ws i t).queue ++ [0] := by
        rw [← List.append_assoc, List.singleton_append, (inRange hw hl i t).word_cons]
      rw [hc, hq, if_pos rfl, List.append_assoc, hsplit, ← List.append_assoc]
      exact ih.trans (List.prefix_append _ _)
    · simpa [hc, hq] using ih

/-- The words go out in order. -/
theorem sent_eq (hl' : last ≤ 29) (t : ℕ) :
    sent (run last ws i) t = ws.take ((run last ws i t).shifts last) := by
  have hle := (inRange hw hl i t).shifts_le hl
  have hlen := length_sent hw hl i t
  have hpre : sent (run last ws i) t <+: ws :=
    List.prefix_of_prefix_length_le (List.prefix_append _ _) (prefix_sent hw hl i t) (by omega)
  rw [← hlen]
  exact List.prefix_iff_eq_take.1 hpre

/-- A burst for which `rwds` goes up comes to its end. -/
theorem exists_ended (hr : ∃ k, i k = true) : ∃ t, (run last ws i t).ended = true := by
  obtain ⟨k, hk⟩ := hr
  have hmove : ∀ t, ¬(run last ws i (k + 1 + t)).Waits := fun t => by
    induction t with
    | zero => exact (inRange hw hl i k).not_waits (.inl hk)
    | succ t ih => exact (inRange hw hl i (k + 1 + t)).not_waits (.inr ih)
  obtain ⟨t, ht⟩ := exists_of_falls (f := fun t => (run last ws i (k + 1 + t)).left last)
    (Q := fun t => (run last ws i (k + 1 + t)).ended = true) fun t he =>
      (inRange hw hl i (k + 1 + t)).left_step (hmove t) (Bool.eq_false_iff.2 he)
  exact ⟨k + 1 + t, ht⟩

/-- A burst clocks out the words up to `3 + (last - 13)`. -/
theorem sends (hl' : last ≤ 29) (hr : ∃ k, i k = true) :
    Sends (run last ws i) (ws.take (3 + (last - 13))) := by
  obtain ⟨u, hu⟩ := exists_firstUp (f := fun t => (run last ws i t).ended)
    (exists_ended hw hl i hr)
  have hsent := sent_eq hw hl i hl' u
  rw [shifts_of_ended hu.1] at hsent
  exact ⟨u, hu, hsent⟩

end run

end Burst

/-! ## Refinement -/

/-- Until its end, a clock of a machine without reset is a clock of the burst it is in. -/
def RefinesBurst {σ ι : Type*} (step : σ → ι → σ) (rst rwds : ι → Bool) (burst : σ → Burst)
    (last : ℕ) : Prop :=
  ∀ m i, rst i = false → (burst m).InRange last → (burst m).ended = false →
    burst (step m i) = (burst m).step last (rwds i)

/-- A machine that is entered as a burst clocks out what the burst does. -/
theorem RefinesBurst.sends {σ ι : Type*} {step : σ → ι → σ} {rst rwds : ι → Bool}
    {burst : σ → Burst} {last : ℕ} (h : RefinesBurst step rst rwds burst last) (hl : 13 ≤ last)
    (hl' : last ≤ 29) {m : σ} {i : ℕ → ι} {ws : List (BitVec 16)} (hw : ws.length = 19)
    (hm : burst m = Burst.entry ws)
    (hrst : ∀ t, (burst (trace step m i t)).ended = false → rst (i t) = false)
    (hrwds : ∃ t, rwds (i t) = true) :
    Burst.Sends (fun t => burst (trace step m i t)) (ws.take (3 + (last - 13))) := by
  obtain ⟨u, hu, hsent⟩ := Burst.sends hw hl (fun t => rwds (i t)) hl' hrwds
  have heq : ∀ t, t ≤ u → burst (trace step m i t) = Burst.run last ws (fun t => rwds (i t)) t := by
    refine trace_rel (R := fun m b => burst m = b) hm fun t ht hR => ?_
    have he : (burst (trace step m i t)).ended = false :=
      (congrArg Burst.ended hR).trans (hu.2 t ht)
    have hrange : (burst (trace step m i t)).InRange last := by
      rw [hR]
      exact Burst.inRange hw hl _ t
    rw [trace_succ, trace_succ, h _ _ (hrst t he) hrange he, hR]
  refine ⟨u, ⟨(congrArg Burst.ended (heq u le_rfl)).trans hu.1, fun t ht => ?_⟩, ?_⟩
  · exact (congrArg Burst.ended (heq t ht.le)).trans (hu.2 t ht)
  · rw [← hsent]
    refine log_congr fun x hx => ?_
    simp only [heq x hx.le, heq (x + 1) hx]

/-! ## `topv2` -/

/-- The phases of the write burst in the state machine of `topv2`. -/
def HrState.burstPhase : HrState → BurstPhase
  | .memWr0 => .command
  | .memWr1 => .data
  | _ => .ended

namespace Hr

/-- The write burst that the state machine is in. -/
def burst (m : Hr) : Burst where
  phase := m.state.burstPhase
  counter := m.counter.toNat
  queue := List.ofFn m.bufferOut
  oe := m.oe
  clk := m.clken

variable {m : Hr} {stall : Bool} {ca : BitVec 48} {i : TopIn}

theorem burst_memWr0 (h : m.burst.InRange 28) (hs : m.state = .memWr0) :
    (m.memWr0 i).burst = m.burst.step 28 i.rwdsIn := by
  have h4 : m.counter.toNat ≤ 4 := h.command_le (by simp [burst, hs, HrState.burstPhase])
  have hend : m.counter = 4 ↔ m.counter.toNat = 4 := by bv_omega
  have hshift : 0 < m.counter ∧ m.counter < 4 ↔ 0 < m.counter.toNat ∧ m.counter.toNat < 4 := by
    bv_omega
  have hnext : (m.counter + 1).toNat = m.counter.toNat + 1 := by bv_omega
  simp only [memWr0, command, hend, hshift, Burst.step, burst, hs, HrState.burstPhase]
  split_ifs
  · rfl
  · simp only [Burst.shift, ofFn_shiftIn, hnext]
  · rfl
  · simp only [hs]

theorem burst_memWr1 (h : m.burst.InRange 28) (hs : m.state = .memWr1) :
    m.memWr1.burst = m.burst.step 28 i.rwdsIn := by
  have h28 : m.counter.toNat ≤ 28 := h.data_le (by simp [burst, hs, HrState.burstPhase])
  have hend : m.counter = 28 ↔ m.counter.toNat = 28 := by bv_omega
  simp only [memWr1, hend, Burst.step, burst, hs, HrState.burstPhase]
  by_cases hc : m.counter.toNat = 28
  · rw [if_pos hc, if_pos hc]
    rfl
  · have hshift : 12 < m.counter ∧ m.counter < 28 ↔ 12 < m.counter.toNat := by bv_omega
    have hnext : (m.counter + 1).toNat = m.counter.toNat + 1 := by bv_omega
    rw [if_neg hc, if_neg hc]
    simp only [hshift]
    split_ifs
    · simp only [Burst.shift, ofFn_shiftIn, hnext]
    · simp only [hnext]

theorem burst_step (hr : i.rst = false) (h : m.burst.InRange 28) (he : m.burst.ended = false) :
    (m.step stall ca i).burst = m.burst.step 28 i.rwdsIn := by
  cases hs : m.state <;> simp [burst, Burst.ended, HrState.burstPhase, hs] at he
  case memWr0 =>
    rw [← burst_memWr0 h hs]
    simp [step, hr, hs, burst]
  case memWr1 =>
    rw [← burst_memWr1 h hs]
    simp [step, hr, hs, burst]

/-- Out of `MEM_WR0` and `MEM_WR1`. -/
def written (m : Hr) : Bool :=
  m.state ≠ .memWr0 ∧ m.state ≠ .memWr1

theorem ended_burst (m : Hr) : m.burst.ended = m.written := by
  cases hs : m.state <;> simp [burst, Burst.ended, HrState.burstPhase, written, hs]

theorem word_burst (m : Hr) : m.burst.word = m.bufferOut wordOut := by
  simp [burst, Burst.word, List.ofFn_succ]

/-- `MEM_WR0` as it is entered. -/
structure Entered (m : Hr) : Prop where
  state : m.state = .memWr0
  counter : m.counter = 0
  oe : m.oe = false
  clken : m.clken = false

theorem Entered.burst_eq (h : m.Entered) : m.burst = Burst.entry (List.ofFn m.bufferOut) := by
  simp [burst, Burst.entry, h.state, h.counter, h.oe, h.clken, HrState.burstPhase]

theorem entered_idle (hs : m.state = .idle) (h : (m.idle stall ca i).state = .memWr0) :
    (m.idle stall ca i).Entered ∧
      (m.idle stall ca i).bufferOut = loadBurst (loadCommand m.bufferOut ca) := by
  unfold idle at h ⊢
  cases hmr : (i.memr && !m.prevMemr) && !stall
  · cases hmw : (i.memw && !m.prevMemw) && !stall
    · cases hrr : (i.regr && !m.prevRegr) && !stall <;> simp [hmr, hmw, hrr, hs, start] at h
    · cases (i.regr && !m.prevRegr) && !stall <;> exact ⟨⟨rfl, rfl, rfl, rfl⟩, rfl⟩
  · simp [hmr, start] at h

/-- However `MEM_WR0` is entered, it is with the command and the halfwords of the source. -/
theorem entered (hs : m.state ≠ .memWr0) (h : (m.step stall ca i).state = .memWr0) :
    (m.step stall ca i).Entered ∧
      (m.step stall ca i).bufferOut = loadBurst (loadCommand m.bufferOut ca) := by
  cases hr : i.rst with
  | true => simp [step, hr] at h
  | false =>
    cases hst : m.state <;>
      simp [step, hr, hst, rdReg0, rdReg1, memWr1, memRd0, memRd1, command] at h hs
    case idle =>
      obtain ⟨he, hb⟩ := entered_idle hst h
      simp only [step, hr, hst, Bool.false_eq_true, if_false]
      exact ⟨⟨he.state, he.counter, he.oe, he.clken⟩, hb⟩
    all_goals split_ifs at h <;> simp_all

end Hr

namespace TopV2

theorem entered {s : TopV2} {i : TopIn} (hs : s.hr.state ≠ .memWr0)
    (h : (s.step i).hr.state = .memWr0) :
    (s.step i).hr.Entered ∧
      (s.step i).hr.bufferOut = loadBurst (loadCommand s.hr.bufferOut (s.rwr.caSigr slot0)) :=
  Hr.entered hs h

/-- From `s` on, under the inputs `i`, the states `MEM_WR0` and `MEM_WR1` clock out `ws`. -/
def ClocksOut (s : TopV2) (i : ℕ → TopIn) (ws : List (BitVec 16)) : Prop :=
  HyperRam.ClocksOut (fun t => (trace step s i t).hr.written) (fun t => (trace step s i t).hr.oe)
    (fun t => (trace step s i t).hr.clken) (fun t => (trace step s i t).hr.bufferOut wordOut) ws

theorem refines : RefinesBurst step TopIn.rst TopIn.rwdsIn (fun s => s.hr.burst) 28 :=
  fun _ _ hr h he => Hr.burst_step hr h he

/-- `topv2` clocks out three command words and fifteen halfwords. -/
theorem clocksOut {s : TopV2} {i : ℕ → TopIn} (hs : s.hr.Entered)
    (hrst : ∀ t, (trace step s i t).hr.written = false → (i t).rst = false)
    (hrwds : ∃ t, (i t).rwdsIn = true) : s.ClocksOut i ((List.ofFn s.hr.bufferOut).take 18) := by
  have hsends := refines.sends (by omega) (by omega) (by simp) hs.burst_eq
    (fun t ht => hrst t ((Hr.ended_burst _).symm.trans ht)) hrwds
  simp only [Burst.Sends, Hr.ended_burst, Hr.word_burst] at hsends
  exact hsends

end TopV2

/-! ## `wrmem_stm` -/

/-- The phases of the write burst in `wrmem_stm`. -/
def FsmState.burstPhase : FsmState → BurstPhase
  | .ca => .command
  | .run => .data
  | _ => .ended

namespace WrmemStm

/-- The write burst that `wrmem_stm` is in. -/
def burst (m : WrmemStm) : Burst where
  phase := m.state.burstPhase
  counter := m.counter.toNat
  queue := List.ofFn m.bufferOut
  oe := m.oe
  clk := m.oeClk

variable {m : WrmemStm} {i : WriteIn}

theorem burst_ca (hr : i.rst = false) (h : m.burst.InRange 29) (hs : m.state = .ca) :
    (m.step i).burst = m.burst.step 29 i.rwdsIn := by
  have h4 : m.counter.toNat ≤ 4 := h.command_le (by simp [burst, hs, FsmState.burstPhase])
  have hend : m.counter = 4 ↔ m.counter.toNat = 4 := by bv_omega
  have hshift : 0 < m.counter ∧ m.counter < 4 ↔ 0 < m.counter.toNat ∧ m.counter.toNat < 4 := by
    bv_omega
  have hnext : (m.counter + 1).toNat = m.counter.toNat + 1 := by bv_omega
  simp only [step, hr, hs, hend, hshift, Burst.step, burst, FsmState.burstPhase,
    Bool.false_eq_true, if_false]
  split_ifs
  · rfl
  · simp only [Burst.shift, ofFn_shiftIn, hnext]
  · rfl
  · simp only [hs]

theorem burst_run (hr : i.rst = false) (h : m.burst.InRange 29) (hs : m.state = .run) :
    (m.step i).burst = m.burst.step 29 i.rwdsIn := by
  have h29 : m.counter.toNat ≤ 29 := h.data_le (by simp [burst, hs, FsmState.burstPhase])
  have hend : m.counter = 29 ↔ m.counter.toNat = 29 := by bv_omega
  have hshift : 12 < m.counter ↔ 12 < m.counter.toNat := by bv_omega
  have hnext : (m.counter + 1).toNat = m.counter.toNat + 1 := by bv_omega
  simp only [step, hr, hs, hend, hshift, Burst.step, burst, FsmState.burstPhase,
    Bool.false_eq_true, if_false]
  split_ifs
  · rfl
  · simp only [Burst.shift, ofFn_shiftIn, hnext]
  · simp only [hnext]

theorem burst_step (hr : i.rst = false) (h : m.burst.InRange 29) (he : m.burst.ended = false) :
    (m.step i).burst = m.burst.step 29 i.rwdsIn := by
  cases hs : m.state <;> simp [burst, Burst.ended, FsmState.burstPhase, hs] at he
  case ca => exact burst_ca hr h hs
  case run => exact burst_run hr h hs

/-- Out of `STATE_CA` and `STATE_RUN`. -/
def written (m : WrmemStm) : Bool :=
  m.state ≠ .ca ∧ m.state ≠ .run

theorem ended_burst (m : WrmemStm) : m.burst.ended = m.written := by
  cases hs : m.state <;> simp [burst, Burst.ended, FsmState.burstPhase, written, hs]

theorem word_burst (m : WrmemStm) : m.burst.word = m.datain := by
  simp [burst, Burst.word, List.ofFn_succ, datain]

/-- `STATE_CA` as it is entered. -/
structure Entered (m : WrmemStm) : Prop where
  state : m.state = .ca
  counter : m.counter = 0
  oe : m.oe = false
  oeClk : m.oeClk = false

theorem Entered.burst_eq (h : m.Entered) : m.burst = Burst.entry (List.ofFn m.bufferOut) := by
  simp [burst, Burst.entry, h.state, h.counter, h.oe, h.oeClk, FsmState.burstPhase]

/-- However `STATE_CA` is entered, it is with what `STATE_IDLE` loads. -/
theorem Inv.entered (hi : m.Inv) (hs : m.state ≠ .ca) (h : (m.step i).state = .ca) :
    (m.step i).Entered ∧ (m.step i).bufferOut = m.load i := by
  have hoe := (hi.step i).oe
  have hclk := (hi.step i).oeClk
  cases hr : i.rst with
  | true => simp [WrmemStm.step, hr] at h
  | false =>
    cases hst : m.state with
    | idle =>
      have hca : (m.step i).counter = 0 ∧ (m.step i).bufferOut = m.load i := by
        simp [WrmemStm.step, hr, hst]
      refine ⟨⟨h, hca.1, ?_, ?_⟩, hca.2⟩
      · exact Bool.eq_false_iff.2 fun hup => by simpa [h, hca.1] using hoe.1 hup
      · exact Bool.eq_false_iff.2 fun hup => by simpa [h, hca.1] using hclk.1 hup
    | ca => exact absurd hst hs
    | run =>
      simp only [WrmemStm.step, hr, hst, Bool.false_eq_true, if_false] at h
      split_ifs at h
    | done => simp [WrmemStm.step, hr, hst] at h

/-- From `m` on, under the inputs `i`, the states `STATE_CA` and `STATE_RUN` clock out `ws`. -/
def ClocksOut (m : WrmemStm) (i : ℕ → WriteIn) (ws : List (BitVec 16)) : Prop :=
  HyperRam.ClocksOut (fun t => (trace step m i t).written) (fun t => (trace step m i t).oe)
    (fun t => (trace step m i t).oeClk) (fun t => (trace step m i t).datain) ws

theorem refines : RefinesBurst step WriteIn.rst WriteIn.rwdsIn burst 29 :=
  fun _ _ hr h he => burst_step hr h he

/-- `wrmem_stm` clocks out three command words and sixteen halfwords. -/
theorem clocksOut {m : WrmemStm} {i : ℕ → WriteIn} (hm : m.Entered)
    (hrst : ∀ t, (trace step m i t).written = false → (i t).rst = false)
    (hrwds : ∃ t, (i t).rwdsIn = true) : m.ClocksOut i (List.ofFn m.bufferOut) := by
  have hsends := refines.sends (by omega) (by omega) (by simp) hm.burst_eq
    (fun t ht => hrst t ((ended_burst _).symm.trans ht)) hrwds
  simp only [Burst.Sends, ended_burst, word_burst] at hsends
  rw [List.take_of_length_le (by simp)] at hsends
  exact hsends

end WrmemStm

/-! ## The two bursts -/

/-- The two machines enter their bursts with the same words, are not reset in them, and each has
its own wait for `rwds`. -/
structure SameWords (s : TopV2) (i : ℕ → TopIn) (m : WrmemStm) (j : ℕ → WriteIn) : Prop where
  topv2 : s.hr.Entered
  wrmem : m.Entered
  words : s.hr.bufferOut = m.bufferOut
  topv2_rst : ∀ t, (trace TopV2.step s i t).hr.written = false → (i t).rst = false
  wrmem_rst : ∀ t, (trace WrmemStm.step m j t).written = false → (j t).rst = false
  topv2_rwds : ∃ t, (i t).rwdsIn = true
  wrmem_rwds : ∃ t, (j t).rwdsIn = true

/-- `wrmem_stm` clocks out the command and the sixteen halfwords, `topv2` all but the last one,
so the two never clock out the same words. -/
theorem writeBurst_agree_never {s : TopV2} {i : ℕ → TopIn} {m : WrmemStm} {j : ℕ → WriteIn}
    (h : SameWords s i m j) :
    s.ClocksOut i ((List.ofFn s.hr.bufferOut).take 18) ∧
      m.ClocksOut j (List.ofFn s.hr.bufferOut) ∧
      ∀ ws, ¬(s.ClocksOut i ws ∧ m.ClocksOut j ws) := by
  have htop := TopV2.clocksOut h.topv2 h.topv2_rst h.topv2_rwds
  have hstm := WrmemStm.clocksOut h.wrmem h.wrmem_rst h.wrmem_rwds
  rw [← h.words] at hstm
  refine ⟨htop, hstm, fun ws hws => ?_⟩
  have hlen := congrArg List.length ((htop.unique hws.1).trans (hws.2.unique hstm))
  simp at hlen

/-! ### A request after a reset -/

/-- Inputs of `topv2` with a memory write request or without, `rwds` up. -/
def TopV2.writeIn (rst memw : Bool) : TopIn where
  rst := rst
  regr := false
  regw := false
  memr := false
  memw := memw
  caSig := 0
  regdata := 0
  latency := 0
  rwdsIn := true
  dataout := 0

/-- `topv2` after a reset and a memory write request. -/
def TopV2.requested : TopV2 :=
  (rest.step (writeIn true false)).step (writeIn false true)

/-- Inputs of `wrmem_stm` with the halfwords of `topv2`, `rwds` up. -/
def WrmemStm.writeIn (rst stmStart : Bool) : WriteIn where
  rst := rst
  stmStart := stmStart
  rwdsIn := true
  databuffer := 0xabcd1234a515bab1deadfa11737388118181ababbabac1c1dedadadaf3d19092
  valid := true
  casig := 0

/-- `wrmem_stm` after a reset and a start. -/
def WrmemStm.requested : WrmemStm :=
  let rest : WrmemStm :=
    { stmEnd := false, oe := false, oeClk := false, csn := true, rwdsOut := false,
      rwdsOe := false, counter := 0, state := .idle, bufferOut := fun _ => 0 }
  (rest.step (writeIn true false)).step (writeIn false true)

theorem sameWords_requested :
    SameWords TopV2.requested (fun _ => TopV2.writeIn false false) WrmemStm.requested
      (fun _ => WrmemStm.writeIn false false) where
  topv2 :=
    (TopV2.entered (s := TopV2.rest.step (TopV2.writeIn true false)) (by decide) (by decide)).1
  wrmem := (WrmemStm.Inv.entered (WrmemStm.inv_reset rfl) (by decide) (by decide)).1
  words := by decide +kernel
  topv2_rst _ _ := rfl
  wrmem_rst _ _ := rfl
  topv2_rwds := ⟨0, rfl⟩
  wrmem_rwds := ⟨0, rfl⟩

theorem writeBurst_agree_never_requested :
    TopV2.requested.ClocksOut (fun _ => TopV2.writeIn false false)
        ((List.ofFn TopV2.requested.hr.bufferOut).take 18) ∧
      WrmemStm.requested.ClocksOut (fun _ => WrmemStm.writeIn false false)
        (List.ofFn TopV2.requested.hr.bufferOut) ∧
      ∀ ws, ¬(TopV2.requested.ClocksOut (fun _ => TopV2.writeIn false false) ws ∧
        WrmemStm.requested.ClocksOut (fun _ => WrmemStm.writeIn false false) ws) :=
  writeBurst_agree_never sameWords_requested

/-- `topv2` does not clock out the halfword `0x9092`. -/
theorem writeBurst_agree_fails :
    ¬∀ (s : TopV2) (i : ℕ → TopIn) (m : WrmemStm) (j : ℕ → WriteIn), SameWords s i m j →
      s.ClocksOut i (List.ofFn s.hr.bufferOut) ∧ m.ClocksOut j (List.ofFn s.hr.bufferOut) := by
  intro h
  have hsame := sameWords_requested
  have hall := (h _ _ _ _ hsame).1
  have htop := TopV2.clocksOut hsame.topv2 hsame.topv2_rst hsame.topv2_rwds
  have hlen := congrArg List.length (htop.unique hall)
  simp at hlen

end HyperRam
