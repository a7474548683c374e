import HyperRam.Latches

/-!
# The words on the bus

The pads clock a word into the device in every cycle in which `oe_data` and `oe_clk` are up, the
`datain` of the cycle before (`Run.clocked`).

`Sender` is a machine that sends a command, by its stages and the words in it. `Command` follows the
command through it, so the words it has clocked out before the command is sent are told by its stage
(`Stage.sentWords`), and what it clocks out behind the command is up to the machine
(`Sender.words_eq`). Each of the three machines is one from the clock on which it leaves
`STATE_IDLE` until it is done (`AtWork.sender`).

A read machine clocks out nothing else (`AtWork.words_read`), `wrmem_stm` the halfwords of its
line behind the command, under `rwds_oe`. For these the way of the line value is followed : a line
write has a `WRMEM1` some clocks before it (`exists_writtenAt`), the value is loaded before the
machine starts (`WrittenAt.loaded`), and each clock of the data takes the next halfword out
(`WrittenAt.halfwordsOut_succ`). `ip_serial` says so for every transaction of a run of the packaged
IP without a further reset, with the mask both ways.
-/

namespace HyperRam

open Clocked

namespace Stage

/-- The command words that are clocked out before a cycle in this stage. -/
def sentWords (st : Stage) (D : BitVec 48) : List (BitVec 16) :=
  match st with
  | rest | wait | word0 | word1 | word2 => []
  | tail => [caWords D slot0]
  | turn => [caWords D slot0, caWords D slot1]
  | sent | done => [caWords D slot0, caWords D slot1, caWords D slot2]

/-- Before the command is sent, less than three words are out. -/
theorem length_sentWords {st : Stage} (hs : st ≠ sent) (hd : st ≠ done) (D : BitVec 48) :
    (st.sentWords D).length < 3 := by
  cases st <;> simp [sentWords] at hs hd ⊢

theorem Next.of_sent {st st' : Stage} {words words' : Fin 3 → BitVec 16}
    (h : st.Next st' words words') (hs : st' = .sent ∨ st' = .done) : st = .turn ∨ st = .sent := by
  rcases hs with rfl | rfl <;> cases st <;> simp [Next] at h ⊢

theorem run_of_stage {state : FsmState} {counter : ℕ}
    (h : of state counter = turn ∨ of state counter = sent) : state = .run := by
  cases state
  case run => rfl
  case ca =>
    simp only [of] at h
    split at h <;> simp at h
  all_goals simp [of] at h

end Stage

/-- Until the command is sent, a clock sends the word that the stage says. -/
theorem Command.clocked_step {w : ℕ} {st st' : Stage} {D : BitVec 48}
    {words words' : Fin 3 → BitVec 16} {p : Pads w} {d : Device} (h : Command st D words p d)
    (hn : st.Next st' words words') (hr : st ≠ .rest) (hs : st ≠ .sent) (hd : st ≠ .done) :
    st.sentWords D ++ (if p.oeData && p.oeClk then [d.last] else []) = st'.sentWords D := by
  cases st
  case rest => exact absurd rfl hr
  case wait =>
    obtain ⟨-, -, hoe⟩ := h
    obtain ⟨rfl | rfl, -⟩ := hn <;> simp [hoe, Stage.sentWords]
  case word0 =>
    obtain ⟨-, -, hoe⟩ := h
    obtain ⟨rfl, -⟩ := hn
    simp [hoe, Stage.sentWords]
  case word1 =>
    obtain ⟨-, -, -, -, hk, -⟩ := h
    obtain ⟨rfl, -⟩ := hn
    simp [hk, Stage.sentWords]
  case word2 =>
    obtain ⟨-, -, hl, -, hoe, hk, -⟩ := h
    obtain rfl := hn
    simp [hoe, hk, hl, Stage.sentWords]
  case tail =>
    obtain ⟨-, -, hl, -, hoe, hk, -⟩ := h
    obtain rfl := hn
    simp [hoe, hk, hl, Stage.sentWords]
  case turn =>
    obtain ⟨-, -, -, hl, -, hoe, hk⟩ := h
    obtain rfl := hn
    simp [hoe, hk, hl, Stage.sentWords]
  case sent => exact absurd rfl hs
  case done => exact absurd rfl hd

namespace Ctrl

namespace Run

/-! ## Clocked words -/

section clocked

variable {v : Variant} (r : Ctrl.Run v)

/-- A word is clocked into the device in cycle `x`. -/
def Clocks (x : ℕ) : Prop :=
  (r.state x).pads.oeData = true ∧ (r.state x).pads.oeClk = true

instance (x : ℕ) : Decidable (Run.Clocks r x) :=
  inferInstanceAs (Decidable (_ ∧ _))

/-- The word clocked into the device in cycle `x`. -/
def clocked (x : ℕ) : List (BitVec 16) :=
  if Run.Clocks r x then [(r.state (x - 1)).pads.datain] else []

/-- The words clocked in the `n` cycles from `a` on. -/
def words (a n : ℕ) : List (BitVec 16) :=
  log (fun k => Run.clocked r (a + k)) n

/-- The device sees the word of the cycle before. -/
theorem clocked_succ (x : ℕ) (d : Device) : Run.clocked r (x + 1) =
    if (r.state (x + 1)).pads.oeData && (r.state (x + 1)).pads.oeClk then
      [(Run.device r d (x + 1)).last] else [] := by
  rw [Run.device, Device.step_last, clocked, Nat.add_sub_cancel]
  by_cases hc : Run.Clocks r (x + 1)
  · rw [if_pos hc, if_pos ((Bool.and_eq_true _ _).mpr hc)]
  · rw [if_neg hc, if_neg fun hand => hc ((Bool.and_eq_true _ _).mp hand)]

end clocked

/-! ## A machine that sends -/

/-- A machine, by its stages and the words in it, that leaves its rest on the clock of cycle `t`
with the command `D` and is at work until cycle `u`. -/
structure Sender {v : Variant} (r : Ctrl.Run v) (D : BitVec 48) (t u : ℕ) (st : ℕ → Stage)
    (words : ℕ → Fin 3 → BitVec 16) : Prop where
  rest : st t = .rest
  active : ∀ x, t < x → x ≤ u → st x ≠ .rest
  next : ∀ x, t ≤ x → x < u → (st x).Next (st (x + 1)) (words x) (words (x + 1))
  drives : ∀ x, t ≤ x → x < u → (st x).Drives (words x) (r.state (x + 1)).pads
  load : words (t + 1) = caWords D

namespace Sender

variable {v : Variant} {r : Ctrl.Run v} {D : BitVec 48} {t u : ℕ} {st : ℕ → Stage}
  {words : ℕ → Fin 3 → BitVec 16} (h : Run.Sender r D t u st words)
include h

/-- Its command is under way. -/
theorem command (d : Device) : ∀ {x}, t ≤ x → x ≤ u →
    Command (st x) D (words x) (r.state x).pads (Run.device r d x)
  | x, htx, hxu => by
    induction x, htx using Nat.le_induction with
    | base =>
      rw [h.rest]
      trivial
    | succ x htx ih =>
      refine (ih (by omega)).step (h.next x htx (by omega)) (h.drives x htx (by omega)) ?_
      intro hrest _
      have hxt : ¬t < x := fun hlt => h.active x hlt (by omega) hrest
      obtain rfl : x = t := by omega
      exact h.load

theorem not_done {x : ℕ} (hx : t < x) (hxu : x < u) : st x ≠ .done := fun hd => by
  have hnext := h.next x hx.le hxu
  rw [hd] at hnext
  exact h.active (x + 1) (by omega) (by omega) hnext

/-- What it has clocked out : the command words of its stage, and the words `E` behind them. -/
theorem words_eq {E : ℕ → List (BitVec 16)}
    (hnil : ∀ x, t ≤ x → x < u → st x ≠ .sent → E (x + 1) = [])
    (hE : ∀ x, t < x → x < u → st x = .sent → E (x + 1) = E x ++ Run.clocked r x) :
    ∀ {n}, t + 1 + n ≤ u →
      Run.words r (t + 1) n = (st (t + 1 + n)).sentWords D ++ E (t + 1 + n)
  | 0, hn => by
    have hnext := h.next t le_rfl (by omega)
    rw [h.rest] at hnext
    have hwait : st (t + 1) = .wait := hnext.resolve_left (h.active (t + 1) (by omega) hn)
    simp [Run.words, hwait, Stage.sentWords, hnil t le_rfl (by omega) (by simp [h.rest])]
  | n + 1, hn => by
    obtain ⟨x, hx⟩ : ∃ x, t + 1 + n = x + 1 := ⟨t + n, by omega⟩
    have hnext := h.next (x + 1) (by omega) (by omega)
    have hcommand := h.command Device.zero (x := x + 1) (by omega) (by omega)
    rw [Run.words, log_succ, ← Run.words, words_eq hnil hE (by omega), hx,
      show t + 1 + (n + 1) = x + 1 + 1 by omega]
    by_cases hs : st (x + 1) = .sent
    · have hsent : (st (x + 1 + 1)).sentWords D = (st (x + 1)).sentWords D := by
        rw [hs] at hnext ⊢
        rcases hnext with hst | hst
        · rw [hst]
        · rw [hst]
          rfl
      rw [hsent, hE (x + 1) (by omega) (by omega) hs, List.append_assoc]
    · have hd := h.not_done (x := x + 1) (by omega) (by omega)
      have hprev : st x ≠ .sent := fun hsx => by
        have hnow := h.next x (by omega) (by omega)
        rw [hsx] at hnow
        exact hnow.elim hs hd
      rw [hnil x (by omega) (by omega) hprev, hnil (x + 1) (by omega) (by omega) hs,
        List.append_nil, List.append_nil, clocked_succ r x Device.zero]
      exact hcommand.clocked_step hnext (h.active (x + 1) (by omega) (by omega)) hs hd

/-- The words of a completed transaction. -/
theorem words_done {E : ℕ → List (BitVec 16)} (htu : t < u) (hd : st u = .done)
    (hnil : ∀ x, t ≤ x → x < u → st x ≠ .sent → E (x + 1) = [])
    (hE : ∀ x, t < x → x < u → st x = .sent → E (x + 1) = E x ++ Run.clocked r x) :
    Run.words r (t + 1) (u - t) =
      [caWords D slot0, caWords D slot1, caWords D slot2] ++ (E u ++ Run.clocked r u) := by
  obtain ⟨n, hn⟩ : ∃ n, u - t = n + 1 := ⟨u - t - 1, by omega⟩
  have hu : t + 1 + n = u := by omega
  rw [hn, Run.words, log_succ, ← Run.words, h.words_eq hnil hE hu.le, hu, hd, List.append_assoc]
  rfl

end Sender

end Run

end Ctrl

namespace Ctrl

/-! ## The machines as senders -/

namespace Run

/-- A machine, by its states, leaves `STATE_IDLE` on the clock of cycle `t` and is at work until
cycle `u`. -/
structure AtWork (f : ℕ → FsmState) (t u : ℕ) : Prop where
  lt : t < u
  idle : f t = .idle
  busy : ∀ x, t < x → x ≤ u → f x ≠ .idle

section sender

variable {r : Ctrl.Run packaged} {t u : ℕ} {k : Transaction}
  (h : Run.AtWork (fun x => ((r.state x).bus k).state) t u)
include h

/-- A machine at work was started. -/
theorem AtWork.start : (r.state t).core.start k = true :=
  start_of_leaves k ⟨h.idle, h.busy (t + 1) (by omega) h.lt⟩

variable (hr : ∀ t, (r.input t).rst = false)
include hr

/-- A machine at work sends its command. -/
theorem AtWork.sender : Run.Sender r (r.state t).core.caSigr t u
    (fun x => ((r.state x).bus k).stage) fun x => ((r.state x).bus k).words where
  rest := Stage.of_rest_iff.2 h.idle
  active x htx hxu hrest := h.busy x htx hxu (Stage.of_rest_iff.1 hrest)
  next x _ _ := by
    rw [r.clock]
    exact (r.inv x).stage_next k (hr x)
  drives x htx hxu := by
    rw [r.clock]
    refine (r.inv x).drives k (hr x) ?_
    rcases Nat.lt_or_ge t x with hlt | hge
    · exact ((r.inv x).active k (h.busy x hlt hxu.le)).2
    · obtain rfl : t = x := by omega
      exact h.start
  load := by
    rw [r.clock]
    exact (((r.inv t).next (hr t) k).idle h.idle).2.2.2

/-! ## Read transactions -/

variable (hk : k ≠ .wrmem)
include hk

/-- Behind its command a read machine clocks out nothing. -/
theorem AtWork.clocked_read {x : ℕ} (hx : t < x) (hxu : x ≤ u)
    (hs : ((r.state x).bus k).stage = .sent ∨ ((r.state x).bus k).stage = .done) :
    Run.clocked r x = [] := by
  obtain ⟨y, rfl⟩ : ∃ y, x = y + 1 := ⟨x - 1, by omega⟩
  have hrun := Stage.run_of_stage (((h.sender hr).next y (by omega) (by omega)).of_sent hs)
  have hread : (r.state y).rdreg.state = .run ∨ (r.state y).rdmem.state = .run := by
    cases k
    case rdreg => exact .inl hrun
    case rdmem => exact .inr hrun
    case wrmem => exact absurd rfl hk
  have hoff := (r.inv y).oeData_of_read_run (i := r.input y) (hr y) hread
  rw [← step_pads, ← r.clock] at hoff
  exact if_neg fun hc => Bool.false_ne_true (hoff.symm.trans hc.1)

/-- A read transaction clocks out its command. -/
theorem AtWork.words_read (hd : ((r.state u).bus k).state = .done) :
    Run.words r (t + 1) (u - t) = [caWords (r.state t).core.caSigr slot0,
      caWords (r.state t).core.caSigr slot1, caWords (r.state t).core.caSigr slot2] := by
  have hstage : ((r.state u).bus k).stage = .done := Stage.of_done_iff.2 hd
  have hwords := (h.sender hr).words_done (E := fun _ => []) h.lt hstage (fun _ _ _ _ => rfl)
    fun x hx hxu hs => by
      rw [h.clocked_read hr hk hx hxu.le (.inl hs)]
      rfl
  rw [hwords, h.clocked_read hr hk h.lt le_rfl (.inr hstage)]
  rfl

end sender

end Run

/-! ## Write transactions -/

/-- In `STATE_RUN` `wrmem_stm` has the clock up, and the data pads with `rwds_oe`. -/
theorem Inv.padsStep_wrmem_run {v : Variant} {s : Ctrl v.width} {i : Inputs v.width} (h : s.Inv)
    (hr : i.rst = false) (hs : s.wrmem.state = .run) :
    (s.padsStep v i).oeClk = true ∧ (s.padsStep v i).oeData = (s.padsStep v i).rwdsOe := by
  have hst := (h.active .wrmem (by simp [hs])).2
  obtain ⟨-, hoe, hclk, -⟩ := h.padsStep_bus (i := i) .wrmem hr hst
  refine ⟨hclk.trans (h.wrmem.oeClk.2 (.inr hs)), hoe.trans ?_⟩
  rw [padsStep_rwdsOe hr hst, Bool.eq_iff_iff, bus_wrmem, WrmemStm.bus_oe, h.wrmem.oe,
    h.wrmem.rwdsOe]
  simp [hs]

namespace Run

variable {r : Ctrl.Run packaged} (hr : ∀ t, (r.input t).rst = false) {t u : ℕ}
include hr

/-- The `WRMEM1` of a transaction of `wrmem_stm`. -/
structure WrittenAt (r : Ctrl.Run packaged) (w t : ℕ) : Prop where
  lt : w < t
  wrmem1 : (r.state w).core.state = .wrmem1
  wrmem2 : ∀ x, w < x → x ≤ t → (r.state x).core.state = .wrmem2

/-- The state in which `wrmem_stm` starts was entered from `WRMEM1`. -/
theorem exists_writtenAt (h : Run.AtWork (fun x => (r.state x).wrmem.state) t u) :
    ∃ w, Run.WrittenAt r w t := by
  have hs : (r.state t).core.state = .wrmem2 := (r.inv t).home .wrmem (h.start (k := .wrmem))
  obtain ⟨w, hwt, hw1, -, hw2⟩ := opened_by (p := fun x => (r.state x).core.state = .wrmem2)
    (q := fun x => (r.state x).core.state = .wrmem1)
    (by simp [(AfterReset.idle r.start).1, Core.reset])
    (fun x hno hx => by
      rw [r.clock] at hx
      exact (enters_wrmem2 (hr x) hno hx).1) t hs
  exact ⟨w, hwt, hw1, hw2⟩

/-- Behind its command `wrmem_stm` clocks a word out under `rwds_oe`. -/
theorem clocks_write_iff (h : Run.AtWork (fun x => (r.state x).wrmem.state) t u) {x : ℕ}
    (htx : t < x) (hxu : x ≤ u)
    (hs : (r.state x).wrmem.bus.stage = .sent ∨ (r.state x).wrmem.bus.stage = .done) :
    Run.Clocks r x ↔ (r.state x).pads.rwdsOe = true := by
  obtain ⟨y, rfl⟩ : ∃ y, x = y + 1 := ⟨x - 1, by omega⟩
  have hnext := (h.sender (k := .wrmem) hr).next y (by omega) (by omega)
  have hrun := Stage.run_of_stage (hnext.of_sent hs)
  obtain ⟨hclk, hoe⟩ := (r.inv y).padsStep_wrmem_run (i := r.input y) (hr y) hrun
  rw [← step_pads, ← r.clock] at hclk hoe
  rw [Clocks, hclk, hoe]
  simp

section written

variable {w : ℕ} (hw : Run.WrittenAt r w t)
  (h : Run.AtWork (fun x => (r.state x).wrmem.state) t u)
include hw h

omit hr in
/-- The visit of `WRMEM2` lasts while the machine is at work. -/
theorem WrittenAt.visit {x : ℕ} (hx : w < x) (hxu : x ≤ u) :
    (r.state x).core.state = .wrmem2 := by
  rcases Nat.lt_or_ge t x with hlt | hge
  · exact ((r.inv x).active .wrmem (h.busy x hlt hxu)).1
  · exact hw.wrmem2 x hx hge

omit hr in
/-- `inbuffer_valid` is up in its first cycle only. -/
theorem WrittenAt.not_valid {x : ℕ} (hx : w + 2 ≤ x) (hxu : x ≤ u) :
    (r.state x).core.inbufferValid = false := Bool.eq_false_iff.2 fun hv => by
  obtain ⟨y, rfl, -, hy⟩ := inbufferValid_iff.1 hv
  rw [hw.visit h (x := y) (by omega) (by omega)] at hy
  simp at hy

/-- The machine is not at the end of a transaction before the present one is. -/
theorem WrittenAt.not_done {x : ℕ} (hx : w < x) (hxu : x < u) :
    (r.state x).wrmem.state ≠ .done := fun hd => by
  have hs := hw.visit h hx hxu.le
  have he := ((r.inv x).wrmem.stmEnd (by simp [hd])).2 hd
  have hnext := hw.visit h (x := x + 1) (by omega) hxu
  rw [r.clock, step_core, coreStep_eq_registers (hr x)] at hnext
  simp [registers, hs, he] at hnext

/-- The start bit is up in its third cycle at the earliest. -/
theorem WrittenAt.add_two_le : w + 2 ≤ t := by
  have hst : (r.state t).core.stmStart.wrmem = true := h.start (k := .wrmem)
  have hne : t ≠ w + 1 := fun htw => by
    have hlow : (r.state w).core.stmStart.wrmem = false := Bool.eq_false_iff.2 fun hup => by
      simpa [hw.wrmem1] using (r.inv w).home .wrmem hup
    rw [htw, r.clock, step_core, coreStep_eq_registers (hr w)] at hst
    simp [registers, hw.wrmem1, hlow] at hst
  have := hw.lt
  omega

/-- The line value is loaded before the transaction starts. -/
theorem WrittenAt.loaded : ∀ x, w + 2 ≤ x → x ≤ t →
    (r.state x).wrmem.Loaded (halfword (r.state (w + 1)).core.bufferWrmem)
  | 0, hx, _ => by omega
  | x + 1, hx, hxt => by
    have hut := h.lt
    rw [r.clock x]
    rcases Nat.lt_or_ge (w + 1) x with hlt | hge
    · exact (WrittenAt.loaded x hlt (by omega)).step (r.inv x).wrmem
        (i := (r.state x).wrmemIn packaged (r.input x)) (hr x)
        (hw.not_valid h (by omega) (by omega)) (hw.not_done hr h (by omega) (by omega))
    · obtain rfl : x = w + 1 := by omega
      have hidle : (r.state (w + 1)).wrmem.state = .idle := by
        rw [r.clock]
        exact (r.inv w).idle .wrmem (by simp [hw.wrmem1])
      exact WrmemStm.loaded_load (i := (r.state (w + 1)).wrmemIn packaged (r.input (w + 1))) hidle
        (hr (w + 1)) (inbufferValid_iff.2 ⟨w, rfl, hr w, hw.wrmem1⟩)

/-- The halfwords of the line value are on their way. -/
theorem WrittenAt.sending {x : ℕ} (htx : t ≤ x) (hxu : x ≤ u) :
    Sending (halfword (r.state (w + 1)).core.bufferWrmem) (r.state x)
      (Run.device r Device.zero x) := by
  have htwo := hw.add_two_le hr h
  induction x, htx using Nat.le_induction with
  | base => exact sending_of_idle (hw.loaded hr h t htwo le_rfl) h.idle _
  | succ x htx ih =>
    rw [r.clock x]
    have hcommand := (h.sender (k := .wrmem) hr).command Device.zero htx (by omega)
    exact (ih (by omega)).step (r.inv x) hcommand (hr x)
      (hw.not_valid h (by omega) (by omega)) (hw.not_done hr h (by omega) hxu)

/-- The word is the next halfword of the line value. -/
theorem WrittenAt.clocked_eq {x : ℕ} (htx : t < x) (hxu : x ≤ u)
    (hs : (r.state x).wrmem.bus.stage = .sent ∨ (r.state x).wrmem.bus.stage = .done) :
    Run.clocked r x = if 15 ≤ (r.state x).wrmem.runClock then
      [halfword (r.state (w + 1)).core.bufferWrmem ((r.state x).wrmem.runClock - 15)] else [] := by
  have hsending := hw.sending hr h htx.le hxu
  have hoe := (clocks_write_iff hr h htx hxu hs).trans (hsending.rwdsOe (h.busy x htx hxu))
  obtain ⟨y, rfl⟩ : ∃ y, x = y + 1 := ⟨x - 1, by omega⟩
  rw [clocked]
  split_ifs with hc h15 h15
  · rw [← hsending.last h15, Run.device, Device.step_last, Nat.add_sub_cancel]
  · exact absurd (hoe.1 hc) h15
  · exact absurd (hoe.2 h15) hc
  · rfl

/-- The halfwords that are clocked out before cycle `x`. -/
def halfwordsOut (r : Ctrl.Run packaged) (w x : ℕ) : List (BitVec 16) :=
  (List.range ((r.state x).wrmem.runClock - 15)).map (halfword (r.state (w + 1)).core.bufferWrmem)

omit hw h in
/-- None before the latency is over. -/
theorem halfwordsOut_nil {x : ℕ} (hs : (r.state x).wrmem.bus.stage ≠ .sent) :
    Run.halfwordsOut r w (x + 1) = [] := by
  have hle : (r.state (x + 1)).wrmem.runClock ≤ 1 := by
    rw [r.clock x, step_wrmem]
    by_cases hrun : (r.state x).wrmem.state = .run
    · have hzero : (r.state x).wrmem.runClock = 0 := by
        by_contra hne
        exact hs ((stage_of_run hrun).trans (if_neg hne))
      have hstep := (r.inv x).wrmem.runClock_step
        (i := (r.state x).wrmemIn packaged (r.input x)) (hr x) hrun
      omega
    · rw [WrmemStm.runClock_step_zero (i := (r.state x).wrmemIn packaged (r.input x)) (hr x) hrun]
      omega
  rw [halfwordsOut, show (r.state (x + 1)).wrmem.runClock - 15 = 0 by omega]
  rfl

/-- One more with each clock that takes one over. -/
theorem WrittenAt.halfwordsOut_succ {x : ℕ} (htx : t < x) (hxu : x < u)
    (hs : (r.state x).wrmem.bus.stage = .sent) :
    Run.halfwordsOut r w (x + 1) = Run.halfwordsOut r w x ++ Run.clocked r x := by
  have hstep := (r.inv x).wrmem.runClock_step (i := (r.state x).wrmemIn packaged (r.input x))
    (hr x) (Stage.run_of_stage (.inr hs))
  rw [← step_wrmem, ← r.clock] at hstep
  rw [hw.clocked_eq hr h htx hxu.le (.inl hs), halfwordsOut, halfwordsOut, hstep]
  by_cases h15 : 15 ≤ (r.state x).wrmem.runClock
  · rw [if_pos h15, show (r.state x).wrmem.runClock + 1 - 15 =
      (r.state x).wrmem.runClock - 15 + 1 by omega, List.range_succ, List.map_append]
    rfl
  · rw [if_neg h15, show (r.state x).wrmem.runClock + 1 - 15 =
      (r.state x).wrmem.runClock - 15 by omega, List.append_nil]

/-- The words that are clocked out before a cycle. -/
theorem WrittenAt.words_eq {n : ℕ} (hn : t + 1 + n ≤ u) : Run.words r (t + 1) n =
    (r.state (t + 1 + n)).wrmem.bus.stage.sentWords (r.state t).core.caSigr ++
      Run.halfwordsOut r w (t + 1 + n) :=
  (h.sender (k := .wrmem) hr).words_eq (fun _ _ _ hs => halfwordsOut_nil hr hs)
    (fun _ htx hxu hs => hw.halfwordsOut_succ hr h htx hxu hs) hn

/-- A write transaction clocks out its command and the sixteen halfwords of its line value. -/
theorem WrittenAt.words_write (hd : (r.state u).wrmem.state = .done) :
    Run.words r (t + 1) (u - t) =
      [caWords (r.state t).core.caSigr slot0, caWords (r.state t).core.caSigr slot1,
        caWords (r.state t).core.caSigr slot2] ++
        (List.range 16).map (halfword (r.state (w + 1)).core.bufferWrmem) := by
  have hclock : (r.state u).wrmem.runClock = 30 := by simp [WrmemStm.runClock, hd]
  have hstage : (r.state u).wrmem.bus.stage = .done := Stage.of_done_iff.2 hd
  rw [(h.sender (k := .wrmem) hr).words_done h.lt hstage (fun _ _ _ hs => halfwordsOut_nil hr hs)
    (fun _ htx hxu hs => hw.halfwordsOut_succ hr h htx hxu hs),
    hw.clocked_eq hr h h.lt le_rfl (.inr hstage), halfwordsOut, hclock, if_pos (by omega),
    List.range_succ, List.map_append]
  rfl

/-- `rwds_oe` is up with the words behind the command. -/
theorem WrittenAt.rwdsOe_iff {x : ℕ} (htx : t < x) (hxu : x ≤ u) :
    (r.state x).pads.rwdsOe = true ↔
      Run.Clocks r x ∧ 3 ≤ (Run.words r (t + 1) (x - (t + 1))).length := by
  obtain ⟨n, rfl⟩ : ∃ n, x = t + 1 + n := ⟨x - (t + 1), by omega⟩
  have hoe := (hw.sending hr h htx.le hxu).rwdsOe (h.busy _ htx hxu)
  have hwords := hw.words_eq hr h hxu
  rw [Nat.add_sub_cancel_left, hwords, List.length_append]
  by_cases hs : (r.state (t + 1 + n)).wrmem.bus.stage = .sent ∨
      (r.state (t + 1 + n)).wrmem.bus.stage = .done
  · have hlen :
        ((r.state (t + 1 + n)).wrmem.bus.stage.sentWords (r.state t).core.caSigr).length = 3 := by
      rcases hs with hst | hst
      · rw [hst]
        rfl
      · rw [hst]
        rfl
    rw [clocks_write_iff hr h htx hxu hs, hlen]
    simp
  · rw [not_or] at hs
    have hzero : (r.state (t + 1 + n)).wrmem.runClock = 0 := by
      by_contra hne
      cases hm : (r.state (t + 1 + n)).wrmem.state
      case run => exact hs.1 ((stage_of_run hm).trans (if_neg hne))
      case done => exact hs.2 (Stage.of_done_iff.2 hm)
      all_goals exact hne (by simp [WrmemStm.runClock, hm])
    have hlen := Stage.length_sentWords hs.1 hs.2 (r.state t).core.caSigr
    rw [hoe, halfwordsOut, hzero]
    simp only [Nat.zero_sub, List.range_zero, List.map_nil, List.length_nil]
    omega

end written

end Run

/-! ## All transactions -/

/-- A machine that drives the data pads is at work. -/
theorem Inv.busy_of_oeData {v : Variant} {s : Ctrl v.width} {i : Inputs v.width} (h : s.Inv)
    (hr : i.rst = false) (ho : (s.padsStep v i).oeData = true) :
    (s.step v i).rdreg.state ≠ .idle ∨ (s.step v i).rdmem.state ≠ .idle ∨
      (s.step v i).wrmem.state ≠ .idle := by
  have hwork (k : Transaction) (hk : (s.bus k).state = .ca ∨ (s.bus k).state = .run) :
      ((s.step v i).bus k).state ≠ .idle := by
    refine h.work k hr ?_ ?_ <;> rcases hk with hs | hs <;> simp [hs]
  rw [(padsStep_enables hr).1, mux] at ho
  rcases h.start_cases with hb | ⟨-, hb⟩ | ⟨-, hb⟩ | ⟨-, hb⟩ | ⟨-, hb⟩ <;> simp [hb] at ho
  · exact .inl (hwork .rdreg (.inl (h.rdreg.oe.1 ho).1))
  · exact .inr (.inl (hwork .rdmem (.inl (h.rdmem.oe.1 ho).1)))
  · exact .inr (.inr (hwork .wrmem ((h.wrmem.oe.1 ho).imp And.left And.left)))

/-- The words on the bus and the mask of a run. -/
structure Run.Serial (r : Ctrl.Run packaged) : Prop where
  rdreg : ∀ t u, Run.AtWork (fun x => (r.state x).rdreg.state) t u →
    (r.state u).rdreg.state = .done → Run.words r (t + 1) (u - t) =
      List.ofFn (caWords (r.state t).core.caSigr)
  rdmem : ∀ t u, Run.AtWork (fun x => (r.state x).rdmem.state) t u →
    (r.state u).rdmem.state = .done → Run.words r (t + 1) (u - t) =
      List.ofFn (caWords (r.state t).core.caSigr)
  /-- A line write has a `WRMEM1`, and sends the `buffer_wrmem` it produced. -/
  wrmem : ∀ t u, Run.AtWork (fun x => (r.state x).wrmem.state) t u →
    (r.state u).wrmem.state = .done → ∃ w, Run.WrittenAt r w t ∧ Run.words r (t + 1) (u - t) =
      List.ofFn (caWords (r.state t).core.caSigr) ++
        (List.range 16).map (halfword (r.state (w + 1)).core.bufferWrmem)
  /-- Nothing is clocked out beside the transactions. -/
  clocks_busy : ∀ x, Run.Clocks r x → (r.state x).rdreg.state ≠ .idle ∨
    (r.state x).rdmem.state ≠ .idle ∨ (r.state x).wrmem.state ≠ .idle
  /-- In a line write `rwds_oe` is up with the words behind the first three. -/
  rwdsOe : ∀ t x, Run.AtWork (fun x => (r.state x).wrmem.state) t x →
    ((r.state x).pads.rwdsOe = true ↔
      Run.Clocks r x ∧ 3 ≤ (Run.words r (t + 1) (x - (t + 1))).length)
  rwdsOe_busy : ∀ x, (r.state x).pads.rwdsOe = true → (r.state x).wrmem.state ≠ .idle
  rwdsOut : ∀ x, (r.state x).pads.rwdsOut = false

theorem ofFn_caWords (D : BitVec 48) :
    List.ofFn (caWords D) = [caWords D slot0, caWords D slot1, caWords D slot2] := by
  simp [List.ofFn_succ, slot0, slot1, slot2]

/-- In every run of the packaged IP from reset without a further one, the words on the bus are
those of the transactions. -/
theorem ip_serial (r : Ctrl.Run packaged) (hr : ∀ t, (r.input t).rst = false) :
    Run.Serial r := by
  refine ⟨fun t u h hd => ?_, fun t u h hd => ?_, fun t u h hd => ?_, fun x hx => ?_,
    fun t x h => ?_, fun x hx => ?_, fun x => ?_⟩
  · rw [ofFn_caWords]
    exact h.words_read (k := .rdreg) hr (by simp) hd
  · rw [ofFn_caWords]
    exact h.words_read (k := .rdmem) hr (by simp) hd
  · obtain ⟨w, hw⟩ := Run.exists_writtenAt hr h
    rw [ofFn_caWords]
    exact ⟨w, hw, hw.words_write hr h hd⟩
  · cases x with
    | zero => simp [Run.Clocks, (AfterReset.idle r.start).2.1, Pads.reset] at hx
    | succ y =>
      have hoe := hx.1
      rw [r.clock] at hoe ⊢
      exact (r.inv y).busy_of_oeData (hr y) hoe
  · obtain ⟨w, hw⟩ := Run.exists_writtenAt hr h
    exact hw.rwdsOe_iff hr h h.lt le_rfl
  · cases x with
    | zero => simp [(AfterReset.idle r.start).2.1, Pads.reset] at hx
    | succ y =>
      rw [r.clock] at hx ⊢
      obtain ⟨-, -, hrun, -⟩ := (r.inv y).rwdsOe_step (hr y) hx
      exact (r.inv y).work .wrmem (hr y) (by simp [hrun]) (by simp [hrun])
  · cases x with
    | zero => simp [(AfterReset.idle r.start).2.1, Pads.reset]
    | succ y =>
      rw [r.clock]
      simp [padsStep, hr y, (r.inv y).wrmem.rwdsOut]

/-- A run with one line write. -/
theorem ip_serial_writeFive : Run.Serial (ipRun writeFive) :=
  ip_serial _ fun _ => rfl

end Ctrl

end HyperRam
