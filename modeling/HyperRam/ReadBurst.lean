import HyperRam.LineTransfer
import HyperRam.Progress

/-!
# The read burst

A visit of `RDMEM2` ends with the burst of `rdmem_stm` : 33 clocks of `STATE_RUN` and one of
`STATE_DONE`. Before it comes a wait for `rwds` of any length, so a cycle of the visit does not tell
where the machine is. Counted from its end it does : the clocks of the burst are the clocks that are
`left`, and these fall by one with each clock (`ReadVisit.burst`). So the machine has a given
counter in one cycle of the visit (`ReadVisit.run_iff`), and halfword `j` is sampled in one.

The words are complete in every second of the last cycles (`ReadVisit.wordvalid_iff`), and the line
buffer takes each of them in with the next clock. `Fetch` carries the halfwords into the buffer
(`ReadVisit.fetch`, `ReadVisit.buffer_eq`). Eight words make eight pulses of `wordvalid`, each of
one cycle and none of them outside `RDMEM2`.

`ip_readBurst` says so of every visit without a reset in every run of the packaged IP, however long
the device kept `rwds` low.
-/

namespace HyperRam

open Clocked

namespace RdmemStm

variable {m : RdmemStm} {i : ReadIn}

/-- The burst of a transaction : `STATE_RUN` and `STATE_DONE`. -/
def Bursts (m : RdmemStm) : Prop :=
  m.state = .run ∨ m.state = .done

section step

variable (h : m.Inv) (hr : i.rst = false)
include h hr

/-- A clock of `STATE_RUN` stays in the burst and leaves one clock less. -/
theorem Inv.burst_step (hs : m.state = .run) :
    (m.step i).Bursts ∧ (m.step i).bus.left 32 + 1 = m.bus.left 32 := by
  have hn := h.bus_step hr
  refine ⟨?_, hn.left_step h.bus (fun hw => ?_) (fun hi => ?_) (by simp [hs])⟩
  · by_cases hc : m.counter.toNat = 32
    · exact .inr (hn.last hs hc)
    · exact .inl (hn.run hs hc).1
  · exact absurd (hs.symm.trans hw.1) (by simp)
  · exact absurd (hs.symm.trans hi) (by simp)

/-- A burst under way was under way in the cycle before. -/
theorem Inv.run_of_burst (hb : (m.step i).Bursts) (hl : (m.step i).bus.left 32 ≠ 34) :
    m.state = .run := by
  have hn := h.bus_step hr
  rcases hb with hs | hs
  · by_contra hne
    have hc : (m.step i).counter.toNat = 0 := hn.enter_run h.bus hne hs
    exact hl (by simp [BusStm.left, hs, hc])
  · exact (hn.enter_done h.bus hs).1

end step

end RdmemStm

namespace Ctrl

namespace Run

variable {v : Variant} (r : Ctrl.Run v)

/-- The controller enters `RDMEM2` on the clock of cycle `t`, and first leaves it on the clock
into cycle `u`. -/
structure ReadVisit (t u : ℕ) : Prop where
  lt : t + 1 < u
  before : (r.state t).core.state ≠ .rdmem2
  inside : ∀ x, t < x → x < u → (r.state x).core.state = .rdmem2
  after : (r.state u).core.state ≠ .rdmem2
  rst : ∀ x, t < x → x < u → (r.input x).rst = false

variable {r}

namespace ReadVisit

variable {t u : ℕ} (h : Run.ReadVisit r t u)
include h

/-- The machine rests on entry. -/
theorem idle_enter : (r.state (t + 1)).rdmem.state = .idle := by
  rw [r.clock]
  exact (r.inv t).idle .rdmem h.before

/-- The visit ends on the clock of `STATE_DONE`. -/
theorem done_iff {x : ℕ} (hx : t < x) (hxu : x < u) :
    (r.state x).rdmem.state = .done ↔ x + 1 = u := by
  have hs := h.inside x hx hxu
  have hr := h.rst x hx hxu
  have hnext : (r.state (x + 1)).core.state = .rdmem2 ↔ (r.state x).rdmem.stmEnd = false := by
    rw [r.clock, step_core, coreStep_eq_registers hr]
    cases he : (r.state x).rdmem.stmEnd <;> cases hrow : (r.state x).core.row <;>
      simp [registers, hs, he, hrow]
  constructor
  · intro hd
    by_contra hne
    have hin := hnext.1 (h.inside (x + 1) (by omega) (by omega))
    simpa [hd, hin] using (r.inv x).rdmem.stmEnd
  · rintro rfl
    refine (r.inv x).done .rdmem hs ?_
    by_contra he
    exact h.after (hnext.2 (by simpa using he))

/-- In the burst the clocks that are left lead to the end of the visit. -/
theorem add_left {x : ℕ} (hx : t < x) (hxu : x < u) (hb : (r.state x).rdmem.Bursts) :
    x + (r.state x).rdmem.bus.left 32 = u := by
  obtain ⟨n, hn⟩ : ∃ n, u = x + n := ⟨u - x, by omega⟩
  induction n generalizing x with
  | zero => omega
  | succ n ih =>
    rcases hb with hs | hd
    · have hstep := (r.inv x).rdmem.burst_step (i := (r.state x).rdmemIn v (r.input x))
        (h.rst x hx hxu) hs
      rw [← step_rdmem, ← r.clock] at hstep
      have hne : x + 1 ≠ u := fun hu => by simpa [hs] using (h.done_iff hx hxu).2 hu
      have hnext := ih (x := x + 1) (by omega) (by omega) hstep.1 (by omega)
      omega
    · have hu := (h.done_iff hx hxu).1 hd
      have hl : (r.state x).rdmem.bus.left 32 = 1 := BusStm.left_of_done hd
      omega

/-- The last 34 cycles of the visit are its burst. -/
theorem burst {n : ℕ} (hn : n < 34) :
    t + n + 2 < u ∧ (r.state (u - 1 - n)).rdmem.Bursts ∧
      (r.state (u - 1 - n)).rdmem.bus.left 32 = n + 1 := by
  induction n with
  | zero =>
    have hlt := h.lt
    have hd := (h.done_iff (x := u - 1) (by omega) (by omega)).2 (by omega)
    have hne : t + 2 ≠ u := fun hu => by
      have hidle := h.idle_enter
      rw [show t + 1 = u - 1 by omega, hd] at hidle
      simp at hidle
    exact ⟨by omega, .inr hd, BusStm.left_of_done hd⟩
  | succ n ih =>
    obtain ⟨hlt, hb, hl⟩ := ih (by omega)
    obtain ⟨x, hx⟩ : ∃ x, u - 1 - n = x + 1 := ⟨u - 2 - n, by omega⟩
    rw [hx, r.clock, step_rdmem] at hb hl
    have hr := h.rst x (by omega) (by omega)
    have hs := (r.inv x).rdmem.run_of_burst (i := (r.state x).rdmemIn v (r.input x)) hr hb
      (by omega)
    have hstep := ((r.inv x).rdmem.burst_step (i := (r.state x).rdmemIn v (r.input x)) hr hs).2
    have hne : x ≠ t + 1 := fun hxt => by
      rw [hxt, h.idle_enter] at hs
      simp at hs
    rw [show u - 1 - (n + 1) = x by omega]
    exact ⟨by omega, .inl hs, by omega⟩

end ReadVisit

end Run

/-- `rdmem_stm` samples halfword `j` of its line on the next clock. -/
def Samples {w : ℕ} (s : Ctrl w) (j : ℕ) : Prop :=
  s.rdmem.state = .run ∧ s.rdmem.counter.toNat = 16 + j

namespace Run.ReadVisit

variable {v : Variant} {r : Ctrl.Run v} {t u : ℕ} (h : Run.ReadVisit r t u)
include h

/-- The cycle of the burst in which the counter is `k`. -/
theorem run_iff {x k : ℕ} (hx : t < x) (hxu : x < u) (hk : k ≤ 32) :
    (r.state x).rdmem.state = .run ∧ (r.state x).rdmem.counter.toNat = k ↔ x + 34 = u + k := by
  have hleft : ∀ y, (r.state y).rdmem.state = .run →
      (r.state y).rdmem.bus.left 32 = 34 - (r.state y).rdmem.counter.toNat := fun y hy => by
    simp only [BusStm.left, RdmemStm.bus_state, hy, RdmemStm.bus_counter]
  constructor
  · rintro ⟨hs, hc⟩
    have hl := h.add_left hx hxu (.inl hs)
    rw [hleft x hs] at hl
    omega
  · intro hu
    obtain ⟨-, hb, hl⟩ := h.burst (n := 33 - k) (by omega)
    rw [show u - 1 - (33 - k) = x by omega] at hb hl
    rcases hb with hs | hd
    · rw [hleft x hs] at hl
      have hle := (r.inv x).rdmem.run_le hs
      exact ⟨hs, by bv_omega⟩
    · have h1 : (r.state x).rdmem.bus.left 32 = 1 := BusStm.left_of_done hd
      omega

/-- The words are complete in the cycles `u - 16`, `u - 14`, ..., `u - 2`. -/
theorem wordvalid_iff {x : ℕ} (hx : t < x) (hxu : x < u) :
    (r.state x).rdmem.wordvalid = true ↔ ∃ m < 8, x + 16 = u + 2 * m := by
  rw [(r.inv x).rdmem.wordvalid]
  constructor
  · rintro ⟨hs, h17, heven⟩
    have hle := (r.inv x).rdmem.run_le hs
    have hu := (h.run_iff hx hxu (by bv_omega)).1 ⟨hs, rfl⟩
    exact ⟨((r.state x).rdmem.counter.toNat - 18) / 2, by bv_omega, by bv_omega⟩
  · rintro ⟨m, hm, hu⟩
    obtain ⟨hs, hc⟩ := (h.run_iff (k := 18 + 2 * m) hx hxu (by omega)).2 (by omega)
    exact ⟨hs, by bv_omega, by omega⟩

/-- The line buffer takes a complete word in. -/
theorem buffer_succ {x : ℕ} (hx : t < x) (hxu : x < u) : (r.state (x + 1)).core.buffer =
    if (r.state x).rdmem.wordvalid then
      shiftIn (r.state x).core.buffer (r.state x).rdmem.dataoutr
    else (r.state x).core.buffer := by
  rw [r.clock, step_core, coreStep_eq_registers (h.rst x hx hxu)]
  simp only [registers, h.inside x hx hxu]

/-- The first clock of `STATE_RUN` begins the fetch. -/
theorem fetch_zero (f : ℕ → BitVec 16) :
    Fetch (r.state (u - 34)).rdmem (r.state (u - 34)).core.buffer f := by
  have hlong := (h.burst (n := 33) (by omega)).1
  obtain ⟨hs, hc⟩ := (h.run_iff (x := u - 34) (k := 0) (by omega) (by omega) (by omega)).2
    (by omega)
  have hinv := (r.inv (u - 34)).rdmem
  refine ⟨fun _ hin => ?_, fun hv => ?_, fun _ => ?_, fun hd => ?_⟩
  · have := (hinv.half.1 hin).2.1
    bv_omega
  · have := (hinv.wordvalid.1 hv).2.1
    bv_omega
  · rw [hc]
    exact .zero _ _
  · simp [hs] at hd

/-- The fetch in the clocks of the burst. -/
theorem fetch {k : ℕ} (hk : k ≤ 33) : Fetch (r.state (u - 34 + k)).rdmem
    (r.state (u - 34 + k)).core.buffer (fun j => (r.input (u - 18 + j)).dataout) := by
  induction k with
  | zero => exact h.fetch_zero _
  | succ k ih =>
    have hlong := (h.burst (n := 33) (by omega)).1
    have hx : t < u - 34 + k := by omega
    have hxu : u - 34 + k < u := by omega
    have hstep := (ih (by omega)).step (r.inv (u - 34 + k)).rdmem
      (i := (r.state (u - 34 + k)).rdmemIn v (r.input (u - 34 + k))) (h.rst _ hx hxu)
      fun hs h16 h32 => by
        have hu := (h.run_iff hx hxu h32.le).1 ⟨hs, rfl⟩
        show (r.input (u - 34 + k)).dataout = _
        congr 2
        omega
    rw [← h.buffer_succ hx hxu, ← step_rdmem, ← r.clock] at hstep
    exact hstep

/-- The line buffer behind the visit. -/
theorem buffer_eq (k : Fin 8) : (r.state u).core.buffer k =
    lineWord (fun j => (r.input (u - 18 + j)).dataout) k := by
  have hlong := (h.burst (n := 33) (by omega)).1
  have hd := (h.done_iff (x := u - 1) (by omega) (by omega)).2 (by omega)
  have hv : (r.state (u - 1)).rdmem.wordvalid = false := by
    simpa [hd] using (r.inv (u - 1)).rdmem.wordvalid
  have hbuffer := h.buffer_succ (x := u - 1) (by omega) (by omega)
  have hfetch := h.fetch (k := 33) le_rfl
  rw [show u - 34 + 33 = u - 1 by omega] at hfetch
  rw [hv, if_neg (by simp), show u - 1 + 1 = u by omega] at hbuffer
  rw [hbuffer]
  exact (hfetch.done hd).all k

/-- Eight words are complete in the visit. -/
theorem card_wordvalid :
    ((Finset.Ioo t u).filter fun x => (r.state x).rdmem.wordvalid = true).card = 8 := by
  have hlong := (h.burst (n := 33) (by omega)).1
  have himage : ((Finset.Ioo t u).filter fun x => (r.state x).rdmem.wordvalid = true) =
      (Finset.range 8).image fun m => u - 16 + 2 * m := by
    ext x
    simp only [Finset.mem_filter, Finset.mem_Ioo, Finset.mem_image, Finset.mem_range]
    constructor
    · rintro ⟨⟨hx, hxu⟩, hv⟩
      obtain ⟨m, hm, hu⟩ := (h.wordvalid_iff hx hxu).1 hv
      exact ⟨m, hm, by omega⟩
    · rintro ⟨m, hm, rfl⟩
      have hx : t < u - 16 + 2 * m := by omega
      have hxu : u - 16 + 2 * m < u := by omega
      exact ⟨⟨hx, hxu⟩, (h.wordvalid_iff hx hxu).2 ⟨m, hm, by omega⟩⟩
  rw [himage, Finset.card_image_of_injective _ fun a b hab => by omega, Finset.card_range]

end Run.ReadVisit

/-- `wordvalid` is up in `RDMEM2` only. -/
theorem Inv.rdmem2_of_wordvalid {w : ℕ} {s : Ctrl w} (h : s.Inv)
    (hv : s.rdmem.wordvalid = true) : s.core.state = .rdmem2 :=
  (h.active .rdmem (by simp [(h.rdmem.wordvalid.1 hv).1])).1

/-- `wordvalid` is up for one cycle. -/
theorem Inv.wordvalid_single {v : Variant} {s : Ctrl v.width} (h : s.Inv) (i : Inputs v.width)
    (hv : s.rdmem.wordvalid = true) : (s.step v i).rdmem.wordvalid = false := by
  by_contra hv'
  obtain ⟨hs, h17, heven⟩ := h.rdmem.wordvalid.1 hv
  obtain ⟨hs', -, heven'⟩ := (h.step i).rdmem.wordvalid.1 (by simpa using hv')
  have hr : i.rst = false := Bool.eq_false_iff.2 fun hr => by
    simp [RdmemStm.step, rdmemIn, hr] at hs'
  have hn := h.rdmem.bus_step (i := s.rdmemIn v i) hr
  rw [← step_rdmem] at hn
  by_cases hc : s.rdmem.counter.toNat = 32
  · exact absurd (hs'.symm.trans (hn.last hs hc)) (by simp)
  · have hcount : (s.step v i).rdmem.counter.toNat = s.rdmem.counter.toNat + 1 := (hn.run hs hc).2
    omega

/-- What a visit of `RDMEM2` from cycle `t` to cycle `u` has done. -/
structure Run.ReadBurst {v : Variant} (r : Ctrl.Run v) (t u : ℕ) : Prop where
  /-- Each halfword is sampled in one cycle. -/
  sampled : ∀ j < 16, ∃! x, t < x ∧ x < u ∧ Samples (r.state x) j
  /-- The line buffer has them in order, two to a word. -/
  buffer : ∀ f : ℕ → BitVec 16,
    (∀ x j, t < x → x < u → Samples (r.state x) j → f j = (r.input x).dataout) →
    ∀ k : Fin 8, (r.state u).core.buffer k = f (2 * k) ++ f (2 * k + 1)
  /-- Eight pulses of `wordvalid`, each one cycle long, in `RDMEM2`. -/
  pulses : ((Finset.Icc t u).filter fun x => (r.state x).rdmem.wordvalid = true).card = 8
  single : ∀ x, (r.state x).rdmem.wordvalid = true → (r.state (x + 1)).rdmem.wordvalid = false
  inside : ∀ x, (r.state x).rdmem.wordvalid = true → (r.state x).core.state = .rdmem2
  innerCounter : (r.state u).rdmem.innerCounter = false

/-- In every run of the packaged IP, a visit of `RDMEM2` without a reset leaves the sixteen
halfwords of its burst in the line buffer, with eight pulses of `wordvalid`. -/
theorem ip_readBurst {r : Ctrl.Run packaged} {t u : ℕ} (h : Run.ReadVisit r t u) :
    Run.ReadBurst r t u := by
  have hlong := (h.burst (n := 33) (by omega)).1
  have hsample : ∀ x j, t < x → x < u → j < 16 → (Samples (r.state x) j ↔ x + 18 = u + j) :=
    fun x j hx hxu hj => (h.run_iff hx hxu (by omega)).trans (by omega)
  refine ⟨fun j hj => ?_, fun f hf k => ?_, ?_, fun x hv => ?_, fun x hv => ?_, ?_⟩
  · refine ⟨u - 18 + j, ⟨by omega, by omega, ?_⟩, fun x hx => ?_⟩
    · exact (hsample _ j (by omega) (by omega) hj).2 (by omega)
    · have := (hsample x j hx.1 hx.2.1 hj).1 hx.2.2
      omega
  · have hword : ∀ j < 16, (r.input (u - 18 + j)).dataout = f j := fun j hj =>
      (hf _ j (by omega) (by omega) ((hsample _ j (by omega) (by omega) hj).2 (by omega))).symm
    have hk := k.isLt
    rw [h.buffer_eq, lineWord, hword _ (by omega), hword _ (by omega)]
  · have hsame : ((Finset.Icc t u).filter fun x => (r.state x).rdmem.wordvalid = true) =
        (Finset.Ioo t u).filter fun x => (r.state x).rdmem.wordvalid = true := by
      ext x
      simp only [Finset.mem_filter, Finset.mem_Icc, Finset.mem_Ioo]
      refine and_congr_left fun hv => ?_
      have hs := (r.inv x).rdmem2_of_wordvalid hv
      have hxt : x ≠ t := fun hxt => h.before (hxt ▸ hs)
      have hxu : x ≠ u := fun hxu => h.after (hxu ▸ hs)
      omega
    rw [hsame, h.card_wordvalid]
  · rw [r.clock]
    exact (r.inv x).wordvalid_single _ hv
  · exact (r.inv x).rdmem2_of_wordvalid hv
  · by_contra hin
    have hs := ((r.inv u).rdmem.half.1 (by simpa using hin)).1
    exact h.after ((r.inv u).active .rdmem (by simp [hs])).1

/-- A line read whose device makes `rdmem_stm` wait, with the number of each cycle on
`dataout`. -/
def slowRead (t : ℕ) : Inputs packaged.width :=
  { quiet with s0Read := t < 2, rwdsIn := t = 20, dataout := BitVec.ofNat 16 t }

theorem readVisit_slowRead : Run.ReadVisit (ipRun slowRead) 1 59 := by
  have hinside : ∀ x, x < 59 → 1 < x → ((ipRun slowRead).state x).core.state = .rdmem2 := by
    decide +kernel
  exact ⟨by omega, by decide +kernel, fun x hx hxu => hinside x hxu hx, by decide +kernel,
    fun _ _ _ => rfl⟩

/-- The read of `slowRead`. -/
theorem ip_readBurst_slowRead : Run.ReadBurst (ipRun slowRead) 1 59 :=
  ip_readBurst readVisit_slowRead

end Ctrl

end HyperRam
