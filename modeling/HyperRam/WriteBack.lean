import HyperRam.LineTag
import HyperRam.LineWrite

/-!
# Write-back of the line buffer

A residency of the line buffer begins with the fetch that fills it. The buffered controller
writes to a resident word in `WRMEM1`, and the next fetch overwrites the buffer. Has the device
received what was written by then?

`Residency` records along a run what a line brought in, which of its words were written, whether it
came in for a write miss, and which line writes the device received since. The line writes are
taken from the device of the run, not from the controller, so they are what arrived. `Resides` says,
by the state of the controller, what has been sent : a write hit goes back to `IDLE` and sends
nothing, and a write miss sends the words as they were fetched, since `buffer_wrmem` is taken before
the word is changed (`Resides.step_wrmem1`, `Resides.step_wrmem2`). So a written word is at the
device only by way of a line write that carries the word it was fetched with.

`buffered_clean_iff` says when nothing is lost all the same. On the clock that takes the first word
of a new fetch in, the device has each written word if and only if each of them has the value it
was fetched with again and the line was fetched for a write. In `readWriteRead` a write hit is
dropped.
-/

namespace HyperRam

open Clocked

/-- A transaction of `wrmem_stm` as the device received it. -/
structure LineWrite where
  line : BitVec 32
  data : List (BitVec 16)

/-- The transaction brings `x` to word `k` of its line. -/
def LineWrite.Carries (e : LineWrite) (k : Fin 8) (x : BitVec 32) : Prop :=
  e.data[2 * k.val]? = some (x.extractLsb' 16 16) ∧
    e.data[2 * k.val + 1]? = some (x.extractLsb' 0 16)

/-- One stay of a line in the buffer. -/
structure Residency where
  /-- The line the buffer holds. -/
  line : BitVec 32
  /-- The words it was filled with. -/
  words : Fin 8 → BitVec 32
  /-- It was fetched for a write. -/
  forWrite : Bool
  /-- The words `WRMEM1` has written since. -/
  written : Fin 8 → Bool
  /-- The line writes the device has received since. -/
  sent : List LineWrite

namespace Residency

/-- The buffer after reset : cleared, with the tag of address `0`. -/
def reset : Residency :=
  ⟨Device.lineOf (addrDecode 0 true false).outAddr, fun _ => 0, false, fun _ => false, []⟩

/-- One clock of the residency. -/
def step {v : Variant} (g : Residency) (s : Ctrl v.width) (d : Device) : Residency :=
  if s.Fills then
    { line := Device.lineOf (Ctrl.command v s), words := s.core.buffer, forWrite := !s.core.row
      written := fun _ => false, sent := [] }
  else
    { g with
      written :=
        if s.core.state = .wrmem1 then
          Function.update g.written (Core.writtenWord (s.bufSel v)) true
        else g.written
      sent :=
        if s.wrmem.state = .done then g.sent ++ [⟨Device.lineOf d.ca, (d.step s.pads).data⟩]
        else g.sent }

/-- Each written word is at the device, with the value it has in the buffer. -/
def Clean {w : ℕ} (g : Residency) (s : Ctrl w) : Prop :=
  ∀ k, g.written k = true → ∃ e ∈ g.sent, e.line = g.line ∧ e.Carries k (s.core.buffer k)

/-- The line write of a write miss, with the words as they were fetched. -/
def writeBack (g : Residency) : LineWrite :=
  ⟨g.line, (List.range 16).map (halfword (concat g.words))⟩

/-- It carries the fetched words and no others. -/
theorem writeBack_carries (g : Residency) (k : Fin 8) (x : BitVec 32) :
    g.writeBack.Carries k x ↔ x = g.words k := by
  have hk := k.isLt
  obtain ⟨hhi, hlo⟩ := halfword_concat g.words k
  have hsplit (y : BitVec 32) : y.extractLsb' 16 16 ++ y.extractLsb' 0 16 = y :=
    BitVec.extractLsb'_append_extractLsb'
  unfold LineWrite.Carries writeBack
  rw [List.getElem?_map, List.getElem?_map, List.getElem?_range (by omega),
    List.getElem?_range (by omega), Option.map_some, Option.map_some, hhi, hlo,
    Option.some.injEq, Option.some.injEq]
  constructor
  · rintro ⟨h16, h0⟩
    rw [← hsplit x, ← hsplit (g.words k), h16, h0]
  · rintro rfl
    exact ⟨rfl, rfl⟩

end Residency

namespace Ctrl

/-! ## A residency step by step -/

section resides

variable {s : Ctrl buffered.width} {i : Inputs buffered.width} {d : Device} {g : Residency}

/-- The line writes of a residency that no write miss is at work for. -/
def Settled (g : Residency) : Prop :=
  g.sent = if g.forWrite then [g.writeBack] else []

/-- A write miss has filled the buffer and sent nothing yet. -/
structure Missed (s : Ctrl buffered.width) (g : Residency) : Prop where
  forWrite : g.forWrite = true
  sent : g.sent = []
  line : g.line = Device.lineOf (command buffered s)

/-- What a residency has sent, by the state of the controller. -/
structure Resides (s : Ctrl buffered.width) (d : Device) (g : Residency) : Prop where
  miss : s.core.state = .rdmem2 → s.bufferHit buffered = false
  settled : s.core.state ≠ .wrmem1 → s.core.state ≠ .wrmem2 → Settled g
  wrmem1 : s.core.state = .wrmem1 → s.bufferHit buffered = true ∧ Settled g ∨
    s.bufferHit buffered = false ∧ Missed s g ∧ g.words = s.core.buffer
  wrmem2 : s.core.state = .wrmem2 → Missed s g ∧ SendsLine (concat g.words) s d

theorem resides_reset (h : AfterReset buffered s) (d : Device) : Resides s d .reset := by
  obtain ⟨hcore, -⟩ := h.idle
  refine ⟨?_, ?_, ?_, ?_⟩ <;> simp [hcore, Core.reset, Settled, Residency.reset]

/-- A clock that does not fill the buffer keeps what the residency came with. -/
theorem residency_keep (hf : ¬s.Fills) : (g.step s d).line = g.line ∧
    (g.step s d).words = g.words ∧ (g.step s d).forWrite = g.forWrite := by
  simp [Residency.step, hf]

/-- Only the end of a line write sends. -/
theorem sent_keep (hf : ¬s.Fills) (hd : s.wrmem.state ≠ .done) :
    (g.step s d).sent = g.sent := by
  simp [Residency.step, hf, hd]

theorem Settled.step (h : Settled g) (hf : ¬s.Fills) (hd : s.wrmem.state ≠ .done) :
    Settled (g.step s d) := by
  obtain ⟨hline, hwords, hwrite⟩ := residency_keep (g := g) (d := d) hf
  unfold Settled Residency.writeBack
  rw [sent_keep hf hd, hline, hwords, hwrite]
  exact h

theorem Missed.step (h : Missed s g) (hf : ¬s.Fills) (hd : s.wrmem.state ≠ .done)
    {s' : Ctrl buffered.width} (hcommand : command buffered s' = command buffered s) :
    Missed s' (g.step s d) := by
  obtain ⟨hline, -, hwrite⟩ := residency_keep (g := g) (d := d) hf
  exact ⟨hwrite.trans h.forWrite, (sent_keep hf hd).trans h.sent,
    by rw [hline, h.line, hcommand]⟩

theorem resides_of_settled (h : Settled g) (hm : s.core.state ≠ .rdmem2)
    (hw1 : s.core.state ≠ .wrmem1) (hw2 : s.core.state ≠ .wrmem2) : Resides s d g :=
  ⟨fun h => absurd h hm, fun _ _ => h, fun h => absurd h hw1, fun h => absurd h hw2⟩

section step

variable (hs : s.Inv) (hc : CommandInv buffered s d) (hr : i.rst = false)
  (hkeep : s.core.state ≠ .idle ∨ (s.step buffered i).core.state ≠ .idle →
    (s.step buffered i).pads.capturedS0Address = s.pads.capturedS0Address)
include hs hr hkeep

/-- A clock outside `RDMEM2`, `WRMEM1` and `WRMEM2`. -/
theorem Resides.step_settled (h : Resides s d g)
    (hst : s.core.state ≠ .rdmem2 ∧ s.core.state ≠ .wrmem1 ∧ s.core.state ≠ .wrmem2) :
    Resides (s.step buffered i) (d.step s.pads) (g.step s d) := by
  have hf : ¬s.Fills := fun hf => hst.1 hf.1
  have hd : s.wrmem.state ≠ .done := fun hd => hst.2.2 (hs.active .wrmem (by simp [hd])).1
  have hsettled := (h.settled hst.2.1 hst.2.2).step (d := d) hf hd
  have hhit := bufferHit_step hkeep (lineTag_keep hr (by simp [LoadsTag, hf, hst.2.2]))
  have hnext : (s.step buffered i).core.state = (s.registers buffered i).state := by
    rw [step_core, coreStep_eq_registers hr]
  have hne : (s.step buffered i).core.state ≠ .wrmem2 := by
    rw [hnext]
    cases hs' : s.core.state <;> simp only [registers, hs']
    case idle => exact dispatch_ne_wrmem2
    all_goals (try split_ifs) <;> simp_all
  refine ⟨fun hm => ?_, fun _ _ => hsettled, fun hw => .inl ⟨?_, hsettled⟩,
    fun hw => absurd hw hne⟩
  · rw [hhit (.inr (by rw [hm]; simp))]
    rw [hnext] at hm
    cases hs' : s.core.state <;> simp only [registers, hs'] at hm
    case idle => exact dispatch_rdmem2 hm
    case rdmem2 => exact absurd hs' hst.1
    all_goals (try split_ifs at hm) <;> simp at hm
  · rw [hhit (.inr (by rw [hw]; simp))]
    rw [hnext] at hw
    cases hs' : s.core.state <;> simp only [registers, hs'] at hw
    case idle => exact dispatch_wrmem1 hw
    case rdmem2 => exact absurd hs' hst.1
    all_goals (try split_ifs at hw) <;> simp_all

/-- `RDMEM2` : the fetch that fills the buffer opens a residency. -/
theorem Resides.step_rdmem2 (h : Resides s d g) (hst : s.core.state = .rdmem2) :
    Resides (s.step buffered i) (d.step s.pads) (g.step s d) := by
  have hmiss := h.miss hst
  have hnext : (s.step buffered i).core.state = (s.registers buffered i).state := by
    rw [step_core, coreStep_eq_registers hr]
  simp only [registers, hst] at hnext
  cases he : s.rdmem.stmEnd
  case false =>
    have hf : ¬s.Fills := by simp [Fills, he]
    have hd : s.wrmem.state ≠ .done := fun hd => by
      simpa [hst] using (hs.active .wrmem (by simp [hd])).1
    have hstay : (s.step buffered i).core.state = .rdmem2 := by simp only [hnext, he]; rfl
    have hhit := bufferHit_step hkeep (lineTag_keep hr (by simp [LoadsTag, hf, hst]))
      (.inl (by simp [hst]))
    refine ⟨fun _ => hhit.trans hmiss, fun _ _ => ?_, fun hw => ?_, fun hw => ?_⟩
    · exact (h.settled (by simp [hst]) (by simp [hst])).step hf hd
    · exact absurd (hstay.symm.trans hw) (by simp)
    · exact absurd (hstay.symm.trans hw) (by simp)
  case true =>
    have hf : s.Fills := ⟨hst, he⟩
    have hg : g.step s d = ⟨Device.lineOf (command buffered s), s.core.buffer, !s.core.row,
        fun _ => false, []⟩ := if_pos hf
    cases hrow : s.core.row
    case true =>
      have hgo : (s.step buffered i).core.state = .rdmem1 := by simp only [hnext, he, hrow]; rfl
      refine resides_of_settled ?_ (by rw [hgo]; simp) (by rw [hgo]; simp) (by rw [hgo]; simp)
      simp [Settled, hg, hrow]
    case false =>
      have hgo : (s.step buffered i).core.state = .wrmem1 := by simp only [hnext, he, hrow]; rfl
      have hhit := bufferHit_step hkeep (lineTag_keep hr (by simp [LoadsTag, hrow, hst]))
        (.inl (by simp [hst]))
      have htmp := hs.tmp .rdmem (hs.end_start .rdmem hst he)
      have hcommand := command_step hr (fun hne => hkeep (.inl hne)) .rdmem (by simp) hst htmp
      have hdone : s.rdmem.state = .done := hs.done .rdmem hst he
      have hv : s.rdmem.wordvalid = false := by simpa [hdone] using hs.rdmem.wordvalid
      have hbuffer : (s.step buffered i).core.buffer = s.core.buffer := by
        simp [coreStep_eq_registers hr, registers, hst, hv]
      refine ⟨fun hm => ?_, fun hw => absurd hgo hw, fun _ => .inr ⟨hhit.trans hmiss, ?_, ?_⟩,
        fun hw => ?_⟩
      · exact absurd (hgo.symm.trans hm) (by simp)
      · exact ⟨by simp [hg, hrow], by rw [hg], by rw [hg, hcommand]⟩
      · rw [hg, hbuffer]
      · exact absurd (hgo.symm.trans hw) (by simp)

/-- `WRMEM1` : a hit stays with the buffer, a miss snapshots the words as they were fetched. -/
theorem Resides.step_wrmem1 (h : Resides s d g) (hst : s.core.state = .wrmem1) :
    Resides (s.step buffered i) (d.step s.pads) (g.step s d) := by
  have hf : ¬s.Fills := by simp [Fills, hst]
  have hd : s.wrmem.state ≠ .done := fun hd => by
    simpa [hst] using (hs.active .wrmem (by simp [hd])).1
  have hnext : (s.step buffered i).core.state = (s.registers buffered i).state := by
    rw [step_core, coreStep_eq_registers hr]
  simp only [registers, hst] at hnext
  rcases h.wrmem1 hst with ⟨hhit, hsettled⟩ | ⟨hhit, hmissed, hwords⟩
  · have hgo : (s.step buffered i).core.state = .idle := by simp only [hnext, hhit]; rfl
    exact resides_of_settled (hsettled.step hf hd) (by rw [hgo]; simp) (by rw [hgo]; simp)
      (by rw [hgo]; simp)
  · have hgo : (s.step buffered i).core.state = .wrmem2 := by simp only [hnext, hhit]; rfl
    have hcommand : command buffered (s.step buffered i) = command buffered s := by
      refine command_eq (hkeep (.inl (by simp [hst]))) ?_
      simp [coreStep_eq_registers hr, registers, hst]
    refine ⟨fun hm => ?_, fun _ hw => absurd hgo hw, fun hw => ?_,
      fun _ => ⟨hmissed.step hf hd hcommand, ?_⟩⟩
    · exact absurd (hgo.symm.trans hm) (by simp)
    · exact absurd (hgo.symm.trans hw) (by simp)
    · rw [(residency_keep hf).2.1, hwords]
      exact hs.sendsLine hr hst hhit _

include hc in
/-- `WRMEM2` : the snapshot reaches the device. -/
theorem Resides.step_wrmem2 (h : Resides s d g) (hst : s.core.state = .wrmem2) :
    Resides (s.step buffered i) (d.step s.pads) (g.step s d) := by
  have hf : ¬s.Fills := by simp [Fills, hst]
  obtain ⟨hline, hwords, hwrite⟩ := residency_keep (g := g) (d := d) hf
  obtain ⟨hmissed, hsending⟩ := h.wrmem2 hst
  have hnext : (s.step buffered i).core.state = (s.registers buffered i).state := by
    rw [step_core, coreStep_eq_registers hr]
  simp only [registers, hst] at hnext
  cases he : s.wrmem.stmEnd
  case false =>
    have hgo : (s.step buffered i).core.state = .wrmem2 := by simp only [hnext, he]; rfl
    have hd : s.wrmem.state ≠ .done := fun hd => by simpa [hd, he] using hs.wrmem.stmEnd
    have hcommand : command buffered (s.step buffered i) = command buffered s := by
      refine command_eq (hkeep (.inl (by simp [hst]))) ?_
      simp [coreStep_eq_registers hr, registers, hst]
    refine ⟨fun hm => ?_, fun _ hw => absurd hgo hw, fun hw => ?_,
      fun _ => ⟨hmissed.step hf hd hcommand, ?_⟩⟩
    · exact absurd (hgo.symm.trans hm) (by simp)
    · exact absurd (hgo.symm.trans hw) (by simp)
    · rw [hwords]
      exact hsending.step hs (hc.underWay .wrmem (by simp)) hr hst he
  case true =>
    have hgo : (s.step buffered i).core.state = .accdly := by simp only [hnext, he]; rfl
    have hd : s.wrmem.state = .done := hs.done .wrmem hst he
    have hsent := hc.underWay .wrmem (by simp)
    have hdata := hsending.data_done hsent hd
    have hca : d.ca = command buffered s := hsent.ca_eq (.inr (Stage.of_done_iff.2 hd))
    have hsent : (g.step s d).sent = [⟨Device.lineOf d.ca, (d.step s.pads).data⟩] := by
      simp [Residency.step, hf, hd, hmissed.sent]
    refine resides_of_settled ?_ (by rw [hgo]; simp) (by rw [hgo]; simp) (by rw [hgo]; simp)
    rw [Settled, hsent, hwrite, hmissed.forWrite, if_pos rfl, Residency.writeBack, hline, hwords,
      hdata, hca, hmissed.line]

include hc in
theorem Resides.step (h : Resides s d g) :
    Resides (s.step buffered i) (d.step s.pads) (g.step s d) := by
  by_cases hrdmem2 : s.core.state = .rdmem2
  · exact h.step_rdmem2 hs hr hkeep hrdmem2
  by_cases hwrmem1 : s.core.state = .wrmem1
  · exact h.step_wrmem1 hs hr hkeep hwrmem1
  by_cases hwrmem2 : s.core.state = .wrmem2
  · exact h.step_wrmem2 hs hc hr hkeep hwrmem2
  · exact h.step_settled hs hr hkeep ⟨hrdmem2, hwrmem1, hwrmem2⟩

end step

end resides

/-! ## Along a run -/

namespace Run

/-- The residency along a run. -/
def residency {v : Variant} (r : Ctrl.Run v) (d : Device) : ℕ → Residency
  | 0 => .reset
  | t + 1 => (residency r d t).step (r.state t) (Run.device r d t)

variable {v : Variant} {r : Ctrl.Run v}

theorem commandInv (h : Run.OneAtATime r) (d : Device) :
    ∀ t, CommandInv v (r.state t) (Run.device r d t)
  | 0 => commandInv_reset r.start d
  | t + 1 => by
    rw [r.clock]
    refine (commandInv h d t).step (h.rst t) (fun hne => ?_) (r.inv t)
    rw [← r.clock]
    exact h.captured_step (.inl hne)

theorem resides {r : Ctrl.Run buffered} (h : Run.OneAtATime r) (d : Device) :
    ∀ t, Resides (r.state t) (Run.device r d t) (Run.residency r d t)
  | 0 => resides_reset r.start d
  | t + 1 => by
    rw [r.clock]
    refine (resides h d t).step (r.inv t) (commandInv h d t) (h.rst t) ?_
    rw [← r.clock]
    exact h.captured_step

end Run

/-- The clock takes the first word of a new fetch into the buffer. -/
def FirstWord {w : ℕ} (s : Ctrl w) : Prop :=
  s.core.state = .rdmem2 ∧ s.rdmem.wordvalid = true ∧ s.rdmem.counter = 18

/-- When a fetch overwrites the buffer, the device has received each written word if and only
if each written word has the value it was fetched with and the line was fetched for a write. -/
theorem buffered_clean_iff {r : Ctrl.Run buffered} (h : Run.OneAtATime r) (d : Device) {u : ℕ}
    (hu : (r.state u).FirstWord) :
    (Run.residency r d u).Clean (r.state u) ↔
      ∀ k, (Run.residency r d u).written k = true →
        (r.state u).core.buffer k = (Run.residency r d u).words k ∧
          (Run.residency r d u).forWrite = true := by
  have hsettled := (Run.resides h d u).settled (by simp [hu.1]) (by simp [hu.1])
  refine forall_congr' fun k => imp_congr_right fun _ => ?_
  rw [hsettled]
  cases hwrite : (Run.residency r d u).forWrite
  case false => simp
  case true =>
    rw [if_pos rfl]
    constructor
    · rintro ⟨e, he, -, hcarries⟩
      obtain rfl := List.mem_singleton.1 he
      exact ⟨(Residency.writeBack_carries _ _ _).1 hcarries, rfl⟩
    · rintro ⟨hvalue, -⟩
      exact ⟨_, List.mem_singleton_self _, rfl, (Residency.writeBack_carries _ _ _).2 hvalue⟩

/-! ## A write hit that is dropped -/

/-- A read of address `32` in cycle `0`, a write of `5` to it in cycle `60` and a read of
address `64` in cycle `80`. -/
def readWriteRead (t : ℕ) : Inputs buffered.width :=
  { (quiet : Inputs 32) with
    s0Read := t = 0 ∨ t = 80, s0Write := t = 60, s0Writedata := 5
    s0Address := if t < 80 then 32 else 64 }

/-- The run of `readWriteRead` from the cleared registers. -/
def dropRun : Ctrl.Run buffered :=
  .ofInputs (afterReset_cleared buffered) readWriteRead

theorem read_dropRun (t : ℕ) (h : (dropRun.input t).s0Read = true) : t ∈ [0, 80] := by
  simpa using (of_decide_eq_true h : t = 0 ∨ t = 80)

theorem write_dropRun (t : ℕ) (h : (dropRun.input t).s0Write = true) : t ∈ [60] := by
  simpa using (of_decide_eq_true h : t = 60)

theorem idle_dropRun : ∀ t ∈ [0, 80] ++ [60], (dropRun.state t).core.state = .idle := by
  show ∀ t ∈ [0, 80] ++ [60],
    (trace (Ctrl.step buffered) (cleared _) readWriteRead t).core.state = .idle
  decide +kernel

theorem oneAtATime_dropRun : Run.OneAtATime dropRun := by
  refine .of_slots read_dropRun write_dropRun (by decide) idle_dropRun
    (fun _ => ⟨rfl, rfl, rfl⟩) ?_
  intro t _ u htu hnext
  have hsame : u < 80 ↔ t < 80 := by
    have h80 := hnext 80 (by simp)
    omega
  refine ⟨?_, rfl⟩
  simp only [dropRun, Run.ofInputs, readWriteRead, hsame]

theorem firstWord_dropRun : (dropRun.state 108).FirstWord := by
  show (trace (Ctrl.step buffered) (cleared _) readWriteRead 108).FirstWord
  unfold FirstWord
  decide +kernel

/-- The equivalence in the run of `readWriteRead`. -/
theorem buffered_clean_iff_readWriteRead :
    (Run.residency dropRun .zero 108).Clean (dropRun.state 108) ↔
      ∀ k, (Run.residency dropRun .zero 108).written k = true →
        (dropRun.state 108).core.buffer k = (Run.residency dropRun .zero 108).words k ∧
          (Run.residency dropRun .zero 108).forWrite = true :=
  buffered_clean_iff oneAtATime_dropRun .zero firstWord_dropRun

/-- The word written in `readWriteRead` is overwritten without a line write. -/
theorem buffered_clean_fails : ¬∀ (r : Ctrl.Run buffered) (d : Device), Run.OneAtATime r →
    (∀ t, Run.Issues r t → (r.input t).s0Address.toNat % 4 = 0) →
    ∀ u, (r.state u).FirstWord → (Run.residency r d u).Clean (r.state u) := by
  intro h
  have haligned : ∀ t, Run.Issues dropRun t → (dropRun.input t).s0Address.toNat % 4 = 0 := by
    intro t ht
    have hslot := ht.mem_slots read_dropRun write_dropRun
    simp at hslot
    rcases hslot with rfl | rfl | rfl <;> decide
  have hclean := h dropRun .zero oneAtATime_dropRun haligned 108 firstWord_dropRun
  have hwritten : (Run.residency dropRun .zero 108).written 0 = true := by decide +kernel
  have hsent : (Run.residency dropRun .zero 108).sent.isEmpty = true := by decide +kernel
  obtain ⟨e, he, -⟩ := hclean 0 hwritten
  rw [List.isEmpty_iff.1 hsent] at he
  exact absurd he (List.not_mem_nil)

end Ctrl

end HyperRam
