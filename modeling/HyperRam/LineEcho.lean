import HyperRam.DeviceWrites
import HyperRam.FlatMemory
import HyperRam.LineWrite

/-!
# What a line write sends

`WRMEM1` takes `buffer_wrmem` from the line buffer as it was before the word is written into it,
so the line write of the packaged IP sends the line as it was fetched. The device gets the sixteen
halfwords it has in that line already, behind a command that says read (`ip_write_echoes`) : the
written word is not on the bus at any time.

`Echoes` follows a write through its states. At the end of the fetch the buffer has the words of the
line (`Fetches.echoes_wrmem1`). In `WRMEM1` they go into `buffer_wrmem`, in the first clock of
`WRMEM2` into `wrmem_stm`, and from there to the device, which is the `SendsLine` of `LineWrite`
(`Echoes.step_wrmem2`). Since no write reaches the device, the line is the one it had at reset.
-/

namespace HyperRam

open Clocked

/-- The halfwords of the words of a line are the line. -/
theorem map_halfword_lineWord (h : ℕ → BitVec 16) :
    (List.range 16).map (halfword (concat fun k => lineWord h k)) = (List.range 16).map h := by
  refine List.map_congr_left fun j hj => ?_
  have hlt : j < 16 := List.mem_range.1 hj
  obtain ⟨hhi, hlo⟩ := halfword_concat (fun k => lineWord h k) ⟨j / 2, by omega⟩
  simp only at hhi hlo
  rcases Nat.mod_two_eq_zero_or_one j with hj | hj
  · rw [show 2 * (j / 2) = j by omega] at hhi
    rw [hhi, lineWord, show 2 * (j / 2) = j by omega]
    exact BitVec.extractLsb'_append_eq_left
  · rw [show 2 * (j / 2) + 1 = j by omega] at hlo
    rw [hlo, lineWord, show 2 * (j / 2) + 1 = j by omega]
    exact extractLsb'_append_low _ _

namespace Ctrl

section echoes

variable {s : Ctrl packaged.width} {i : Inputs packaged.width} {d : Device}
  {mem : BitVec 32 → Fin 16 → BitVec 16}

/-- The words of the line the captured address selects. -/
def lineWords (mem : BitVec 32 → Fin 16 → BitVec 16) (s : Ctrl packaged.width) :
    Fin 8 → BitVec 32 :=
  fun k => lineWord (halves mem (command packaged s)) k

/-- A write under way has the line as it was fetched. -/
structure Echoes (mem : BitVec 32 → Fin 16 → BitVec 16) (s : Ctrl packaged.width) (d : Device) :
    Prop where
  row : s.core.state = .wrmem1 ∨ s.core.state = .wrmem2 → s.core.row = false
  wrmem1 : s.core.state = .wrmem1 → s.core.buffer = lineWords mem s
  wrmem2 : s.core.state = .wrmem2 → SendsLine (concat (lineWords mem s)) s d

theorem lineWords_eq {s' : Ctrl packaged.width}
    (h : command packaged s' = command packaged s) : lineWords mem s' = lineWords mem s := by
  unfold lineWords
  rw [h]

theorem echoes_reset (h : s.core = .reset) : Echoes mem s d := by
  constructor <;> simp [h, Core.reset]

section step

variable (h : Echoes mem s d) (hf : Fetches mem s) (hs : s.Inv) (hr : i.rst = false)
  (hhold : s.core.state ≠ .idle →
    (s.step packaged i).pads.capturedS0Address = s.pads.capturedS0Address)
include hs hr hhold

include hf in
/-- The end of the fetch of a write. -/
theorem Fetches.echoes_wrmem1 (hst : (s.step packaged i).core.state = .wrmem1) :
    (s.step packaged i).core.buffer = lineWords mem (s.step packaged i) := by
  have hcore := coreStep_eq_registers (s := s) (i := i) hr
  rw [step_core, hcore] at hst
  rcases hs.enters_wrmem1 hst with ⟨-, hhit⟩ | ⟨hnow, -⟩
  · exact absurd hhit (by simp [bufferHit, packaged])
  · have he : s.rdmem.stmEnd = true := by
      by_contra hne
      simp [registers, hnow, hne] at hst
    have htmp := hs.tmp .rdmem (hs.end_start .rdmem hnow he)
    obtain ⟨hbuffer, hall⟩ := hs.fetch_end (i := i) hr hnow he hf.fetch
    rw [lineWords_eq (command_step hr hhold .rdmem (by simp) hnow htmp), hbuffer]
    exact funext hall

omit hs hhold in
include h in
theorem Echoes.row_step (hst : (s.step packaged i).core.state = .wrmem1 ∨
    (s.step packaged i).core.state = .wrmem2) : (s.step packaged i).core.row = false := by
  have hhit : s.bufferHit packaged = false := rfl
  have hrow := h.row
  rw [step_core, coreStep_eq_registers hr] at hst ⊢
  cases hnow : s.core.state <;> simp only [registers, hnow, hhit] at hst ⊢
  case idle =>
    rcases hst with hst | hst
    · exact absurd (dispatch_wrmem1 hst) (by simp)
    · exact absurd hst dispatch_ne_wrmem2
  case rdmem2 =>
    cases he : s.rdmem.stmEnd <;> cases hrow' : s.core.row <;> simp_all
  case wrmem1 => exact hrow (.inl hnow)
  case wrmem2 => exact hrow (.inr hnow)
  all_goals (try split_ifs at hst) <;> simp at hst

include h in
/-- The line goes out as it was fetched. -/
theorem Echoes.step_wrmem2 (hc : CommandInv packaged s d)
    (hst : (s.step packaged i).core.state = .wrmem2) :
    SendsLine (concat (lineWords mem (s.step packaged i))) (s.step packaged i)
      (d.step s.pads) := by
  have hcore := coreStep_eq_registers (s := s) (i := i) hr
  by_cases hnow : s.core.state = .wrmem2
  · have he : s.wrmem.stmEnd = false := by
      rw [step_core, hcore] at hst
      by_contra hne
      simp [registers, hnow, hne] at hst
    have hcommand : command packaged (s.step packaged i) = command packaged s := by
      refine command_eq (hhold (by simp [hnow])) ?_
      simp [hcore, registers, hnow]
    rw [lineWords_eq hcommand]
    exact (h.wrmem2 hnow).step hs (hc.underWay .wrmem (by simp)) hr hnow he
  · obtain ⟨hwas, hhit⟩ := enters_wrmem2 hr hnow hst
    have hcommand : command packaged (s.step packaged i) = command packaged s := by
      refine command_eq (hhold (by simp [hwas])) ?_
      simp [hcore, registers, hwas]
    rw [lineWords_eq hcommand, ← h.wrmem1 hwas]
    exact hs.sendsLine hr hwas hhit _

include h hf in
theorem Echoes.step (hc : CommandInv packaged s d) :
    Echoes mem (s.step packaged i) (d.step s.pads) where
  row := h.row_step hr
  wrmem1 := hf.echoes_wrmem1 hs hr hhold
  wrmem2 := h.step_wrmem2 hs hr hhold hc

end step

end echoes

/-! ## Along a run -/

namespace Run

variable {r : Ctrl.Run packaged} (h : Run.OneAtATime r) {d : Device} (ha : Run.Answers r d)
include h ha

theorem echoes : ∀ t, Echoes d.mem (r.state t) (Run.device r d t)
  | 0 => echoes_reset (AfterReset.idle r.start).1
  | t + 1 => by
    rw [r.clock]
    refine (echoes t).step (fetches h ha t) (r.inv t) (h.rst t) (fun hne => ?_)
      (readOnly d h t).command
    rw [← r.clock]
    exact h.captured_step (.inl hne)

end Run

/-- Every line write of the packaged IP is for an issued write. Its command is the read command of
that address, and its sixteen halfwords are those the device has in the line at reset. -/
theorem ip_write_echoes {r : Ctrl.Run packaged} (h : Run.OneAtATime r) {d : Device}
    (ha : Run.Answers r d) {t : ℕ} (hdone : (r.state t).wrmem.state = .done) :
    ∃ x, Rising (Run.port r .s0Write) x ∧ Run.UnderWay r x t ∧
      (Run.device r d t).ca =
        (addrDecode ((r.input x).s0Address.setWidth 32) true false).outAddr ∧
      (Run.device r d (t + 1)).data = (List.range 16).map (halves d.mem (Run.device r d t).ca) := by
  have hst : (r.state t).core.state = .wrmem2 := ((r.inv t).active .wrmem (by simp [hdone])).1
  obtain ⟨x, hx, hxt, hway⟩ := h.exists_issues (u := t) (by simp [hst])
  have hbusy : ∀ y, x + 2 ≤ y → y < t → (r.state y).core.state ≠ .idle :=
    fun y hy hyt => hway.2 y hy hyt.le
  have hsent := (Run.readOnly d h t).command.underWay .wrmem (by simp)
  have hca : (Run.device r d t).ca = command packaged (r.state t) :=
    hsent.ca_eq (.inr (Stage.of_done_iff.2 hdone))
  have htmp := (Run.readOnly d h t).direction (.inr (.inr hst))
  refine ⟨x, ?_, hway, ?_, ?_⟩
  · refine hx.resolve_left fun hread => ?_
    have hrow := (h.row_eq hx t hxt hbusy).2 hread
    exact absurd hrow (by simp [(Run.echoes h ha t).row (.inr hst)])
  · rw [hca, command, decoded, h.captured_eq hx t (by omega) hbusy, htmp]
    rfl
  · have hdata := ((Run.echoes h ha t).wrmem2 hst).data_done hsent hdone
    rw [hca, ← map_halfword_lineWord]
    exact hdata

/-- The line write of `writeThenRead`, for a write of `5`, sends zeros. -/
theorem ip_write_echoes_writeThenRead :
    (Run.device (ipRun writeThenRead) .zero 84).data = List.replicate 16 0 := by
  have hdone : ((ipRun writeThenRead).state 83).wrmem.state = .done := by
    show (trace (Ctrl.step packaged) (cleared _) writeThenRead 83).wrmem.state = .done
    decide +kernel
  obtain ⟨x, -, -, -, hdata⟩ := ip_write_echoes oneAtATime_writeThenRead answers_writeThenRead hdone
  exact hdata

end Ctrl

end HyperRam
