import HyperRam.AddressMap
import HyperRam.OneAtATime

/-!
# The line tag

The buffered controller serves an access from the line buffer if the tag of the buffer is the
tag of the address, the pair of its `row_id` and `page_id`. `page_id` is `2 * (in_addr / 32)` cut to
five bits, so a tag holds address bits 23 to 10 and 8 to 5 and leaves bit 9 out : below `2 ^ 24`,
addresses with one tag are of one line or differ in bit 9 (`addressTag_line_iff`).

The tag is loaded in `RDMEM2` after a read miss and in `WRMEM2` after a write miss. `Tagged` says
what it is worth : the buffer, last filled for an address `f`, has the tag of `f`, or it has been
filled for a write that is still on its way to `WRMEM2`, and then the captured address is `f`.
There is a step lemma for each state that touches the buffer or the tag, and `Tagged.step_keep` for
the others. The captured address is held while the controller is at work, which `OneAtATime`
provides, and `fillAddress` is the address `f` along a run (`tagged`).

`buffered_hit_iff` is what that makes of a hit : an accepted access hits exactly on the line in the
buffer if and only if its address does not differ from `f` in bit 9 with all tag bits equal. On the
addresses 32 and 544 it does, and the second read is answered from the line of the first.
-/

namespace HyperRam

open Clocked

/-! ## Tags of addresses -/

/-- The tag `addr_decode` gives to an address. -/
def addressTag (a : BitVec 32) : BitVec 14 × BitVec 5 :=
  ((addrDecode a true false).rowId, (addrDecode a true false).pageId)

theorem rowId_toNat (a : BitVec 32) : (addressTag a).1.toNat = a.toNat / 1024 % 2 ^ 14 := by
  simp [addressTag, addrDecode, Nat.shiftRight_eq_div_pow]

theorem pageId_toNat (a : BitVec 32) : (addressTag a).2.toNat = a.toNat / 32 % 16 * 2 := by
  have ha := a.isLt
  simp only [addressTag, addrDecode, BitVec.toNat_setWidth, BitVec.toNat_shiftLeft,
    BitVec.toNat_ushiftRight, Nat.shiftRight_eq_div_pow, Nat.shiftLeft_eq]
  omega

/-- Two addresses below `2 ^ 24` have one tag iff they agree on bits 23 to 10 and 8 to 5. -/
theorem addressTag_inj {a b : BitVec 32} (ha : a.toNat < 2 ^ 24) (hb : b.toNat < 2 ^ 24) :
    addressTag a = addressTag b ↔
      a.toNat / 1024 = b.toNat / 1024 ∧ a.toNat / 32 % 16 = b.toNat / 32 % 16 := by
  rw [Prod.ext_iff, ← BitVec.toNat_inj, ← BitVec.toNat_inj, rowId_toNat, rowId_toNat,
    pageId_toNat, pageId_toNat]
  omega

/-- `a` and `f` agree on the bits of the tag and differ in bit 9. -/
def AliasBit9 (a f : ℕ) : Prop :=
  a / 1024 = f / 1024 ∧ a / 32 % 16 = f / 32 % 16 ∧ a / 512 % 2 ≠ f / 512 % 2

/-- A tag names a line except for bit 9. -/
theorem addressTag_line_iff {a f : BitVec 32} (ha : a.toNat < 2 ^ 24) (hf : f.toNat < 2 ^ 24) :
    (addressTag f = addressTag a ↔ a.toNat / 32 = f.toNat / 32) ↔
      ¬AliasBit9 a.toNat f.toNat := by
  rw [addressTag_inj hf ha, AliasBit9]
  omega

namespace Ctrl

/-! ## The tag of the buffer -/

section tagged

variable {s : Ctrl buffered.width} {i : Inputs buffered.width}
  {f : Option (BitVec buffered.width)}

/-- The tag of the line buffer. -/
def lineTag {w : ℕ} (s : Ctrl w) : BitVec 14 × BitVec 5 :=
  (s.core.currRowId, s.core.currPageId)

theorem bufferHit_iff :
    s.bufferHit buffered = true ↔ s.lineTag = addressTag s.pads.capturedS0Address := by
  rw [Prod.ext_iff]
  simp [bufferHit, buffered, decoded, lineTag, addressTag, addrDecode]

/-- `rdmem_stm` has fetched a line : the buffer is filled. -/
def Fills {w : ℕ} (s : Ctrl w) : Prop :=
  s.core.state = .rdmem2 ∧ s.rdmem.stmEnd = true

instance {w : ℕ} (s : Ctrl w) : Decidable s.Fills :=
  inferInstanceAs (Decidable (_ ∧ _))

/-- The buffer, last filled for the address `f`, has the tag of `f`. After a write miss the tag
is loaded at the end of `WRMEM2`. -/
structure Tagged (s : Ctrl buffered.width) (f : Option (BitVec buffered.width)) : Prop where
  tag : ∀ a, f = some a → s.lineTag = addressTag a ∨
    (s.core.state = .wrmem1 ∨ s.core.state = .wrmem2) ∧ s.pads.capturedS0Address = a
  wrmem1 : s.core.state = .wrmem1 →
    f = some s.pads.capturedS0Address ∨ s.bufferHit buffered = true
  wrmem2 : s.core.state = .wrmem2 → f = some s.pads.capturedS0Address

theorem tagged_reset (h : AfterReset buffered s) : Tagged s none := by
  obtain ⟨hcore, -⟩ := h.idle
  refine ⟨?_, ?_, ?_⟩
  · simp
  · simp [hcore, Core.reset]
  · simp [hcore, Core.reset]

/-- The clock loads the tag : a fetch of a read is complete, or a write-back. -/
def LoadsTag {w : ℕ} (s : Ctrl w) : Prop :=
  s.Fills ∧ s.core.row = true ∨ s.core.state = .wrmem2 ∧ s.wrmem.stmEnd = true

theorem lineTag_load (hr : i.rst = false) (h : s.LoadsTag) :
    (s.step buffered i).lineTag = addressTag s.pads.capturedS0Address := by
  have hd : s.decoded buffered =
      addrDecode s.pads.capturedS0Address s.core.rdTmp s.core.wrTmp := by
    simp only [decoded, buffered, BitVec.setWidth_eq]
  unfold lineTag
  rw [step_core, coreStep_eq_registers hr]
  rcases h with ⟨⟨hst, he⟩, hrow⟩ | ⟨hst, he⟩
  · simp [registers, hst, he, hrow, hd, addressTag, addrDecode]
  · simp [registers, hst, he, hd, addressTag, addrDecode]

theorem lineTag_keep (hr : i.rst = false) (h : ¬s.LoadsTag) :
    (s.step buffered i).lineTag = s.lineTag := by
  unfold lineTag
  rw [step_core, coreStep_eq_registers hr]
  cases hst : s.core.state <;> simp only [registers, hst]
  case rdmem2 =>
    cases he : s.rdmem.stmEnd
    case false => simp
    case true =>
      have hrow : s.core.row ≠ true := fun hrow => h (.inl ⟨⟨hst, he⟩, hrow⟩)
      simp [hrow]
  case wrmem2 =>
    have he : s.wrmem.stmEnd ≠ true := fun he => h (.inr ⟨hst, he⟩)
    simp [he]

section step

variable (hkeep : s.core.state ≠ .idle ∨ (s.step buffered i).core.state ≠ .idle →
  (s.step buffered i).pads.capturedS0Address = s.pads.capturedS0Address)
include hkeep

/-- A hit stands with the tag and the captured address. -/
theorem bufferHit_step (htag : (s.step buffered i).lineTag = s.lineTag)
    (hst : s.core.state ≠ .idle ∨ (s.step buffered i).core.state ≠ .idle) :
    (s.step buffered i).bufferHit buffered = s.bufferHit buffered := by
  rw [Bool.eq_iff_iff, bufferHit_iff, bufferHit_iff, htag, hkeep hst]

variable (hr : i.rst = false)
include hr

/-- A clock that neither fills the buffer nor loads the tag, outside the write states. -/
theorem Tagged.step_keep (h : Tagged s f) (hload : ¬s.LoadsTag)
    (hst : s.core.state ≠ .wrmem1 ∧ s.core.state ≠ .wrmem2)
    (hnext : (s.step buffered i).core.state ≠ .wrmem2)
    (hwrmem1 : (s.step buffered i).core.state = .wrmem1 → s.bufferHit buffered = true) :
    Tagged (s.step buffered i) f := by
  have htag := lineTag_keep hr hload
  refine ⟨fun a ha => .inl ?_, fun hw => .inr ?_, fun hw => absurd hw hnext⟩
  · rw [htag]
    simpa [hst.1, hst.2] using h.tag a ha
  · rw [bufferHit_step hkeep htag (.inr (by rw [hw]; simp))]
    exact hwrmem1 hw

/-- The end of a fetch sets the captured address, a read loads the tag with it. -/
theorem Tagged.step_rdmem2 (h : Tagged s f) (hst : s.core.state = .rdmem2) :
    Tagged (s.step buffered i) (if s.Fills then some s.pads.capturedS0Address else f) := by
  have hnext : (s.step buffered i).core.state = (s.registers buffered i).state := by
    rw [step_core, coreStep_eq_registers hr]
  have hload := lineTag_load (s := s) (i := i) hr
  have hstay := h.step_keep hkeep hr
  generalize s.step buffered i = s' at hnext hkeep hload hstay ⊢
  simp only [registers, hst] at hnext
  have hcaptured := hkeep (.inl (by simp [hst]))
  cases he : s.rdmem.stmEnd
  case false =>
    rw [if_neg (by simp [Fills, he])]
    exact hstay (by simp [LoadsTag, Fills, hst, he]) (by simp [hst])
      (by simp [hnext, he]) (by simp [hnext, he])
  case true =>
    have hfills : s.Fills := ⟨hst, he⟩
    rw [if_pos hfills]
    cases hrow : s.core.row
    case true =>
      have htag := hload (.inl ⟨hfills, hrow⟩)
      refine ⟨fun a ha => .inl ?_, by simp [hnext, he, hrow], by simp [hnext, he, hrow]⟩
      rw [htag, Option.some.inj ha]
    case false =>
      refine ⟨fun a ha => .inr ?_, fun _ => .inl (by rw [hcaptured]), by simp [hnext, he, hrow]⟩
      rw [hcaptured, hnext]
      exact ⟨by simp [he, hrow], Option.some.inj ha⟩

/-- A write that hits is for the address of the tag. -/
theorem Tagged.step_wrmem1 (h : Tagged s f) (hst : s.core.state = .wrmem1) :
    Tagged (s.step buffered i) f := by
  have hnext : (s.step buffered i).core.state = (s.registers buffered i).state := by
    rw [step_core, coreStep_eq_registers hr]
  have htag := lineTag_keep (s := s) (i := i) hr (by simp [LoadsTag, Fills, hst])
  generalize s.step buffered i = s' at hnext hkeep htag ⊢
  simp only [registers, hst] at hnext
  have hcaptured := hkeep (.inl (by simp [hst]))
  cases hhit : s.bufferHit buffered
  case true =>
    have heq := bufferHit_iff.1 hhit
    refine ⟨fun a ha => .inl ?_, by simp [hnext, hhit], by simp [hnext, hhit]⟩
    rcases h.tag a ha with hw | ⟨-, rfl⟩
    · rw [htag, hw]
    · rw [htag, heq]
  case false =>
    have hf : f = some s.pads.capturedS0Address := by simpa [hhit] using h.wrmem1 hst
    refine ⟨fun a ha => .inr ?_, by simp [hnext, hhit], fun _ => by rw [hcaptured, hf]⟩
    rw [hcaptured, hnext]
    exact ⟨by simp [hhit], Option.some.inj (hf.symm.trans ha)⟩

/-- The end of a write-back loads the tag. -/
theorem Tagged.step_wrmem2 (h : Tagged s f) (hst : s.core.state = .wrmem2) :
    Tagged (s.step buffered i) f := by
  have hnext : (s.step buffered i).core.state = (s.registers buffered i).state := by
    rw [step_core, coreStep_eq_registers hr]
  have hload := lineTag_load (s := s) (i := i) hr
  generalize s.step buffered i = s' at hnext hkeep hload ⊢
  simp only [registers, hst] at hnext
  have hcaptured := hkeep (.inl (by simp [hst]))
  have hf := h.wrmem2 hst
  cases he : s.wrmem.stmEnd
  case true =>
    have htag := hload (.inr ⟨hst, he⟩)
    refine ⟨fun a ha => .inl ?_, by simp [hnext, he], by simp [hnext, he]⟩
    rw [htag, Option.some.inj (hf.symm.trans ha)]
  case false =>
    refine ⟨fun a ha => .inr ?_, by simp [hnext, he], fun _ => by rw [hcaptured, hf]⟩
    rw [hcaptured, hnext]
    exact ⟨by simp [he], Option.some.inj (hf.symm.trans ha)⟩

/-- One clock, with the captured address held while the controller is at work. -/
theorem Tagged.step (h : Tagged s f) :
    Tagged (s.step buffered i) (if s.Fills then some s.pads.capturedS0Address else f) := by
  have hnext : (s.step buffered i).core.state = (s.registers buffered i).state := by
    rw [step_core, coreStep_eq_registers hr]
  have hstay := h.step_keep hkeep hr
  cases hst : s.core.state
  case rdmem2 => exact h.step_rdmem2 hkeep hr hst
  all_goals rw [if_neg (by simp [Fills, hst])]
  case wrmem1 => exact h.step_wrmem1 hkeep hr hst
  case wrmem2 => exact h.step_wrmem2 hkeep hr hst
  all_goals
    simp only [registers, hst] at hnext
    refine hstay (by simp [LoadsTag, Fills, hst]) (by simp [hst]) ?_ ?_
  case idle.refine_1 => exact hnext ▸ dispatch_ne_wrmem2
  case idle.refine_2 => exact fun hw => dispatch_wrmem1 (hnext.symm.trans hw)
  all_goals
    rw [hnext]
    (try split_ifs) <;> simp

end step

end tagged

/-! ## Along a run -/

namespace Run

variable {v : Variant} (r : Ctrl.Run v)

/-- The captured address of the last fetch that filled the buffer. -/
def fillAddress : ℕ → Option (BitVec v.width)
  | 0 => none
  | t + 1 =>
    if (r.state t).Fills then some (r.state t).pads.capturedS0Address else fillAddress t

variable {r}

/-- A fetch is for an issued address. -/
theorem fillAddress_issued (h : Run.OneAtATime r) {f : BitVec v.width} :
    ∀ {t}, Run.fillAddress r t = some f → ∃ x, Run.Issues r x ∧ f = (r.input x).s0Address
  | 0, hf => by simp [fillAddress] at hf
  | t + 1, hf => by
    rw [fillAddress] at hf
    split_ifs at hf with hfills
    · obtain ⟨x, hx, hxt, -, hbusy⟩ := h.exists_issues (u := t) (by simp [hfills.1])
      refine ⟨x, hx, ?_⟩
      rw [← Option.some.inj hf]
      exact h.captured_eq hx t (by omega) fun y hy hyt => hbusy y hy hyt.le
    · exact fillAddress_issued h hf

theorem tagged {r : Ctrl.Run buffered} (h : Run.OneAtATime r) :
    ∀ t, Tagged (r.state t) (Run.fillAddress r t)
  | 0 => tagged_reset r.start
  | t + 1 => by
    have hstep := (tagged h t).step (i := r.input t) (by
      rw [← r.clock]
      exact h.captured_step) (h.rst t)
    rwa [← r.clock] at hstep

end Run

/-- In a run of the buffered controller on addresses below `2 ^ 24`, once the buffer is filled,
for an address `f`, an access to `a` hits exactly on the line of `f` if and only if `a` and `f`
do not differ in bit 9 with all tag bits equal. -/
theorem buffered_hit_iff {r : Ctrl.Run buffered} (h : Run.OneAtATime r)
    (hlt : ∀ t, Run.Issues r t → (r.input t).s0Address.toNat < 2 ^ 24) {t : ℕ}
    (ht : Run.Issues r t) {f : BitVec buffered.width}
    (hf : Run.fillAddress r (t + 1) = some f) :
    ((r.state (t + 1)).bufferHit buffered = true ↔
        (r.input t).s0Address.toNat / 32 = f.toNat / 32) ↔
      ¬AliasBit9 (r.input t).s0Address.toNat f.toNat := by
  have hidle := h.idle_succ ht
  have htag : (r.state (t + 1)).lineTag = addressTag f := by
    simpa [hidle] using (Run.tagged h (t + 1)).tag f hf
  have hcaptured : (r.state (t + 1)).pads.capturedS0Address = (r.input t).s0Address :=
    h.captured_eq ht (t + 1) (by omega) fun x hx hxt => by omega
  have hflt : f.toNat < 2 ^ 24 := by
    obtain ⟨x, hx, rfl⟩ := Run.fillAddress_issued h hf
    exact hlt x hx
  rw [bufferHit_iff, htag, hcaptured]
  exact addressTag_line_iff (hlt t ht) hflt

/-! ## A hit on another line -/

/-- A read of address `32` in cycle `0` and a read of address `544` in cycle `60`. -/
def readTwoLines (t : ℕ) : Inputs buffered.width :=
  { (quiet : Inputs 32) with
    s0Read := t = 0 ∨ t = 60, s0Address := if t < 60 then 32 else 544 }

/-- The run of `readTwoLines` from the cleared registers. -/
def twoLinesRun : Ctrl.Run buffered :=
  .ofInputs (afterReset_cleared buffered) readTwoLines

theorem read_twoLinesRun (t : ℕ) (h : (twoLinesRun.input t).s0Read = true) : t ∈ [0, 60] := by
  simpa using (of_decide_eq_true h : t = 0 ∨ t = 60)

theorem write_twoLinesRun (t : ℕ) (h : (twoLinesRun.input t).s0Write = true) : t ∈ [] :=
  absurd h Bool.false_ne_true

theorem oneAtATime_twoLinesRun : Run.OneAtATime twoLinesRun := by
  refine .of_slots read_twoLinesRun write_twoLinesRun (by decide) ?_ (fun _ => ⟨rfl, rfl, rfl⟩) ?_
  · show ∀ t ∈ [0, 60] ++ [],
      (trace (Ctrl.step buffered) (cleared _) readTwoLines t).core.state = .idle
    decide +kernel
  · intro t _ u htu hnext
    have hsame : u < 60 ↔ t < 60 := by
      have h60 := hnext 60 (by simp)
      omega
    refine ⟨?_, rfl⟩
    simp only [twoLinesRun, Run.ofInputs, readTwoLines, hsame]

theorem aligned_twoLinesRun {t : ℕ} (h : Run.Issues twoLinesRun t) :
    (twoLinesRun.input t).s0Address.toNat % 4 = 0 ∧
      (twoLinesRun.input t).s0Address.toNat < 2 ^ 24 := by
  have hslot := h.mem_slots read_twoLinesRun write_twoLinesRun
  simp at hslot
  rcases hslot with rfl | rfl <;> decide

theorem issues_twoLinesRun_60 : Run.Issues twoLinesRun 60 := by
  left
  decide +kernel

theorem fillAddress_twoLinesRun : Run.fillAddress twoLinesRun 61 = some 32 := by
  decide +kernel

/-- The equivalence in the run of `readTwoLines`. -/
theorem buffered_hit_iff_readTwoLines :
    ((twoLinesRun.state 61).bufferHit buffered = true ↔
        (twoLinesRun.input 60).s0Address.toNat / 32 = (32 : BitVec 32).toNat / 32) ↔
      ¬AliasBit9 (twoLinesRun.input 60).s0Address.toNat (32 : BitVec 32).toNat :=
  buffered_hit_iff oneAtATime_twoLinesRun (fun _ h => (aligned_twoLinesRun h).2)
    issues_twoLinesRun_60 fillAddress_twoLinesRun

/-- With the line of address `32` in the buffer, address `544` hits. -/
theorem buffered_hit_fails : ¬∀ r : Ctrl.Run buffered, Run.OneAtATime r →
    (∀ t, Run.Issues r t → (r.input t).s0Address.toNat % 4 = 0 ∧
      (r.input t).s0Address.toNat < 2 ^ 24) →
    ∀ t, Run.Issues r t → ∀ f, Run.fillAddress r (t + 1) = some f →
      ((r.state (t + 1)).bufferHit buffered = true ↔
        (r.input t).s0Address.toNat / 32 = f.toNat / 32) := by
  intro h
  have hsound := h twoLinesRun oneAtATime_twoLinesRun (fun _ => aligned_twoLinesRun) 60
    issues_twoLinesRun_60 _ fillAddress_twoLinesRun
  have hhit : (twoLinesRun.state 61).bufferHit buffered = true := by
    show (trace (Ctrl.step buffered) (cleared _) readTwoLines 61).bufferHit buffered = true
    decide +kernel
  exact absurd (hsound.1 hhit) (by decide)

end Ctrl

end HyperRam
