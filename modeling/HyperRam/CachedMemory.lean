import HyperRam.DeviceWrites
import HyperRam.FlatMemory
import HyperRam.LineTag
import HyperRam.Memory.LineCache
import HyperRam.WriteBack

/-!
# The buffered controller as a cache

Under the discipline of one request at a time, and with a device that answers read commands
from its lines, the buffered controller is a cache of one line over lines it never writes
(`Memory.Cache`). Its tag and its line buffer are the cache (`Ctrl.cache`), from the tag of
address `0` and a line of zeros at reset. `lineGeometry` is how it serves byte addresses : the tag
and the line of the decoder, the word of the case labels, and the `default` branches, on which a
read returns zero and a write clears word `0`.

`Serves` is an access under way, by the state the controller is in : what the tag, the buffer and
the machines have of the cache before the access and of the line that it loads. There is one step
lemma for each state of the way, `Serves.step` for a clock that stays on it and `Serves.finish` for
the clock that ends it, after which the cache has served the access. Along a run the
invariant is that in `IDLE` the cache has served the accesses issued until two cycles before, and
at work the access under way is served on top of those (`cached`).

`buffered_caches_line` is the refinement : the registers are those of the cache, and every answer is
the word of the cache for the read it belongs to. What a read returns is then a fact about caches
(`buffered_read_last_stored`), and on the aligned addresses of one line the controller is a flat
memory (`buffered_flat_on_line`).
-/

namespace HyperRam

open Clocked Memory

/-- How the buffered controller serves its addresses from a device with the lines `mem`. A read
that no word is selected for returns `0`, a write clears word `0`. -/
def lineGeometry (mem : BitVec 32 → Fin 16 → BitVec 16) :
    Geometry (BitVec buffered.width) (BitVec 14 × BitVec 5) (Fin 8) (BitVec 32) where
  tag := addressTag
  fetch a := fun k => lineWord (halves mem (addrDecode a true false).outAddr) k
  place a := buffered.wordSel (addrDecode a true false).bufferAddr
  blank := 0
  stored a x :=
    let sel := buffered.wordSel (addrDecode a true false).bufferAddr
    (Core.writtenWord sel, if sel.isSome then x else 0)

/-- The cache after reset. -/
def coldCache : Cache (BitVec 14 × BitVec 5) (Fin 8) (BitVec 32) :=
  ⟨(0, 0), fun _ => 0⟩

namespace Ctrl

section serves

variable {s : Ctrl buffered.width} {i : Inputs buffered.width} {d : Device}
  {mem : BitVec 32 → Fin 16 → BitVec 16} {c : Cache (BitVec 14 × BitVec 5) (Fin 8) (BitVec 32)}
  {x : BitVec 32}

/-- The tag and the line buffer. -/
def cache {w : ℕ} (s : Ctrl w) : Cache (BitVec 14 × BitVec 5) (Fin 8) (BitVec 32) :=
  ⟨s.lineTag, s.core.buffer⟩

/-- The read or the write of `x` the controller is at work for. -/
def present {w : ℕ} (s : Ctrl w) (x : BitVec 32) : Access (BitVec w) (BitVec 32) :=
  if s.core.row then .read s.pads.capturedS0Address else .write s.pads.capturedS0Address x

theorem decoded_eq (h : s.core.rdTmp = true) :
    s.decoded buffered = addrDecode s.pads.capturedS0Address true false := by
  simp only [decoded, buffered, BitVec.setWidth_eq, addrDecode, h]

theorem bufSel_eq : s.bufSel buffered =
    buffered.wordSel (addrDecode s.pads.capturedS0Address true false).bufferAddr := by
  simp only [bufSel, decoded, buffered, BitVec.setWidth_eq, addrDecode]

variable (mem) in
theorem readWord_eq : s.core.readWord (s.bufSel buffered) =
    (lineGeometry mem).word s.pads.capturedS0Address s.core.buffer := by
  rw [bufSel_eq]
  simp only [Core.readWord, Geometry.word, lineGeometry]
  cases buffered.wordSel (addrDecode s.pads.capturedS0Address true false).bufferAddr <;> rfl

variable (mem) in
theorem writeWord_eq : s.core.writeWord (s.bufSel buffered) x =
    (lineGeometry mem).update s.core.buffer (.write s.pads.capturedS0Address x) := by
  rw [bufSel_eq]
  simp only [Core.writeWord, Geometry.update, lineGeometry]
  cases buffered.wordSel (addrDecode s.pads.capturedS0Address true false).bufferAddr <;> rfl

variable (mem) in
theorem bufferHit_cache : s.bufferHit buffered = true ↔
    s.cache.tag = (lineGeometry mem).tag s.pads.capturedS0Address :=
  bufferHit_iff

/-- An access under way, with the cache `c` before it and the data `x` of a write, by the state
the controller is in. -/
def Serves (mem : BitVec 32 → Fin 16 → BitVec 16)
    (c : Cache (BitVec 14 × BitVec 5) (Fin 8) (BitVec 32)) (x : BitVec 32)
    (s : Ctrl buffered.width) : Prop :=
  match s.core.state with
  | .rdmem2 => s.lineTag = c.tag ∧ c.tag ≠ addressTag s.pads.capturedS0Address ∧
    Fetch s.rdmem s.core.buffer (halves mem (command buffered s))
  | .rdmem1 => s.core.row = true ∧ s.cache = c.load (lineGeometry mem) s.pads.capturedS0Address
  | .wrmem1 => s.core.row = false ∧ s.lineTag = c.tag ∧
    s.core.buffer = (c.load (lineGeometry mem) s.pads.capturedS0Address).line
  | .wrmem2 => s.core.row = false ∧ s.core.buffer =
    (c.access (lineGeometry mem) (.write s.pads.capturedS0Address x)).line
  | .accdly => s.core.row = false ∧
    s.cache = c.access (lineGeometry mem) (.write s.pads.capturedS0Address x)
  | .idle | .rdreg | .wrreg => True

/-- What `IDLE` goes to, with the direction. -/
theorem dispatch_row {hit : Bool} (he : s.core.edges.regrRise = false)
    (he' : s.core.edges.regwRise = false) (hst : s.core.dispatch hit ≠ .idle) :
    s.core.dispatch hit = .rdmem1 ∧ hit = true ∧ s.core.dispatchRow = true ∨
      s.core.dispatch hit = .wrmem1 ∧ hit = true ∧ s.core.dispatchRow = false ∨
        s.core.dispatch hit = .rdmem2 ∧ hit = false := by
  unfold Core.dispatch Core.dispatchRow at *
  cases hit <;> cases hr : s.core.edges.memrRise <;> cases hw : s.core.edges.memwRise <;>
    simp_all

section step

variable (hr : i.rst = false) (hkeep : s.core.state ≠ .idle ∨
  (s.step buffered i).core.state ≠ .idle →
    (s.step buffered i).pads.capturedS0Address = s.pads.capturedS0Address)
include hr hkeep

variable (mem) in
/-- The clock that accepts an access. -/
theorem serves_enter (hs : s.Inv) (hidle : s.core.state = .idle)
    (he : s.core.edges.regrRise = false) (he' : s.core.edges.regwRise = false)
    (hst : (s.step buffered i).core.state ≠ .idle) :
    Serves mem s.cache x (s.step buffered i) := by
  have hcore := coreStep_eq_registers (s := s) (i := i) hr
  have hnext : (s.step buffered i).core.state = s.core.dispatch (s.bufferHit buffered) := by
    simp only [step_core, hcore, registers, hidle]
  have hrow : (s.step buffered i).core.row = s.core.dispatchRow := by
    simp only [step_core, hcore, registers, hidle, if_true]
  have hcache : (s.step buffered i).cache = s.cache := by
    simp only [cache, lineTag, step_core, hcore, registers, hidle]
  have hcaptured := hkeep (.inr hst)
  have hhit := bufferHit_cache mem (s := s)
  have hrest := hs.idle (i := i) .rdmem (by simp [hidle])
  rcases dispatch_row he he' (hnext ▸ hst) with ⟨hd, hh, hw⟩ | ⟨hd, hh, hw⟩ | ⟨hd, hh⟩
  · rw [Serves, hnext, hd, hcaptured, Cache.load_of_hit (hhit.1 hh)]
    exact ⟨hrow.trans hw, hcache⟩
  · rw [Serves, hnext, hd, hcaptured, Cache.load_of_hit (hhit.1 hh)]
    exact ⟨hrow.trans hw, congrArg Cache.tag hcache, congrArg Cache.line hcache⟩
  · rw [Serves, hnext, hd, hcaptured]
    refine ⟨congrArg Cache.tag hcache, fun htag => ?_, fetch_of_idle (hs.rdmem.step _) hrest _ _⟩
    simp [hhit.2 htag] at hh

/-- `RDMEM2` : the line of the captured address is fetched. -/
theorem Serves.step_rdmem2 (h : Serves mem c x s) (hs : s.Inv) (hc : CommandInv buffered s d)
    (hst : s.core.state = .rdmem2)
    (hd : s.rdmem.state = .run → 16 ≤ s.rdmem.counter.toNat → s.rdmem.counter.toNat < 32 →
      d.ca.msb = true → i.dataout = halves mem d.ca (s.rdmem.counter.toNat - 16)) :
    Serves mem c x (s.step buffered i) := by
  have hcore := coreStep_eq_registers (s := s) (i := i) hr
  have hnext : (s.step buffered i).core.state =
      if s.rdmem.stmEnd then if s.core.row then .rdmem1 else .wrmem1 else .rdmem2 := by
    simp only [step_core, hcore, registers, hst]
  have hcaptured := hkeep (.inl (by simp [hst]))
  obtain ⟨htag, hmiss, hf⟩ : s.lineTag = c.tag ∧ c.tag ≠ addressTag s.pads.capturedS0Address ∧
      Fetch s.rdmem s.core.buffer (halves mem (command buffered s)) := by
    simpa only [Serves, hst] using h
  cases he : s.rdmem.stmEnd
  case false =>
    have hkeepTag := lineTag_keep (i := i) hr (s := s) (by simp [LoadsTag, Fills, hst, he])
    rw [he] at hnext
    rw [Serves, hnext]
    refine ⟨hkeepTag.trans htag, hcaptured ▸ hmiss, ?_⟩
    exact hc.fetch_step hs hr (fun hne => hkeep (.inl hne)) (f := halves mem) hf hd
  case true =>
    have htmp := hs.tmp .rdmem (hs.end_start .rdmem hst he)
    obtain ⟨hbuffer, hall⟩ := hs.fetch_end (i := i) hr hst he hf
    have hload : c.load (lineGeometry mem) s.pads.capturedS0Address = _ :=
      Cache.load_of_miss hmiss
    have hline : s.core.buffer = (c.load (lineGeometry mem) s.pads.capturedS0Address).line := by
      rw [hload]
      funext k
      rw [hall k, command, decoded_eq htmp]
      rfl
    have hrow' : (s.step buffered i).core.row = s.core.row := by simp [hcore, registers, hst]
    cases hrow : s.core.row
    case true =>
      have htag' := lineTag_load (i := i) hr (s := s) (.inl ⟨⟨hst, he⟩, hrow⟩)
      rw [he, hrow] at hnext
      rw [Serves, hnext]
      refine ⟨hrow'.trans hrow, Cache.ext ?_ ?_⟩
      · rw [Cache.load_tag, hcaptured]
        exact htag'
      · rw [hcaptured, ← hline]
        exact hbuffer
    case false =>
      have htag' := lineTag_keep (i := i) hr (s := s) (by simp [LoadsTag, hrow, hst])
      rw [he, hrow] at hnext
      rw [Serves, hnext]
      exact ⟨hrow'.trans hrow, htag'.trans htag, by rw [hbuffer, hcaptured, hline]⟩

/-- `WRMEM1` : a miss goes on to the line write with the word in the buffer. -/
theorem Serves.step_wrmem1 (h : Serves mem c x s) (hst : s.core.state = .wrmem1)
    (hx : i.s0Writedata = x) (hgo : (s.step buffered i).core.state ≠ .idle) :
    Serves mem c x (s.step buffered i) := by
  have hcore := coreStep_eq_registers (s := s) (i := i) hr
  have hcaptured := hkeep (.inl (by simp [hst]))
  have hnext : (s.step buffered i).core.state = .wrmem2 := by
    simp only [step_core, hcore, registers, hst] at hgo ⊢
    split_ifs at hgo ⊢
    · exact absurd rfl hgo
    · rfl
  obtain ⟨hrow, -, hline⟩ : s.core.row = false ∧ s.lineTag = c.tag ∧
      s.core.buffer = (c.load (lineGeometry mem) s.pads.capturedS0Address).line := by
    simpa only [Serves, hst] using h
  rw [Serves, hnext]
  refine ⟨by simp [hcore, registers, hst, hrow], ?_⟩
  have hbuffer : (s.step buffered i).core.buffer =
      s.core.writeWord (s.bufSel buffered) i.s0Writedata := by
    simp only [step_core, hcore, registers, hst]
  rw [hbuffer, hx, writeWord_eq mem, hline, hcaptured]
  rfl

/-- `WRMEM2` : the tag is loaded at the end of the line write. -/
theorem Serves.step_wrmem2 (h : Serves mem c x s) (hst : s.core.state = .wrmem2) :
    Serves mem c x (s.step buffered i) := by
  have hcore := coreStep_eq_registers (s := s) (i := i) hr
  have hcaptured := hkeep (.inl (by simp [hst]))
  have hnext : (s.step buffered i).core.state =
      if s.wrmem.stmEnd then .accdly else .wrmem2 := by
    simp only [step_core, hcore, registers, hst]
  obtain ⟨hrow, hline⟩ : s.core.row = false ∧ s.core.buffer =
      (c.access (lineGeometry mem) (.write s.pads.capturedS0Address x)).line := by
    simpa only [Serves, hst] using h
  have hrow' : (s.step buffered i).core.row = false := by simp [hcore, registers, hst, hrow]
  have hbuffer : (s.step buffered i).core.buffer = s.core.buffer := by
    simp [hcore, registers, hst]
  cases he : s.wrmem.stmEnd
  case false =>
    rw [he] at hnext
    rw [Serves, hnext]
    exact ⟨hrow', by rw [hbuffer, hcaptured, hline]⟩
  case true =>
    have htag := lineTag_load (i := i) hr (s := s) (.inr ⟨hst, he⟩)
    rw [he] at hnext
    rw [Serves, hnext]
    refine ⟨hrow', Cache.ext ?_ ?_⟩
    · rw [hcaptured]
      exact htag
    · rw [hcaptured, ← hline]
      exact hbuffer

/-- A clock of `ACCDLY` that stays. -/
theorem Serves.step_accdly (h : Serves mem c x s) (hst : s.core.state = .accdly)
    (hgo : (s.step buffered i).core.state ≠ .idle) : Serves mem c x (s.step buffered i) := by
  have hcore := coreStep_eq_registers (s := s) (i := i) hr
  have hcaptured := hkeep (.inl (by simp [hst]))
  have hnext : (s.step buffered i).core.state = .accdly := by
    simp only [step_core, hcore, registers, hst] at hgo ⊢
    split_ifs at hgo ⊢
    · exact absurd rfl hgo
    · rfl
  obtain ⟨hrow, hcache⟩ : s.core.row = false ∧
      s.cache = c.access (lineGeometry mem) (.write s.pads.capturedS0Address x) := by
    simpa only [Serves, hst] using h
  rw [Serves, hnext]
  refine ⟨by simp [hcore, registers, hst, hrow], ?_⟩
  rw [hcaptured, ← hcache]
  simp only [cache, lineTag, step_core, hcore, registers, hst]

/-- A clock that stays at work. -/
theorem Serves.step (h : Serves mem c x s) (hs : s.Inv) (hc : CommandInv buffered s d)
    (hidle : s.core.state ≠ .idle)
    (hcsr : s.core.state ≠ .rdreg ∧ s.core.state ≠ .wrreg) (hx : i.s0Writedata = x)
    (hd : s.rdmem.state = .run → 16 ≤ s.rdmem.counter.toNat → s.rdmem.counter.toNat < 32 →
      d.ca.msb = true → i.dataout = halves mem d.ca (s.rdmem.counter.toNat - 16))
    (hgo : (s.step buffered i).core.state ≠ .idle) : Serves mem c x (s.step buffered i) := by
  cases hst : s.core.state
  case idle => exact absurd hst hidle
  case rdreg => exact absurd hst hcsr.1
  case wrreg => exact absurd hst hcsr.2
  case rdmem1 =>
    refine absurd ?_ hgo
    simp only [step_core, coreStep_eq_registers hr, registers, hst]
  case wrmem1 => exact h.step_wrmem1 hr hkeep hst hx hgo
  case rdmem2 => exact h.step_rdmem2 hr hkeep hs hc hst hd
  case wrmem2 => exact h.step_wrmem2 hr hkeep hst
  case accdly => exact h.step_accdly hr hkeep hst hgo

omit hkeep in
/-- `RDMEM1` : the read is answered with the word of the cache. -/
theorem Serves.finish_rdmem1 (h : Serves mem c x s) (hst : s.core.state = .rdmem1) :
    (s.step buffered i).cache = c.access (lineGeometry mem) (s.present x) ∧
      (s.step buffered i).core.s0Readdata =
        c.read (lineGeometry mem) s.pads.capturedS0Address := by
  have hcore := coreStep_eq_registers (s := s) (i := i) hr
  obtain ⟨hrow, hcache⟩ : s.core.row = true ∧
      s.cache = c.load (lineGeometry mem) s.pads.capturedS0Address := by
    simpa only [Serves, hst] using h
  have hdata : (s.step buffered i).core.s0Readdata = s.core.readWord (s.bufSel buffered) := by
    simp only [step_core, hcore, registers, hst, if_true]
  refine ⟨?_, ?_⟩
  · rw [present, if_pos hrow, Cache.access_read, ← hcache]
    simp only [cache, lineTag, step_core, hcore, registers, hst]
  · rw [hdata, readWord_eq mem, Cache.read, ← hcache]
    rfl

omit hkeep in
/-- `WRMEM1` : a hit is written in the buffer. -/
theorem Serves.finish_wrmem1 (h : Serves mem c x s) (hst : s.core.state = .wrmem1)
    (hx : i.s0Writedata = x) (hgo : (s.step buffered i).core.state = .idle) :
    s.core.row = false ∧
      (s.step buffered i).cache = c.access (lineGeometry mem) (s.present x) := by
  have hcore := coreStep_eq_registers (s := s) (i := i) hr
  obtain ⟨hrow, htag, hline⟩ : s.core.row = false ∧ s.lineTag = c.tag ∧
      s.core.buffer = (c.load (lineGeometry mem) s.pads.capturedS0Address).line := by
    simpa only [Serves, hst] using h
  have hhit : s.bufferHit buffered = true := by
    simp only [step_core, hcore, registers, hst] at hgo
    split_ifs at hgo with hhit
    exact hhit
  have htag' := lineTag_keep (i := i) hr (s := s) (by simp [LoadsTag, Fills, hst])
  have hbuffer : (s.step buffered i).core.buffer =
      s.core.writeWord (s.bufSel buffered) i.s0Writedata := by
    simp only [step_core, hcore, registers, hst]
  rw [present, if_neg (by simp [hrow])]
  refine ⟨hrow, Cache.ext (htag'.trans (bufferHit_iff.1 hhit)) ?_⟩
  show (s.step buffered i).core.buffer = _
  rw [hbuffer, hx, writeWord_eq mem, hline]
  rfl

omit hkeep in
/-- The clock that ends the access : the cache has served it, and a read is answered with the
word of the cache. -/
theorem Serves.finish (h : Serves mem c x s) (hidle : s.core.state ≠ .idle)
    (hcsr : s.core.state ≠ .rdreg ∧ s.core.state ≠ .wrreg) (hx : i.s0Writedata = x)
    (hgo : (s.step buffered i).core.state = .idle) :
    (s.step buffered i).cache = c.access (lineGeometry mem) (s.present x) ∧
      (s.core.row = true → s.core.state = .rdmem1 ∧ (s.step buffered i).core.s0Readdata =
        c.read (lineGeometry mem) s.pads.capturedS0Address) := by
  have hcore := coreStep_eq_registers (s := s) (i := i) hr
  cases hst : s.core.state
  case idle => exact absurd hst hidle
  case rdreg => exact absurd hst hcsr.1
  case wrreg => exact absurd hst hcsr.2
  case rdmem2 =>
    simp only [step_core, hcore, registers, hst] at hgo
    split_ifs at hgo
  case wrmem2 =>
    simp only [step_core, hcore, registers, hst] at hgo
    split_ifs at hgo
  case rdmem1 =>
    obtain ⟨hcache, hdata⟩ := h.finish_rdmem1 hr hst
    exact ⟨hcache, fun _ => ⟨rfl, hdata⟩⟩
  case wrmem1 =>
    obtain ⟨hrow, hcache⟩ := h.finish_wrmem1 hr hst hx hgo
    exact ⟨hcache, by simp [hrow]⟩
  case accdly =>
    obtain ⟨hrow, hcache⟩ : s.core.row = false ∧
        s.cache = c.access (lineGeometry mem) (.write s.pads.capturedS0Address x) := by
      simpa only [Serves, hst] using h
    refine ⟨?_, by simp [hrow]⟩
    rw [present, if_neg (by simp [hrow]), ← hcache]
    simp only [cache, lineTag, step_core, hcore, registers, hst]

end step

end serves

/-! ## Along a run -/

namespace Run

section issued

variable {v : Variant} (r : Ctrl.Run v)

/-- The access issued in cycle `t`. -/
def access (t : ℕ) : Option (Access (BitVec v.width) (BitVec 32)) :=
  if Rising (Run.port r .s0Read) t then some (.read (r.input t).s0Address)
  else if Rising (Run.port r .s0Write) t then
    some (.write (r.input t).s0Address (r.input t).s0Writedata)
  else none

/-- The accesses issued before cycle `t`, in order. -/
def issued (t : ℕ) : List (Access (BitVec v.width) (BitVec 32)) :=
  log (fun u => (Run.access r u).toList) t

/-- The device answers a read command with the halfwords of the selected line, in order. -/
def Supplies (d : Device) : Prop :=
  ∀ t, (r.state t).rdmem.state = .run → 16 ≤ (r.state t).rdmem.counter.toNat →
    (r.state t).rdmem.counter.toNat < 32 → (Run.device r d t).ca.msb = true →
      (r.input t).dataout = halves (Run.device r d t).mem (Run.device r d t).ca
        ((r.state t).rdmem.counter.toNat - 16)

/-- The read issued in cycle `t` is answered in cycle `u`. -/
structure Returns (t u : ℕ) : Prop where
  read : Rising (Run.port r .s0Read) t
  lt : t < u
  valid : (r.state u).core.s0Readdatavalid = true
  alone : ∀ x, t < x → x < u → ¬Run.Issues r x

variable {r}

theorem access_of_not_issues {t : ℕ} (h : ¬Run.Issues r t) : Run.access r t = none := by
  rw [Run.Issues, not_or] at h
  rw [access, if_neg h.1, if_neg h.2]

theorem issued_succ (t : ℕ) :
    Run.issued r (t + 1) = Run.issued r t ++ (Run.access r t).toList :=
  log_succ _ t

/-- Cycles without a request issue nothing. -/
theorem issued_eq_of_quiet {a b : ℕ} (hab : a ≤ b)
    (h : ∀ u, a ≤ u → u < b → ¬Run.Issues r u) : Run.issued r b = Run.issued r a :=
  log_eq_of_quiet hab fun u hau hub => by rw [access_of_not_issues (h u hau hub)]; rfl

/-- At work, `present` is the access that was issued. -/
theorem OneAtATime.access_eq (h : Run.OneAtATime r) {t u : ℕ} (ht : Run.Issues r t)
    (htu : t + 2 ≤ u) (hbusy : ∀ x, t + 2 ≤ x → x < u → (r.state x).core.state ≠ .idle) :
    Run.access r t = some ((r.state u).present (r.input t).s0Writedata) := by
  have hrow := h.row_eq ht u htu hbusy
  have hcaptured := h.captured_eq ht u (by omega) hbusy
  unfold access present
  rw [hcaptured]
  by_cases hread : Rising (Run.port r .s0Read) t
  · rw [if_pos hread, if_pos (hrow.2 hread)]
  · have hwrite : Rising (Run.port r .s0Write) t := ht.resolve_left hread
    rw [if_neg hread, if_pos hwrite, if_neg fun hr => hread (hrow.1 hr)]

/-- While a request is under way no other one is issued. -/
theorem OneAtATime.issued_eq (h : Run.OneAtATime r) {t u : ℕ} (ht : Run.Issues r t)
    (hu : Run.UnderWay r t u) : Run.issued r u = Run.issued r (t + 1) :=
  issued_eq_of_quiet hu.1 fun x htx hxu =>
    (h.held t x ht ⟨htx, fun y hy hyx => hu.2 y hy (by omega)⟩).1

end issued

section cached

variable {r : Ctrl.Run buffered} (h : Run.OneAtATime r)
include h

/-- Held requests lose no hit. -/
theorem OneAtATime.not_losesHit (t : ℕ) : ¬LosesHit (r.state t) (r.state (t + 1)) := by
  rintro ⟨hacc, hhit, hmiss⟩
  have hidle := accepts_idle hacc
  have hnext : (r.state (t + 1)).core.state = .wrmem1 := by
    obtain ⟨hrise, -, hp⟩ := accepts_iff.1 hacc
    have hread : (r.state t).core.edges.memrRise = false := hp .s0Read (by decide)
    rw [r.clock, step_core, coreStep_eq_registers (h.rst t)]
    simp only [registers, hidle, Core.dispatch, h.regrRise_eq, h.regwRise_eq, hread, hhit]
    simp only [Request.rise] at hrise
    simp [hrise]
  have hcaptured := h.captured_step (u := t) (.inr (by simp [hnext]))
  have htag : (r.state (t + 1)).lineTag = (r.state t).lineTag := by
    rw [r.clock]
    exact lineTag_keep (h.rst t) (by simp [LoadsTag, Fills, hidle])
  rw [Bool.eq_false_iff, Ne, bufferHit_iff, htag, hcaptured, ← bufferHit_iff] at hmiss
  exact hmiss hhit

/-- An accepted access takes the controller to work. -/
theorem OneAtATime.not_idle_of_issues {t : ℕ} (ht : Run.Issues r t) :
    (r.state (t + 2)).core.state ≠ .idle := by
  have hidle := h.idle_succ ht
  rw [r.clock, step_core, coreStep_eq_registers (h.rst (t + 1))]
  simp only [registers, hidle, Core.dispatch, h.regrRise_eq, h.regwRise_eq]
  have hrise : (r.state (t + 1)).core.edges.memrRise = true ∨
      (r.state (t + 1)).core.edges.memwRise = true := by
    rcases ht with ht | ht
    · exact .inl ((rise_succ h.rst .s0Read t).2 ht)
    · exact .inr ((rise_succ h.rst .s0Write t).2 ht)
  cases hr : (r.state (t + 1)).core.edges.memrRise <;>
    cases hw : (r.state (t + 1)).core.edges.memwRise <;>
      cases hh : (r.state (t + 1)).bufferHit buffered <;> simp_all

/-- A clock that stays in `IDLE` accepts nothing. -/
theorem OneAtATime.issued_of_idle {u : ℕ} (hgo : (r.state (u + 1)).core.state = .idle) :
    Run.issued r u = Run.issued r (u - 1) :=
  issued_eq_of_quiet (by omega) fun x hx hxu hissues => by
    obtain rfl : u = x + 1 := by omega
    exact h.not_idle_of_issues hissues hgo

variable {d : Device} (hd : Run.Supplies r d)
include hd

/-- The device answers from the lines it had at reset. -/
theorem OneAtATime.dataout_eq {t : ℕ} (hrun : (r.state t).rdmem.state = .run)
    (h16 : 16 ≤ (r.state t).rdmem.counter.toNat) (h32 : (r.state t).rdmem.counter.toNat < 32)
    (hmsb : (Run.device r d t).ca.msb = true) : (r.input t).dataout =
      halves d.mem (Run.device r d t).ca ((r.state t).rdmem.counter.toNat - 16) := by
  rw [hd t hrun h16 h32 hmsb, Run.device_mem_eq r d fun u _ => h.not_losesHit u]

/-- In `IDLE` the accesses issued until two cycles before are served, at work the access under
way is served on top of those before it. -/
theorem cached : ∀ u,
    ((r.state u).core.state = .idle → (r.state u).cache =
      coldCache.run (lineGeometry d.mem) (Run.issued r (u - 1))) ∧
    ∀ t, Run.Issues r t → t + 2 ≤ u → Run.UnderWay r t u →
      Serves d.mem (coldCache.run (lineGeometry d.mem) (Run.issued r t)) (r.input t).s0Writedata
        (r.state u)
  | 0 => by
    refine ⟨fun _ => ?_, fun t _ htu _ => by omega⟩
    simp only [cache, lineTag, (AfterReset.idle r.start).1, Core.reset]
    rfl
  | u + 1 => by
    obtain ⟨hidle, hserves⟩ := cached u
    have hkeep : (r.state u).core.state ≠ .idle ∨
        ((r.state u).step buffered (r.input u)).core.state ≠ .idle →
          ((r.state u).step buffered (r.input u)).pads.capturedS0Address =
            (r.state u).pads.capturedS0Address := by
      rw [← r.clock]
      exact h.captured_step
    constructor
    · intro hgo
      by_cases hst : (r.state u).core.state = .idle
      · have hcache : (r.state (u + 1)).cache = (r.state u).cache := by
          rw [r.clock]
          simp only [cache, lineTag, step_core, coreStep_eq_registers (h.rst u), registers, hst]
        rw [hcache, hidle hst, Nat.add_sub_cancel, h.issued_of_idle hgo]
      · obtain ⟨t, ht, htu, hway⟩ := h.exists_issues hst
        have hheld := h.held t u ht hway
        have hbusy : ∀ x, t + 2 ≤ x → x < u → (r.state x).core.state ≠ .idle :=
          fun x hx hxu => hway.2 x hx hxu.le
        rw [r.clock] at hgo
        have hfinish := ((hserves t ht htu hway).finish (h.rst u) hst (h.state_ne u)
          hheld.2.2 hgo).1
        rw [r.clock, hfinish, Nat.add_sub_cancel, h.issued_eq ht hway, issued_succ,
          h.access_eq ht htu hbusy, Option.toList_some, Cache.run_concat]
    · intro t ht htu hway
      have hgo := hway.2 (u + 1) htu le_rfl
      rw [r.clock] at hgo ⊢
      rcases Nat.lt_or_ge u (t + 2) with hlt | hge
      · obtain rfl : u = t + 1 := by omega
        have hst := h.idle_succ ht
        have henter := serves_enter (x := (r.input t).s0Writedata) d.mem (h.rst (t + 1))
          hkeep (r.inv _) hst (h.regrRise_eq _) (h.regwRise_eq _) hgo
        rwa [hidle hst, Nat.add_sub_cancel] at henter
      · have hway' : Run.UnderWay r t u := ⟨by omega, fun x hx hxu => hway.2 x hx (by omega)⟩
        exact (hserves t ht hge hway').step (h.rst u) hkeep (r.inv u) (commandInv h d u)
          (hway'.2 u hge le_rfl) (h.state_ne u) (h.held t u ht hway').2.2 (h.dataout_eq hd) hgo

/-- The clock after which a read under way is answered. -/
theorem answered {t u : ℕ} (ht : Run.Issues r t) (htu : t + 2 ≤ u)
    (hway : Run.UnderWay r t u) (hread : Rising (Run.port r .s0Read) t)
    (hgo : (r.state (u + 1)).core.state = .idle) :
    Run.Returns r t (u + 1) ∧ (r.state (u + 1)).core.s0Readdata =
      (coldCache.run (lineGeometry d.mem) (Run.issued r t)).read (lineGeometry d.mem)
        (r.input t).s0Address := by
  have hbusy : ∀ x, t + 2 ≤ x → x < u → (r.state x).core.state ≠ .idle :=
    fun x hx hxu => hway.2 x hx hxu.le
  have hserves := (cached h hd u).2 t ht htu hway
  rw [r.clock] at hgo
  have hfinish := (hserves.finish (h.rst u) (hway.2 u htu le_rfl) (h.state_ne u)
    (h.held t u ht hway).2.2 hgo).2 ((h.row_eq ht u htu hbusy).2 hread)
  obtain ⟨hst, hdata⟩ := hfinish
  rw [h.captured_eq ht u (by omega) hbusy] at hdata
  refine ⟨⟨hread, by omega, ?_, fun x htx hxu => ?_⟩, by rw [r.clock]; exact hdata⟩
  · have hserved := (r.inv u).served_s0Read_step (i := r.input u) (h.rst u)
    rw [← r.clock] at hserved
    exact hserved.trans (decide_eq_true hst)
  · exact (h.held t x ht ⟨htx, fun y hy hyx => hway.2 y hy (by omega)⟩).1

/-- Every answer belongs to a read. -/
theorem exists_returns {u : ℕ} (hv : (r.state u).core.s0Readdatavalid = true) :
    ∃ t, Run.Returns r t u ∧ (r.state u).core.s0Readdata =
      (coldCache.run (lineGeometry d.mem) (Run.issued r t)).read (lineGeometry d.mem)
        (r.input t).s0Address := by
  cases u with
  | zero => simp [(AfterReset.idle r.start).1, Core.reset] at hv
  | succ u =>
    have hst : (r.state u).core.state = .rdmem1 := by
      have hserved := (r.inv u).served_s0Read_step (i := r.input u) (h.rst u)
      rw [← r.clock] at hserved
      exact of_decide_eq_true (hserved.symm.trans hv)
    obtain ⟨t, ht, htu, hway⟩ := h.exists_issues (u := u) (by simp [hst])
    have hserves := (cached h hd u).2 t ht htu hway
    have hrow : (r.state u).core.row = true := by
      rw [Serves, hst] at hserves
      exact hserves.1
    have hread := (h.row_eq ht u htu fun x hx hxu => hway.2 x hx hxu.le).1 hrow
    exact ⟨t, answered h hd ht htu hway hread ((r.inv (u + 1)).readdatavalid hv)⟩

/-- Under a fair device every read is answered. -/
theorem exists_returns_of_rising (hf : Run.RwdsFair r) {t : ℕ}
    (hread : Rising (Run.port r .s0Read) t) :
    ∃ u, Run.Returns r t u ∧ (r.state u).core.s0Readdata =
      (coldCache.run (lineGeometry d.mem) (Run.issued r t)).read (lineGeometry d.mem)
        (r.input t).s0Address := by
  have ht : Run.Issues r t := .inl hread
  obtain ⟨m, hback⟩ := Run.exists_backAfter hf h.rst (h.state_ne (t + 2)).2
  cases m with
  | zero => exact absurd hback.1 (h.not_idle_of_issues ht)
  | succ n =>
    exact ⟨t + 2 + n + 1, answered h hd ht (by omega)
      ⟨by omega, fun x hx hxu => hback.not_before hx (by omega)⟩ hread hback.1⟩

end cached

/-- The buffered controller is the cache of one line over the lines `mem`. -/
structure CachesLine (r : Ctrl.Run buffered) (mem : BitVec 32 → Fin 16 → BitVec 16) : Prop where
  /-- In `IDLE` the tag and the buffer are the cache after the accesses issued until two cycles
  before. One issued in the last cycle is not accepted yet. -/
  idle : ∀ t, (r.state t).core.state = .idle →
    (r.state t).cache = coldCache.run (lineGeometry mem) (Run.issued r (t - 1))
  /-- Every answer is that of the cache after the accesses issued before the read. -/
  answer : ∀ u, (r.state u).core.s0Readdatavalid = true →
    ∃ t, Run.Returns r t u ∧ (r.state u).core.s0Readdata =
      (coldCache.run (lineGeometry mem) (Run.issued r t)).read (lineGeometry mem)
        (r.input t).s0Address

end Run

/-- Under the discipline of one request at a time, and with a device that answers from its lines,
the buffered controller is a cache of one line over the lines at reset. -/
theorem buffered_caches_line {r : Ctrl.Run buffered} (h : Run.OneAtATime r) {d : Device}
    (hd : Run.Supplies r d) : Run.CachesLine r d.mem where
  idle t := (Run.cached h hd t).1
  answer _ hv := Run.exists_returns h hd hv

theorem supplies_dropRun : Run.Supplies dropRun .zero := by
  intro t _ _ _ _
  rw [Run.device_mem_eq dropRun .zero fun u _ => oneAtATime_dropRun.not_losesHit u]
  rfl

/-- The refinement in the run of `readWriteRead`. -/
theorem buffered_caches_line_dropRun : Run.CachesLine dropRun Device.zero.mem :=
  buffered_caches_line oneAtATime_dropRun supplies_dropRun

/-- Under a fair device every read is answered, with the word last stored to its place by the
accesses since the line was loaded, or the word the line was loaded with. Words stored before
are lost. -/
theorem buffered_read_last_stored {r : Ctrl.Run buffered} (h : Run.OneAtATime r) {d : Device}
    (hd : Run.Supplies r d) (hf : Run.RwdsFair r) {t : ℕ}
    (hread : Rising (Run.port r .s0Read) t) :
    let g := lineGeometry d.mem
    let a := (r.input t).s0Address
    let before := Run.issued r t
    ∃ u, Run.Returns r t u ∧ (r.state u).core.s0Readdata = g.word a fun k =>
      g.lastStored (Cache.resident g before a) k (coldCache.loaded g before a k) := by
  obtain ⟨u, hu, hdata⟩ := Run.exists_returns_of_rising h hd hf hread
  exact ⟨u, hu, hdata.trans (Cache.read_run_eq _ _)⟩

theorem rwdsFair_dropRun : Run.RwdsFair dropRun :=
  fun _ _ => ⟨0, rfl⟩

/-- The read of address `64` in `readWriteRead` is answered from the device. -/
theorem buffered_read_last_stored_dropRun :
    ∃ u, Run.Returns dropRun 80 u ∧ (dropRun.state u).core.s0Readdata = 0 := by
  obtain ⟨u, hu, hdata⟩ := buffered_read_last_stored oneAtATime_dropRun supplies_dropRun
    rwdsFair_dropRun (t := 80) (by decide +kernel)
  refine ⟨u, hu, hdata.trans ?_⟩
  decide +kernel

/-! ## Accesses to one line -/

section line

variable {mem : BitVec 32 → Fin 16 → BitVec 16} {a b : BitVec 32}

theorem addressTag_of_line (h : a.toNat / 32 = b.toNat / 32) : addressTag a = addressTag b := by
  rw [Prod.ext_iff, ← BitVec.toNat_inj, ← BitVec.toNat_inj, rowId_toNat, rowId_toNat,
    pageId_toNat, pageId_toNat]
  omega

variable (mem) in
/-- Addresses of one line fetch one line. -/
theorem fetch_of_line (h : a.toNat / 32 = b.toNat / 32) :
    (lineGeometry mem).fetch a = (lineGeometry mem).fetch b := by
  have hcolumn : upperColumn a = upperColumn b := by
    rw [← BitVec.toNat_inj, upperColumn_toNat, upperColumn_toNat, h]
  simp only [lineGeometry, addrDecode, hcolumn]

variable (mem) in
/-- An aligned address has the place of its word. -/
theorem place_of_aligned (ha : a.toNat % 4 = 0) :
    (lineGeometry mem).place a = some ⟨a.toNat % 32 / 4, by omega⟩ := by
  have hlow : (addrDecode a true false).bufferAddr.toNat = a.toNat % 32 := by
    simp only [addrDecode, BitVec.extractLsb'_toNat, Nat.shiftRight_zero]
  show buffered.wordSel (addrDecode a true false).bufferAddr = _
  rw [buffered_wordSel, if_pos (by omega)]
  simp only [hlow]

/-- On one line an aligned address is stored to at its place only. -/
theorem storedAt_of_line {x : Access (BitVec 32) (BitVec 32)} (ha : a.toNat % 4 = 0)
    (hx : x.addr.toNat % 4 = 0) (hline : x.addr.toNat / 32 = a.toNat / 32) :
    (lineGeometry mem).storedAt ⟨a.toNat % 32 / 4, by omega⟩ x = x.writtenAt a := by
  cases x with
  | read b => rfl
  | write b y =>
    simp only [Access.addr] at hx hline
    have hplace := place_of_aligned mem hx
    have hstored : (lineGeometry mem).stored b y = (⟨b.toNat % 32 / 4, by omega⟩, y) := by
      simp only [lineGeometry] at hplace ⊢
      rw [hplace]
      rfl
    have hiff : b.toNat % 32 / 4 = a.toNat % 32 / 4 ↔ b = a := by
      rw [← BitVec.toNat_inj]
      omega
    simp only [Geometry.storedAt, Access.writtenAt, hstored, Fin.mk.injEq, hiff]

end line

/-- An issued access is of an issued address. -/
theorem Run.addr_of_mem_issued {v : Variant} {r : Ctrl.Run v} {t : ℕ}
    {x : Access (BitVec v.width) (BitVec 32)} (hx : x ∈ Run.issued r t) :
    ∃ u, Run.Issues r u ∧ x.addr = (r.input u).s0Address := by
  obtain ⟨u, -, hu⟩ := List.mem_flatMap.1 hx
  rw [Option.mem_toList] at hu
  unfold Run.access at hu
  split_ifs at hu with hread hwrite
  · exact ⟨u, .inl hread, by rw [← Option.some.inj hu]; rfl⟩
  · exact ⟨u, .inr hwrite, by rw [← Option.some.inj hu]; rfl⟩

/-- On the aligned addresses of one line the buffered controller is a flat memory. It starts with
the words of the line in the device, the line of the reset tag with zeros. -/
theorem buffered_flat_on_line {r : Ctrl.Run buffered} (h : Run.OneAtATime r) {d : Device}
    (hd : Run.Supplies r d) (hf : Run.RwdsFair r) {line : ℕ}
    (hline : ∀ t, Run.Issues r t →
      (r.input t).s0Address.toNat % 4 = 0 ∧ (r.input t).s0Address.toNat / 32 = line)
    {t : ℕ} (hread : Rising (Run.port r .s0Read) t) :
    ∃ u, Run.Returns r t u ∧ (r.state u).core.s0Readdata =
      flat (coldCache.read (lineGeometry d.mem)) (Run.issued r t) (r.input t).s0Address := by
  obtain ⟨u, hu, hdata⟩ := Run.exists_returns_of_rising h hd hf hread
  have ha := hline t (.inl hread)
  have hx : ∀ x ∈ Run.issued r t, x.addr.toNat % 4 = 0 ∧
      x.addr.toNat / 32 = (r.input t).s0Address.toNat / 32 := fun x hx => by
    obtain ⟨y, hy, haddr⟩ := Run.addr_of_mem_issued hx
    rw [haddr, ha.2]
    exact hline y hy
  refine ⟨u, hu, hdata.trans (Cache.read_run_flat (fun x h => addressTag_of_line (hx x h).2)
    (fun x h => fetch_of_line d.mem (hx x h).2) (place_of_aligned d.mem ha.1) fun x h => ?_)⟩
  exact storedAt_of_line ha.1 (hx x h).1 (hx x h).2

/-- A read of address `32` in cycle `0`, a write of `5` to address `36` in cycle `60` and a read of
it in cycle `80`. -/
def readBack (t : ℕ) : Inputs buffered.width :=
  { (quiet : Inputs 32) with
    s0Read := t = 0 ∨ t = 80, s0Write := t = 60, s0Writedata := 5
    s0Address := if t < 60 then 32 else 36 }

/-- The run of `readBack` from the cleared registers. -/
def readBackRun : Ctrl.Run buffered :=
  .ofInputs (afterReset_cleared buffered) readBack

theorem oneAtATime_readBackRun : Run.OneAtATime readBackRun := by
  have hread : ∀ t, (readBackRun.input t).s0Read = true → t ∈ [0, 80] := fun t h => by
    simpa using (of_decide_eq_true h : t = 0 ∨ t = 80)
  have hwrite : ∀ t, (readBackRun.input t).s0Write = true → t ∈ [60] := fun t h => by
    simpa using (of_decide_eq_true h : t = 60)
  refine .of_slots hread hwrite (by decide) ?_ (fun _ => ⟨rfl, rfl, rfl⟩) ?_
  · show ∀ t ∈ [0, 80] ++ [60],
      (trace (Ctrl.step buffered) (cleared _) readBack t).core.state = .idle
    decide +kernel
  · intro t _ u htu hnext
    have hsame : u < 60 ↔ t < 60 := by
      have h60 := hnext 60 (by simp)
      omega
    refine ⟨?_, rfl⟩
    simp only [readBackRun, Run.ofInputs, readBack, hsame]

theorem supplies_readBackRun : Run.Supplies readBackRun .zero := by
  intro t _ _ _ _
  rw [Run.device_mem_eq readBackRun .zero fun u _ => oneAtATime_readBackRun.not_losesHit u]
  rfl

/-- The word written in `readBack` is read back. -/
theorem buffered_flat_on_line_readBack :
    ∃ u, Run.Returns readBackRun 80 u ∧ (readBackRun.state u).core.s0Readdata = 5 := by
  have hline : ∀ t, Run.Issues readBackRun t → (readBackRun.input t).s0Address.toNat % 4 = 0 ∧
      (readBackRun.input t).s0Address.toNat / 32 = 1 := by
    intro t _
    simp only [readBackRun, Run.ofInputs, readBack]
    split_ifs <;> decide
  obtain ⟨u, hu, hdata⟩ := buffered_flat_on_line oneAtATime_readBackRun supplies_readBackRun
    (fun t _ => ⟨0, rfl⟩) hline (t := 80) (by decide +kernel)
  refine ⟨u, hu, hdata.trans ?_⟩
  decide +kernel

end Ctrl

end HyperRam
