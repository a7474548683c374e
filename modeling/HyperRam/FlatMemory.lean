import HyperRam.AddressMap
import HyperRam.LineTransfer
import HyperRam.OneAtATime
import HyperRam.Progress

/-!
# The packaged IP as a memory

The purpose of the controller is a flat memory of words, in which a read returns the word last
written to its address (`Run.flatMemory`). Under the discipline of one request at a time, and with a
device that answers read commands from its lines and stores the data of write commands, the packaged
IP is something else : its direction register still says read when the line write is sent, so
no write reaches the device (`device_mem`), and a read returns the word the address map places in
the device (`exists_delivers`).

Two invariants carry that. `ReadOnly` is the command side : commands under way are those of the
captured address and all of them are read commands. `Fetches` is the data side : the fetch of
`LineTransfer` brings the line of the captured address into the buffer, and the buffer keeps it
until the word is taken from it in `RDMEM1`. The captured address of a request is the one it was
issued with, by `OneAtATime`. Under a fair device every read is answered
(`exists_delivers_of_rising`), so there is an answer to speak of.

`ip_flat_iff` says on which request sequences the answers are those of the flat memory, for every
initial content : exactly those whose reads are of addresses for which the flat memory, writes and
all, still has the word that the device had at reset. `writeThenRead` is one that is not.
-/

namespace HyperRam

open Clocked

/-- Halfword `j` of the line a command selects. -/
def halves (mem : BitVec 32 → Fin 16 → BitVec 16) (ca : BitVec 48) (j : ℕ) : BitVec 16 :=
  mem (Device.lineOf ca) (Fin.ofNat 16 j)

/-- The word the address map of the packaged IP places at `a`, `0` where it has none. -/
def placed (mem : BitVec 32 → Fin 16 → BitVec 16) (a : BitVec packaged.width) : BitVec 32 :=
  let d := addrDecode (a.setWidth 32) true false
  match packaged.wordSel d.bufferAddr with
  | some k => lineWord (halves mem d.outAddr) k
  | none => 0

namespace Ctrl

/-! ## Writes do not reach the device -/

section readOnly

variable {s : Ctrl packaged.width} {i : Inputs packaged.width} {d : Device}

/-- Commands under way are those of the captured address, and all of them are read commands. -/
structure ReadOnly (s : Ctrl packaged.width) (d : Device) : Prop where
  command : CommandInv packaged s d
  direction : s.core.state = .rdmem1 ∨ s.core.state = .wrmem1 ∨ s.core.state = .wrmem2 →
    s.core.rdTmp = true
  rwdsOe : s.pads.rwdsOe = true → s.wrmem.bus.stage = .sent ∨ s.wrmem.bus.stage = .done

theorem readOnly_reset (h : AfterReset packaged s) (d : Device) : ReadOnly s d := by
  obtain ⟨hcore, hpads, -⟩ := h.idle
  refine ⟨commandInv_reset h d, ?_, ?_⟩
  · simp [hcore, Core.reset]
  · simp [hpads, Pads.reset]

theorem ReadOnly.step (h : ReadOnly s d) (hs : s.Inv) (hr : i.rst = false)
    (hhold : s.core.state ≠ .idle →
      (s.step packaged i).pads.capturedS0Address = s.pads.capturedS0Address) :
    ReadOnly (s.step packaged i) (d.step s.pads) where
  command := h.command.step hr hhold hs
  direction := by
    rw [step_core, coreStep_eq_registers hr]
    exact hs.direction_step h.direction
  rwdsOe := hs.sent_of_rwdsOe hr

/-- The command a line write sends is a read command. -/
theorem ReadOnly.ca_msb (h : ReadOnly s d) (hs : s.Inv)
    (hst : s.wrmem.bus.stage = .sent ∨ s.wrmem.bus.stage = .done) : d.ca.msb = true := by
  have hne : s.wrmem.state ≠ .idle := fun hidle => by
    have hrest : s.wrmem.bus.stage = .rest := Stage.of_rest_iff.2 hidle
    simp [hrest] at hst
  rw [(h.command.underWay .wrmem (by simp)).ca_eq hst, Ctrl.command, decoded, outAddr_msb]
  exact h.direction (.inr (.inr (hs.active .wrmem hne).1))

theorem ReadOnly.mem_step (h : ReadOnly s d) (hs : s.Inv) : (d.step s.pads).mem = d.mem :=
  Device.step_mem fun ho _ => h.ca_msb hs (h.rwdsOe ho)

end readOnly

/-! ## A fetch brings the line of the captured address -/

section fetch

variable {s : Ctrl packaged.width} {i : Inputs packaged.width} {d : Device}
  {mem : BitVec 32 → Fin 16 → BitVec 16}

/-- The line buffer follows the line of the captured address. -/
structure Fetches (mem : BitVec 32 → Fin 16 → BitVec 16) (s : Ctrl packaged.width) : Prop where
  fetch : Fetch s.rdmem s.core.buffer (halves mem (command packaged s))
  fetched : s.core.state = .rdmem1 → ∀ k, s.core.buffer k =
    lineWord (halves mem (command packaged s)) k
  row : s.core.state = .rdmem1 → s.core.row = true

theorem fetches_reset (h : AfterReset packaged s) (hs : s.Inv) : Fetches mem s := by
  obtain ⟨hcore, -, hidle⟩ := h.idle
  refine ⟨fetch_of_idle hs.rdmem (hidle .rdmem) _ _, ?_, ?_⟩
  · simp [hcore, Core.reset]
  · simp [hcore, Core.reset]

/-- `RDMEM1` is entered from `RDMEM2` of a read, on the completion of the fetch. -/
theorem enters_rdmem1 (hst : (s.registers packaged i).state = .rdmem1) :
    s.core.state = .rdmem2 ∧ s.rdmem.stmEnd = true ∧ s.core.row = true := by
  have hhit : s.bufferHit packaged = false := rfl
  cases hst' : s.core.state <;> simp only [registers, hst', hhit, Core.dispatch] at hst
  case rdmem2 =>
    cases he : s.rdmem.stmEnd
    case false => simp [he] at hst
    case true =>
      cases hrow : s.core.row
      case false => simp [he, hrow] at hst
      case true => exact ⟨rfl, rfl, rfl⟩
  all_goals (try split_ifs at hst) <;> simp_all

section step

variable (h : Fetches mem s) (hs : s.Inv) (hr : i.rst = false)
  (hhold : s.core.state ≠ .idle →
    (s.step packaged i).pads.capturedS0Address = s.pads.capturedS0Address)
include h hs hr hhold

/-- One clock, with a device that answers a read command from its lines. -/
theorem Fetches.step (ho : ReadOnly s d)
    (ha : s.rdmem.state = .run → 16 ≤ s.rdmem.counter.toNat → s.rdmem.counter.toNat < 32 →
      d.ca.msb = true → i.dataout = halves mem d.ca (s.rdmem.counter.toNat - 16)) :
    Fetches mem (s.step packaged i) where
  fetch := ho.command.fetch_step hs hr hhold (f := halves mem) h.fetch ha
  fetched hst k := by
    rw [step_core, coreStep_eq_registers hr] at hst
    obtain ⟨hhome, he, -⟩ := enters_rdmem1 hst
    have htmp := hs.tmp .rdmem (hs.end_start .rdmem hhome he)
    obtain ⟨hbuffer, hall⟩ := hs.fetch_end (i := i) hr hhome he h.fetch
    rw [command_step hr hhold .rdmem (by simp) hhome htmp, hbuffer]
    exact hall k
  row hst := by
    rw [step_core, coreStep_eq_registers hr] at hst ⊢
    obtain ⟨hhome, -, hrow⟩ := enters_rdmem1 hst
    simpa [registers, hhome] using hrow

end step

end fetch

/-! ## Along a run -/

namespace Run

section device

variable (r : Ctrl.Run packaged) (d : Device)

/-- The device answers a read command with the halfwords of the selected line, in order. -/
def Answers : Prop :=
  ∀ t, (r.state t).rdmem.state = .run → 16 ≤ (r.state t).rdmem.counter.toNat →
    (r.state t).rdmem.counter.toNat < 32 → (Run.device r d t).ca.msb = true →
      (r.input t).dataout = halves (Run.device r d t).mem (Run.device r d t).ca
        ((r.state t).rdmem.counter.toNat - 16)

variable {r} (h : Run.OneAtATime r)
include h

theorem readOnly : ∀ t, ReadOnly (r.state t) (Run.device r d t)
  | 0 => readOnly_reset r.start d
  | t + 1 => by
    rw [r.clock]
    refine (readOnly t).step (r.inv t) (h.rst t) fun hne => ?_
    rw [← r.clock]
    exact h.captured_step (.inl hne)

/-- No write reaches the device. -/
theorem device_mem : ∀ t, (Run.device r d t).mem = d.mem
  | 0 => rfl
  | t + 1 => ((readOnly d h t).mem_step (r.inv t)).trans (device_mem t)

variable {d} (ha : Run.Answers r d)
include ha

theorem fetches : ∀ t, Fetches d.mem (r.state t)
  | 0 => fetches_reset r.start (r.inv 0)
  | t + 1 => by
    have hanswer := ha t
    rw [device_mem d h t] at hanswer
    rw [r.clock]
    refine (fetches t).step (r.inv t) (h.rst t) (fun hne => ?_) (readOnly d h t) hanswer
    rw [← r.clock]
    exact h.captured_step (.inl hne)

end device

/-! ## Deliveries -/

section delivers

variable (r : Ctrl.Run packaged)

/-- The read issued in cycle `t` is answered in cycle `u`. -/
structure Delivers (t u : ℕ) : Prop where
  read : Rising (Run.port r .s0Read) t
  lt : t < u
  valid : (r.state u).core.s0Readdatavalid = true
  alone : ∀ x, t < x → x < u → ¬Run.Issues r x

variable {r} {t t' u : ℕ}

/-- An answer belongs to one read. -/
theorem Delivers.unique (h : Delivers r t u) (h' : Delivers r t' u) : t = t' := by
  rcases Nat.lt_trichotomy t t' with hlt | heq | hgt
  · exact absurd (.inl h'.read) (h.alone t' hlt h'.lt)
  · exact heq
  · exact absurd (.inl h.read) (h'.alone t hgt h.lt)

variable (h : Run.OneAtATime r)
include h

theorem alone_of_underWay (ht : Run.Issues r t) (hu : Run.UnderWay r t u) :
    ∀ x, t < x → x < u + 1 → ¬Run.Issues r x := fun x htx hxu =>
  (h.held t x ht ⟨htx, fun y hy hyx => hu.2 y hy (by omega)⟩).1

/-- Every answer belongs to a read, and returns the word the address map places in the
device. -/
theorem exists_delivers {d : Device} (ha : Run.Answers r d)
    (hv : (r.state u).core.s0Readdatavalid = true) :
    ∃ t, Delivers r t u ∧
      (r.state u).core.s0Readdata = placed d.mem (r.input t).s0Address := by
  cases u with
  | zero => simp [(AfterReset.idle r.start).1, Core.reset] at hv
  | succ u =>
    have hst : (r.state u).core.state = .rdmem1 := by
      have hserved := (r.inv u).served_s0Read_step (i := r.input u) (h.rst u)
      rw [← r.clock] at hserved
      exact of_decide_eq_true (hserved.symm.trans hv)
    obtain ⟨t, ht, htu, hway⟩ := h.exists_issues (u := u) (by simp [hst])
    have hbusy : ∀ x, t + 2 ≤ x → x < u → (r.state x).core.state ≠ .idle :=
      fun x hx hxu => hway.2 x hx hxu.le
    have hf := fetches h ha u
    have hread : Rising (Run.port r .s0Read) t := (h.row_eq ht u htu hbusy).1 (hf.row hst)
    refine ⟨t, ⟨hread, by omega, hv, alone_of_underWay h ht hway⟩, ?_⟩
    have hcaptured := h.captured_eq ht u (by omega) hbusy
    have htmp := (readOnly d h u).direction (.inl hst)
    have hdecoded : (r.state u).decoded packaged =
        addrDecode ((r.input t).s0Address.setWidth 32) true false := by
      simp only [decoded, addrDecode, hcaptured, htmp]
    rw [r.clock, step_core, coreStep_eq_registers (h.rst u)]
    simp only [registers, hst, if_true, Core.readWord, bufSel, placed, hdecoded]
    cases packaged.wordSel
      (addrDecode ((r.input t).s0Address.setWidth 32) true false).bufferAddr with
    | none => rfl
    | some k => exact (hf.fetched hst k).trans (by rw [command, hdecoded])

/-- Under a fair device every read is answered. -/
theorem exists_delivers_of_rising (hf : Run.RwdsFair r) (ht : Rising (Run.port r .s0Read) t) :
    ∃ u, Delivers r t u := by
  obtain ⟨n, hn⟩ := Run.exists_backAfter hf h.rst (h.state_ne (t + 2)).2
  have hback : (r.state (t + 2 + n)).core.state = .idle := hn.1
  have hbusy : ∀ x, t + 2 ≤ x → x < t + 2 + n → (r.state x).core.state ≠ .idle :=
    fun x hx hlt => hn.not_before hx hlt
  refine ⟨t + 2 + n, ht, by omega, ?_, ?_⟩
  · by_contra hno
    -- with nothing served the accepted read would still be pending
    have hquiet : Nat.count (fun x => served .s0Read (r.state x) = true)
        (t + 2 + n + 1) =
          Nat.count (fun x => served .s0Read (r.state x) = true) (t + 1 + 1) := by
      refine count_eq_of_quiet (by omega) fun x hx hlt hs => ?_
      rcases Nat.lt_or_ge x (t + 2 + n) with hxu | hxu
      · exact hbusy x hx hxu ((r.inv x).readdatavalid hs)
      · obtain rfl : x = t + 2 + n := by omega
        exact hno hs
    have hafter := Run.served_eq_accepted h.rst hback .s0Read
    have hbefore := Run.served_eq_accepted h.rst (h.idle_succ (.inl ht)) .s0Read
    have hmono : Nat.count (fun x => (r.state x).accepts = some .s0Read) (t + 2) ≤
        Nat.count (fun x => (r.state x).accepts = some .s0Read) (t + 2 + n) :=
      Nat.count_monotone _ (by omega)
    rw [Nat.count_succ _ (t + 1), if_pos (h.accepts_succ (.inl rfl) ht)] at hmono
    omega
  · exact fun x htx hxu => (h.held t x (.inl ht) ⟨htx, fun y hy hyx => hbusy y hy (by omega)⟩).1

end delivers

/-! ## The flat memory -/

section flat

variable (r : Ctrl.Run packaged) (init : BitVec packaged.width → BitVec 32)

/-- The memory before cycle `t` : the initial words and the writes issued so far, in order. -/
def flatMemory : ℕ → BitVec packaged.width → BitVec 32
  | 0 => init
  | t + 1 =>
    if Rising (Run.port r .s0Write) t then
      Function.update (flatMemory t) (r.input t).s0Address (r.input t).s0Writedata
    else flatMemory t

/-- Every answer is the word of the flat memory at the cycle its read was issued. -/
def Flat : Prop :=
  ∀ u, (r.state u).core.s0Readdatavalid = true →
    ∃ t, Delivers r t u ∧
      (r.state u).core.s0Readdata = Run.flatMemory r init t (r.input t).s0Address

end flat

end Run

/-- For every initial content, the packaged IP answers as a flat memory if and only if each
read is of an address whose word of the flat memory is the one its place in the device held at
reset. -/
theorem ip_flat_iff {r : Ctrl.Run packaged} (h : Run.OneAtATime r) {d : Device}
    (ha : Run.Answers r d) (hf : Run.RwdsFair r) (init : BitVec packaged.width → BitVec 32) :
    Run.Flat r init ↔ ∀ t, Rising (Run.port r .s0Read) t →
      placed d.mem (r.input t).s0Address = Run.flatMemory r init t (r.input t).s0Address := by
  constructor
  · intro hflat t ht
    obtain ⟨u, hu⟩ := Run.exists_delivers_of_rising h hf ht
    obtain ⟨x, hx, hplaced⟩ := Run.exists_delivers h ha hu.valid
    obtain ⟨y, hy, hword⟩ := hflat u hu.valid
    obtain rfl : x = t := hx.unique hu
    obtain rfl : y = x := hy.unique hx
    exact hplaced.symm.trans hword
  · intro hplaced u hv
    obtain ⟨t, ht, hword⟩ := Run.exists_delivers h ha hv
    exact ⟨t, ht, hword.trans (hplaced t ht.read)⟩

/-! ## A write that is not read back -/

/-- A write of `5` to address `0` in cycle `0` and a read of it in cycle `120`. -/
def writeThenRead (t : ℕ) : Inputs packaged.width :=
  { quiet with s0Write := t = 0, s0Read := t = 120, s0Writedata := 5 }

theorem read_writeThenRead (t : ℕ) (h : (writeThenRead t).s0Read = true) : t ∈ [120] := by
  simpa using (of_decide_eq_true h : t = 120)

theorem write_writeThenRead (t : ℕ) (h : (writeThenRead t).s0Write = true) : t ∈ [0] := by
  simpa using (of_decide_eq_true h : t = 0)

theorem oneAtATime_writeThenRead : Run.OneAtATime (ipRun writeThenRead) := by
  refine .of_slots read_writeThenRead write_writeThenRead (by decide) ?_
    (fun _ => ⟨rfl, rfl, rfl⟩) fun _ _ _ _ _ => ⟨rfl, rfl⟩
  show ∀ t ∈ [120] ++ [0],
    (trace (Ctrl.step packaged) (cleared _) writeThenRead t).core.state = .idle
  decide +kernel

theorem answers_writeThenRead : Run.Answers (ipRun writeThenRead) Device.zero := by
  intro t _ _ _ _
  rw [Run.device_mem Device.zero oneAtATime_writeThenRead]
  rfl

theorem rwdsFair_writeThenRead : Run.RwdsFair (ipRun writeThenRead) :=
  fun _ _ => ⟨0, rfl⟩

theorem flatMemory_writeThenRead :
    Run.flatMemory (ipRun writeThenRead) (placed Device.zero.mem) 120 0 = 5 := by
  decide +kernel

/-- The equivalence in the run that reads its write back. -/
theorem ip_flat_iff_writeThenRead :
    Run.Flat (ipRun writeThenRead) (placed Device.zero.mem) ↔
      ∀ t, Rising (Run.port (ipRun writeThenRead) .s0Read) t →
        placed Device.zero.mem ((ipRun writeThenRead).input t).s0Address =
          Run.flatMemory (ipRun writeThenRead) (placed Device.zero.mem) t
            ((ipRun writeThenRead).input t).s0Address :=
  ip_flat_iff oneAtATime_writeThenRead answers_writeThenRead rwdsFair_writeThenRead _

/-- The read of `writeThenRead` returns the old word of the device. -/
theorem ip_flat_fails : ¬∀ (r : Ctrl.Run packaged) (d : Device), Run.OneAtATime r →
    Run.Answers r d → Run.RwdsFair r → Run.Flat r (placed d.mem) := by
  intro h
  have hflat := h _ _ oneAtATime_writeThenRead answers_writeThenRead rwdsFair_writeThenRead
  have hread : Rising (Run.port (ipRun writeThenRead) .s0Read) 120 := by decide +kernel
  obtain ⟨u, hu⟩ :=
    Run.exists_delivers_of_rising oneAtATime_writeThenRead rwdsFair_writeThenRead hread
  obtain ⟨x, hx, hplaced⟩ :=
    Run.exists_delivers oneAtATime_writeThenRead answers_writeThenRead hu.valid
  obtain ⟨y, hy, hword⟩ := hflat u hu.valid
  obtain rfl : x = 120 := hx.unique hu
  obtain rfl : y = 120 := hy.unique hu
  have h0 : placed Device.zero.mem 0 = 0 := by decide
  exact absurd (h0.symm.trans (hplaced.symm.trans (hword.trans flatMemory_writeThenRead)))
    (by decide)

end Ctrl

end HyperRam
