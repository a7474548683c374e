import HyperRam.Requests

/-!
# Lost requests

The `s0` and `csr` ports have no wait request : a master takes every request as accepted. The
controller looks at an edge on one clock only, in `IDLE` and behind the edges of higher
priority, and an edge it does not take there is lost (`Ctrl.Lost`, by the registers of the cycle in
which the edge is up).

A request is a pulse on its port. Each edge is accepted or lost, and each accepted request is served
once, so in a cycle without anything under way the pulses are the services and the lost edges
(`Run.pulses_eq`). Such a cycle is one in `IDLE` with no request input up in it or in the two before
(`Quiescent`), as the edge registers are two deep. In it every request was served if and only if no
edge was lost (`ip_allServed_iff`).

`Disciplined` is what the component description promises of the masters, and `ip_allServed_fails`
that this is not enough : a write that comes while the line of a read is fetched is lost.
-/

namespace HyperRam

open Clocked

namespace Ctrl

/-! ## Lost edges -/

section lost

variable {w : ℕ} {s : Ctrl w} {q : Request}

/-- The edge of `q` is up and is not taken : the controller is at work, or another edge comes
before it. -/
def Lost (s : Ctrl w) (q : Request) : Prop :=
  q.rise s.core.edges = true ∧ (s.core.state ≠ .idle ∨
    ∃ p : Request, p.priority < q.priority ∧ p.rise s.core.edges = true)

theorem lost_iff : s.Lost q ↔ q.rise s.core.edges = true ∧ s.accepts ≠ some q := by
  refine and_congr_right fun hq => ?_
  rw [ne_eq s.accepts, accepts_iff, not_and, not_and_or]
  simp [hq]

/-- A service takes one cycle. -/
theorem Inv.served_once {v : Variant} {s : Ctrl v.width} (h : s.Inv) {i : Inputs v.width}
    (hr : i.rst = false) (hs : served q s = true) : served q (s.step v i) = false := by
  rw [h.served_step hr]
  cases q
  case csrRead =>
    have hd : s.rdreg.state = .done := by simpa [h.served_csrRead] using hs
    simp [RdregStm.step, rdregIn, hr, hd]
  case csrWrite => rfl
  case s0Read => simp [h.readdatavalid hs]
  case s0Write =>
    have hd : s.wrmem.state = .done := by simpa [served] using hs
    simp [WrmemStm.step, wrmemIn, hr, hd]

end lost

namespace Run

variable {v : Variant} (r : Ctrl.Run v)

/-- `IDLE` with no request input up in this cycle or the two before it. -/
structure Quiescent (t : ℕ) : Prop where
  idle : (r.state t).core.state = .idle
  low : ∀ q u, u ≤ t → t ≤ u + 2 → Run.port r q u = false

/-- Up to cycle `t` every request has been served. -/
structure AllServed (t : ℕ) : Prop where
  s0Read : pulses (fun u => (r.state u).core.s0Readdatavalid) (t + 1) =
    pulses (fun u => (r.input u).s0Read) (t + 1)
  csrRead : pulses (fun u => (r.state u).csrReaddatavalid) (t + 1) =
    pulses (fun u => (r.input u).csrRead) (t + 1)
  s0Write : pulses (fun u => decide ((r.state u).wrmem.state = .done)) (t + 1) =
    pulses (fun u => (r.input u).s0Write) (t + 1)

/-- The masters of the ports : fixed pulse lengths, one request of `s0` at a time, at most
four reads pending. -/
structure Disciplined : Prop where
  csrRead : ∀ t, Rising (fun u => (r.input u).csrRead) t →
    (r.input (t + 1)).csrRead = true ∧ (r.input (t + 2)).csrRead = false
  s0Read : ∀ t, Rising (fun u => (r.input u).s0Read) t →
    (r.input (t + 1)).s0Read = true ∧ (r.input (t + 2)).s0Read = false
  s0Write : ∀ t, Rising (fun u => (r.input u).s0Write) t → (r.input (t + 1)).s0Write = false
  exclusive : ∀ t, ¬((r.input t).s0Read = true ∧ (r.input t).s0Write = true)
  outstanding : ∀ t, pulses (fun u => (r.input u).s0Read) (t + 1) ≤
    pulses (fun u => (r.state u).core.s0Readdatavalid) (t + 1) + 4

end Run

section balance

variable {r : Ctrl.Run packaged} (hr : ∀ t, (r.input t).rst = false)
include hr

/-- In a quiescent cycle the requests are the services and the lost edges. -/
theorem Run.pulses_eq (q : Request) {t : ℕ} (hq : Run.Quiescent r t) :
    pulses (Run.port r q) (t + 1) = pulses (fun u => served q (r.state u)) (t + 1) +
      Nat.count (fun u => q.rise (r.state u).core.edges = true ∧
        ¬(r.state u).accepts = some q) t := by
  have hserved : pulses (fun u => served q (r.state u)) (t + 1) =
      Nat.count (fun u => (r.state u).accepts = some q) t := by
    rw [pulses_eq_count _, Run.served_eq_accepted hr hq.idle q]
    intro u hu
    rw [r.clock]
    exact (r.inv u).served_once (hr u) hu
  have hport : pulses (Run.port r q) (t + 1) = pulses (Run.port r q) t := by
    rw [pulses, pulses, Nat.count_succ, if_neg, Nat.add_zero]
    simp [Rising, hq.low q t le_rfl (by omega)]
  have hlevel : q.level (r.state t).core.edges = false := by
    rw [Run.level_eq hr]
    by_cases h0 : t = 0
    · exact .inl h0
    · exact .inr (hq.low q (t - 1) (by omega) (by omega))
  have hrise : Nat.count (fun u => q.rise (r.state u).core.edges = true) t =
      pulses (Run.port r q) t := by
    rw [← Run.count_rise hr, Nat.count_succ, if_neg, Nat.add_zero]
    intro h
    simp [Request.level_of_rise h] at hlevel
  rw [hport, hserved, ← hrise]
  exact count_split (q := fun u => (r.state u).accepts = some q) (fun u => accepts_rise) t

/-- The services of `q` equal its requests iff no edge of `q` was lost. -/
theorem Run.served_eq_pulses_iff (q : Request) {t : ℕ} (hq : Run.Quiescent r t) :
    pulses (fun u => served q (r.state u)) (t + 1) = pulses (Run.port r q) (t + 1) ↔
      ∀ u < t, ¬(r.state u).Lost q := by
  rw [Run.pulses_eq hr q hq, Nat.left_eq_add, Nat.count_iff_forall_not]
  simp only [lost_iff, ne_eq]

end balance

/-! ## A lost write -/

/-- A read in cycles `0` and `1`, and a write in cycle `10`, while the line is fetched. -/
def readThenWrite (t : ℕ) : Inputs packaged.width :=
  { quiet with s0Read := t < 2, s0Write := t = 10 }

theorem rising_readThenWrite {t : ℕ} (h : Rising (fun u => (readThenWrite u).s0Read) t) :
    t = 0 := by
  obtain ⟨hup, hlow⟩ := h
  simp [readThenWrite] at hup hlow
  omega

theorem disciplined_readThenWrite :
    Run.Disciplined (ipRun readThenWrite) := by
  constructor
  case csrRead => simp [ipRun, Run.ofInputs, Rising, readThenWrite, quiet]
  case s0Read =>
    intro t ht
    obtain rfl := rising_readThenWrite ht
    simp [ipRun, Run.ofInputs, readThenWrite]
  case s0Write =>
    rintro t ⟨ht, -⟩
    simp [ipRun, Run.ofInputs, readThenWrite] at ht ⊢
    omega
  case exclusive =>
    intro t
    simp [ipRun, Run.ofInputs, readThenWrite]
    omega
  case outstanding =>
    intro t
    have h1 : pulses (fun u => (readThenWrite u).s0Read) (t + 1) =
        pulses (fun u => (readThenWrite u).s0Read) 1 :=
      count_eq_of_quiet (by omega) fun u hu _ h => by
        have := rising_readThenWrite h
        omega
    have hle : pulses (fun u => (readThenWrite u).s0Read) 1 ≤ 1 := Nat.count_le _
    show pulses (fun u => (readThenWrite u).s0Read) (t + 1) ≤ _
    omega

theorem quiescent_readThenWrite :
    Run.Quiescent (ipRun readThenWrite) 60 := by
  constructor
  · show (trace (Ctrl.step packaged) (cleared _) readThenWrite 60).core.state = .idle
    decide +kernel
  · intro q u hu h60
    cases q <;> simp [Run.port, Request.port, ipRun, Run.ofInputs, readThenWrite, quiet] <;> omega

/-! ## When every request is served -/

/-- In a quiescent cycle of a run of the packaged IP, every request was served if and only if
no edge was lost. -/
theorem ip_allServed_iff (r : Ctrl.Run packaged) (hr : ∀ t, (r.input t).rst = false)
    (hw : ∀ t, (r.input t).csrWrite = false) {t : ℕ} (hq : Run.Quiescent r t) :
    Run.AllServed r t ↔ ∀ u < t, ∀ q, ¬(r.state u).Lost q := by
  have hcsrWrite : ∀ u, ¬(r.state u).Lost .csrWrite := by
    rintro u ⟨hrise, -⟩
    cases u with
    | zero => simp [(AfterReset.idle r.start).1, Core.reset] at hrise
    | succ u =>
      have := ((Run.rise_succ hr _ u).1 hrise).1
      simp [Run.port, Request.port, hw] at this
  constructor
  · rintro ⟨h0, h1, h2⟩ u hu q
    cases q
    case csrRead => exact (Run.served_eq_pulses_iff hr .csrRead hq).1 h1 u hu
    case csrWrite => exact hcsrWrite u
    case s0Read => exact (Run.served_eq_pulses_iff hr .s0Read hq).1 h0 u hu
    case s0Write => exact (Run.served_eq_pulses_iff hr .s0Write hq).1 h2 u hu
  · intro h
    constructor
    · exact (Run.served_eq_pulses_iff hr .s0Read hq).2 fun u hu => h u hu .s0Read
    · exact (Run.served_eq_pulses_iff hr .csrRead hq).2 fun u hu => h u hu .csrRead
    · exact (Run.served_eq_pulses_iff hr .s0Write hq).2 fun u hu => h u hu .s0Write

/-- The equivalence in the run that loses a write. -/
theorem ip_allServed_iff_readThenWrite :
    Run.AllServed (ipRun readThenWrite) 60 ↔
      ∀ u < 60, ∀ q,
        ¬((ipRun readThenWrite).state u).Lost q :=
  ip_allServed_iff _ (fun _ => rfl) (fun _ => rfl) quiescent_readThenWrite

/-- The write of `readThenWrite` comes in `RDMEM2` and is lost, within the discipline of the
ports. -/
theorem ip_allServed_fails : ¬∀ r : Ctrl.Run packaged, (∀ t, (r.input t).rst = false) →
    (∀ t, (r.input t).csrWrite = false) → Run.Disciplined r →
    ∀ t, Run.Quiescent r t → Run.AllServed r t := by
  intro h
  let r := ipRun readThenWrite
  have hr : ∀ t, (r.input t).rst = false := fun _ => rfl
  have hrise : (trace (Ctrl.step packaged) (cleared _) readThenWrite 11).core.edges.memwRise =
      true := by decide +kernel
  have hbusy : (trace (Ctrl.step packaged) (cleared _) readThenWrite 11).core.state ≠ .idle := by
    decide +kernel
  have hlost : (r.state 11).Lost .s0Write := ⟨hrise, .inl hbusy⟩
  have hserved :=
    (h r hr (fun _ => rfl) disciplined_readThenWrite 60 quiescent_readThenWrite).s0Write
  exact (Run.served_eq_pulses_iff hr .s0Write quiescent_readThenWrite).1 hserved 11 (by omega)
    hlost

end Ctrl

end HyperRam
