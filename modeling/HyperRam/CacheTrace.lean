import HyperRam.BusTrace
import HyperRam.CachedMemory

/-!
# The bus of the cache

The transactions of the buffered controller are those of a cache of one line (`Cache.traffic`) :
none for an access whose tag is the tag of the access before it, a line read for any other read,
a line read and a line write for any other write (`accessImage`). The first access is compared with
the tag of the reset, which is that of address `0`.

What is owed of the transactions is `Ctrl.dueOnBus`. It differs from the `Ctrl.owed` of the packaged
IP in `WRMEM1` only, where a hit owes nothing, so the clocks of the home states are taken from
there. A hit is tested twice for a write, in `IDLE` and in `WRMEM1`. That the two tests agree is a
matter of the run : with the address held and the tag standing, a hit does too
(`OneAtATime.bufferHit_wrmem1`). The test itself is a test of the last access
(`OneAtATime.bufferHit_eq`), from the refinement to the cache.

`started_due` is the balance of started and due transactions against those of the accesses issued
until two cycles before, and `buffered_bus_trace` what it says of the bus.
-/

namespace HyperRam

open Clocked Memory

/-- The transactions of an access. -/
def accessImage {α β : Type*} (hit : Bool) (x : Access α β) : List Transaction :=
  match hit, x with
  | true, _ => []
  | false, .read _ => [.rdmem]
  | false, .write _ _ => [.rdmem, .wrmem]

namespace Ctrl

section due

variable {s : Ctrl buffered.width} {i : Inputs buffered.width}

/-- The transactions of the present access that have not started. -/
def dueOnBus (s : Ctrl buffered.width) : List Transaction :=
  match s.core.state with
  | .wrmem1 => if s.bufferHit buffered then [] else [.wrmem]
  | _ => s.owed

theorem dueOnBus_of_ne (hst : s.core.state ≠ .wrmem1) : s.dueOnBus = s.owed := by
  unfold dueOnBus
  split <;> simp_all

section step

variable (hs : s.Inv) (hr : i.rst = false)
  (hhit : (s.step buffered i).core.state = .wrmem1 →
    (s.step buffered i).bufferHit buffered = s.bufferHit buffered)
include hs hr hhit

/-- `IDLE` owes the transactions of the access it accepts. -/
theorem Inv.dueOnBus_idle (hidle : s.core.state = .idle)
    (he : s.core.edges.regrRise = false) (he' : s.core.edges.regwRise = false)
    (hgo : (s.step buffered i).core.state ≠ .idle) (x : BitVec 32) :
    (s.step buffered i).dueOnBus =
      accessImage (s.bufferHit buffered) ((s.step buffered i).present x) := by
  have hcore := coreStep_eq_registers (s := s) (i := i) hr
  have hnext : (s.step buffered i).core.state = s.core.dispatch (s.bufferHit buffered) := by
    simp only [step_core, hcore, registers, hidle]
  have hrow : (s.step buffered i).core.row = s.core.dispatchRow := by
    simp only [step_core, hcore, registers, hidle, if_true]
  have hrest : (s.step buffered i).dueOf .rdmem = [.rdmem] := by
    rw [dueOf, hs.idle .rdmem (by simp [hidle])]
    rfl
  rcases dispatch_row he he' (hnext ▸ hgo) with ⟨hd, hh, hw⟩ | ⟨hd, hh, hw⟩ | ⟨hd, hh⟩
  · rw [hh]
    simp only [dueOnBus, owed, hnext.trans hd, accessImage]
  · have hstay := hhit (hnext.trans hd)
    rw [hh] at hstay ⊢
    simp only [dueOnBus, hnext.trans hd, hstay, accessImage, if_true]
  · rw [hh]
    simp only [dueOnBus, owed, hnext.trans hd, hrest, present]
    cases hrow' : (s.step buffered i).core.row <;> rfl

/-- A clock at work starts what is due or still owes it. -/
theorem Inv.dueOnBus_step (hidle : s.core.state ≠ .idle)
    (hmiss : s.core.state = .rdmem2 → s.bufferHit buffered = false) :
    s.dueOnBus = starts s (s.step buffered i) ++ (s.step buffered i).dueOnBus := by
  have hcore := coreStep_eq_registers (s := s) (i := i) hr
  cases hst : s.core.state
  case idle => exact absurd hst hidle
  case rdreg =>
    have hne : (s.step buffered i).core.state ≠ .wrmem1 := by
      simp only [step_core, hcore, registers, hst]
      split_ifs <;> simp
    rw [dueOnBus_of_ne (by simp [hst]), dueOnBus_of_ne hne]
    exact hs.owed_step_home hr .rdreg hst
  case rdmem2 =>
    rw [dueOnBus_of_ne (by simp [hst]), hs.owed_step_home (i := i) hr .rdmem hst]
    congr 1
    by_cases hgo : (s.step buffered i).core.state = .wrmem1
    · simp only [dueOnBus, owed, hgo, hhit hgo, hmiss hst]
      rfl
    · exact (dueOnBus_of_ne hgo).symm
  case wrmem2 =>
    have hne : (s.step buffered i).core.state ≠ .wrmem1 := by
      simp only [step_core, hcore, registers, hst]
      split_ifs <;> simp
    rw [dueOnBus_of_ne (by simp [hst]), dueOnBus_of_ne hne]
    exact hs.owed_step_home hr .wrmem hst
  case wrmem1 =>
    rw [hs.starts_away fun k => by cases k <;> simp [hst]]
    have hb : (s.step buffered i).dueOf .wrmem = [.wrmem] := by
      rw [dueOf, hs.idle .wrmem (by simp [hst])]
      rfl
    have hnext : (s.step buffered i).core.state =
        if s.bufferHit buffered then .idle else .wrmem2 := by
      simp only [step_core, hcore, registers, hst]
    cases hh : s.bufferHit buffered
    case true =>
      have hgo : (s.step buffered i).core.state = .idle := by rw [hnext, hh]; rfl
      simp only [dueOnBus, owed, hst, hgo, hh]
      rfl
    case false =>
      have hgo : (s.step buffered i).core.state = .wrmem2 := by rw [hnext, hh]; rfl
      simp only [dueOnBus, owed, hst, hgo, hh, hb]
      rfl
  all_goals
    rw [hs.starts_away fun k => by cases k <;> simp [hst]]
  case rdmem1 => simp [dueOnBus, owed, hst, hcore, registers]
  case wrreg => simp [dueOnBus, owed, hst, hcore, registers]
  case accdly =>
    simp only [dueOnBus, owed, hst, step_core, hcore, registers]
    split_ifs <;> rfl

end step

/-- The clock that enters `WRMEM1` does not load the tag. -/
theorem not_loadsTag_of_wrmem1 (hr : i.rst = false)
    (hgo : (s.step buffered i).core.state = .wrmem1) : ¬s.LoadsTag := by
  rw [step_core, coreStep_eq_registers hr] at hgo
  rintro (⟨⟨hst, he⟩, hrow⟩ | ⟨hst, he⟩)
  · simp [registers, hst, he, hrow] at hgo
  · simp [registers, hst, he] at hgo

end due

/-! ## Along a run -/

namespace Run

variable {r : Ctrl.Run buffered} (h : Run.OneAtATime r)
include h

/-- The address is held and the tag stands, so a hit does. -/
theorem OneAtATime.bufferHit_wrmem1 {t : ℕ} (hgo : (r.state (t + 1)).core.state = .wrmem1) :
    (r.state (t + 1)).bufferHit buffered = (r.state t).bufferHit buffered := by
  have hcaptured := h.captured_step (u := t) (.inr (by simp [hgo]))
  rw [r.clock] at hgo hcaptured ⊢
  exact bufferHit_step (fun _ => hcaptured)
    (lineTag_keep (h.rst t) (not_loadsTag_of_wrmem1 (h.rst t) hgo)) (.inr (by rw [hgo]; simp))

/-- At work nothing is issued in the cycle before. -/
theorem OneAtATime.issued_pred {u : ℕ} (hst : (r.state u).core.state ≠ .idle) :
    Run.issued r u = Run.issued r (u - 1) := by
  obtain ⟨t, ht, htu, hway⟩ := h.exists_issues hst
  refine issued_eq_of_quiet (by omega) fun x hx hxu => (h.held t x ht ⟨by omega, ?_⟩).1
  exact fun y hy hyx => hway.2 y hy (by omega)

variable {d : Device} (hd : Run.Supplies r d)
include hd

/-- `RDMEM2` is for a miss. -/
theorem OneAtATime.bufferHit_rdmem2 {t : ℕ} (hst : (r.state t).core.state = .rdmem2) :
    (r.state t).bufferHit buffered = false := by
  obtain ⟨x, hx, hxt, hway⟩ := h.exists_issues (u := t) (by simp [hst])
  have hserves := (cached h hd t).2 x hx hxt hway
  rw [Serves, hst] at hserves
  rw [Bool.eq_false_iff, Ne, bufferHit_iff, hserves.1]
  exact hserves.2.1

/-- A hit is an access with the tag of the access before it. -/
theorem OneAtATime.bufferHit_eq {t : ℕ} (ht : Run.Issues r t) :
    (r.state (t + 1)).bufferHit buffered = decide (Cache.lastTag (lineGeometry d.mem)
      coldCache.tag (Run.issued r t) = addressTag (r.input t).s0Address) := by
  have hidle := h.idle_succ ht
  have hcaptured := h.captured_eq ht (t + 1) (by omega) fun x hx hxt => by omega
  have hcache := (cached h hd (t + 1)).1 hidle
  rw [Nat.add_sub_cancel] at hcache
  rw [Bool.eq_iff_iff, bufferHit_cache d.mem, hcache, hcaptured, Cache.tag_run, decide_eq_true_eq]
  rfl

/-- What has started and what is due are the transactions of the accesses accepted. -/
theorem started_due : ∀ u, Run.started r u ++ (r.state u).dueOnBus =
    Cache.traffic (lineGeometry d.mem) accessImage coldCache.tag (Run.issued r (u - 1))
  | 0 => by simp [Run.started, dueOnBus, owed, (AfterReset.idle r.start).1, Core.reset, Run.issued,
      Cache.traffic]
  | u + 1 => by
    have ih := started_due u
    have hhit := h.bufferHit_wrmem1 (t := u)
    have hstarted : Run.started r (u + 1) =
        Run.started r u ++ starts (r.state u) (r.state (u + 1)) := log_succ _ u
    rw [hstarted, Nat.add_sub_cancel, List.append_assoc]
    by_cases hst : (r.state u).core.state = .idle
    · have hnil : starts (r.state u) (r.state (u + 1)) = [] := by
        rw [r.clock]
        exact (r.inv u).starts_away fun k => by cases k <;> simp [hst]
      have hnow : (r.state u).dueOnBus = [] := by simp [dueOnBus, owed, hst]
      rw [hnow, List.append_nil] at ih
      rw [hnil, List.nil_append, ih]
      by_cases hgo : (r.state (u + 1)).core.state = .idle
      · rw [h.issued_of_idle hgo]
        simp [dueOnBus, owed, hgo]
      · obtain ⟨t, ht, htu, hway⟩ := h.exists_issues hgo
        obtain rfl : u = t + 1 := by
          by_contra hne
          exact hway.2 u (by omega) (by omega) hst
        have hbusy : ∀ x, t + 2 ≤ x → x < t + 1 + 1 → (r.state x).core.state ≠ .idle := by
          intro x hx hxt
          omega
        have haccess := h.access_eq ht (u := t + 1 + 1) (by omega) hbusy
        have haddr : ((r.state (t + 1 + 1)).present (r.input t).s0Writedata).addr =
            (r.input t).s0Address := by
          rw [← h.captured_eq ht (t + 1 + 1) (by omega) hbusy]
          unfold present
          split_ifs <;> rfl
        rw [Nat.add_sub_cancel, issued_succ, haccess, Option.toList_some, Cache.traffic_concat,
          haddr]
        congr 1
        rw [r.clock] at hgo hhit ⊢
        rw [(r.inv (t + 1)).dueOnBus_idle (h.rst _) hhit hst (h.regrRise_eq _) (h.regwRise_eq _)
          hgo (r.input t).s0Writedata, h.bufferHit_eq hd ht]
        rfl
    · rw [h.issued_pred hst, ← ih]
      congr 1
      rw [r.clock] at hhit ⊢
      exact ((r.inv u).dueOnBus_step (h.rst u) hhit hst (h.bufferHit_rdmem2 hd)).symm

end Run

/-- The bus of the buffered controller : what has started is a prefix of the transactions of the
accesses issued, an access having none if the access before it has its tag, and in `IDLE` it is
all of those issued until two cycles before. -/
theorem buffered_bus_trace {r : Ctrl.Run buffered} (h : Run.OneAtATime r) {d : Device}
    (hd : Run.Supplies r d) (t : ℕ) :
    let image := Cache.traffic (lineGeometry d.mem) accessImage coldCache.tag
    Run.started r t <+: image (Run.issued r (t - 1)) ∧
      ((r.state t).core.state = .idle → Run.started r t = image (Run.issued r (t - 1))) := by
  have hbalance := Run.started_due h hd t
  refine ⟨⟨_, hbalance⟩, fun hst => ?_⟩
  simpa [dueOnBus, owed, hst] using hbalance

/-- The transactions of `readWriteRead` : a line read, a hit, and a line read. -/
theorem buffered_bus_trace_dropRun : Run.started dropRun 60 = [.rdmem] := by
  rw [(buffered_bus_trace oneAtATime_dropRun supplies_dropRun 60).2 (idle_dropRun 60 (by simp))]
  decide +kernel

end Ctrl

end HyperRam
