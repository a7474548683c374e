import HyperRam.CachedMemory

/-!
# The controller of the generated systems

`sys` and `sys_jamb` hold a third copy of the controller : the line buffer of the one at the root
of the repository, behind the 22-bit word addresses and the case labels of the packaged IP
(`generated`).

A `Renaming` takes the addresses of one copy to those of another that drive the same nets : the
decoder gives the same command and the same tag, the case labels select the same word, and the
`csr` addresses the same command. Renaming the ports and the captured addresses commutes with
the clock (`step_rename`), so it takes a run of the one to a run of the other (`Ctrl.Run.rename`),
with the same device, the same discipline and the same answers.

So the generated copy is the buffered controller under the byte addresses of `byteAddress`,
register by register in every cycle (`Ctrl.generated_simulated`). A word address keeps its line,
and its offset becomes the byte offset whose label selects the word, or one that none does. The
refinement to a cache of one line comes over with the renaming (`Ctrl.generated_caches_line`), as
the cache of the renamed accesses is the cache under other addresses.

A line of it has 32 word addresses and eight words. The first eight addresses select them, a read
of any other returns zero and a write to it clears word `0`. On one line it is a flat memory for the
accesses as they land (`Ctrl.generated_flat_on_line`).
-/

namespace HyperRam

open Clocked Memory

/-- The copy under `sys` and `sys_jamb`. Its case labels are those of the packaged IP, its
`buffer_hit` is that of the buffered controller. -/
def generated : Variant where
  width := 22
  csrCa := packaged.csrCa
  wordSel := packaged.wordSel
  bufferHit := buffered.bufferHit

/-! ## Renaming addresses -/

/-- Addresses of `v` as addresses of `v'` that drive the same nets. -/
structure Renaming (v v' : Variant) where
  s0 : BitVec v.width → BitVec v'.width
  csr : BitVec 10 → BitVec 10
  s0_zero : s0 0 = 0
  csr_zero : csr 0 = 0
  csrCa : ∀ a, v'.csrCa (csr a) = v.csrCa a
  outAddr : ∀ a rd wr, (addrDecode ((s0 a).setWidth 32) rd wr).outAddr =
    (addrDecode (a.setWidth 32) rd wr).outAddr
  rowId : ∀ a rd wr, (addrDecode ((s0 a).setWidth 32) rd wr).rowId =
    (addrDecode (a.setWidth 32) rd wr).rowId
  pageId : ∀ a rd wr, (addrDecode ((s0 a).setWidth 32) rd wr).pageId =
    (addrDecode (a.setWidth 32) rd wr).pageId
  wordSel : ∀ a rd wr, v'.wordSel (addrDecode ((s0 a).setWidth 32) rd wr).bufferAddr =
    v.wordSel (addrDecode (a.setWidth 32) rd wr).bufferAddr
  bufferHit : ∀ row page a rd wr,
    v'.bufferHit row page (addrDecode ((s0 a).setWidth 32) rd wr) =
      v.bufferHit row page (addrDecode (a.setWidth 32) rd wr)

variable {v v' : Variant} (ρ : Renaming v v')

/-- The inputs with the addresses renamed. -/
def Inputs.rename (i : Inputs v.width) : Inputs v'.width :=
  { i with s0Address := ρ.s0 i.s0Address, csrAddress := ρ.csr i.csrAddress }

/-- The output registers with the captured addresses renamed. -/
def Pads.rename (p : Pads v.width) : Pads v'.width :=
  { p with
    capturedS0Address := ρ.s0 p.capturedS0Address
    capturedCsrAddress := ρ.csr p.capturedCsrAddress }

namespace Ctrl

/-- The registers with the captured addresses renamed. -/
def rename (s : Ctrl v.width) : Ctrl v'.width :=
  { s with pads := s.pads.rename ρ }

section step

variable (s : Ctrl v.width) (i : Inputs v.width)

theorem coreStep_rename : (s.rename ρ).coreStep v' (i.rename ρ) = s.coreStep v i := by
  have hsel : (s.rename ρ).bufSel v' = s.bufSel v := ρ.wordSel _ _ _
  have hhit : (s.rename ρ).bufferHit v' = s.bufferHit v := ρ.bufferHit _ _ _ _ _
  have hout : ((s.rename ρ).decoded v').outAddr = (s.decoded v).outAddr := ρ.outAddr _ _ _
  have hrow : ((s.rename ρ).decoded v').rowId = (s.decoded v).rowId := ρ.rowId _ _ _
  have hpage : ((s.rename ρ).decoded v').pageId = (s.decoded v).pageId := ρ.pageId _ _ _
  have hca : v'.csrCa (s.rename ρ).pads.capturedCsrAddress = v.csrCa s.pads.capturedCsrAddress :=
    ρ.csrCa _
  unfold coreStep
  simp only [hsel, hhit, hca, Core.rdmem2, Core.wrmem2, hout, hrow, hpage]
  rfl

theorem padsStep_rename : (s.rename ρ).padsStep v' (i.rename ρ) = (s.padsStep v i).rename ρ := by
  unfold padsStep
  cases hr : i.rst
  case true =>
    simp only [Inputs.rename, hr, Pads.reset, Pads.rename, if_true, ρ.s0_zero, ρ.csr_zero]
  case false =>
    simp only [Inputs.rename, hr, Pads.rename, Bool.false_eq_true, if_false, rename, mux,
      apply_ite ρ.s0, apply_ite ρ.csr]
    rfl

/-- Renaming commutes with the clock. -/
theorem step_rename : (s.step v i).rename ρ = (s.rename ρ).step v' (i.rename ρ) := by
  have hcore := coreStep_rename ρ s i
  have hpads := padsStep_rename ρ s i
  simp only [rename, step] at hcore hpads ⊢
  rw [hcore, hpads]
  rfl

end step

theorem AfterReset.rename {s : Ctrl v.width} (h : AfterReset v s) : AfterReset v' (s.rename ρ) := by
  obtain ⟨s₀, i, hr, rfl⟩ := h
  exact ⟨s₀.rename ρ, i.rename ρ, hr, step_rename ρ s₀ i⟩

namespace Run

variable (r : Ctrl.Run v)

/-- The run of the other copy. -/
def rename : Ctrl.Run v' :=
  r.map (Ctrl.rename ρ) (Inputs.rename ρ) (fun _ h => h.rename ρ) (step_rename ρ)

theorem port_rename (q : Request) : Run.port (Run.rename ρ r) q = Run.port r q := by
  cases q <;> rfl

/-- The devices of the two runs are one. -/
theorem device_rename (d : Device) : ∀ t, Run.device (Run.rename ρ r) d t = Run.device r d t
  | 0 => rfl
  | t + 1 => by
    simp only [Run.device, device_rename d t]
    rfl

variable {r}

theorem OneAtATime.rename (h : Run.OneAtATime r) : Run.OneAtATime (Run.rename ρ r) where
  rst := h.rst
  csrRead := h.csrRead
  csrWrite := h.csrWrite
  single := h.single
  issued_idle := h.issued_idle
  held t u ht hu := by
    obtain ⟨hno, haddr, hdata⟩ := h.held t u ht hu
    exact ⟨hno, congrArg ρ.s0 haddr, hdata⟩

theorem Supplies.rename {d : Device} (h : Run.Supplies r d) : Run.Supplies (Run.rename ρ r) d := by
  intro t hrun h16 h32 hmsb
  rw [device_rename] at hmsb ⊢
  exact h t hrun h16 h32 hmsb

theorem access_rename (t : ℕ) :
    Run.access (Run.rename ρ r) t = (Run.access r t).map (Access.map ρ.s0) := by
  simp only [access, port_rename]
  split_ifs <;> rfl

/-- The accesses issued are those renamed. -/
theorem issued_rename :
    ∀ t, Run.issued (Run.rename ρ r) t = (Run.issued r t).map (Access.map ρ.s0)
  | 0 => rfl
  | t + 1 => by
    rw [issued_succ, issued_succ, List.map_append, issued_rename t, access_rename]
    cases Run.access r t <;> rfl

end Run

end Ctrl

/-! ## Word addresses as byte addresses -/

/-- The byte offset that selects the word of a word offset, or none if the offset has none. -/
def byteOffset (x : BitVec 5) : BitVec 5 :=
  if x.toNat < 8 then x <<< 2 else 1

/-- The byte address of a word address : the same line, the offset of the word. -/
def byteAddress (a : BitVec 22) : BitVec 32 :=
  (a.extractLsb' 5 17 ++ byteOffset (a.extractLsb' 0 5)).setWidth 32

theorem byteAddress_toNat (a : BitVec 22) :
    (byteAddress a).toNat = a.toNat / 32 * 32 + (byteOffset (a.extractLsb' 0 5)).toNat := by
  have hlt := a.isLt
  have hoff := (byteOffset (a.extractLsb' 0 5)).isLt
  simp only [byteAddress, BitVec.toNat_setWidth, BitVec.toNat_append, BitVec.extractLsb'_toNat]
  rw [← Nat.shiftLeft_add_eq_or_of_lt hoff, Nat.shiftLeft_eq, Nat.shiftRight_eq_div_pow]
  omega

/-- The line stays. -/
theorem byteAddress_line (a : BitVec 22) :
    (byteAddress a).toNat / 32 = (a.setWidth 32).toNat / 32 := by
  have hlt := a.isLt
  have hoff := (byteOffset (a.extractLsb' 0 5)).isLt
  rw [byteAddress_toNat, BitVec.toNat_setWidth]
  omega

theorem bufferAddr_byteAddress (a : BitVec 22) (rd wr : Bool) :
    (addrDecode (byteAddress a) rd wr).bufferAddr = byteOffset (a.extractLsb' 0 5) := by
  have hoff := (byteOffset (a.extractLsb' 0 5)).isLt
  simp only [addrDecode]
  rw [← BitVec.toNat_inj, BitVec.extractLsb'_toNat, byteAddress_toNat]
  omega

theorem bufferAddr_setWidth (a : BitVec 22) (rd wr : Bool) :
    (addrDecode (a.setWidth 32) rd wr).bufferAddr = a.extractLsb' 0 5 := by
  have hlt := a.isLt
  have hmod : a.toNat % 2 ^ 32 = a.toNat := Nat.mod_eq_of_lt (by omega)
  simp only [addrDecode]
  rw [← BitVec.toNat_inj, BitVec.extractLsb'_toNat, BitVec.extractLsb'_toNat, BitVec.toNat_setWidth,
    hmod]

/-- The byte address selects what the word address does. -/
theorem wordSel_byteAddress (a : BitVec 22) (rd wr : Bool) :
    buffered.wordSel (addrDecode (byteAddress a) rd wr).bufferAddr =
      packaged.wordSel (addrDecode (a.setWidth 32) rd wr).bufferAddr := by
  have hoffset : ∀ x : BitVec 5, buffered.wordSel (byteOffset x) = packaged.wordSel x := by decide
  rw [bufferAddr_byteAddress, bufferAddr_setWidth, hoffset]

/-- The `csr` address of the buffered controller for one of the generated copy. -/
def csrByteAddress (a : BitVec 10) : BitVec 10 :=
  if a.toNat < 4 then a <<< 2 else 0

theorem csrCa_csrByteAddress (a : BitVec 10) :
    buffered.csrCa (csrByteAddress a) = packaged.csrCa a := by
  by_cases ha : a.toNat < 4
  · obtain ⟨n, hn, rfl⟩ : ∃ n < 4, a = BitVec.ofNat 10 n := ⟨a.toNat, ha, by simp⟩
    interval_cases n <;> rfl
  · rw [csrByteAddress, if_neg ha]
    simp only [packaged]
    split <;> simp_all [buffered]

theorem tag_byteAddress (a : BitVec 22) :
    addressTag (byteAddress a) = addressTag (a.setWidth 32) :=
  Ctrl.addressTag_of_line (byteAddress_line a)

theorem outAddr_byteAddress (a : BitVec 22) (rd wr : Bool) :
    (addrDecode (byteAddress a) rd wr).outAddr = (addrDecode (a.setWidth 32) rd wr).outAddr := by
  have hcolumn : upperColumn (byteAddress a) = upperColumn (a.setWidth 32) := by
    rw [← BitVec.toNat_inj, upperColumn_toNat, upperColumn_toNat, byteAddress_line]
  simp only [addrDecode, hcolumn]

/-- The generated copy as the buffered controller. -/
def wordsAsBytes : Renaming generated buffered where
  s0 := byteAddress
  csr := csrByteAddress
  s0_zero := rfl
  csr_zero := rfl
  csrCa := csrCa_csrByteAddress
  outAddr a rd wr := outAddr_byteAddress a rd wr
  rowId a _ _ := congrArg Prod.fst (tag_byteAddress a)
  pageId a _ _ := congrArg Prod.snd (tag_byteAddress a)
  wordSel a rd wr := wordSel_byteAddress a rd wr
  bufferHit row page a _ _ := by
    have hrow : (addressTag (byteAddress a)).1 = _ := congrArg Prod.fst (tag_byteAddress a)
    have hpage : (addressTag (byteAddress a)).2 = _ := congrArg Prod.snd (tag_byteAddress a)
    show (row == (addressTag (byteAddress a)).1 && page == (addressTag (byteAddress a)).2) = _
    rw [hrow, hpage]
    rfl

/-- How the generated copy serves its addresses. -/
def wordGeometry (mem : BitVec 32 → Fin 16 → BitVec 16) :
    Geometry (BitVec 22) (BitVec 14 × BitVec 5) (Fin 8) (BitVec 32) :=
  (lineGeometry mem).comap byteAddress

namespace Ctrl

/-- Every run of the generated copy is a run of the buffered controller under the byte addresses,
register by register in every cycle. -/
theorem generated_simulated (r : Ctrl.Run generated) : ∃ r' : Ctrl.Run buffered,
    (∀ t, r'.input t = (r.input t).rename wordsAsBytes) ∧
      ∀ t, r'.state t = (r.state t).rename wordsAsBytes :=
  ⟨Run.rename wordsAsBytes r, fun _ => rfl, fun _ => rfl⟩

namespace Run

variable {r : Ctrl.Run generated}

theorem Returns.of_rename {t u : ℕ} (h : Run.Returns (Run.rename wordsAsBytes r) t u) :
    Run.Returns r t u :=
  ⟨h.read, h.lt, h.valid, h.alone⟩

/-- The cache of the renamed accesses. -/
theorem run_issued_rename (mem : BitVec 32 → Fin 16 → BitVec 16) (t : ℕ) :
    coldCache.run (lineGeometry mem) (Run.issued (Run.rename wordsAsBytes r) t) =
      coldCache.run (wordGeometry mem) (Run.issued r t) := by
  rw [issued_rename]
  exact (Cache.run_comap byteAddress _).symm

end Run

/-- With one request at a time, and a device that answers from its lines, the generated copy is a
cache of one line over them, under its word addresses. -/
theorem generated_caches_line {r : Ctrl.Run generated} (h : Run.OneAtATime r) {d : Device}
    (hd : Run.Supplies r d) :
    (∀ t, (r.state t).core.state = .idle → (r.state t).cache =
      coldCache.run (wordGeometry d.mem) (Run.issued r (t - 1))) ∧
    ∀ u, (r.state u).core.s0Readdatavalid = true → ∃ t, Run.Returns r t u ∧
      (r.state u).core.s0Readdata = (coldCache.run (wordGeometry d.mem) (Run.issued r t)).read
        (wordGeometry d.mem) (r.input t).s0Address := by
  have h' := h.rename wordsAsBytes
  have hd' := Run.Supplies.rename wordsAsBytes hd
  refine ⟨fun t hst => ?_, fun u hv => ?_⟩
  · have hcache := (Run.cached h' hd' t).1 hst
    rwa [Run.run_issued_rename] at hcache
  · obtain ⟨t, ht, hdata⟩ := Run.exists_returns h' hd' hv
    rw [Run.run_issued_rename] at hdata
    exact ⟨t, ht.of_rename, hdata⟩

/-- A read of word `0` of line `1` in cycle `0`, a write of `9` behind the words of the line in
cycle `60` and a read of word `0` again in cycle `80`. The device shows sevens. -/
def writeBehind (t : ℕ) : Inputs generated.width :=
  { (quiet : Inputs 22) with
    dataout := 7, s0Read := t = 0 ∨ t = 80, s0Write := t = 60, s0Writedata := 9
    s0Address := if 60 ≤ t ∧ t < 80 then 40 else 32 }

/-- The run of `writeBehind` from the cleared registers. -/
def writeBehindRun : Ctrl.Run generated :=
  .ofInputs (afterReset_cleared generated) writeBehind

/-- A device with sevens in all its lines. -/
def sevens : Device :=
  { Device.zero with mem := fun _ _ => 7 }

theorem oneAtATime_writeBehindRun : Run.OneAtATime writeBehindRun := by
  have hread : ∀ t, (writeBehindRun.input t).s0Read = true → t ∈ [0, 80] := fun t h => by
    simpa using (of_decide_eq_true h : t = 0 ∨ t = 80)
  have hwrite : ∀ t, (writeBehindRun.input t).s0Write = true → t ∈ [60] := fun t h => by
    simpa using (of_decide_eq_true h : t = 60)
  refine .of_slots hread hwrite (by decide) ?_ (fun _ => ⟨rfl, rfl, rfl⟩) ?_
  · show ∀ t ∈ [0, 80] ++ [60],
      (trace (Ctrl.step generated) (cleared _) writeBehind t).core.state = .idle
    decide +kernel
  · intro t _ u htu hnext
    have hsame : (60 ≤ u ∧ u < 80) ↔ (60 ≤ t ∧ t < 80) := by
      have h60 := hnext 60 (by simp)
      have h80 := hnext 80 (by simp)
      omega
    refine ⟨?_, rfl⟩
    simp only [writeBehindRun, Run.ofInputs, writeBehind, hsame]

theorem supplies_writeBehindRun : Run.Supplies writeBehindRun sevens := by
  have h := oneAtATime_writeBehindRun.rename wordsAsBytes
  intro t _ _ _ _
  rw [← Run.device_rename wordsAsBytes, Run.device_mem_eq _ _ fun u _ => h.not_losesHit u]
  rfl

/-- The answer in cycle `83` of `writeBehind` is that of a read. -/
theorem generated_caches_line_writeBehind : ∃ t, Run.Returns writeBehindRun t 83 := by
  obtain ⟨t, ht, -⟩ := (generated_caches_line oneAtATime_writeBehindRun
    supplies_writeBehindRun).2 83 (by decide +kernel)
  exact ⟨t, ht⟩

/-! ## Accesses to one line -/

section line

variable {mem : BitVec 32 → Fin 16 → BitVec 16} {a b : BitVec 22}

/-- The word a word offset selects. -/
def wordOffset (a : BitVec 22) : Option (Fin 8) :=
  if h : a.toNat % 32 < 8 then some ⟨a.toNat % 32, h⟩ else none

variable (mem) in
theorem place_wordGeometry (a : BitVec 22) : (wordGeometry mem).place a = wordOffset a := by
  have hlow : (a.extractLsb' 0 5).toNat = a.toNat % 32 := by
    simp only [BitVec.extractLsb'_toNat, Nat.shiftRight_zero]
  have hplace : (wordGeometry mem).place a =
      packaged.wordSel (addrDecode (a.setWidth 32) true false).bufferAddr :=
    wordSel_byteAddress a true false
  rw [hplace, bufferAddr_setWidth, packaged_wordSel]
  simp only [hlow, wordOffset]

variable (mem) in
/-- A write without a word clears word `0`. -/
theorem stored_wordGeometry (a : BitVec 22) (x : BitVec 32) : (wordGeometry mem).stored a x =
    (Core.writtenWord (wordOffset a), if (wordOffset a).isSome then x else 0) := by
  rw [← place_wordGeometry mem]
  rfl

theorem wordOffset_eq_some {a : BitVec 22} {k : Fin 8} :
    wordOffset a = some k ↔ a.toNat % 32 = k.val := by
  unfold wordOffset
  split_ifs with h
  · rw [Option.some.injEq, Fin.ext_iff]
  · have hk := k.isLt
    simp only [false_iff]
    omega

/-- The address of word `0` of a line. -/
def lineBase (a : BitVec 22) : BitVec 22 :=
  BitVec.ofNat 22 (a.toNat / 32 * 32)

/-- Where an access lands : a write that no word is selected for clears the first one. -/
def landed : Access (BitVec 22) (BitVec 32) →
    Access (BitVec 22) (BitVec 32)
  | .read a => .read a
  | .write a x => if (wordOffset a).isSome then .write a x else .write (lineBase a) 0

theorem lineBase_toNat (a : BitVec 22) : (lineBase a).toNat = a.toNat / 32 * 32 := by
  have hlt := a.isLt
  rw [lineBase, BitVec.toNat_ofNat]
  omega

/-- On one line a word is stored to as the accesses land. -/
theorem storedAt_landed {x : Access (BitVec 22) (BitVec 32)} {k : Fin 8}
    (ha : wordOffset a = some k) (hline : x.addr.toNat / 32 = a.toNat / 32) :
    (wordGeometry mem).storedAt k x = (landed x).writtenAt a := by
  rw [wordOffset_eq_some] at ha
  cases x with
  | read b => rfl
  | write b y =>
    simp only [Access.addr] at hline
    rw [Geometry.storedAt, stored_wordGeometry, landed]
    cases hb : wordOffset b with
    | none =>
      have hbase : (0 : Fin 8) = k ↔ lineBase b = a := by
        rw [Fin.ext_iff, ← BitVec.toNat_inj, lineBase_toNat]
        have h0 : (0 : Fin 8).val = 0 := rfl
        omega
      simp [Access.writtenAt, Core.writtenWord, hbase]
    | some j =>
      rw [wordOffset_eq_some] at hb
      have hsame : j = k ↔ b = a := by
        rw [Fin.ext_iff, ← BitVec.toNat_inj]
        omega
      simp [Access.writtenAt, Core.writtenWord, hsame]

variable (mem) in
/-- Addresses of one line have one tag and fetch one line. -/
theorem wordGeometry_of_line (h : a.toNat / 32 = b.toNat / 32) :
    (wordGeometry mem).tag a = (wordGeometry mem).tag b ∧
      (wordGeometry mem).fetch a = (wordGeometry mem).fetch b := by
  have hbytes : (byteAddress a).toNat / 32 = (byteAddress b).toNat / 32 := by
    rw [byteAddress_line, byteAddress_line, BitVec.toNat_setWidth, BitVec.toNat_setWidth]
    omega
  exact ⟨addressTag_of_line hbytes, fetch_of_line mem hbytes⟩

end line

/-- On the addresses of one line the generated copy is a flat memory of eight words for the
accesses as they land. A read that no word is selected for returns zero. -/
theorem generated_flat_on_line {r : Ctrl.Run generated} (h : Run.OneAtATime r) {d : Device}
    (hd : Run.Supplies r d) (hf : Run.RwdsFair r) {line : ℕ}
    (hline : ∀ t, Run.Issues r t → (r.input t).s0Address.toNat / 32 = line) {t : ℕ}
    (hread : Rising (Run.port r .s0Read) t) :
    ∃ u, Run.Returns r t u ∧ (r.state u).core.s0Readdata =
      if (wordOffset (r.input t).s0Address).isSome then
        flat (coldCache.read (wordGeometry d.mem)) ((Run.issued r t).map landed)
          (r.input t).s0Address
      else 0 := by
  obtain ⟨u, hu, hdata⟩ := Run.exists_returns_of_rising (h.rename wordsAsBytes)
    (Run.Supplies.rename wordsAsBytes hd) hf hread
  rw [Run.run_issued_rename] at hdata
  refine ⟨u, hu.of_rename, hdata.trans ?_⟩
  have hx : ∀ x ∈ Run.issued r t, x.addr.toNat / 32 = (r.input t).s0Address.toNat / 32 :=
    fun x hx => by
      obtain ⟨y, hy, haddr⟩ := Run.addr_of_mem_issued hx
      rw [haddr, hline y hy, hline t (.inl hread)]
  cases hk : wordOffset (r.input t).s0Address with
  | none =>
    exact Cache.read_of_no_place ((place_wordGeometry d.mem _).trans hk)
  | some k =>
    exact Cache.read_run_flat_map landed (fun x hi => (wordGeometry_of_line d.mem (hx x hi)).1)
      (fun x hi => (wordGeometry_of_line d.mem (hx x hi)).2)
      ((place_wordGeometry d.mem _).trans hk) fun x hi => storedAt_landed hk (hx x hi)

/-- Word `0` reads back as cleared. -/
theorem generated_flat_on_line_writeBehind : ∃ u, Run.Returns writeBehindRun 80 u ∧
    (writeBehindRun.state u).core.s0Readdata = 0 := by
  have hline : ∀ t, Run.Issues writeBehindRun t →
      (writeBehindRun.input t).s0Address.toNat / 32 = 1 := by
    intro t _
    simp only [writeBehindRun, Run.ofInputs, writeBehind]
    split_ifs <;> decide
  obtain ⟨u, hu, hdata⟩ := generated_flat_on_line oneAtATime_writeBehindRun
    supplies_writeBehindRun (fun t _ => ⟨0, rfl⟩) hline (t := 80) (by decide +kernel)
  refine ⟨u, hu, hdata.trans ?_⟩
  decide +kernel

end Ctrl

end HyperRam
