import HyperRam.Controller
import Mathlib.Tactic

/-!
# The address map

Which places of the device an address reaches : the line its command selects (`lineAddress`) and
the word of the line buffer it selects (`Variant.wordSel`). A transfer moves a whole line, so these
two are all that an address decides, and `ipLocation` is the pair.

The command carries five bits of the line number, the other bits of the address are dropped : two
addresses have one line if and only if they agree on bits 9 to 5 (`lineAddress_inj`). The proof
goes through the values, on which the shift, the double and the cut of the decoder are a remainder
(`upperColumn_toNat`). A word address selects a word of the buffer in one block of eight out of four
(`ipLocation_snd`), on the others `RDMEM1` and `WRMEM1` take their `default` branches.

`ip_location_injective_iff` is the exact extent on which the map of the packaged IP is one-to-one :
32 lines of eight words, and every other address shares its place or has no word.
-/

namespace HyperRam

/-! ## The line of a command -/

theorem upperColumn_toNat (a : BitVec 32) :
    (upperColumn a).toNat = a.toNat / 32 * 2 % 64 := by
  simp [upperColumn, BitVec.toNat_ushiftRight, BitVec.toNat_shiftLeft, Nat.shiftRight_eq_div_pow,
    Nat.shiftLeft_eq]

/-- Bits 44 to 0 of a command, its line address. -/
def lineAddress (a : BitVec 32) (read write : Bool) : BitVec 45 :=
  (addrDecode a read write).outAddr.extractLsb' 0 45

/-- The line address holds the upper column and zeros, whatever the direction. -/
theorem lineAddress_eq (a : BitVec 32) (read write : Bool) :
    lineAddress a read write = (upperColumn a).setWidth 45 <<< 16 := by
  unfold lineAddress addrDecode
  ext j hj
  simp only [BitVec.getElem_extractLsb', BitVec.getLsbD_append, BitVec.getElem_shiftLeft,
    BitVec.getElem_setWidth]
  interval_cases j <;> simp

theorem lineAddress_toNat (a : BitVec 32) (read write : Bool) :
    (lineAddress a read write).toNat = a.toNat / 32 % 32 * 2 ^ 17 := by
  rw [lineAddress_eq, BitVec.toNat_shiftLeft, BitVec.toNat_setWidth, upperColumn_toNat,
    Nat.shiftLeft_eq]
  omega

/-- Two addresses have one line address iff they agree on address bits 9 to 5. -/
theorem lineAddress_inj {a b : BitVec 32} {read write : Bool} :
    lineAddress a read write = lineAddress b read write ↔
      a.toNat / 32 % 32 = b.toNat / 32 % 32 := by
  rw [← BitVec.toNat_inj, lineAddress_toNat, lineAddress_toNat]
  omega

/-! ## Word select -/

/-- The packaged controller selects a word by the number `buf_addr` below eight. -/
theorem packaged_wordSel (x : BitVec 5) :
    packaged.wordSel x = if h : x.toNat < 8 then some ⟨x.toNat, h⟩ else none := by
  revert x
  decide

/-- The buffered controller selects a word by the aligned byte offset `buf_addr`. -/
theorem buffered_wordSel (x : BitVec 5) :
    buffered.wordSel x = if x.toNat % 4 = 0 then some ⟨x.toNat / 4, by omega⟩ else none := by
  revert x
  decide

/-! ## The map of the packaged IP -/

/-- The place a word address of the packaged IP reaches : the line address of its command and
the word of the line buffer it selects. -/
def ipLocation (a : BitVec packaged.width) (read write : Bool) : BitVec 45 × Option (Fin 8) :=
  (lineAddress (a.setWidth 32) read write,
    packaged.wordSel (addrDecode (a.setWidth 32) read write).bufferAddr)

/-- An address selects a word of the buffer iff it is one of the first eight of its 32. -/
theorem ipLocation_snd (a : BitVec packaged.width) (read write : Bool) :
    (ipLocation a read write).2 =
      if h : a.toNat % 32 < 8 then some ⟨a.toNat % 32, h⟩ else none := by
  have hlow : (addrDecode (a.setWidth 32) read write).bufferAddr.toNat = a.toNat % 32 := by
    have ha : a.toNat < 2 ^ 22 := a.isLt
    rw [addrDecode, BitVec.extractLsb'_toNat, BitVec.toNat_setWidth,
      Nat.mod_eq_of_lt (by omega : a.toNat < 2 ^ 32)]
    rfl
  unfold ipLocation
  rw [packaged_wordSel]
  simp only [hlow]

theorem ipLocation_fst_inj (a b : BitVec packaged.width) (read write : Bool) :
    (ipLocation a read write).1 = (ipLocation b read write).1 ↔
      a.toNat / 32 % 32 = b.toNat / 32 % 32 := by
  have ha : a.toNat < 2 ^ 22 := a.isLt
  have hb : b.toNat < 2 ^ 22 := b.isLt
  unfold ipLocation
  rw [lineAddress_inj, BitVec.toNat_setWidth, BitVec.toNat_setWidth,
    Nat.mod_eq_of_lt (by omega : a.toNat < 2 ^ 32), Nat.mod_eq_of_lt (by omega : b.toNat < 2 ^ 32)]

/-- Two word addresses of the packaged IP reach different places, each with a word of the
buffer, iff both are among the first eight of their 32 and they differ modulo 1024. -/
theorem ip_location_injective_iff (a b : BitVec packaged.width) (read write : Bool) :
    ipLocation a read write ≠ ipLocation b read write ∧ (ipLocation a read write).2 ≠ none ∧
        (ipLocation b read write).2 ≠ none ↔
      a.toNat % 32 < 8 ∧ b.toNat % 32 < 8 ∧ a.toNat % 1024 ≠ b.toNat % 1024 := by
  rw [Ne, Prod.ext_iff, ipLocation_fst_inj, ipLocation_snd, ipLocation_snd]
  by_cases ha : a.toNat % 32 < 8 <;> by_cases hb : b.toNat % 32 < 8 <;> simp [ha, hb]
  omega

/-- Addresses `0` and `1024` reach one place, and address `8` has no word. -/
theorem ip_location_injective_fails :
    ¬∀ a b : BitVec packaged.width, a ≠ b → ∀ read write : Bool,
      ipLocation a read write ≠ ipLocation b read write ∧ (ipLocation a read write).2 ≠ none := by
  intro h
  exact (h 0 1024 (by decide) true false).1 (by decide)

end HyperRam
