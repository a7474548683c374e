import Mathlib.Data.BitVec
import Mathlib.Data.Fin.VecNotation

/-!
# Address decoding

`addrDecode` is `addr_decode` of the packaged IP : the command/address word, the row and
page numbers the line buffer is tagged with, and the word offset inside a line. Its port `in_addr`
is 32 bits wide. The packaged controller drives it with a 22-bit *word* address, the buffered
controller with a 32-bit *byte* address, and both get a line number from bit 5 on.

Of that number the command has what is left of its double in the six bits of the upper column
(`upperColumn`), which are five bits of it, and `pageId` has one bit less. `AddressMap` draws the
consequences for the places an address reaches, `LineTag` those for the tag of a line.
-/

namespace HyperRam

/-- Outputs of `addr_decode`. -/
structure Decoded where
  outAddr : BitVec 48
  rowId : BitVec 14
  pageId : BitVec 5
  bufferAddr : BitVec 5

/-- `out_addr[21:16]`, the upper column address `2 * (in_addr / 32)` cut to six bits. -/
def upperColumn (inAddr : BitVec 32) : BitVec 6 :=
  ((inAddr >>> 5) <<< 1).setWidth 6

/-- `addr_decode`. From the top bit down `out_addr` has R/W#, eleven zeros, the row, the upper
column, thirteen zeros and the lower column, the row and the lower column being zero. The `write`
input drives nothing. -/
def addrDecode (inAddr : BitVec 32) (read _write : Bool) : Decoded where
  outAddr := BitVec.ofBool read ++ 0#11 ++ 0#14 ++ upperColumn inAddr ++ 0#13 ++ 0#3
  rowId := inAddr.extractLsb' 10 14
  pageId := ((inAddr >>> 5) <<< 1).setWidth 5
  bufferAddr := inAddr.extractLsb' 0 5

/-- The three words of a command/address value, most significant first. -/
def caWords (casig : BitVec 48) : Fin 3 → BitVec 16 :=
  ![casig.extractLsb' 32 16, casig.extractLsb' 16 16, casig.extractLsb' 0 16]

end HyperRam
