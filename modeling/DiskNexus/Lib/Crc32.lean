import DiskNexus.Lib.Binary

/-!
# CRC-32

The checksum of `hash/crc32` with the IEEE polynomial, four bits at a time.
-/

namespace Crc32

open Binary

/-- The remainders of the nibbles under the polynomial `0xEDB88320`. -/
def nibbleTable : List UInt32 :=
  [0x00000000, 0x1DB71064, 0x3B6E20C8, 0x26D930AC, 0x76DC4190, 0x6B6B51F4, 0x4DB26158, 0x5005713C,
    0xEDB88320, 0xF00F9344, 0xD6D6A3E8, 0xCB61B38C, 0x9B64C2B0, 0x86D3D2D4, 0xA00AE278, 0xBDBDF21C]

/-- Four bits of the division. -/
def nibbleStep (crc : UInt32) : UInt32 :=
  (crc >>> 4) ^^^ nibbleTable.getD (crc.toNat % 16) 0

/-- One byte of the division. -/
def byteStep (crc : UInt32) (b : UInt8) : UInt32 := nibbleStep (nibbleStep (crc ^^^ b.toUInt32))

/-- `crc32.ChecksumIEEE`. -/
def checksumIEEE (bs : Bytes) : UInt32 := bs.foldl byteStep 0xFFFFFFFF ^^^ 0xFFFFFFFF

/-- The check value of the polynomial, over the digits `1` to `9`. -/
example : checksumIEEE [0x31, 0x32, 0x33, 0x34, 0x35, 0x36, 0x37, 0x38, 0x39] = 0xCBF43926 := by
  decide +kernel

end Crc32
