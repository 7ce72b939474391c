/-
  `src/app/util.c`: access to the firmware's memory through `WLAN_IOCTL_MEM`.

  `memRead` and `memWrite` build the 9-byte request and hand it to `sceNetSyscallControl`, which
  is a parameter. `deviceControl` is the system call in front of a device that may fail any
  access and may answer a read with anything; it logs every access (`Device`). What it answers
  may depend on all accesses before (`Faults`).

  `faulty_memRead`, `faulty_memWrite`: on such a device the two functions are one access each,
  at the address and with the data they were called with.
-/
import Wifimon.Lib.Bytes
import Wifimon.Kplugin.Ioctl

namespace Wifimon.App

open ByteLib Kplugin

/-! ## The functions -/

/-- `sceNetSyscallControl(dev, req, buf, buf_len)`: the value returned and the buffer left
    behind. -/
abbrev SyscallControl (σ : Type) := Int → UInt32 → Mem → Int → σ → Int × Mem × σ

/-- The functions of `util.h` that reach the firmware's memory. -/
structure MemDev (σ : Type) where
  memRead : UInt32 → σ → Int × UInt32 × σ
  memWrite : UInt32 → UInt32 → σ → Int × σ

variable {σ : Type}

/-- The value returned and `*data`. `stack` is what the request array held before. -/
def memRead (ctl : SyscallControl σ) (wlanIdx : Int) (stack : Mem) (addr : UInt32) (s : σ) :
    Int × UInt32 × σ :=
  let request := store (store stack 0 [0]) 1 (le 4 addr.toNat)
  let r := ctl wlanIdx wlanIoctlMem request 9 s
  (r.1, rd32 r.2.1 5, r.2.2)

def memWrite (ctl : SyscallControl σ) (wlanIdx : Int) (stack : Mem) (addr data : UInt32) (s : σ) :
    Int × σ :=
  let request := store (store (store stack 0 [1]) 1 (le 4 addr.toNat)) 5 (le 4 data.toNat)
  let r := ctl wlanIdx wlanIoctlMem request 9 s
  (r.1, r.2.2)

def util (ctl : SyscallControl σ) (wlanIdx : Int) (stack : Mem) : MemDev σ where
  memRead := memRead ctl wlanIdx stack
  memWrite := memWrite ctl wlanIdx stack

/-! ## A device that may fail or lie -/

inductive Access where
  | write (addr data : UInt32) (ret : Int)
  | read (addr : UInt32) (ret : Int) (value : UInt32)
  deriving DecidableEq

/-- The device's memory and the accesses to it so far. -/
structure Device where
  mem : UInt32 → UInt8
  log : List Access

/-- How a device answers, given the accesses so far: for a write, the value returned and
    whether the word was stored; for a read, the value returned and the word delivered. -/
structure Faults where
  write : List Access → UInt32 → UInt32 → Int × Bool
  read : List Access → UInt32 → Int × UInt32

/-- `x` is one of the four bytes at `addr`. -/
def InWord (addr x : UInt32) : Prop := (x - addr).toNat < 4

instance (addr x : UInt32) : Decidable (InWord addr x) := inferInstanceAs (Decidable (_ < _))

/-- Store a little-endian word at `addr`. -/
def putWord (m : UInt32 → UInt8) (addr data : UInt32) : UInt32 → UInt8 := fun x =>
  if InWord addr x then (le 4 data.toNat).getD (x - addr).toNat 0 else m x

def Device.write (f : Faults) (addr data : UInt32) (d : Device) : Int × Device :=
  let a := f.write d.log addr data
  (a.1,
    { mem := if a.2 then putWord d.mem addr data else d.mem
      log := d.log ++ [.write addr data a.1] })

def Device.read (f : Faults) (addr : UInt32) (d : Device) : Int × UInt32 × Device :=
  let a := f.read d.log addr
  (a.1, a.2, { d with log := d.log ++ [.read addr a.1 a.2] })

/-- A `WLAN_IOCTL_MEM` request: the direction, the address and the word. -/
def deviceControl (f : Faults) : SyscallControl Device := fun _ _ request _ d =>
  if request 0 = 0 then
    let r := d.read f (rd32 request 1)
    (r.1, store request 5 (le 4 r.2.1.toNat), r.2.2)
  else
    let r := d.write f (rd32 request 1) (rd32 request 5)
    (r.1, request, r.2)

/-- The request of `mem_read`: a zero byte, then the address. -/
theorem readRequest_layout (stack : Mem) (addr : UInt32) :
    store (store stack 0 [0]) 1 (le 4 addr.toNat) 0 = 0 ∧
      rd32 (store (store stack 0 [0]) 1 (le 4 addr.toNat)) 1 = addr := by
  refine ⟨?_, rd32_store_le _ _ _⟩
  rw [store_apply_of_not (Or.inl Nat.one_pos)]
  rfl

/-- The request of `mem_write`: a byte with value 1, the address, the word. -/
theorem writeRequest_layout (stack : Mem) (addr data : UInt32) :
    store (store (store stack 0 [1]) 1 (le 4 addr.toNat)) 5 (le 4 data.toNat) 0 = 1 ∧
      rd32 (store (store (store stack 0 [1]) 1 (le 4 addr.toNat)) 5 (le 4 data.toNat)) 1 = addr ∧
      rd32 (store (store (store stack 0 [1]) 1 (le 4 addr.toNat)) 5 (le 4 data.toNat)) 5 =
        data := by
  refine ⟨?_, ?_, rd32_store_le _ _ _⟩
  · rw [store_apply_of_not (Or.inl (by omega)), store_apply_of_not (Or.inl Nat.one_pos)]
    rfl
  · rw [rd32_store_disjoint (Or.inl (by omega)), rd32_store_le]

theorem memRead_device (f : Faults) (wlanIdx : Int) (stack : Mem) (addr : UInt32) (d : Device) :
    memRead (deviceControl f) wlanIdx stack addr d = d.read f addr := by
  obtain ⟨h0, haddr⟩ := readRequest_layout stack addr
  unfold memRead deviceControl
  dsimp only
  rw [if_pos h0, haddr]
  dsimp only
  rw [rd32_store_le]

theorem memWrite_device (f : Faults) (wlanIdx : Int) (stack : Mem) (addr data : UInt32)
    (d : Device) : memWrite (deviceControl f) wlanIdx stack addr data d = d.write f addr data := by
  obtain ⟨h1, haddr, hdata⟩ := writeRequest_layout stack addr data
  unfold memWrite deviceControl
  dsimp only
  rw [if_neg (by rw [h1]; decide), haddr, hdata]

/-- The device of `util.h` in front of `deviceControl`. -/
abbrev faulty (f : Faults) (wlanIdx : Int) (stack : Mem) : MemDev Device :=
  util (deviceControl f) wlanIdx stack

theorem faulty_memRead (f : Faults) (wlanIdx : Int) (stack : Mem) (addr : UInt32) (d : Device) :
    (faulty f wlanIdx stack).memRead addr d = d.read f addr :=
  memRead_device f wlanIdx stack addr d

theorem faulty_memWrite (f : Faults) (wlanIdx : Int) (stack : Mem) (addr data : UInt32)
    (d : Device) : (faulty f wlanIdx stack).memWrite addr data d = d.write f addr data :=
  memWrite_device f wlanIdx stack addr data d

/-! ## One access -/

theorem add_ofNat_sub (base : UInt32) {k : Nat} (h : k < 2 ^ 32) :
    (base + UInt32.ofNat k - base).toNat = k := by
  rw [UInt32.add_comm, UInt32.add_sub_cancel]
  exact UInt32.toNat_ofNat_of_lt' h

/-- A store of a word leaves the other bytes alone. -/
theorem putWord_of_not {m : UInt32 → UInt8} {addr data x : UInt32} (h : ¬ InWord addr x) :
    putWord m addr data x = m x :=
  if_neg h

/-- It stores the bytes of the word. -/
theorem putWord_of_mem {m : UInt32 → UInt8} {addr data x : UInt32} (h : InWord addr x) :
    putWord m addr data x = (le 4 data.toNat).getD (x - addr).toNat 0 :=
  if_pos h

theorem Device.write_log (f : Faults) (addr data : UInt32) (d : Device) :
    (d.write f addr data).2.log = d.log ++ [.write addr data (d.write f addr data).1] := rfl

theorem Device.write_mem {f : Faults} {addr data x : UInt32} {d : Device}
    (h : ¬ InWord addr x) : (d.write f addr data).2.mem x = d.mem x := by
  unfold Device.write
  dsimp only
  split
  · exact putWord_of_not h
  · rfl

theorem Device.read_log (f : Faults) (addr : UInt32) (d : Device) :
    (d.read f addr).2.2.log = d.log ++ [.read addr (d.read f addr).1 (d.read f addr).2.1] := rfl

theorem Device.read_mem (f : Faults) (addr : UInt32) (d : Device) :
    (d.read f addr).2.2.mem = d.mem := rfl

end Wifimon.App
