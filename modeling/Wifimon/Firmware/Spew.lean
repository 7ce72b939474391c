/-
  `doc/re/bin2elf.c`: `spew`, which reads a firmware image block by block.

  The mapped file is a list of bytes; `map` is a position in it and `mapsize` the number of bytes
  the loop believes to be left (`mapsize` starts as the file's length in an `int`). One pass of
  the loop is `spewStep`: the accesses it makes through `map` and to `elfdata`, and how it ends.
  An access outside the file or outside `elfdata` ends the run (`Outcome.fault`): the source has
  no meaning there. The hex dumps on `stderr` are not modelled.

  `StepCase` and `BodyCase` list the ends of a pass with their conditions; everything proved
  about `spew` follows from `spewStep_case` by `spew_stop` and `spew_loop`.
-/
import Wifimon.Lib.Bytes
import Wifimon.Elf.Crc
import Mathlib.Logic.Function.Basic

namespace Wifimon.Firmware

open ByteLib Elf

/-! ## Data -/

/-- `sizeof elfdata`. -/
def elfdataSize : Nat := 4096 + (1024 + 128 + 128) * 1024

/-- The address ranges the tool knows. -/
inductive Region where
  | r0 | rC | r04
  deriving DecidableEq

def Region.base : Region → UInt32
  | .r0 => 0x00000000
  | .rC => 0xc0000000
  | .r04 => 0x04000000

/-- Where the region starts in `elfdata`. -/
def Region.ofs : Region → Nat
  | .r0 => 4096
  | .rC => 4096 + 1024 * 1024
  | .r04 => 4096 + (1024 + 128) * 1024

/-- The `switch` of `spew`. -/
def regionOf (addr : UInt32) : Option Region :=
  if addr &&& ~~~0x003fffff = 0xc0000000 then some .rC
  else if addr &&& ~~~0x003fffff = 0x00000000 then some .r0
  else if addr &&& ~~~0x003fffff = 0x04000000 then some .r04
  else none

/-- Where a block with base address `addr` goes in `elfdata`. -/
def storeOfs (r : Region) (addr : UInt32) : Nat := r.ofs + (addr &&& 0x003fffff).toNat

def fwHasDataToRecv : UInt32 := 0x00000001
def fwHasLastBlock : UInt32 := 0x00000004

structure FwHeader where
  dnldcmd : UInt32
  baseaddr : UInt32
  datalength : UInt32
  crc : UInt32

/-- The header at `map + pos`. -/
def fwheader (b : List UInt8) (pos : Nat) : FwHeader where
  dnldcmd := rd32 (ofList b) pos
  baseaddr := rd32 (ofList b) (pos + 4)
  datalength := rd32 (ofList b) (pos + 8)
  crc := rd32 (ofList b) (pos + 12)

/-- The static variables: `elfdata`, `entrypoint`, and for each region its `lower` and `upper`
    (`lower0`, `lowerC`, `lower04` and so on). -/
structure Globals where
  elfdata : Mem
  entrypoint : UInt32
  lower : Region → UInt32
  upper : Region → UInt32

def Globals.start : Globals := ⟨fun _ => 0, 0, fun _ => ~~~0, fun _ => 0⟩

/-- An access: through `map`, at a position of the file, or to `elfdata`. -/
inductive MapAccess where
  | read (ofs len : Nat)
  | store (ofs len : Nat)

def MapAccess.InBounds (b : List UInt8) : MapAccess → Prop
  | .read ofs len => ofs + len ≤ b.length
  | .store ofs len => ofs + len ≤ elfdataSize

inductive Outcome where
  | exit (code : Nat)
  | fault
  | returned (g : Globals)

inductive Next where
  | stop (o : Outcome)
  | loop (pos : Nat) (mapsize : Int) (g : Globals)

/-! ## The loop -/

/-- A 32-bit value as an `int`. -/
def asInt (x : UInt32) : Int := if x.toNat < 2 ^ 31 then x.toNat else x.toNat - 2 ^ 32

/-- The `switch`: the block's `len` bytes at `pos` go to their place in `elfdata`. -/
def putBlock (b : List UInt8) (pos : Nat) (r : Region) (addr len : UInt32) (g : Globals) :
    Globals :=
  { g with
    upper := if addr + len > g.upper r then Function.update g.upper r (addr + len) else g.upper
    lower := if addr < g.lower r then Function.update g.lower r addr else g.lower
    elfdata := store g.elfdata (storeOfs r addr) (load (ofList b) pos len.toNat) }

/-- The part of a pass after the body has been asked for; `pos` is where it starts. -/
def spewBody (b : List UInt8) (h : FwHeader) (pos : Nat) (mapsize : Int) (g : Globals) :
    List MapAccess × Next :=
  let len := h.datalength - 4
  let addr := h.baseaddr
  -- do_crc over len + 4 bytes
  let crcRead := [.read pos (len + 4).toNat]
  if pos + (len + 4).toNat > b.length then (crcRead, .stop .fault)
  else if doCrc 0 (load (ofList b) pos (len + 4).toNat) ≠ 0 then (crcRead, .stop (.exit 90))
  else
    match regionOf addr with
    | none => (crcRead, .stop (.exit 9))
    | some r =>
      let acc := crcRead ++ [.read pos len.toNat, .store (storeOfs r addr) len.toNat]
      if pos + len.toNat ≤ b.length ∧ storeOfs r addr + len.toNat ≤ elfdataSize then
        (acc, .loop (pos + h.datalength.toNat) (mapsize - h.datalength.toNat)
          (putBlock b pos r addr len g))
      else (acc, .stop .fault)

/-- The header, and the last word of the body for the message, if the body is there. -/
def headerReads (b : List UInt8) (pos : Nat) (mapsize : Int) : List MapAccess :=
  .read pos 16 ::
    (if (fwheader b pos).datalength ≤ UInt32.ofNat mapsize.toNat then
      [.read (pos + 16 + (fwheader b pos).datalength.toNat - 4) 4] else [])

/-- One pass of the loop. -/
def spewStep (b : List UInt8) (pos : Nat) (mapsize : Int) (g : Globals) :
    List MapAccess × Next :=
  if mapsize = 0 then ([], .stop (.exit 19))
  else if mapsize < 0 then ([], .stop (.exit 7))
  else if mapsize < 16 then ([], .stop (.returned g)) -- need(sizeof fwheader)
  else
    let h := fwheader b pos
    let mapsize := mapsize - 16
    let acc := headerReads b pos mapsize
    if doCrc 0 (load (ofList b) pos 16) ≠ 0 then (acc, .stop (.exit 91))
    else if h.dnldcmd = fwHasLastBlock ∧ h.datalength = 0 then
      (acc, .stop (.returned { g with entrypoint := h.baseaddr }))
    else if mapsize < asInt h.datalength then (acc, .stop (.returned g)) -- need(datalength)
    else
      let r := spewBody b h (pos + 16) mapsize g
      (acc ++ r.1, r.2)

/-! ## What a pass can do -/

/-- The header at `pos` ends the image. -/
def IsLast (b : List UInt8) (pos : Nat) : Prop :=
  (fwheader b pos).dnldcmd = fwHasLastBlock ∧ (fwheader b pos).datalength = 0

instance (b : List UInt8) (pos : Nat) : Decidable (IsLast b pos) :=
  inferInstanceAs (Decidable (_ ∧ _))

/-- The header at `pos` has CRC remainder 0. -/
def HeaderOk (b : List UInt8) (pos : Nat) : Prop := doCrc 0 (load (ofList b) pos 16) = 0

instance (b : List UInt8) (pos : Nat) : Decidable (HeaderOk b pos) :=
  inferInstanceAs (Decidable (_ = _))

/-- The `n` bytes at `pos` have CRC remainder 0. -/
def BodyOk (b : List UInt8) (pos n : Nat) : Prop := doCrc 0 (load (ofList b) pos n) = 0

instance (b : List UInt8) (pos n : Nat) : Decidable (BodyOk b pos n) :=
  inferInstanceAs (Decidable (_ = _))

/-- The ends of `spewBody`. The loop goes on only behind a block that was stored. -/
inductive BodyCase (b : List UInt8) (h : FwHeader) (pos : Nat) (mapsize : Int) (g : Globals) :
    List MapAccess × Next → Prop where
  | outside : b.length < pos + h.datalength.toNat →
      BodyCase b h pos mapsize g ([.read pos h.datalength.toNat], .stop .fault)
  | badCrc : pos + h.datalength.toNat ≤ b.length → ¬ BodyOk b pos h.datalength.toNat →
      BodyCase b h pos mapsize g ([.read pos h.datalength.toNat], .stop (.exit 90))
  | unknown : pos + h.datalength.toNat ≤ b.length → BodyOk b pos h.datalength.toNat →
      regionOf h.baseaddr = none →
      BodyCase b h pos mapsize g ([.read pos h.datalength.toNat], .stop (.exit 9))
  | overflow {r : Region} : pos + h.datalength.toNat ≤ b.length →
      BodyOk b pos h.datalength.toNat → regionOf h.baseaddr = some r →
      ¬ (pos + (h.datalength - 4).toNat ≤ b.length ∧
        storeOfs r h.baseaddr + (h.datalength - 4).toNat ≤ elfdataSize) →
      BodyCase b h pos mapsize g
        ([.read pos h.datalength.toNat, .read pos (h.datalength - 4).toNat,
          .store (storeOfs r h.baseaddr) (h.datalength - 4).toNat], .stop .fault)
  | stored {r : Region} : pos + h.datalength.toNat ≤ b.length →
      BodyOk b pos h.datalength.toNat → regionOf h.baseaddr = some r →
      pos + (h.datalength - 4).toNat ≤ b.length →
      storeOfs r h.baseaddr + (h.datalength - 4).toNat ≤ elfdataSize →
      BodyCase b h pos mapsize g
        ([.read pos h.datalength.toNat, .read pos (h.datalength - 4).toNat,
          .store (storeOfs r h.baseaddr) (h.datalength - 4).toNat],
          .loop (pos + h.datalength.toNat) (mapsize - h.datalength.toNat)
            (putBlock b pos r h.baseaddr (h.datalength - 4) g))

theorem spewBody_case (b : List UInt8) (h : FwHeader) (pos : Nat) (mapsize : Int) (g : Globals) :
    BodyCase b h pos mapsize g (spewBody b h pos mapsize g) := by
  unfold spewBody
  dsimp only
  rw [UInt32.sub_add_cancel]
  by_cases h1 : pos + h.datalength.toNat > b.length
  · rw [if_pos h1]
    exact .outside h1
  · rw [if_neg h1]
    by_cases h2 : doCrc 0 (load (ofList b) pos h.datalength.toNat) = 0
    · rw [if_neg (not_not_intro h2)]
      cases hr : regionOf h.baseaddr with
      | none => exact .unknown (Nat.le_of_not_lt h1) h2 hr
      | some r =>
        dsimp only
        by_cases h3 : pos + (h.datalength - 4).toNat ≤ b.length ∧
            storeOfs r h.baseaddr + (h.datalength - 4).toNat ≤ elfdataSize
        · rw [if_pos h3]
          exact .stored (Nat.le_of_not_lt h1) h2 hr h3.1 h3.2
        · rw [if_neg h3]
          exact .overflow (Nat.le_of_not_lt h1) h2 hr h3
    · rw [if_pos h2]
      exact .badCrc (Nat.le_of_not_lt h1) h2

/-- The ends of a pass. -/
inductive StepCase (b : List UInt8) (pos : Nat) (mapsize : Int) (g : Globals) :
    List MapAccess × Next → Prop where
  | ranOut : mapsize = 0 → StepCase b pos mapsize g ([], .stop (.exit 19))
  | negative : mapsize < 0 → StepCase b pos mapsize g ([], .stop (.exit 7))
  | shortHeader : 0 < mapsize → mapsize < 16 → StepCase b pos mapsize g ([], .stop (.returned g))
  | badHeader : 16 ≤ mapsize → ¬ HeaderOk b pos →
      StepCase b pos mapsize g (headerReads b pos (mapsize - 16), .stop (.exit 91))
  | last : 16 ≤ mapsize → HeaderOk b pos → IsLast b pos →
      StepCase b pos mapsize g (headerReads b pos (mapsize - 16),
        .stop (.returned { g with entrypoint := (fwheader b pos).baseaddr }))
  | shortBody : 16 ≤ mapsize → HeaderOk b pos → ¬ IsLast b pos →
      mapsize - 16 < asInt (fwheader b pos).datalength →
      StepCase b pos mapsize g (headerReads b pos (mapsize - 16), .stop (.returned g))
  | body {r : List MapAccess × Next} : 16 ≤ mapsize → HeaderOk b pos → ¬ IsLast b pos →
      asInt (fwheader b pos).datalength ≤ mapsize - 16 →
      BodyCase b (fwheader b pos) (pos + 16) (mapsize - 16) g r →
      StepCase b pos mapsize g (headerReads b pos (mapsize - 16) ++ r.1, r.2)

theorem spewStep_case (b : List UInt8) (pos : Nat) (mapsize : Int) (g : Globals) :
    StepCase b pos mapsize g (spewStep b pos mapsize g) := by
  unfold spewStep
  dsimp only
  by_cases h1 : mapsize = 0
  · rw [if_pos h1]
    exact .ranOut h1
  rw [if_neg h1]
  by_cases h2 : mapsize < 0
  · rw [if_pos h2]
    exact .negative h2
  rw [if_neg h2]
  by_cases h3 : mapsize < 16
  · rw [if_pos h3]
    exact .shortHeader (by omega) h3
  rw [if_neg h3]
  by_cases h4 : doCrc 0 (load (ofList b) pos 16) = 0
  · rw [if_neg (not_not_intro h4)]
    by_cases h5 : (fwheader b pos).dnldcmd = fwHasLastBlock ∧ (fwheader b pos).datalength = 0
    · rw [if_pos h5]
      exact .last (by omega) h4 h5
    · rw [if_neg h5]
      by_cases h6 : mapsize - 16 < asInt (fwheader b pos).datalength
      · rw [if_pos h6]
        exact .shortBody (by omega) h4 h5 h6
      · rw [if_neg h6]
        exact .body (by omega) h4 h5 (by omega) (spewBody_case b _ _ _ g)
  · rw [if_pos h4]
    exact .badHeader (by omega) h4

/-- A pass that goes on leaves less to read. -/
theorem spewStep_lt {b : List UInt8} {pos pos' : Nat} {mapsize mapsize' : Int} {g g' : Globals}
    (h : (spewStep b pos mapsize g).2 = .loop pos' mapsize' g') :
    mapsize'.toNat < mapsize.toNat := by
  have hc := spewStep_case b pos mapsize g
  generalize spewStep b pos mapsize g = s at h hc
  cases hc with
  | ranOut _ | negative _ | shortHeader _ _ | badHeader _ _ | last _ _ _ | shortBody _ _ _ _ =>
    cases h
  | body h16 _ _ _ hb =>
    cases hb with
    | outside _ | badCrc _ _ | unknown _ _ _ | overflow _ _ _ _ => cases h
    | stored _ _ _ _ _ =>
      injection h with _ hm _
      omega

/-! ## Runs -/

/-- The loop from a position: all accesses, and the outcome. -/
def spew (b : List UInt8) (pos : Nat) (mapsize : Int) (g : Globals) : List MapAccess × Outcome :=
  match hs : (spewStep b pos mapsize g).2 with
  | .stop o => ((spewStep b pos mapsize g).1, o)
  | .loop pos' mapsize' g' =>
    have _hlt := spewStep_lt hs
    let r := spew b pos' mapsize' g'
    ((spewStep b pos mapsize g).1 ++ r.1, r.2)
termination_by mapsize.toNat
decreasing_by exact _hlt

theorem spew_stop {b : List UInt8} {pos : Nat} {mapsize : Int} {g : Globals} {o : Outcome}
    (h : (spewStep b pos mapsize g).2 = .stop o) :
    spew b pos mapsize g = ((spewStep b pos mapsize g).1, o) := by
  rw [spew]
  split
  · next ho => rw [h] at ho; cases ho; rfl
  · next ho => rw [h] at ho; cases ho

theorem spew_loop {b : List UInt8} {pos pos' : Nat} {mapsize mapsize' : Int} {g g' : Globals}
    (h : (spewStep b pos mapsize g).2 = .loop pos' mapsize' g') :
    spew b pos mapsize g =
      ((spewStep b pos mapsize g).1 ++ (spew b pos' mapsize' g').1,
        (spew b pos' mapsize' g').2) := by
  rw [spew]
  split
  · next ho => rw [h] at ho; cases ho
  · next ho => rw [h] at ho; cases ho; rfl

end Wifimon.Firmware
