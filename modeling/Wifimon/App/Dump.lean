/-
  `src/app/dump.c`: a segment of the firmware's memory, word by word, into a file.

  `dumpLoop` is the loop over the words: it runs until the end of the segment or the first
  failing read, and a store past the allocated buffer is a fault. The system's answers to
  `malloc`, `sceIoOpen` and `sceIoWrite` are a parameter (`DumpSys`), and every one of these calls
  is logged.

  `dumpSeg_file`: what a dump leaves in its file is the part of the segment before the first
  failing read, under a name with the length of that part.
-/
import Wifimon.App.Util
import Mathlib.Logic.Function.Basic

namespace Wifimon.App

open ByteLib

/-! ## The segments and the files -/

/-- `struct seg_t`, less the name, which nothing reads. -/
structure Seg where
  base : UInt32
  size : UInt32
  deriving DecidableEq

def segs : List Seg :=
  [⟨0x00000000, 0x00060000⟩, -- code ram (tcim)
   ⟨0x04000000, 0x00010000⟩, -- data ram (tcdm)
   ⟨0xc0000000, 0x00040000⟩, -- ram
   ⟨0x03f00000, 0x00050000⟩, -- code rom
   ⟨0x80000000, 0x00010000⟩, -- peripherals
   ⟨0x90000000, 0x00001000⟩] -- this one is not dumpable somehow

/-- The files, by name. -/
abbrev Files := List Char → Option (List UInt8)

/-- `"%08x"` -/
def hex8 (x : UInt32) : List Char :=
  (List.range 8).map fun k => Nat.digitChar (x.toNat / 16 ^ (7 - k) % 16)

/-- `"ux0:data/"`, where the dumps go. -/
def dataDir : List Char := "ux0:data/".toList

def dumpName (base size : UInt32) : List Char :=
  dataDir ++ "dump-".toList ++ hex8 base ++ "-".toList ++ hex8 size ++ ".bin".toList

/-! ## The functions -/

/-- What the system answers to the calls of one `dump`: whether `malloc` finds the memory, and
    the values of `sceIoOpen` and `sceIoWrite`. -/
structure DumpSys where
  malloc : Bool
  sceIoOpen : Int
  sceIoWrite : Int

inductive DumpEvent where
  | malloc (size : UInt32) (ok : Bool)
  | sceIoOpen (name : List Char) (fd : Int)
  | sceIoWrite (fd : Int) (data : List UInt8) (ret : Int)
  | sceIoClose (fd : Int)
  | free
  deriving DecidableEq

structure World (σ : Type) where
  dev : σ
  files : Files
  log : List DumpEvent

variable {σ : Type}

def World.emit (e : DumpEvent) (w : World σ) : World σ := { w with log := w.log ++ [e] }

/-- The variables of the loop. `segp` is the distance from `seg`. -/
structure Locals where
  addr : UInt32
  segp : Nat
  size : UInt32
  seg : Mem

/-- The loop, with room for `room` words from `segp` on; `none` is a store past the end of `seg`.
    A failing `mem_read` stores its word all the same, and the `ret` it sets is not the one
    `dump` returns. -/
def dumpLoop (dev : MemDev σ) (addrmax : UInt32) : Nat → Locals → σ → Option Locals × σ
  | 0, l, s => if l.addr < addrmax then (none, (dev.memRead l.addr s).2.2) else (some l, s)
  | room + 1, l, s =>
    if l.addr < addrmax then
      let r := dev.memRead l.addr s
      let seg := store l.seg l.segp (le 4 r.2.1.toNat)
      if r.1 < 0 then (some { l with seg := seg }, r.2.2)
      else dumpLoop dev addrmax room ⟨l.addr + 4, l.segp + 4, l.size + 4, seg⟩ r.2.2
    else (some l, s)

/-- Opening, writing and closing the file. A failing write leaves the file open, and empty. -/
def writeFile (sys : DumpSys) (name : List Char) (data : List UInt8) (w : World σ) : World σ :=
  let fd := sys.sceIoOpen
  let w := w.emit (.sceIoOpen name fd)
  if 0 ≤ fd then
    let ret := sys.sceIoWrite
    let w := { w with files := Function.update w.files name (some (data.take ret.toNat)) }
    let w := w.emit (.sceIoWrite fd data ret)
    if 0 ≤ ret then w.emit (.sceIoClose fd) else w
  else w

/-- `dump` for the segment `segs[i]`; `none` is a fault. -/
def dumpSeg (dev : MemDev σ) (sys : DumpSys) (sg : Seg) (w : World σ) : Option Int × World σ :=
  let w := w.emit (.malloc sg.size sys.malloc)
  if sys.malloc = false then (some (-1), w)
  else
    let r := dumpLoop dev (sg.base + sg.size) (sg.size.toNat / 4) ⟨sg.base, 0, 0, fun _ => 0⟩ w.dev
    let w := { w with dev := r.2 }
    match r.1 with
    | none => (none, w)
    | some l =>
      let w := writeFile sys (dumpName sg.base l.size) (load l.seg 0 l.size.toNat) w
      (some 0, w.emit .free)

def dump (dev : MemDev σ) (sys : DumpSys) (i : Nat) (w : World σ) : Option Int × World σ :=
  match segs[i]? with
  | some sg => dumpSeg dev sys sg w
  | none => (none, w)

/-! ## The memory that is dumped -/

/-- The device's memory from `base` on. -/
def window (m : UInt32 → UInt8) (base : UInt32) : Mem := fun k => m (base + UInt32.ofNat k)

/-- The little-endian word at `addr`. -/
def wordAt (m : UInt32 → UInt8) (addr : UInt32) : UInt32 := rd32 (window m addr) 0

/-- A read that succeeds delivers the word of `m`. -/
def Delivers (dev : MemDev σ) (m : UInt32 → UInt8) : Prop :=
  ∀ (addr : UInt32) (s : σ), 0 ≤ (dev.memRead addr s).1 →
    (dev.memRead addr s).2.1 = wordAt m addr

/-- The reads of the segment's words succeed. -/
def ReadsAll (dev : MemDev σ) (sg : Seg) : Prop :=
  ∀ (k : Nat) (s : σ), 4 * k < sg.size.toNat →
    0 ≤ (dev.memRead (sg.base + UInt32.ofNat (4 * k)) s).1

/-- The number of words, of `n` from `addr` on, that are read before a read fails. -/
def readable (dev : MemDev σ) : Nat → UInt32 → σ → Nat
  | 0, _, _ => 0
  | n + 1, addr, s =>
    let r := dev.memRead addr s
    if r.1 < 0 then 0 else readable dev n (addr + 4) r.2.2 + 1

/-- A segment of whole words that ends before the last word of the address space. -/
structure Seg.Fits (sg : Seg) : Prop where
  words : sg.size.toNat % 4 = 0
  limit : sg.base.toNat + sg.size.toNat ≤ 2 ^ 32 - 4

instance (sg : Seg) : Decidable sg.Fits :=
  decidable_of_iff (sg.size.toNat % 4 = 0 ∧ sg.base.toNat + sg.size.toNat ≤ 2 ^ 32 - 4)
    ⟨fun h => ⟨h.1, h.2⟩, fun h => ⟨h.1, h.2⟩⟩

theorem segs_fits : ∀ sg ∈ segs, sg.Fits := by decide

/-- The reads of the device that succeed deliver the word of `m`. -/
def Faults.Serves (f : Faults) (m : UInt32 → UInt8) : Prop :=
  ∀ (log : List Access) (addr : UInt32), 0 ≤ (f.read log addr).1 →
    (f.read log addr).2 = wordAt m addr

/-- The device fails no read of a word of the segment. -/
def Faults.ReadsAll (f : Faults) (sg : Seg) : Prop :=
  ∀ (log : List Access) (k : Nat), 4 * k < sg.size.toNat →
    0 ≤ (f.read log (sg.base + UInt32.ofNat (4 * k))).1

theorem faulty_delivers {f : Faults} {m : UInt32 → UInt8} (h : f.Serves m) (wlanIdx : Int)
    (stack : Mem) : Delivers (faulty f wlanIdx stack) m := by
  intro addr d
  rw [faulty_memRead]
  exact h d.log addr

theorem faulty_readsAll {f : Faults} {sg : Seg} (h : f.ReadsAll sg) (wlanIdx : Int)
    (stack : Mem) : ReadsAll (faulty f wlanIdx stack) sg := by
  intro k d hk
  rw [faulty_memRead]
  exact h d.log k hk

/-! ## The loop -/

theorem window_add (m : UInt32 → UInt8) (base : UInt32) (j i : Nat) :
    window m (base + UInt32.ofNat j) i = window m base (j + i) := by
  unfold window
  rw [UInt32.add_assoc, UInt32.ofNat_add]

/-- The bytes of the word at `base + j`. -/
theorem le_wordAt (m : UInt32 → UInt8) (base : UInt32) (j : Nat) :
    le 4 (wordAt m (base + UInt32.ofNat j)).toNat = load (window m base) j 4 := by
  rw [wordAt, le_rd32]
  refine List.map_congr_left fun i _ => ?_
  rw [window_add, Nat.zero_add]

theorem toNat_add_ofNat {base : UInt32} {k : Nat} (h : base.toNat + k < 2 ^ 32) :
    (base + UInt32.ofNat k).toNat = base.toNat + k := by
  have hk : (UInt32.ofNat k).toNat = k := UInt32.toNat_ofNat_of_lt' (by show k < 2 ^ 32; omega)
  rw [UInt32.toNat_add, hk, Nat.mod_eq_of_lt h]

theorem ofNat_add_four (j : Nat) : UInt32.ofNat (4 * j) + 4 = UInt32.ofNat (4 * (j + 1)) := by
  rw [Nat.mul_succ, UInt32.ofNat_add]
  rfl

/-- From the `j`-th word on, `addr`, `segp` and `size` have the same distance from their starts,
    and `seg` holds what was read. -/
theorem dumpLoop_spec {dev : MemDev σ} {m : UInt32 → UInt8} (hd : Delivers dev m) (base : UInt32)
    (room j : Nat) (h : base.toNat + 4 * (j + room) < 2 ^ 32) (seg : Mem)
    (hseg : load seg 0 (4 * j) = load (window m base) 0 (4 * j)) (s : σ) :
    ∃ l s', dumpLoop dev (base + UInt32.ofNat (4 * (j + room))) room
        ⟨base + UInt32.ofNat (4 * j), 4 * j, UInt32.ofNat (4 * j), seg⟩ s = (some l, s') ∧
      ∀ n, n = j + readable dev room (base + UInt32.ofNat (4 * j)) s →
        l.size = UInt32.ofNat (4 * n) ∧
        load l.seg 0 (4 * n) = load (window m base) 0 (4 * n) := by
  induction room generalizing j seg s with
  | zero =>
    refine ⟨_, s, if_neg (UInt32.lt_irrefl _), ?_⟩
    rintro n rfl
    exact ⟨rfl, hseg⟩
  | succ room ih =>
    have hlt : base + UInt32.ofNat (4 * j) < base + UInt32.ofNat (4 * (j + (room + 1))) := by
      rw [UInt32.lt_iff_toNat_lt, toNat_add_ofNat (by omega), toNat_add_ofNat h]
      omega
    rw [dumpLoop, if_pos hlt]
    dsimp only
    split
    · -- the read fails
      next hr =>
      refine ⟨_, _, rfl, ?_⟩
      rintro n rfl
      rw [readable, if_pos hr]
      refine ⟨rfl, ?_⟩
      rw [Nat.add_zero, load_store_disjoint (Or.inl (by omega))]
      exact hseg
    · next hr =>
      have hword := hd _ s (Int.not_lt.mp hr)
      rw [hword, le_wordAt, UInt32.add_assoc, ofNat_add_four,
        show j + (room + 1) = j + 1 + room by omega]
      have hnext : load (store seg (4 * j) (load (window m base) (4 * j) 4)) 0 (4 * (j + 1)) =
          load (window m base) 0 (4 * (j + 1)) := by
        have hself := load_store_self seg (4 * j) (load (window m base) (4 * j) 4)
        rw [load_length] at hself
        rw [Nat.mul_succ, load_append, load_append, load_store_disjoint (Or.inl (by omega)),
          Nat.zero_add, hself, hseg]
      obtain ⟨l, s', hrun, hl⟩ := ih (j + 1) (by omega) _ hnext _
      refine ⟨l, s', hrun, fun n hn => hl n ?_⟩
      rw [hn, readable, if_neg hr, UInt32.add_assoc, ofNat_add_four]
      omega

theorem readable_le (dev : MemDev σ) (n : Nat) (addr : UInt32) (s : σ) :
    readable dev n addr s ≤ n := by
  induction n generalizing addr s with
  | zero => exact Nat.le_refl _
  | succ n ih =>
    rw [readable]
    split
    · exact Nat.zero_le _
    · exact Nat.succ_le_succ (ih _ _)

/-- Where no read fails, all words are read. -/
theorem readable_eq {dev : MemDev σ} {n : Nat} {addr : UInt32}
    (h : ∀ (k : Nat) (s : σ), k < n → 0 ≤ (dev.memRead (addr + UInt32.ofNat (4 * k)) s).1)
    (s : σ) : readable dev n addr s = n := by
  induction n generalizing addr s with
  | zero => rfl
  | succ n ih =>
    have h0 := h 0 s (Nat.succ_pos n)
    rw [show addr + UInt32.ofNat (4 * 0) = addr from UInt32.add_zero addr] at h0
    rw [readable, if_neg (by omega), ih fun k s hk => ?_]
    rw [UInt32.add_assoc, UInt32.add_comm 4, ofNat_add_four]
    exact h (k + 1) s (Nat.succ_lt_succ hk)

/-- The loop over a segment of whole words that does not reach the end of the address space. -/
theorem dumpLoop_segment {dev : MemDev σ} {m : UInt32 → UInt8} (hd : Delivers dev m) {sg : Seg}
    (hwords : sg.size.toNat % 4 = 0) (hlimit : sg.base.toNat + sg.size.toNat < 2 ^ 32) (s : σ)
    {n : Nat}
    (hn : n = 4 * readable dev (sg.size.toNat / 4) sg.base s) :
    ∃ l s', dumpLoop dev (sg.base + sg.size) (sg.size.toNat / 4) ⟨sg.base, 0, 0, fun _ => 0⟩ s =
        (some l, s') ∧
      l.size = UInt32.ofNat n ∧ l.size.toNat = n ∧
      load l.seg 0 n = load (window m sg.base) 0 n := by
  have hsize : 4 * (sg.size.toNat / 4) = sg.size.toNat := by omega
  obtain ⟨l, s', hrun, hl⟩ := dumpLoop_spec hd sg.base (sg.size.toNat / 4) 0
    (by omega) (fun _ => 0) rfl s
  have hmax : sg.base + UInt32.ofNat (4 * (0 + sg.size.toNat / 4)) = sg.base + sg.size := by
    rw [Nat.zero_add, hsize, UInt32.ofNat_toNat]
  have hbase : sg.base + UInt32.ofNat (4 * 0) = sg.base := UInt32.add_zero sg.base
  rw [hmax, hbase] at hrun
  rw [hbase] at hl
  obtain ⟨hlen, hdata⟩ := hl _ (Nat.zero_add _).symm
  rw [← hn] at hlen hdata
  have hle := readable_le dev (sg.size.toNat / 4) sg.base s
  have hlt := sg.size.toNat_lt
  refine ⟨l, s', hrun, hlen, ?_, hdata⟩
  rw [hlen]
  exact UInt32.toNat_ofNat_of_lt' (by show n < 2 ^ 32; omega)

/-! ## The file -/

/-- The system does what `dump` asks for, when it has `size` bytes to write. -/
structure DumpSys.Succeeds (sys : DumpSys) (size : Nat) : Prop where
  malloc : sys.malloc = true
  sceIoOpen : 0 ≤ sys.sceIoOpen
  sceIoWrite : sys.sceIoWrite = size

theorem writeFile_files {sys : DumpSys} (ho : 0 ≤ sys.sceIoOpen) (hw : 0 ≤ sys.sceIoWrite)
    (name : List Char) (data : List UInt8) (w : World σ) :
    (writeFile sys name data w).files =
      Function.update w.files name (some (data.take sys.sceIoWrite.toNat)) := by
  unfold writeFile
  dsimp only
  rw [if_pos ho, if_pos hw]
  rfl

/-- **A dump.** The file named after the segment's base and the number of bytes read before the
    first failing read holds these bytes, and no other file changes. -/
theorem dumpSeg_file {dev : MemDev σ} {m : UInt32 → UInt8} (hd : Delivers dev m) {sg : Seg}
    (hfit : sg.Fits) {sys : DumpSys} {w : World σ} {n : Nat}
    (hn : n = 4 * readable dev (sg.size.toNat / 4) sg.base w.dev) (hs : sys.Succeeds n) :
    (dumpSeg dev sys sg w).1 = some 0 ∧
      (dumpSeg dev sys sg w).2.files = Function.update w.files
        (dumpName sg.base (UInt32.ofNat n)) (some (load (window m sg.base) 0 n)) := by
  have hlimit : sg.base.toNat + sg.size.toNat < 2 ^ 32 := by
    have := hfit.limit
    omega
  obtain ⟨l, s', hrun, hlen, hnat, hdata⟩ := dumpLoop_segment hd hfit.words hlimit w.dev hn
  have hall : (load l.seg 0 l.size.toNat).take sys.sceIoWrite.toNat =
      load (window m sg.base) 0 n := by
    rw [hs.sceIoWrite, Int.toNat_natCast, hnat,
      List.take_of_length_le (Nat.le_of_eq (load_length ..)), hdata]
  have hwrite : (0 : Int) ≤ sys.sceIoWrite := by
    rw [hs.sceIoWrite]
    exact Int.natCast_nonneg n
  unfold dumpSeg
  rw [hs.malloc, if_neg (by decide)]
  dsimp only [World.emit]
  rw [hrun]
  refine ⟨rfl, ?_⟩
  show (writeFile sys (dumpName sg.base l.size) _ _).files = _
  rw [writeFile_files hs.sceIoOpen hwrite, hall, hlen]

/-! ## A run of dumps -/

/-- The name of the file with the whole segment. -/
def Seg.file (sg : Seg) : List Char := dumpName sg.base sg.size

/-- `dump` for the indices `is`, in order. `sys i` is what the system answers to the `i`-th. -/
def dumpAll (dev : MemDev σ) (sys : Nat → DumpSys) (is : List Nat) (w : World σ) : World σ :=
  is.foldl (fun w i => (dump dev (sys i) i w).2) w

/-- The dump of a segment with nothing failing. -/
structure Dumpable (dev : MemDev σ) (sys : Nat → DumpSys) (i : Nat) (sg : Seg) : Prop where
  seg : segs[i]? = some sg
  reads : ReadsAll dev sg
  succeeds : (sys i).Succeeds sg.size.toNat

theorem dump_file {dev : MemDev σ} {m : UInt32 → UInt8} (hd : Delivers dev m)
    {sys : Nat → DumpSys} {i : Nat} {sg : Seg} (h : Dumpable dev sys i sg) (w : World σ) :
    (dump dev (sys i) i w).2.files =
      Function.update w.files sg.file (some (load (window m sg.base) 0 sg.size.toNat)) := by
  have hfit := segs_fits sg (List.mem_of_getElem? h.seg)
  have hall : sg.size.toNat = 4 * readable dev (sg.size.toNat / 4) sg.base w.dev := by
    rw [readable_eq fun k s hk => h.reads k s (by omega)]
    have := hfit.words
    omega
  have hfile := (dumpSeg_file hd hfit hall h.succeeds).2
  rw [UInt32.ofNat_toNat] at hfile
  rw [dump, h.seg]
  exact hfile

theorem segs_file_inj : ∀ sg ∈ segs, ∀ sg' ∈ segs, sg.file = sg'.file → sg = sg' := by decide

/-- A run changes no file but those of its segments. -/
theorem dumpAll_other {dev : MemDev σ} {m : UInt32 → UInt8} (hd : Delivers dev m)
    {sys : Nat → DumpSys} {is : List Nat} (h : ∀ i ∈ is, ∃ sg, Dumpable dev sys i sg)
    {name : List Char} (hname : ∀ i ∈ is, ∀ sg, segs[i]? = some sg → name ≠ sg.file)
    (w : World σ) : (dumpAll dev sys is w).files name = w.files name := by
  induction is generalizing w with
  | nil => rfl
  | cons i is ih =>
    obtain ⟨sg, hsg⟩ := h i (List.mem_cons_self ..)
    have hrest := ih (fun k hk => h k (List.mem_cons_of_mem i hk))
      (fun k hk => hname k (List.mem_cons_of_mem i hk)) (dump dev (sys i) i w).2
    rw [dump_file hd hsg,
      Function.update_of_ne (hname i (List.mem_cons_self ..) sg hsg.seg)] at hrest
    exact hrest

/-- A run leaves every one of its segments in a file. -/
theorem dumpAll_file {dev : MemDev σ} {m : UInt32 → UInt8} (hd : Delivers dev m)
    {sys : Nat → DumpSys} {is : List Nat} (h : ∀ i ∈ is, ∃ sg, Dumpable dev sys i sg)
    {i : Nat} (hi : i ∈ is) {sg : Seg} (hsg : segs[i]? = some sg) (w : World σ) :
    (dumpAll dev sys is w).files sg.file = some (load (window m sg.base) 0 sg.size.toNat) := by
  induction is generalizing i w with
  | nil => cases hi
  | cons k is ih =>
    have h' : ∀ i ∈ is, ∃ sg, Dumpable dev sys i sg := fun i hi => h i (List.mem_cons_of_mem k hi)
    by_cases hlater : ∃ j ∈ is, segs[j]? = some sg
    · obtain ⟨j, hj, hseg⟩ := hlater
      exact ih h' hj hseg _
    · -- the segment is dumped now, and its file not touched again
      rcases List.mem_cons.mp hi with rfl | hi
      · obtain ⟨sg', hd'⟩ := h i (List.mem_cons_self ..)
        obtain rfl : sg = sg' := Option.some.inj (hsg.symm.trans hd'.seg)
        have hother := dumpAll_other hd h' (fun j hj sg' hj' hfile => by
          have := segs_file_inj sg (List.mem_of_getElem? hsg) sg' (List.mem_of_getElem? hj') hfile
          exact hlater ⟨j, hj, this ▸ hj'⟩) (dump dev (sys i) i w).2
        rw [dump_file hd hd', Function.update_self] at hother
        exact hother
      · exact absurd ⟨i, hi, hsg⟩ hlater

end Wifimon.App
