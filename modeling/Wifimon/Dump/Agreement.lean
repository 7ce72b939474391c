/-
  The dumper `src/app/dump.c` and the ELF builder `dump/bin2elf.c`.

  `Agrees` is what the two programs are for: in the directory with the dumps, `mapit` finds every
  file with the size it expects, and a loader of its output has the device's bytes at the
  addresses of its table.

  `dumps_agree_iff`: after `dump(0)`, ..., `dump(4)` with nothing failing they agree if and only
  if `dump-00000000-00080000.bin` was there already, with the device's first 0x80000 bytes. The
  first segment of the dumper's table ends at 0x60000, so `dump(0)` writes its file under another
  name; the four other files are as `mapit` expects them.
-/
import Wifimon.Dump.Bin2elf

namespace Wifimon.Dump

open ByteLib Elf
open App (Files World Device Faults DumpSys Delivers Dumpable dataDir dumpAll dumpName faulty window)

/-! ## The purpose of the two programs -/

/-- `m` is the device's memory, and `dir` the directory `mapit` runs in. -/
structure Agrees (m : UInt32 → UInt8) (dir : Files) (elfdata : Mem) : Prop where
  found : ∀ s ∈ segs, Found dir s
  image : ∃ elf size, mapit dir elfdata = .wrote elf size ∧
    ∀ s ∈ segs, ∀ k < s.size.toNat, Gives elf (s.base.toNat + k) (m (s.base + UInt32.ofNat k))

/-- The file of the entry is there, with the device's bytes. -/
def Holds (m : UInt32 → UInt8) (dir : Files) (s : Seg) : Prop :=
  dir s.name = some (load (window m s.base) 0 s.size.toNat)

/-- The programs agree exactly when every file holds its segment. -/
theorem agrees_iff (m : UInt32 → UInt8) (dir : Files) (elfdata : Mem) :
    Agrees m dir elfdata ↔ ∀ s ∈ segs, Holds m dir s := by
  constructor
  · rintro ⟨hfound, elf, size, hwrote, himage⟩ s hs
    obtain ⟨elf', hwrote', hgives⟩ := mapit_gives hfound elfdata
    rw [hwrote'] at hwrote
    cases hwrote
    obtain ⟨b, hb, hlen, hbytes⟩ := hgives s hs
    have heq : b = load (window m s.base) 0 s.size.toNat := by
      apply List.ext_getElem
      · rw [hlen, load_length]
      · intro k hk _
        rw [load_getElem, Nat.zero_add]
        exact (hbytes k hk).unique (himage s hs k (by omega))
    rw [Holds, hb, heq]
  · intro h
    have hfound : ∀ s ∈ segs, Found dir s := fun s hs => ⟨_, h s hs, load_length ..⟩
    obtain ⟨elf, hwrote, hgives⟩ := mapit_gives hfound elfdata
    refine ⟨hfound, elf, elfSize, hwrote, fun s hs k hk => ?_⟩
    obtain ⟨b, hb, hlen, hbytes⟩ := hgives s hs
    obtain rfl := Option.some.inj (hb.symm.trans (h s hs))
    have hgive := hbytes k (by omega)
    rw [load_getElem, Nat.zero_add] at hgive
    exact hgive

/-! ## After the dumps -/

/-- What is in the data directory of the device. -/
def dataFiles (files : Files) : Files := fun name => files (dataDir ++ name)

/-- The first entry of `segs`, which has the code ram. -/
def codeRam : Seg := ⟨0x00000000, 0x00080000, "dump-00000000-00080000.bin".toList, 0⟩

/-- No dump has the name that `mapit` expects for the code ram. -/
theorem codeRam_name : ∀ sg ∈ App.segs, dataDir ++ codeRam.name ≠ sg.file := by decide

/-- Every other entry is one of the segments dumped, under the same name. -/
theorem segs_dumped : ∀ s ∈ segs, s ≠ codeRam → ∃ i ∈ List.range 5, ∃ sg ∈ App.segs,
    App.segs[i]? = some sg ∧ sg.file = dataDir ++ s.name ∧ sg.base = s.base ∧
      sg.size = s.size := by decide

variable {σ : Type}

/-- The dumps leave the file `mapit` looks for as it was. -/
theorem dumps_codeRam {dev : App.MemDev σ} {m : UInt32 → UInt8} (hd : Delivers dev m)
    {sys : Nat → DumpSys} (h : ∀ i ∈ List.range 5, ∃ sg, Dumpable dev sys i sg) (w : World σ) :
    dataFiles (dumpAll dev sys (List.range 5) w).files codeRam.name =
      dataFiles w.files codeRam.name :=
  App.dumpAll_other hd h
    (fun _ _ sg hsg => codeRam_name sg (List.mem_of_getElem? hsg)) w

theorem dumps_hold {dev : App.MemDev σ} {m : UInt32 → UInt8} (hd : Delivers dev m)
    {sys : Nat → DumpSys} (h : ∀ i ∈ List.range 5, ∃ sg, Dumpable dev sys i sg) (w : World σ)
    {s : Seg} (hs : s ∈ segs) (hne : s ≠ codeRam) :
    Holds m (dataFiles (dumpAll dev sys (List.range 5) w).files) s := by
  obtain ⟨i, hi, sg, -, hsg, hfile, hbase, hsize⟩ := segs_dumped s hs hne
  have hdump := App.dumpAll_file hd h hi hsg w
  rw [hfile, hbase, hsize] at hdump
  exact hdump

/-- The system does what the dumps of the segments 0 to 4 ask for. -/
def AllSucceed (sys : Nat → DumpSys) : Prop :=
  ∀ i ∈ List.range 5, ∀ sg, App.segs[i]? = some sg → (sys i).Succeeds sg.size.toNat

/-- The device fails no read of a word of the segments 0 to 4. -/
def AllRead (f : Faults) : Prop :=
  ∀ i ∈ List.range 5, ∀ sg, App.segs[i]? = some sg → f.ReadsAll sg

theorem all_dumpable {f : Faults} {sys : Nat → DumpSys} (hr : AllRead f) (hs : AllSucceed sys)
    (wlanIdx : Int) (stack : Mem) :
    ∀ i ∈ List.range 5, ∃ sg, Dumpable (faulty f wlanIdx stack) sys i sg := by
  intro i hi
  obtain ⟨sg, hsg⟩ : ∃ sg, App.segs[i]? = some sg := by
    have hlen : i < App.segs.length := Nat.lt_trans (List.mem_range.mp hi) (by decide)
    exact ⟨_, List.getElem?_eq_getElem hlen⟩
  exact ⟨sg, hsg, App.faulty_readsAll (hr i hi sg hsg) wlanIdx stack, hs i hi sg hsg⟩

/-- **The dumper and the builder.** They agree if and only if the file that `mapit` opens for the
    code ram was there before the dumps, with the device's bytes. -/
theorem dumps_agree_iff {f : Faults} (w : World Device) (hserve : f.Serves w.dev.mem)
    (hread : AllRead f) {sys : Nat → DumpSys} (hsys : AllSucceed sys) (wlanIdx : Int)
    (stack elfdata : Mem) :
    Agrees w.dev.mem
        (dataFiles (dumpAll (faulty f wlanIdx stack) sys (List.range 5) w).files) elfdata ↔
      dataFiles w.files "dump-00000000-00080000.bin".toList =
        some (load (window w.dev.mem 0) 0 0x80000) := by
  have hd := App.faulty_delivers hserve wlanIdx stack
  have hall := all_dumpable hread hsys wlanIdx stack
  have hram := dumps_codeRam hd hall w
  rw [agrees_iff]
  constructor
  · intro h
    exact hram.symm.trans (h codeRam (by decide))
  · intro h s hs
    by_cases hne : s = codeRam
    · subst hne
      exact hram.trans h
    · exact dumps_hold hd hall w hs hne

/-! ## Only the dumps -/

/-- A device whose memory is all zero, and which fails no read. -/
def zeroFaults : Faults where
  write := fun _ _ _ => (0, true)
  read := fun _ _ => (0, 0)

/-- A system that fails nothing and writes what it is asked to. -/
def goodSys (i : Nat) : DumpSys where
  malloc := true
  sceIoOpen := 3
  sceIoWrite := ((App.segs[i]?).map fun sg => (sg.size.toNat : Int)).getD 0

/-- The device and the files before any dump. -/
def zeroWorld (files : Files) : World Device := ⟨⟨fun _ => 0, []⟩, files, []⟩

theorem zeroFaults_serves : zeroFaults.Serves fun _ => 0 := by
  intro log addr _
  rfl

theorem zeroFaults_reads : AllRead zeroFaults := fun _ _ _ _ _ _ _ => Int.le_refl 0

theorem goodSys_succeed : AllSucceed goodSys := by
  intro i _ sg hsg
  refine ⟨rfl, (by decide : (0 : Int) ≤ 3), ?_⟩
  rw [goodSys, hsg]
  rfl

/-- In an empty directory, the dumps of a memory that is all zero are not enough. -/
theorem zeroDumps_disagree :
    ¬ Agrees (zeroWorld fun _ => none).dev.mem
      (dataFiles (dumpAll (faulty zeroFaults 0 fun _ => 0) goodSys (List.range 5)
        (zeroWorld fun _ => none)).files) fun _ => 0 := by
  intro h
  obtain ⟨b, hb, -⟩ := h.found codeRam (by decide)
  rw [dumps_codeRam (App.faulty_delivers zeroFaults_serves _ _)
    (all_dumpable zeroFaults_reads goodSys_succeed _ _)] at hb
  cases hb

/-- A directory that has the file already, and nothing else. -/
def zeroRam : Files :=
  Function.update (fun _ => none) (dataDir ++ codeRam.name)
    (some (load (window (fun _ => 0) 0) 0 0x80000))

theorem zeroRam_codeRam : dataFiles zeroRam codeRam.name =
    some (load (window (fun _ => 0) 0) 0 0x80000) := by
  unfold dataFiles zeroRam
  exact Function.update_self ..

theorem zeroDumps_agree :
    Agrees (zeroWorld zeroRam).dev.mem
      (dataFiles (dumpAll (faulty zeroFaults 0 fun _ => 0) goodSys (List.range 5)
        (zeroWorld zeroRam)).files) fun _ => 0 :=
  (dumps_agree_iff (zeroWorld zeroRam) zeroFaults_serves zeroFaults_reads goodSys_succeed
    0 (fun _ => 0) (fun _ => 0)).mpr zeroRam_codeRam

end Wifimon.Dump
