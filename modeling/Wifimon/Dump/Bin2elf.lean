/-
  `dump/bin2elf.c`: the dumps of the memory as one ELF file.

  `mapit` reads the files of the table `segs` one after another into `elfdata`, and `mkelf`
  writes the headers over its start. A file that cannot be opened is a fault: the null stream
  goes to `fread` unchecked.

  * `mapit_loadImage`: if every file is there with its size, the program header table of the file
    the tool writes has one entry for every dump, in order, that loads the dump at its base; no
    two entries share an address or a byte of the file, and all lie inside it.
  * `mapit_gives`: a loader of that file has, at the addresses of every segment, the bytes of the
    segment's file.
-/
import Wifimon.App.Dump
import Wifimon.Elf.Tables
import Mathlib.Data.List.Forall2

namespace Wifimon.Dump

open ByteLib Elf
open App (Files)

/-! ## The functions -/

/-- An entry of `segs`. The loop in `mapit` sets `ofs`. -/
structure Seg where
  base : UInt32
  size : UInt32
  name : List Char
  ofs : UInt32
  deriving DecidableEq

def segs : List Seg :=
  [⟨0x00000000, 0x00080000, "dump-00000000-00080000.bin".toList, 0⟩,
   ⟨0x03f00000, 0x00050000, "dump-03f00000-00050000.bin".toList, 0⟩,
   ⟨0x04000000, 0x00010000, "dump-04000000-00010000.bin".toList, 0⟩,
   ⟨0x80000000, 0x00010000, "dump-80000000-00010000.bin".toList, 0⟩,
   ⟨0xC0000000, 0x00040000, "dump-c0000000-00040000.bin".toList, 0⟩]

/-- The calls of `ss` in `mkelf`. -/
def sections (segs : List Seg) : List SsArgs :=
  let seg := fun k => segs.getD k ⟨0, 0, [], 0⟩
  [⟨cstr "".toList, false, false, 0x00000000, 0x00000, 0x00000, none⟩,
   ⟨cstr ".000".toList, true, true, 0x00000000, 0x80000, (seg 0).ofs, some (.var (seg 0).size)⟩,
   ⟨cstr ".03f".toList, false, true, 0x03f00000, 0x50000, (seg 1).ofs, some (.var (seg 1).size)⟩,
   ⟨cstr ".040".toList, true, true, 0x04000000, 0x20000, (seg 2).ofs, some (.var (seg 2).size)⟩,
   ⟨cstr ".800".toList, true, false, 0x80000000, 0x10000, (seg 3).ofs, some (.var (seg 3).size)⟩,
   ⟨cstr ".900".toList, true, false, 0x90000000, 0x0c000, 0x0, none⟩,
   ⟨cstr ".c00".toList, true, true, 0xc0000000, 0x40000, (seg 4).ofs, some (.var (seg 4).size)⟩,
   ⟨cstr ".shstrtab".toList, false, false, 0x00000000, 0x00000, 42, some .shsz⟩]

/-- Five of them are loadable, and the section headers do not survive. -/
theorem sections_not_intact (segs : List Seg) : ¬ Intact (sections segs) (runSs (sections segs)) :=
  not_intact_of_three (show 2 < 5 by decide)

/-- `elfdata` after `mkelf`. Nothing sets `entrypoint`. -/
def mkelf (segs : List Seg) (elfdata : Mem) : Mem := sealElf (sections segs) 0 elfdata

/-- The loop over the entries still to read, with the files of the directory `dir`; `none` is a
    fault. `fread` stores as much as the file has, and `segs[i].size` bytes at most. -/
def readSegs (dir : Files) : List Seg → UInt32 → Mem → Option (List Seg × Mem)
  | [], _, elfdata => some ([], elfdata)
  | s :: t, ofs, elfdata =>
    match dir s.name with
    | none => none
    | some b =>
      (readSegs dir t (ofs + s.size) (store elfdata ofs.toNat (b.take s.size.toNat))).map
        fun r => ({ s with ofs := ofs } :: r.1, r.2)

/-- The size of `elfdata`. -/
def elfSize : UInt32 := segs.foldl (fun size s => size + s.size) (2 * 4096)

inductive MapitResult where
  | fault
  | wrote (elf : Mem) (size : UInt32)

/-- The tool in the directory `dir`. `elfdata` is the memory `malloc` found. -/
def mapit (dir : Files) (elfdata : Mem) : MapitResult :=
  match readSegs dir segs (2 * 4096) elfdata with
  | none => .fault
  | some (segs, elfdata) => .wrote (mkelf segs elfdata) elfSize

/-! ## The files in `elfdata` -/

/-- The entries with the offsets the loop gives them. -/
def place : UInt32 → List Seg → List Seg
  | _, [] => []
  | ofs, s :: t => { s with ofs := ofs } :: place (ofs + s.size) t

/-- The file of the entry is there, with its size. -/
def Found (dir : Files) (s : Seg) : Prop :=
  ∃ b, dir s.name = some b ∧ b.length = s.size.toNat

/-- Every file is read to its place, and nothing before the first place changes. -/
theorem readSegs_spec {dir : Files} {t : List Seg} (h : ∀ s ∈ t, Found dir s) (ofs : UInt32)
    (hsum : ofs.toNat + (t.map fun s => s.size.toNat).sum < 2 ^ 32) (elfdata : Mem) :
    ∃ elfdata', readSegs dir t ofs elfdata = some (place ofs t, elfdata') ∧
      (∀ i < ofs.toNat, elfdata' i = elfdata i) ∧
      ∀ s ∈ place ofs t, dir s.name = some (load elfdata' s.ofs.toNat s.size.toNat) := by
  induction t generalizing ofs elfdata with
  | nil => exact ⟨elfdata, rfl, fun _ _ => rfl, nofun⟩
  | cons s t ih =>
    obtain ⟨b, hb, hlen⟩ := h s (List.mem_cons_self ..)
    rw [List.map_cons, List.sum_cons] at hsum
    have hnext : (ofs + s.size).toNat = ofs.toNat + s.size.toNat := by
      rw [UInt32.toNat_add, Nat.mod_eq_of_lt (by omega)]
    obtain ⟨elfdata', hrun, hkeep, hfiles⟩ := ih (fun s hs => h s (List.mem_cons_of_mem _ hs))
      (ofs + s.size) (by omega) (store elfdata ofs.toNat b)
    refine ⟨elfdata', ?_, fun i hi => ?_, ?_⟩
    · rw [readSegs, hb]
      dsimp only
      rw [List.take_of_length_le (Nat.le_of_eq hlen), hrun]
      rfl
    · rw [hkeep i (by omega), store_apply_of_not (Or.inl hi)]
    · intro p hp
      rcases List.mem_cons.mp hp with rfl | hp
      · -- the rest of the loop stores past this file
        have hfile : load elfdata' ofs.toNat s.size.toNat = b := by
          rw [load_congr fun i hi => hkeep _ (by omega), ← hlen, load_store_self]
        show dir s.name = some (load elfdata' ofs.toNat s.size.toNat)
        rw [hfile, hb]
      · exact hfiles p hp

/-! ## The program headers -/

/-- The table once `mapit` has read the files. -/
def placed : List Seg := place (2 * 4096) segs

/-- The PT_LOAD entries of the output. -/
def loads : List Phdr :=
  [⟨ptLoad, 0x02000, 0x00000000, 0x00000000, 0x80000, 0x80000, phdrFlags true true, 0⟩,
   ⟨ptLoad, 0x82000, 0x03f00000, 0x03f00000, 0x50000, 0x50000, phdrFlags false true, 0⟩,
   ⟨ptLoad, 0xd2000, 0x04000000, 0x04000000, 0x10000, 0x20000, phdrFlags true true, 0⟩,
   ⟨ptLoad, 0xe2000, 0x80000000, 0x80000000, 0x10000, 0x10000, phdrFlags true false, 0⟩,
   ⟨ptLoad, 0xf2000, 0xc0000000, 0xc0000000, 0x40000, 0x40000, phdrFlags true true, 0⟩]

theorem phdrs_mkelf (elfdata : Mem) : phdrs (mkelf placed elfdata) = loads := by
  rw [mkelf, phdrs_seal _ (by decide)]
  decide

theorem loads_apart : loads.Pairwise Apart := by decide

/-- No byte of the file is in both. -/
def FileApart (p q : Phdr) : Prop :=
  p.offset.toNat + p.filesz.toNat ≤ q.offset.toNat ∨
    q.offset.toNat + q.filesz.toNat ≤ p.offset.toNat

instance (p q : Phdr) : Decidable (FileApart p q) := inferInstanceAs (Decidable (_ ∨ _))

/-- `p` is the entry of `s`, and points to the place of its file, behind the headers. -/
def EntryOf (s : Seg) (p : Phdr) : Prop :=
  p.type = ptLoad ∧ p.vaddr = s.base ∧ p.filesz = s.size ∧ p.filesz.toNat ≤ p.memsz.toNat ∧
    ∃ s' ∈ placed, s'.name = s.name ∧ s'.size = s.size ∧ p.offset = s'.ofs ∧
      sizeofE ≤ s'.ofs.toNat

instance (s : Seg) (p : Phdr) : Decidable (EntryOf s p) := inferInstanceAs (Decidable (_ ∧ _))

theorem loads_entries : List.Forall₂ EntryOf segs loads := by decide

/-! ## The image -/

/-- The entry `p` loads the file of `s`. -/
structure LoadsSeg (dir : Files) (elf : Mem) (s : Seg) (p : Phdr) : Prop where
  type : p.type = ptLoad
  vaddr : p.vaddr = s.base
  filesz : p.filesz = s.size
  memsz : p.filesz.toNat ≤ p.memsz.toNat
  bytes : ∃ b, dir s.name = some b ∧ b.length = s.size.toNat ∧
    ∀ (k : Nat) (hk : k < b.length), elf (p.offset.toNat + k) = b[k]

/-- The table of `elf`, a file of `size` bytes, is that of a load image of the dumps. -/
structure LoadImage (dir : Files) (elf : Mem) (size : UInt32) : Prop where
  entries : List.Forall₂ (LoadsSeg dir elf) segs (phdrs elf)
  addresses : (phdrs elf).Pairwise Apart
  files : (phdrs elf).Pairwise FileApart
  inside : ∀ p ∈ phdrs elf, p.offset.toNat + p.filesz.toNat ≤ size.toNat

/-- The run of the tool when every file is there. -/
theorem mapit_run {dir : Files} (h : ∀ s ∈ segs, Found dir s) (elfdata : Mem) :
    ∃ data, mapit dir elfdata = .wrote (mkelf placed data) elfSize ∧
      ∀ s ∈ placed, dir s.name = some (load data s.ofs.toNat s.size.toNat) := by
  obtain ⟨data, hrun, -, hfiles⟩ := readSegs_spec h (2 * 4096) (by decide) elfdata
  refine ⟨data, ?_, hfiles⟩
  unfold mapit
  rw [hrun]
  rfl

theorem entry_loads {dir : Files} {data : Mem}
    (hfiles : ∀ s ∈ placed, dir s.name = some (load data s.ofs.toNat s.size.toNat)) {s : Seg}
    {p : Phdr} (h : EntryOf s p) : LoadsSeg dir (mkelf placed data) s p := by
  obtain ⟨htype, hvaddr, hfilesz, hmemsz, s', hs', hname, hsize, hoffset, hpast⟩ := h
  have hfile := hfiles s' hs'
  rw [hname, hsize] at hfile
  refine ⟨htype, hvaddr, hfilesz, hmemsz, _, hfile, load_length .., ?_⟩
  intro k hk
  rw [load_getElem, hoffset]
  exact sealElf_data _ _ _ (by omega)

theorem loadImage_mkelf {dir : Files} {data : Mem}
    (hfiles : ∀ s ∈ placed, dir s.name = some (load data s.ofs.toNat s.size.toNat)) :
    LoadImage dir (mkelf placed data) elfSize := by
  have htable := phdrs_mkelf data
  refine ⟨?_, ?_, ?_, ?_⟩
  · rw [htable]
    exact loads_entries.imp fun _ _ hp => entry_loads hfiles hp
  · rw [htable]
    exact loads_apart
  · rw [htable]
    decide
  · rw [htable]
    decide

theorem forall₂_mem_left {α β : Type} {R : α → β → Prop} {l : List α} {l' : List β}
    (h : List.Forall₂ R l l') {a : α} (ha : a ∈ l) : ∃ b ∈ l', R a b := by
  induction h with
  | nil => cases ha
  | @cons x y _ _ hxy _ ih =>
    rcases List.mem_cons.mp ha with rfl | ha
    · exact ⟨y, List.mem_cons_self .., hxy⟩
    · obtain ⟨b, hb, hab⟩ := ih ha
      exact ⟨b, List.mem_cons_of_mem _ hb, hab⟩

/-- What a loader has of a load image: every byte of a file at its address. -/
theorem LoadImage.gives {dir : Files} {elf : Mem} {size : UInt32} (h : LoadImage dir elf size)
    {s : Seg} (hs : s ∈ segs) :
    ∃ b, dir s.name = some b ∧ b.length = s.size.toNat ∧
      ∀ (k : Nat) (hk : k < b.length), Gives elf (s.base.toNat + k) b[k] := by
  obtain ⟨p, hp, hseg⟩ := forall₂_mem_left h.entries hs
  obtain ⟨b, hb, hlen, hbytes⟩ := hseg.bytes
  refine ⟨b, hb, hlen, ?_⟩
  intro k hk
  have hfilesz : p.filesz.toNat = s.size.toNat := congrArg UInt32.toNat hseg.filesz
  have hvaddr : p.vaddr.toNat = s.base.toNat := congrArg UInt32.toNat hseg.vaddr
  have hmemsz := hseg.memsz
  have hcov : Covers p (s.base.toNat + k) := by
    unfold Covers
    omega
  have hdist : s.base.toNat + k - p.vaddr.toNat = k := by omega
  have hload : p ∈ ptLoads elf := List.mem_filter.mpr ⟨hp, decide_eq_true hseg.type⟩
  refine ⟨p, filter_covers (h.addresses.filter _) hload hcov, ?_, ?_⟩
  · omega
  · rw [hdist]
    exact hbytes k hk

/-- **The image of the dumps.** For all contents of the files, if every file is there with its
    size, the tool writes a load image of them. -/
theorem mapit_loadImage {dir : Files} (h : ∀ s ∈ segs, Found dir s) (elfdata : Mem) :
    ∃ elf, mapit dir elfdata = .wrote elf elfSize ∧ LoadImage dir elf elfSize := by
  obtain ⟨data, hrun, hfiles⟩ := mapit_run h elfdata
  exact ⟨mkelf placed data, hrun, loadImage_mkelf hfiles⟩

/-- A directory with all files, which hold zeros. -/
def zeroFiles : Files := fun name =>
  (segs.find? fun s => s.name = name).map fun s => List.replicate s.size.toNat 0

theorem zeroFiles_found : ∀ s ∈ segs, Found zeroFiles s := by
  have hfind : ∀ s ∈ segs, (segs.find? fun s' => s'.name = s.name) = some s := by decide
  intro s hs
  refine ⟨List.replicate s.size.toNat 0, ?_, List.length_replicate⟩
  unfold zeroFiles
  rw [hfind s hs]
  rfl

theorem mapit_loadImage_zero :
    ∃ elf, mapit zeroFiles (fun _ => 0) = .wrote elf elfSize ∧ LoadImage zeroFiles elf elfSize :=
  mapit_loadImage zeroFiles_found fun _ => 0

/-- **The loaded dumps.** A loader of the file has the files' bytes at the addresses of their
    segments. -/
theorem mapit_gives {dir : Files} (h : ∀ s ∈ segs, Found dir s) (elfdata : Mem) :
    ∃ elf, mapit dir elfdata = .wrote elf elfSize ∧
      ∀ s ∈ segs, ∃ b, dir s.name = some b ∧ b.length = s.size.toNat ∧
        ∀ (k : Nat) (hk : k < b.length), Gives elf (s.base.toNat + k) b[k] := by
  obtain ⟨data, hrun, hfiles⟩ := mapit_run h elfdata
  exact ⟨mkelf placed data, hrun, fun _ hs => (loadImage_mkelf hfiles).gives hs⟩

end Wifimon.Dump
