/-
  `doc/re/bin2elf.c`: `mkelf` and `mapit`.

  `sections` is the list of the calls of `ss` that `mkelf` makes, computed from the address
  bounds `spew` left; `mapit` is the whole tool on the contents of the file it opened.

  `ptLoads_mkelf`: the PT_LOAD entries of the file, one for each region, less the entries whose
  memory size comes out as 0. `sections_intact_iff`: with all three of them the section headers
  do not survive.
-/
import Wifimon.Elf.Tables
import Wifimon.Firmware.Spew

namespace Wifimon.Firmware

open ByteLib Elf

/-! ## The functions -/

/-- The calls of `ss` in `mkelf`. -/
def sections (g : Globals) : List SsArgs :=
  let lower0 := g.lower .r0
  let lowerC := g.lower .rC
  let lower04 := g.lower .r04
  let x0sz := g.upper .r0 - lower0
  let xcsz := g.upper .rC - lowerC
  let x04sz := g.upper .r04 - lower04
  let gap04 := lower04 - 0x04000000
  let cgap := lowerC - 0xc0000000
  [⟨cstr [], false, false, 0x00000000, 0x00000, 0x00000, none⟩,
    ⟨cstr ['.', '0', '0', '0'], false, true, lower0, 0x100000, 0x01000, some (.var x0sz)⟩] ++
  (if lower04 > 0x04000000 then
    [⟨cstr ['.', '0', '4', 'l'], true, false, lower04, 0x20000, 0x121000, none⟩] else []) ++
  [⟨cstr ['.', '0', '4', '0'], true, false, lower04, 0x20000 - gap04, 0x121000 + gap04,
      some (.var x04sz)⟩,
    ⟨cstr ['.', '8', '0', '0'], true, false, 0x80000000, 0x10000, 0x101000, none⟩,
    ⟨cstr ['.', '9', '0', '0'], true, false, 0x90000000, 0x0c000, 0x101000, none⟩] ++
  (if lowerC > 0xc0000000 then
    [⟨cstr ['.', 'c', 'l', 'o'], true, false, 0xc0000000, lowerC - 0xc0000000, 0x101000, none⟩]
    else []) ++
  [⟨cstr ['.', 'c', '0', '0'], true, true, lowerC, 0x20000 - cgap, 0x101000 + cgap,
      some (.var xcsz)⟩,
    ⟨cstr ['.', 'f', 'f', 'f'], false, true, 0xffff0000, 0x0fff0, 0x11000 + cgap + xcsz, none⟩,
    ⟨cstr ['.', 's', 'h', 's', 't', 'r', 't', 'a', 'b'], false, false, 0x00000000, 0x00000, 42,
      some .shsz⟩]

/-- `elfdata` after `mkelf`. The test for `sizeof e > 4096` is false. -/
def mkelf (g : Globals) : Mem := sealElf (sections g) g.entrypoint g.elfdata

inductive ToolResult where
  | exit (code : Nat)
  | fault
  | wrote (elf : Mem)

/-- `int mapsize = sbuf.st_size` for a file of `n` bytes. -/
def stSize (n : Nat) : Int := (n : Int).bmod (2 ^ 32)

theorem stSize_eq {n : Nat} (h : n < 2 ^ 31) : stSize n = n := by
  unfold stSize
  exact Int.bmod_eq_of_le (by omega) (by omega)

theorem le_of_stSize {n w : Nat} (h : stSize n = w) : w ≤ n := by
  unfold stSize at h
  rw [Int.bmod_def] at h
  split at h <;> omega

/-- The tool on a file with contents `b`, once it is open. An empty file cannot be mapped. -/
def mapit (b : List UInt8) : ToolResult :=
  if b.length = 0 then .exit 3
  else
    match (spew b 0 (stSize b.length) .start).2 with
    | .exit code => .exit code
    | .fault => .fault
    | .returned g => .wrote (mkelf g)

/-! ## The program headers of the output -/

theorem sections_length (g : Globals) : (sections g).length ≤ 10 := by
  unfold sections
  dsimp only
  split <;> split <;> simp

/-- The entry for region 0. -/
def load0 (g : Globals) : Phdr where
  type := ptLoad
  offset := 0x01000
  vaddr := g.lower .r0
  paddr := g.lower .r0
  filesz := g.upper .r0 - g.lower .r0
  memsz := 0x100000
  flags := phdrFlags false true
  align := 0

/-- The entry for a region with base address `base`, room `0x20000` and place `ofs` in the
    file. -/
def loadGap (base ofs lower upper flags : UInt32) : Phdr where
  type := ptLoad
  offset := ofs + (lower - base)
  vaddr := lower
  paddr := lower
  filesz := upper - lower
  memsz := 0x20000 - (lower - base)
  flags := flags
  align := 0

def load04 (g : Globals) : Phdr := loadGap 0x04000000 0x121000 (g.lower .r04) (g.upper .r04)
  (phdrFlags true false)

def loadC (g : Globals) : Phdr := loadGap 0xc0000000 0x101000 (g.lower .rC) (g.upper .rC)
  (phdrFlags true true)

theorem sections_plain (g : Globals) : ∀ c ∈ sections g, c.Plain := by
  have hopt : ∀ (p : Prop) [Decidable p] (c : SsArgs), c.Plain →
      ∀ d ∈ (if p then [c] else []), d.Plain := by
    intro p _ c hc d hd
    split at hd
    · rw [List.mem_singleton.mp hd]
      exact hc
    · cases hd
  have hvar : ∀ {c : SsArgs} {n : UInt32}, c.filesize = some (.var n) → c.Plain :=
    fun h => Or.inr (by rw [h]; simp)
  have hnone : ∀ {c : SsArgs}, c.filesize = none → c.Plain := fun h => Or.inr (by rw [h]; simp)
  unfold sections
  simp only [List.forall_mem_append, List.forall_mem_cons]
  exact ⟨⟨⟨⟨⟨hnone rfl, hvar rfl, nofun⟩, hopt _ _ (hnone rfl)⟩,
    hvar rfl, hnone rfl, hnone rfl, nofun⟩, hopt _ _ (hnone rfl)⟩,
    hvar rfl, hnone rfl, Or.inl rfl, nofun⟩

/-- The PT_LOAD entries of the output. -/
theorem ptLoads_mkelf (g : Globals) :
    ptLoads (mkelf g) = [load0 g] ++ (if (load04 g).memsz ≠ 0 then [load04 g] else []) ++
      (if (loadC g).memsz ≠ 0 then [loadC g] else []) := by
  -- neither optional call makes a program header
  have hopt : ∀ (p : Prop) [Decidable p] (c : SsArgs), c.filesize = none →
      (if p then [c] else []).filterMap SsArgs.plainPhdr = [] := by
    intro p _ c hc
    split
    · exact List.filterMap_cons_none (plainPhdr_of_none hc)
    · rfl
  rw [mkelf, ptLoads_seal _ (sections_length g), callPhdrs_eq (sections_plain g)]
  unfold sections
  simp only [List.filterMap_append]
  rw [hopt _ _ rfl, hopt _ _ rfl, List.append_nil, List.append_nil]
  refine congrArg₂ (· ++ ·) (congrArg₂ (· ++ ·) ?_ ?_) ?_
  · rw [List.filterMap_cons_none (plainPhdr_of_none rfl),
      filterMap_var [] rfl (by simp [cstr]) (p := load0 g) rfl]
    rfl
  · rw [filterMap_var _ rfl (by simp [cstr]) (p := load04 g) rfl,
      List.filterMap_cons_none (plainPhdr_of_none rfl),
      List.filterMap_cons_none (plainPhdr_of_none rfl)]
    exact List.append_nil _
  · rw [filterMap_var _ rfl (by simp [cstr]) (p := loadC g) rfl,
      List.filterMap_cons_none (plainPhdr_of_none rfl),
      List.filterMap_cons_none (plainPhdr_of_memsize rfl)]
    exact List.append_nil _

/-! ## The section headers of the output -/

theorem sections_strLen (g : Globals) : strLen (sections g) ≤ 80 := by
  unfold strLen sections
  dsimp only
  split <;> split <;> simp [cstr]

/-- The tables `mkelf` leaves are intact if and only if one of the regions has no entry. -/
theorem sections_intact_iff (g : Globals) :
    Intact (sections g) (runSs (sections g)) ↔ (load04 g).memsz = 0 ∨ (loadC g).memsz = 0 := by
  have hcount : (sections g).countP (fun c => decide c.Loadable) =
      1 + (if (load04 g).memsz ≠ 0 then 1 else 0) + if (loadC g).memsz ≠ 0 then 1 else 0 := by
    have hloads := ptLoads_mkelf g
    rw [mkelf, ptLoads_seal _ (sections_length g)] at hloads
    rw [← callPhdrs_length _ 0, hloads, List.length_append, List.length_append]
    split <;> split <;> rfl
  constructor
  · intro hi
    by_contra hno
    obtain ⟨h04, hC⟩ := not_or.mp hno
    rw [if_pos h04, if_pos hC] at hcount
    exact not_intact_of_three (by omega) hi
  · intro hgap
    refine intact_of_le ⟨sections g, sections_length g, sections_strLen g⟩ ?_
    dsimp only
    rw [hcount]
    obtain h04 | hC := hgap
    · rw [if_neg (not_not_intro h04)]
      split <;> omega
    · rw [if_neg (not_not_intro hC)]
      split <;> omega

end Wifimon.Firmware
