/-
  The headers of the ELF file that both `bin2elf.c` programs write: `newstr`, `ss`, and the end
  of `mkelf`.

  `struct e` is a flat array of bytes: the ELF header at 0, room for 2 program headers at 52,
  10 section headers at 116, and the string table at 516. `ss` appends to both tables through
  `phi` and `shi`, and a third program header lands on the first section headers.

  `phdrs_seal`: up to ten calls of `ss` leave the program header table, as a loader finds it
  through the ELF header, with one entry for every loadable call, in order: a section header is
  always written past the program headers there are. `Gives` is what a loader has at an address
  from these entries.
-/
import Wifimon.Lib.Bytes

namespace Wifimon.Elf

open ByteLib

/-! ## Tables -/

def ptLoad : UInt32 := 1
def shtNull : UInt32 := 0
def shtProgbits : UInt32 := 1
def shtStrtab : UInt32 := 3
def shtNobits : UInt32 := 8

/-- `sizeof e.ehdr`, the offsets of the other members of `e`, and `sizeof e`. -/
def phdrOfs : Nat := 52
def shdrOfs : Nat := 116
def strOfs : Nat := 516
def sizeofE : Nat := 596

/-- `Elf32_Phdr`. -/
@[ext] structure Phdr where
  type : UInt32
  offset : UInt32
  vaddr : UInt32
  paddr : UInt32
  filesz : UInt32
  memsz : UInt32
  flags : UInt32
  align : UInt32
  deriving DecidableEq

def Phdr.words (p : Phdr) : List UInt32 :=
  [p.type, p.offset, p.vaddr, p.paddr, p.filesz, p.memsz, p.flags, p.align]

/-- The program header with the words `ws`. -/
def Phdr.ofWords : List UInt32 → Phdr
  | [a, b, c, d, e, f, g, h] => ⟨a, b, c, d, e, f, g, h⟩
  | _ => ⟨0, 0, 0, 0, 0, 0, 0, 0⟩

@[simp] theorem Phdr.ofWords_words (p : Phdr) : Phdr.ofWords p.words = p := rfl

/-- `Elf32_Shdr`. -/
structure Shdr where
  name : UInt32
  type : UInt32
  flags : UInt32
  addr : UInt32
  offset : UInt32
  size : UInt32
  link : UInt32
  info : UInt32
  addralign : UInt32
  entsize : UInt32
  deriving DecidableEq

def Shdr.words (s : Shdr) : List UInt32 :=
  [s.name, s.type, s.flags, s.addr, s.offset, s.size, s.link, s.info, s.addralign, s.entsize]

/-- What the argument `filesize` points to: a variable of the caller, or `shsz`. -/
inductive SizePtr where
  | var (n : UInt32)
  | shsz

def SizePtr.read : SizePtr → UInt32 → UInt32
  | .var n, _ => n
  | .shsz, z => z

/-- The arguments of `ss`; the name without its terminator. -/
structure SsArgs where
  name : List UInt8
  w : Bool
  x : Bool
  memaddr : UInt32
  memsize : UInt32
  fileaddr : UInt32
  filesize : Option SizePtr

structure ElfState where
  e : Mem
  shstrtab : Mem
  shsz : UInt32
  phi : Nat
  shi : Nat

/-- The static variables before the first call. -/
def ElfState.start : ElfState := ⟨fun _ => 0, fun _ => 0, 0, 0, 0⟩

/-- A name in the source, as the bytes of the C string. -/
def cstr (cs : List Char) : List UInt8 := cs.map fun c => UInt8.ofNat c.toNat

/-! ## The functions -/

/-- The string table afterwards, and the offset of the string. -/
def newstr (s : List UInt8) (st : ElfState) : ElfState × UInt32 :=
  let len := UInt32.ofNat (s.length + 1)
  let shsz := st.shsz + len
  ({ st with shstrtab := store st.shstrtab st.shsz.toNat (s ++ [0]), shsz := shsz }, shsz - len)

/-- `p_flags` and `sh_flags` for `w` and `x`. -/
def phdrFlags (w x : Bool) : UInt32 := (if w then 6 else 0) ||| (if x then 5 else 0)

def shdrFlags (w x : Bool) : UInt32 := (if w then 3 else 0) ||| (if x then 6 else 0)

/-- The program header a call makes, with `shsz` as it is at the call. -/
def SsArgs.phdr (c : SsArgs) (shsz : UInt32) : Option Phdr :=
  match c.filesize with
  | some size =>
    if c.name ≠ [] ∧ c.memsize ≠ 0 then
      some {
        type := ptLoad
        offset := c.fileaddr
        vaddr := c.memaddr
        paddr := c.memaddr
        filesz := size.read shsz
        memsz := c.memsize
        flags := phdrFlags c.w c.x
        align := 0 }
    else none
  | none => none

/-- The section header a call makes, with the name's offset and `shsz` after `newstr`. -/
def SsArgs.shdr (c : SsArgs) (name shsz : UInt32) : Shdr where
  name := name
  type :=
    if c.name = [] then shtNull
    else if c.memsize = 0 then shtStrtab
    else if c.filesize.isNone then shtNobits
    else shtProgbits
  flags := shdrFlags c.w c.x
  addr := c.memaddr
  offset := if c.name ≠ [] ∧ c.memsize = 0 then UInt32.ofNat strOfs else c.fileaddr
  size :=
    match c.filesize with
    | some size => size.read shsz
    | none => c.memsize
  link := 0
  info := 0
  addralign := 0
  entsize := 0

/-- The program header part of `ss`. -/
def putPhdr (p : Option Phdr) (st : ElfState) : ElfState :=
  match p with
  | some p =>
    { st with e := store st.e (phdrOfs + 32 * st.phi) (wordBytes p.words), phi := st.phi + 1 }
  | none => st

/-- The section header part of `ss`. -/
def putShdr (s : Shdr) (st : ElfState) : ElfState :=
  { st with e := store st.e (shdrOfs + 40 * st.shi) (wordBytes s.words), shi := st.shi + 1 }

def ss (c : SsArgs) (st : ElfState) : ElfState :=
  let st := putPhdr (c.phdr st.shsz) st
  let r := newstr c.name st
  putShdr (c.shdr r.2 r.1.shsz) r.1

/-- `e.ehdr` as the end of `mkelf` fills it. -/
def ehdrBytes (entry : UInt32) (phi shi : Nat) : List UInt8 :=
  [0x7f, 0x45, 0x4c, 0x46, 1, 1, 1, 255, 0, 0, 0, 0, 0, 0, 0, 0] ++ le 2 2 ++ le 2 40 ++ le 4 1 ++
    le 4 entry.toNat ++ le 4 phdrOfs ++ le 4 shdrOfs ++ le 4 0 ++ le 2 phdrOfs ++ le 2 32 ++
    le 2 phi ++ le 2 40 ++ le 2 shi ++ le 2 (shi - 1)

/-- `e` complete: the ELF header, the tables, and the string table. -/
def sealE (entry : UInt32) (st : ElfState) : Mem :=
  store (store st.e 0 (ehdrBytes entry st.phi st.shi)) strOfs (load st.shstrtab 0 80)

/-- The calls of `ss`, in order. -/
def runSs (calls : List SsArgs) : ElfState := calls.foldl (fun st c => ss c st) .start

/-- `mkelf` with the calls `calls` of `ss`: `e` goes to the start of `elfdata`. -/
def sealElf (calls : List SsArgs) (entry : UInt32) (elfdata : Mem) : Mem :=
  store elfdata 0 (load (sealE entry (runSs calls)) 0 sizeofE)

/-! ## What a loader reads -/

def eEntry (elf : Mem) : UInt32 := rd32 elf 24

/-- The program headers `e_phoff`, `e_phentsize` and `e_phnum` point out. -/
def phdrs (elf : Mem) : List Phdr :=
  (List.range (rd elf 44 2)).map fun i =>
    Phdr.ofWords (readWords elf (rd elf 28 4 + i * rd elf 42 2) 8)

def ptLoads (elf : Mem) : List Phdr := (phdrs elf).filter fun p => p.type = ptLoad

/-- `a` is in `[p_vaddr, p_vaddr + p_memsz)`. -/
def Covers (p : Phdr) (a : Nat) : Prop :=
  p.vaddr.toNat ≤ a ∧ a < p.vaddr.toNat + p.memsz.toNat

instance (p : Phdr) (a : Nat) : Decidable (Covers p a) := inferInstanceAs (Decidable (_ ∧ _))

/-- A loader of the file has the byte `v` at `a`: one PT_LOAD entry covers `a`, and `v` is at its
    place in the file. -/
def Gives (elf : Mem) (a : Nat) (v : UInt8) : Prop :=
  ∃ p, (ptLoads elf).filter (fun p => decide (Covers p a)) = [p] ∧
    a - p.vaddr.toNat < p.filesz.toNat ∧ elf (p.offset.toNat + (a - p.vaddr.toNat)) = v

theorem Gives.unique {elf : Mem} {a : Nat} {v v' : UInt8} (h : Gives elf a v)
    (h' : Gives elf a v') : v = v' := by
  obtain ⟨p, hp, -, rfl⟩ := h
  obtain ⟨p', hp', -, rfl⟩ := h'
  rw [hp] at hp'
  cases hp'
  rfl

/-- No address is in both. -/
def Apart (p q : Phdr) : Prop :=
  p.vaddr.toNat + p.memsz.toNat ≤ q.vaddr.toNat ∨ q.vaddr.toNat + q.memsz.toNat ≤ p.vaddr.toNat

instance (p q : Phdr) : Decidable (Apart p q) := inferInstanceAs (Decidable (_ ∨ _))

theorem filter_covers {ps : List Phdr} (h : ps.Pairwise Apart) {p : Phdr} (hp : p ∈ ps) {a : Nat}
    (ha : Covers p a) : ps.filter (fun p => decide (Covers p a)) = [p] := by
  have hno : ∀ {q r : Phdr}, Apart q r → Covers q a → ¬ Covers r a := by
    intro q r hqr hq hr
    unfold Apart at hqr
    unfold Covers at hq hr
    omega
  induction ps with
  | nil => cases hp
  | cons q qs ih =>
    obtain ⟨hq, hqs⟩ := List.pairwise_cons.mp h
    rcases List.mem_cons.mp hp with rfl | hp
    · have hnil : qs.filter (fun p => decide (Covers p a)) = [] := by
        refine List.filter_eq_nil_iff.mpr fun r hr => ?_
        rw [decide_eq_true_eq]
        exact hno (hq r hr) ha
      rw [List.filter_cons, if_pos (decide_eq_true ha), hnil]
    · have hc : ¬ Covers q a := fun hc => hno (hq p hp) hc ha
      rw [List.filter_cons, if_neg (by rw [decide_eq_true_eq]; exact hc)]
      exact ih hqs hp

/-! ## The program header table -/

/-- `e` has the program headers `ps`, and there are at most as many as section headers. -/
structure HasPhdrs (st : ElfState) (ps : List Phdr) : Prop where
  count : st.phi = ps.length
  bound : st.phi ≤ st.shi
  entry : ∀ (i : Nat) (p : Phdr), ps[i]? = some p →
    readWords st.e (phdrOfs + 32 * i) 8 = p.words

/-- The program headers of a list of calls. -/
def callPhdrs : List SsArgs → UInt32 → List Phdr
  | [], _ => []
  | c :: cs, z => (c.phdr z).toList ++ callPhdrs cs (z + UInt32.ofNat (c.name.length + 1))

/-- A new program header goes after those there are. -/
theorem putPhdr_has {st : ElfState} {ps : List Phdr} (h : HasPhdrs st ps) (p : Option Phdr) :
    (putPhdr p st).phi = (ps ++ p.toList).length ∧ (putPhdr p st).phi ≤ st.shi + 1 ∧
      ∀ (i : Nat) (q : Phdr), (ps ++ p.toList)[i]? = some q →
        readWords (putPhdr p st).e (phdrOfs + 32 * i) 8 = q.words := by
  obtain ⟨hc, hb, he⟩ := h
  cases p with
  | none =>
    rw [Option.toList_none, List.append_nil]
    exact ⟨hc, Nat.le_succ_of_le hb, he⟩
  | some p =>
    refine ⟨by simp [putPhdr, hc], Nat.succ_le_succ hb, fun i q hq => ?_⟩
    show readWords (store st.e (phdrOfs + 32 * st.phi) (wordBytes p.words)) _ 8 = _
    rcases Nat.lt_trichotomy i ps.length with hi | hi | hi
    · rw [List.getElem?_append_left hi] at hq
      rw [readWords_store_disjoint (Or.inl (by omega))]
      exact he i q hq
    · -- the new entry
      rw [hi, List.getElem?_append_right (Nat.le_refl _), Nat.sub_self] at hq
      cases hq
      rw [hi, ← hc]
      exact readWords_store_self st.e _ p.words
    · rw [List.getElem?_eq_none (by simp; omega)] at hq
      cases hq

/-- One call of `ss` appends its program header, if any, and destroys none. -/
theorem ss_has {st : ElfState} {ps : List Phdr} (h : HasPhdrs st ps) (c : SsArgs) :
    HasPhdrs (ss c st) (ps ++ (c.phdr st.shsz).toList) := by
  obtain ⟨hc, hb, he⟩ := putPhdr_has h (c.phdr st.shsz)
  have hshi : (putPhdr (c.phdr st.shsz) st).shi = st.shi := by
    unfold putPhdr
    split <;> rfl
  refine ⟨hc, ?_, fun i q hq => ?_⟩
  · show (putPhdr (c.phdr st.shsz) st).phi ≤ (putPhdr (c.phdr st.shsz) st).shi + 1
    rw [hshi]
    exact hb
  · rw [← he i q hq]
    have hi := (List.getElem?_eq_some_iff.mp hq).1
    show readWords (store (putPhdr (c.phdr st.shsz) st).e
      (shdrOfs + 40 * (putPhdr (c.phdr st.shsz) st).shi) _) _ 8 = _
    refine readWords_store_disjoint (Or.inl ?_)
    rw [hshi]
    show 52 + 32 * i + 4 * 8 ≤ 116 + 40 * st.shi
    omega

theorem ss_shsz (c : SsArgs) (st : ElfState) :
    (ss c st).shsz = st.shsz + UInt32.ofNat (c.name.length + 1) := by
  have h : (putPhdr (c.phdr st.shsz) st).shsz = st.shsz := by
    unfold putPhdr
    split <;> rfl
  show (putPhdr (c.phdr st.shsz) st).shsz + _ = _
  rw [h]

theorem ss_run {st : ElfState} {ps : List Phdr} (h : HasPhdrs st ps) (calls : List SsArgs) :
    HasPhdrs (calls.foldl (fun st c => ss c st) st) (ps ++ callPhdrs calls st.shsz) := by
  induction calls generalizing st ps with
  | nil => simpa [callPhdrs] using h
  | cons c cs ih =>
    have hrun := ih (ss_has h c)
    rw [ss_shsz, List.append_assoc] at hrun
    exact hrun

theorem start_has : HasPhdrs .start [] :=
  ⟨rfl, Nat.le_refl _, fun _ _ h => by cases h⟩

theorem ehdrBytes_length (entry : UInt32) (phi shi : Nat) :
    (ehdrBytes entry phi shi).length = 52 := by
  simp [ehdrBytes]

/-- The number of program headers a list of calls makes. -/
theorem callPhdrs_length_le (calls : List SsArgs) (z : UInt32) :
    (callPhdrs calls z).length ≤ calls.length := by
  induction calls generalizing z with
  | nil => exact Nat.le_refl _
  | cons c cs ih =>
    rw [callPhdrs, List.length_append, List.length_cons]
    have h1 : (c.phdr z).toList.length ≤ 1 := by cases c.phdr z <;> simp
    have := ih (z + UInt32.ofNat (c.name.length + 1))
    omega

/-- A call whose program header does not depend on `shsz`. -/
def SsArgs.Plain (c : SsArgs) : Prop := c.memsize = 0 ∨ c.filesize ≠ some .shsz

/-- The program header of such a call. -/
def SsArgs.plainPhdr (c : SsArgs) : Option Phdr := c.phdr 0

theorem SsArgs.Plain.phdr_eq {c : SsArgs} (h : c.Plain) (z : UInt32) : c.phdr z = c.plainPhdr := by
  unfold SsArgs.plainPhdr SsArgs.phdr
  rcases h with h | h
  · simp [h]
  · split
    · next size hs =>
      cases size with
      | var n => rfl
      | shsz => exact absurd hs h
    · rfl

/-- Plain calls can be looked at one by one. -/
theorem callPhdrs_eq {calls : List SsArgs} (h : ∀ c ∈ calls, c.Plain) (z : UInt32) :
    callPhdrs calls z = calls.filterMap SsArgs.plainPhdr := by
  induction calls generalizing z with
  | nil => rfl
  | cons c cs ih =>
    rw [callPhdrs, (h c (List.mem_cons_self ..)).phdr_eq,
      ih fun d hd => h d (List.mem_cons_of_mem c hd), List.filterMap_cons]
    cases c.plainPhdr <;> rfl

/-- A call without a file size makes no program header, nor does one with memory size 0. -/
theorem plainPhdr_of_none {c : SsArgs} (h : c.filesize = none) : c.plainPhdr = none := by
  rw [SsArgs.plainPhdr, SsArgs.phdr, h]

theorem plainPhdr_of_memsize {c : SsArgs} (h : c.memsize = 0) : c.plainPhdr = none := by
  unfold SsArgs.plainPhdr SsArgs.phdr
  split
  · exact if_neg fun hn => hn.2 h
  · rfl

theorem plainPhdr_of_var {c : SsArgs} {n : UInt32} (hf : c.filesize = some (.var n))
    (hn : c.name ≠ []) (hm : c.memsize ≠ 0) :
    c.plainPhdr = some ⟨ptLoad, c.fileaddr, c.memaddr, c.memaddr, n, c.memsize,
      phdrFlags c.w c.x, 0⟩ := by
  rw [SsArgs.plainPhdr, SsArgs.phdr, hf]
  exact if_pos ⟨hn, hm⟩

/-- An entry is made unless its memory size is 0. -/
theorem filterMap_var {c : SsArgs} {n : UInt32} (cs : List SsArgs)
    (hf : c.filesize = some (.var n)) (hn : c.name ≠ []) {p : Phdr}
    (hp : p = ⟨ptLoad, c.fileaddr, c.memaddr, c.memaddr, n, c.memsize,
      phdrFlags c.w c.x, 0⟩) :
    (c :: cs).filterMap SsArgs.plainPhdr =
      (if p.memsz ≠ 0 then [p] else []) ++ cs.filterMap SsArgs.plainPhdr := by
  subst hp
  by_cases hm : c.memsize = 0
  · rw [List.filterMap_cons_none (plainPhdr_of_memsize hm), if_neg (not_not_intro hm)]
    rfl
  · rw [List.filterMap_cons_some (plainPhdr_of_var hf hn hm), if_pos hm]
    rfl

theorem callPhdrs_type {calls : List SsArgs} {z : UInt32} {p : Phdr}
    (h : p ∈ callPhdrs calls z) : p.type = ptLoad := by
  induction calls generalizing z with
  | nil => cases h
  | cons c cs ih =>
    rcases List.mem_append.mp h with h | h
    · rw [Option.mem_toList, SsArgs.phdr] at h
      split at h
      · split at h
        · cases h
          rfl
        · cases h
      · cases h
    · exact ih h

/-! ## The finished file -/

/-- Within `e`, the file is `e`. -/
theorem sealElf_load {calls : List SsArgs} {entry : UInt32} {elfdata : Mem} {o n : Nat}
    (h : o + n ≤ sizeofE) :
    load (sealElf calls entry elfdata) o n = load (sealE entry (runSs calls)) o n :=
  load_store_load h

/-- Past `e`, it is `elfdata`. -/
theorem sealElf_data (calls : List SsArgs) (entry : UInt32) (elfdata : Mem) {i : Nat}
    (h : sizeofE ≤ i) : sealElf calls entry elfdata i = elfdata i :=
  store_apply_of_not (Or.inr (by rw [load_length]; omega))

/-- A field of the ELF header, from what precedes and follows it. -/
theorem sealElf_ehdr (calls : List SsArgs) (entry : UInt32) (elfdata : Mem)
    {front back : List UInt8} {n v : Nat}
    (h : ehdrBytes entry (runSs calls).phi (runSs calls).shi = front ++ (le n v ++ back)) :
    rd (sealElf calls entry elfdata) front.length n = v % 256 ^ n := by
  have hlen := congrArg List.length h
  rw [ehdrBytes_length, List.length_append, List.length_append, le_length] at hlen
  have hfit : front.length + n ≤ sizeofE := by
    show _ ≤ 596
    omega
  rw [rd, sealElf_load hfit, sealE, load_store_disjoint (Or.inl (by show _ ≤ 516; omega)), h]
  have hfield := rd_store_field (runSs calls).e 0 n v front back
  rw [Nat.zero_add] at hfield
  exact hfield

/-- The fields behind `e_ident`, each with its number of bytes. -/
def ehdrFields (entry : UInt32) (phi shi : Nat) : List (Nat × Nat) :=
  [(2, 2), (2, 40), (4, 1), (4, entry.toNat), (4, phdrOfs), (4, shdrOfs), (4, 0), (2, phdrOfs),
   (2, 32), (2, phi), (2, 40), (2, shi), (2, shi - 1)]

def fieldBytes (fs : List (Nat × Nat)) : List UInt8 := fs.flatMap fun f => le f.1 f.2

theorem fieldBytes_length (fs : List (Nat × Nat)) :
    (fieldBytes fs).length = (fs.map Prod.fst).sum := by
  induction fs with
  | nil => rfl
  | cons f fs ih =>
    rw [fieldBytes, List.flatMap_cons, List.length_append, le_length, List.map_cons,
      List.sum_cons, ← ih, fieldBytes]

theorem ehdrBytes_fields (entry : UInt32) (phi shi : Nat) :
    ehdrBytes entry phi shi =
      [0x7f, 0x45, 0x4c, 0x46, 1, 1, 1, 255, 0, 0, 0, 0, 0, 0, 0, 0] ++
        fieldBytes (ehdrFields entry phi shi) := by
  simp only [ehdrBytes, fieldBytes, ehdrFields, List.flatMap_cons, List.flatMap_nil,
    List.append_assoc, List.append_nil]

/-- The `i`-th field. -/
theorem sealElf_field (calls : List SsArgs) (entry : UInt32) (elfdata : Mem) {i n v : Nat}
    (h : (ehdrFields entry (runSs calls).phi (runSs calls).shi)[i]? = some (n, v)) :
    rd (sealElf calls entry elfdata)
        (16 + (((ehdrFields entry (runSs calls).phi (runSs calls).shi).take i).map Prod.fst).sum)
        n = v % 256 ^ n := by
  obtain ⟨fs, hfs⟩ : ∃ fs, fs = ehdrFields entry (runSs calls).phi (runSs calls).shi := ⟨_, rfl⟩
  rw [← hfs] at h ⊢
  obtain ⟨hi, hget⟩ := List.getElem?_eq_some_iff.mp h
  have hcut : fieldBytes fs =
      fieldBytes (fs.take i) ++ (le n v ++ fieldBytes (fs.drop (i + 1))) := by
    calc fieldBytes fs = fieldBytes (fs.take i ++ (n, v) :: fs.drop (i + 1)) := by
          rw [← hget, ← List.drop_eq_getElem_cons hi, List.take_append_drop]
      _ = _ := by simp only [fieldBytes, List.flatMap_append, List.flatMap_cons]
  have hsplit : ehdrBytes entry (runSs calls).phi (runSs calls).shi =
      ([0x7f, 0x45, 0x4c, 0x46, 1, 1, 1, 255, 0, 0, 0, 0, 0, 0, 0, 0] ++
        fieldBytes (fs.take i)) ++ (le n v ++ fieldBytes (fs.drop (i + 1))) := by
    rw [ehdrBytes_fields, ← hfs, hcut, List.append_assoc]
  have hrd := sealElf_ehdr calls entry elfdata hsplit
  rw [List.length_append, fieldBytes_length] at hrd
  exact hrd

theorem eEntry_seal (calls : List SsArgs) (entry : UInt32) (elfdata : Mem) :
    eEntry (sealElf calls entry elfdata) = entry := by
  have h : rd (sealElf calls entry elfdata) 24 4 = entry.toNat % 256 ^ 4 :=
    sealElf_field calls entry elfdata (i := 3) rfl
  have hlt := entry.toNat_lt
  apply UInt32.toNat_inj.mp
  rw [eEntry, toNat_rd32, h]
  exact Nat.mod_eq_of_lt (by omega)

theorem phoff_seal (calls : List SsArgs) (entry : UInt32) (elfdata : Mem) :
    rd (sealElf calls entry elfdata) 28 4 = phdrOfs :=
  sealElf_field calls entry elfdata (i := 4) rfl

theorem phentsize_seal (calls : List SsArgs) (entry : UInt32) (elfdata : Mem) :
    rd (sealElf calls entry elfdata) 42 2 = 32 :=
  sealElf_field calls entry elfdata (i := 8) rfl

theorem phnum_seal (calls : List SsArgs) (entry : UInt32) (elfdata : Mem) :
    rd (sealElf calls entry elfdata) 44 2 = (runSs calls).phi % 2 ^ 16 :=
  sealElf_field calls entry elfdata (i := 9) rfl

/-- **The program header table.** Up to ten calls of `ss` leave it as a loader finds it with
    one entry for every loadable call, in order, although `e` has room for two. -/
theorem phdrs_seal (calls : List SsArgs) (h : calls.length ≤ 10) (entry : UInt32)
    (elfdata : Mem) : phdrs (sealElf calls entry elfdata) = callPhdrs calls 0 := by
  obtain ⟨hc, -, he⟩ : HasPhdrs (runSs calls) (callPhdrs calls 0) := ss_run start_has calls
  have hle := callPhdrs_length_le calls 0
  rw [phdrs, phnum_seal, Nat.mod_eq_of_lt (by omega), phoff_seal, phentsize_seal, hc]
  apply List.ext_getElem
  · simp
  · intro i _ hi
    have hentry := he i _ (List.getElem?_eq_getElem hi)
    rw [List.getElem_map, List.getElem_range, Nat.mul_comm i 32]
    -- the table lies in `e` between the ELF header and the string table
    have hword : readWords (sealElf calls entry elfdata) (phdrOfs + 32 * i) 8 =
        readWords (runSs calls).e (phdrOfs + 32 * i) 8 := by
      refine readWords_congr fun k hk => ?_
      have hlo : (ehdrBytes entry (runSs calls).phi (runSs calls).shi).length ≤
          phdrOfs + 32 * i + 4 * k := by
        rw [ehdrBytes_length]
        show 52 ≤ 52 + 32 * i + 4 * k
        omega
      have hhi : phdrOfs + 32 * i + 4 * k + 4 ≤ strOfs := by
        show 52 + 32 * i + 4 * k + 4 ≤ 516
        omega
      rw [rd32, rd, sealElf_load (Nat.le_trans hhi (by decide)), sealE,
        load_store_disjoint (Or.inl hhi), load_store_disjoint (Or.inr (by omega))]
      rfl
    rw [hword, hentry, Phdr.ofWords_words]

theorem ptLoads_seal (calls : List SsArgs) (h : calls.length ≤ 10) (entry : UInt32)
    (elfdata : Mem) : ptLoads (sealElf calls entry elfdata) = callPhdrs calls 0 := by
  rw [ptLoads, phdrs_seal calls h]
  exact List.filter_eq_self.mpr fun p hp => decide_eq_true (callPhdrs_type hp)

end Wifimon.Elf
