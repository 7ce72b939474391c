/-
  The tables `ss` fills, and what is left of their entries.

  Between the ELF header and the section headers `e` has room for two program headers, and `ss`
  does not look at `phi`. The program headers always survive (`ss_run`): a third one is written
  over the section header 0, which no later call writes again.

  `tables_intact_iff`: after up to ten calls every entry decodes to the arguments of its call,
  and every `sh_name` points at its name, if and only if at most two of the calls are loadable.
-/
import Wifimon.Elf.Headers

namespace Wifimon.Elf

open ByteLib

/-! ## Entries -/

/-- The section header with the words `ws`. -/
def Shdr.ofWords : List UInt32 → Shdr
  | [a, b, c, d, e, f, g, h, i, j] => ⟨a, b, c, d, e, f, g, h, i, j⟩
  | _ => ⟨0, 0, 0, 0, 0, 0, 0, 0, 0, 0⟩

@[simp] theorem Shdr.ofWords_words (s : Shdr) : Shdr.ofWords s.words = s := rfl

def shdrAt (e : Mem) (j : Nat) : Shdr := Shdr.ofWords (readWords e (shdrOfs + 40 * j) 10)

def phdrAt (e : Mem) (i : Nat) : Phdr := Phdr.ofWords (readWords e (phdrOfs + 32 * i) 8)

/-- The bytes the names of some calls take, with their terminators. -/
def strLen (calls : List SsArgs) : Nat := (calls.map fun c => c.name.length + 1).sum

theorem strLen_append_singleton (calls : List SsArgs) (c : SsArgs) :
    strLen (calls ++ [c]) = strLen calls + (c.name.length + 1) := by
  simp [strLen]

/-- A name does not end behind all names. -/
theorem strLen_take_le {calls : List SsArgs} {j : Nat} {c : SsArgs} (h : calls[j]? = some c) :
    strLen (calls.take j) + (c.name.length + 1) ≤ strLen calls := by
  obtain ⟨hj, hget⟩ := List.getElem?_eq_some_iff.mp h
  have hsplit : calls = calls.take j ++ c :: calls.drop (j + 1) := by
    rw [← hget, ← List.drop_eq_getElem_cons hj, List.take_append_drop]
  have hsum : strLen calls =
      strLen (calls.take j) + (c.name.length + 1 + strLen (calls.drop (j + 1))) := by
    conv_lhs => rw [hsplit]
    simp [strLen]
  omega

/-- The section header of a call, with the names before it in the string table. -/
def SsArgs.shdrAfter (c : SsArgs) (before : List SsArgs) : Shdr :=
  c.shdr (UInt32.ofNat (strLen before)) (UInt32.ofNat (strLen (before ++ [c])))

/-- What the tables are to hold after the calls `calls`. -/
structure Intact (calls : List SsArgs) (st : ElfState) : Prop where
  shdrs : ∀ j c, calls[j]? = some c → shdrAt st.e j = c.shdrAfter (calls.take j)
  names : ∀ j c, calls[j]? = some c →
    load st.shstrtab (shdrAt st.e j).name.toNat (c.name.length + 1) = c.name ++ [0]
  phdrs : ∀ i p, (callPhdrs calls 0)[i]? = some p → phdrAt st.e i = p

/-! ## Loadable calls -/

/-- The calls that make a program header. -/
def SsArgs.Loadable (c : SsArgs) : Prop :=
  c.name ≠ [] ∧ c.memsize ≠ 0 ∧ c.filesize.isSome = true

instance (c : SsArgs) : Decidable c.Loadable := inferInstanceAs (Decidable (_ ∧ _ ∧ _))

theorem phdr_isSome_iff (c : SsArgs) (z : UInt32) : (c.phdr z).isSome = true ↔ c.Loadable := by
  unfold SsArgs.phdr SsArgs.Loadable
  cases c.filesize with
  | none => simp
  | some size =>
    dsimp only
    by_cases h : c.name ≠ [] ∧ c.memsize ≠ 0
    · rw [if_pos h]
      exact iff_of_true rfl ⟨h.1, h.2, rfl⟩
    · rw [if_neg h]
      exact iff_of_false (by decide) fun hl => h ⟨hl.1, hl.2.1⟩

theorem phdr_isSome (c : SsArgs) (z : UInt32) : (c.phdr z).isSome = decide c.Loadable := by
  rw [Bool.eq_iff_iff, decide_eq_true_iff]
  exact phdr_isSome_iff c z

theorem callPhdrs_length (calls : List SsArgs) (z : UInt32) :
    (callPhdrs calls z).length = calls.countP fun c => decide c.Loadable := by
  induction calls generalizing z with
  | nil => rfl
  | cons c cs ih =>
    rw [callPhdrs, List.length_append, ih, List.countP_cons, ← phdr_isSome c z]
    cases c.phdr z with
    | none => exact Nat.zero_add _
    | some p => exact Nat.add_comm _ _

/-! ## One call -/

/-- The section headers and names of the calls `done`, and nothing else in the string table. -/
structure HasShdrs (st : ElfState) (done : List SsArgs) : Prop where
  count : st.shi = done.length
  size : st.shsz = UInt32.ofNat (strLen done)
  entry : ∀ j c, done[j]? = some c →
    readWords st.e (shdrOfs + 40 * j) 10 = (c.shdrAfter (done.take j)).words
  name : ∀ j c, done[j]? = some c →
    load st.shstrtab (strLen (done.take j)) (c.name.length + 1) = c.name ++ [0]

theorem start_hasShdrs : HasShdrs .start [] :=
  ⟨rfl, rfl, fun _ _ h => by simp at h, fun _ _ h => by simp at h⟩

/-- The entry of a list with one more at its end. -/
theorem getElem?_concat {α : Type} {l : List α} {a b : α} {j : Nat}
    (h : (l ++ [a])[j]? = some b) :
    j < l.length ∧ l[j]? = some b ∧ (l ++ [a]).take j = l.take j ∨
      j = l.length ∧ b = a ∧ (l ++ [a]).take j = l := by
  obtain hj | hj | hj := Nat.lt_trichotomy j l.length
  · rw [List.getElem?_append_left hj] at h
    exact Or.inl ⟨hj, h, List.take_append_of_le_length (Nat.le_of_lt hj)⟩
  · rw [hj, List.getElem?_concat_length] at h
    rw [hj, List.take_left]
    exact Or.inr ⟨rfl, (Option.some.inj h).symm, rfl⟩
  · have hlen := (List.getElem?_eq_some_iff.mp h).1
    rw [List.length_append, List.length_singleton] at hlen
    omega

/-- The program header of a call goes before the section headers as long as there is room. -/
theorem putPhdr_hasShdrs {st : ElfState} {done : List SsArgs} (h : HasShdrs st done)
    {p : Option Phdr} (hroom : p.isSome = true → st.phi < 2) : HasShdrs (putPhdr p st) done := by
  cases p with
  | none => exact h
  | some p =>
    refine ⟨h.count, h.size, fun j c hj => ?_, h.name⟩
    rw [← h.entry j c hj]
    show readWords (store st.e (phdrOfs + 32 * st.phi) (wordBytes p.words)) _ 10 = _
    refine readWords_store_disjoint (Or.inr ?_)
    have hphi := hroom rfl
    have hlen : (wordBytes p.words).length = 32 := by simp [Phdr.words]
    have hp : phdrOfs = 52 := rfl
    have hs : shdrOfs = 116 := rfl
    omega

/-- One call of `ss` appends its section header and its name, and destroys none. -/
theorem ss_hasShdrs {st : ElfState} {done : List SsArgs} (h : HasShdrs st done) {c : SsArgs}
    (hroom : c.Loadable → st.phi < 2) (hstr : strLen (done ++ [c]) < 2 ^ 32) :
    HasShdrs (ss c st) (done ++ [c]) := by
  obtain ⟨hcount, hsize, hentry, hname⟩ := putPhdr_hasShdrs h
    fun hp => hroom ((phdr_isSome_iff c st.shsz).mp hp)
  have hlen := strLen_append_singleton done c
  have hnat : (putPhdr (c.phdr st.shsz) st).shsz.toNat = strLen done := by
    rw [hsize]
    exact UInt32.toNat_ofNat_of_lt' (by show strLen done < 2 ^ 32; omega)
  have hend : (putPhdr (c.phdr st.shsz) st).shsz + UInt32.ofNat (c.name.length + 1) =
      UInt32.ofNat (strLen (done ++ [c])) := by
    rw [hsize, hlen]
    exact (UInt32.ofNat_add _ _).symm
  have hshdr : c.shdr ((putPhdr (c.phdr st.shsz) st).shsz +
      UInt32.ofNat (c.name.length + 1) - UInt32.ofNat (c.name.length + 1))
      ((putPhdr (c.phdr st.shsz) st).shsz + UInt32.ofNat (c.name.length + 1)) =
        c.shdrAfter done := by
    unfold SsArgs.shdrAfter
    rw [UInt32.add_sub_cancel, hend, hsize]
  have hss : ss c st = putShdr (c.shdrAfter done) (newstr c.name (putPhdr (c.phdr st.shsz) st)).1 := by
    rw [← hshdr]
    rfl
  rw [hss]
  refine ⟨?_, hend, fun j d hj => ?_, fun j d hj => ?_⟩
  · show (putPhdr (c.phdr st.shsz) st).shi + 1 = _
    rw [hcount, List.length_append, List.length_singleton]
  · show readWords (store (putPhdr (c.phdr st.shsz) st).e
      (shdrOfs + 40 * (putPhdr (c.phdr st.shsz) st).shi) (wordBytes (c.shdrAfter done).words))
      (shdrOfs + 40 * j) 10 = _
    rw [hcount]
    obtain ⟨hlt, hold, htake⟩ | ⟨rfl, rfl, htake⟩ := getElem?_concat hj
    · rw [readWords_store_disjoint (Or.inl (by omega)), hentry j d hold, htake]
    · rw [htake]
      exact readWords_store_self _ _ _
  · show load (store (putPhdr (c.phdr st.shsz) st).shstrtab
      (putPhdr (c.phdr st.shsz) st).shsz.toNat (c.name ++ [0])) _ _ = _
    rw [hnat]
    obtain ⟨hlt, hold, htake⟩ | ⟨rfl, rfl, htake⟩ := getElem?_concat hj
    · have hle := strLen_take_le hold
      rw [htake, load_store_disjoint (Or.inl (by omega)), hname j d hold]
    · have hself := load_store_self (putPhdr (d.phdr st.shsz) st).shstrtab (strLen done)
        (d.name ++ [0])
      rw [List.length_append, List.length_singleton] at hself
      rw [htake, hself]

/-! ## All calls -/

theorem ss_phi (c : SsArgs) (st : ElfState) :
    (ss c st).phi = st.phi + (decide c.Loadable).toNat := by
  rw [← phdr_isSome c st.shsz]
  show (putPhdr (c.phdr st.shsz) st).phi = _
  cases c.phdr st.shsz <;> rfl

theorem run_hasShdrs {st : ElfState} {done : List SsArgs} (h : HasShdrs st done)
    (calls : List SsArgs) (hroom : st.phi + calls.countP (fun c => decide c.Loadable) ≤ 2)
    (hstr : strLen (done ++ calls) < 2 ^ 32) :
    HasShdrs (calls.foldl (fun st c => ss c st) st) (done ++ calls) := by
  induction calls generalizing st done with
  | nil => simpa using h
  | cons c cs ih =>
    have hsplit : done ++ c :: cs = done ++ [c] ++ cs := by simp
    have hle : strLen (done ++ [c]) ≤ strLen (done ++ [c] ++ cs) := by
      simp [strLen]
    rw [List.countP_cons] at hroom
    have hone : c.Loadable → st.phi < 2 := by
      intro hl
      rw [if_pos (decide_eq_true hl)] at hroom
      omega
    have hnext : (ss c st).phi + cs.countP (fun c => decide c.Loadable) ≤ 2 := by
      rw [ss_phi]
      by_cases hl : c.Loadable
      · rw [if_pos (decide_eq_true hl)] at hroom
        rw [decide_eq_true hl, Bool.toNat_true]
        omega
      · rw [decide_eq_false hl, Bool.toNat_false]
        omega
    rw [hsplit] at hstr ⊢
    exact ih (ss_hasShdrs h hone (by omega)) hnext hstr

/-- Calls of `ss` that `e` has the section headers and the string table for. -/
structure SsCalls where
  calls : List SsArgs
  short : calls.length ≤ 10
  room : strLen calls ≤ 80

/-- The program headers are never overwritten. -/
theorem runSs_phdrs (calls : List SsArgs) {i : Nat} {p : Phdr}
    (h : (callPhdrs calls 0)[i]? = some p) :
    readWords (runSs calls).e (phdrOfs + 32 * i) 8 = p.words :=
  (ss_run start_has calls).entry i p h

/-- With two loadable calls or fewer nothing is overwritten. -/
theorem intact_of_le (s : SsCalls)
    (h : s.calls.countP (fun c => decide c.Loadable) ≤ 2) : Intact s.calls (runSs s.calls) := by
  have hroom := s.room
  have hphi : ElfState.start.phi + s.calls.countP (fun c => decide c.Loadable) ≤ 2 := by
    show 0 + _ ≤ 2
    omega
  have hrun := run_hasShdrs start_hasShdrs s.calls hphi (by rw [List.nil_append]; omega)
  rw [List.nil_append] at hrun
  have hentry : ∀ j c, s.calls[j]? = some c →
      shdrAt (runSs s.calls).e j = c.shdrAfter (s.calls.take j) := by
    intro j c hj
    have hwords : readWords (runSs s.calls).e (shdrOfs + 40 * j) 10 =
        (c.shdrAfter (s.calls.take j)).words := hrun.entry j c hj
    unfold shdrAt
    rw [hwords, Shdr.ofWords_words]
  refine ⟨hentry, fun j c hj => ?_, fun i p hp => ?_⟩
  · have hle := strLen_take_le hj
    have hname : (c.shdrAfter (s.calls.take j)).name.toNat = strLen (s.calls.take j) :=
      UInt32.toNat_ofNat_of_lt' (by show strLen (s.calls.take j) < 2 ^ 32; omega)
    rw [hentry j c hj, hname]
    exact hrun.name j c hj
  · unfold phdrAt
    rw [runSs_phdrs s.calls hp, Phdr.ofWords_words]

/-- The third program header is where the section header 0 is. -/
theorem not_intact_of_three {calls : List SsArgs}
    (h : 2 < calls.countP fun c => decide c.Loadable) : ¬ Intact calls (runSs calls) := by
  intro hi
  have hlen := callPhdrs_length calls 0
  obtain ⟨p, hp⟩ : ∃ p, (callPhdrs calls 0)[2]? = some p :=
    ⟨_, List.getElem?_eq_getElem (by omega)⟩
  obtain ⟨c, hc⟩ : ∃ c, calls[0]? = some c := by
    have hpos : 0 < calls.length := by
      have := List.countP_le_length (p := fun c : SsArgs => decide c.Loadable) (l := calls)
      omega
    exact ⟨_, List.getElem?_eq_getElem hpos⟩
  have hofs : phdrOfs + 32 * 2 = shdrOfs := rfl
  have hread := runSs_phdrs calls hp
  rw [hofs] at hread
  -- the word there is p_type of the one and sh_name of the other
  have hword : rd32 (runSs calls).e shdrOfs = p.type := (List.cons.inj hread).1
  have hname : rd32 (runSs calls).e shdrOfs = 0 := congrArg Shdr.name (hi.shdrs 0 c hc)
  rw [callPhdrs_type (List.mem_of_getElem? hp)] at hword
  rw [hword] at hname
  exact absurd hname (by decide)

/-- **The tables.** For all calls of `ss` that fit in the section header table and the string
    table of `e`: every section header decodes to the arguments of its call and points at its
    name, and every program header decodes to those of its loadable call, if and only if at most
    two calls are loadable. -/
theorem tables_intact_iff (s : SsCalls) :
    Intact s.calls (runSs s.calls) ↔ s.calls.countP (fun c => decide c.Loadable) ≤ 2 := by
  constructor
  · intro hi
    by_contra hmore
    exact not_intact_of_three (Nat.lt_of_not_le hmore) hi
  · exact intact_of_le s

/-- The null section and three loadable ones. -/
def threeLoads : SsCalls where
  calls :=
    [⟨[], false, false, 0, 0, 0, none⟩,
     ⟨cstr ".a".toList, false, true, 0, 4, 596, some (.var 4)⟩,
     ⟨cstr ".b".toList, false, true, 4, 4, 600, some (.var 4)⟩,
     ⟨cstr ".c".toList, false, true, 8, 4, 604, some (.var 4)⟩]
  short := by decide
  room := by decide

/-- The null section gets a name. -/
theorem threeLoads_overwritten : ¬ Intact threeLoads.calls (runSs threeLoads.calls) :=
  not_intact_of_three (by decide)

end Wifimon.Elf
