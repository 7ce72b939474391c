/-
  From the patched firmware to the ELF file: `patch.c`, `dump.c` and `util.c` of the app over
  `kwifimon_ioctl`, then `dump/bin2elf.c`.

  `dumpAll_map`: the dumps only read, so on a device whose reads keep the memory they are the
  dumps of that memory. `patched_dumps_agree_iff`: after any attempts to patch the firmware, with
  any accesses failing, and dumps that succeed, the ELF file holds the firmware with what was
  patched of it if and only if the code ram's file was there before, and had the patched bytes.
  The system calls are those of `stackControl`: they get the lock, and the original handler
  leaves their buffers alone.
-/
import Wifimon.App.Stack
import Wifimon.Dump.Agreement

namespace Wifimon.Dump

open ByteLib Elf
open App (MemDev World DumpSys Delivers Dumpable ReadsAll Firmware Env Patch TableOk Locals
  HasPrefix attempt attempts_hasPrefix stack stack_memRead dump dumpAll dumpLoop dumpSeg writeFile
  patches tableOk_patches unpatched failsAccess failsAccess_calls
  wordAt window)

/-! ## Dumps only read -/

section Map

variable {σ τ : Type}

/-- The same world with the device seen through `f`. -/
def mapDev (f : τ → σ) (w : World τ) : World σ := ⟨f w.dev, w.files, w.log⟩

theorem writeFile_map (f : τ → σ) (sys : DumpSys) (name : List Char) (data : List UInt8)
    (w : World τ) : writeFile sys name data (mapDev f w) = mapDev f (writeFile sys name data w) := by
  unfold writeFile
  dsimp only
  split
  · split <;> rfl
  · rfl

variable {dev : MemDev σ} {dev' : MemDev τ} {f : τ → σ}
  (hf : ∀ addr x, dev.memRead addr (f x) =
    ((dev'.memRead addr x).1, (dev'.memRead addr x).2.1, f (dev'.memRead addr x).2.2))

include hf

theorem dumpLoop_map (addrmax : UInt32) (room : Nat) (l : Locals) (x : τ) :
    dumpLoop dev addrmax room l (f x) =
      ((dumpLoop dev' addrmax room l x).1, f (dumpLoop dev' addrmax room l x).2) := by
  induction room generalizing l x with
  | zero =>
    rw [dumpLoop, dumpLoop, hf]
    split <;> rfl
  | succ room ih =>
    rw [dumpLoop, dumpLoop, hf]
    dsimp only
    split
    · split
      · rfl
      · exact ih _ _
    · rfl

theorem dumpSeg_map (sys : DumpSys) (sg : App.Seg) (w : World τ) :
    dumpSeg dev sys sg (mapDev f w) =
      ((dumpSeg dev' sys sg w).1, mapDev f (dumpSeg dev' sys sg w).2) := by
  unfold dumpSeg
  dsimp only
  split
  · rfl
  · rename_i hmalloc
    have hloop := dumpLoop_map hf (sg.base + sg.size) (sg.size.toNat / 4)
      ⟨sg.base, 0, 0, fun _ => 0⟩ w.dev
    have hdev : ((mapDev f w).emit (.malloc sg.size sys.malloc)).dev = f w.dev := rfl
    have hdev' : (w.emit (.malloc sg.size sys.malloc)).dev = w.dev := rfl
    rw [hdev, hdev', hloop]
    generalize dumpLoop dev' (sg.base + sg.size) (sg.size.toNat / 4) ⟨sg.base, 0, 0, fun _ => 0⟩
      w.dev = r
    obtain ⟨o, x⟩ := r
    cases o with
    | none => rfl
    | some l =>
      have hfile := writeFile_map f sys (App.dumpName sg.base l.size) (load l.seg 0 l.size.toNat)
        { w.emit (.malloc sg.size sys.malloc) with dev := x }
      exact congrArg (fun v : World σ => (some (0 : Int), v.emit .free)) hfile

theorem dump_map (sys : DumpSys) (i : Nat) (w : World τ) :
    dump dev sys i (mapDev f w) = ((dump dev' sys i w).1, mapDev f (dump dev' sys i w).2) := by
  unfold dump
  split
  · exact dumpSeg_map hf sys _ w
  · rfl

/-- A run of dumps over a device is the run over any device that its reads show. -/
theorem dumpAll_map (sys : Nat → DumpSys) (is : List Nat) (w : World τ) :
    dumpAll dev sys is (mapDev f w) = mapDev f (dumpAll dev' sys is w) := by
  induction is generalizing w with
  | nil => rfl
  | cons i is ih =>
    unfold dumpAll at ih ⊢
    rw [List.foldl_cons, List.foldl_cons, dump_map hf, ih]

end Map

/-! ## Dumps through the hook -/

/-- The reads of the firmware with memory `m`, from the system call number `k` on; the state is
    the number of reads so far. Dumps do not write. -/
def reading (envs : Nat → Env) (wlanIdx : Int) (frame : Mem) (m : UInt32 → UInt8) (k : Nat) :
    MemDev Nat where
  memRead addr j :=
    let r := (stack envs wlanIdx frame).memRead addr ⟨m, k + j⟩
    (r.1, r.2.1, j + 1)
  memWrite _ _ j := (0, j)

section Reading

variable (envs : Nat → Env) (wlanIdx : Int) (frame : Mem) (m : UInt32 → UInt8) (k : Nat)

theorem reading_map (addr : UInt32) (j : Nat) :
    (stack envs wlanIdx frame).memRead addr ⟨m, k + j⟩ =
      (((reading envs wlanIdx frame m k).memRead addr j).1,
        ((reading envs wlanIdx frame m k).memRead addr j).2.1,
        (⟨m, k + ((reading envs wlanIdx frame m k).memRead addr j).2.2⟩ : Firmware)) :=
  Prod.ext rfl (Prod.ext rfl (stack_memRead envs wlanIdx frame addr ⟨m, k + j⟩).2.2)

theorem reading_delivers : Delivers (reading envs wlanIdx frame m k) m := by
  intro addr j hret
  obtain ⟨hans, hdata, -⟩ := stack_memRead envs wlanIdx frame addr ⟨m, k + j⟩
  exact hdata (hans ▸ hret)

theorem reading_readsAll (h : ∀ j, k ≤ j → 0 ≤ (envs j).ans) (sg : App.Seg) :
    ReadsAll (reading envs wlanIdx frame m k) sg := by
  intro i j _
  have hans := (stack_memRead envs wlanIdx frame (sg.base + UInt32.ofNat (4 * i)) ⟨m, k + j⟩).1
  exact hans ▸ h (k + j) (Nat.le_add_right ..)

end Reading

/-- **Patched, dumped and loaded.** For every table in order, every firmware and any number of
    calls of `patch_do` through the hook, with any accesses failing in the driver, where each
    system call gets the lock and the original handler leaves its buffer alone: the firmware has
    the first words of the table, and after dumps of the segments 0 to 4 that succeed, `mapit`
    makes an ELF file that holds this firmware if and only if the file it opens for the code ram
    was there before the dumps, with the bytes that the code ram has since the attempts. -/
theorem patched_dumps_agree_iff (t : List Patch) (ht : TableOk t) (envs : Nat → Env)
    (as : List (Int × Mem)) (w : World Firmware) (s : Firmware)
    (hs : s = as.foldl (attempt envs t) w.dev) (hread : ∀ k, s.calls ≤ k → 0 ≤ (envs k).ans)
    {sys : Nat → DumpSys} (hsys : AllSucceed sys) (wlanIdx : Int) (frame elfdata : Mem) :
    (∃ n, HasPrefix t w.dev.mem s.mem n) ∧
      (Agrees s.mem (dataFiles (dumpAll (stack envs wlanIdx frame) sys (List.range 5)
          { w with dev := s }).files) elfdata ↔
        dataFiles w.files "dump-00000000-00080000.bin".toList =
          some (load (window s.mem 0) 0 0x80000)) := by
  have hstart : HasPrefix t w.dev.mem w.dev.mem 0 := ⟨Nat.zero_le _, rfl⟩
  obtain ⟨n, -, hn⟩ := attempts_hasPrefix ht hstart as
  refine ⟨⟨n, hs ▸ hn⟩, ?_⟩
  have hd := reading_delivers envs wlanIdx frame s.mem s.calls
  have hall : ∀ i ∈ List.range 5, ∃ sg,
      Dumpable (reading envs wlanIdx frame s.mem s.calls) sys i sg := by
    intro i hi
    obtain ⟨sg, hsg⟩ : ∃ sg, App.segs[i]? = some sg := by
      have hlen : i < App.segs.length := Nat.lt_trans (List.mem_range.mp hi) (by decide)
      exact ⟨_, List.getElem?_eq_getElem hlen⟩
    exact ⟨sg, hsg, reading_readsAll envs wlanIdx frame s.mem s.calls hread sg, hsys i hi sg hsg⟩
  have hworld : ({ w with dev := s } : World Firmware) =
      mapDev (fun j => ⟨s.mem, s.calls + j⟩) { w with dev := 0 } := rfl
  rw [hworld, dumpAll_map (reading_map envs wlanIdx frame s.mem s.calls)]
  have hfiles : ∀ v : World Nat,
      (mapDev (fun j => (⟨s.mem, s.calls + j⟩ : Firmware)) v).files = v.files := fun _ => rfl
  have hram := dumps_codeRam hd hall { w with dev := 0 }
  rw [hfiles, agrees_iff]
  constructor
  · intro h
    exact hram.symm.trans (h codeRam (by decide))
  · intro h s' hs'
    by_cases hne : s' = codeRam
    · subst hne
      exact hram.trans h
    · exact dumps_hold hd hall _ hs' hne

/-- An attempt that does not come to the hook, in an empty directory: the file that `mapit` needs
    for the code ram is not there. -/
theorem patched_dumps_disagree :
    let s := [(1, fun _ => 0)].foldl (attempt (failsAccess 26) patches) ⟨unpatched, 0⟩
    ¬ Agrees s.mem (dataFiles (dumpAll (stack (failsAccess 26) 1 fun _ => 0) goodSys (List.range 5)
      ⟨s, fun _ => none, []⟩).files) (fun _ => 0) := by
  intro s h
  have hcalls : s.calls = 27 := failsAccess_calls
  have hread : ∀ k, s.calls ≤ k → 0 ≤ (failsAccess 26 k).ans := by
    intro k hk
    have hans : (failsAccess 26 k).ans = 0 := if_neg (by omega)
    rw [hans]
  have hram := (patched_dumps_agree_iff patches tableOk_patches (failsAccess 26) [(1, fun _ => 0)]
    ⟨⟨unpatched, 0⟩, fun _ => none, []⟩ s rfl hread goodSys_succeed 1 (fun _ => 0)
    (fun _ => 0)).2.mp h
  cases hram

end Wifimon.Dump
