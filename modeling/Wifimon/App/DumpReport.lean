/-
  What `dump` of `src/app/dump.c` captures, and what it reports.

  * `dump_capture`: with memory and file at hand, a dump is the words before the first failing
    read, whichever that is, and no store leaves the buffer.
  * `dump_report_iff`: a dump that returns no error has read and written the whole segment, and
    leaves no file open and no memory allocated, if and only if the allocation fails or nothing
    else goes wrong. The `ret` that a failing read sets is not the one that is returned (the loop
    declares its own), the results of the file calls are not reported, and a file whose write
    fails is not closed.
-/
import Wifimon.App.Dump

namespace Wifimon.App

open ByteLib

variable {σ : Type}

/-! ## What is captured -/

/-- The bytes of the `k` little-endian words from `base` on. -/
def wordsAt (m : UInt32 → UInt8) (base : UInt32) (k : Nat) : List UInt8 :=
  wordBytes ((List.range k).map fun j => wordAt m (base + UInt32.ofNat (4 * j)))

@[simp] theorem wordsAt_length (m : UInt32 → UInt8) (base : UInt32) (k : Nat) :
    (wordsAt m base k).length = 4 * k := by
  simp [wordsAt]

theorem load_window (m : UInt32 → UInt8) (base : UInt32) (k : Nat) :
    load (window m base) 0 (4 * k) = wordsAt m base k := by
  induction k with
  | zero => rfl
  | succ k ih =>
    unfold wordsAt wordBytes at ih ⊢
    rw [Nat.mul_succ, load_append, ih, List.range_succ, List.map_append, List.flatMap_append,
      Nat.zero_add, ← le_wordAt m base (4 * k)]
    simp

/-! ## What is done -/

/-- The file calls of a dump. -/
def fileEvents (sys : DumpSys) (name : List Char) (data : List UInt8) : List DumpEvent :=
  .sceIoOpen name sys.sceIoOpen ::
    if 0 ≤ sys.sceIoOpen then
      .sceIoWrite sys.sceIoOpen data sys.sceIoWrite ::
        if 0 ≤ sys.sceIoWrite then [.sceIoClose sys.sceIoOpen] else []
    else []

/-- The calls of a dump that got its memory and whose loop ended. -/
def doneEvents (sys : DumpSys) (sg : Seg) (name : List Char) (data : List UInt8) :
    List DumpEvent :=
  [.malloc sg.size true] ++ fileEvents sys name data ++ [.free]

theorem writeFile_log (sys : DumpSys) (name : List Char) (data : List UInt8) (w : World σ) :
    (writeFile sys name data w).log = w.log ++ fileEvents sys name data := by
  unfold writeFile fileEvents
  dsimp only [World.emit]
  by_cases ho : 0 ≤ sys.sceIoOpen
  · rw [if_pos ho, if_pos ho]
    by_cases hw : 0 ≤ sys.sceIoWrite
    · rw [if_pos hw, if_pos hw, List.append_assoc, List.append_assoc]
      rfl
    · rw [if_neg hw, if_neg hw, List.append_assoc]
      rfl
  · rw [if_neg ho, if_neg ho]

theorem writeFile_dev (sys : DumpSys) (name : List Char) (data : List UInt8) (w : World σ) :
    (writeFile sys name data w).dev = w.dev := by
  unfold writeFile
  dsimp only [World.emit]
  split
  · split <;> rfl
  · rfl

/-- A dump without memory. -/
theorem dumpSeg_noMem (dev : MemDev σ) {sys : DumpSys} (hm : sys.malloc = false) (sg : Seg)
    (w : World σ) :
    (dumpSeg dev sys sg w).1 = some (-1) ∧
      (dumpSeg dev sys sg w).2.log = w.log ++ [.malloc sg.size false] := by
  unfold dumpSeg
  rw [hm, if_pos rfl]
  exact ⟨rfl, rfl⟩

/-- A dump that stores past its buffer. -/
theorem dumpSeg_fault (dev : MemDev σ) {sys : DumpSys} (hm : sys.malloc = true) {sg : Seg}
    {w : World σ} {s' : σ}
    (hrun : dumpLoop dev (sg.base + sg.size) (sg.size.toNat / 4) ⟨sg.base, 0, 0, fun _ => 0⟩
      w.dev = (none, s')) :
    (dumpSeg dev sys sg w).2.log = w.log ++ [.malloc sg.size true] := by
  unfold dumpSeg
  rw [hm, if_neg (by decide)]
  dsimp only [World.emit]
  rw [hrun]

/-- A dump whose loop ends. -/
theorem dumpSeg_done (dev : MemDev σ) {sys : DumpSys} (hm : sys.malloc = true) {sg : Seg}
    {w : World σ} {l : Locals} {s' : σ}
    (hrun : dumpLoop dev (sg.base + sg.size) (sg.size.toNat / 4) ⟨sg.base, 0, 0, fun _ => 0⟩
      w.dev = (some l, s')) :
    (dumpSeg dev sys sg w).1 = some 0 ∧ (dumpSeg dev sys sg w).2.dev = s' ∧
      (dumpSeg dev sys sg w).2.log = w.log ++
        doneEvents sys sg (dumpName sg.base l.size) (load l.seg 0 l.size.toNat) := by
  unfold dumpSeg
  rw [hm, if_neg (by decide)]
  dsimp only [World.emit]
  rw [hrun]
  refine ⟨rfl, writeFile_dev _ _ _ _, ?_⟩
  dsimp only
  unfold doneEvents
  rw [writeFile_log, List.append_assoc, List.append_assoc, List.append_assoc]

/-! ## The capture -/

/-- **The capture.** For every segment of whole words that ends before the last word of the
    address space, every device memory and every pattern of failing reads: if memory and file
    calls succeed, the file named after the base and the number of bytes read before the first
    failing read holds the device's words there, no other file changes, and the run ends, with no
    store past the buffer. -/
theorem dump_capture {f : Faults} {m : UInt32 → UInt8} (hf : f.Serves m) (wlanIdx : Int)
    (stack : Mem) {sg : Seg} (hfit : sg.Fits) {sys : DumpSys} (w : World Device) {k : Nat}
    (hk : k = readable (faulty f wlanIdx stack) (sg.size.toNat / 4) sg.base w.dev)
    (hs : sys.Succeeds (4 * k)) :
    (dumpSeg (faulty f wlanIdx stack) sys sg w).1 = some 0 ∧
      (dumpSeg (faulty f wlanIdx stack) sys sg w).2.files = Function.update w.files
        (dumpName sg.base (UInt32.ofNat (4 * k))) (some (wordsAt m sg.base k)) ∧
      (wordsAt m sg.base k).length = 4 * k := by
  obtain ⟨hret, hfiles⟩ := dumpSeg_file (faulty_delivers hf wlanIdx stack) hfit (by rw [← hk]) hs
  rw [load_window] at hfiles
  exact ⟨hret, hfiles, wordsAt_length m sg.base k⟩

/-- A device with an empty memory that fails every read of the word at `addr`. -/
def failsAt (addr : UInt32) : Faults where
  write := fun _ _ _ => (0, true)
  read := fun _ a => if a = addr then (-1, 0) else (0, 0)

theorem failsAt_serves (addr : UInt32) : (failsAt addr).Serves fun _ => 0 := by
  intro log a _
  have hword : wordAt (fun _ => 0) a = 0 := rfl
  rw [hword]
  unfold failsAt
  dsimp only
  split <;> rfl

/-- Two words of which the second one is not read. -/
theorem dump_capture_failsAt :
    (dumpSeg (faulty (failsAt 4) 0 fun _ => 0) ⟨true, 3, 4⟩ ⟨0, 8⟩
        ⟨⟨fun _ => 0, []⟩, fun _ => none, []⟩).1 = some 0 ∧
      (dumpSeg (faulty (failsAt 4) 0 fun _ => 0) ⟨true, 3, 4⟩ ⟨0, 8⟩
        ⟨⟨fun _ => 0, []⟩, fun _ => none, []⟩).2.files = Function.update (fun _ => none)
          (dumpName 0 (UInt32.ofNat (4 * 1))) (some (wordsAt (fun _ => 0) 0 1)) ∧
      (wordsAt (fun _ => 0) 0 1).length = 4 * 1 :=
  dump_capture (failsAt_serves 4) 0 (fun _ => 0) (by decide) ⟨⟨fun _ => 0, []⟩, fun _ => none, []⟩
    (by decide) ⟨rfl, by decide, rfl⟩

/-! ## What the loop does -/

/-- Where the segment wraps around the end of the address space, nothing is read. -/
theorem dumpLoop_stop (dev : MemDev σ) {addrmax : UInt32} (room : Nat) {l : Locals}
    (h : ¬ l.addr < addrmax) (s : σ) : dumpLoop dev addrmax room l s = (some l, s) := by
  cases room with
  | zero => exact if_neg h
  | succ room =>
    rw [dumpLoop]
    exact if_neg h

/-- `size` counts the bytes of the words that were read. -/
theorem dumpLoop_count {dev : MemDev σ} {addrmax : UInt32} {room : Nat} {l l' : Locals}
    {s s' : σ} (hrun : dumpLoop dev addrmax room l s = (some l', s')) :
    ∃ j, j ≤ readable dev room l.addr s ∧ l'.size = l.size + UInt32.ofNat (4 * j) := by
  induction room generalizing l s with
  | zero =>
    rw [dumpLoop] at hrun
    split at hrun
    · exact absurd (Prod.mk.inj hrun).1 (by simp)
    · obtain rfl : l = l' := Option.some.inj (Prod.mk.inj hrun).1
      exact ⟨0, Nat.zero_le _, (UInt32.add_zero _).symm⟩
  | succ room ih =>
    rw [dumpLoop] at hrun
    split at hrun
    · dsimp only at hrun
      split at hrun
      · obtain rfl := Option.some.inj (Prod.mk.inj hrun).1
        exact ⟨0, Nat.zero_le _, (UInt32.add_zero _).symm⟩
      · next hret =>
        obtain ⟨j, hj, hsize⟩ := ih hrun
        refine ⟨j + 1, ?_, ?_⟩
        · rw [readable, if_neg hret]
          exact Nat.succ_le_succ hj
        · rw [hsize, UInt32.add_assoc, UInt32.add_comm 4, ofNat_add_four]
    · obtain rfl : l = l' := Option.some.inj (Prod.mk.inj hrun).1
      exact ⟨0, Nat.zero_le _, (UInt32.add_zero _).symm⟩

/-- The words that are read are in the device's log. -/
theorem dumpLoop_reads (f : Faults) (wlanIdx : Int) (stack : Mem) (base : UInt32) (room j : Nat)
    (h : base.toNat + 4 * (j + room) < 2 ^ 32) (seg : Mem) (segp : Nat) (size : UInt32)
    (d : Device) :
    ∃ reads, (dumpLoop (faulty f wlanIdx stack) (base + UInt32.ofNat (4 * (j + room))) room
        ⟨base + UInt32.ofNat (4 * j), segp, size, seg⟩ d).2.log = d.log ++ reads ∧
      ∀ k, k < readable (faulty f wlanIdx stack) room (base + UInt32.ofNat (4 * j)) d →
        ∃ ret v, .read (base + UInt32.ofNat (4 * (j + k))) ret v ∈ reads ∧ 0 ≤ ret := by
  induction room generalizing j seg segp size d with
  | zero =>
    refine ⟨[], ?_, fun k hk => absurd hk (Nat.not_lt_zero k)⟩
    have hstop : ¬ base + UInt32.ofNat (4 * j) < base + UInt32.ofNat (4 * (j + 0)) :=
      UInt32.lt_irrefl _
    have hrun := dumpLoop_stop (faulty f wlanIdx stack) 0
      (l := ⟨base + UInt32.ofNat (4 * j), segp, size, seg⟩) hstop d
    rw [hrun, List.append_nil]
  | succ room ih =>
    have hlt : base + UInt32.ofNat (4 * j) < base + UInt32.ofNat (4 * (j + (room + 1))) := by
      rw [UInt32.lt_iff_toNat_lt, toNat_add_ofNat (by omega), toNat_add_ofNat h]
      omega
    rw [dumpLoop, if_pos hlt, readable]
    dsimp only
    rw [faulty_memRead]
    split
    · next hr =>
      exact ⟨_, rfl, fun k hk => absurd hk (Nat.not_lt_zero k)⟩
    · next hr =>
      rw [UInt32.add_assoc, ofNat_add_four, show j + (room + 1) = j + 1 + room by omega]
      obtain ⟨reads, hlog, hreads⟩ := ih (j + 1) (by omega) _ (segp + 4) (size + 4)
        (d.read f (base + UInt32.ofNat (4 * j))).2.2
      rw [Device.read_log, List.append_assoc] at hlog
      refine ⟨_, hlog, fun k hk => ?_⟩
      cases k with
      | zero => exact ⟨_, _, List.mem_append_left _ (List.mem_singleton_self _), by omega⟩
      | succ k =>
        obtain ⟨ret, v, hmem, hret⟩ := hreads k (by omega)
        refine ⟨ret, v, List.mem_append_right _ ?_, hret⟩
        rwa [show j + (k + 1) = j + 1 + k by omega]

/-! ## What is reported -/

/-- Every word of the segment was read. -/
def AllRead (sg : Seg) (reads : List Access) : Prop :=
  ∀ k, 4 * k < sg.size.toNat →
    ∃ ret v, .read (sg.base + UInt32.ofNat (4 * k)) ret v ∈ reads ∧ 0 ≤ ret

/-- The whole segment was written to its file. -/
def WrittenWhole (m : UInt32 → UInt8) (sg : Seg) (events : List DumpEvent) : Prop :=
  ∃ fd ret : Int, .sceIoOpen (dumpName sg.base sg.size) fd ∈ events ∧ 0 ≤ fd ∧
    .sceIoWrite fd (load (window m sg.base) 0 sg.size.toNat) ret ∈ events ∧ sg.size.toNat ≤ ret

def DumpEvent.opens (fd : Int) : DumpEvent → Bool
  | .sceIoOpen _ fd' => fd' == fd
  | _ => false

def DumpEvent.allocates : DumpEvent → Bool
  | .malloc _ ok => ok
  | _ => false

/-- What a dump is to guarantee, from the value it returns, the reads of the device and the calls
    it made. -/
structure Reports (m : UInt32 → UInt8) (sg : Seg) (ret : Option Int) (reads : List Access)
    (events : List DumpEvent) : Prop where
  whole : ∀ v, ret = some v → 0 ≤ v → AllRead sg reads ∧ WrittenWhole m sg events
  closed : ∀ fd, 0 ≤ fd → events.count (.sceIoClose fd) = events.countP (DumpEvent.opens fd)
  freed : events.count .free = events.countP DumpEvent.allocates

/-- The guarantees for what was done between the worlds `w` and `w'`. -/
def ReportsFrom (m : UInt32 → UInt8) (sg : Seg) (ret : Option Int) (w w' : World Device) : Prop :=
  Reports m sg ret (w'.dev.log.drop w.dev.log.length) (w'.log.drop w.log.length)

/-- Nothing goes wrong in a dump: the segment is made of whole words and ends before the end of
    the address space, all its reads succeed, the file is opened and takes all of it. -/
structure Undisturbed (dev : MemDev σ) (sg : Seg) (sys : DumpSys) (s : σ) : Prop where
  words : sg.size.toNat % 4 = 0
  limit : sg.base.toNat + sg.size.toNat < 2 ^ 32
  reads : readable dev (sg.size.toNat / 4) sg.base s = sg.size.toNat / 4
  sceIoOpen : 0 ≤ sys.sceIoOpen
  sceIoWrite : sg.size.toNat ≤ sys.sceIoWrite

/-- A loop that counts up to the size of the segment has read all of it. -/
theorem undisturbed_reads {dev : MemDev σ} {sg : Seg} {s s' : σ} {l : Locals}
    (hrun : dumpLoop dev (sg.base + sg.size) (sg.size.toNat / 4) ⟨sg.base, 0, 0, fun _ => 0⟩ s =
      (some l, s')) (hsize : l.size = sg.size) :
    sg.size.toNat % 4 = 0 ∧ sg.base.toNat + sg.size.toNat < 2 ^ 32 ∧
      readable dev (sg.size.toNat / 4) sg.base s = sg.size.toNat / 4 := by
  obtain ⟨j, hj, hcount⟩ := dumpLoop_count hrun
  have hle := readable_le dev (sg.size.toNat / 4) sg.base s
  have hlt := sg.size.toNat_lt
  have hfour : sg.size.toNat = 4 * j := by
    rw [← hsize, hcount]
    dsimp only at hj ⊢
    rw [UInt32.zero_add]
    exact UInt32.toNat_ofNat_of_lt' (by show 4 * j < 2 ^ 32; omega)
  dsimp only at hj
  refine ⟨by omega, ?_, by omega⟩
  by_contra hwrap
  -- the limit wraps to at most the base, and the loop reads nothing
  have hbase := sg.base.toNat_lt
  have hmax : ¬ sg.base < sg.base + sg.size := by
    rw [UInt32.lt_iff_toNat_lt, UInt32.toNat_add]
    omega
  rw [dumpLoop_stop dev _ hmax] at hrun
  have hzero : l.size = 0 := by rw [← Option.some.inj (Prod.mk.inj hrun).1]
  rw [hzero] at hsize
  rw [← hsize] at hwrap
  exact hwrap (by simpa using hbase)

/-- The only data a dump writes. -/
theorem write_mem_doneEvents {sys : DumpSys} {sg : Seg} {name : List Char}
    {data data' : List UInt8} {fd ret : Int}
    (h : .sceIoWrite fd data' ret ∈ doneEvents sys sg name data) :
    0 ≤ sys.sceIoOpen ∧ data' = data ∧ ret = sys.sceIoWrite := by
  unfold doneEvents fileEvents at h
  by_cases ho : 0 ≤ sys.sceIoOpen
  · rw [if_pos ho] at h
    by_cases hw : 0 ≤ sys.sceIoWrite
    · rw [if_pos hw] at h
      simp at h
      exact ⟨ho, h.2⟩
    · rw [if_neg hw] at h
      simp at h
      exact ⟨ho, h.2⟩
  · rw [if_neg ho] at h
    simp at h

theorem doneEvents_written {sys : DumpSys} (ho : 0 ≤ sys.sceIoOpen) (hw : 0 ≤ sys.sceIoWrite)
    (sg : Seg) (name : List Char) (data : List UInt8) :
    doneEvents sys sg name data = [.malloc sg.size true, .sceIoOpen name sys.sceIoOpen,
      .sceIoWrite sys.sceIoOpen data sys.sceIoWrite, .sceIoClose sys.sceIoOpen, .free] := by
  unfold doneEvents fileEvents
  rw [if_pos ho, if_pos hw]
  rfl

section Report

variable {f : Faults} {m : UInt32 → UInt8} (wlanIdx : Int) (stack : Mem) {sg : Seg}
  {sys : DumpSys} {w : World Device}

/-- A dump that guarantees what it should was not disturbed. -/
theorem undisturbed_of_reports (hm : sys.malloc = true)
    (h : ReportsFrom m sg (dumpSeg (faulty f wlanIdx stack) sys sg w).1 w
      (dumpSeg (faulty f wlanIdx stack) sys sg w).2) :
    Undisturbed (faulty f wlanIdx stack) sg sys w.dev := by
  unfold ReportsFrom at h
  cases hrun : dumpLoop (faulty f wlanIdx stack) (sg.base + sg.size) (sg.size.toNat / 4)
      ⟨sg.base, 0, 0, fun _ => 0⟩ w.dev with
  | mk l s' =>
    cases l with
    | none =>
      -- the buffer is never freed
      have hfreed := h.freed
      rw [dumpSeg_fault _ hm hrun, List.drop_left] at hfreed
      exact absurd hfreed (by simp [DumpEvent.allocates])
    | some l =>
      obtain ⟨hret, -, hevents⟩ := dumpSeg_done _ hm hrun
      obtain ⟨-, fd, ret, -, -, hwrite, hall⟩ := h.whole 0 hret (Int.le_refl 0)
      rw [hevents, List.drop_left] at hwrite
      obtain ⟨ho, hdata, hret'⟩ := write_mem_doneEvents hwrite
      have hlen := congrArg List.length hdata
      rw [load_length, load_length] at hlen
      obtain ⟨hwords, hlimit, hreads⟩ := undisturbed_reads hrun (UInt32.toNat_inj.mp hlen).symm
      exact ⟨hwords, hlimit, hreads, ho, hret' ▸ hall⟩

/-- A dump that is not disturbed guarantees what it should. -/
theorem reports_of_undisturbed (hf : f.Serves m) (hm : sys.malloc = true)
    (h : Undisturbed (faulty f wlanIdx stack) sg sys w.dev) :
    ReportsFrom m sg (dumpSeg (faulty f wlanIdx stack) sys sg w).1 w
      (dumpSeg (faulty f wlanIdx stack) sys sg w).2 := by
  have hsize : 4 * (sg.size.toNat / 4) = sg.size.toNat := by
    have := h.words
    omega
  have hn : sg.size.toNat =
      4 * readable (faulty f wlanIdx stack) (sg.size.toNat / 4) sg.base w.dev := by
    rw [h.reads, hsize]
  obtain ⟨l, s', hrun, hlen, hnat, hdata⟩ :=
    dumpLoop_segment (faulty_delivers hf wlanIdx stack) h.words h.limit w.dev hn
  rw [UInt32.ofNat_toNat] at hlen
  obtain ⟨-, hs', hevents⟩ := dumpSeg_done _ hm hrun
  have hwrite : 0 ≤ sys.sceIoWrite := Int.le_trans (Int.natCast_nonneg _) h.sceIoWrite
  rw [hlen, hdata, doneEvents_written h.sceIoOpen hwrite] at hevents
  obtain ⟨reads, hreads, hall⟩ := dumpLoop_reads f wlanIdx stack sg.base (sg.size.toNat / 4) 0
    (by have := h.limit; omega) (fun _ => 0) 0 0 w.dev
  have hmax : sg.base + UInt32.ofNat (4 * (0 + sg.size.toNat / 4)) = sg.base + sg.size := by
    rw [Nat.zero_add, hsize, UInt32.ofNat_toNat]
  have hbase : sg.base + UInt32.ofNat (4 * 0) = sg.base := UInt32.add_zero sg.base
  rw [hmax, hbase, hrun] at hreads
  rw [hbase, h.reads] at hall
  unfold ReportsFrom
  rw [hs', hreads, hevents, List.drop_left, List.drop_left]
  refine ⟨fun _ _ _ => ⟨fun k hk => ?_, ?_⟩, fun fd _ => ?_, ?_⟩
  · obtain ⟨ret, v, hmem, hret⟩ := hall k (by omega)
    rw [Nat.zero_add] at hmem
    exact ⟨ret, v, hmem, hret⟩
  · exact ⟨sys.sceIoOpen, sys.sceIoWrite, by simp, h.sceIoOpen, by simp, h.sceIoWrite⟩
  · simp [List.count_cons, List.countP_cons, DumpEvent.opens]
  · simp [List.countP_cons, DumpEvent.allocates]

/-- **The report.** For every segment, pattern of failing reads and outcome of allocation, open
    and write: a value that is not negative means that the whole segment was read and written,
    every file that was opened is closed and the buffer freed once, if and only if there was no
    memory or nothing went wrong. -/
theorem dump_report_iff (hf : f.Serves m) (sg : Seg) (sys : DumpSys) (w : World Device) :
    ReportsFrom m sg (dumpSeg (faulty f wlanIdx stack) sys sg w).1 w
        (dumpSeg (faulty f wlanIdx stack) sys sg w).2 ↔
      sys.malloc = false ∨ Undisturbed (faulty f wlanIdx stack) sg sys w.dev := by
  cases hm : sys.malloc with
  | false =>
    obtain ⟨hret, hevents⟩ := dumpSeg_noMem (faulty f wlanIdx stack) hm sg w
    unfold ReportsFrom
    rw [hret, hevents, List.drop_left]
    refine iff_of_true ⟨fun v hv h0 => ?_, fun fd _ => ?_, ?_⟩ (Or.inl rfl)
    · rw [← Option.some.inj hv] at h0
      exact absurd h0 (by decide)
    · simp [DumpEvent.opens]
    · simp [DumpEvent.allocates]
  | true =>
    rw [or_iff_right (by decide)]
    exact ⟨undisturbed_of_reports wlanIdx stack hm, reports_of_undisturbed wlanIdx stack hf hm⟩

end Report

/-- Two words that are both read and written. -/
theorem dump_report_iff_whole :
    ReportsFrom (fun _ => 0) ⟨0, 8⟩
        (dumpSeg (faulty (failsAt 8) 0 fun _ => 0) ⟨true, 3, 8⟩ ⟨0, 8⟩
          ⟨⟨fun _ => 0, []⟩, fun _ => none, []⟩).1 ⟨⟨fun _ => 0, []⟩, fun _ => none, []⟩
        (dumpSeg (faulty (failsAt 8) 0 fun _ => 0) ⟨true, 3, 8⟩ ⟨0, 8⟩
          ⟨⟨fun _ => 0, []⟩, fun _ => none, []⟩).2 :=
  (dump_report_iff 0 (fun _ => 0) (failsAt_serves 8) ⟨0, 8⟩ ⟨true, 3, 8⟩
    ⟨⟨fun _ => 0, []⟩, fun _ => none, []⟩).mpr
      (Or.inr ⟨by decide, by decide, by decide, by decide, by decide⟩)

/-- Two words of which the second one is not read, and no error. -/
theorem halfDump_unreported :
    ¬ ReportsFrom (fun _ => 0) ⟨0, 8⟩
        (dumpSeg (faulty (failsAt 4) 0 fun _ => 0) ⟨true, 3, 4⟩ ⟨0, 8⟩
          ⟨⟨fun _ => 0, []⟩, fun _ => none, []⟩).1 ⟨⟨fun _ => 0, []⟩, fun _ => none, []⟩
        (dumpSeg (faulty (failsAt 4) 0 fun _ => 0) ⟨true, 3, 4⟩ ⟨0, 8⟩
          ⟨⟨fun _ => 0, []⟩, fun _ => none, []⟩).2 := by
  intro h
  have hund := undisturbed_of_reports 0 (fun _ => 0) rfl h
  exact absurd hund.reads (by decide)

end Wifimon.App
