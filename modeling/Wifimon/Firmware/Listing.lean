/-
  `doc/re/bin2elf.c`: what the tool prints on `stderr` while it reads an image.

  A line is a list of characters. `hexdump` prints bytes in lines of 16; `listing` has the lines
  of every pass of `spew`. The locale is that of C, in which `isprint` is true of the bytes
  from 0x20 to 0x7e; `map - file_start` is a position of the file.

  * `hexdump_read`: the lines of a hex dump give back the bytes, up to 640 of them.
  * `listing_headers`: whatever the file is, the header lines of the listing give back the position
    and the header of every block that the loop came to, in order, and of nothing else.
-/
import Wifimon.Lib.Hex
import Wifimon.Firmware.Blocks

namespace Wifimon.Firmware

open ByteLib HexLib Elf

/-! ## `hexdump` -/

abbrev Line := List Char

def isPrint (b : UInt8) : Bool := decide (0x20 ≤ b ∧ b ≤ 0x7e)

/-- The cells of the bytes from number `i` of a line on: two digits and a blank, and one blank
    more behind every fourth cell. -/
def hexCells : Nat → List UInt8 → Line
  | _, [] => []
  | i, b :: bs =>
    hexDigits 2 b.toNat ++ [' '] ++ (if i &&& 3 = 3 then [' '] else []) ++ hexCells (i + 1) bs

def sample (bs : List UInt8) : Line :=
  bs.map fun b => if isPrint b then Char.ofNat b.toNat else '.'

/-- `"%s%-52.52s<%s>\n"`. -/
def dumpLine (pre : Line) (bs : List UInt8) : Line :=
  let hex := (hexCells 0 bs).take 52
  pre ++ hex ++ List.replicate (52 - hex.length) ' ' ++ ['<'] ++ sample bs ++ ['>']

/-- The loop of `hexdump`, on the bytes that are left. -/
def dumpLines (pre : Line) (bs : List UInt8) : List Line :=
  if bs = [] then []
  else dumpLine pre (bs.take 16) :: dumpLines pre (bs.drop 16)
termination_by bs.length
decreasing_by
  have : 0 < bs.length := List.length_pos_iff.mpr ‹_›
  rw [List.length_drop]
  omega

/-- `hexdump(pre, data, size)`, on the `size` bytes at `data`. -/
def hexdump (pre : Line) (bs : List UInt8) : List Line := dumpLines pre (bs.take 640)

/-! ### Reading a dump -/

/-- `n` bytes from cells, the first of which has number `i` in its line. -/
def readCells : Nat → Nat → Line → List UInt8
  | _, 0, _ => []
  | i, n + 1, cs =>
    UInt8.ofNat (hexValue (cs.take 2)) ::
      readCells (i + 1) n (cs.drop (if i &&& 3 = 3 then 4 else 3))

/-- The bytes of a line; the length of the sample says how many. -/
def readDumpLine (pre : Nat) (line : Line) : List UInt8 :=
  readCells 0 (line.length - pre - 54) (line.drop pre)

theorem readCells_hexCells (i : Nat) (bs : List UInt8) (rest : Line) :
    readCells i bs.length (hexCells i bs ++ rest) = bs := by
  induction bs generalizing i with
  | nil => rfl
  | cons b bs ih =>
    have hbyte : UInt8.ofNat (hexValue (hexDigits 2 b.toNat)) = b := by
      rw [hexValue_hexDigits b.toNat_lt, UInt8.ofNat_toNat]
    have htake : (hexCells i (b :: bs) ++ rest).take 2 = hexDigits 2 b.toNat := by
      rw [hexCells, List.append_assoc, List.append_assoc, List.append_assoc]
      exact List.take_left' (hexDigits_length 2 _)
    have hdrop : (hexCells i (b :: bs) ++ rest).drop (if i &&& 3 = 3 then 4 else 3) =
        hexCells (i + 1) bs ++ rest := by
      rw [hexCells, List.append_assoc]
      refine List.drop_left' ?_
      split <;> simp
    rw [List.length_cons, readCells, htake, hbyte, hdrop, ih]

theorem hexCells_length (i : Nat) (bs : List UInt8) :
    (hexCells i bs).length = 3 * bs.length + ((i + bs.length) / 4 - i / 4) := by
  induction bs generalizing i with
  | nil => simp [hexCells]
  | cons b bs ih =>
    have hmask : i &&& 3 = i % 4 := Nat.and_two_pow_sub_one_eq_mod i 2
    rw [hexCells, List.length_append, ih, List.length_cons, hmask]
    split <;> simp <;> omega

theorem readDumpLine_dumpLine (pre : Line) {bs : List UInt8} (h : bs.length ≤ 16) :
    readDumpLine pre.length (dumpLine pre bs) = bs := by
  have hcells := hexCells_length 0 bs
  have hfits : (hexCells 0 bs).take 52 = hexCells 0 bs := List.take_of_length_le (by omega)
  have hlen : (dumpLine pre bs).length - pre.length - 54 = bs.length := by
    simp only [dumpLine, hfits, sample, List.length_append, List.length_replicate,
      List.length_singleton, List.length_map]
    omega
  have hdrop : (dumpLine pre bs).drop pre.length = hexCells 0 bs ++
      (List.replicate (52 - (hexCells 0 bs).length) ' ' ++ ['<'] ++ sample bs ++ ['>']) := by
    simp only [dumpLine, hfits, List.append_assoc]
    exact List.drop_left
  rw [readDumpLine, hlen, hdrop, readCells_hexCells]

theorem dumpLines_read (pre : Line) (bs : List UInt8) :
    (dumpLines pre bs).flatMap (readDumpLine pre.length) = bs := by
  induction hn : bs.length using Nat.strongRecOn generalizing bs with
  | _ n ih =>
    rw [dumpLines]
    split
    · next hnil =>
      rw [hnil]
      rfl
    · next hne =>
      have hpos : 0 < bs.length := List.length_pos_iff.mpr hne
      have hrest := ih (bs.drop 16).length (by rw [List.length_drop]; omega) (bs.drop 16) rfl
      rw [List.flatMap_cons, readDumpLine_dumpLine pre (by rw [List.length_take]; omega), hrest,
        List.take_append_drop]

/-- The buffers of `hexdump`: `hex` has 80 characters and `samp` has 20, with the zero behind. -/
def InBuffers (bs : List UInt8) : Prop := (hexCells 0 bs).length < 80 ∧ (sample bs).length < 20

theorem dumpLines_mem (pre : Line) (bs : List UInt8) {line : Line} (h : line ∈ dumpLines pre bs) :
    ∃ part, line = dumpLine pre part ∧ part.length ≤ 16 ∧ part ≠ [] := by
  induction hn : bs.length using Nat.strongRecOn generalizing bs with
  | _ n ih =>
    rw [dumpLines] at h
    split at h
    · cases h
    · next hne =>
      have hpos : 0 < bs.length := List.length_pos_iff.mpr hne
      rcases List.mem_cons.mp h with rfl | hrest
      · refine ⟨bs.take 16, rfl, by rw [List.length_take]; omega, fun hnil => ?_⟩
        have hlen := congrArg List.length hnil
        rw [List.length_take, List.length_nil] at hlen
        omega
      · exact ih (bs.drop 16).length (by rw [List.length_drop]; omega) (bs.drop 16) hrest rfl

/-- **The hex dump.** For every prefix and all bytes, the lines give back the first 640 bytes, and
    each of them; no line has more than 16 bytes, and its text fits into the buffers. -/
theorem hexdump_read (pre : Line) (bs : List UInt8) :
    (hexdump pre bs).flatMap (readDumpLine pre.length) = bs.take 640 ∧
      ∀ line ∈ hexdump pre bs, ∃ part, line = dumpLine pre part ∧ part.length ≤ 16 ∧
        part ≠ [] ∧ InBuffers part := by
  refine ⟨dumpLines_read pre _, fun line hline => ?_⟩
  obtain ⟨part, heq, hlen, hne⟩ := dumpLines_mem pre _ hline
  have hcells := hexCells_length 0 part
  have hsample : (sample part).length = part.length := List.length_map ..
  exact ⟨part, heq, hlen, hne, by omega, by omega⟩

/-! ## The lines of a pass -/

/-- `tmp`: the last word of the body, or what was in the variable. -/
def endWord (junk : UInt32) (b : List UInt8) (pos : Nat) (left : Int) : UInt32 :=
  if (fwheader b pos).datalength ≤ UInt32.ofNat left.toNat then
    rd32 (ofList b) (pos + 16 + (fwheader b pos).datalength.toNat - 4)
  else junk

/-- Texts, each with a field of eight digits behind it. -/
def fieldsLine (fs : List (Line × UInt32)) : Line :=
  fs.flatMap fun f => f.1 ++ hexDigits 8 f.2.toNat

/-- `"%08x  cmd:%08x addr:%08x len:%08x crc:%08x end:%08x\n"`. -/
def headerLine (pos : UInt32) (h : FwHeader) (tmp : UInt32) : Line :=
  fieldsLine [([], pos), ("  cmd:".toList, h.dnldcmd), (" addr:".toList, h.baseaddr),
    (" len:".toList, h.datalength), (" crc:".toList, h.crc), (" end:".toList, tmp)]

/-- The message of `need`. -/
def needLine (left size : Int) (msg : Line) : Line :=
  "not enough bytes, have ".toList ++ ((toString left).toList ++ (" of ".toList ++
    ((toString size).toList ++ (" for ".toList ++ msg))))

/-- The position in decimal and in hexadecimal. -/
def offsetText (pos : Nat) : Line := (toString pos).toList ++ " 0x".toList ++ hexDigits 8 pos

/-- The part of a pass behind the test for the body. -/
def bodyLines (b : List UInt8) (pos : Nat) (dump : List Line) : List Line :=
  let h := fwheader b pos
  let len := h.datalength - 4
  if pos + 16 + (len + 4).toNat > b.length then []
  else if doCrc 0 (load (ofList b) (pos + 16) (len + 4).toNat) ≠ 0 then ["bad body CRC".toList]
  else
    match regionOf h.baseaddr with
    | none => ["le32_to_cpu(fwheader.baseaddr) is 0x".toList ++ hexDigits 8 h.baseaddr.toNat ++
        " ".toList ++ Nat.toDigits 16 h.baseaddr.toNat]
    | some r =>
      if pos + 16 + len.toNat ≤ b.length ∧ storeOfs r h.baseaddr + len.toNat ≤ elfdataSize then
        if r = .r04 then dump else []
      else []

def passLines (junk : UInt32) (b : List UInt8) (pos : Nat) (mapsize : Int) : List Line :=
  if mapsize = 0 then ["ran out at file offset ".toList ++ offsetText pos]
  else if mapsize < 0 then ["INTERNAL ERROR NEGATIVE REMAINDER ".toList ++ offsetText pos]
  else if mapsize < 16 then [needLine mapsize 16 "fwheader".toList]
  else
    let h := fwheader b pos
    let left := mapsize - 16
    let dump := hexdump "x ".toList (load (ofList b) pos mapsize.toNat)
    headerLine (UInt32.ofNat pos) h (endWord junk b pos left) ::
      if doCrc 0 (load (ofList b) pos 16) ≠ 0 then ["bad header CRC".toList]
      else if h.dnldcmd = fwHasLastBlock ∧ h.datalength = 0 then []
      else
        (if h.dnldcmd ≠ fwHasDataToRecv ∨ 0x400 < h.datalength then "oh crap".toList :: dump
          else []) ++
          if left < asInt h.datalength then [needLine left (asInt h.datalength) "data".toList]
          else bodyLines b pos dump

/-- The lines of the loop from a position; `junk` is what `tmp` holds in the pass at a position. -/
def listing (junk : Nat → UInt32) (b : List UInt8) (pos : Nat) (mapsize : Int) (g : Globals) :
    List Line :=
  match hs : (spewStep b pos mapsize g).2 with
  | .stop _ => passLines (junk pos) b pos mapsize
  | .loop pos' mapsize' g' =>
    have _hlt := spewStep_lt hs
    passLines (junk pos) b pos mapsize ++ listing junk b pos' mapsize' g'
termination_by mapsize.toNat
decreasing_by exact _hlt

/-- `"mapped    %6d bytes\n"`. -/
def mappedLine (size : Line) : Line :=
  "mapped    ".toList ++ (size.leftpad 6 ' ' ++ " bytes".toList)

/-- The lines of the tool. -/
def mapitLines (junk : Nat → UInt32) (b : List UInt8) : List Line :=
  if b.length = 0 then ["0 is a bad size or mapping failed".toList]
  else mappedLine (toString (stSize b.length)).toList :: listing junk b 0 (stSize b.length) .start

/-! ## Reading the header lines -/

/-- The fields behind these texts. -/
def readFields : List Line → Line → List UInt32
  | [], _ => []
  | text :: texts, line =>
    UInt32.ofNat (hexValue ((line.drop text.length).take 8)) ::
      readFields texts (line.drop (text.length + 8))

/-- A header line has the text ` cmd:` behind its first field; the other lines do not. -/
def readHeader (line : Line) : Option (UInt32 × FwHeader × UInt32) :=
  if (line.drop 8).take 6 = "  cmd:".toList then
    match readFields [[], "  cmd:".toList, " addr:".toList, " len:".toList, " crc:".toList,
        " end:".toList] line with
    | [pos, cmd, addr, len, crc, tmp] => some (pos, ⟨cmd, addr, len, crc⟩, tmp)
    | _ => none
  else none

theorem readFields_fieldsLine (fs : List (Line × UInt32)) :
    readFields (fs.map Prod.fst) (fieldsLine fs) = fs.map Prod.snd := by
  induction fs with
  | nil => rfl
  | cons f fs ih =>
    have hline : fieldsLine (f :: fs) = f.1 ++ (hexDigits 8 f.2.toNat ++ fieldsLine fs) := by
      rw [fieldsLine, List.flatMap_cons, List.append_assoc]
      rfl
    have hdrop : (fieldsLine (f :: fs)).drop (f.1.length + 8) = fieldsLine fs := by
      rw [hline, ← List.append_assoc]
      exact List.drop_left' (by rw [List.length_append, hexDigits_length])
    have htake : ((fieldsLine (f :: fs)).drop f.1.length).take 8 = hexDigits 8 f.2.toNat := by
      rw [hline, List.drop_left]
      exact List.take_left' (hexDigits_length 8 _)
    rw [List.map_cons, List.map_cons, readFields, hdrop, ih, htake,
      hexValue_hexDigits f.2.toNat_lt, UInt32.ofNat_toNat]

theorem readHeader_headerLine (pos : UInt32) (h : FwHeader) (tmp : UInt32) :
    readHeader (headerLine pos h tmp) = some (pos, h, tmp) := by
  have htext : ((headerLine pos h tmp).drop 8).take 6 = "  cmd:".toList := by
    have hline : headerLine pos h tmp = hexDigits 8 pos.toNat ++ ("  cmd:".toList ++
        (hexDigits 8 h.dnldcmd.toNat ++ fieldsLine [(" addr:".toList, h.baseaddr),
          (" len:".toList, h.datalength), (" crc:".toList, h.crc), (" end:".toList, tmp)])) := by
      simp [headerLine, fieldsLine]
    rw [hline, List.drop_left' (hexDigits_length 8 _)]
    exact List.take_left' rfl
  have hfields : readFields [[], "  cmd:".toList, " addr:".toList, " len:".toList,
      " crc:".toList, " end:".toList] (headerLine pos h tmp) =
        [pos, h.dnldcmd, h.baseaddr, h.datalength, h.crc, tmp] :=
    readFields_fieldsLine [([], pos), ("  cmd:".toList, h.dnldcmd),
    (" addr:".toList, h.baseaddr), (" len:".toList, h.datalength), (" crc:".toList, h.crc),
    (" end:".toList, tmp)]
  rw [readHeader, if_pos htext, hfields]

/-- The cells have digits and blanks only. -/
theorem mem_hexCells {i : Nat} {bs : List UInt8} {c : Char} (h : c ∈ hexCells i bs) :
    c = ' ' ∨ ∃ d < 16, c = Nat.digitChar d := by
  induction bs generalizing i with
  | nil => cases h
  | cons b bs ih =>
    rw [hexCells, List.mem_append, List.mem_append, List.mem_append] at h
    rcases h with ((hdigit | hblank) | hmore) | hrest
    · exact Or.inr (mem_hexDigits hdigit)
    · exact Or.inl (List.mem_singleton.mp hblank)
    · split at hmore
      · exact Or.inl (List.mem_singleton.mp hmore)
      · cases hmore
    · exact ih hrest

theorem readHeader_dumpLine (bs : List UInt8) : readHeader (dumpLine "x ".toList bs) = none := by
  have hlen : ((hexCells 0 bs).take 52 ++
      List.replicate (52 - ((hexCells 0 bs).take 52).length) ' ').length = 52 := by
    rw [List.length_append, List.length_replicate, List.length_take]
    omega
  refine if_neg fun htext => ?_
  have hm : 'm' ∈ ((dumpLine "x ".toList bs).drop 8).take 6 := by
    rw [htext]
    decide
  have hline : dumpLine "x ".toList bs = "x ".toList ++ (((hexCells 0 bs).take 52 ++
      List.replicate (52 - ((hexCells 0 bs).take 52).length) ' ') ++
        ('<' :: sample bs ++ ['>'])) := by
    simp [dumpLine]
  have hmem : 'm' ∈ (hexCells 0 bs).take 52 ++
      List.replicate (52 - ((hexCells 0 bs).take 52).length) ' ' := by
    generalize (hexCells 0 bs).take 52 ++
      List.replicate (52 - ((hexCells 0 bs).take 52).length) ' ' = area at hlen hline
    have hshift : ("x ".toList ++ (area ++ ('<' :: sample bs ++ ['>']))).drop 8 =
        (area ++ ('<' :: sample bs ++ ['>'])).drop 6 := rfl
    rw [hline, hshift, List.drop_append_of_le_length (by omega),
      List.take_append_of_le_length (by rw [List.length_drop]; omega)] at hm
    exact List.mem_of_mem_drop (List.mem_of_mem_take hm)
  rcases List.mem_append.mp hmem with hcell | hpad
  · rcases mem_hexCells (List.mem_of_mem_take hcell) with hblank | ⟨d, hd, hdigit⟩
    · exact absurd hblank (by decide)
    · exact absurd hdigit ((by decide : ∀ d < 16, 'm' ≠ Nat.digitChar d) d hd)
  · exact absurd (List.eq_of_mem_replicate hpad) (by decide)

/-- Lines without the `m` of a header line. -/
theorem readHeader_of_char {text : Line} (h : text[11]? ≠ some 'm') : readHeader text = none := by
  refine if_neg fun htext => h ?_
  have hchar := congrArg (fun l : Line => l[3]?) htext
  simpa [List.getElem?_take, List.getElem?_drop] using hchar

theorem readHeader_append {text rest : Line} (hlen : 11 < text.length)
    (h : text[11]? ≠ some 'm') : readHeader (text ++ rest) = none :=
  readHeader_of_char (by rwa [List.getElem?_append_left hlen])

theorem needLine_noHeader (left size : Int) (msg : Line) :
    readHeader (needLine left size msg) = none :=
  readHeader_append (by decide) (by decide)

theorem hexdump_noHeader (bs : List UInt8) :
    (hexdump "x ".toList bs).filterMap readHeader = [] := by
  refine List.filterMap_eq_nil_iff.mpr fun line hline => ?_
  obtain ⟨part, rfl, -, -⟩ := dumpLines_mem _ _ hline
  exact readHeader_dumpLine part

theorem bodyLines_noHeader (b : List UInt8) (pos : Nat) {dump : List Line}
    (h : dump.filterMap readHeader = []) : (bodyLines b pos dump).filterMap readHeader = [] := by
  unfold bodyLines
  dsimp only
  split
  · rfl
  · split
    · rfl
    · split
      · exact List.filterMap_eq_nil_iff.mpr fun line hline => by
          rw [List.mem_singleton.mp hline]
          exact readHeader_of_char (by simp)
      · split
        · split
          · exact h
          · rfl
        · rfl

/-- What the header line of a position says. -/
def headerEntry (junk : Nat → UInt32) (b : List UInt8) (w pos : Nat) : UInt32 × FwHeader × UInt32 :=
  (UInt32.ofNat pos, fwheader b pos, endWord (junk pos) b pos ((w : Int) - pos - 16))

/-- A pass has a header line if a header is there, and no other. -/
theorem passLines_headers (junk : Nat → UInt32) (b : List UInt8) {w pos : Nat} (hp : pos ≤ w) :
    (passLines (junk pos) b pos ((w : Int) - pos)).filterMap readHeader =
      if pos + 16 ≤ w then [headerEntry junk b w pos] else [] := by
  have hmessage : ∀ {line : Line}, readHeader line = none → [line].filterMap readHeader = [] := by
    intro line hline
    rw [List.filterMap_cons_none hline, List.filterMap_nil]
  have hdump := hexdump_noHeader (load (ofList b) pos ((w : Int) - pos).toNat)
  unfold passLines
  by_cases h0 : (w : Int) - pos = 0
  · rw [if_pos h0, if_neg (by omega)]
    exact hmessage (readHeader_of_char (by simp))
  rw [if_neg h0, if_neg (by omega)]
  by_cases h16 : (w : Int) - pos < 16
  · rw [if_pos h16, if_neg (by omega)]
    exact hmessage (needLine_noHeader ..)
  rw [if_neg h16, if_pos (by omega)]
  dsimp only
  have hcons : ∀ {x : UInt32 × FwHeader × UInt32} {line : Line} {lines : List Line},
      readHeader line = some x → lines.filterMap readHeader = [] →
        (line :: lines).filterMap readHeader = [x] := by
    intro x line lines hline hlines
    rw [List.filterMap_cons_some hline, hlines]
  refine hcons (readHeader_headerLine ..) ?_
  split
  · exact hmessage (readHeader_of_char (by simp))
  · split
    · rfl
    · rw [List.filterMap_append]
      refine List.append_eq_nil_iff.mpr ⟨?_, ?_⟩
      · split
        · rw [List.filterMap_cons_none (readHeader_of_char (by simp))]
          exact hdump
        · rfl
      · split
        · exact hmessage (needLine_noHeader ..)
        · exact bodyLines_noHeader b pos hdump

theorem listing_stop {junk : Nat → UInt32} {b : List UInt8} {pos : Nat} {mapsize : Int}
    {g : Globals} {o : Outcome} (h : (spewStep b pos mapsize g).2 = .stop o) :
    listing junk b pos mapsize g = passLines (junk pos) b pos mapsize := by
  rw [listing]
  split
  · rfl
  · next ho => rw [h] at ho; cases ho

theorem listing_loop {junk : Nat → UInt32} {b : List UInt8} {pos pos' : Nat}
    {mapsize mapsize' : Int} {g g' : Globals}
    (h : (spewStep b pos mapsize g).2 = .loop pos' mapsize' g') :
    listing junk b pos mapsize g =
      passLines (junk pos) b pos mapsize ++ listing junk b pos' mapsize' g' := by
  rw [listing]
  split
  · next ho => rw [h] at ho; cases ho
  · next ho => rw [h] at ho; cases ho; rfl

/-- Where the block is not stored the pass is the last one. -/
theorem step_stop {b : List UInt8} {w pos : Nat} (hw : w ≤ b.length) (hp : pos ≤ w)
    (h : ¬ Accepts b w pos) (g : Globals) :
    ∃ o, (spewStep b pos ((w : Int) - pos) g).2 = .stop o := by
  have hc := step_pos hw hp g
  generalize spewStep b pos ((w : Int) - pos) g = s at hc ⊢
  cases hc with
  | ranOut => exact ⟨_, rfl⟩
  | truncated => exact ⟨_, rfl⟩
  | last => exact ⟨_, rfl⟩
  | refused => exact ⟨_, rfl⟩
  | outside => exact ⟨_, rfl⟩
  | block ha => exact absurd ha h

/-! ## The listing -/

/-- The header lines are those of the first positions of the chain. -/
theorem listing_chain (junk : Nat → UInt32) {b : List UInt8} {w pos : Nat} (hw : w ≤ b.length)
    (hp : pos ≤ w) (g : Globals) :
    ∃ n, (listing junk b pos ((w : Int) - pos) g).filterMap readHeader =
        (List.range n).map (fun i => headerEntry junk b w ((nextPos b)^[i] pos)) ∧
      ∀ p, Reaches b w pos p ∧ p + 16 ≤ w ↔ ∃ i < n, p = (nextPos b)^[i] pos := by
  induction hn : w - pos using Nat.strongRecOn generalizing pos g with
  | _ n ih =>
    have hpass := passLines_headers junk b hp
    by_cases ha : Accepts b w pos
    · have hpres : nextPos b pos ≤ w := ha.1.present
      have hnext : nextPos b pos = pos + 16 + dataLen b pos := rfl
      obtain ⟨k, hlines, hreach⟩ := ih (w - nextPos b pos) (by omega) hpres
        (applyBlock g (blockAt b pos)) rfl
      refine ⟨k + 1, ?_, fun p => ?_⟩
      · rw [listing_loop (step_block hw ha g), List.filterMap_append, hpass, hlines,
          if_pos (by omega), List.range_succ_eq_map, List.map_cons, List.map_map]
        rfl
      · constructor
        · rintro ⟨hr, hroom⟩
          rcases Relation.ReflTransGen.cases_head hr with rfl | ⟨q, ⟨-, rfl⟩, hq⟩
          · exact ⟨0, Nat.succ_pos k, rfl⟩
          · obtain ⟨i, hi, hpi⟩ := (hreach p).mp ⟨hq, hroom⟩
            exact ⟨i + 1, Nat.succ_lt_succ hi, hpi⟩
        · rintro ⟨i, hi, rfl⟩
          cases i with
          | zero => exact ⟨Relation.ReflTransGen.refl, by show pos + 16 ≤ w; omega⟩
          | succ i =>
            obtain ⟨hq, hroom⟩ := (hreach _).mpr ⟨i, Nat.lt_of_succ_lt_succ hi, rfl⟩
            exact ⟨Relation.ReflTransGen.head ⟨ha, rfl⟩ hq, hroom⟩
    · obtain ⟨o, hstop⟩ := step_stop hw hp ha g
      rw [listing_stop hstop, hpass]
      by_cases hroom : pos + 16 ≤ w
      · refine ⟨1, by rw [if_pos hroom]; rfl, fun p => ?_⟩
        rw [reaches_of_not ha]
        constructor
        · rintro ⟨rfl, -⟩
          exact ⟨0, Nat.one_pos, rfl⟩
        · rintro ⟨i, hi, rfl⟩
          rw [Nat.lt_one_iff.mp hi]
          exact ⟨rfl, hroom⟩
      · refine ⟨0, by rw [if_neg hroom]; rfl, fun p => ?_⟩
        rw [reaches_of_not ha]
        constructor
        · rintro ⟨rfl, hp16⟩
          exact absurd hp16 hroom
        · rintro ⟨i, hi, -⟩
          exact absurd hi (Nat.not_lt_zero i)

theorem mem_leftpad {n : Nat} {a c : Char} {l : Line} (h : c ∈ l.leftpad n a) : c = a ∨ c ∈ l := by
  rw [List.leftpad, List.mem_append] at h
  exact h.imp_left List.eq_of_mem_replicate

theorem mappedLine_noHeader {size : Line} (h : 'm' ∉ size) :
    readHeader (mappedLine size) = none := by
  refine readHeader_of_char fun hchar => ?_
  unfold mappedLine at hchar
  have hfield : 'm' ∉ size.leftpad 6 ' ' := fun hm =>
    (mem_leftpad hm).elim (fun hblank => absurd hblank (by decide)) h
  generalize size.leftpad 6 ' ' = field at hchar hfield
  rw [List.getElem?_append_right (by decide)] at hchar
  rcases List.mem_append.mp (List.mem_of_getElem? hchar) with hin | hbytes
  · exact hfield hin
  · exact absurd hbytes (by decide)

theorem not_mem_digits (n : Nat) : 'm' ∉ (toString (n : Int)).toList := by
  intro hm
  have hdigits : (toString (n : Int)).toList = Nat.toDigits 10 n := by
    show (Nat.repr n).toList = _
    simp [Nat.repr]
  rw [hdigits] at hm
  have hdigit : 'm'.isDigit = true :=
    Nat.isDigit_of_mem_toDigits (Nat.succ_pos 9) (Nat.le_refl 10) hm
  exact absurd hdigit (by decide)

/-- **The listing.** For every file of fewer than 2^31 bytes, whatever the variable for the last
    word holds: the header lines give back position, header and last word at the positions that
    the loop came to with a header left, each once and in order. -/
theorem listing_headers (junk : Nat → UInt32) (b : List UInt8) (h : b.length < 2 ^ 31) :
    ∃ n, (mapitLines junk b).filterMap readHeader =
        (List.range n).map (fun i => headerEntry junk b b.length ((nextPos b)^[i] 0)) ∧
      ∀ p, Reaches b b.length 0 p ∧ p + 16 ≤ b.length ↔ ∃ i < n, p = (nextPos b)^[i] 0 := by
  have hchain := listing_chain junk (Nat.le_refl b.length) (Nat.zero_le b.length) .start
  rw [Int.natCast_zero, Int.sub_zero] at hchain
  have hlines : (mapitLines junk b).filterMap readHeader =
      (listing junk b 0 b.length .start).filterMap readHeader := by
    rw [mapitLines, stSize_eq h]
    split
    · next hzero =>
      have hempty : listing junk b 0 b.length .start = passLines (junk 0) b 0 b.length := by
        refine listing_stop (o := .exit 19) ?_
        rw [spewStep, if_pos (by omega)]
      rw [hempty, passLines, if_pos (by omega)]
      rfl
    · exact List.filterMap_cons_none (mappedLine_noHeader (not_mem_digits b.length))
  rw [hlines]
  exact hchain

/-- Sixteen zero bytes: the one header is listed, and the last word is its checksum. -/
theorem listing_headers_zeros : (mapitLines (fun _ => 7) (List.replicate 16 0)).filterMap
    readHeader = [(0, ⟨0, 0, 0, 0⟩, 0)] := by
  obtain ⟨n, hlines, hreach⟩ := listing_headers (fun _ => 7) (List.replicate 16 0) (by decide)
  have hfirst : ∃ i < n, 0 = (nextPos (List.replicate 16 0))^[i] 0 :=
    (hreach 0).mp ⟨Relation.ReflTransGen.refl, by decide⟩
  have hone : n = 1 := by
    obtain ⟨i, hi, -⟩ := hfirst
    by_contra hne
    obtain ⟨-, hroom⟩ := (hreach _).mpr ⟨1, by omega, rfl⟩
    exact absurd hroom (by decide)
  rw [hlines, hone]
  rfl

end Wifimon.Firmware
