/-
  `doc/mwifiex/pcie.c`: `mwifiex_extract_wifi_fw`, which looks for the Wi-Fi image in a combined
  one.

  It goes from header to header by their commands, up to the last block of the Bluetooth image;
  what stands behind that block is not looked at.

  `BtImage`: the blocks of a Bluetooth image, by their commands. `extractWifiFw_iff`: which images
  are taken apart, and where.
-/
import Wifimon.Firmware.Spew
import Mathlib.Algebra.Group.Nat.Even

namespace Wifimon.Driver

open ByteLib Firmware

/-! ## The loop -/

def mwifiexFwDnldCmd1 : UInt32 := 1
def mwifiexFwDnldCmd5 : UInt32 := 5
def mwifiexFwDnldCmd6 : UInt32 := 6
def mwifiexFwDnldCmd7 : UInt32 := 7

/-- The `int` with the bits of a `u32`. -/
def asInt (n : Nat) : Int := if n < 2 ^ 31 then n else n - 2 ^ 32

/-- `offset + data_len < data_len`: the 32-bit sum wraps. -/
def Wraps (offset : Nat) (dataLen : UInt32) : Prop := UInt32.ofNat offset + dataLen < dataLen

instance (offset : Nat) (dataLen : UInt32) : Decidable (Wraps offset dataLen) :=
  inferInstanceAs (Decidable (_ < _))

/-- `while (1)`, from the header at `pos` on. Where `offset` goes on behind data, the sum did not
    wrap. -/
def extractLoop (b : List UInt8) (pos : Nat) (firstCmd cmd7Before : Bool) : Int :=
  if b.length ≤ pos + 16 then -1
  else
    let dataLen := (fwheader b pos).datalength
    let offset := pos + 16
    if (fwheader b pos).dnldcmd = mwifiexFwDnldCmd1 then
      if Wraps offset dataLen then -1
      else if firstCmd = false then 0
      else if cmd7Before = false then -1
      else extractLoop b (offset + dataLen.toNat) firstCmd cmd7Before
    else if (fwheader b pos).dnldcmd = mwifiexFwDnldCmd5 then
      if Wraps offset dataLen then -1
      else extractLoop b (offset + dataLen.toNat) true cmd7Before
    else if (fwheader b pos).dnldcmd = mwifiexFwDnldCmd6 then
      if Wraps offset dataLen then -1
      else if b.length ≤ offset + dataLen.toNat then -1
      else asInt (offset + dataLen.toNat)
    else if (fwheader b pos).dnldcmd = mwifiexFwDnldCmd7 then extractLoop b offset true true
    else -1
termination_by b.length - pos

/-- `mwifiex_extract_wifi_fw`. -/
def mwifiexExtractWifiFw (b : List UInt8) : Int := extractLoop b 0 false false

theorem wraps_iff {offset : Nat} (h : offset < 2 ^ 32) (dataLen : UInt32) :
    Wraps offset dataLen ↔ 2 ^ 32 ≤ offset + dataLen.toNat := by
  have hlen := dataLen.toNat_lt
  rw [Wraps, UInt32.lt_iff_toNat_lt, UInt32.toNat_add, UInt32.toNat_ofNat_of_lt' h]
  omega

/-! ## Bluetooth images -/

def command (x : List UInt8) : UInt32 := (fwheader x 0).dnldcmd

/-- A header, and behind it the data that it says; the one with command 7 has none. -/
def IsBlock (x : List UInt8) : Prop :=
  x.length = 16 + if command x = mwifiexFwDnldCmd7 then 0 else (fwheader x 0).datalength.toNat

instance (x : List UInt8) : Decidable (IsBlock x) := inferInstanceAs (Decidable (_ = _))

/-- The blocks of a Bluetooth image: the last one has command 6, and none before one with command
    7 has command 1. -/
structure BtImage (xs : List (List UInt8)) : Prop where
  blocks : ∀ x ∈ xs, IsBlock x
  commands : ∃ cs, xs.map command = cs ++ [mwifiexFwDnldCmd6] ∧
    (∀ c ∈ cs, c ∈ [mwifiexFwDnldCmd1, mwifiexFwDnldCmd5, mwifiexFwDnldCmd7]) ∧
    ∀ pre post, cs = pre ++ mwifiexFwDnldCmd1 :: post → mwifiexFwDnldCmd7 ∈ pre

/-- The image begins with a header with command 1, and something stands behind it. -/
def WifiOnly (b : List UInt8) : Prop :=
  16 < b.length ∧ command b = mwifiexFwDnldCmd1 ∧ 16 + (fwheader b 0).datalength.toNat < 2 ^ 32

/-! ## Blocks in an image -/

/-- The header of a block, wherever the block stands. -/
theorem fwheader_block {b x post : List UInt8} {pos : Nat} (hx : 16 ≤ x.length)
    (h : b.drop pos = x ++ post) : fwheader b pos = fwheader x 0 := by
  have hlen := congrArg List.length h
  rw [List.length_drop, List.length_append] at hlen
  have hload : load (ofList b) pos 16 = load (ofList x) 0 16 := by
    rw [load_ofList (by omega), load_ofList (by omega), h, List.take_append_of_le_length hx]
    rfl
  have hword : ∀ k, k + 4 ≤ 16 → rd32 (ofList b) (pos + k) = rd32 (ofList x) (0 + k) := by
    intro k hk
    rw [rd32, rd32, rd, rd, ← load_drop_take hk, ← load_drop_take hk, hload]
  have h0 := hword 0 (by decide)
  have h4 := hword 4 (by decide)
  have h8 := hword 8 (by decide)
  have h12 := hword 12 (by decide)
  rw [fwheader, fwheader, ← h4, ← h8, ← h12]
  exact congrArg (fun w => FwHeader.mk w _ _ _) h0

/-- How long a block with this header is. -/
def blockLen (h : FwHeader) : Nat :=
  16 + if h.dnldcmd = mwifiexFwDnldCmd7 then 0 else h.datalength.toNat

/-- The block at a position. -/
theorem exists_block {b : List UInt8} {pos : Nat}
    (h : pos + blockLen (fwheader b pos) ≤ b.length) :
    ∃ x, b.drop pos = x ++ b.drop (pos + blockLen (fwheader b pos)) ∧ IsBlock x ∧
      command x = (fwheader b pos).dnldcmd ∧ x.length = blockLen (fwheader b pos) := by
  have hsplit : b.drop pos = (b.drop pos).take (blockLen (fwheader b pos)) ++
      b.drop (pos + blockLen (fwheader b pos)) := by
    rw [← List.drop_drop, List.take_append_drop]
  have hlen : ((b.drop pos).take (blockLen (fwheader b pos))).length =
      blockLen (fwheader b pos) := by
    rw [List.length_take, List.length_drop]
    omega
  have hsixteen : 16 ≤ blockLen (fwheader b pos) := Nat.le_add_right ..
  have hheader := fwheader_block (hlen.symm ▸ hsixteen) hsplit
  refine ⟨_, hsplit, ?_, ?_, hlen⟩
  · rw [IsBlock, command, ← hheader]
    exact hlen
  · rw [command, ← hheader]

/-! ## The run over a Bluetooth image -/

/-- The blocks of a Bluetooth image from one of them on, and whether one with command 7 came
    before. -/
inductive BtBlocks : Bool → List (List UInt8) → Prop where
  | last {seven : Bool} {x : List UInt8} : IsBlock x → command x = mwifiexFwDnldCmd6 →
      BtBlocks seven [x]
  | data {seven : Bool} {x : List UInt8} {xs : List (List UInt8)} : IsBlock x →
      command x = mwifiexFwDnldCmd5 → BtBlocks seven xs → BtBlocks seven (x :: xs)
  | seven {seven : Bool} {x : List UInt8} {xs : List (List UInt8)} : IsBlock x →
      command x = mwifiexFwDnldCmd7 → BtBlocks true xs → BtBlocks seven (x :: xs)
  | wifi {x : List UInt8} {xs : List (List UInt8)} : IsBlock x →
      command x = mwifiexFwDnldCmd1 → BtBlocks true xs → BtBlocks true (x :: xs)

/-- A block that has something behind it. -/
theorem block_inside {b x post : List UInt8} {pos : Nat} (hb : b.length < 2 ^ 32)
    (hx : IsBlock x) (h : b.drop pos = x ++ post) (hpost : post ≠ []) :
    pos + 16 < b.length ∧ (fwheader b pos).dnldcmd = command x ∧
      b.drop (pos + x.length) = post ∧ pos + x.length < b.length ∧
      (command x = mwifiexFwDnldCmd7 → pos + 16 = pos + x.length) ∧
      (command x ≠ mwifiexFwDnldCmd7 → ¬ Wraps (pos + 16) (fwheader b pos).datalength ∧
        pos + 16 + (fwheader b pos).datalength.toNat = pos + x.length) := by
  have hsixteen : 16 ≤ x.length := by
    rw [hx]
    exact Nat.le_add_right ..
  have hlen := congrArg List.length h
  rw [List.length_drop, List.length_append] at hlen
  have hpos := List.length_pos_iff.mpr hpost
  have hheader := fwheader_block hsixteen h
  refine ⟨by omega, by rw [hheader]; rfl, ?_, by omega, fun hseven => ?_, fun hseven => ?_⟩
  · rw [← List.drop_drop, h, List.drop_left]
  · rw [hx, if_pos hseven]
  · have hx' := hx
    rw [IsBlock, if_neg hseven] at hx'
    rw [hheader, wraps_iff (by omega)]
    omega

/-- A list of blocks of a Bluetooth image, with something behind it, stands in the image. -/
theorem extractLoop_blocks {b : List UInt8} (hb : b.length < 2 ^ 32) {seven : Bool}
    {xs : List (List UInt8)} (hxs : BtBlocks seven xs) {rest : List UInt8} (hrest : rest ≠ [])
    {pos : Nat} (hpos : b.drop pos = xs.flatten ++ rest) {first : Bool}
    (hfirst : seven = true → first = true) :
    extractLoop b pos first seven = asInt (pos + xs.flatten.length) := by
  induction hxs generalizing pos first with
  | @last seven x hx hcommand =>
    rw [List.flatten_cons, List.flatten_nil, List.append_nil] at hpos ⊢
    obtain ⟨hin, hcmd, -, hend, -, hdata⟩ := block_inside hb hx hpos hrest
    rw [hcommand] at hcmd hdata
    obtain ⟨hwraps, hnext⟩ := hdata (by decide)
    rw [extractLoop, if_neg (Nat.not_le.mpr hin)]
    dsimp only
    rw [hcmd, if_neg (by decide), if_neg (by decide), if_pos rfl, if_neg hwraps, hnext,
      if_neg (Nat.not_le.mpr hend)]
  | @data seven x xs hx hcommand _ ih =>
    rw [List.flatten_cons, List.append_assoc] at hpos
    obtain ⟨hin, hcmd, hbehind, -, -, hdata⟩ := block_inside hb hx hpos (by simp [hrest])
    rw [hcommand] at hcmd hdata
    obtain ⟨hwraps, hnext⟩ := hdata (by decide)
    rw [extractLoop, if_neg (Nat.not_le.mpr hin)]
    dsimp only
    rw [hcmd, if_neg (by decide), if_pos rfl, if_neg hwraps, hnext, ih hbehind fun _ => rfl,
      List.flatten_cons, List.length_append, Nat.add_assoc]
  | @seven seven x xs hx hcommand _ ih =>
    rw [List.flatten_cons, List.append_assoc] at hpos
    obtain ⟨hin, hcmd, hbehind, -, hnone, -⟩ := block_inside hb hx hpos (by simp [hrest])
    rw [hcommand] at hcmd
    rw [extractLoop, if_neg (Nat.not_le.mpr hin)]
    dsimp only
    rw [hcmd, if_neg (by decide), if_neg (by decide), if_neg (by decide), if_pos rfl,
      hnone hcommand, ih hbehind fun _ => rfl, List.flatten_cons, List.length_append,
      Nat.add_assoc]
  | @wifi x xs hx hcommand _ ih =>
    rw [List.flatten_cons, List.append_assoc] at hpos
    obtain ⟨hin, hcmd, hbehind, -, -, hdata⟩ := block_inside hb hx hpos (by simp [hrest])
    rw [hcommand] at hcmd hdata
    obtain ⟨hwraps, hnext⟩ := hdata (by decide)
    rw [extractLoop, if_neg (Nat.not_le.mpr hin)]
    dsimp only
    rw [hcmd, if_pos rfl, if_neg hwraps, hfirst rfl, if_neg (by decide), if_neg (by decide),
      hnext, ih hbehind fun _ => rfl, List.flatten_cons, List.length_append, Nat.add_assoc]

/-! ## What the loop finds -/

/-- A result of the loop from `pos` on that is the end of a Bluetooth image. -/
def Found (b : List UInt8) (pos : Nat) (seven : Bool) (ret : Int) : Prop :=
  ∃ xs rest, BtBlocks seven xs ∧ rest ≠ [] ∧ b.drop pos = xs.flatten ++ rest ∧
    ret = asInt (pos + xs.flatten.length)

theorem Found.inside {b : List UInt8} {pos : Nat} {seven : Bool} {ret : Int}
    (h : Found b pos seven ret) : pos < b.length := by
  obtain ⟨xs, rest, -, hrest, hpos, -⟩ := h
  have hlen := congrArg List.length hpos
  rw [List.length_drop, List.length_append] at hlen
  have hrest := List.length_pos_iff.mpr hrest
  omega

/-- A block in front of what was found. -/
theorem Found.cons {b : List UInt8} {pos next : Nat} {seven seven' : Bool} {ret : Int}
    (h : Found b next seven' ret) (hnext : pos + blockLen (fwheader b pos) = next)
    (hcons : ∀ x xs, IsBlock x → command x = (fwheader b pos).dnldcmd → BtBlocks seven' xs →
      BtBlocks seven (x :: xs)) : Found b pos seven ret := by
  have hin := h.inside
  subst hnext
  obtain ⟨x, hsplit, hx, hcommand, hlen⟩ := exists_block (Nat.le_of_lt hin)
  obtain ⟨xs, rest, hxs, hrest, hpos, hret⟩ := h
  refine ⟨x :: xs, rest, hcons x xs hx hcommand hxs, hrest, ?_, ?_⟩
  · rw [hsplit, hpos, List.flatten_cons, List.append_assoc]
  · rw [hret, List.flatten_cons, List.length_append, hlen, Nat.add_assoc]

/-- The header at `pos` has command 1, and the sum behind it does not wrap. -/
def WifiAt (b : List UInt8) (pos : Nat) : Prop :=
  pos + 16 < b.length ∧ (fwheader b pos).dnldcmd = mwifiexFwDnldCmd1 ∧
    ¬ Wraps (pos + 16) (fwheader b pos).datalength

theorem extractLoop_case (b : List UInt8) (pos : Nat) (first seven : Bool) :
    extractLoop b pos first seven = -1 ∨
      (first = false ∧ WifiAt b pos ∧ extractLoop b pos first seven = 0) ∨
      Found b pos seven (extractLoop b pos first seven) := by
  fun_induction extractLoop b pos first seven with
  | case3 pos seven hin dataLen offset hcommand hwraps =>
    exact .inr (.inl ⟨rfl, ⟨Nat.not_le.mp hin, hcommand, hwraps⟩, rfl⟩)
  | case5 pos first seven hin dataLen offset hcommand hwraps hfirst hseven ih =>
    have hnext : pos + blockLen (fwheader b pos) = offset + dataLen.toNat := by
      rw [blockLen, hcommand, if_neg (by decide), ← Nat.add_assoc]
    rcases ih with hfail | ⟨hno, -⟩ | hfound
    · exact .inl hfail
    · exact absurd hno hfirst
    · rw [eq_true_of_ne_false hseven] at hfound ⊢
      exact .inr (.inr (hfound.cons hnext fun x xs hx hcmd hxs =>
        .wifi hx (hcmd.trans hcommand) hxs))
  | case7 pos first seven hin dataLen offset _ hcommand hwraps ih =>
    have hnext : pos + blockLen (fwheader b pos) = offset + dataLen.toNat := by
      rw [blockLen, hcommand, if_neg (by decide), ← Nat.add_assoc]
    rcases ih with hfail | ⟨hno, -⟩ | hfound
    · exact .inl hfail
    · cases hno
    · exact .inr (.inr (hfound.cons hnext fun x xs hx hcmd hxs =>
        .data hx (hcmd.trans hcommand) hxs))
  | case10 pos first seven hin dataLen offset _ _ hcommand hwraps hend =>
    have hnext : pos + blockLen (fwheader b pos) = offset + dataLen.toNat := by
      rw [blockLen, hcommand, if_neg (by decide), ← Nat.add_assoc]
    have hin : pos + blockLen (fwheader b pos) ≤ b.length := by omega
    obtain ⟨x, hsplit, hx, hcmd, hlen⟩ := exists_block hin
    rw [hnext] at hsplit
    refine .inr (.inr ⟨[x], b.drop (offset + dataLen.toNat), .last hx (hcmd.trans hcommand),
      ?_, ?_, ?_⟩)
    · exact fun h => hend (List.drop_eq_nil_iff.mp h)
    · rw [hsplit, List.flatten_cons, List.flatten_nil, List.append_nil]
    · rw [List.flatten_cons, List.flatten_nil, List.append_nil, hlen, hnext]
  | case11 pos first seven hin offset _ _ _ hcommand ih =>
    have hnext : pos + blockLen (fwheader b pos) = offset := by
      rw [blockLen, if_pos hcommand]
    rcases ih with hfail | ⟨hno, -⟩ | hfound
    · exact .inl hfail
    · cases hno
    · exact .inr (.inr (hfound.cons hnext fun x xs hx hcmd hxs =>
        .seven hx (hcmd.trans hcommand) hxs))
  -- everything else is refused
  | _ => exact .inl rfl

/-! ## The commands of a Bluetooth image -/

/-- The commands of blocks from one of them on, where one with command 7 came before or not. -/
def CommandsOk (seven : Bool) (cs : List UInt32) : Prop :=
  (∀ c ∈ cs, c ∈ [mwifiexFwDnldCmd1, mwifiexFwDnldCmd5, mwifiexFwDnldCmd7]) ∧
    ∀ pre post, cs = pre ++ mwifiexFwDnldCmd1 :: post → seven = true ∨ mwifiexFwDnldCmd7 ∈ pre

theorem commandsOk_cons {seven : Bool} {c : UInt32} {cs : List UInt32} :
    CommandsOk seven (c :: cs) ↔
      (c = mwifiexFwDnldCmd1 ∧ seven = true ∨ c = mwifiexFwDnldCmd5 ∨ c = mwifiexFwDnldCmd7) ∧
        CommandsOk (seven || decide (c = mwifiexFwDnldCmd7)) cs := by
  constructor
  · rintro ⟨hall, hbefore⟩
    refine ⟨?_, fun d hd => hall d (List.mem_cons_of_mem _ hd), fun pre post hcs => ?_⟩
    · have hc := hall c (List.mem_cons_self ..)
      simp only [List.mem_cons, List.not_mem_nil, or_false] at hc
      refine hc.imp_left fun hone => ⟨hone, ?_⟩
      exact (hbefore [] cs (by rw [hone]; rfl)).resolve_right nofun
    · rcases hbefore (c :: pre) post (by rw [hcs]; rfl) with hseven | hmem
      · exact .inl (by rw [hseven, Bool.true_or])
      · rcases List.mem_cons.mp hmem with hc | hmem
        · exact .inl (by rw [decide_eq_true hc.symm, Bool.or_true])
        · exact .inr hmem
  · rintro ⟨hc, hall, hbefore⟩
    refine ⟨fun d hd => ?_, fun pre post hcs => ?_⟩
    · rcases List.mem_cons.mp hd with rfl | hd
      · simp only [List.mem_cons, List.not_mem_nil, or_false]
        exact hc.imp_left And.left
      · exact hall d hd
    · cases pre with
      | nil =>
        obtain ⟨rfl, -⟩ := List.cons.inj hcs
        rcases hc with ⟨-, hseven⟩ | hfive | hseven
        · exact .inl hseven
        · exact absurd hfive (by decide)
        · exact absurd hseven (by decide)
      | cons d pre =>
        obtain ⟨rfl, htail⟩ := List.cons.inj hcs
        rcases hbefore pre post htail with hseven | hmem
        · rcases (Bool.or_eq_true ..).mp hseven with hseven | hc
          · exact .inl hseven
          · exact .inr (List.mem_cons.mpr (.inl (of_decide_eq_true hc).symm))
        · exact .inr (List.mem_cons_of_mem _ hmem)

theorem commandsOk_nil (seven : Bool) : CommandsOk seven [] :=
  ⟨nofun, fun pre post h => by simp at h⟩

theorem btBlocks_iff {seven : Bool} {xs : List (List UInt8)} :
    BtBlocks seven xs ↔ (∀ x ∈ xs, IsBlock x) ∧
      ∃ cs, xs.map command = cs ++ [mwifiexFwDnldCmd6] ∧ CommandsOk seven cs := by
  have hstep : ∀ {seven seven' : Bool} {x : List UInt8} {xs : List (List UInt8)}, IsBlock x →
      (command x = mwifiexFwDnldCmd1 ∧ seven = true ∨ command x = mwifiexFwDnldCmd5 ∨
        command x = mwifiexFwDnldCmd7) →
      (seven || decide (command x = mwifiexFwDnldCmd7)) = seven' →
      ((∀ x ∈ xs, IsBlock x) ∧
        ∃ cs, xs.map command = cs ++ [mwifiexFwDnldCmd6] ∧ CommandsOk seven' cs) →
      (∀ y ∈ x :: xs, IsBlock y) ∧
        ∃ cs, (x :: xs).map command = cs ++ [mwifiexFwDnldCmd6] ∧ CommandsOk seven cs := by
    rintro seven seven' x xs hx hc rfl ⟨hblocks, cs, hcs, hok⟩
    refine ⟨List.forall_mem_cons.mpr ⟨hx, hblocks⟩, command x :: cs, ?_, ?_⟩
    · rw [List.map_cons, hcs]
      rfl
    · exact commandsOk_cons.mpr ⟨hc, hok⟩
  constructor
  · intro h
    induction h with
    | @last seven x hx hcommand =>
      exact ⟨List.forall_mem_singleton.mpr hx, [], congrArg (· :: []) hcommand,
        commandsOk_nil seven⟩
    | data hx hcommand _ ih => exact hstep hx (.inr (.inl hcommand)) (by
        rw [hcommand, decide_eq_false (by decide), Bool.or_false]) ih
    | seven hx hcommand _ ih => exact hstep hx (.inr (.inr hcommand)) (by simp [hcommand]) ih
    | wifi hx hcommand _ ih => exact hstep hx (.inl ⟨hcommand, rfl⟩) (by simp) ih
  · rintro ⟨hblocks, cs, hcs, hok⟩
    induction xs generalizing seven cs with
    | nil => simp at hcs
    | cons x xs ih =>
      obtain ⟨hx, hblocks⟩ := List.forall_mem_cons.mp hblocks
      cases cs with
      | nil =>
        obtain ⟨hcommand, hnil⟩ := List.cons.inj hcs
        rw [List.map_eq_nil_iff.mp hnil]
        exact .last hx hcommand
      | cons c cs =>
        obtain ⟨rfl, htail⟩ := List.cons.inj hcs
        obtain ⟨hc, hok⟩ := commandsOk_cons.mp hok
        have hrest := ih hblocks cs htail hok
        rcases hc with ⟨hone, rfl⟩ | hfive | hseven
        · exact .wifi hx hone hrest
        · rw [hfive, decide_eq_false (by decide), Bool.or_false] at hrest
          exact .data hx hfive hrest
        · rw [decide_eq_true hseven, Bool.or_true] at hrest
          exact .seven hx hseven hrest

theorem btImage_iff {xs : List (List UInt8)} : BtImage xs ↔ BtBlocks false xs := by
  rw [btBlocks_iff]
  simp only [CommandsOk, Bool.false_eq_true, false_or]
  exact ⟨fun h => ⟨h.blocks, h.commands⟩, fun h => ⟨h.1, h.2⟩⟩

theorem BtBlocks.length_pos {seven : Bool} {xs : List (List UInt8)} (h : BtBlocks seven xs) :
    0 < xs.flatten.length := by
  have hblock : ∀ {x : List UInt8}, IsBlock x → 0 < x.length := fun {x} hx => by
    rw [hx]
    omega
  cases h <;>
  · rw [List.flatten_cons, List.length_append]
    exact Nat.add_pos_left (hblock ‹_›) _

/-! ## The result -/

theorem wifiOnly_iff {b : List UInt8} : WifiOnly b ↔ WifiAt b 0 := by
  rw [WifiOnly, WifiAt, wraps_iff (by decide), Nat.not_le]
  exact Iff.rfl

/-- What was found is the end of a Bluetooth image in front of something. -/
theorem found_btImage {b : List UInt8} (h : b.length < 2 ^ 32) {ret : Int}
    (hfound : Found b 0 false ret) : ∃ xs rest, BtImage xs ∧ b = xs.flatten ++ rest ∧ rest ≠ [] ∧
      0 < xs.flatten.length ∧ xs.flatten.length < 2 ^ 32 ∧ ret = asInt xs.flatten.length := by
  obtain ⟨xs, rest, hxs, hrest, hb, hret⟩ := hfound
  rw [Nat.zero_add] at hret
  have hlen := congrArg List.length hb
  rw [List.drop_zero, List.length_append] at hlen
  exact ⟨xs, rest, btImage_iff.mpr hxs, hb, hrest, hxs.length_pos, by omega, hret⟩

theorem extract_zero_iff {b : List UInt8} (h : b.length < 2 ^ 32) :
    mwifiexExtractWifiFw b = 0 ↔ WifiOnly b := by
  rw [wifiOnly_iff]
  constructor
  · intro hzero
    rcases extractLoop_case b 0 false false with hfail | ⟨-, hwifi, -⟩ | hfound
    · exact absurd (hzero.symm.trans hfail) (by decide)
    · exact hwifi
    · obtain ⟨xs, rest, -, -, -, hpos, hlt, hret⟩ := found_btImage h hfound
      rw [← mwifiexExtractWifiFw, hzero, asInt] at hret
      split at hret <;> omega
  · rintro ⟨hin, hcommand, hwraps⟩
    rw [mwifiexExtractWifiFw, extractLoop, if_neg (Nat.not_le.mpr hin)]
    dsimp only
    rw [if_pos hcommand, if_neg hwraps, if_pos rfl]

theorem extract_behind_iff {b : List UInt8} (h : b.length < 2 ^ 32) {p : Nat} (hp : 0 < p) :
    mwifiexExtractWifiFw b = p ↔ p < 2 ^ 31 ∧
      ∃ xs rest, BtImage xs ∧ b = xs.flatten ++ rest ∧ rest ≠ [] ∧ xs.flatten.length = p := by
  constructor
  · intro hret
    have hcase := extractLoop_case b 0 false false
    rw [← mwifiexExtractWifiFw] at hcase
    rcases hcase with hfail | ⟨-, -, hzero⟩ | hfound
    · omega
    · omega
    · obtain ⟨xs, rest, hxs, hb, hrest, hpos, hlt, hasInt⟩ := found_btImage h hfound
      rw [hret, asInt] at hasInt
      split at hasInt
      · exact ⟨by omega, xs, rest, hxs, hb, hrest, by omega⟩
      · omega
  · rintro ⟨hlt, xs, rest, hxs, hb, hrest, rfl⟩
    have hdrop : b.drop 0 = xs.flatten ++ rest := hb
    have hrun : extractLoop b 0 false false = asInt (0 + xs.flatten.length) :=
      extractLoop_blocks h (btImage_iff.mp hxs) hrest hdrop nofun
    rw [mwifiexExtractWifiFw, hrun, Nat.zero_add, asInt, if_pos hlt]

/-- **The extraction.** It returns 0 if and only if the image begins with a header with command 1
    whose data do not wrap and something stands behind this header (an image of 16 bytes is
    refused), and a position behind 0 if and only if the blocks of a Bluetooth image are in front
    of it and something is behind. -/
theorem extractWifiFw_iff (b : List UInt8) (h : b.length < 2 ^ 32) :
    (mwifiexExtractWifiFw b = 0 ↔ WifiOnly b) ∧
      ∀ p : Nat, 0 < p → (mwifiexExtractWifiFw b = p ↔ p < 2 ^ 31 ∧
        ∃ xs rest, BtImage xs ∧ b = xs.flatten ++ rest ∧ rest ≠ [] ∧ xs.flatten.length = p) :=
  ⟨extract_zero_iff h, fun _ hp => extract_behind_iff h hp⟩

/-- A Bluetooth image of two blocks: a header with command 7, and a last block of one byte. -/
def twoBlocks : List (List UInt8) := [wordBytes [7, 0, 9, 0], wordBytes [6, 0, 1, 0] ++ [0xaa]]

theorem twoBlocks_btImage : BtImage twoBlocks where
  blocks := by decide
  commands := by
    refine ⟨[mwifiexFwDnldCmd7], by decide, by simp, fun pre post h => ?_⟩
    cases pre with
    | nil => exact absurd (List.cons.inj h).1 (by decide)
    | cons c pre => simp at h

/-- The Wi-Fi image behind the two blocks. -/
theorem extractWifiFw_iff_twoBlocks : mwifiexExtractWifiFw (twoBlocks.flatten ++ [0xbb]) = 33 :=
  ((extractWifiFw_iff (twoBlocks.flatten ++ [0xbb]) (by decide)).2 33 (by decide)).mpr
    ⟨by decide, twoBlocks, [0xbb], twoBlocks_btImage, rfl, List.cons_ne_nil _ _, by decide⟩

end Wifimon.Driver
