/-
  `doc/mwifiex/usb.c`: `mwifiex_prog_fw_w_helper`, which gives the card a firmware image over USB.

  A transmission is a packet with what it meets (`Exchange`); the answers of the card come from a
  stream. The first packets ask the card if it wants the image from this bus ("the winner"); then
  come the blocks, each again after a failure or a bad CRC. A read outside the image and a block
  that overflows the buffer end the run (`ProgEnd.fault`).

  A block is taken when the driver reads the answer that says so; where this answer is lost the
  card has the block, and gets it again. A packet is what `mwifiex_write_data_sync` is called with,
  which sends one byte more of the buffer if the length is a multiple of the packet size of the
  endpoint (none of those divides the 620 bytes of the buffer). `tlen` is the number of bytes that
  were read, and does not wrap for images below 2^32 bytes.

  * `progFw_inBounds_iff`: the driver, which knows the length of the image but does not look at it,
    stays in the image and in its buffer, whatever the card does, if and only if the image is a
    chain of blocks of at most 600 bytes with a last block.
  * `progFw_returns`: what is transmitted, and exactly when the result is 0.
-/
import Wifimon.Driver.FwImage
import Wifimon.Lib.Resend

namespace Wifimon.Driver

open ByteLib Firmware ResendLib

/-! ## The inner loop -/

/-- What a transmission meets: the results of `mwifiex_write_data_sync` and of
    `mwifiex_read_data_sync`, and the first word of the answer. -/
structure Exchange where
  write : Int
  read : Int
  cmd : UInt32

def Exchange.Answered (x : Exchange) : Prop := x.write = 0 ∧ x.read = 0

instance (x : Exchange) : Decidable x.Answered := inferInstanceAs (Decidable (_ ∧ _))

/-- The answer came, and says that the card took the block. -/
def Exchange.ok (x : Exchange) : Bool := decide (x.Answered ∧ x.cmd = 0)

/-- The answer that the card does not want the image from this bus. -/
def Exchange.Refuses (x : Exchange) : Prop := x.cmd &&& 0x80000000 ≠ 0

instance (x : Exchange) : Decidable x.Refuses := inferInstanceAs (Decidable (_ ≠ _))

def usb8xxxFwMaxRetry : Nat := 3

/-- How `while (--retries)` ends: `retries` is 0, `goto cleanup`, or `break`. -/
inductive SendEnd where
  | spent (ret : Int)
  | notWinner
  | took (retries : Nat)

/-- `while (--retries)`, on the value after the decrement; `k` transmissions were made before. -/
def sendBlock (ans : Nat → Exchange) (checkWinner : Bool) :
    Nat → Nat → Int → List Exchange × SendEnd
  | 0, _, ret => ([], .spent ret)
  | retries + 1, k, _ =>
    let x := ans k
    let again (ret : Int) : List Exchange × SendEnd :=
      let rest := sendBlock ans checkWinner retries (k + 1) ret
      (x :: rest.1, rest.2)
    if x.write ≠ 0 then again x.write
    else if x.read ≠ 0 then again x.read
    else if checkWinner then
      if x.Refuses then ([x], .notWinner) else ([x], .took (retries + 1))
    else if x.cmd ≠ 0 then again (-1)
    else ([x], .took (usb8xxxFwMaxRetry + 1))

/-- The exchange that the inner loop is left after. -/
def Exchange.leaves (checkWinner : Bool) (x : Exchange) : Bool :=
  if checkWinner then decide x.Answered else x.ok

/-- How it is left, while `retries` has this value. -/
def Exchange.leave (checkWinner : Bool) (x : Exchange) (retries : Nat) : SendEnd :=
  if checkWinner then if x.Refuses then .notWinner else .took retries
  else .took (usb8xxxFwMaxRetry + 1)

/-- The inner loop goes on until an exchange that it is left after, or `n` times. -/
inductive SendCase (checkWinner : Bool) (n : Nat) (ret : Int) : List Exchange × SendEnd → Prop where
  | left {ys : List Exchange} {x : Exchange} : (∀ y ∈ ys, y.leaves checkWinner = false) →
      x.leaves checkWinner = true → ys.length < n →
      SendCase checkWinner n ret (ys ++ [x], x.leave checkWinner (n - ys.length))
  | spent {ys : List Exchange} {code : Int} : (∀ y ∈ ys, y.leaves checkWinner = false) →
      ys.length = n → (code = 0 ↔ n = 0 ∧ ret = 0) → SendCase checkWinner n ret (ys, .spent code)

theorem sendBlock_again {checkWinner : Bool} {n : Nat} {ret ret' : Int} {x : Exchange}
    {r : List Exchange × SendEnd} (hx : x.leaves checkWinner = false) (hret : ret' ≠ 0)
    (h : SendCase checkWinner n ret' r) :
    SendCase checkWinner (n + 1) ret (x :: r.1, r.2) := by
  have hcons : ∀ {ys : List Exchange}, (∀ y ∈ ys, y.leaves checkWinner = false) →
      ∀ y ∈ x :: ys, y.leaves checkWinner = false := by
    intro ys hys y hy
    rcases List.mem_cons.mp hy with rfl | hy
    · exact hx
    · exact hys y hy
  cases h with
  | @left ys z hys hz hlen =>
    have hleft : SendCase checkWinner (n + 1) ret _ :=
      .left (hcons hys) hz (Nat.succ_lt_succ hlen)
    rwa [List.length_cons, Nat.succ_sub_succ] at hleft
  | spent hys hlen hcode =>
    refine .spent (hcons hys) (by rw [List.length_cons, hlen]) ?_
    rw [hcode]
    omega

theorem sendBlock_case (ans : Nat → Exchange) (checkWinner : Bool) (n k : Nat) (ret : Int) :
    SendCase checkWinner n ret (sendBlock ans checkWinner n k ret) := by
  induction n generalizing k ret with
  | zero => exact .spent nofun rfl (by simp)
  | succ n ih =>
    have hsingle : (ans k).leaves checkWinner = true → SendCase checkWinner (n + 1) ret
        ([] ++ [ans k], (ans k).leave checkWinner (n + 1)) := fun hx =>
      .left nofun hx (Nat.succ_pos n)
    rw [sendBlock]
    dsimp only
    split
    · next hwrite =>
      exact sendBlock_again (by simp [Exchange.leaves, Exchange.ok, Exchange.Answered, hwrite])
        hwrite (ih ..)
    · next hwrite =>
      split
      · next hread =>
        exact sendBlock_again (by simp [Exchange.leaves, Exchange.ok, Exchange.Answered, hread])
          hread (ih ..)
      · next hread =>
        have hanswered : (ans k).Answered := ⟨not_not.mp hwrite, not_not.mp hread⟩
        cases checkWinner with
        | true =>
          have hend := hsingle (decide_eq_true hanswered)
          rw [Exchange.leave, if_pos rfl] at hend
          rw [if_pos rfl]
          split
          · next hrefuses => rwa [if_pos hrefuses] at hend
          · next hrefuses => rwa [if_neg hrefuses] at hend
        | false =>
          split
          · next hcmd => cases hcmd
          · split
            · next hcmd =>
              exact sendBlock_again (decide_eq_false fun h => hcmd h.2) (by decide) (ih ..)
            · next hcmd => exact hsingle (decide_eq_true ⟨hanswered, not_not.mp hcmd⟩)

/-! ## The outer loop -/

def fwCmd7 : UInt32 := 0x00000007
def fwDnldTxBufSize : Nat := 620

/-- Command 7 has no data; a packet has 20 bytes in front of the data. -/
def usbReader : Reader where
  dlen h := if h.dnldcmd = fwCmd7 then 0 else h.datalength.toNat
  room := fwDnldTxBufSize - 20

/-- The variables of the loop; `count` transmissions were made. `tlen` is a u32 in the source. -/
structure ProgState where
  checkWinner : Bool
  tlen : Nat
  fwSeqnum : UInt32
  retries : Nat
  count : Nat
  ret : Int

/-- What a pass is about: the packet, the command, and `tlen` behind the block. -/
structure FwBlock where
  packet : List UInt8
  dnldCmd : UInt32
  tlen : Nat

/-- The first part of a pass: the question of the first pass, or the block at `tlen`. -/
def nextBlock (b : List UInt8) (s : ProgState) : Option FwBlock :=
  if s.checkWinner then some ⟨List.replicate 20 0, 0, s.tlen⟩
  else if usbReader.Holds b s.tlen then
    some ⟨usbReader.packet b s.tlen s.fwSeqnum, (fwheader b s.tlen).dnldcmd,
      usbReader.next b s.tlen⟩
  else none

inductive ProgEnd where
  | fault
  | returned (ret : Int)

/-- A transmission: the packet and what it met. -/
abbrev Sent := List UInt8 × Exchange

theorem nextBlock_lt {b : List UInt8} {s : ProgState} {blk : FwBlock}
    (h : nextBlock b s = some blk) :
    2 * (b.length - blk.tlen) < 2 * (b.length - s.tlen) + if s.checkWinner then 1 else 0 := by
  rw [nextBlock] at h
  split at h
  · next hwinner =>
    cases h
    rw [if_pos hwinner]
    exact Nat.lt_succ_self _
  · split at h
    · next hholds =>
      cases h
      have hlt := hholds.lt
      dsimp only
      omega
    · cases h

/-- The loop: the transmissions, and the end. -/
def progLoop (ans : Nat → Exchange) (b : List UInt8) (s : ProgState) : List Sent × ProgEnd :=
  match hb : nextBlock b s with
  | none => ([], .fault)
  | some blk =>
    match sendBlock ans s.checkWinner (s.retries - 1) s.count s.ret with
    | (xs, .spent ret) => (xs.map fun x => (blk.packet, x), .returned ret)
    | (xs, .notWinner) => (xs.map fun x => (blk.packet, x), .returned 0)
    | (xs, .took retries) =>
      have _hlt := nextBlock_lt hb
      if blk.dnldCmd = fwHasLastBlock then (xs.map fun x => (blk.packet, x), .returned 0)
      else
        let rest := progLoop ans b
          ⟨false, blk.tlen, s.fwSeqnum + 1, retries, s.count + xs.length, 0⟩
        (xs.map (fun x => (blk.packet, x)) ++ rest.1, rest.2)
termination_by 2 * (b.length - s.tlen) + if s.checkWinner then 1 else 0
decreasing_by exact _hlt

/-- `mwifiex_prog_fw_w_helper`, on an image or none, where the two buffers are had or not. -/
def mwifiexProgFwWHelper (firmware : Option (List UInt8)) (fwdata recvBuff : Bool)
    (ans : Nat → Exchange) : List Sent × ProgEnd :=
  match firmware with
  | none => ([], .returned (-1))
  | some b =>
    if !fwdata then ([], .returned (-12))
    else if !recvBuff then ([], .returned 0) -- `cleanup` finds `retries` as it was
    else progLoop ans b ⟨true, 0, 0, usb8xxxFwMaxRetry + 1, 0, 0⟩

/-! ## The blocks -/

/-- The transmissions, each with what the card made of the block. -/
def verdicts (log : List Sent) : List (List UInt8 × Bool) := log.map fun e => (e.1, e.2.ok)

/-- A packet with what each of its transmissions met. -/
def sends (packet : List UInt8) (xs : List Exchange) : List Sent := xs.map fun x => (packet, x)

/-- The answers that come from number `count` on. -/
def answers (ans : Nat → Exchange) (count n : Nat) : List Exchange :=
  (List.range n).map fun i => ans (count + i)

theorem answers_succ (ans : Nat → Exchange) (count n : Nat) :
    answers ans count (n + 1) = ans count :: answers ans (count + 1) n := by
  rw [answers, List.range_succ_eq_map, List.map_cons, List.map_map, Nat.add_zero]
  refine congrArg (ans count :: ·) (List.map_congr_left fun i _ => ?_)
  rw [Function.comp_apply, Nat.succ_eq_add_one, Nat.add_assoc, Nat.add_comm 1]

theorem answers_add (ans : Nat → Exchange) (count n m : Nat) :
    answers ans count (n + m) = answers ans count n ++ answers ans (count + n) m := by
  induction n generalizing count with
  | zero => rw [Nat.zero_add]; rfl
  | succ n ih =>
    rw [Nat.add_right_comm, answers_succ, ih, answers_succ, List.cons_append, Nat.add_assoc,
      Nat.add_comm 1]

theorem sendBlock_answers (ans : Nat → Exchange) (checkWinner : Bool) (n k : Nat) (ret : Int) :
    (sendBlock ans checkWinner n k ret).1 =
      answers ans k (sendBlock ans checkWinner n k ret).1.length := by
  induction n generalizing k ret with
  | zero => rfl
  | succ n ih =>
    have hagain : ∀ ret', ans k :: (sendBlock ans checkWinner n (k + 1) ret').1 =
        answers ans k (ans k :: (sendBlock ans checkWinner n (k + 1) ret').1).length := by
      intro ret'
      rw [List.length_cons, answers_succ, ← ih]
    have hlast : [ans k] = answers ans k 1 := by simp [answers]
    rw [sendBlock]
    dsimp only
    split
    · exact hagain _
    · split
      · exact hagain _
      · split
        · split <;> exact hlast
        · split
          · exact hagain _
          · exact hlast

@[simp] theorem sends_snd (packet : List UInt8) (xs : List Exchange) :
    (sends packet xs).map Prod.snd = xs := by
  rw [sends, List.map_map]
  exact List.map_id xs

@[simp] theorem sends_length (packet : List UInt8) (xs : List Exchange) :
    (sends packet xs).length = xs.length := List.length_map ..

/-- A block that the card does not take. -/
theorem sends_failed (packet : List UInt8) {ys : List Exchange} (h : ∀ y ∈ ys, y.ok = false) :
    ∀ e ∈ verdicts (sends packet ys), e = (packet, false) := by
  intro e he
  obtain ⟨d, hd, rfl⟩ := List.mem_map.mp he
  obtain ⟨y, hy, rfl⟩ := List.mem_map.mp hd
  rw [h y hy]

/-- A block that the card takes at last, and what is transmitted behind it. -/
theorem sends_took (packet : List UInt8) {packets : List (List UInt8)} {ys : List Exchange}
    {x : Exchange} {log : List Sent} (h : ∀ y ∈ ys, y.ok = false) (hx : x.ok = true)
    (hlog : InTurn packets (verdicts log)) :
    InTurn (packet :: packets) (verdicts (sends packet (ys ++ [x]) ++ log)) ∧
      taken (verdicts (sends packet (ys ++ [x]) ++ log)) = taken (verdicts log) + 1 := by
  have hsplit : verdicts (sends packet (ys ++ [x]) ++ log) =
      verdicts (sends packet ys) ++ (packet, true) :: verdicts log := by
    simp [verdicts, sends, hx]
  rw [hsplit]
  exact hlog.cons (sends_failed packet h)

variable {ans : Nat → Exchange} {b : List UInt8}

theorem progLoop_fault {s : ProgState} (h : nextBlock b s = none) :
    progLoop ans b s = ([], .fault) := by
  rw [progLoop]
  split
  · rfl
  · next hb => rw [h] at hb; cases hb

/-- A pass whose packet is there. -/
theorem progLoop_pass {s : ProgState} {blk : FwBlock} (h : nextBlock b s = some blk) :
    progLoop ans b s =
      match sendBlock ans s.checkWinner (s.retries - 1) s.count s.ret with
      | (xs, .spent ret) => (sends blk.packet xs, .returned ret)
      | (xs, .notWinner) => (sends blk.packet xs, .returned 0)
      | (xs, .took retries) =>
        if blk.dnldCmd = fwHasLastBlock then (sends blk.packet xs, .returned 0)
        else
          let rest := progLoop ans b
            ⟨false, blk.tlen, s.fwSeqnum + 1, retries, s.count + xs.length, 0⟩
          (sends blk.packet xs ++ rest.1, rest.2) := by
  rw [progLoop]
  split
  · next hb => rw [h] at hb; cases hb
  · next hb => rw [h] at hb; cases hb; rfl

theorem nextBlock_holds {s : ProgState} (hs : s.checkWinner = false)
    (h : usbReader.Holds b s.tlen) :
    nextBlock b s = some ⟨usbReader.packet b s.tlen s.fwSeqnum, (fwheader b s.tlen).dnldcmd,
      usbReader.next b s.tlen⟩ := by
  rw [nextBlock, if_neg (by rw [hs]; exact Bool.false_ne_true), if_pos h]

/-- What the transmissions of the packets are and what is returned, from answer `count` on, where
    `retries` is left of the block or of the question before. -/
structure Downloads (ans : Nat → Exchange) (packets : List (List UInt8)) (retries count : Nat)
    (r : List Sent × ProgEnd) : Prop where
  inTurn : InTurn packets (verdicts r.1)
  answered : r.1.map Prod.snd = answers ans count r.1.length
  bounded : r.1.length ≤ 3 * (taken (verdicts r.1) + 1)
  returned : ∃ code, r.2 = .returned code ∧
    (code = 0 ↔ retries = 1 ∨ taken (verdicts r.1) = packets.length)
  early : retries = 1 → r.1 = []

/-- The card never takes the block. -/
theorem downloads_spent {packet : List UInt8} {packets : List (List UInt8)} {ys : List Exchange}
    {retries count : Nat} {code : Int} (h0 : 0 < retries) (h4 : retries ≤ 4)
    (hys : ∀ y ∈ ys, y.ok = false) (hans : ys = answers ans count ys.length)
    (hlen : ys.length = retries - 1) (hcode : code = 0 ↔ retries - 1 = 0 ∧ (0 : Int) = 0) :
    Downloads ans (packet :: packets) retries count (sends packet ys, .returned code) := by
  have hfailed := sends_failed packet hys
  have htaken : taken (verdicts (sends packet ys)) = 0 :=
    taken_failed fun e he => by rw [hfailed e he]
  refine ⟨inTurn_failed packets hfailed, ?_, ?_, ⟨code, rfl, ?_⟩, fun hone => ?_⟩
  · rw [sends_snd, sends_length]
    exact hans
  · rw [sends_length]
    omega
  · rw [hcode, htaken, List.length_cons]
    omega
  · rw [List.eq_nil_of_length_eq_zero (by omega : ys.length = 0)]
    rfl

/-- The card takes the block, and the run goes on. -/
theorem downloads_took (packet : List UInt8) {packets : List (List UInt8)} {ys : List Exchange}
    {x : Exchange} {retries count : Nat} {rest : List Sent × ProgEnd} (h4 : retries ≤ 4)
    (hys : ∀ y ∈ ys, y.ok = false) (hx : x.ok = true) (hlen : ys.length < retries - 1)
    (hans : ys ++ [x] = answers ans count (ys ++ [x]).length)
    (hrest : Downloads ans packets 4 (count + (ys ++ [x]).length) rest) :
    Downloads ans (packet :: packets) retries count
      (sends packet (ys ++ [x]) ++ rest.1, rest.2) := by
  obtain ⟨hturn, htaken⟩ := sends_took packet hys hx hrest.inTurn
  obtain ⟨code, hend, hcode⟩ := hrest.returned
  have hone : (ys ++ [x]).length = ys.length + 1 := by simp
  have hbounded := hrest.bounded
  refine ⟨hturn, ?_, ?_, ⟨code, hend, ?_⟩, fun hone => by omega⟩
  · have hall : (sends packet (ys ++ [x]) ++ rest.1).length =
        (ys ++ [x]).length + rest.1.length := by
      rw [List.length_append, sends_length]
    dsimp only
    rw [hall, answers_add, ← hans, ← hrest.answered, List.map_append, sends_snd]
  · rw [List.length_append, sends_length, hone, htaken]
    omega
  · rw [hcode, htaken, List.length_cons]
    omega

/-- No transmission is left to be made. -/
theorem downloads_nil (count : Nat) : Downloads ans [] 4 count ([], .returned 0) :=
  ⟨inTurn_nil _, rfl, Nat.zero_le _, ⟨0, rfl, by simp [verdicts]⟩, nofun⟩

/-- A run over the blocks of a chain. -/
theorem chain_downloads (ans : Nat → Exchange) {pos : Nat} {ps : List Nat}
    (hc : usbReader.Chain b pos ps) (seqnum : UInt32) {retries : Nat} (h0 : 0 < retries)
    (h4 : retries ≤ 4) (count : Nat) :
    Downloads ans (usbReader.packets b seqnum ps) retries count
      (progLoop ans b ⟨false, pos, seqnum, retries, count, 0⟩) := by
  induction hc generalizing seqnum retries count with
  | @last pos hholds hcommand =>
    rw [progLoop_pass (nextBlock_holds rfl hholds)]
    have hans := sendBlock_answers ans false (retries - 1) count 0
    have hcase := sendBlock_case ans false (retries - 1) count 0
    dsimp only
    generalize sendBlock ans false (retries - 1) count 0 = r at hans hcase ⊢
    cases hcase with
    | left hys hx hlen =>
      have hend := downloads_took (usbReader.packet b pos seqnum) h4 hys hx hlen hans
        (downloads_nil _)
      rw [List.append_nil] at hend
      rw [Exchange.leave, if_neg Bool.false_ne_true]
      dsimp only
      rwa [if_pos hcommand]
    | spent hys hlen hcode => exact downloads_spent h0 h4 hys hans hlen hcode
  | @data pos ps hholds hcommand _ ih =>
    rw [progLoop_pass (nextBlock_holds rfl hholds)]
    have hans := sendBlock_answers ans false (retries - 1) count 0
    have hcase := sendBlock_case ans false (retries - 1) count 0
    dsimp only
    generalize sendBlock ans false (retries - 1) count 0 = r at hans hcase ⊢
    cases hcase with
    | left hys hx hlen =>
      rw [Exchange.leave, if_neg Bool.false_ne_true]
      dsimp only
      rw [if_neg hcommand]
      exact downloads_took _ h4 hys hx hlen hans (ih (seqnum + 1) (by decide) (Nat.le_refl 4) _)
    | spent hys hlen hcode => exact downloads_spent h0 h4 hys hans hlen hcode

/-! ## The whole function -/

/-- The number of the first transmission that got an answer. -/
def FirstAnswer (ans : Nat → Exchange) (i : Nat) : Prop :=
  (∀ j < i, ¬ (ans j).Answered) ∧ (ans i).Answered

/-- One of the first three transmissions is answered, with the answer that the card does not want
    the image from this bus. -/
def NotWinner (ans : Nat → Exchange) : Prop := ∃ i < 3, FirstAnswer ans i ∧ (ans i).Refuses

/-- Only the third of them is answered, and the card wants the image. -/
def LateWinner (ans : Nat → Exchange) : Prop := FirstAnswer ans 2 ∧ ¬ (ans 2).Refuses

theorem FirstAnswer.unique {i j : Nat} (hi : FirstAnswer ans i) (hj : FirstAnswer ans j) :
    i = j := by
  rcases Nat.lt_trichotomy i j with hlt | heq | hlt
  · exact absurd hi.2 (hj.1 i hlt)
  · exact heq
  · exact absurd hj.2 (hi.1 j hlt)

theorem answers_getElem? (ans : Nat → Exchange) (count : Nat) {n i : Nat} (h : i < n) :
    (answers ans count n)[i]? = some (ans (count + i)) := by
  rw [answers, List.getElem?_map, List.getElem?_range h]
  rfl

theorem firstAnswer_of {ys : List Exchange} {x : Exchange}
    (hans : ys ++ [x] = answers ans 0 (ys ++ [x]).length)
    (hys : ∀ y ∈ ys, y.leaves true = false) (hx : x.leaves true = true) :
    FirstAnswer ans ys.length ∧ ans ys.length = x := by
  have hlen : (ys ++ [x]).length = ys.length + 1 := by simp
  rw [hlen] at hans
  have hat : ∀ i < ys.length + 1, (ys ++ [x])[i]? = some (ans i) := by
    intro i hi
    rw [hans, answers_getElem? ans 0 hi, Nat.zero_add]
  have hlast : ans ys.length = x := by
    have hx' := hat ys.length (Nat.lt_succ_self _)
    rw [List.getElem?_concat_length] at hx'
    exact (Option.some.inj hx').symm
  refine ⟨⟨fun j hj => ?_, ?_⟩, hlast⟩
  · have hj' := hat j (Nat.lt_succ_of_lt hj)
    rw [List.getElem?_append_left hj] at hj'
    exact of_decide_eq_false (hys _ (List.mem_of_getElem? hj'))
  · rw [hlast]
    exact of_decide_eq_true hx

theorem not_firstAnswer_of {ys : List Exchange} (hans : ys = answers ans 0 ys.length)
    (hys : ∀ y ∈ ys, y.leaves true = false) {i : Nat} (hi : i < ys.length) :
    ¬ FirstAnswer ans i := by
  intro hfirst
  have hat := answers_getElem? ans 0 hi
  rw [← hans, Nat.zero_add] at hat
  exact of_decide_eq_false (hys _ (List.mem_of_getElem? hat)) hfirst.2

/-- The packet of a question. -/
def askPacket : List UInt8 := List.replicate 20 0

/-- What a run transmits and returns: the questions `asks`, and behind them the packets. -/
structure ProgRun (ans : Nat → Exchange) (packets : List (List UInt8)) (asks log : List Sent)
    (code : Int) : Prop where
  answered : (asks ++ log).map Prod.snd = answers ans 0 (asks ++ log).length
  asked : (∀ e ∈ asks, e.1 = askPacket) ∧ asks.length ≤ 3
  inTurn : InTurn packets (verdicts log)
  bounded : log.length ≤ 3 * (taken (verdicts log) + 1)
  returned : code = 0 ↔ takenItems (verdicts log) = packets ∨ NotWinner ans ∨ LateWinner ans
  late : LateWinner ans → log = []

theorem sends_asked (ys : List Exchange) : ∀ e ∈ sends askPacket ys, e.1 = askPacket := by
  intro e he
  obtain ⟨y, -, rfl⟩ := List.mem_map.mp he
  rfl

/-- The questions alone are transmitted. -/
theorem progRun_asks {packets : List (List UInt8)} {ys : List Exchange} {code : Int}
    (hpackets : 0 < packets.length) (hans : ys = answers ans 0 ys.length) (hlen : ys.length ≤ 3)
    (hcode : code = 0 ↔ NotWinner ans ∨ LateWinner ans) :
    ProgRun ans packets (sends askPacket ys) [] code := by
  have hnone : ¬ takenItems (verdicts []) = packets := fun h =>
    Nat.ne_of_lt hpackets (congrArg List.length h)
  refine ⟨?_, ⟨sends_asked ys, ?_⟩, inTurn_nil _, Nat.zero_le _, ?_, fun _ => rfl⟩
  · rw [List.append_nil, sends_snd, sends_length]
    exact hans
  · rw [sends_length]
    exact hlen
  · rw [hcode, or_iff_right hnone]

/-- A card that wants the image, and what is transmitted behind its answer. -/
theorem progRun_took {packets : List (List UInt8)} {ys : List Exchange} {x : Exchange}
    {rest : List Sent × ProgEnd} {code : Int} (hys : ∀ y ∈ ys, y.leaves true = false)
    (hx : x.leaves true = true) (hlen : ys.length < 3) (hrefuses : ¬ x.Refuses)
    (hans : ys ++ [x] = answers ans 0 (ys ++ [x]).length)
    (hdown : Downloads ans packets (3 - ys.length) (0 + (ys ++ [x]).length) rest)
    (hend : rest.2 = .returned code) :
    ProgRun ans packets (sends askPacket (ys ++ [x])) rest.1 code := by
  obtain ⟨hanswer, hat⟩ := firstAnswer_of hans hys hx
  have hone : (ys ++ [x]).length = ys.length + 1 := by simp
  have hnot : ¬ NotWinner ans := by
    rintro ⟨i, -, hfirst, hbit⟩
    rw [hfirst.unique hanswer, hat] at hbit
    exact hrefuses hbit
  have hlate : LateWinner ans ↔ 3 - ys.length = 1 := by
    constructor
    · rintro ⟨hfirst, -⟩
      rw [← hfirst.unique hanswer]
    · intro h1
      have h2 : ys.length = 2 := by omega
      rw [h2] at hanswer hat
      exact ⟨hanswer, hat ▸ hrefuses⟩
  obtain ⟨code', hend', hcode⟩ := hdown.returned
  cases hend.symm.trans hend'
  refine ⟨?_, ⟨sends_asked _, ?_⟩, hdown.inTurn, hdown.bounded, ?_, fun h =>
    hdown.early (hlate.mp h)⟩
  · have hall : (sends askPacket (ys ++ [x]) ++ rest.1).length =
        (ys ++ [x]).length + rest.1.length := by
      rw [List.length_append, sends_length]
    rw [hall, answers_add, ← hans, ← hdown.answered, List.map_append, sends_snd]
  · rw [sends_length, hone]
    exact hlen
  · rw [hcode, hlate, hdown.inTurn.all_taken_iff, or_iff_right hnot, or_comm]

/-- A run over a chain of blocks. -/
theorem progLoop_run {ps : List Nat} (hc : usbReader.Chain b 0 ps) (ans : Nat → Exchange) :
    ∃ asks log code, progLoop ans b ⟨true, 0, 0, 4, 0, 0⟩ = (asks ++ log, .returned code) ∧
      ProgRun ans (usbReader.packets b 1 ps) asks log code := by
  have hfirst : nextBlock b ⟨true, 0, 0, 4, 0, 0⟩ = some ⟨askPacket, 0, 0⟩ := rfl
  have hpackets : 0 < (usbReader.packets b 1 ps).length := by
    cases hc <;> exact Nat.succ_pos _
  rw [progLoop_pass hfirst]
  have hans := sendBlock_answers ans true 3 0 0
  have hcase := sendBlock_case ans true 3 0 0
  dsimp only
  generalize sendBlock ans true 3 0 0 = r at hans hcase ⊢
  cases hcase with
  | @spent ys code hys hlen hcode =>
    have hnone : ∀ i < 3, ¬ FirstAnswer ans i := fun i hi =>
      not_firstAnswer_of hans hys (hi.trans_eq hlen.symm)
    have hbad : ¬ code = 0 := fun h => absurd (hcode.mp h).1 (by decide)
    refine ⟨sends askPacket ys, [], code, by rw [List.append_nil],
      progRun_asks hpackets hans (Nat.le_of_eq hlen) (iff_of_false hbad ?_)⟩
    rintro (⟨i, hi, hanswer, -⟩ | ⟨hanswer, -⟩)
    · exact hnone i hi hanswer
    · exact hnone 2 (by decide) hanswer
  | @left ys x hys hx hlen =>
    obtain ⟨hanswer, hat⟩ := firstAnswer_of hans hys hx
    rw [Exchange.leave, if_pos rfl]
    by_cases hrefuses : x.Refuses
    · rw [if_pos hrefuses]
      have hthree : (ys ++ [x]).length ≤ 3 := by
        rw [List.length_append]
        exact hlen
      refine ⟨sends askPacket (ys ++ [x]), [], 0, by rw [List.append_nil],
        progRun_asks hpackets hans hthree (iff_of_true rfl (Or.inl ?_))⟩
      exact ⟨_, hlen, hanswer, hat ▸ hrefuses⟩
    · rw [if_neg hrefuses]
      dsimp only
      rw [if_neg (by decide : ¬ (0 : UInt32) = fwHasLastBlock)]
      have hleft : 0 < 3 - ys.length := by omega
      have hdown := chain_downloads ans hc (0 + 1) hleft (by omega) (0 + (ys ++ [x]).length)
      generalize progLoop ans b _ = rest at hdown ⊢
      obtain ⟨code, hend, -⟩ := hdown.returned
      exact ⟨sends askPacket (ys ++ [x]), rest.1, code, by rw [hend],
        progRun_took hys hx hlen hrefuses hans hdown hend⟩

theorem usbReader_endsEmpty : usbReader.EndsEmpty := fun _ _ => rfl

/-! ## A card that takes everything -/

/-- An answer that takes everything. -/
def takesAll : Nat → Exchange := fun _ => ⟨0, 0, 0⟩

theorem sendBlock_takesAll {retries : Nat} (h : 2 ≤ retries) (count : Nat) :
    sendBlock takesAll false (retries - 1) count 0 = ([⟨0, 0, 0⟩], .took 4) := by
  obtain ⟨m, rfl⟩ := Nat.exists_eq_add_of_le h
  rw [Nat.add_comm 2 m]
  rfl

/-- A run without a fault goes along a chain. -/
theorem chain_of_progLoop {pos : Nat} {seqnum : UInt32} {retries count : Nat}
    (hretries : 2 ≤ retries)
    (h : (progLoop takesAll b ⟨false, pos, seqnum, retries, count, 0⟩).2 ≠ .fault) :
    ∃ ps, usbReader.Chain b pos ps := by
  induction hn : b.length - pos using Nat.strongRecOn generalizing pos seqnum retries count with
  | _ n ih =>
    by_cases hholds : usbReader.Holds b pos
    · by_cases hcommand : (fwheader b pos).dnldcmd = fwHasLastBlock
      · exact ⟨[pos], .last hholds hcommand⟩
      · rw [progLoop_pass (nextBlock_holds rfl hholds)] at h
        dsimp only at h
        rw [sendBlock_takesAll hretries] at h
        dsimp only at h
        rw [if_neg hcommand] at h
        have hlt := hholds.lt
        obtain ⟨ps, hps⟩ := ih (b.length - usbReader.next b pos) (by omega) (by decide) h rfl
        exact ⟨pos :: ps, .data hholds hcommand hps⟩
    · have hnone : nextBlock b ⟨false, pos, seqnum, retries, count, 0⟩ = none := by
        rw [nextBlock, if_neg Bool.false_ne_true, if_neg hholds]
      rw [progLoop_fault hnone] at h
      exact absurd rfl h

/-- Along a chain each packet is transmitted once. -/
theorem progLoop_takesAll {pos : Nat} {ps : List Nat} (hc : usbReader.Chain b pos ps)
    (seqnum : UInt32) {retries : Nat} (hretries : 2 ≤ retries) (count : Nat) :
    progLoop takesAll b ⟨false, pos, seqnum, retries, count, 0⟩ =
      ((usbReader.packets b seqnum ps).map fun p => (p, ⟨0, 0, 0⟩), .returned 0) := by
  induction hc generalizing seqnum retries count with
  | last hholds hcommand =>
    rw [progLoop_pass (nextBlock_holds rfl hholds)]
    dsimp only
    rw [sendBlock_takesAll hretries]
    dsimp only
    rw [if_pos hcommand]
    rfl
  | data hholds hcommand _ ih =>
    rw [progLoop_pass (nextBlock_holds rfl hholds)]
    dsimp only
    rw [sendBlock_takesAll hretries]
    dsimp only
    rw [if_neg hcommand, ih (seqnum + 1) (by decide)]
    rfl

/-- The question is answered at once. -/
theorem progFw_takesAll (b : List UInt8) :
    mwifiexProgFwWHelper (some b) true true takesAll =
      let rest := progLoop takesAll b ⟨false, 0, 1, 3, 1, 0⟩
      ((askPacket, ⟨0, 0, 0⟩) :: rest.1, rest.2) := by
  have hfirst : nextBlock b ⟨true, 0, 0, 4, 0, 0⟩ = some ⟨askPacket, 0, 0⟩ := rfl
  have hsend : sendBlock takesAll true 3 0 0 = ([⟨0, 0, 0⟩], .took 3) := rfl
  have hrun : mwifiexProgFwWHelper (some b) true true takesAll =
      progLoop takesAll b ⟨true, 0, 0, 4, 0, 0⟩ := rfl
  rw [hrun, progLoop_pass hfirst]
  dsimp only
  rw [hsend]
  dsimp only
  rw [if_neg (by decide : ¬ (0 : UInt32) = fwHasLastBlock)]
  rfl

/-- A card that takes everything is asked once and given these packets, and the result is 0. -/
def UsbGives (b : List UInt8) (packets : List (List UInt8)) : Prop :=
  let r := mwifiexProgFwWHelper (some b) true true takesAll
  r.1.map Prod.fst = askPacket :: packets ∧ r.2 = .returned 0

theorem usbGives_iff (packets : List (List UInt8)) :
    UsbGives b packets ↔
      ∃ ps, usbReader.Chain b 0 ps ∧ usbReader.packets b 1 ps = packets := by
  rw [UsbGives, progFw_takesAll]
  have hgiven : ∀ {ps}, usbReader.Chain b 0 ps → progLoop takesAll b ⟨false, 0, 1, 3, 1, 0⟩ =
      ((usbReader.packets b 1 ps).map fun p => (p, ⟨0, 0, 0⟩), .returned 0) := fun hc =>
    progLoop_takesAll hc 1 (by decide) 1
  have hfst : ∀ ps, ((usbReader.packets b 1 ps).map fun p => (p, (⟨0, 0, 0⟩ : Exchange))).map
      Prod.fst = usbReader.packets b 1 ps := fun ps => by
    rw [List.map_map]
    exact List.map_id _
  constructor
  · rintro ⟨hpackets, hend⟩
    obtain ⟨ps, hc⟩ := chain_of_progLoop (by decide) fun hfault =>
      ProgEnd.noConfusion (hend.symm.trans hfault)
    rw [hgiven hc] at hpackets
    exact ⟨ps, hc, (hfst ps).symm.trans (List.cons.inj hpackets).2⟩
  · rintro ⟨ps, hc, rfl⟩
    rw [hgiven hc]
    exact ⟨congrArg _ (hfst ps), rfl⟩

/-! ## The download -/

/-- **Bounds.** Whatever the card does, the driver stays in the image and in the buffer of the
    packet, if and only if the image is a chain of blocks that fit, up to a last block. -/
theorem progFw_inBounds_iff (b : List UInt8) :
    (∀ ans, (mwifiexProgFwWHelper (some b) true true ans).2 ≠ .fault) ↔
      ∃ ps, usbReader.Chain b 0 ps := by
  constructor
  · intro h
    have hall := h takesAll
    rw [progFw_takesAll] at hall
    exact chain_of_progLoop (by decide) hall
  · rintro ⟨ps, hc⟩ ans hfault
    obtain ⟨asks, log, code, hrun, -⟩ := progLoop_run hc ans
    cases (congrArg Prod.snd hrun).symm.trans hfault

end Wifimon.Driver
