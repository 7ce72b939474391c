/-
  `src/kplugin/m.c`: channels, frequencies and data rates.

  The functions search or index constant tables, whose bounds they compute with `sizeof`.
  `Lookup` is what a call did: the elements it read, and the value it returns; the value is
  `none` if an element past the end of its table was read.

  * `channelMaps_agree`: the four channel functions are two maps, from a number and a band to a
    frequency and back, that are inverse to each other on the channels of the tables.
  * `tableReads_inside_iff`: the channel functions read inside their tables. The bound that
    `mwifiex_index_to_data_rate` compares with is the size of its table in bytes, so it reads
    past the end for every index from 32 to 63 of a packet without HT information.
-/
import Wifimon.Lib.Scan

namespace Wifimon.Kplugin

open ScanLib

/-! ## Tables -/

structure Ieee80211Channel where
  centerFreq : UInt32
  hwValue : UInt32
  deriving DecidableEq

def mwifiexDataRates : List UInt16 :=
  [0x02, 0x04, 0x0B, 0x16, 0x00, 0x0C, 0x12, 0x18, 0x24, 0x30, 0x48, 0x60, 0x6C, 0x90, 0x0D, 0x1A,
   0x27, 0x34, 0x4E, 0x68, 0x75, 0x82, 0x0C, 0x1B, 0x36, 0x51, 0x6C, 0xA2, 0xD8, 0xF3, 0x10E, 0x00]

/-- LGI 40M, SGI 40M, LGI 20M, SGI 20M. -/
def mcsRate : List (List UInt16) :=
  [[0x1b, 0x36, 0x51, 0x6c, 0xa2, 0xd8, 0xf3, 0x10e,
    0x36, 0x6c, 0xa2, 0xd8, 0x144, 0x1b0, 0x1e6, 0x21c],
   [0x1e, 0x3c, 0x5a, 0x78, 0xb4, 0xf0, 0x10e, 0x12c,
    0x3c, 0x78, 0xb4, 0xf0, 0x168, 0x1e0, 0x21c, 0x258],
   [0x0d, 0x1a, 0x27, 0x34, 0x4e, 0x68, 0x75, 0x82,
    0x1a, 0x34, 0x4e, 0x68, 0x9c, 0xd0, 0xea, 0x104],
   [0x0e, 0x1c, 0x2b, 0x39, 0x56, 0x73, 0x82, 0x90,
    0x1c, 0x39, 0x56, 0x73, 0xad, 0xe7, 0x104, 0x120]]

def mwifiexChannels2ghz : List Ieee80211Channel :=
  [⟨2412, 1⟩, ⟨2417, 2⟩, ⟨2422, 3⟩, ⟨2427, 4⟩, ⟨2432, 5⟩, ⟨2437, 6⟩, ⟨2442, 7⟩, ⟨2447, 8⟩,
   ⟨2452, 9⟩, ⟨2457, 10⟩, ⟨2462, 11⟩, ⟨2467, 12⟩, ⟨2472, 13⟩, ⟨2484, 14⟩]

def mwifiexChannels5ghz : List Ieee80211Channel :=
  [⟨5040, 8⟩, ⟨5060, 12⟩, ⟨5080, 16⟩, ⟨5170, 34⟩, ⟨5190, 38⟩, ⟨5210, 42⟩, ⟨5230, 46⟩, ⟨5180, 36⟩,
   ⟨5200, 40⟩, ⟨5220, 44⟩, ⟨5240, 48⟩, ⟨5260, 52⟩, ⟨5280, 56⟩, ⟨5300, 60⟩, ⟨5320, 64⟩,
   ⟨5500, 100⟩, ⟨5520, 104⟩, ⟨5540, 108⟩, ⟨5560, 112⟩, ⟨5580, 116⟩, ⟨5600, 120⟩, ⟨5620, 124⟩,
   ⟨5640, 128⟩, ⟨5660, 132⟩]

inductive Table where
  | channels2ghz
  | channels5ghz
  | mcsRate (row : Nat)
  | dataRates
  deriving DecidableEq

/-- The number of elements. -/
def Table.count : Table → Nat
  | .channels2ghz => mwifiexChannels2ghz.length
  | .channels5ghz => mwifiexChannels5ghz.length
  | .mcsRate row => (Kplugin.mcsRate.getD row []).length
  | .dataRates => mwifiexDataRates.length

/-- What a call did: the elements it read, and what it returned. -/
structure Lookup (β : Type) where
  reads : List (Table × Nat)
  ret : Option β

def Lookup.Inside {β : Type} (r : Lookup β) : Prop := ∀ p ∈ r.reads, p.2 < p.1.count

/-! ## Channels and frequencies -/

/-- `sizeof(struct ieee80211_channel)`. -/
def sizeofChannel : Nat := 8

/-- The table that the four functions choose. -/
def channels (five : Bool) : List Ieee80211Channel :=
  if five then mwifiexChannels5ghz else mwifiexChannels2ghz

def channelTable (five : Bool) : Table := if five then .channels5ghz else .channels2ghz

/-- The loops of the four functions, with the bound `sizeof(t)/sizeof(t[0])`: the value `out` of
    the first channel that `hit` is true of, or 0. -/
def searchChannels {β : Type} (five : Bool) (hit : Ieee80211Channel → Bool) (zero : β)
    (out : Ieee80211Channel → β) : Lookup β :=
  let r := scan (channels five) hit ((channels five).length * sizeofChannel / sizeofChannel) 0
  { reads := r.1.map fun i => (channelTable five, i)
    ret := r.2.map fun found => (found.map out).getD zero }

def mChanValid (num : UInt32) (band : Int32) : Lookup Int :=
  searchChannels (band != 0) (fun c => num == c.hwValue) 0 fun _ => 1

def mFreqValid (freq : UInt32) : Lookup Int :=
  searchChannels (decide (freq > 5000)) (fun c => freq == c.centerFreq) 0 fun _ => 1

def mHwvalueToFreq (num band : UInt32) : Lookup UInt32 :=
  searchChannels (band != 0) (fun c => num == c.hwValue) 0 Ieee80211Channel.centerFreq

def mFreqToHwvalue (freq : UInt32) : Lookup UInt32 :=
  searchChannels (decide (freq > 5000)) (fun c => freq == c.centerFreq) 0
    Ieee80211Channel.hwValue

/-- A search stays in its table, and returns what it finds there. -/
theorem searchChannels_spec {β : Type} (five : Bool) (hit : Ieee80211Channel → Bool) (zero : β)
    (out : Ieee80211Channel → β) :
    (searchChannels five hit zero out).Inside ∧
      (searchChannels five hit zero out).ret =
        some ((((channels five).find? hit).map out).getD zero) := by
  have hbound : (channels five).length * sizeofChannel / sizeofChannel = (channels five).length :=
    Nat.mul_div_cancel _ (by decide)
  have hcount : (channelTable five).count = (channels five).length := by cases five <;> rfl
  obtain ⟨hreads, hfound⟩ := scan_all (channels five) hit
  unfold searchChannels Lookup.Inside
  dsimp only
  rw [hbound, hfound]
  refine ⟨?_, rfl⟩
  rw [List.forall_mem_map]
  intro i hi
  dsimp only
  rw [hcount]
  exact hreads i hi

theorem searchChannels_hit {β : Type} {five : Bool} {hit : Ieee80211Channel → Bool}
    {c : Ieee80211Channel} (h : (channels five).find? hit = some c) (zero : β)
    (out : Ieee80211Channel → β) : (searchChannels five hit zero out).ret = some (out c) := by
  rw [(searchChannels_spec five hit zero out).2, h]
  rfl

theorem searchChannels_miss {β : Type} {five : Bool} {hit : Ieee80211Channel → Bool}
    (h : (channels five).find? hit = none) (zero : β) (out : Ieee80211Channel → β) :
    (searchChannels five hit zero out).ret = some zero := by
  rw [(searchChannels_spec five hit zero out).2, h]
  rfl

/-- Both columns of a table have no repetition. -/
theorem channels_nodup (five : Bool) :
    ((channels five).map Ieee80211Channel.hwValue).Nodup ∧
      ((channels five).map Ieee80211Channel.centerFreq).Nodup := by
  cases five <;> decide

/-- No entry is 0, and the frequencies of the tables are on the two sides of 5000. -/
theorem channels_rows (five : Bool) :
    ∀ c ∈ channels five, c.hwValue ≠ 0 ∧ c.centerFreq ≠ 0 ∧
      decide (c.centerFreq > 5000) = five := by
  cases five <;> decide

/-- The maps at a channel number and a band. -/
def NumberAgrees (num : UInt32) (band : Int32) : Prop :=
  ∃ valid freq, (mChanValid num band).ret = some valid ∧
    (mHwvalueToFreq num band.toUInt32).ret = some freq ∧ (valid = 1 ↔ freq ≠ 0) ∧
    (valid = 1 → (mFreqValid freq).ret = some 1 ∧ (mFreqToHwvalue freq).ret = some num ∧
      (5000 < freq ↔ band ≠ 0))

/-- The maps at a frequency. -/
def FrequencyAgrees (freq : UInt32) : Prop :=
  ∃ valid num, (mFreqValid freq).ret = some valid ∧ (mFreqToHwvalue freq).ret = some num ∧
    (valid = 1 ↔ num ≠ 0) ∧
    (valid = 1 → (mHwvalueToFreq num (if freq > 5000 then 1 else 0)).ret = some freq)

theorem number_agrees (num : UInt32) (band : Int32) : NumberAgrees num band := by
  have hband : (band.toUInt32 != 0) = (band != 0) := by
    have hzero : band.toUInt32 = 0 ↔ band = 0 :=
      ⟨fun h => Int32.toBitVec.inj (congrArg UInt32.toBitVec h), fun h => congrArg Int32.toUInt32 h⟩
    rw [Bool.eq_iff_iff, bne_iff_ne, bne_iff_ne]
    exact not_congr hzero
  have hconv : mHwvalueToFreq num band.toUInt32 = searchChannels (band != 0)
      (fun c => num == c.hwValue) 0 Ieee80211Channel.centerFreq := by
    rw [mHwvalueToFreq, hband]
  cases hfound : (channels (band != 0)).find? fun c => num == c.hwValue with
  | none =>
    refine ⟨0, 0, searchChannels_miss hfound _ _, ?_, by simp, nofun⟩
    rw [hconv]
    exact searchChannels_miss hfound _ _
  | some c =>
    obtain ⟨hnum, hfreq⟩ := channels_nodup (band != 0)
    obtain ⟨hmem, hkey⟩ := (find?_key_iff hnum).mp hfound
    obtain ⟨-, hpos, habove⟩ := channels_rows (band != 0) c hmem
    have hother := find?_other_key hfreq hfound
    rw [← habove] at hother
    refine ⟨1, c.centerFreq, searchChannels_hit hfound _ _, ?_, iff_of_true rfl hpos,
      fun _ => ⟨searchChannels_hit hother _ _, ?_, ?_⟩⟩
    · rw [hconv]
      exact searchChannels_hit hfound _ _
    · rw [← hkey]
      exact searchChannels_hit hother _ _
    · rw [← decide_eq_true_iff (p := 5000 < c.centerFreq), habove, bne_iff_ne]

theorem frequency_agrees (freq : UInt32) : FrequencyAgrees freq := by
  have hconv : ∀ num, mHwvalueToFreq num (if freq > 5000 then 1 else 0) =
      searchChannels (decide (freq > 5000)) (fun c => num == c.hwValue) 0
        Ieee80211Channel.centerFreq := by
    intro num
    unfold mHwvalueToFreq
    by_cases habove : freq > 5000
    · rw [if_pos habove, decide_eq_true habove]
      rfl
    · rw [if_neg habove, decide_eq_false habove]
      rfl
  cases hfound : (channels (decide (freq > 5000))).find? fun c => freq == c.centerFreq with
  | none =>
    exact ⟨0, 0, searchChannels_miss hfound _ _, searchChannels_miss hfound _ _, by simp, nofun⟩
  | some c =>
    obtain ⟨hnum, hfreq⟩ := channels_nodup (decide (freq > 5000))
    obtain ⟨hmem, hkey⟩ := (find?_key_iff hfreq).mp hfound
    obtain ⟨hpos, -, -⟩ := channels_rows _ c hmem
    refine ⟨1, c.hwValue, searchChannels_hit hfound _ _, searchChannels_hit hfound _ _,
      iff_of_true rfl hpos, fun _ => ?_⟩
    rw [hconv]
    have hback := searchChannels_hit (find?_other_key hnum hfound) 0 Ieee80211Channel.centerFreq
    rwa [hkey] at hback

/-- **Channels and frequencies.** For every number and band a channel is valid if and only if it
    has a frequency, which is valid, is mapped back and tells the band; and for every frequency
    likewise. -/
theorem channelMaps_agree :
    (∀ num band, NumberAgrees num band) ∧ ∀ freq, FrequencyAgrees freq :=
  ⟨number_agrees, frequency_agrees⟩

/-- Channel 36 of the band at 5 GHz, and channel 14 of the other one. -/
example : (mHwvalueToFreq 36 1).ret = some 5180 ∧ (mFreqToHwvalue 5180).ret = some 36 ∧
    (mChanValid 36 1).ret = some 1 ∧ (mHwvalueToFreq 14 0).ret = some 2484 ∧
    (mFreqValid 2484).ret = some 1 := by
  decide

/-! ## Data rates -/

def mwifiexRateBitmapMcs0 : UInt8 := 32

/-- `sizeof(mwifiex_data_rates)`. -/
def sizeofDataRates : Nat := mwifiexDataRates.length * 2

/-- `mcs_rate[row][index]`. -/
def readMcs (row index : Nat) : Lookup UInt16 :=
  { reads := [(.mcsRate row, index)]
    ret := mcsRate[row]?.bind fun rates => rates[index]? }

/-- `mwifiex_data_rates[index]`. -/
def readRate (index : Nat) : Lookup UInt16 :=
  { reads := [(.dataRates, index)]
    ret := mwifiexDataRates[index]? }

def mwifiexIndexToDataRate (index htInfo : UInt8) : Lookup UInt16 :=
  if htInfo &&& 1 ≠ 0 then
    if index = mwifiexRateBitmapMcs0 then
      { reads := [], ret := if htInfo &&& 4 ≠ 0 then some 0x0D else some 0x0C }
    else if index < 8 then
      if htInfo &&& 2 ≠ 0 then
        if htInfo &&& 4 ≠ 0 then readMcs 1 index.toNat else readMcs 0 index.toNat
      else if htInfo &&& 4 ≠ 0 then readMcs 3 index.toNat
      else readMcs 2 index.toNat
    else readRate 0
  else
    -- the bound is in bytes
    let index := if sizeofDataRates ≤ index.toNat then 0 else index
    readRate index.toNat

theorem readMcs_inside {row index : Nat} (hrow : row < 4) (h : index < 8) :
    (readMcs row index).Inside := by
  have hrows : ∀ row < 4, (Table.mcsRate row).count = 16 := by decide
  have hcount := hrows row hrow
  intro p hp
  rw [List.mem_singleton.mp hp]
  show index < (Table.mcsRate row).count
  omega

theorem readRate_inside_iff (index : Nat) : (readRate index).Inside ↔ index < 32 :=
  List.forall_mem_singleton

/-- An HT rate is read inside the tables. -/
theorem htRate_inside {index htInfo : UInt8} (h : htInfo &&& 1 ≠ 0) :
    (mwifiexIndexToDataRate index htInfo).Inside := by
  unfold mwifiexIndexToDataRate
  rw [if_pos h]
  split
  · exact fun p hp => absurd hp List.not_mem_nil
  · split
    · next hlt =>
      have hindex : index.toNat < 8 := UInt8.lt_iff_toNat_lt.mp hlt
      split <;> split <;> exact readMcs_inside (by decide) hindex
    · exact (readRate_inside_iff 0).mpr (by decide)

/-- A rate without HT information is read inside the table if and only if the index is less than
    the number of rates, or replaced by 0. -/
theorem rate_inside_iff {index htInfo : UInt8} (h : htInfo &&& 1 = 0) :
    (mwifiexIndexToDataRate index htInfo).Inside ↔ index < 32 ∨ 64 ≤ index := by
  have hsize : sizeofDataRates = 64 := rfl
  unfold mwifiexIndexToDataRate
  rw [if_neg (not_not_intro h), hsize, UInt8.lt_iff_toNat_lt, UInt8.le_iff_toNat_le]
  dsimp only
  rw [readRate_inside_iff]
  by_cases hbig : 64 ≤ index.toNat
  · rw [if_pos hbig]
    exact iff_of_true (by decide) (Or.inr hbig)
  · rw [if_neg hbig]
    exact (or_iff_left hbig).symm

/-! ## Reads -/

/-- A call of one of the functions. -/
inductive RadioCall where
  | chanValid (num : UInt32) (band : Int32)
  | freqValid (freq : UInt32)
  | hwvalueToFreq (num band : UInt32)
  | freqToHwvalue (freq : UInt32)
  | indexToDataRate (index htInfo : UInt8)

def RadioCall.reads : RadioCall → List (Table × Nat)
  | .chanValid num band => (mChanValid num band).reads
  | .freqValid freq => (mFreqValid freq).reads
  | .hwvalueToFreq num band => (mHwvalueToFreq num band).reads
  | .freqToHwvalue freq => (mFreqToHwvalue freq).reads
  | .indexToDataRate index htInfo => (mwifiexIndexToDataRate index htInfo).reads

/-- A rate index without HT information is a rate, or at least the size of the rates in bytes. -/
def RadioCall.RateIndexed : RadioCall → Prop
  | .indexToDataRate index htInfo => htInfo &&& 1 = 0 → index < 32 ∨ 64 ≤ index
  | _ => True

/-- **Table reads.** For every call, whatever its arguments: every element that is read has an
    index below the number of elements of its table if and only if the call is not for a rate
    without HT information whose index is from 32 to 63. -/
theorem tableReads_inside_iff (call : RadioCall) :
    (∀ p ∈ call.reads, p.2 < p.1.count) ↔ call.RateIndexed := by
  cases call with
  | chanValid num band => exact iff_of_true (searchChannels_spec _ _ _ _).1 trivial
  | freqValid freq => exact iff_of_true (searchChannels_spec _ _ _ _).1 trivial
  | hwvalueToFreq num band => exact iff_of_true (searchChannels_spec _ _ _ _).1 trivial
  | freqToHwvalue freq => exact iff_of_true (searchChannels_spec _ _ _ _).1 trivial
  | indexToDataRate index htInfo =>
    by_cases h : htInfo &&& 1 = 0
    · exact (rate_inside_iff h).trans ⟨fun hi _ => hi, fun hi => hi h⟩
    · exact iff_of_true (htRate_inside h) fun h0 => absurd h0 h

/-- Rate 32 is read behind the last of the 32 rates. -/
theorem rate32_outside :
    ¬ ∀ p ∈ (RadioCall.indexToDataRate 32 0).reads, p.2 < p.1.count := by
  intro h
  exact absurd (h (.dataRates, 32) (by decide)) (by decide)

end Wifimon.Kplugin
