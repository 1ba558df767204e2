import PulseSequencer.ChannelSet

/-!
# Flag words

The state of all outputs as one word: bit `n` drives channel `n`. The topmost `reserved` channels of
a board cannot be driven on their own; `driveReserved` makes them show whether any lower channel is
on. `getLsbD_ofChannels`, `getLsbD_widthMask` and `getLsbD_without` say which bits a word has.
-/

namespace PulseSequencer

/-- The widest flag word an instruction can hold. -/
def maxChannels : Nat := 64

/-- The state of all outputs; bit `n` drives channel `n`. -/
abbrev FlagWord := BitVec 64

namespace FlagWord

/-- The word with exactly one channel on; none if the word does not have the channel. -/
def channel (n : Nat) : FlagWord :=
  if n < maxChannels then 1#64 <<< n else 0

/-- The word with exactly the channels of a list on. -/
def ofChannels (channels : List Nat) : FlagWord :=
  channels.foldr (fun n acc => channel n ||| acc) 0

/-- The word with the lowest `width` channels on. -/
def widthMask (width : Nat) : FlagWord :=
  BitVec.ofNat 64 ((1 <<< min width maxChannels) - 1)

/-- The channels that are on in `a` and not in `b`. -/
def without (a b : FlagWord) : FlagWord :=
  a ^^^ (a &&& b)

/-- Is the channel on? -/
def isOn (flags : FlagWord) (n : Nat) : Bool :=
  flags.getLsbD n

/-- The states of the lowest `width` channels, channel 0 first. -/
def bits (flags : FlagWord) (width : Nat) : List Bool :=
  (List.range width).map flags.isOn

/-- Does the word leave every channel from `width` on off? -/
def fits (flags : FlagWord) (width : Nat) : Bool :=
  maxChannels ≤ width || flags >>> width == 0

/-- The topmost `reserved` of `width` channels. -/
def reservedMask (width reserved : Nat) : FlagWord :=
  (widthMask width).without (widthMask (width - reserved))

/-- Switches the channels of `followers` on if any channel of `leaders` is on, and off otherwise. -/
def drive (flags leaders followers : FlagWord) : FlagWord :=
  if flags &&& leaders = 0 then flags.without followers else flags ||| followers

/-- Switches the topmost `reserved` of `width` channels on if any channel below them is on, and off
otherwise. -/
def driveReserved (flags : FlagWord) (width reserved : Nat) : FlagWord :=
  flags.drive (widthMask (width - reserved)) (reservedMask width reserved)

end FlagWord

/-- The word with exactly the channels of a set on. -/
def ChannelSet.mask (s : ChannelSet) : FlagWord :=
  FlagWord.ofChannels s.toList

namespace FlagWord

theorem getLsbD_channel {n i : Nat} : (channel n).getLsbD i = (decide (i < 64) && decide (i = n)) := by
  unfold channel maxChannels
  split
  · next hn =>
    simp only [BitVec.getLsbD_shiftLeft, BitVec.getLsbD_one]
    by_cases h : i = n
    · subst h; simp
    · by_cases hlt : i < n
      · simp [hlt, h]
      · have : i - n ≠ 0 := by omega
        simp [h, this]
  · by_cases h : i = n
    · subst h; simp_all
    · simp [h]

theorem getLsbD_widthMask {width i : Nat} :
    (widthMask width).getLsbD i = (decide (i < 64) && decide (i < width)) := by
  simp only [widthMask, maxChannels, BitVec.getLsbD_ofNat, Nat.one_shiftLeft,
    Nat.testBit_two_pow_sub_one]
  by_cases h : i < 64
  · have : i < min width 64 ↔ i < width := by omega
    simp [h, this]
  · simp [h]

@[simp] theorem getLsbD_without {a b : FlagWord} {i : Nat} :
    (a.without b).getLsbD i = (a.getLsbD i && !b.getLsbD i) := by
  simp only [without, BitVec.getLsbD_xor, BitVec.getLsbD_and]
  cases a.getLsbD i <;> cases b.getLsbD i <;> rfl

theorem getLsbD_ofChannels {channels : List Nat} {i : Nat} :
    (ofChannels channels).getLsbD i = (decide (i < 64) && decide (i ∈ channels)) := by
  induction channels with
  | nil => simp [ofChannels]
  | cons a as ih =>
    have h : ofChannels (a :: as) = channel a ||| ofChannels as := rfl
    rw [h, BitVec.getLsbD_or, getLsbD_channel, ih]
    by_cases hi : i < 64 <;> simp [hi]

end FlagWord

end PulseSequencer
