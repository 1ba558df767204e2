import PulseSequencer.Text.Numeral

/-!
# Sets of channels

A finite set of channel numbers, kept as the strictly increasing list of its members, so that equal
sets are equal values and the members come out in order. `mem_insert`, `mem_ofList`, `mem_union` and
`mem_diff` describe the operations through membership.
-/

namespace PulseSequencer

/-- A finite set of channel numbers. -/
structure ChannelSet where
  toList : List Nat
  increasing : toList.Pairwise (· < ·)

namespace ChannelSet

/-- Puts a number in its place in an increasing list, unless it is there already. -/
def place (a : Nat) : List Nat → List Nat
  | [] => [a]
  | b :: bs => if a < b then a :: b :: bs else if a = b then b :: bs else b :: place a bs

theorem mem_place {a x : Nat} {l : List Nat} : x ∈ place a l ↔ x = a ∨ x ∈ l := by
  induction l with
  | nil => simp [place]
  | cons b bs ih =>
    unfold place
    split
    · simp
    · split
      · next h => subst h; simp
      · simp only [List.mem_cons, ih]
        exact or_left_comm

theorem place_increasing {a : Nat} {l : List Nat} (h : l.Pairwise (· < ·)) :
    (place a l).Pairwise (· < ·) := by
  induction l with
  | nil => simp [place]
  | cons b bs ih =>
    obtain ⟨hb, hbs⟩ := List.pairwise_cons.mp h
    unfold place
    split
    · next hab =>
      refine List.pairwise_cons.mpr ⟨fun x hx => ?_, h⟩
      rcases List.mem_cons.mp hx with rfl | hx
      · exact hab
      · exact Nat.lt_trans hab (hb x hx)
    · split
      · exact h
      · refine List.pairwise_cons.mpr ⟨fun x hx => ?_, ih hbs⟩
        rcases mem_place.mp hx with rfl | hx
        · omega
        · exact hb x hx

/-- The set without members. -/
def empty : ChannelSet := ⟨[], .nil⟩

/-- Adds a member. -/
def insert (a : Nat) (s : ChannelSet) : ChannelSet :=
  ⟨place a s.toList, place_increasing s.increasing⟩

/-- The set of the numbers of a list, which may repeat. -/
def ofList (channels : List Nat) : ChannelSet :=
  channels.foldr insert empty

/-- All members of two sets. -/
def union (s t : ChannelSet) : ChannelSet :=
  s.toList.foldr insert t

/-- The members of `s` that are not in `t`. -/
def diff (s t : ChannelSet) : ChannelSet :=
  ⟨s.toList.filter (· ∉ t.toList), s.increasing.filter _⟩

/-- All members of the sets of a list. -/
def unionAll (sets : List ChannelSet) : ChannelSet :=
  sets.foldr union empty

/-- The largest member. -/
def max? (s : ChannelSet) : Option Nat :=
  s.toList.getLast?

/-- Has the set no members? -/
def isEmpty (s : ChannelSet) : Bool :=
  s.toList.isEmpty

/-- The members in braces. -/
def text (s : ChannelSet) : String :=
  "\x7b" ++ ", ".intercalate (s.toList.map Nat.repr) ++ "\x7d"

instance : Membership Nat ChannelSet := ⟨fun s a => a ∈ s.toList⟩

theorem mem_def {a : Nat} {s : ChannelSet} : a ∈ s ↔ a ∈ s.toList := Iff.rfl

@[simp] theorem mem_empty {a : Nat} : a ∈ empty ↔ False := by
  simp [mem_def, empty]

@[simp] theorem mem_insert {a x : Nat} {s : ChannelSet} : x ∈ s.insert a ↔ x = a ∨ x ∈ s :=
  mem_place

@[simp] theorem mem_ofList {x : Nat} {channels : List Nat} : x ∈ ofList channels ↔ x ∈ channels := by
  induction channels with
  | nil => simp [ofList]
  | cons a as ih =>
    have h : ofList (a :: as) = (ofList as).insert a := rfl
    rw [h, mem_insert, ih, List.mem_cons]

@[simp] theorem mem_union {x : Nat} {s t : ChannelSet} : x ∈ s.union t ↔ x ∈ s ∨ x ∈ t := by
  have key : ∀ l : List Nat, x ∈ l.foldr insert t ↔ x ∈ l ∨ x ∈ t := by
    intro l
    induction l with
    | nil => simp
    | cons a as ih => rw [List.foldr_cons, mem_insert, ih, List.mem_cons, or_assoc]
  exact key s.toList

@[simp] theorem mem_diff {x : Nat} {s t : ChannelSet} : x ∈ s.diff t ↔ x ∈ s ∧ x ∉ t := by
  simp [mem_def, diff]

end ChannelSet

end PulseSequencer
