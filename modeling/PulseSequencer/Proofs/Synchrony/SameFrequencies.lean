import PulseSequencer.Proofs.Arith.Folds
import PulseSequencer.Proofs.Binary64.Order
import PulseSequencer.Proofs.Failures
import PulseSequencer.Proofs.Synchrony

/-!
# Synchronizing the same frequencies

Frequencies that are named in another order, or more than once, get the same duration, and each of them
gets the same adjusted frequency.

* `slowest_congr`, `areMultiples_congr`: what is computed from all members of a list goes by the members
  alone.
* `PeriodFault`: the error of rounding the period of one frequency.  The first such error of a list is
  reported, and it can be of either of two kinds.
* `Related`: errors of one kind, or two such errors of one list.
* `agree_ofFrequencies`: all stages of synchronizing.
-/

namespace PulseSequencer

namespace Synchrony

open Binary64 (isPositive rank lt_iff_rank_lt)

variable {c : Config} {given : Option Nat} {fs fs' : List Float} {e e' : CompileError}

/-! ### The lowest frequency -/

/-- The fold keeps the lowest of the frequencies it has seen. -/
theorem isLeast_foldl {acc : Float} (hpos : ∀ f ∈ acc :: fs, isPositive f = true) :
    fs.foldl (fun acc f => if f < acc then f else acc) acc ∈ acc :: fs ∧
      ∀ f ∈ acc :: fs, rank (fs.foldl (fun acc f => if f < acc then f else acc) acc) ≤ rank f := by
  induction fs generalizing acc with
  | nil => simp
  | cons f fs ih =>
    simp only [List.forall_mem_cons] at hpos
    obtain ⟨hacc, hf, hfs⟩ := hpos
    rw [List.foldl_cons]
    by_cases hlt : f < acc
    · rw [if_pos hlt]
      obtain ⟨hmem, hle⟩ := ih (List.forall_mem_cons.mpr ⟨hf, hfs⟩)
      refine ⟨List.mem_cons_of_mem acc hmem, List.forall_mem_cons.mpr ⟨?_, hle⟩⟩
      exact (hle f List.mem_cons_self).trans ((lt_iff_rank_lt hf hacc).mp hlt).le
    · rw [if_neg hlt]
      obtain ⟨hmem, hle⟩ := ih (List.forall_mem_cons.mpr ⟨hacc, hfs⟩)
      simp only [List.forall_mem_cons] at hle ⊢
      refine ⟨?_, hle.1, ?_, hle.2⟩
      · rw [List.mem_cons] at hmem ⊢
        exact hmem.imp_right (List.mem_cons_of_mem f)
      · rw [lt_iff_rank_lt hf hacc] at hlt
        exact hle.1.trans (not_lt.mp hlt)

theorem isLeast_slowest (hne : fs ≠ []) (hpos : ∀ f ∈ fs, isPositive f = true) :
    slowest fs ∈ fs ∧ ∀ f ∈ fs, rank (slowest fs) ≤ rank f := by
  cases fs with
  | nil => exact absurd rfl hne
  | cons f fs =>
    have hstart : slowest (f :: fs) = fs.foldl (fun acc f => if f < acc then f else acc) f := by
      unfold slowest
      rw [List.foldl_cons, if_pos (Binary64.lt_infinity (hpos f List.mem_cons_self))]
    rw [hstart]
    exact isLeast_foldl hpos

theorem slowest_congr (h : SameMembers fs fs') (hpos : ∀ f ∈ fs, isPositive f = true) :
    slowest fs = slowest fs' := by
  have hpos' : ∀ f ∈ fs', isPositive f = true := fun f hf => hpos f ((h f).mpr hf)
  have hnil : fs = [] ↔ fs' = [] := by
    rw [← List.isEmpty_iff, ← List.isEmpty_iff, h.isEmpty]
  by_cases hne : fs = []
  · rw [hne, hnil.mp hne]
  · have hne' : fs' ≠ [] := fun hne' => hne (hnil.mpr hne')
    obtain ⟨hmem, hle⟩ := isLeast_slowest hne hpos
    obtain ⟨hmem', hle'⟩ := isLeast_slowest hne' hpos'
    refine Binary64.eq_of_rank_eq (hpos _ hmem) (hpos' _ hmem') (le_antisymm ?_ ?_)
    · exact hle _ ((h _).mpr hmem')
    · exact hle' _ ((h _).mp hmem)

theorem areMultiples_congr (h : SameMembers fs fs') : areMultiples c fs = areMultiples c fs' := by
  have hscaled : SameMembers (scaledFrequencies c fs) (scaledFrequencies c fs') := h.map _
  unfold areMultiples
  simp only [gcdAll_congr hscaled]
  rw [Bool.eq_iff_iff, List.contains_iff_mem, List.contains_iff_mem, hscaled _]

/-! ### Errors of one frequency -/

/-- The period of one of the frequencies cannot be rounded: as a part of the longest period, or by
itself. -/
inductive PeriodFault (c : Config) (fs : List Float) (e : CompileError) : Prop
  | part {grid duration : Nat} {f : Float} (hmultiples : areMultiples c fs = true)
      (hgrid : granularity c = .ok grid)
      (hduration : roundToMultiple (Binary64.roundToWord (Signal.reciprocal (slowest fs))) grid =
        .ok duration)
      (hf : f ∈ fs) (h : multiplePeriod c duration (slowest fs) f = .error e)
  | whole {grid : Nat} {f : Float} (hmultiples : areMultiples c fs = false)
      (hgrid : granularity c = .ok grid) (hf : f ∈ fs) (h : roundedPeriod c grid f = .error e)

theorem PeriodFault.kind (h : PeriodFault c fs e) :
    e.kind = .synchronization ∨ e.kind = .arithmetic := by
  cases h with
  | part _ _ _ _ h => exact kind_of_multiplePeriod h
  | whole _ _ _ h => exact kind_of_roundedPeriod h

/-- Errors of one kind or, where a duration has to be found, errors of two frequencies. -/
def Related (c : Config) (given : Option Nat) (fs : List Float) (e e' : CompileError) : Prop :=
  e.kind = e'.kind ∨ given = none ∧ PeriodFault c fs e ∧ PeriodFault c fs e'

theorem related_self (e : CompileError) : Related c given fs e e :=
  .inl rfl

/-! ### Stages -/

/-- A duration for both lists, and a value for each frequency. -/
def SameValues {β : Type} (fs fs' : List Float) (x x' : Nat × List β) : Prop :=
  x.1 = x'.1 ∧ ∃ value : Float → β, x.2 = fs.map value ∧ x'.2 = fs'.map value

theorem agree_multiplePeriods (h : SameMembers fs fs') (hpos : ∀ f ∈ fs, isPositive f = true)
    (hmultiples : areMultiples c fs = true) :
    Agree (Related c none fs) (SameValues fs fs') (multiplePeriods c fs) (multiplePeriods c fs') := by
  unfold multiplePeriods
  rw [← slowest_congr h hpos]
  refine Agree.bind (agree_self related_self _) ?_
  rintro grid _ ⟨hgrid, rfl⟩
  refine Agree.bind (agree_self related_self _) ?_
  rintro duration _ ⟨hduration, rfl⟩
  refine agree_guard (related_self _) ?_
  refine Agree.bind (agree_mapM h ?_) ?_
  · intro f hf f' hf' e e' he he'
    have hduration := mapError_eq_ok_iff.mp hduration
    exact .inr ⟨rfl, .part hmultiples hgrid hduration hf he,
      .part hmultiples hgrid hduration hf' he'⟩
  · rintro periods periods' ⟨hperiods, hperiods'⟩
    exact .ok ⟨rfl, _, eq_map_of_forall₂ hperiods 0, eq_map_of_forall₂ hperiods' 0⟩

theorem agree_commonMultiple {periods periods' : List Nat} (h : SameMembers periods periods')
    (hpos : ∀ p ∈ periods, 0 < p) :
    Agree (Related c none fs) Eq (commonMultiple c periods) (commonMultiple c periods') := by
  unfold commonMultiple
  rw [← lcmAll?_congr h hpos]
  cases lcmAll? periods with
  | none => exact .error (.inl rfl)
  | some duration => exact (agree_self related_self _).imp fun _ _ h => h.2

theorem agree_commonPeriods (h : SameMembers fs fs') (hmultiples : areMultiples c fs = false) :
    Agree (Related c none fs) (SameValues fs fs') (commonPeriods c fs) (commonPeriods c fs') := by
  unfold commonPeriods roundedPeriods
  rw [bind_assoc, bind_assoc]
  refine Agree.bind (agree_self related_self _) ?_
  rintro grid _ ⟨hgrid, rfl⟩
  refine Agree.bind (agree_mapM h ?_) ?_
  · intro f hf f' hf' e e' he he'
    exact .inr ⟨rfl, .whole hmultiples hgrid hf he, .whole hmultiples hgrid hf' he'⟩
  · rintro periods periods' ⟨hperiods, hperiods'⟩
    have hsame := sameMembers_of_forall₂ h hperiods hperiods'
    have hpos := forall_roundedPeriod (mapM_eq_ok_iff.mpr hperiods)
    refine Agree.bind (agree_commonMultiple hsame fun p hp => (hpos p hp).1) ?_
    rintro duration _ rfl
    exact .ok ⟨rfl, _, eq_map_of_forall₂ hperiods 0, eq_map_of_forall₂ hperiods' 0⟩

theorem agree_findPeriods (h : SameMembers fs fs') (hpos : ∀ f ∈ fs, isPositive f = true) :
    Agree (Related c none fs) (SameValues fs fs') (findPeriods c fs) (findPeriods c fs') := by
  unfold findPeriods
  rw [← areMultiples_congr h]
  cases hmultiples : areMultiples c fs with
  | true => exact agree_multiplePeriods h hpos hmultiples
  | false => exact agree_commonPeriods h hmultiples

theorem agree_settle (given : Option Nat) (h : SameMembers fs fs')
    (hpos : ∀ f ∈ fs, isPositive f = true) :
    Agree (Related c given fs) (SameValues fs fs') (settle c given fs) (settle c given fs') := by
  unfold settle
  rw [← h.isEmpty]
  refine agree_guard (related_self _) ?_
  cases given with
  | some duration =>
    refine agree_guard (related_self _) (.ok ⟨rfl, id, ?_, ?_⟩)
    · exact (List.map_id fs).symm
    · exact (List.map_id fs').symm
  | none =>
    refine Agree.bind (agree_findPeriods h hpos) ?_
    rintro ⟨duration, periods⟩ ⟨_, periods'⟩ ⟨rfl, period, rfl, rfl⟩
    exact .ok ⟨rfl, frequencyOf ∘ period, List.map_map, List.map_map⟩

/-- Synchronized lists: the same duration, and the same adjustment of each frequency. -/
structure SameSynchrony (fs fs' : List Float) (y y' : Synchrony) : Prop where
  duration : y.duration = y'.duration
  cycles : y.cycles = y'.cycles
  adjusted : ∃ adjust : Float → Float, y.frequencies = fs.map adjust ∧ y'.frequencies = fs'.map adjust

theorem agree_ofFrequencies (given : Option Nat) (h : SameMembers fs fs')
    (hpos : ∀ f ∈ fs, isPositive f = true) :
    Agree (Related c given fs) (SameSynchrony fs fs') (ofFrequencies c given fs)
      (ofFrequencies c given fs') := by
  unfold ofFrequencies
  refine Agree.bind (agree_settle given h hpos) ?_
  rintro ⟨duration, frequencies⟩ ⟨_, frequencies'⟩ ⟨rfl, hadjusted⟩
  refine Agree.bind (agree_self related_self _) ?_
  rintro cycles _ ⟨-, rfl⟩
  exact .ok ⟨rfl, rfl, hadjusted⟩

end Synchrony

end PulseSequencer
