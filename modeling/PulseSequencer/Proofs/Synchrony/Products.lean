import PulseSequencer.Proofs.Binary64.Operations
import PulseSequencer.Proofs.Compiler.WholePeriods
import PulseSequencer.Proofs.Synchrony.SameFrequencies
import Mathlib

/-!
# When synchronizing leaves the word

Finding a duration multiplies: the granularity comes out of the configuration, and each time a period is
rounded there are twice a remainder and the rounded multiple.  The least common multiple of the periods
fails as synchronizing does if it does not fit a word.  These products do not: they are errors of
arithmetic.

* `products`: all products on the way that is taken.
* `Outcome`: what work that forms some products comes to, by whether they fit; `Outcome.bind` puts
  stages together.
* `outcome_findPeriods`: either way of finding a duration.
* `products_lt`: all products fit if the granularity and the periods leave two bits of the word free.
* `ofSignals_products`: together; `products_overflow` is a signal that is too slow.
-/

namespace PulseSequencer

namespace Synchrony

open Binary64 (isPositive rank HasValue NearestTo)

variable {α β : Type} {c : Config} {fs : List Float} {value unit : ℕ} {ps qs : List ℕ}
  {x : Except CompileError α} {f : α → Except CompileError β}

/-! ### The products -/

/-- The products of rounding to multiples of a unit: twice the remainder, and the multiple. -/
def roundingProducts (value unit : ℕ) : List ℕ :=
  [2 * (value % unit), nearestMultiple value unit]

/-- The products of rounding one value after the other, up to the first that comes out as zero. -/
def productsUntilZero (unit : ℕ) : List ℕ → List ℕ
  | [] => []
  | value :: values => roundingProducts value unit ++
    if nearestMultiple value unit = 0 then [] else productsUntilZero unit values

/-- The products for multiples of the slowest: of the granularity, the longest period, and its parts. -/
def multipleProducts (c : Config) (fs : List Float) : List ℕ :=
  let grid := c.roundingCycles * c.quantum
  let longest := Binary64.roundToWord (Signal.reciprocal (slowest fs))
  let duration := nearestMultiple longest grid
  grid :: (roundingProducts longest grid ++ if duration = 0 then [] else
    productsUntilZero c.quantum (fs.map (partOf duration (slowest fs))))

/-- The products for a least common multiple: of the granularity, and of all periods. -/
def commonProducts (c : Config) (fs : List Float) : List ℕ :=
  let grid := c.roundingCycles * c.quantum
  grid :: productsUntilZero grid (fs.map (cutPeriod c))

/-- The products of finding a duration, the way that is taken for these frequencies. -/
def products (c : Config) (fs : List Float) : List ℕ :=
  if areMultiples c fs then multipleProducts c fs else commonProducts c fs

/-! ### Outcomes -/

/-- Work fails as synchronizing does, if at all, as long as its products fit a word, and it overflows if
one of them does not. -/
inductive Outcome (ps : List ℕ) (x : Except CompileError α) : Prop
  | fits (hps : ∀ p ∈ ps, p < wordLimit) (hkind : ∀ e, x = .error e → e.kind = .synchronization)
  | overflows {p : ℕ} (hp : p ∈ ps) (hle : wordLimit ≤ p) (h : x = .error (.arithmetic .overflow))

/-- Two stages, where the second one forms no products after a failure of the first. -/
theorem Outcome.bind (hx : Outcome ps x)
    (hstop : ∀ e, x = .error e → e.kind = .synchronization → qs = [])
    (hf : ∀ a, x = .ok a → Outcome qs (f a)) : Outcome (ps ++ qs) (x >>= f) := by
  cases hx with
  | overflows hp hle h =>
    rw [h]
    exact .overflows (List.mem_append_left _ hp) hle rfl
  | fits hps hkind =>
    cases x with
    | error e =>
      rw [hstop e rfl (hkind e rfl), List.append_nil]
      refine .fits hps ?_
      rintro _ ⟨⟩
      exact hkind e rfl
    | ok a =>
      cases hf a rfl with
      | fits hqs hkind => exact .fits (List.forall_mem_append.mpr ⟨hps, hqs⟩) hkind
      | overflows hp hle h => exact .overflows (List.mem_append_right _ hp) hle h

/-- A stage without products in the end. -/
theorem Outcome.bind_last (hx : Outcome ps x)
    (hf : ∀ a, x = .ok a → ∀ e, f a = .error e → e.kind = .synchronization) :
    Outcome ps (x >>= f) := by
  rw [← List.append_nil ps]
  exact hx.bind (fun _ _ _ => rfl) fun a ha => .fits (List.forall_mem_nil _) (hf a ha)

theorem Outcome.eq_overflow_iff (hx : Outcome ps x) :
    x = .error (.arithmetic .overflow) ↔ ∃ p ∈ ps, wordLimit ≤ p := by
  cases hx with
  | overflows hp hle h => exact ⟨fun _ => ⟨_, hp, hle⟩, fun _ => h⟩
  | fits hps hkind =>
    constructor
    · intro h
      cases hkind _ h
    · rintro ⟨p, hp, hle⟩
      exact absurd (hps p hp) (Nat.not_lt.mpr hle)

theorem Outcome.kind_of_lt (hx : Outcome ps x) (hps : ∀ p ∈ ps, p < wordLimit) {e : CompileError}
    (h : x = .error e) : e.kind = .synchronization := by
  cases hx with
  | fits _ hkind => exact hkind e h
  | overflows hp hle _ => exact absurd (hps _ hp) (Nat.not_lt.mpr hle)

/-! ### Stages -/

/-- Rounds one period, which must not come out as zero. -/
def roundPeriod (value unit : ℕ) (fault : SyncFault) : Except CompileError ℕ := do
  let period ← CompileError.ofArithmetic (roundToMultiple value unit)
  if period = 0 then
    throw (.synchronization fault)
  return period

theorem roundToMultiple_eq (hunit : 0 < unit) (value : ℕ) :
    (∀ p ∈ roundingProducts value unit, p < wordLimit) ∧
        roundToMultiple value unit = .ok (nearestMultiple value unit) ∨
      (∃ p ∈ roundingProducts value unit, wordLimit ≤ p) ∧
        roundToMultiple value unit = .error .overflow := by
  have hfits : (∀ p ∈ roundingProducts value unit, p < wordLimit) ↔
      2 * (value % unit) < wordLimit ∧ nearestMultiple value unit < wordLimit := by
    rw [roundingProducts, List.forall_mem_cons, List.forall_mem_singleton]
  rw [roundToMultiple_eq_ite hunit]
  by_cases hps : ∀ p ∈ roundingProducts value unit, p < wordLimit
  · exact .inl ⟨hps, if_pos (hfits.mp hps)⟩
  · refine .inr ⟨?_, if_neg (mt hfits.mpr hps)⟩
    simpa using hps

theorem roundPeriod_eq_ok {fault : SyncFault} {period : ℕ}
    (h : roundPeriod value unit fault = .ok period) :
    nearestMultiple value unit = period ∧ period ≠ 0 := by
  obtain ⟨r, hround, h⟩ := bind_eq_ok_iff.mp h
  obtain ⟨hne, h⟩ := guard_eq_ok_iff.mp h
  cases h
  exact ⟨(eq_nearestMultiple_of_roundToMultiple (mapError_eq_ok_iff.mp hround)).symm, hne⟩

theorem outcome_roundPeriod (hunit : 0 < unit) (value : ℕ) (fault : SyncFault) :
    Outcome (roundingProducts value unit) (roundPeriod value unit fault) := by
  unfold roundPeriod
  rcases roundToMultiple_eq hunit value with ⟨hps, hround⟩ | ⟨⟨p, hp, hle⟩, hround⟩
  · refine .fits hps fun e he => ?_
    rw [hround] at he
    rcases bind_eq_error_iff.mp he with he | ⟨r, -, he⟩
    · cases he
    · rcases guard_eq_error_iff.mp he with ⟨-, rfl⟩ | ⟨-, he⟩
      · rfl
      · cases he
  · rw [hround]
    exact .overflows hp hle rfl

/-- Rounding can fail as synchronizing does only where the period comes out as zero. -/
theorem nearestMultiple_eq_zero {fault : SyncFault} {e : CompileError}
    (h : roundPeriod value unit fault = .error e) (hkind : e.kind = .synchronization) :
    nearestMultiple value unit = 0 := by
  rcases bind_eq_error_iff.mp h with h | ⟨r, hround, h⟩
  · rw [kind_of_ofArithmetic h] at hkind
    cases hkind
  · rcases guard_eq_error_iff.mp h with ⟨hzero, -⟩ | ⟨-, h⟩
    · rw [← eq_nearestMultiple_of_roundToMultiple (mapError_eq_ok_iff.mp hround), hzero]
    · cases h

/-- All periods of a list, rounded in turn. -/
theorem outcome_mapM (hunit : 0 < unit) (value : Float → ℕ) (fault : Float → SyncFault)
    (fs : List Float) :
    Outcome (productsUntilZero unit (fs.map value))
      (fs.mapM fun f => roundPeriod (value f) unit (fault f)) := by
  induction fs with
  | nil => exact .fits (List.forall_mem_nil _) nofun
  | cons f fs ih =>
    -- the run and the list of products stop at the same period, one that comes out as zero
    rw [List.mapM_cons, List.map_cons, productsUntilZero]
    refine (outcome_roundPeriod hunit (value f) (fault f)).bind ?_ ?_
    · intro e he hkind
      rw [if_pos (nearestMultiple_eq_zero he hkind)]
    · intro period hperiod
      obtain ⟨rfl, hne⟩ := roundPeriod_eq_ok hperiod
      rw [if_neg hne]
      exact ih.bind_last fun _ _ _ h => by cases h

/-- Both ways begin with the granularity. -/
theorem outcome_granularity_bind {f : ℕ → Except CompileError α}
    (hf : Outcome qs (f (c.roundingCycles * c.quantum))) :
    Outcome (c.roundingCycles * c.quantum :: qs) (granularity c >>= f) := by
  have hgranularity : Outcome [c.roundingCycles * c.quantum] (granularity c) := by
    unfold granularity Word.mul Word.fit
    by_cases hfits : c.roundingCycles * c.quantum < wordLimit
    · rw [if_pos hfits]
      exact .fits (List.forall_mem_singleton.mpr hfits) nofun
    · rw [if_neg hfits]
      exact .overflows List.mem_cons_self (Nat.not_lt.mp hfits) rfl
  refine hgranularity.bind ?_ ?_
  · intro e he hkind
    rw [kind_of_ofArithmetic he] at hkind
    cases hkind
  · intro grid hgrid
    rw [← (granularity_eq_ok_iff.mp hgrid).2]
    exact hf

theorem kind_of_commonMultiple {periods : List ℕ} {e : CompileError}
    (h : commonMultiple c periods = .error e) : e.kind = .synchronization := by
  unfold commonMultiple at h
  split at h
  · cases h
    rfl
  · split at h
    · cases h
      rfl
    · cases h

section Ways

variable (hquantum : 0 < c.quantum) (hrounding : 0 < c.roundingCycles)
include hquantum hrounding

theorem outcome_multiplePeriods (fs : List Float) :
    Outcome (multipleProducts c fs) (multiplePeriods c fs) := by
  have hstages : multiplePeriods c fs = granularity c >>= fun grid =>
      roundPeriod (Binary64.roundToWord (Signal.reciprocal (slowest fs))) grid
        (.slowestRoundsToZero (slowest fs) grid) >>= fun duration =>
      fs.mapM (multiplePeriod c duration (slowest fs)) >>= fun periods => pure (duration, periods) := by
    unfold multiplePeriods roundPeriod
    simp only [bind_assoc]
    congr 1
    funext grid
    congr 1
    funext duration
    split <;> rfl
  rw [hstages]
  refine outcome_granularity_bind ((outcome_roundPeriod (Nat.mul_pos hrounding hquantum) _ _).bind ?_ ?_)
  · intro e he hkind
    rw [if_pos (nearestMultiple_eq_zero he hkind)]
  · intro duration hduration
    obtain ⟨rfl, hne⟩ := roundPeriod_eq_ok hduration
    rw [if_neg hne]
    exact (outcome_mapM hquantum _ (fun f => .periodRoundsToZero f c.quantum) fs).bind_last
      fun _ _ _ h => by cases h

theorem outcome_commonPeriods (fs : List Float) :
    Outcome (commonProducts c fs) (commonPeriods c fs) := by
  unfold commonPeriods roundedPeriods
  have hperiods : Outcome (commonProducts c fs) (granularity c >>= fun grid =>
      fs.mapM (roundedPeriod c grid)) :=
    outcome_granularity_bind (outcome_mapM (Nat.mul_pos hrounding hquantum) _ _ fs)
  refine hperiods.bind_last fun periods _ e he => ?_
  rcases bind_eq_error_iff.mp he with he | ⟨duration, -, he⟩
  · exact kind_of_commonMultiple he
  · cases he

/-- Finding a duration, either way. -/
theorem outcome_findPeriods (fs : List Float) : Outcome (products c fs) (findPeriods c fs) := by
  unfold products findPeriods
  split
  · exact outcome_multiplePeriods hquantum hrounding fs
  · exact outcome_commonPeriods hquantum hrounding fs

end Ways

/-! ### Numbers that leave room -/

theorem roundingProducts_lt (hunit : 0 < unit) (hle : unit ≤ 2 ^ 62) (hvalue : value ≤ 2 ^ 63) :
    ∀ p ∈ roundingProducts value unit, p < wordLimit := by
  have hremainder := Nat.mod_lt value hunit
  have hnear : 2 * nearestMultiple value unit ≤ 2 * value + unit :=
    (isNearest_halfEvenDiv hunit value).below_le
  unfold roundingProducts wordLimit
  rw [List.forall_mem_cons, List.forall_mem_singleton]
  exact ⟨by omega, by omega⟩

theorem productsUntilZero_lt (hunit : 0 < unit) (hle : unit ≤ 2 ^ 62) {values : List ℕ}
    (hvalues : ∀ v ∈ values, v ≤ 2 ^ 63) : ∀ p ∈ productsUntilZero unit values, p < wordLimit := by
  induction values with
  | nil => exact List.forall_mem_nil _
  | cons value values ih =>
    obtain ⟨hvalue, hvalues⟩ := List.forall_mem_cons.mp hvalues
    refine List.forall_mem_append.mpr ⟨roundingProducts_lt hunit hle hvalue, ?_⟩
    split
    · exact List.forall_mem_nil _
    · exact ih hvalues

/-- The part of a duration is no longer than the duration, up to rounding it to a double. -/
theorem partOf_le {duration : ℕ} {fmin f : Float} (hpos : 0 < duration) (hle : duration ≤ 2 ^ 63)
    (hfmin : isPositive fmin = true) (hf : isPositive f = true) (hrank : rank fmin ≤ rank f) :
    partOf duration fmin f ≤ 2 ^ 63 := by
  obtain ⟨p, q, hp, hq, hppos, hpq⟩ := Binary64.exists_values_of_rank_le hfmin hf hrank
  have htop : Binary64.IsDouble ((2 ^ 63 : ℕ) : ℚ) := by
    exact_mod_cast Binary64.isDouble_two_zpow (e := 63) (by norm_num) (by norm_num)
  have hbound : ∀ {t : ℚ}, t ≤ (2 ^ 63 : ℕ) → t < 2 ^ (1023 : ℤ) := by
    intro t ht
    refine Binary64.lt_zpow_of_lt_pow (k := 64) (ht.trans_lt ?_) (by norm_num)
    norm_num
  have hduration : (duration : ℚ) ≤ (2 ^ 63 : ℕ) := by exact_mod_cast hle
  obtain ⟨d, hd, hdnear⟩ := (Binary64.isRounding_ofNat hpos).of_lt (hbound hduration)
  have hdle : d ≤ (2 ^ 63 : ℕ) := hdnear.ge htop hduration
  have hratio : 1 ≤ q / p := (one_le_div hppos).mpr hpq
  unfold partOf
  cases Binary64.isRounding_div hq hp hppos with
  | infinite hinfinite _ =>
    -- the ratio of two frequencies can be too large for a double
    exact Binary64.roundToWord_le (Binary64.hasValue_div_infinity hd hinfinite) (Nat.cast_nonneg _)
  | @nearest v hv hvnear =>
    have hone : 1 ≤ v := by
      have hdouble : Binary64.IsDouble ((1 : ℕ) : ℚ) := Binary64.isDouble_natCast (by norm_num)
      exact_mod_cast hvnear.le hdouble (by exact_mod_cast hratio)
    have hpart : d / v ≤ (2 ^ 63 : ℕ) := (div_le_self hd.nonneg hone).trans hdle
    obtain ⟨w, hw, hwnear⟩ :=
      (Binary64.isRounding_div hd hv (zero_lt_one.trans_le hone)).of_lt (hbound hpart)
    exact Binary64.roundToWord_le hw (hwnear.ge htop hpart)

theorem products_lt (hquantum : 0 < c.quantum) (hrounding : 0 < c.roundingCycles) (hne : fs ≠ [])
    (hpos : ∀ f ∈ fs, isPositive f = true) (hgrid : c.roundingCycles * c.quantum ≤ 2 ^ 62)
    (hperiods : ∀ f ∈ fs, Binary64.roundToWord (Signal.reciprocal f) ≤ 2 ^ 62) :
    ∀ p ∈ products c fs, p < wordLimit := by
  have hunit : 0 < c.roundingCycles * c.quantum := Nat.mul_pos hrounding hquantum
  have hgridfits : c.roundingCycles * c.quantum < wordLimit := by
    unfold wordLimit
    omega
  have hquantumle : c.quantum ≤ 2 ^ 62 := (Nat.le_mul_of_pos_left _ hrounding).trans hgrid
  unfold products
  split
  · obtain ⟨hmem, hleast⟩ := isLeast_slowest hne hpos
    have hlongest := hperiods _ hmem
    refine List.forall_mem_cons.mpr ⟨hgridfits, List.forall_mem_append.mpr
      ⟨roundingProducts_lt hunit hgrid (by omega), ?_⟩⟩
    split
    · exact List.forall_mem_nil _
    · next hduration =>
      have hnear := (isNearest_halfEvenDiv hunit
        (Binary64.roundToWord (Signal.reciprocal (slowest fs)))).below_le
      have hle : nearestMultiple (Binary64.roundToWord (Signal.reciprocal (slowest fs)))
          (c.roundingCycles * c.quantum) ≤ 2 ^ 63 := by
        unfold nearestMultiple
        omega
      refine productsUntilZero_lt hquantum hquantumle ?_
      intro v hv
      obtain ⟨f, hf, rfl⟩ := List.mem_map.mp hv
      exact partOf_le (Nat.pos_of_ne_zero hduration) hle (hpos _ hmem) (hpos f hf) (hleast f hf)
  · refine List.forall_mem_cons.mpr ⟨hgridfits, productsUntilZero_lt hunit hgrid ?_⟩
    intro v hv
    obtain ⟨f, hf, rfl⟩ := List.mem_map.mp hv
    have hle := hperiods f hf
    have hcut : cutPeriod c f ≤ Binary64.roundToWord (Signal.reciprocal f) := Nat.sub_le _ _
    omega

/-! ### Signals -/

theorem outcome_ofSignals (hvalid : c.validate = .ok ()) {signals masking : List Signal}
    (hne : signals ++ masking ≠ []) :
    Outcome (products c ((signals ++ masking).map Signal.frequency))
      (ofSignals c none signals masking) := by
  obtain ⟨hquantum, -, -, hrounding⟩ := Config.validate_eq_ok hvalid
  have hsettle : Outcome (products c ((signals ++ masking).map Signal.frequency))
      (settle c none ((signals ++ masking).map Signal.frequency)) := by
    unfold settle
    rw [if_neg (by simpa using hne)]
    exact (outcome_findPeriods hquantum hrounding _).bind_last fun _ _ _ h => by cases h
  unfold ofSignals ofFrequencies
  refine hsettle.bind_last ?_
  rintro ⟨duration, frequencies⟩ - e he
  have hcycles : Word.div duration c.quantum = .ok (duration / c.quantum) := if_neg hquantum.ne'
  simp only [hcycles] at he
  cases he

theorem isPositive_of_build {r : SignalRequest} {s : Signal} (h : Signal.build r = .ok s) :
    isPositive s.frequency = true := by
  rw [Signal.frequency_of_build h]
  unfold Signal.build at h
  exact (unless_eq_ok_iff.mp h).1

/-- **The range of synchronizing.**  Where no duration is given, synchronizing overflows if one of the
products on the way does not fit a word; otherwise it succeeds or fails as synchronizing does.  All of
them fit if neither the granularity nor a period is longer than `2 ^ 62` ns. -/
theorem ofSignals_products (c : Config) (signals masking : List Signal) (hvalid : c.validate = .ok ())
    (hne : signals ++ masking ≠ []) (hbuilt : ∀ s ∈ signals ++ masking, ∃ r, Signal.build r = .ok s) :
    (ofSignals c none signals masking = .error (.arithmetic .overflow) ↔
        ∃ p ∈ products c ((signals ++ masking).map Signal.frequency), wordLimit ≤ p) ∧
      ((∀ p ∈ products c ((signals ++ masking).map Signal.frequency), p < wordLimit) →
        ∀ e, ofSignals c none signals masking = .error e → e.kind = .synchronization) ∧
      (c.roundingCycles * c.quantum ≤ 2 ^ 62 →
        (∀ s ∈ signals ++ masking, Binary64.roundToWord s.period ≤ 2 ^ 62) →
        ∀ p ∈ products c ((signals ++ masking).map Signal.frequency), p < wordLimit) := by
  have houtcome := outcome_ofSignals hvalid hne
  obtain ⟨hquantum, -, -, hrounding⟩ := Config.validate_eq_ok hvalid
  refine ⟨houtcome.eq_overflow_iff, fun hps e he => houtcome.kind_of_lt hps he, ?_⟩
  intro hgrid hperiods
  refine products_lt hquantum hrounding (by simpa using hne) ?_ hgrid ?_
  · intro f hf
    obtain ⟨s, hs, rfl⟩ := List.mem_map.mp hf
    obtain ⟨r, hr⟩ := hbuilt s hs
    exact isPositive_of_build hr
  · intro f hf
    obtain ⟨s, hs, rfl⟩ := List.mem_map.mp hf
    exact hperiods s hs

theorem ofSignals_products_octave :
    ({} : Config).validate = .ok () ∧ [tone 10 0] ++ [tone 20 0] ≠ [] ∧
      (∀ s ∈ [tone 10 0] ++ [tone 20 0], ∃ r, Signal.build r = .ok s) ∧
      ∀ p ∈ products {} ([tone 10 0, tone 20 0].map Signal.frequency), p < wordLimit := by
  have hbuilt : ∀ s ∈ [tone 10 0] ++ [tone 20 0], ∃ r, Signal.build r = .ok s := by
    refine List.forall_mem_cons.mpr ⟨⟨{ frequency := 10, channels := [0] }, rfl⟩, ?_⟩
    exact List.forall_mem_singleton.mpr ⟨{ frequency := 20, channels := [0] }, rfl⟩
  have hperiods : ([tone 10 0] ++ [tone 20 0]).all
      (fun s => Binary64.roundToWord s.period ≤ 2 ^ 62) = true := by decide +kernel
  obtain ⟨-, -, hfits⟩ :=
    ofSignals_products {} [tone 10 0] [tone 20 0] rfl (List.cons_ne_nil _ _) hbuilt
  refine ⟨rfl, List.cons_ne_nil _ _, hbuilt, hfits (by decide) ?_⟩
  simpa using hperiods

/-- The first period saturates, and the multiple of the grid next to the largest word is no word.  The
second one fits with its multiple, and only twice its remainder does not. -/
theorem products_overflow :
    (({} : Config).validate = .ok () ∧
      Signal.build { frequency := 1e-12, channels := [0] } = .ok (tone 1e-12 0) ∧
      (∃ p ∈ products {} ([tone 1e-12 0].map Signal.frequency), wordLimit ≤ p) ∧
      ∃ e, ofSignals {} none [tone 1e-12 0] [] = .error e ∧ e.kind = .arithmetic) ∧
    ({ roundingCycles := 900000000000000000 } : Config).validate = .ok () ∧
      Signal.build { frequency := 1e-10, channels := [0] } = .ok (tone 1e-10 0) ∧
      products { roundingCycles := 900000000000000000 } ([tone 1e-10 0].map Signal.frequency) =
        [18000000000000000000, 20000000000000000000, 18000000000000000000, 0, 18000000000000000000] ∧
      ∃ e, ofSignals { roundingCycles := 900000000000000000 } none [tone 1e-10 0] [] = .error e ∧
        e.kind = .arithmetic := by
  have hsome : (products {} ([tone 1e-12 0].map Signal.frequency)).any (wordLimit ≤ ·) = true := by
    decide +kernel
  refine ⟨⟨rfl, rfl, by simpa using hsome, ?_⟩, rfl, rfl, by decide +kernel, ?_⟩
  · exact failure?_eq_some_iff.mp (by decide +kernel)
  · exact failure?_eq_some_iff.mp (by decide +kernel)

end Synchrony

end PulseSequencer
