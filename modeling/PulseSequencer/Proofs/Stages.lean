import PulseSequencer.Error
import Mathlib.Data.List.Forall2

/-!
# Work in stages

Work that can fail is done in stages: one after the other, or the same one for every member of a list.
These lemmas say what it means that all stages succeed, or that one of them fails.
-/

namespace PulseSequencer

variable {ε ε' α β : Type}

theorem bind_eq_ok_iff {x : Except ε α} {f : α → Except ε β} {b : β} :
    (x >>= f) = .ok b ↔ ∃ a, x = .ok a ∧ f a = .ok b := by
  cases x with
  | error e => simp [bind, Except.bind]
  | ok a => simp [bind, Except.bind]

theorem bind_eq_error_iff {x : Except ε α} {f : α → Except ε β} {e : ε} :
    (x >>= f) = .error e ↔ x = .error e ∨ ∃ a, x = .ok a ∧ f a = .error e := by
  cases x with
  | error e' => simp [bind, Except.bind]
  | ok a => simp [bind, Except.bind]

/-- A check that throws, in front of further stages. -/
theorem guard_eq_ok_iff {bad : Prop} [Decidable bad] {e : ε} {f : Unit → Except ε β} {b : β} :
    (if bad then throw e >>= f else f ()) = .ok b ↔ ¬bad ∧ f () = .ok b := by
  by_cases h : bad
  · simp [h, bind, Except.bind, throw, throwThe, MonadExceptOf.throw]
  · simp [h]

theorem guard_eq_error_iff {bad : Prop} [Decidable bad] {e e' : ε} {f : Unit → Except ε β} :
    (if bad then throw e >>= f else f ()) = .error e' ↔ bad ∧ e = e' ∨ ¬bad ∧ f () = .error e' := by
  by_cases h : bad
  · simp [h, bind, Except.bind, throw, throwThe, MonadExceptOf.throw]
  · simp [h]

theorem unless_eq_ok_iff {good : Prop} [Decidable good] {e : ε} {f : Unit → Except ε β} {b : β} :
    (if good then f () else throw e >>= f) = .ok b ↔ good ∧ f () = .ok b := by
  by_cases h : good
  · simp [h]
  · simp [h, bind, Except.bind, throw, throwThe, MonadExceptOf.throw]

theorem check_eq_ok_iff {bad : Prop} [Decidable bad] {e : ε} :
    (if bad then throw e else pure () : Except ε Unit) = .ok () ↔ ¬bad := by
  by_cases h : bad
  · simp [h, throw, throwThe, MonadExceptOf.throw]
  · simp [h, pure, Except.pure]

theorem map_eq_ok_iff {x : Except ε α} {f : α → β} {b : β} :
    x.map f = .ok b ↔ ∃ a, x = .ok a ∧ f a = b := by
  cases x <;> simp [Except.map]

theorem mapError_eq_ok_iff {x : Except ε α} {f : ε → ε'} {a : α} :
    x.mapError f = .ok a ↔ x = .ok a := by
  cases x <;> simp [Except.mapError]

theorem mapError_eq_error_iff {x : Except ε α} {f : ε → ε'} {e : ε'} :
    x.mapError f = .error e ↔ ∃ fault, x = .error fault ∧ f fault = e := by
  cases x <;> simp [Except.mapError]

theorem toOption_eq_some_iff {x : Except ε α} {a : α} : x.toOption = some a ↔ x = .ok a := by
  cases x <;> simp [Except.toOption]

theorem forall₂_of_mapM {f : α → Except ε β} {xs : List α} {ys : List β}
    (h : xs.mapM f = .ok ys) : List.Forall₂ (fun x y => f x = .ok y) xs ys := by
  induction xs generalizing ys with
  | nil =>
    cases h
    exact .nil
  | cons x xs ih =>
    rw [List.mapM_cons, bind_eq_ok_iff] at h
    obtain ⟨y, hy, h⟩ := h
    obtain ⟨ys', hys, h⟩ := bind_eq_ok_iff.mp h
    cases h
    exact .cons hy (ih hys)

theorem mapM_eq_ok_iff {f : α → Except ε β} {xs : List α} {ys : List β} :
    xs.mapM f = .ok ys ↔ List.Forall₂ (fun x y => f x = .ok y) xs ys := by
  refine ⟨forall₂_of_mapM, fun h => ?_⟩
  induction h with
  | nil => rfl
  | @cons x y xs ys hxy _ ih =>
    rw [List.mapM_cons]
    exact bind_eq_ok_iff.mpr ⟨y, hxy, bind_eq_ok_iff.mpr ⟨ys, ih, rfl⟩⟩

/-- The error of all stages is that of the first one that fails. -/
theorem exists_first_of_mapM_eq_error {f : α → Except ε β} {xs : List α} {e : ε}
    (h : xs.mapM f = .error e) : ∃ (k : Nat) (x : α), xs[k]? = some x ∧ f x = .error e ∧
      ∀ j < k, ∀ x', xs[j]? = some x' → ∃ y, f x' = .ok y := by
  induction xs with
  | nil => cases h
  | cons x xs ih =>
    rw [List.mapM_cons] at h
    rcases bind_eq_error_iff.mp h with hx | ⟨y, hy, h⟩
    · exact ⟨0, x, rfl, hx, by simp⟩
    · rcases bind_eq_error_iff.mp h with hxs | ⟨ys, -, h⟩
      · obtain ⟨k, x', hx', hf, hbefore⟩ := ih hxs
        refine ⟨k + 1, x', hx', hf, fun j hj z hz => ?_⟩
        cases j with
        | zero => exact ⟨y, (Option.some.inj hz) ▸ hy⟩
        | succ j => exact hbefore j (Nat.lt_of_succ_lt_succ hj) z hz
      · cases h

theorem exists_of_mapM_eq_error {f : α → Except ε β} {xs : List α} {e : ε}
    (h : xs.mapM f = .error e) : ∃ x ∈ xs, f x = .error e := by
  obtain ⟨k, x, hx, hf, -⟩ := exists_first_of_mapM_eq_error h
  exact ⟨x, List.mem_of_getElem? hx, hf⟩

/-! ### Members of two lists side by side -/

section Pairs

variable {R : α → β → Prop} {xs : List α} {ys : List β}

theorem exists_left_of_mem (h : List.Forall₂ R xs ys) {y : β} (hy : y ∈ ys) : ∃ x ∈ xs, R x y := by
  induction h with
  | nil => cases hy
  | @cons x y' xs ys hxy _ ih =>
    rcases List.mem_cons.mp hy with rfl | hy
    · exact ⟨x, List.mem_cons_self, hxy⟩
    · obtain ⟨x', hx', hxy'⟩ := ih hy
      exact ⟨x', List.mem_cons_of_mem x hx', hxy'⟩

theorem exists_right_of_mem (h : List.Forall₂ R xs ys) {x : α} (hx : x ∈ xs) : ∃ y ∈ ys, R x y :=
  exists_left_of_mem (R := flip R) h.flip hx

theorem exists_getElem?_right (h : List.Forall₂ R xs ys) {k : Nat} {x : α} (hx : xs[k]? = some x) :
    ∃ y, ys[k]? = some y ∧ R x y := by
  obtain ⟨hk, rfl⟩ := List.getElem?_eq_some_iff.mp hx
  have hk' : k < ys.length := h.length_eq ▸ hk
  exact ⟨ys[k], List.getElem?_eq_getElem hk', h.get hk hk'⟩

theorem exists_getElem?_left (h : List.Forall₂ R xs ys) {k : Nat} {y : β} (hy : ys[k]? = some y) :
    ∃ x, xs[k]? = some x ∧ R x y :=
  exists_getElem?_right (R := flip R) h.flip hy

theorem map_eq_map_of_forall₂ {γ : Type} {f : α → γ} {g : β → γ} (h : List.Forall₂ R xs ys)
    (hR : ∀ x y, R x y → g y = f x) : ys.map g = xs.map f := by
  induction h with
  | nil => rfl
  | cons hxy _ ih => rw [List.map_cons, List.map_cons, hR _ _ hxy, ih]

end Pairs

theorem exists_of_mem_mapM {f : α → Except ε β} {xs : List α} {ys : List β} {y : β}
    (h : xs.mapM f = .ok ys) (hy : y ∈ ys) : ∃ x ∈ xs, f x = .ok y :=
  exists_left_of_mem (forall₂_of_mapM h) hy

end PulseSequencer
