import PulseSequencer.Proofs.Stages

/-!
# Two runs of the same stages

Work that can fail is done twice, on inputs that differ only in their order, in how often they name a
thing, or in what the work does not look at.

* `SameMembers`: two lists name the same things; kept by what is done to each member.
* `Agree`: both runs give results that belong together, or both fail with errors that do.  Stages one
  after the other agree if each of them does (`Agree.bind`), and so does the same stage for every member
  of two such lists (`agree_mapM`) or of two lists side by side (`agree_mapM_forall₂`).
-/

namespace PulseSequencer

/-! ### Lists of the same things -/

section SameMembers

variable {α β : Type} {xs ys xs' ys' : List α}

/-- Two lists with the same members, in any order and any number. -/
def SameMembers (xs ys : List α) : Prop :=
  ∀ x, x ∈ xs ↔ x ∈ ys

theorem SameMembers.symm (h : SameMembers xs ys) : SameMembers ys xs :=
  fun x => (h x).symm

theorem SameMembers.append (h : SameMembers xs ys) (h' : SameMembers xs' ys') :
    SameMembers (xs ++ xs') (ys ++ ys') := by
  intro x
  rw [List.mem_append, List.mem_append, h x, h' x]

theorem SameMembers.map (h : SameMembers xs ys) (f : α → β) :
    SameMembers (xs.map f) (ys.map f) := by
  intro y
  simp only [List.mem_map, h _]

theorem SameMembers.flatMap (h : SameMembers xs ys) (f : α → List β) :
    SameMembers (xs.flatMap f) (ys.flatMap f) := by
  intro y
  simp only [List.mem_flatMap, h _]

theorem SameMembers.filter (h : SameMembers xs ys) (p : α → Bool) :
    SameMembers (xs.filter p) (ys.filter p) := by
  intro x
  rw [List.mem_filter, List.mem_filter, h x]

theorem SameMembers.any (h : SameMembers xs ys) (p : α → Bool) : xs.any p = ys.any p := by
  rw [Bool.eq_iff_iff, List.any_eq_true, List.any_eq_true]
  simp only [h _]

theorem SameMembers.isEmpty (h : SameMembers xs ys) : xs.isEmpty = ys.isEmpty := by
  rw [Bool.eq_iff_iff, List.isEmpty_iff, List.isEmpty_iff, List.eq_nil_iff_forall_not_mem,
    List.eq_nil_iff_forall_not_mem]
  simp only [h _]

end SameMembers

/-! ### Runs that agree -/

section Agree

variable {ε α α' β β' : Type} {E : ε → ε → Prop} {R : α → α' → Prop} {S : β → β' → Prop}

/-- Both runs give results that belong together, or both fail with errors that do. -/
inductive Agree (E : ε → ε → Prop) (R : α → α' → Prop) : Except ε α → Except ε α' → Prop
  | ok {a : α} {a' : α'} (h : R a a') : Agree E R (.ok a) (.ok a')
  | error {e e' : ε} (h : E e e') : Agree E R (.error e) (.error e')

theorem Agree.bind {x : Except ε α} {x' : Except ε α'} {f : α → Except ε β} {f' : α' → Except ε β'}
    (h : Agree E R x x') (hnext : ∀ a a', R a a' → Agree E S (f a) (f' a')) :
    Agree E S (x >>= f) (x' >>= f') := by
  cases h with
  | ok h => exact hnext _ _ h
  | error h => exact .error h

theorem Agree.imp {R' : α → α' → Prop} {x : Except ε α} {x' : Except ε α'} (h : Agree E R x x')
    (hR : ∀ a a', R a a' → R' a a') : Agree E R' x x' := by
  cases h with
  | ok h => exact .ok (hR _ _ h)
  | error h => exact .error h

theorem Agree.eq_ok_iff {x x' : Except ε α} (h : Agree E Eq x x') (a : α) :
    x = .ok a ↔ x' = .ok a := by
  cases h with
  | ok h => rw [h]
  | error h => simp

theorem Agree.of_eq_error {x : Except ε α} {x' : Except ε α'} (h : Agree E R x x') {e e' : ε}
    (he : x = .error e) (he' : x' = .error e') : E e e' := by
  cases h with
  | ok h => cases he
  | error h =>
    cases he
    cases he'
    exact h

/-- The same check in front of further stages. -/
theorem agree_guard {bad : Prop} [Decidable bad] {e : ε} {f : Unit → Except ε β}
    {f' : Unit → Except ε β'} (hE : E e e) (h : Agree E S (f ()) (f' ())) :
    Agree E S (if bad then throw e >>= f else f ()) (if bad then throw e >>= f' else f' ()) := by
  by_cases hbad : bad
  · rw [if_pos hbad, if_pos hbad]
    exact .error hE
  · rw [if_neg hbad, if_neg hbad]
    exact h

/-- A stage that both runs have in common. -/
theorem agree_self (hE : ∀ e, E e e) (x : Except ε α) :
    Agree E (fun a a' => x = .ok a ∧ a = a') x x := by
  cases x with
  | ok a => exact .ok ⟨rfl, rfl⟩
  | error e => exact .error (hE e)

/-- The same stage for all members of two lists: one list cannot have a member that fails without the
other one having it as well. -/
theorem agree_mapM {xs xs' : List α} (h : SameMembers xs xs') {f : α → Except ε β}
    (hE : ∀ x ∈ xs, ∀ x' ∈ xs, ∀ e e', f x = .error e → f x' = .error e' → E e e') :
    Agree E (fun ys ys' => List.Forall₂ (fun x y => f x = .ok y) xs ys ∧
      List.Forall₂ (fun x y => f x = .ok y) xs' ys') (xs.mapM f) (xs'.mapM f) := by
  cases hys : xs.mapM f with
  | ok ys =>
    have hall := forall₂_of_mapM hys
    cases hys' : xs'.mapM f with
    | ok ys' => exact .ok ⟨hall, forall₂_of_mapM hys'⟩
    | error e' =>
      obtain ⟨x', hx', he'⟩ := exists_of_mapM_eq_error hys'
      obtain ⟨y, -, hy⟩ := exists_right_of_mem hall ((h x').mpr hx')
      rw [he'] at hy
      cases hy
  | error e =>
    obtain ⟨x, hx, he⟩ := exists_of_mapM_eq_error hys
    cases hys' : xs'.mapM f with
    | ok ys' =>
      obtain ⟨y, -, hy⟩ := exists_right_of_mem (forall₂_of_mapM hys') ((h x).mp hx)
      rw [he] at hy
      cases hy
    | error e' =>
      obtain ⟨x', hx', he'⟩ := exists_of_mapM_eq_error hys'
      exact .error (hE x hx x' ((h x').mpr hx') e e' he he')

/-- The same stage, member by member. -/
theorem agree_mapM_forall₂ {xs : List α} {xs' : List α'} (h : List.Forall₂ R xs xs')
    {f : α → Except ε β} {f' : α' → Except ε β'} (hf : ∀ x x', R x x' → Agree E S (f x) (f' x')) :
    Agree E (List.Forall₂ S) (xs.mapM f) (xs'.mapM f') := by
  induction h with
  | nil => exact .ok .nil
  | cons hx _ ih =>
    rw [List.mapM_cons, List.mapM_cons]
    exact (hf _ _ hx).bind fun _ _ hy => ih.bind fun _ _ hys => .ok (.cons hy hys)

theorem sameMembers_of_forall₂ {xs xs' : List α} (h : SameMembers xs xs') {f : α → Except ε β}
    {ys ys' : List β} (hys : List.Forall₂ (fun x y => f x = .ok y) xs ys)
    (hys' : List.Forall₂ (fun x y => f x = .ok y) xs' ys') : SameMembers ys ys' := by
  have hsub : ∀ {xs xs' : List α} {ys ys' : List β}, SameMembers xs xs' →
      List.Forall₂ (fun x y => f x = .ok y) xs ys → List.Forall₂ (fun x y => f x = .ok y) xs' ys' →
        ∀ y ∈ ys, y ∈ ys' := by
    intro xs xs' ys ys' h hys hys' y hy
    obtain ⟨x, hx, hfx⟩ := exists_left_of_mem hys hy
    obtain ⟨y', hy', hfx'⟩ := exists_right_of_mem hys' ((h x).mp hx)
    rw [hfx] at hfx'
    cases hfx'
    exact hy'
  exact fun y => ⟨hsub h hys hys' y, hsub h.symm hys' hys y⟩

theorem agree_mapM_sameMembers {xs xs' : List α} (h : SameMembers xs xs') {f : α → Except ε β}
    (hE : ∀ x ∈ xs, ∀ x' ∈ xs, ∀ e e', f x = .error e → f x' = .error e' → E e e') :
    Agree E SameMembers (xs.mapM f) (xs'.mapM f) :=
  (agree_mapM h hE).imp fun _ _ hys => sameMembers_of_forall₂ h hys.1 hys.2

/-- Where no member fails, the results are those of a function. -/
theorem eq_map_of_forall₂ {f : α → Except ε β} {xs : List α} {ys : List β}
    (h : List.Forall₂ (fun x y => f x = .ok y) xs ys) (default : β) :
    ys = xs.map fun x => (f x).toOption.getD default := by
  induction h with
  | nil => rfl
  | @cons x y xs ys hxy _ ih => rw [List.map_cons, ← ih, hxy]; rfl

end Agree

end PulseSequencer
