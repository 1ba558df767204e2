/-!
# Cutting a text into fields

`fields` cuts at every occurrence of a separator, `cutAt` at the first one only. Gluing the fields
together again with the separator between them gives the text back (`join_fields`), and no field
holds the separator (`not_mem_of_mem_fields`).
-/

namespace PulseSequencer.Text

/-- The first field of a text and the remaining ones. -/
def splitFields (sep : Char) (cs : List Char) : List Char × List (List Char) :=
  cs.foldr
    (fun c (first, rest) => if c = sep then ([], first :: rest) else (c :: first, rest))
    ([], [])

/-- The fields of a text: what stands between the occurrences of a separator. -/
def fields (sep : Char) (cs : List Char) : List (List Char) :=
  (splitFields sep cs).1 :: (splitFields sep cs).2

/-- What stands before and after the first occurrence of a separator. -/
def cutAt (sep : Char) : List Char → Option (List Char × List Char)
  | [] => none
  | c :: cs => if c = sep then some ([], cs) else (cutAt sep cs).map fun (a, b) => (c :: a, b)

/-- Glues fields together with a separator between them. -/
def joinFields (sep : Char) : List (List Char) → List Char
  | [] => []
  | [f] => f
  | f :: g :: rest => f ++ sep :: joinFields sep (g :: rest)

theorem splitFields_nil (sep : Char) : splitFields sep [] = ([], []) := rfl

theorem splitFields_cons (sep c : Char) (cs : List Char) :
    splitFields sep (c :: cs) =
      if c = sep then ([], fields sep cs)
      else (c :: (splitFields sep cs).1, (splitFields sep cs).2) := rfl

/-- Joining undoes cutting. -/
theorem join_fields (sep : Char) (cs : List Char) : joinFields sep (fields sep cs) = cs := by
  induction cs with
  | nil => rfl
  | cons c cs ih =>
    unfold fields
    rw [splitFields_cons]
    split
    · next h => subst h; simpa [fields, joinFields] using ih
    · cases hrest : (splitFields sep cs).2 with
      | nil => simpa [fields, joinFields, hrest] using ih
      | cons g rest => simpa [fields, joinFields, hrest] using ih

/-- A field holds no separator. -/
theorem not_mem_of_mem_fields {sep : Char} {cs f : List Char} (h : f ∈ fields sep cs) : sep ∉ f := by
  induction cs generalizing f with
  | nil =>
    have : f = [] := by simpa [fields, splitFields_nil] using h
    simp [this]
  | cons c cs ih =>
    unfold fields at h
    rw [splitFields_cons] at h
    split at h
    · rcases List.mem_cons.mp h with rfl | h
      · simp
      · exact ih h
    · next hc =>
      rcases List.mem_cons.mp h with rfl | h
      · have hfirst : sep ∉ (splitFields sep cs).1 := ih (List.mem_cons_self ..)
        simp [hfirst, Ne.symm hc]
      · exact ih (List.mem_cons_of_mem _ h)

end PulseSequencer.Text
