import Mathlib.Data.List.TakeWhile

/-! Cutting a list at the first occurrence of an element, and the optional part that such an
element introduces. -/
namespace Split

variable {α : Type*}

/-- An optional part behind the `c` that introduces it. -/
def lead (c : α) : Option (List α) → List α
  | none => []
  | some text => c::text

@[simp] theorem lead_none (c : α) : lead c none = [] := rfl

@[simp] theorem lead_some (c : α) (text : List α) : lead c (some text) = c::text := rfl

theorem mem_lead {c d : α} {o : Option (List α)} : d ∈ lead c o ↔ ∃ text ∈ o, d = c ∨ d ∈ text := by
  cases o <;> simp

variable [DecidableEq α]

/-- What stands before the first `c`, and what follows it if there is one. -/
def splitFirst (c : α) (text : List α) : List α × Option (List α) :=
  (text.takeWhile (· ≠ c),(text.dropWhile (· ≠ c)).tail?)

/-- A part without `c`, and an optional one behind the first `c`, can be told apart. -/
theorem splitFirst_lead {c : α} {pre : List α} (h : c ∉ pre) (o : Option (List α)) :
    splitFirst c (pre++lead c o) = (pre,o) := by
  have hpre : ∀ a ∈ pre, decide (a ≠ c) = true := fun a ha => by
    simpa using fun he : a = c => h (he ▸ ha)
  simp only [splitFirst,List.takeWhile_append_of_pos hpre,List.dropWhile_append_of_pos hpre]
  cases o <;> simp

theorem splitFirst_append (c : α) (text : List α) :
    (splitFirst c text).1++lead c (splitFirst c text).2 = text := by
  have htext := List.takeWhile_append_dropWhile (p := fun a => decide (a ≠ c)) (l := text)
  simp only [splitFirst]
  cases hdrop : text.dropWhile (· ≠ c) with
  | nil =>
    rw [hdrop] at htext
    simpa using htext
  | cons d rest =>
    have hd := List.head?_dropWhile_not (fun a => decide (a ≠ c)) text
    rw [hdrop] at htext hd
    have hdc : d = c := by simpa using hd
    simpa [hdc] using htext

theorem splitFirst_not_mem (c : α) (text : List α) : c ∉ (splitFirst c text).1 := by
  intro hc
  simpa using List.mem_takeWhile_imp hc

theorem mem_of_splitFirst {c d : α} {text : List α} (h : d ∈ (splitFirst c text).1) : d ∈ text := by
  rw [← splitFirst_append c text]
  exact List.mem_append_left _ h

theorem mem_of_splitFirst_some {c d : α} {text rest : List α} (h : (splitFirst c text).2 = some rest)
    (hd : d ∈ rest) : d ∈ text := by
  rw [← splitFirst_append c text,h]
  exact List.mem_append_right _ (List.mem_cons_of_mem c hd)

/-- The pieces between the `c`s, each with a `c` before it. -/
theorem splitOn_flatMap (c : α) (text : List α) : (text.splitOn c).flatMap (c :: ·) = c::text := by
  induction text with
  | nil => rfl
  | cons d text ih =>
    rw [List.splitOn_cons_eq_if_modifyHead]
    split
    · rename_i hd
      obtain rfl : d = c := by simpa using hd
      simpa using ih
    · obtain ⟨s,pieces,hs⟩ := List.exists_cons_of_ne_nil (List.splitOn_ne_nil c text)
      simp only [hs,List.flatMap_cons,List.modifyHead_cons,List.cons_append,List.cons.injEq,
        true_and] at ih ⊢
      exact ih

/-- Every element but `c` is in one of the pieces. -/
theorem mem_of_splitOn {c d : α} {text : List α} (h : d ∈ text) :
    d = c ∨ ∃ piece ∈ text.splitOn c, d ∈ piece := by
  have hd : d ∈ (text.splitOn c).flatMap (c :: ·) := by
    rw [splitOn_flatMap]
    exact List.mem_cons_of_mem c h
  obtain ⟨piece,hpiece,hd⟩ := List.mem_flatMap.mp hd
  rcases List.mem_cons.mp hd with rfl | hd
  · exact .inl rfl
  · exact .inr ⟨piece,hpiece,hd⟩

end Split
