import Mathlib

/-! Where the last line of a text begins, and how long the lines before it are. -/
namespace LastLine

variable {α : Type*} [DecidableEq α] {newline : α} {text front rest : List α}

/-- The index just after the last newline. -/
def lineStart (newline : α) (text : List α) : ℕ := (text.rdropWhile (· ≠ newline)).length

/-- What ends where a line begins. -/
def Ends (newline : α) (front : List α) : Prop := front = [] ∨ ∃ lines, front = lines++[newline]

theorem exists_cut (newline : α) (text : List α) : ∃ front rest, text = front++rest ∧
    Ends newline front ∧ newline ∉ rest ∧ lineStart newline text = front.length := by
  refine ⟨text.rdropWhile (· ≠ newline),text.rtakeWhile (· ≠ newline),
    (List.rdropWhile_append_rtakeWhile ..).symm,?_,?_,rfl⟩
  · by_cases hnil : text.rdropWhile (· ≠ newline) = []
    · exact .inl hnil
    · have hlast := List.rdropWhile_last_not (fun c => decide (c ≠ newline)) text hnil
      refine .inr ⟨(text.rdropWhile (· ≠ newline)).dropLast,?_⟩
      rw [← List.dropLast_append_getLast hnil]
      simpa using hlast
  · intro hmem
    simpa using List.mem_rtakeWhile_imp hmem

theorem lineStart_append (h : newline ∉ rest) (text : List α) :
    lineStart newline (text++rest) = lineStart newline text := by
  induction rest using List.reverseRecOn with
  | nil => rw [List.append_nil]
  | append_singleton rest c ih =>
    rw [List.mem_append,List.mem_singleton,not_or] at h
    rw [lineStart,← List.append_assoc,List.rdropWhile_concat_pos _ _ _ (by simpa using Ne.symm h.2)]
    exact ih h.1

theorem lineStart_ends (h : Ends newline front) : lineStart newline front = front.length := by
  rcases h with rfl | ⟨lines,rfl⟩
  · rfl
  · rw [lineStart,List.rdropWhile_concat_neg _ _ _ (by simp)]

omit [DecidableEq α] in
theorem Ends.of_cons {c : α} (hc : c ≠ newline) (h : Ends newline (c::front)) :
    Ends newline front ∧ newline ∈ front := by
  obtain ⟨lines,hlines⟩ := h.resolve_left (by simp)
  cases lines with
  | nil => exact absurd (List.cons.inj hlines).1 hc
  | cons d lines =>
    obtain ⟨-,rfl⟩ := List.cons.inj hlines
    exact ⟨.inr ⟨lines,rfl⟩,by simp⟩

theorem sum_lines (h : Ends newline front) (rest : List α) :
    ((((front++rest).splitOn newline).take (front.count newline)).map fun line => line.length+1).sum =
      front.length := by
  induction front with
  | nil => simp
  | cons c front ih =>
    rw [List.cons_append,List.splitOn_cons_eq_if_modifyHead]
    by_cases hc : c = newline
    · subst hc
      have hends : Ends c front := by
        rcases h with h | ⟨lines,hlines⟩
        · cases h
        · cases lines with
          | nil => exact .inl (List.cons.inj hlines).2
          | cons d lines => exact .inr ⟨lines,(List.cons.inj hlines).2⟩
      rw [if_pos (by simp),List.count_cons_self,List.take_succ_cons,List.map_cons,List.sum_cons,ih hends,
        List.length_nil,List.length_cons]
      omega
    · obtain ⟨hends,hmem⟩ := h.of_cons hc
      obtain ⟨n,hn⟩ : ∃ n, front.count newline = n+1 :=
        ⟨front.count newline-1,by have := List.count_pos_iff.mpr hmem; omega⟩
      have hsum := ih hends
      rw [hn] at hsum
      rw [if_neg (by simpa using hc),List.count_cons_of_ne (by simpa using hc),hn]
      obtain ⟨line,lines,hlines⟩ := List.exists_cons_of_ne_nil (List.splitOn_ne_nil newline (front++rest))
      rw [hlines] at hsum ⊢
      simp only [List.modifyHead_cons,List.take_succ_cons,List.map_cons,List.sum_cons,
        List.length_cons] at hsum ⊢
      omega

end LastLine
