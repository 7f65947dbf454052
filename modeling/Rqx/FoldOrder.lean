import Mathlib.Data.List.Basic
import Mathlib.Data.List.Perm.Basic

/-! Folds whose steps may refuse an element, over the elements of a collection in any order. -/
namespace FoldOrder

variable {α β ε : Type*}

/-- A step that refuses an element whatever came before it, or goes on. -/
structure Step (α β ε : Type*) where
  refusal : α → Option ε
  apply : β → α → β

namespace Step

variable (step : Step α β ε) {l l' : List α} {a a' : α} {b : β} {e e' : ε}

def run (b : β) (a : α) : Except ε β :=
  match step.refusal a with
  | some e => .error e
  | none => .ok (step.apply b a)

variable {step}

theorem foldlM_run (l : List α) (b : β) : l.foldlM step.run b =
    match l.findSome? step.refusal with
    | some e => .error e
    | none => .ok (l.foldl step.apply b) := by
  induction l generalizing b with
  | nil => rfl
  | cons a l ih =>
    rw [List.foldlM_cons,List.findSome?_cons,run]
    cases step.refusal a with
    | some e => rfl
    | none => exact ih (step.apply b a)

theorem foldlM_accepted (h : ∀ a ∈ l, step.refusal a = none) (b : β) :
    l.foldlM step.run b = .ok (l.foldl step.apply b) := by
  rw [foldlM_run,List.findSome?_eq_none_iff.mpr h]

/-- If all refusals are the same, it does not matter which comes first. -/
theorem foldlM_refused (ha : a ∈ l) (he : step.refusal a = some e)
    (hsame : ∀ a' ∈ l, ∀ e', step.refusal a' = some e' → e' = e) (b : β) :
    l.foldlM step.run b = .error e := by
  rw [foldlM_run]
  cases hfirst : l.findSome? step.refusal with
  | none =>
    rw [List.findSome?_eq_none_iff.mp hfirst a ha] at he
    cases he
  | some e' =>
    obtain ⟨a',ha',he'⟩ := List.exists_of_findSome?_eq_some hfirst
    rw [hsame a' ha' e' he']

theorem foldlM_cons_refused (he : step.refusal a = some e) (l : List α) (b : β) :
    (a::l).foldlM step.run b = .error e := by
  rw [foldlM_run,List.findSome?_cons,he]

/-- The order does not matter, if all refusals are the same and, when there is none, any two steps
commute. -/
theorem foldlM_perm (hsame : ∀ a ∈ l, ∀ a' ∈ l, ∀ e e', step.refusal a = some e →
      step.refusal a' = some e' → e' = e)
    (hcomm : (∀ a ∈ l, step.refusal a = none) → ∀ a ∈ l, ∀ a' ∈ l, ∀ b,
      step.apply (step.apply b a) a' = step.apply (step.apply b a') a)
    (hperm : l.Perm l') (b : β) : l.foldlM step.run b = l'.foldlM step.run b := by
  by_cases hnone : ∀ a ∈ l, step.refusal a = none
  · have hnone' : ∀ a ∈ l', step.refusal a = none := fun a ha => hnone a (hperm.mem_iff.mpr ha)
    rw [foldlM_accepted hnone,foldlM_accepted hnone']
    exact congrArg Except.ok (hperm.foldl_eq' (fun a ha a' ha' b => hcomm hnone a ha a' ha' b) b)
  · obtain ⟨a,ha,hrefused⟩ : ∃ a ∈ l, step.refusal a ≠ none := by simpa using hnone
    obtain ⟨e,he⟩ := Option.ne_none_iff_exists'.mp hrefused
    rw [foldlM_refused ha he fun a' ha' e' => hsame a ha a' ha' e e' he,
      foldlM_refused (hperm.mem_iff.mp ha) he fun a' ha' e' =>
        hsame a ha a' (hperm.mem_iff.mpr ha') e e' he]

end Step

theorem exists_front {l : List α} {a : α} (h : a ∈ l) : ∃ rest, (a::rest).Perm l := by
  obtain ⟨s,t,rfl⟩ := List.append_of_mem h
  exact ⟨s++t,List.perm_middle.symm⟩

theorem exists_back {l : List α} {a a' : α} (h : a ∈ l) (h' : a' ∈ l) (hne : a ≠ a') :
    ∃ rest, (rest++[a,a']).Perm l := by
  obtain ⟨rest,hperm⟩ := exists_front h
  have hmem : a' ∈ rest := (List.mem_cons.mp (hperm.mem_iff.mpr h')).resolve_left hne.symm
  obtain ⟨rest',hperm'⟩ := exists_front hmem
  exact ⟨rest',List.perm_append_comm.trans ((hperm'.cons a).trans hperm)⟩

end FoldOrder
