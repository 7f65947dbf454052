import Mathlib.Data.List.Basic
import Mathlib.Algebra.Order.Group.Nat
import Mathlib.Tactic.Ring

/-! Cutting a list into consecutive pieces of one size, the last of which may be
short. Nothing here depends on what the items are. -/
namespace Regroup

variable {α : Type*}

/-- The pieces of exactly `n` items that `xs` fills. -/
def whole (n : ℕ) (xs : List α) : List (List α) :=
  (List.range (xs.length/n)).map fun i => (xs.drop (n*i)).take n

/-- The items after the last whole piece. -/
def rest (n : ℕ) (xs : List α) : List α := xs.drop (n*(xs.length/n))

/-- A final piece, unless there is nothing left for it. -/
def last (xs : List α) : List (List α) := if xs.isEmpty then [] else [xs]

/-- Every piece of `xs`: the whole ones, then the remainder. -/
def pieces (n : ℕ) (xs : List α) : List (List α) := whole n xs ++ last (rest n xs)

@[simp] theorem last_nil : last ([] : List α) = [] := rfl
@[simp] theorem last_flatten (xs : List α) : (last xs).flatten = xs := by
  cases xs <;> simp [last]
theorem last_of_ne {xs : List α} (h : xs ≠ []) : last xs = [xs] := by simp [last,h]

@[simp] theorem whole_length (n : ℕ) (xs : List α) : (whole n xs).length = xs.length/n := by
  simp [whole]

theorem whole_of_lt {n : ℕ} {xs : List α} (h : xs.length < n) : whole n xs = [] := by
  simp [whole,Nat.div_eq_of_lt h]

theorem rest_of_lt {n : ℕ} {xs : List α} (h : xs.length < n) : rest n xs = xs := by
  simp [rest,Nat.div_eq_of_lt h]

theorem whole_eq_cons {n : ℕ} {xs : List α} (hn : 0 < n) (h : n ≤ xs.length) :
    whole n xs = xs.take n :: whole n (xs.drop n) := by
  have hd : xs.length/n = (xs.length-n)/n+1 := Nat.div_eq_sub_div hn h
  simp only [whole,hd,List.range_succ_eq_map,List.map_cons,List.map_map,List.length_drop,
    Nat.mul_zero,List.drop_zero,List.cons.injEq,true_and]
  apply List.map_congr_left
  intro i _
  simp only [Function.comp_apply,List.drop_drop,Nat.succ_eq_add_one]
  congr 2
  ring

theorem rest_eq_drop {n : ℕ} {xs : List α} (hn : 0 < n) (h : n ≤ xs.length) :
    rest n xs = rest n (xs.drop n) := by
  have hd : xs.length/n = (xs.length-n)/n+1 := Nat.div_eq_sub_div hn h
  simp only [rest,hd,List.length_drop,List.drop_drop]
  congr 1
  ring

/-- Peel whole pieces off until fewer than `n` items are left. -/
theorem induction {n : ℕ} (hn : 0 < n) {P : List α → Prop}
    (short : ∀ xs, xs.length < n → P xs)
    (long : ∀ xs, n ≤ xs.length → P (xs.drop n) → P xs) (xs : List α) : P xs := by
  induction hl : xs.length using Nat.strong_induction_on generalizing xs with
  | _ l ih =>
    rcases Nat.lt_or_ge xs.length n with h | h
    · exact short xs h
    · exact long xs h (ih _ (by simp only [List.length_drop]; omega) (xs.drop n) rfl)

theorem rest_length_lt {n : ℕ} (hn : 0 < n) (xs : List α) : (rest n xs).length < n := by
  induction xs using induction hn with
  | short xs h => simpa [rest_of_lt h] using h
  | long xs h ih => rwa [rest_eq_drop hn h]

theorem whole_append_rest {n : ℕ} (hn : 0 < n) (xs : List α) :
    (whole n xs).flatten ++ rest n xs = xs := by
  induction xs using induction hn with
  | short xs h => simp [whole_of_lt h,rest_of_lt h]
  | long xs h ih =>
    rw [whole_eq_cons hn h,rest_eq_drop hn h,List.flatten_cons,List.append_assoc,ih,
      List.take_append_drop]

theorem length_of_mem_whole {n : ℕ} {xs p : List α} (hn : 0 < n) (hp : p ∈ whole n xs) :
    p.length = n := by
  induction xs using induction hn with
  | short xs h => simp [whole_of_lt h] at hp
  | long xs h ih =>
    rw [whole_eq_cons hn h,List.mem_cons] at hp
    rcases hp with rfl | hp
    · simpa using h
    · exact ih hp

theorem pieces_eq_cons {n : ℕ} {xs : List α} (hn : 0 < n) (h : n ≤ xs.length) :
    pieces n xs = xs.take n :: pieces n (xs.drop n) := by
  simp [pieces,whole_eq_cons hn h,rest_eq_drop hn h]

theorem pieces_of_lt {n : ℕ} {xs : List α} (h : xs.length < n) : pieces n xs = last xs := by
  simp [pieces,whole_of_lt h,rest_of_lt h]

/-- What an exact regrouping of `xs` into pieces of `n` is. -/
structure IsRegrouping (n : ℕ) (xs : List α) (ps : List (List α)) : Prop where
  join : ps.flatten = xs
  full : ∀ p ∈ ps.dropLast, p.length = n
  tail : ∀ p ∈ ps.getLast?, 1 ≤ p.length ∧ p.length ≤ n

theorem pieces_isRegrouping {n : ℕ} (hn : 0 < n) (xs : List α) :
    IsRegrouping n xs (pieces n xs) := by
  have hw : ∀ p ∈ whole n xs, p.length = n := fun p hp => length_of_mem_whole hn hp
  refine ⟨by simp [pieces,whole_append_rest hn],?_,?_⟩
  · intro p hp
    by_cases hr : rest n xs = []
    · exact hw p (List.dropLast_subset _ (by simpa [pieces,hr] using hp))
    · exact hw p (by simpa [pieces,last_of_ne hr] using hp)
  · intro p hp
    by_cases hr : rest n xs = []
    · have hm : p ∈ whole n xs := List.mem_of_getLast? (by simpa [pieces,hr] using hp)
      have hl := hw p hm
      omega
    · have he : rest n xs = p := by simpa [pieces,last_of_ne hr] using hp
      subst he
      exact ⟨List.length_pos_iff.mpr hr,(rest_length_lt hn xs).le⟩

/-! ## A buffer and the chunks still to come -/

/-- The pieces that `buffer` and the coming chunks complete. Without a size the
chunks are the pieces. -/
def completed (size : Option ℕ) (buffer : List α) (cs : List (List α)) : List (List α) :=
  match size with
  | none => (buffer::cs).filter (!·.isEmpty)
  | some n => whole n (buffer++cs.flatten)

/-- All the pieces, when nothing follows the chunks. -/
def regrouped (size : Option ℕ) (buffer : List α) (cs : List (List α)) : List (List α) :=
  match size with
  | none => (buffer::cs).filter (!·.isEmpty)
  | some n => pieces n (buffer++cs.flatten)

/-- What a buffer holds once every piece it completes has been taken. -/
def Drained (size : Option ℕ) (buffer : List α) : Prop :=
  match size with
  | none => buffer = []
  | some n => buffer.length < n

theorem completed_drained {size : Option ℕ} {buffer : List α} (h : Drained size buffer) :
    completed size buffer [] = [] := by
  cases size with
  | none =>
    obtain rfl : buffer = [] := h
    rfl
  | some n => simpa [completed] using whole_of_lt h

theorem regrouped_drained {size : Option ℕ} {buffer : List α} (h : Drained size buffer) :
    regrouped size buffer [] = last buffer := by
  cases size with
  | none =>
    obtain rfl : buffer = [] := h
    rfl
  | some n => simpa [regrouped] using pieces_of_lt h

@[simp] theorem regrouped_nil (size : Option ℕ) : regrouped size ([] : List α) [] = [] := by
  cases size <;> simp [regrouped,pieces,whole,rest]

theorem completed_feed {size : Option ℕ} {buffer : List α} (h : Drained size buffer)
    (c : List α) (cs : List (List α)) :
    completed size buffer (c::cs) = completed size (buffer++c) cs := by
  cases size with
  | none =>
    obtain rfl : buffer = [] := h
    rfl
  | some n => simp [completed]

theorem regrouped_feed {size : Option ℕ} {buffer : List α} (h : Drained size buffer)
    (c : List α) (cs : List (List α)) :
    regrouped size buffer (c::cs) = regrouped size (buffer++c) cs := by
  cases size with
  | none =>
    obtain rfl : buffer = [] := h
    rfl
  | some n => simp [regrouped]

/-- One step of a regrouping: the next piece comes off the front of the buffer, or
nothing does because the buffer completes none. -/
def Takes (size : Option ℕ) (buffer : List α) : Option (List α) → List α → Prop
  | none, buffer' => buffer = buffer' ∧ Drained size buffer
  | some p, buffer' => buffer = p++buffer' ∧
      match size with
      | none => p ≠ [] ∧ buffer' = []
      | some n => 0 < n ∧ p.length = n

theorem Takes.completed {size : Option ℕ} {buffer buffer' : List α} {o : Option (List α)}
    (h : Takes size buffer o buffer') (cs : List (List α)) :
    completed size buffer cs = o.toList++completed size buffer' cs := by
  cases o with
  | none => rw [h.1]; rfl
  | some p =>
    obtain ⟨rfl,hp⟩ := h
    cases size with
    | none =>
      obtain ⟨hp,rfl⟩ := hp
      simp [Regroup.completed,hp]
    | some n =>
      obtain ⟨hn,rfl⟩ := hp
      simp [Regroup.completed,whole_eq_cons hn]

theorem Takes.regrouped {size : Option ℕ} {buffer buffer' : List α} {o : Option (List α)}
    (h : Takes size buffer o buffer') (cs : List (List α)) :
    regrouped size buffer cs = o.toList++regrouped size buffer' cs := by
  cases o with
  | none => rw [h.1]; rfl
  | some p =>
    obtain ⟨rfl,hp⟩ := h
    cases size with
    | none =>
      obtain ⟨hp,rfl⟩ := hp
      simp [Regroup.regrouped,hp]
    | some n =>
      obtain ⟨hn,rfl⟩ := hp
      simp [Regroup.regrouped,pieces_eq_cons hn]

example : pieces 2 [1,2,3,4,5] = [[1,2],[3,4],[5]] := by decide

end Regroup
