import Rqx.QueryParams
import Mathlib.Data.List.Perm.Basic
import Mathlib.Data.Prod.Lex
import Mathlib.Data.String.Basic

/-! Equality of query params: the order of the pairs does not matter, within a key as well as
across keys, and no edit brings it back. -/
namespace Rqx
namespace QueryPairs

/-- The pairs in the order of tuples of strings. -/
def sorted (pairs : QueryPairs) : List (String × String) :=
  pairs.pairs.mergeSort fun p q => toLex p ≤ toLex q

/-- `PartialEq`. -/
def eq (pairs other : QueryPairs) : Bool := pairs.sorted = other.sorted

/-- `Hash`, by what a hasher makes of the pairs it is fed with. -/
def hash {ρ : Type} (hasher : List (String × String) → ρ) (pairs : QueryPairs) : ρ :=
  hasher pairs.sorted

/-! ## The values under each key -/

section Values

variable {p q : QueryPairs} {key k : String}

theorem sorted_eq_iff : p.sorted = q.sorted ↔ p.pairs.Perm q.pairs := by
  constructor
  · intro h
    have hp := List.mergeSort_perm p.pairs fun p q => toLex p ≤ toLex q
    have hq := List.mergeSort_perm q.pairs fun p q => toLex p ≤ toLex q
    exact hp.symm.trans ((List.Perm.of_eq h).trans hq)
  · intro h
    have htrans : ∀ a b c : String × String, decide (toLex a ≤ toLex b) →
        decide (toLex b ≤ toLex c) → decide (toLex a ≤ toLex c) := fun a b c => by
      simpa using le_trans
    have htotal : ∀ a b : String × String,
        (decide (toLex a ≤ toLex b) || decide (toLex b ≤ toLex a)) = true := fun a b => by
      simpa using le_total (toLex a) (toLex b)
    have hsorted := List.pairwise_mergeSort htrans htotal
    refine List.Perm.eq_of_pairwise (fun a b _ _ hab hba => ?_) (hsorted p.pairs)
      (hsorted q.pairs) ?_
    · exact toLex_inj.mp (le_antisymm (of_decide_eq_true hab) (of_decide_eq_true hba))
    · exact (List.mergeSort_perm _ _).trans (h.trans (List.mergeSort_perm _ _).symm)

theorem count_getList (p : QueryPairs) (key value : String) :
    (p.getList key).count value = p.pairs.count (key,value) := by
  rw [getList,List.count,List.countP_map,List.countP_filter,List.count]
  refine List.countP_congr fun pair _ => ?_
  obtain ⟨k,v⟩ := pair
  simp [and_comm]

/-- Params are equal when they have the same values under each key, in whatever order. -/
theorem eq_iff : p.eq q ↔ ∀ key, (p.getList key).Perm (q.getList key) := by
  simp only [eq,decide_eq_true_eq,sorted_eq_iff,List.perm_iff_count,count_getList]
  exact ⟨fun h key value => h (key,value),fun h pair => h pair.1 pair.2⟩

theorem rposition_lt {l : List (String × String)} {f : String × String → Bool} {i : ℕ}
    (h : rposition f l = some i) : i < l.length := by
  obtain ⟨j,hj,rfl⟩ := Option.map_eq_some_iff.mp h
  have hlt := (List.findIdx?_eq_some_iff_getElem.mp hj).1
  rw [List.length_reverse] at hlt
  omega

theorem push_perm (p : QueryPairs) (key value : String) :
    (p.push key value).pairs.Perm ((key,value)::p.pairs) := by
  unfold push
  split
  · next last hlast => exact List.perm_insertIdx _ _ (rposition_lt hlast)
  · exact List.perm_append_singleton _ _

theorem foldl_setPair_perm (key value : String) (l out : List (String × String)) (replaced : Bool) :
    let s := l.foldl (setPair key value) (out,replaced)
    (replaced = true → s.2 = true) ∧ s.1.Perm (out++(l.filter fun (k,_) => k ≠ key)++
      if s.2 && !replaced then [(key,value)] else []) := by
  induction l generalizing out replaced with
  | nil => simp
  | cons pair l ih =>
    obtain ⟨k,v⟩ := pair
    by_cases hk : k = key
    · cases replaced with
      | true => simpa [setPair,hk] using ih out true
      | false =>
        obtain ⟨hkept,hperm⟩ := ih (out++[(key,value)]) true
        simp only [List.foldl_cons,setPair,hk,ne_eq,not_true_eq_false,if_false,Bool.not_false,
          if_true,List.filter_cons,decide_false,Bool.false_eq_true,hkept rfl,Bool.and_true]
        refine ⟨by simp,hperm.trans ?_⟩
        simpa using (List.perm_append_singleton (key,value) _).symm.append_left out
    · obtain ⟨hkept,hperm⟩ := ih (out++[(k,v)]) replaced
      simp only [List.foldl_cons,setPair,hk,ne_eq,not_false_eq_true,if_true,List.filter_cons,
        decide_true]
      exact ⟨hkept,by simpa using hperm⟩

theorem set_perm (p : QueryPairs) (key value : String) :
    (p.set key value).pairs.Perm ((key,value)::p.pairs.filter fun (k,_) => k ≠ key) := by
  obtain ⟨_,hperm⟩ := foldl_setPair_perm key value p.pairs [] false
  simp only [set]
  split
  · next h =>
    simp only [Bool.not_eq_true'] at h
    rw [h] at hperm
    exact (List.perm_append_singleton _ _).trans (by simpa using hperm)
  · next h =>
    simp only [Bool.not_eq_true',Bool.not_eq_false] at h
    rw [h] at hperm
    exact hperm.trans (by simp)

theorem filter_taken_perm (l : List (String × String)) {key : String} {taken later : List String}
    (hkey : key ∉ taken) (hlater : key ∈ later) :
    ((l.filter fun (k,_) => k = key)++l.filter fun (k,_) => k ∈ later ∧ k ∉ taken++[key]).Perm
      (l.filter fun (k,_) => k ∈ later ∧ k ∉ taken) := by
  refine List.Perm.trans (List.Perm.of_eq ?_)
    (List.filter_append_perm (fun (k,_) => k = key) (l.filter fun (k,_) => k ∈ later ∧ k ∉ taken))
  rw [List.filter_filter,List.filter_filter]
  congr 1
  · refine List.filter_congr fun pair _ => ?_
    by_cases hk : pair.1 = key <;> simp [hk,hkey,hlater]
  · refine List.filter_congr fun pair _ => ?_
    by_cases hk : pair.1 = key <;> simp [hk]

/-- The keys of `other` that have been met are in with all of their pairs. -/
theorem foldl_mergePair_perm (other : QueryPairs) (l out : List (String × String))
    (taken : List String) :
    let s := l.foldl (mergePair other) (out,taken)
    taken ⊆ s.2 ∧ s.1.Perm (out++(l.filter fun (k,_) => !other.contains k)++
      other.pairs.filter fun (k,_) => k ∈ s.2 ∧ k ∉ taken) := by
  induction l generalizing out taken with
  | nil => simp
  | cons pair l ih =>
    obtain ⟨k,v⟩ := pair
    cases hk : other.contains k with
    | false => 
      obtain ⟨hsub,hperm⟩ := ih (out++[(k,v)]) taken
      simp only [List.foldl_cons,mergePair,hk,Bool.not_false,if_true,List.filter_cons]
      exact ⟨hsub,by simpa using hperm⟩
    | true =>
      by_cases ht : k ∈ taken
      · obtain ⟨hsub,hperm⟩ := ih out taken
        simp only [List.foldl_cons,mergePair,hk,Bool.not_true,Bool.false_eq_true,if_false,
          List.contains_eq_mem,ht,decide_true,List.filter_cons]
        exact ⟨hsub,hperm⟩
      · obtain ⟨hsub,hperm⟩ := ih (out++(other.getList k).map (k,·)) (taken++[k])
        simp only [List.foldl_cons,mergePair,hk,Bool.not_true,Bool.false_eq_true,if_false,
          List.contains_eq_mem,ht,decide_false,Bool.not_false,if_true,List.filter_cons]
        have hlater := hsub (List.mem_append_right taken (List.mem_singleton_self k))
        refine ⟨fun key hkey => hsub (List.mem_append_left _ hkey),hperm.trans ?_⟩
        have hlist : (other.getList k).map (k,·) = other.pairs.filter fun (j,_) => j = k := by
          rw [getList,List.map_map]
          refine (List.map_congr_left fun pair hpair => ?_).trans (List.map_id _)
          have hpair : pair.1 = k := by simpa using (List.mem_filter.mp hpair).2
          simp [← hpair]
        rw [hlist] at hlater ⊢
        rw [List.append_assoc,List.append_assoc,List.append_assoc]
        refine List.Perm.append_left out ((List.perm_append_comm_assoc _ _ _).trans ?_)
        exact (filter_taken_perm other.pairs ht hlater).append_left _

/-- `other` is in with all of its pairs, and nothing else is under its keys. -/
theorem merge_perm (p other : QueryPairs) : (p.merge other).pairs.Perm
    ((p.pairs.filter fun (k,_) => !other.contains k)++other.pairs) := by
  obtain ⟨_,hperm⟩ := foldl_mergePair_perm other p.pairs [] []
  have hnew : ∀ (l out : List (String × String)) (taken : List String),
      l.foldl (mergeNew taken) out = out++l.filter fun (k,_) => k ∉ taken := by
    intro l out taken
    induction l generalizing out with
    | nil => simp
    | cons pair l ih =>
      rw [List.foldl_cons,ih,mergeNew]
      by_cases h : pair.1 ∈ taken <;> simp [h]
  simp only [merge,hnew]
  refine (hperm.append_right _).trans ?_
  simp only [List.nil_append,List.append_assoc]
  refine List.Perm.append_left _ (List.Perm.trans (List.Perm.of_eq ?_)
    (List.filter_append_perm (fun (k,_) => k ∈ (p.pairs.foldl (mergePair other) ([],[])).2) _))
  simp

end Values

/-! ## Edits -/

inductive Edit
  | set (key value : String)
  | add (key value : String)
  | remove (key : String)
  | merge (other : QueryPairs)

def apply (p : QueryPairs) : Edit → QueryPairs
  | .set key value => p.set key value
  | .add key value => p.add key value
  | .remove key => p.remove key
  | .merge other => p.merge other

/-- The same edit; what is merged in need only be equal. -/
inductive Edit.Same : Edit → Edit → Prop
  | set (key value : String) : Same (.set key value) (.set key value)
  | add (key value : String) : Same (.add key value) (.add key value)
  | remove (key : String) : Same (.remove key) (.remove key)
  | merge {other other' : QueryPairs} (h : other.eq other') : Same (.merge other) (.merge other')

section Edits

variable {p q : QueryPairs}

theorem eq_iff_perm : p.eq q ↔ p.pairs.Perm q.pairs := by
  rw [eq,decide_eq_true_eq,sorted_eq_iff]

theorem contains_congr (h : p.pairs.Perm q.pairs) (key : String) :
    p.contains key = q.contains key :=
  h.any_eq

theorem apply_congr (h : p.eq q) {edit edit' : Edit} (hsame : edit.Same edit') :
    (p.apply edit).eq (q.apply edit') := by
  rw [eq_iff_perm] at h ⊢
  cases hsame with
  | set key value =>
    exact (set_perm p key value).trans (((h.filter _).cons _).trans (set_perm q key value).symm)
  | add key value =>
      exact (push_perm p key value).trans ((h.cons _).trans (push_perm q key value).symm)
  | remove key => exact h.filter _
  | merge hother =>
    rename_i other other'
    have hother := eq_iff_perm.mp hother
    have hkeys : (p.pairs.filter fun (k,_) => !other.contains k).Perm
        (q.pairs.filter fun (k,_) => !other'.contains k) := by
      simp only [contains_congr hother]
      exact h.filter _
    exact (merge_perm p other).trans ((hkeys.append hother).trans (merge_perm q other').symm)

theorem foldl_apply_congr {edits edits' : List Edit} (hsame : List.Forall₂ Edit.Same edits edits')
    (h : p.eq q) : (edits.foldl apply p).eq (edits'.foldl apply q) := by
  induction hsame generalizing p q with
  | nil => exact h
  | cons hedit _ ih => exact ih (apply_congr h hedit)

/-- What equality of params means, and that it lasts. -/
structure Equality (p q : QueryPairs) : Prop where
  values : p.eq q ↔ ∀ key, (p.getList key).Perm (q.getList key)
  hash : p.eq q → ∀ {ρ : Type} (hasher : List (String × String) → ρ), p.hash hasher = q.hash hasher
  edits : p.eq q → ∀ edits edits', List.Forall₂ Edit.Same edits edits' →
    (edits.foldl apply p).eq (edits'.foldl apply q)
  /-- A pair that is added does not make up for another one. -/
  add : ∀ key value, (p.add key value).eq (q.add key value) ↔ p.eq q
  /-- Setting a key makes up for its values and for nothing else. -/
  set : ∀ key value, (p.set key value).eq (q.set key value) ↔ (p.remove key).eq (q.remove key)

theorem params_equality (p q : QueryPairs) : Equality p q where
  values := eq_iff
  hash h ρ hasher := congrArg hasher (of_decide_eq_true h)
  edits h edits edits' hsame := foldl_apply_congr hsame h
  add key value := by
    rw [eq_iff_perm,eq_iff_perm]
    refine ⟨fun h => ?_,fun h => ?_⟩
    · exact ((push_perm p key value).symm.trans (h.trans (push_perm q key value))).cons_inv
    · exact (push_perm p key value).trans ((h.cons _).trans (push_perm q key value).symm)
  set key value := by
    rw [eq_iff_perm,eq_iff_perm]
    refine ⟨fun h => ?_,fun h => ?_⟩
    · exact ((set_perm p key value).symm.trans (h.trans (set_perm q key value))).cons_inv
    · exact (set_perm p key value).trans ((List.Perm.cons _ h).trans (set_perm q key value).symm)

end Edits

end QueryPairs
end Rqx
