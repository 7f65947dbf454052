import Mathlib.Data.List.Chain
import Mathlib.Logic.Relation

/-! Walking through containers that contain each other, with the list of those that are open: a
container is not entered again while it is open, nor below a limit. -/
namespace Nesting
open Relation

variable {α : Type*} {inside : α → α → Prop} {container supported : α → Prop} {limit : ℕ}
  {entered : List α} {root a b : α}

/-- What the walk accepts below the containers that have been entered. -/
inductive Accepted (inside : α → α → Prop) (container supported : α → Prop) (limit : ℕ) :
    List α → α → Prop
  | leaf {entered : List α} {a : α} (hleaf : ¬container a) (ha : supported a) :
      Accepted inside container supported limit entered a
  | enter {entered : List α} {a : α} (hcontainer : container a) (hfresh : a ∉ entered)
      (hlimit : entered.length < limit) (ha : supported a)
      (h : ∀ b, inside a b → Accepted inside container supported limit (entered++[a]) b) :
      Accepted inside container supported limit entered a

/-- Nothing contains itself, at any depth; nothing is too deep, and everything is supported. -/
structure WellNested (inside : α → α → Prop) (container supported : α → Prop) (limit : ℕ) (root : α) :
    Prop where
  acyclic : ∀ a, ReflTransGen inside root a → ¬TransGen inside a a
  shallow : ∀ rest, List.IsChain inside (root::rest) → (∀ a ∈ root::rest, container a) →
    (root::rest).length ≤ limit
  supported : ∀ a, ReflTransGen inside root a → supported a

theorem accepted_leaf (hleaf : ¬container a) :
    Accepted inside container supported limit entered a ↔ supported a := by
  refine ⟨fun h => ?_,.leaf hleaf⟩
  cases h with
  | leaf _ ha => exact ha
  | enter hcontainer _ _ _ _ => exact absurd hcontainer hleaf

theorem accepted_container (hcontainer : container a) :
    Accepted inside container supported limit entered a ↔ a ∉ entered ∧ entered.length < limit ∧
      supported a ∧ ∀ b, inside a b → Accepted inside container supported limit (entered++[a]) b := by
  constructor
  · intro h
    cases h with
    | leaf hleaf _ => exact absurd hcontainer hleaf
    | enter _ hfresh hlimit ha h => exact ⟨hfresh,hlimit,ha,h⟩
  · rintro ⟨hfresh,hlimit,ha,h⟩
    exact .enter hcontainer hfresh hlimit ha h

section Accepted

variable (hinside : ∀ a b, inside a b → container a)

theorem Accepted.leaves (h : Accepted inside container supported limit entered a) :
    supported a := by
  cases h with
  | leaf _ ha => exact ha
  | enter _ _ _ ha _ => exact ha

include hinside

theorem Accepted.members (h : Accepted inside container supported limit entered a) (hab : inside a b) :
    Accepted inside container supported limit (entered++[a]) b := by
  cases h with
  | leaf hleaf _ => exact absurd (hinside a b hab) hleaf
  | enter _ _ _ _ h => exact h b hab

theorem Accepted.all_supported (h : Accepted inside container supported limit entered a)
    (hab : ReflTransGen inside a b) : supported b := by
  induction hab using ReflTransGen.head_induction_on generalizing entered with
  | refl => exact h.leaves
  | head hac _ ih => exact ih (h.members hinside hac)

theorem Accepted.acyclic (h : Accepted inside container supported limit entered a)
    (hab : ReflTransGen inside a b) : ¬TransGen inside b b := by
  induction h with
  | leaf hleaf _ =>
    intro hcycle
    rcases ReflTransGen.cases_head hab with rfl | ⟨c,hac,_⟩
    · obtain ⟨c,hac,_⟩ := TransGen.head'_iff.mp hcycle
      exact hleaf (hinside _ c hac)
    · exact hleaf (hinside _ c hac)
  | enter _ _ _ _ _ ih =>
    intro hcycle
    rcases ReflTransGen.cases_head hab with rfl | ⟨c,hac,hcb⟩
    -- A cycle through the container is one through something in it.
    · obtain ⟨c,hac,hca⟩ := TransGen.head'_iff.mp hcycle
      exact ih c hac hca hcycle
    · exact ih c hac hcb hcycle

theorem Accepted.shallow (h : Accepted inside container supported limit entered a) {rest : List α}
    (hchain : List.IsChain inside (a::rest)) (hall : ∀ c ∈ a::rest, container c) :
    entered.length+(a::rest).length ≤ limit := by
  induction rest generalizing entered a with
  | nil =>
    cases h with
    | leaf hleaf _ => exact absurd (hall a (by simp)) hleaf
    | enter _ _ hlimit _ _ => exact hlimit
  | cons b rest ih =>
    obtain ⟨hab,hchain⟩ := List.isChain_cons_cons.mp hchain
    have hlength := ih (h.members hinside hab) hchain fun c hc => hall c (List.mem_cons_of_mem a hc)
    simp only [List.length_append,List.length_cons,List.length_nil] at hlength ⊢
    omega

end Accepted

theorem transGen_of_chain (h : List.IsChain inside (entered++[a])) (hb : b ∈ entered) :
    TransGen inside b a := by
  obtain ⟨s,t,rfl⟩ := List.append_of_mem hb
  rw [List.append_assoc,List.cons_append] at h
  have hchain := h.right_of_append
  obtain ⟨c,l,hl⟩ := List.exists_cons_of_ne_nil (l := t++[a]) (by simp)
  rw [hl] at hchain
  obtain ⟨hbc,hchain⟩ := List.isChain_cons_cons.mp hchain
  have hlast : (c::l).getLast (by simp) = a := by simp [← hl]
  exact TransGen.head'_iff.mpr ⟨c,hbc,List.relationReflTransGen_of_exists_isChain_cons l hchain hlast⟩

theorem reachable_of_chain {rest : List α} (hrest : entered++[a] = root::rest)
    (hchain : List.IsChain inside (entered++[a])) : ReflTransGen inside root a := by
  rw [hrest] at hchain
  refine List.relationReflTransGen_of_exists_isChain_cons rest hchain ?_
  simp [← hrest]

theorem WellNested.length_lt (h : WellNested inside container supported limit root) {rest : List α}
    (hrest : entered++[a] = root::rest) (hchain : List.IsChain inside (entered++[a]))
    (hall : ∀ c ∈ entered, container c) (ha : container a) : entered.length < limit := by
  have hopen : ∀ c ∈ entered++[a], container c :=
    List.forall_mem_append.mpr ⟨hall,List.forall_mem_singleton.mpr ha⟩
  have hshallow := h.shallow rest (hrest ▸ hchain) (hrest ▸ hopen)
  rw [← hrest,List.length_append,List.length_singleton] at hshallow
  exact hshallow

theorem WellNested.accepted (h : WellNested inside container supported limit root) {room : ℕ}
    (hroom : limit ≤ entered.length+room) {rest : List α} (hrest : entered++[a] = root::rest)
    (hchain : List.IsChain inside (entered++[a])) (hall : ∀ c ∈ entered, container c) :
    Accepted inside container supported limit entered a := by
  induction room generalizing entered a rest with
  | zero =>
    have hreach := reachable_of_chain hrest hchain
    refine .leaf (fun hcontainer => ?_) (h.supported a hreach)
    have hdepth := h.length_lt hrest hchain hall hcontainer
    omega
  | succ room ih =>
    have hreach := reachable_of_chain hrest hchain
    by_cases hcontainer : container a
    · have hfresh : a ∉ entered := fun hmem => h.acyclic a hreach (transGen_of_chain hchain hmem)
      refine .enter hcontainer hfresh (h.length_lt hrest hchain hall hcontainer)
        (h.supported a hreach) fun b hab => ?_
      have hlonger : List.IsChain inside (entered++[a]++[b]) := by
        rw [List.append_assoc]
        exact List.isChain_append_cons_cons.mpr ⟨hchain,hab,by simp⟩
      have hrest : entered++[a]++[b] = root::(rest++[b]) := by
        rw [hrest]
        rfl
      have hopen : ∀ c ∈ entered++[a], container c :=
        List.forall_mem_append.mpr ⟨hall,List.forall_mem_singleton.mpr hcontainer⟩
      refine ih ?_ hrest hlonger hopen
      simp only [List.length_append,List.length_singleton]
      omega
    · exact .leaf hcontainer (h.supported a hreach)

theorem accepted_iff (hinside : ∀ a b, inside a b → container a) :
    Accepted inside container supported limit [] root ↔
    WellNested inside container supported limit root := by
  constructor
  · intro h
    refine ⟨fun a ha => h.acyclic hinside ha,fun rest hchain hall => ?_,fun a ha => h.all_supported hinside ha⟩
    simpa using h.shallow hinside hchain hall
  · intro h
    exact h.accepted (Nat.le_add_left limit 0) rfl (.singleton root) (by simp)

end Nesting
