import Mathlib.Logic.Relation
import Mathlib.Data.Nat.Notation

/-! Loops that go pass by pass until one returns, with a measure that every further pass
lowers. -/

/-- How one pass over a state ends: the loop returns, or goes round again. -/
inductive Pass (σ ρ : Type*)
  | done (result : ρ)
  | again (s : σ)

structure Loop (σ ρ : Type*) where
  pass : σ → Pass σ ρ
  measure : σ → ℕ
  decreases : ∀ s t, pass s = .again t → measure t < measure s

namespace Loop

variable {σ ρ : Type*} (L : Loop σ ρ)

def run (s : σ) : ρ :=
  match _h : L.pass s with
  | .done r => r
  | .again t => run t
termination_by L.measure s
decreasing_by exact L.decreases s t ‹_›

section
variable {L}

theorem run_done {s : σ} {r : ρ} (h : L.pass s = .done r) : L.run s = r := by
  rw [run]
  split <;> simp_all

theorem run_again {s t : σ} (h : L.pass s = .again t) : L.run s = L.run t := by
  rw [run]
  split <;> simp_all

end

/-- The rule for a loop: what each pass keeps until it returns holds of the result. -/
theorem run_rule {P : σ → Prop} {Q : ρ → Prop}
    (h : ∀ s, P s → (∃ r, L.pass s = .done r ∧ Q r) ∨ ∃ t, L.pass s = .again t ∧ P t)
    (s : σ) (hs : P s) : Q (L.run s) := by
  induction hn : L.measure s using Nat.strongRecOn generalizing s with
  | _ n ih =>
    rcases h s hs with ⟨r,hr,hq⟩ | ⟨t,ht,hp⟩
    · rwa [run_done hr]
    · rw [run_again ht]
      exact ih _ (hn ▸ L.decreases s t ht) t hp rfl

/-- The states that passes lead to. -/
def Reaches : σ → σ → Prop := Relation.ReflTransGen fun s t => L.pass s = .again t

variable {L}

theorem Reaches.run {s t : σ} (h : L.Reaches s t) : L.run s = L.run t := by
  induction h with
  | refl => rfl
  | tail _ ht ih => rw [ih,run_again ht]

theorem Reaches.invariant {P : σ → Prop} (h : ∀ s t, P s → L.pass s = .again t → P t) {s t : σ}
    (hr : L.Reaches s t) (hs : P s) : P t := by
  induction hr with
  | refl => exact hs
  | tail _ ht ih => exact h _ _ ih ht

theorem exists_last (s : σ) : ∃ t, L.Reaches s t ∧ L.pass t = .done (L.run s) := by
  have hrule := L.run_rule (P := fun t => L.Reaches s t)
    (Q := fun r => ∃ t, L.Reaches s t ∧ L.pass t = .done r) (fun t ht => ?_) s .refl
  · exact hrule
  · cases hp : L.pass t with
    | done r => exact .inl ⟨r,rfl,t,ht,hp⟩
    | again u => exact .inr ⟨u,rfl,ht.tail hp⟩

end Loop
