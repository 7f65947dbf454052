import Mathlib.Data.List.Basic
import Mathlib.Data.List.Chain

/-! Runs of a system that is given by what each action does to a state, `none` where the
action is not enabled. An interleaving is the list of its actions. -/
namespace Runs

variable {σ α : Type*} (step : σ → α → Option σ)

def run (s : σ) : List α → Option σ
  | [] => some s
  | a::as => (step s a).bind fun t => run t as

/-- Every step of the run is taken under `C`. -/
def Meets (C : σ → α → Prop) (s : σ) : List α → Prop
  | [] => True
  | a::as => C s a ∧ ∀ t ∈ step s a, Meets C t as

instance decidableMeets (C : σ → α → Prop) [∀ s a, Decidable (C s a)] (s : σ) :
    (as : List α) → Decidable (Meets step C s as)
  | [] => inferInstanceAs (Decidable True)
  | a::as =>
    have : DecidablePred fun t => Meets step C t as := fun t => decidableMeets C t as
    inferInstanceAs (Decidable (C s a ∧ ∀ t ∈ step s a, Meets step C t as))

variable {step}

@[simp] theorem run_nil (s : σ) : run step s [] = some s := rfl

theorem run_cons_some {s u : σ} {a : α} {as : List α} (h : run step s (a::as) = some u) :
    ∃ t, step s a = some t ∧ run step t as = some u := Option.bind_eq_some_iff.mp h

theorem run_append (s : σ) (as bs : List α) :
    run step s (as++bs) = (run step s as).bind fun t => run step t bs := by
  induction as generalizing s with
  | nil => rfl
  | cons a as ih => simp only [List.cons_append,run,ih,Option.bind_assoc]

theorem run_invariant {I : σ → Prop} (h : ∀ s a t, I s → step s a = some t → I t)
    {s t : σ} {as : List α} (hs : I s) (hr : run step s as = some t) : I t := by
  induction as generalizing s with
  | nil =>
    obtain rfl : s = t := by simpa using hr
    exact hs
  | cons a as ih =>
    obtain ⟨u,hu,hr⟩ := run_cons_some hr
    exact ih (h s a u hs hu) hr

/-- What every step under `C` keeps holds at the end of a run under `C`. -/
theorem run_invariant_of_meets {I : σ → Prop} {C : σ → α → Prop}
    (h : ∀ s a t, I s → C s a → step s a = some t → I t)
    {s t : σ} {as : List α} (hs : I s) (hc : Meets step C s as) (hr : run step s as = some t) :
    I t := by
  induction as generalizing s with
  | nil =>
    obtain rfl : s = t := by simpa using hr
    exact hs
  | cons a as ih =>
    obtain ⟨u,hu,hr⟩ := run_cons_some hr
    exact ih (h s a u hs hc.1 hu) (hc.2 u hu) hr

/-! ## Every state of a run -/

/-- `P` holds of the state and of every state that the run leads through. -/
def Always (step : σ → α → Option σ) (P : σ → Prop) (s : σ) : List α → Prop
  | [] => P s
  | a::as => P s ∧ ∀ t ∈ step s a, Always step P t as

theorem always_of_invariant {I P : σ → Prop} (h : ∀ s a t, I s → step s a = some t → I t)
    (hP : ∀ s, I s → P s) {s : σ} (hs : I s) (as : List α) : Always step P s as := by
  induction as generalizing s with
  | nil => exact hP s hs
  | cons a as ih => exact ⟨hP s hs,fun t ht => ih (h s a t hs ht)⟩

theorem Meets.imp {C D : σ → α → Prop} (h : ∀ s a, C s a → D s a) {s : σ} {as : List α}
    (hc : Meets step C s as) : Meets step D s as := by
  induction as generalizing s with
  | nil => trivial
  | cons a as ih => exact ⟨h s a hc.1,fun t ht => ih (hc.2 t ht)⟩

theorem always_of_meets {I P : σ → Prop} {C : σ → α → Prop}
    (h : ∀ s a t, I s → C s a → step s a = some t → I t) (hP : ∀ s, I s → P s)
    {s : σ} {as : List α} (hs : I s) (hc : Meets step C s as) : Always step P s as := by
  induction as generalizing s with
  | nil => exact hP s hs
  | cons a as ih => exact ⟨hP s hs,fun t ht => ih (h s a t hs hc.1 ht) (hc.2 t ht)⟩

theorem Always.last {P : σ → Prop} {s t : σ} {as : List α} (h : Always step P s as)
    (hr : run step s as = some t) : P t := by
  induction as generalizing s with
  | nil =>
    obtain rfl : s = t := by simpa using hr
    exact h
  | cons a as ih =>
    obtain ⟨u,hu,hr⟩ := run_cons_some hr
    exact ih (h.2 u hu) hr

/-- When `C` is what a step needs to keep `P`, a run keeps `P` exactly when all its steps are
taken under `C`. -/
theorem always_iff_meets {I P : σ → Prop} {C : σ → α → Prop}
    (h : ∀ s a t, I s → step s a = some t → I t)
    (hC : ∀ s a t, I s → P s → step s a = some t → (P t ↔ C s a))
    {s t : σ} {as : List α} (hi : I s) (hp : P s) (hr : run step s as = some t) :
    Always step P s as ↔ Meets step C s as := by
  induction as generalizing s with
  | nil => exact iff_of_true hp trivial
  | cons a as ih =>
    obtain ⟨u,hu,hr⟩ := run_cons_some hr
    have hiff := hC s a u hi hp hu
    have hrest := fun hpu : P u => ih (h s a u hi hu) hpu hr
    simp only [Always,Meets,hu,Option.mem_some_iff,forall_eq']
    constructor
    · rintro ⟨_,halways⟩
      have hpu : P u := by
        cases as with
        | nil => exact halways
        | cons b bs => exact halways.1
      exact ⟨hiff.mp hpu,(hrest hpu).mp halways⟩
    · rintro ⟨hc,hmeets⟩
      exact ⟨hp,(hrest (hiff.mpr hc)).mpr hmeets⟩

/-! ## Chains -/

/-- What a step keeps or turns into something that lasts: a chain has it up to some point, and
what has come of it from there on. -/
theorem isChain_turns {R : α → α → Prop} {P Q : α → Prop}
    (hturn : ∀ a b, R a b → P a → P b ∨ Q b) (hlast : ∀ a b, R a b → Q a → Q b) {a : α}
    {l : List α} (h : (a::l).IsChain R) (ha : P a) :
    ∃ before after, a::l = before++after ∧ (∀ b ∈ before, P b) ∧ ∀ b ∈ after, Q b := by
  induction l generalizing a with
  | nil => exact ⟨[a],[],by simp,by simpa using ha,by simp⟩
  | cons b l ih =>
    obtain ⟨hab,hrest⟩ := List.isChain_cons_cons.mp h
    rcases hturn a b hab ha with hb | hb
    · obtain ⟨before,after,he,hbefore,hafter⟩ := ih hrest hb
      refine ⟨a::before,after,by rw [he]; rfl,?_,hafter⟩
      simpa using ⟨ha,hbefore⟩
    · refine ⟨[a],b::l,rfl,by simpa using ha,?_⟩
      exact hrest.induction Q _ hlast (fun _ => hb)

/-! ## Tasks -/

/-- How many tasks are where `p` says, after one of them has moved. -/
theorem countP_set {τ : Type*} (p : τ → Bool) {tasks : List τ} {i : ℕ} {old : τ}
    (h : tasks[i]? = some old) (new : τ) :
    (tasks.set i new).countP p+(p old).toNat = tasks.countP p+(p new).toNat := by
  obtain ⟨hi,rfl⟩ := List.getElem?_eq_some_iff.mp h
  rw [List.countP_set hi]
  cases hold : p tasks[i] with
  | false => cases p new <;> simp
  | true =>
    have hpos : 0 < tasks.countP p := List.countP_pos_iff.mpr ⟨_,List.getElem_mem hi,hold⟩
    cases p new <;> simp <;> omega

theorem getElem?_set_some {τ : Type*} {tasks : List τ} {i j : ℕ} {new x : τ}
    (h : (tasks.set i new)[j]? = some x) : (j = i ∧ x = new) ∨ (j ≠ i ∧ tasks[j]? = some x) := by
  rw [List.getElem?_set] at h
  by_cases hij : i = j
  · rw [if_pos hij] at h
    split at h
    · exact .inl ⟨hij.symm,(Option.some.inj h).symm⟩
    · cases h
  · rw [if_neg hij] at h
    exact .inr ⟨Ne.symm hij,h⟩

theorem getElem?_concat_some {τ : Type*} {tasks : List τ} {j : ℕ} {new x : τ}
    (h : (tasks++[new])[j]? = some x) : tasks[j]? = some x ∨ x = new := by
  by_cases hj : j < tasks.length
  · rw [List.getElem?_append_left hj] at h
    exact .inl h
  · rw [List.getElem?_append_right (Nat.le_of_not_lt hj)] at h
    exact .inr (List.mem_singleton.mp (List.mem_of_getElem? h))

/-- Some task is where `P` says, if the one that has moved has not left there. -/
theorem exists_set {τ : Type*} {P : τ → Prop} {tasks : List τ} {i : ℕ} {old new : τ}
    (h : tasks[i]? = some old) (hmove : P old → P new) (hex : ∃ x ∈ tasks, P x) :
    ∃ x ∈ tasks.set i new, P x := by
  obtain ⟨x,hx,hP⟩ := hex
  obtain ⟨j,hj⟩ := List.mem_iff_getElem?.mp hx
  have hi := (List.getElem?_eq_some_iff.mp h).1
  by_cases hij : i = j
  · subst hij
    rw [h] at hj
    cases hj
    exact ⟨new,List.mem_set hi new,hmove hP⟩
  · refine ⟨x,List.mem_of_getElem? (i := j) ?_,hP⟩
    rw [List.getElem?_set_ne hij,hj]

end Runs
