import Rqx.Runs
import Mathlib.Data.List.Nodup

/-! Tasks that share a state behind a mutex. The one that holds it goes on action by action, may
wait for something inside, and may be dropped where it waits. -/
namespace Guarded

/-- What a task does while it holds the mutex, and what others do to the state meanwhile. -/
structure Section (σ κ α ε ρ : Type*) where
  start : κ
  /-- An action of the holder: it goes on at another point, or returns. -/
  act : α → κ → σ → Option ((κ ⊕ ρ) × σ)
  /-- Where the holder waits, and can be dropped. -/
  awaits : κ → Bool
  disturb : ε → Option κ → σ → Option σ

inductive Task (ρ : Type*)
  | waiting
  | inside
  | returned (result : ρ)
  | dropped

structure State (σ κ ρ : Type*) where
  shared : σ
  holder : Option (ℕ × κ)
  tasks : List (Task ρ)
  /-- Which task has returned what, in this order. -/
  log : List (ℕ × ρ)

inductive Action (α ε : Type*)
  | spawn
  | lock (i : ℕ)
  | act (a : α)
  | drop (i : ℕ)
  | disturb (e : ε)

variable {σ κ α ε ρ : Type*}

def init (s : σ) : State σ κ ρ := ⟨s,none,[],[]⟩

def State.results (s : State σ κ ρ) : List ρ := s.log.map Prod.snd

def State.point (s : State σ κ ρ) : Option κ := s.holder.map Prod.snd

variable (S : Section σ κ α ε ρ)

def lockStep (s : State σ κ ρ) (i : ℕ) : Option (State σ κ ρ) :=
  match s.holder,s.tasks[i]? with
  | none,some .waiting =>
    some { s with holder := some (i,S.start), tasks := s.tasks.set i .inside }
  | _,_ => none

def actStep (s : State σ κ ρ) (a : α) : Option (State σ κ ρ) :=
  match s.holder with
  | none => none
  | some (i,k) =>
    match S.act a k s.shared with
    | none => none
    | some (.inl k',shared) => some { s with shared, holder := some (i,k') }
    | some (.inr r,shared) => some
        ⟨shared,none,s.tasks.set i (.returned r),s.log++[(i,r)]⟩

def dropStep (s : State σ κ ρ) (i : ℕ) : Option (State σ κ ρ) :=
  match s.tasks[i]?,s.holder with
  | some .waiting,_ => some { s with tasks := s.tasks.set i .dropped }
  | some .inside,some (j,k) =>
    if j = i ∧ S.awaits k then
      some { s with holder := none, tasks := s.tasks.set i .dropped }
    else none
  | _,_ => none

def step (s : State σ κ ρ) : Action α ε → Option (State σ κ ρ)
  | .spawn => some { s with tasks := s.tasks++[.waiting] }
  | .lock i => lockStep S s i
  | .act a => actStep S s a
  | .drop i => dropStep S s i
  | .disturb e => (S.disturb e s.point s.shared).map fun shared => { s with shared }

/-! ## What a step can do -/

section Inversion

variable {S} {s t : State σ κ ρ}

theorem lockStep_cases {i : ℕ} (h : lockStep S s i = some t) :
    s.holder = none ∧ (∃ u, s.tasks[i]? = some u ∧ ∀ r, u ≠ .returned r) ∧
      t = { s with holder := some (i,S.start), tasks := s.tasks.set i .inside } := by
  unfold lockStep at h
  split at h
  · next hholder htask => exact ⟨hholder,⟨_,htask,by simp⟩,(Option.some.inj h).symm⟩
  · cases h

theorem actStep_cases {a : α} (h : actStep S s a = some t) : ∃ i k, s.holder = some (i,k) ∧
    ((∃ k' shared, S.act a k s.shared = some (.inl k',shared) ∧
      t = { s with shared, holder := some (i,k') }) ∨
    ∃ r shared, S.act a k s.shared = some (.inr r,shared) ∧
      t = ⟨shared,none,s.tasks.set i (.returned r),s.log++[(i,r)]⟩) := by
  unfold actStep at h
  split at h
  · cases h
  · next i k hholder =>
    refine ⟨i,k,hholder,?_⟩
    split at h
    · cases h
    · next k' shared hact => exact .inl ⟨k',shared,hact,(Option.some.inj h).symm⟩
    · next r shared hact => exact .inr ⟨r,shared,hact,(Option.some.inj h).symm⟩

theorem dropStep_cases {i : ℕ} (h : dropStep S s i = some t) :
    (∃ u, s.tasks[i]? = some u ∧ ∀ r, u ≠ .returned r) ∧
    (t = { s with tasks := s.tasks.set i .dropped } ∧ s.tasks[i]? = some .waiting ∨
      ∃ k, s.holder = some (i,k) ∧ S.awaits k ∧
        t = { s with holder := none, tasks := s.tasks.set i .dropped }) := by
  unfold dropStep at h
  split at h
  · next htask => exact ⟨⟨_,htask,by simp⟩,.inl ⟨(Option.some.inj h).symm,htask⟩⟩
  · next j k htask hholder =>
    split at h
    · next hc =>
      obtain ⟨rfl,hawaits⟩ := hc
      exact ⟨⟨_,htask,by simp⟩,.inr ⟨k,hholder,hawaits,(Option.some.inj h).symm⟩⟩
    · cases h
  · cases h

end Inversion

/-! ## The rule for the shared state -/

/-- What the holder and the others keep, in terms of the point where the holder is and of what
has been returned. -/
structure Keeps (I : Option κ → List ρ → σ → Prop) : Prop where
  lock : ∀ log s, I none log s → I (some S.start) log s
  act : ∀ log s a k k' t, I (some k) log s → S.act a k s = some (.inl k',t) → I (some k') log t
  leave : ∀ log s a k r t, I (some k) log s → S.act a k s = some (.inr r,t) → I none (log++[r]) t
  drop : ∀ log s k, I (some k) log s → S.awaits k → I none log s
  disturb : ∀ log s e k t, I k log s → S.disturb e k s = some t → I k log t

variable {S}

theorem step_keeps {I : Option κ → List ρ → σ → Prop} (hI : Keeps S I) {s t : State σ κ ρ}
    {a : Action α ε} (hs : I s.point s.results s.shared) (h : step S s a = some t) :
    I t.point t.results t.shared := by
  cases a with
  | spawn =>
    obtain rfl := Option.some.inj h
    exact hs
  | lock i =>
    obtain ⟨hholder,_,rfl⟩ := lockStep_cases h
    simp only [State.point,hholder,Option.map_none] at hs
    exact hI.lock _ _ hs
  | act a =>
    obtain ⟨i,k,hholder,⟨k',shared,hact,rfl⟩ | ⟨r,shared,hact,rfl⟩⟩ := actStep_cases h
    all_goals simp only [State.point,hholder,Option.map_some] at hs
    · exact hI.act _ _ _ _ _ _ hs hact
    · have hleave := hI.leave _ _ _ _ _ _ hs hact
      simpa [State.point,State.results] using hleave
  | drop i =>
    obtain ⟨_,⟨rfl,_⟩ | ⟨k,hholder,hawaits,rfl⟩⟩ := dropStep_cases h
    · exact hs
    · simp only [State.point,hholder,Option.map_some] at hs
      exact hI.drop _ _ _ hs hawaits
  | disturb e =>
    obtain ⟨shared,hdisturb,rfl⟩ := Option.map_eq_some_iff.mp h
    exact hI.disturb _ _ _ _ _ hs hdisturb

/-- The rule: what the holder and the others keep holds in every state of every run. -/
theorem run_keeps {I : Option κ → List ρ → σ → Prop} (hI : Keeps S I) {s : σ} (hs : I none [] s)
    {as : List (Action α ε)} {t : State σ κ ρ} (h : Runs.run (step S) (init s) as = some t) :
    I t.point t.results t.shared :=
  Runs.run_invariant (I := fun u => I u.point u.results u.shared)
    (fun _ _ _ hu hstep => step_keeps hI hu hstep) hs h

/-! ## The log -/

/-- The log has what each task has returned, and nothing twice. -/
structure Logged (s : State σ κ ρ) : Prop where
  nodup : (s.log.map Prod.fst).Nodup
  returned : ∀ i r, (i,r) ∈ s.log ↔ s.tasks[i]? = some (.returned r)
  holder : ∀ i k, s.holder = some (i,k) → s.tasks[i]? = some .inside

theorem logged_init (s : σ) : Logged (init s : State σ κ ρ) :=
  ⟨List.nodup_nil,fun _ _ => by simp [init],fun _ _ h => by simp [init] at h⟩

/-- A task that has not returned moves to a point where it has not either. -/
theorem returned_set {tasks : List (Task ρ)} {i : ℕ} {old new : Task ρ}
    (hold : tasks[i]? = some old) (ho : ∀ r, old ≠ .returned r) (hn : ∀ r, new ≠ .returned r)
    (j : ℕ) (r : ρ) :
    (tasks.set i new)[j]? = some (.returned r) ↔ tasks[j]? = some (.returned r) := by
  have hlt := (List.getElem?_eq_some_iff.mp hold).1
  by_cases hij : i = j
  · subst hij
    rw [List.getElem?_set_self hlt,hold]
    simp [ho r,hn r]
  · rw [List.getElem?_set_ne hij]

theorem step_logged {s t : State σ κ ρ} {a : Action α ε} (hs : Logged s) (h : step S s a = some t) :
    Logged t := by
  cases a with
  | spawn =>
    obtain rfl := Option.some.inj h
    refine ⟨hs.nodup,fun i r => ?_,fun i k hholder => ?_⟩
    · rw [hs.returned]
      by_cases hi : i < s.tasks.length
      · simp [List.getElem?_append_left hi]
      · have hnone : s.tasks[i]? = none := List.getElem?_eq_none (Nat.le_of_not_lt hi)
        rw [hnone,List.getElem?_append_right (Nat.le_of_not_lt hi)]
        cases hc : ([.waiting] : List (Task ρ))[i-s.tasks.length]? with
        | none => simp
        | some u =>
          obtain rfl := List.mem_singleton.mp (List.mem_of_getElem? hc)
          simp
    · have hin := hs.holder i k hholder
      rwa [List.getElem?_append_left (List.getElem?_eq_some_iff.mp hin).1]
  | lock i =>
    obtain ⟨_,⟨u,hu,hne⟩,rfl⟩ := lockStep_cases h
    refine ⟨hs.nodup,fun j r => ?_,fun j k hholder => ?_⟩
    · rw [hs.returned]
      exact (returned_set hu hne (by simp) j r).symm
    · obtain ⟨rfl,_⟩ := Prod.ext_iff.mp (Option.some.inj hholder)
      exact List.getElem?_set_self (List.getElem?_eq_some_iff.mp hu).1
  | act a =>
    obtain ⟨i,k,hholder,⟨k',shared,_,rfl⟩ | ⟨r,shared,_,rfl⟩⟩ := actStep_cases h
    · refine ⟨hs.nodup,hs.returned,fun j k'' hj => ?_⟩
      obtain ⟨rfl,_⟩ := Prod.ext_iff.mp (Option.some.inj hj)
      exact hs.holder i k hholder
    · have hin := hs.holder i k hholder
      have hlt := (List.getElem?_eq_some_iff.mp hin).1
      refine ⟨?_,fun j r' => ?_,by simp⟩
      · have hnot : i ∉ s.log.map Prod.fst := by
          intro hi
          obtain ⟨⟨j,r'⟩,hmem,rfl⟩ := List.mem_map.mp hi
          rw [hs.returned,hin] at hmem
          cases hmem
        rw [List.map_append]
        exact List.Nodup.append hs.nodup (by simp) (by simpa using hnot)
      · by_cases hij : i = j
        · subst hij
          have hnot : (i,r') ∉ s.log := by
            rw [hs.returned,hin]
            simp
          simp [List.getElem?_set_self hlt,hnot,eq_comm]
        · rw [List.getElem?_set_ne hij,← hs.returned]
          simp [Ne.symm hij]
  | drop i =>
    obtain ⟨⟨u,hu,hne⟩,⟨rfl,hwaiting⟩ | ⟨k,hholder,_,rfl⟩⟩ := dropStep_cases h
    · refine ⟨hs.nodup,fun j r => ?_,fun j k hj => ?_⟩
      · rw [hs.returned]
        exact (returned_set hu hne (by simp) j r).symm
      · have hin := hs.holder j k hj
        have hij : i ≠ j := by
          rintro rfl
          rw [hwaiting] at hin
          cases hin
        exact (List.getElem?_set_ne hij).trans hin
    · refine ⟨hs.nodup,fun j r => ?_,by simp⟩
      rw [hs.returned]
      exact (returned_set hu hne (by simp) j r).symm
  | disturb e =>
    obtain ⟨shared,_,rfl⟩ := Option.map_eq_some_iff.mp h
    exact ⟨hs.nodup,hs.returned,hs.holder⟩

theorem run_logged {s : σ} {as : List (Action α ε)} {t : State σ κ ρ}
    (h : Runs.run (step S) (init s) as = some t) : Logged t :=
  Runs.run_invariant (fun _ _ _ hu hstep => step_logged hu hstep) (logged_init s) h

end Guarded
