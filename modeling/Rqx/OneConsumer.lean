import Rqx.StreamResponse

/-! The body of an async stream response goes to one consumer, an iterator or a read, whatever
futures run on the response and wherever they are cancelled. -/
namespace Rqx
namespace PyAsyncStreamResponse

def Body.isLive : Body → Bool
  | .Live _ => true
  | .Streaming | .Buffered _ => false

/-- The call gives out an iterator. -/
def starts (s : State) : Action → Bool
  | .aiterBytes chunkSize => (s.aiterBytes chunkSize).1.isOk
  | .aiterText E chunkSize => (s.aiterText E chunkSize).1.isOk
  | .aiterLines E => (s.aiterLines E).1.isOk
  | _ => false

/-- The read that runs takes the live body. -/
def takes (s : State) : Action → Bool
  | .poll i => s.tasks[i]? = some .aread && s.body.any Body.isLive
  | _ => false

/-- How often a run has handed out the live body, to iterators and to reads. -/
structure HandOuts where
  iterators : ℕ
  reads : ℕ
  deriving DecidableEq

/-- A run that counts them. -/
def countingStep (p : State × HandOuts) (a : Action) : Option (State × HandOuts) :=
  (step p.1 a).map fun t =>
    (t,⟨p.2.iterators+(starts p.1 a).toNat,p.2.reads+(takes p.1 a).toNat⟩)

def Task.holds : Task → Bool
  | .reading _ => true
  | _ => false

def Task.gives : Task → Bool
  | .returned (.ok _) => true
  | _ => false

def Body.isBuffered : Body → Bool
  | .Buffered _ => true
  | .Live _ | .Streaming => false

/-- The body is in memory, or has been. -/
def State.inMemory (s : State) : Bool := s.body.any Body.isBuffered || s.tasks.any Task.gives

/-- How often the body can be had: in the slot, from a read that awaits it, from memory, and
from the iterators. -/
def consumers (p : State × ℕ) : ℕ :=
  (p.1.body.any Body.isLive).toNat+p.1.tasks.countP Task.holds+p.1.inMemory.toNat+p.2

/-- What the body is, wherever it is. -/
structure Holds (response : ChunkStream) (s : State) : Prop where
  live : ∀ live, s.body = some (.Live live) → live = response
  buffered : ∀ bytes, s.body = some (.Buffered bytes) → readAll response = .ok bytes
  reading : ∀ live, .reading live ∈ s.tasks → live = response
  returned : ∀ bytes, .returned (.ok bytes) ∈ s.tasks → readAll response = .ok bytes

theorem holds_fromPending (response : ChunkStream) : Holds response (fromPending response) := by
  constructor <;> simp [fromPending]

theorem consumers_fromPending (response : ChunkStream) :
    consumers (fromPending response,0) = 1 := rfl

theorem any_set {p : Task → Bool} {tasks : List Task} {i : ℕ} {old : Task}
    (h : tasks[i]? = some old) (hold : p old = false) (new : Task) :
    (tasks.set i new).any p = (tasks.any p || p new) := by
  induction tasks generalizing i with
  | nil => simp at h
  | cons task tasks ih =>
    cases i with
    | zero =>
      obtain rfl : task = old := by simpa using h
      simp [hold,Bool.or_comm]
    | succ i => simp [ih (by simpa using h),Bool.or_assoc]

section Store

variable {response : ChunkStream} {s u : State} {i : ℕ} {old new : Task}

/-- A future moves on: what the state can give changes by what the future held and holds. -/
theorem consumers_store (u : State) (new : Task) {n : ℕ} (hu : u.tasks = s.tasks)
    (h : s.tasks[i]? = some old) (hold : old.gives = false) :
    consumers (.store i (new,u),n)+old.holds.toNat =
      (u.body.any Body.isLive).toNat+s.tasks.countP Task.holds+new.holds.toNat+
        (u.body.any Body.isBuffered || s.tasks.any Task.gives || new.gives).toNat+n := by
  have hcount := Runs.countP_set Task.holds h new
  have hany := any_set (p := Task.gives) h hold new
  simp only [consumers,State.inMemory,State.store,hu,hany,← Bool.or_assoc]
  omega

theorem holds_store (hs : Holds response s) (hu : u.tasks = s.tasks)
    (hlive : ∀ live, u.body = some (.Live live) → live = response)
    (hbuffered : ∀ bytes, u.body = some (.Buffered bytes) → readAll response = .ok bytes)
    (hreading : ∀ live, new = .reading live → live = response)
    (hreturned : ∀ bytes, new = .returned (.ok bytes) → readAll response = .ok bytes) :
    Holds response (.store i (new,u)) where
  live := hlive
  buffered := hbuffered
  reading live hm := by
    rcases List.mem_or_eq_of_mem_set hm with hm | hm
    · exact hs.reading live (hu ▸ hm)
    · exact hreading live hm.symm
  returned bytes hm := by
    rcases List.mem_or_eq_of_mem_set hm with hm | hm
    · exact hs.returned bytes (hu ▸ hm)
    · exact hreturned bytes hm.symm

end Store

/-- At most one consumer, and what it has is the body. -/
structure OneConsumer (response : ChunkStream) (p : State × ℕ) : Prop where
  one : consumers p ≤ 1
  holds : Holds response p.1

section Step

variable {response : ChunkStream} {s : State} {n i : ℕ} {task : Task}

theorem startStream_consumer (h : OneConsumer response (s,n)) :
    OneConsumer response (s.startStream.2,n+s.startStream.1.isOk.toNat) := by
  obtain ⟨hone,hholds⟩ := h
  unfold State.startStream
  split
  · next live hb =>
    simp only [consumers,hb] at hone
    refine ⟨?_,by simp,by simp,hholds.reading,hholds.returned⟩
    simp_all [consumers,State.inMemory,Body.isLive,Body.isBuffered,Except.isOk,Except.toBool]
    omega
  all_goals exact ⟨hone,hholds⟩

theorem moved_consumer (h : OneConsumer response (s,n)) (ht : s.tasks[i]? = some task)
    {u : State} {new : Task} (hu : u.tasks = s.tasks) (hbody : u.body = s.body ∨ u.body = none)
    (hgives : task.gives = false) (hholds : new.holds = false)
    (hnew : new.gives = true → s.body.any Body.isBuffered = true)
    (hreturned : ∀ bytes, new = .returned (.ok bytes) → s.body = some (.Buffered bytes)) :
    OneConsumer response (.store i (new,u),n) := by
  obtain ⟨hone,hs⟩ := h
  constructor
  · have hstore := consumers_store u new (n := n) hu ht hgives
    have hlive : (u.body.any Body.isLive).toNat ≤ (s.body.any Body.isLive).toNat := by
      rcases hbody with hb | hb <;> simp [hb]
    have hmemory : (u.body.any Body.isBuffered || s.tasks.any Task.gives || new.gives).toNat ≤
        s.inMemory.toNat := by
      refine Bool.toNat_le_toNat (Bool.le_iff_imp.mpr fun hu => ?_)
      simp only [State.inMemory,Bool.or_eq_true] at hu ⊢
      rcases hu with (hu | hu) | hu
      · rcases hbody with hb | hb
        · exact .inl (hb ▸ hu)
        · simp [hb] at hu
      · exact .inr hu
      · exact .inl (hnew hu)
    simp only [consumers] at hone
    rw [hholds] at hstore
    simp only [Bool.toNat_false] at hstore
    omega
  · refine holds_store hs hu ?_ ?_ ?_ ?_
    · intro live hl
      rcases hbody with hb | hb
      · exact hs.live live (hb ▸ hl)
      · simp [hb] at hl
    · intro bytes hl
      rcases hbody with hb | hb
      · exact hs.buffered bytes (hb ▸ hl)
      · simp [hb] at hl
    · rintro live rfl
      simp [Task.holds] at hholds
    · exact fun bytes hb => hs.buffered bytes (hreturned bytes hb)

theorem takeLive_consumer (h : OneConsumer response (s,n)) (ht : s.tasks[i]? = some .aread) :
    OneConsumer response (.store i s.takeLive,n) := by
  unfold State.takeLive
  split
  · next live hb =>
    obtain ⟨hone,hs⟩ := h
    have hstore := consumers_store { s with body := none } (.reading live) (n := n) rfl ht rfl
    refine ⟨?_,holds_store hs rfl (by simp) (by simp) ?_ (by simp)⟩
    · simp_all [consumers,State.inMemory,Task.holds,Task.gives,Body.isLive,Body.isBuffered]
      omega
    · rintro _ ⟨⟩
      exact hs.live live hb
  · next bytes hb =>
    exact moved_consumer h ht rfl (.inl rfl) rfl rfl (by simp [hb,Body.isBuffered]) (by simp [hb])
  · exact moved_consumer h ht rfl (.inl rfl) rfl rfl (by simp [Task.gives]) (by simp)
  · exact moved_consumer h ht rfl (.inl rfl) rfl rfl (by simp [Task.gives]) (by simp)

/-- The read that holds the body ends: the bytes are what it was awaiting. -/
theorem writeBack_consumer (h : OneConsumer response (s,n)) {live : ChunkStream}
    (ht : s.tasks[i]? = some (.reading live)) :
    OneConsumer response (.store i (s.writeBack live),n) := by
  unfold State.writeBack
  split
  · next bytes hl =>
    obtain ⟨hone,hs⟩ := h
    obtain rfl := hs.reading live (List.mem_of_getElem? ht)
    have hstore := consumers_store { s with body := some (.Buffered bytes) } (.returned (.ok bytes))
      (n := n) rfl ht rfl
    have hheld : 0 < s.tasks.countP Task.holds :=
      List.countP_pos_iff.mpr ⟨_,List.mem_of_getElem? ht,rfl⟩
    refine ⟨?_,holds_store hs rfl (by simp) ?_ (by simp) ?_⟩
    · simp only [consumers] at hone
      simp [Task.holds,Task.gives,Body.isLive,Body.isBuffered] at hstore
      omega
    · rintro _ ⟨⟩
      exact hl
    · rintro _ ⟨⟩
      exact hl
  · exact moved_consumer h ht rfl (.inl rfl) rfl rfl (by simp [Task.gives]) (by simp)

theorem poll_consumer (h : OneConsumer response (s,n)) (ht : s.tasks[i]? = some task)
    {p : Task × State} (hp : s.poll task = some p) : OneConsumer response (.store i p,n) := by
  cases task with
  | aread =>
    obtain rfl := Option.some.inj hp
    exact takeLive_consumer h ht
  | reading live =>
    obtain rfl := Option.some.inj hp
    exact writeBack_consumer h ht
  | aclose | exiting =>
    obtain rfl := Option.some.inj hp
    unfold State.takeBody
    split
    · exact moved_consumer h ht rfl (.inr rfl) rfl rfl (by simp [Task.gives]) (by simp)
    · exact moved_consumer h ht rfl (.inr rfl) rfl rfl (by simp [Task.gives]) (by simp)
  | aexit =>
    obtain rfl := Option.some.inj hp
    unfold State.takeResponse
    split
    · exact moved_consumer h ht rfl (.inl rfl) rfl rfl (by simp [Task.gives]) (by simp)
    · exact moved_consumer h ht rfl (.inl rfl) rfl rfl (by simp [Task.gives]) (by simp)
  | closing | dropping | finishing =>
    obtain rfl := Option.some.inj hp
    exact moved_consumer h ht rfl (.inl rfl) rfl rfl (by simp [Task.gives]) (by simp)
  | _ => simp [State.poll] at hp

end Step

theorem spawned_consumer {response : ChunkStream} {s : State} {n : ℕ} {task : Task}
    (h : OneConsumer response (s,n)) (hholds : task.holds = false) (hgives : task.gives = false) :
    OneConsumer response ({ s with tasks := s.tasks++[task] },n) := by
  obtain ⟨hone,hs⟩ := h
  refine ⟨?_,hs.live,hs.buffered,fun live hm => ?_,fun bytes hm => ?_⟩
  · simpa [consumers,State.inMemory,hholds,hgives,List.countP_append] using hone
  · rcases List.mem_append.mp hm with hm | hm
    · exact hs.reading live hm
    · obtain rfl : _ = task := List.mem_singleton.mp hm
      simp [Task.holds] at hholds
  · rcases List.mem_append.mp hm with hm | hm
    · exact hs.returned bytes hm
    · obtain rfl : _ = task := List.mem_singleton.mp hm
      simp [Task.gives] at hgives

theorem isOk_map {ε α β : Type} (r : Except ε α) (f : α → β) : (r.map f).isOk = r.isOk := by
  cases r <;> rfl

theorem step_consumer {response : ChunkStream} {s t : State} {n : ℕ} {a : Action}
    (h : OneConsumer response (s,n)) (ht : step s a = some t) :
    OneConsumer response (t,n+(starts s a).toNat) := by
  cases a with
  | aread | aclose | aexit =>
    obtain rfl := Option.some.inj ht
    exact spawned_consumer h rfl rfl
  | aiterBytes size =>
    obtain rfl := Option.some.inj ht
    have hstart := startStream_consumer h
    simp only [starts,State.aiterBytes]
    cases State.checkedChunkSize size with
    | error e => exact h
    | ok size => simpa only [isOk_map] using hstart
  | aiterText E size =>
    obtain rfl := Option.some.inj ht
    have hstart := startStream_consumer h
    simp only [starts,State.aiterText]
    cases State.checkedChunkSize size with
    | error e => exact h
    | ok size => simpa only [isOk_map] using hstart
  | aiterLines E =>
    obtain rfl := Option.some.inj ht
    have hstart := startStream_consumer h
    simp only [starts,State.aiterLines]
    simpa only [isOk_map] using hstart
  | nextChunk =>
    obtain rfl := Option.some.inj ht
    exact ⟨h.one,h.holds.live,h.holds.buffered,h.holds.reading,h.holds.returned⟩
  | poll i =>
    cases htask : s.tasks[i]? with
    | none => simp [step,htask] at ht
    | some task =>
      cases hp : s.poll task with
      | none => simp [step,htask,hp] at ht
      | some p =>
        obtain rfl : _ = t := by simpa [step,htask,hp] using ht
        exact poll_consumer h htask hp
  | cancel i =>
    simp only [step] at ht
    split at ht
    · obtain rfl := Option.some.inj ht
      exact moved_consumer h ‹_› rfl (.inl rfl) rfl rfl (by simp [Task.gives]) (by simp)
    · obtain rfl := Option.some.inj ht
      exact moved_consumer h ‹_› rfl (.inl rfl) rfl rfl (by simp [Task.gives]) (by simp)
    · cases ht

/-! ## Over the run -/

theorem startStream_live (s : State) : (s.startStream.2.body.any Body.isLive).toNat+
    s.startStream.1.isOk.toNat ≤ (s.body.any Body.isLive).toNat := by
  unfold State.startStream
  split
  all_goals simp_all [Body.isLive,Except.isOk,Except.toBool]

theorem poll_live {s : State} {task : Task} {p : Task × State} (hp : s.poll task = some p) :
    (p.2.body.any Body.isLive).toNat+(decide (task = .aread) && s.body.any Body.isLive).toNat ≤
      (s.body.any Body.isLive).toNat := by
  cases task with
  | aread =>
    obtain rfl := Option.some.inj hp
    unfold State.takeLive
    split
    all_goals simp_all [Body.isLive]
  | reading live =>
    obtain rfl := Option.some.inj hp
    unfold State.writeBack
    split <;> simp [Body.isLive]
  | aclose | exiting =>
    obtain rfl := Option.some.inj hp
    simp [State.takeBody]
  | aexit =>
    obtain rfl := Option.some.inj hp
    unfold State.takeResponse
    split <;> simp
  | closing | dropping | finishing =>
    obtain rfl := Option.some.inj hp
    simp
  | _ => simp [State.poll] at hp

/-- Whoever is handed the live body, it is gone from the slot, and nothing puts it back. -/
theorem live_step {s t : State} {a : Action} (ht : step s a = some t) :
    (t.body.any Body.isLive).toNat+((starts s a).toNat+(takes s a).toNat) ≤
      (s.body.any Body.isLive).toNat := by
  have hstart := startStream_live s
  cases a with
  | aread | aclose | aexit | nextChunk =>
    obtain rfl := Option.some.inj ht
    simp [starts,takes]
  | aiterBytes size =>
    obtain rfl := Option.some.inj ht
    simp only [starts,takes,State.aiterBytes]
    cases State.checkedChunkSize size with
    | error e => simp [Except.isOk,Except.toBool]
    | ok size => simpa only [isOk_map,Bool.toNat_false,Nat.add_zero] using hstart
  | aiterText E size =>
    obtain rfl := Option.some.inj ht
    simp only [starts,takes,State.aiterText]
    cases State.checkedChunkSize size with
    | error e => simp [Except.isOk,Except.toBool]
    | ok size => simpa only [isOk_map,Bool.toNat_false,Nat.add_zero] using hstart
  | aiterLines E =>
    obtain rfl := Option.some.inj ht
    simp only [starts,takes,State.aiterLines]
    simpa only [isOk_map,Bool.toNat_false,Nat.add_zero] using hstart
  | poll i =>
    cases htask : s.tasks[i]? with
    | none => simp [step,htask] at ht
    | some task =>
      cases hp : s.poll task with
      | none => simp [step,htask,hp] at ht
      | some p =>
        obtain rfl : _ = t := by simpa [step,htask,hp] using ht
        simpa [starts,takes,htask,State.store] using poll_live hp
  | cancel i =>
    simp only [step] at ht
    split at ht
    · obtain rfl := Option.some.inj ht
      simp [starts,takes,State.store]
    · obtain rfl := Option.some.inj ht
      simp [starts,takes,State.store]
    · cases ht

/-- The body has one consumer, and has been handed out once if it is not in the slot. -/
structure HandedOut (response : ChunkStream) (p : State × HandOuts) : Prop where
  consumer : OneConsumer response (p.1,p.2.iterators)
  once : (p.1.body.any Body.isLive).toNat+(p.2.iterators+p.2.reads) ≤ 1

theorem step_handedOut (response : ChunkStream) (p : State × HandOuts) (a : Action)
    (q : State × HandOuts) (h : HandedOut response p) (hstep : countingStep p a = some q) :
    HandedOut response q := by
  obtain ⟨t,ht,rfl⟩ := Option.map_eq_some_iff.mp hstep
  have hlive := live_step ht
  have honce := h.once
  exact ⟨step_consumer h.consumer ht,by simp only; omega⟩

/-- What every interleaving keeps to: over the whole run the live body is handed out once at most, to
an iterator or to a read; with an iterator nothing is in memory; and what is in memory, or has been
returned, is the whole body. -/
structure Exclusive (response : ChunkStream) (s : State) (handOuts : HandOuts) : Prop where
  once : handOuts.iterators+handOuts.reads ≤ 1
  reading : s.tasks.countP Task.holds ≤ 1
  iterator : handOuts.iterators = 1 → s.tasks.countP Task.holds = 0 ∧ s.inMemory = false ∧
    ∀ live, s.body ≠ some (.Live live)
  content : ∀ bytes, s.content = .ok bytes → readAll response = .ok bytes
  returned : ∀ bytes, .returned (.ok bytes) ∈ s.tasks → readAll response = .ok bytes

theorem HandedOut.exclusive {response : ChunkStream} {s : State} {handOuts : HandOuts}
    (h : HandedOut response (s,handOuts)) : Exclusive response s handOuts := by
  obtain ⟨⟨hone,hs⟩,honce⟩ := h
  simp only [consumers] at hone
  simp only at honce
  refine ⟨by omega,by omega,fun hn => ⟨by omega,?_,fun live hb => ?_⟩,fun bytes hc => ?_,
    hs.returned⟩
  · cases hm : s.inMemory with
    | false => rfl
    | true =>
      simp only [hm,Bool.toNat_true] at hone
      omega
  · simp [hb,Body.isLive] at hone
    omega
  · refine hs.buffered bytes ?_
    simp only [State.content,State.buffered] at hc
    split at hc <;> cases hc
    assumption

/-- Over every interleaving of reads, iterators, closes and exits, cancelled anywhere. -/
theorem one_consumer (response : ChunkStream) (as : List Action) (s : State) (handOuts : HandOuts)
    (h : Runs.run countingStep (fromPending response,⟨0,0⟩) as = some (s,handOuts)) :
    Exclusive response s handOuts := by
  have hstart : HandedOut response (fromPending response,⟨0,0⟩) :=
    ⟨⟨Nat.le_of_eq (consumers_fromPending response),holds_fromPending response⟩,Nat.le_refl 1⟩
  exact (Runs.run_invariant (step_handedOut response) hstart h).exclusive

/-- A read takes the body and is cancelled: neither a second read nor an iterator gets it. -/
theorem one_consumer_cancelled :
    ∃ s, Runs.run countingStep (fromPending [.ok [1],.ok [2]],⟨0,0⟩)
      [.aread,.aread,.poll 0,.cancel 0,.poll 1,.aiterBytes none] = some (s,⟨0,1⟩) ∧
      s.tasks = [.cancelled,.returned (.error (.Py responseClosed))] ∧
      Exclusive [.ok [1],.ok [2]] s ⟨0,1⟩ := by
  refine ⟨_,rfl,by decide,?_⟩
  exact one_consumer [.ok [1],.ok [2]] [.aread,.aread,.poll 0,.cancel 0,.poll 1,.aiterBytes none] _
    ⟨0,1⟩ rfl

end PyAsyncStreamResponse
end Rqx
