import Rqx.Iterators
import Rqx.Runs

/-! `PyAsyncStreamResponse` and the context that closes it: the body slot, the methods that
look at it in one critical section, and the futures that come back to it after an await. -/
namespace Rqx

/-- The body of a stream response. `Streaming` is a handle to the stream it shares with
the iterator. -/
inductive Body
  | Live (response : ChunkStream)
  | Streaming
  | Buffered (bytes : Bytes)
  deriving DecidableEq

/-- `reqwest::Response::bytes`: the whole body, or the first error. -/
def readAll : ChunkStream → Except ReqwestError Bytes
  | [] => .ok []
  | .error e :: _ => .error e
  | .ok bytes :: rest => (readAll rest).map (bytes++·)

namespace PyAsyncStreamResponse

/-- A future of the response or of its context, by what it does next. -/
inductive Task
  | aread
  /-- `aread` holds the live body and awaits the network. -/
  | reading (live : ChunkStream)
  | returned (result : Except PyRqxError Bytes)
  | aclose
  | aexit
  /-- `__aexit__` holds the response and takes its body next. -/
  | exiting
  /-- `LiveStream::close`: the flag and the wake-up, then the slot. -/
  | closing
  | dropping
  | finishing
  /-- `aclose` or `__aexit__` has completed. -/
  | closed
  | cancelled
  deriving DecidableEq

structure State where
  body : Option Body
  /-- The stream that the handles share, once there is one. -/
  stream : LiveStream
  /-- The context still has the response. -/
  context : Bool
  tasks : List Task
  deriving DecidableEq

def responseClosed : PyErr := .StreamClosed "response closed"
def alreadyConsumed : PyErr := .StreamConsumed "response already consumed"
def notRead : PyErr := .ResponseNotRead "response not read; call aread() first"

/-- A response as the context hands it out. -/
def fromPending (response : ChunkStream) : State := ⟨some (.Live response),⟨none,false⟩,true,[]⟩

namespace State

def isClosed (s : State) : Bool :=
  match s.body with
  | none => true
  | some .Streaming => s.stream.isClosed
  | some (.Live _) | some (.Buffered _) => false

/-- The buffered bytes that `content`, `text` and `json` work on. -/
def buffered (s : State) : Except PyErr Bytes :=
  match s.body with
  | some (.Buffered bytes) => .ok bytes
  | some (.Live _) | some .Streaming => .error notRead
  | none => .error responseClosed

def content (s : State) : Except PyErr Bytes := s.buffered

def text (rs : Encodings) (parts : ResponseParts) (s : State) : Except PyErr Text :=
  s.buffered.map (parts.text rs)

/-- `parse` is `ResponseParts::json` and the conversion to a Python value. -/
def json {V : Type} (parse : Bytes → Except PyRqxError V) (s : State) : Except PyRqxError V :=
  match s.buffered with
  | .ok bytes => parse bytes
  | .error e => .error (.Py e)

/-- Hand the live body to an iterator, keeping a handle so closing reaches it. -/
def startStream (s : State) : Except PyErr Unit × State :=
  match s.body with
  | some (.Live response) => (.ok (),{ s with body := some .Streaming, stream := .new response })
  | some .Streaming => (.error alreadyConsumed,s)
  | some (.Buffered _) =>
    (.error (.StreamConsumed
      "response already read into memory; use .content, .text or .json()"),s)
  | none => (.error responseClosed,s)

def checkedChunkSize (chunkSize : Option ℕ) : Except PyErr (Option ℕ) :=
  if chunkSize = some 0 then .error (.ValueError "chunk_size must be at least 1")
  else .ok chunkSize

def aiterBytes (chunkSize : Option ℕ) (s : State) : Except PyErr ByteChunker × State :=
  match checkedChunkSize chunkSize with
  | .error e => (.error e,s)
  | .ok size =>
    let (started,s) := s.startStream
    (started.map fun _ => .new size,s)

def aiterText (E : Encoding) (chunkSize : Option ℕ) (s : State) :
    Except PyErr (TextState E) × State :=
  match checkedChunkSize chunkSize with
  | .error e => (.error e,s)
  | .ok size =>
    let (started,s) := s.startStream
    (started.map fun _ => ⟨.new E,.new size⟩,s)

def aiterLines (E : Encoding) (s : State) : Except PyErr (LineState E) × State :=
  let (started,s) := s.startStream
  (started.map fun _ => ⟨.new E,.new,[]⟩,s)

/-- Take the body out of the slot to close it. -/
def takeBody (s : State) : Task × State :=
  (if s.body = some .Streaming then .closing else .finishing,{ s with body := none })

/-- `aread`, up to its await: take the live body, or answer at once. -/
def takeLive (s : State) : Task × State :=
  match s.body with
  | some (.Live live) => (.reading live,{ s with body := none })
  | some (.Buffered bytes) => (.returned (.ok bytes),s)
  | some .Streaming => (.returned (.error (.Py alreadyConsumed)),s)
  | none => (.returned (.error (.Py responseClosed)),s)

/-- `aread`, after its await: store the bytes. -/
def writeBack (s : State) (live : ChunkStream) : Task × State :=
  match readAll live with
  | .ok bytes => (.returned (.ok bytes),{ s with body := some (.Buffered bytes) })
  | .error e => (.returned (.error (.Core (.fromReqwest e))),s)

/-- `__aexit__`, first critical section: take the response out of the context. -/
def takeResponse (s : State) : Task × State :=
  if s.context then (.exiting,{ s with context := false }) else (.finishing,s)

/-- A future runs its next atomic action. -/
def poll (s : State) : Task → Option (Task × State)
  | .aread => some s.takeLive
  | .reading live => some (s.writeBack live)
  | .aclose => some s.takeBody
  | .aexit => some s.takeResponse
  | .exiting => some s.takeBody
  | .closing => some (.dropping,{ s with stream := { s.stream with closed := true } })
  | .dropping => some (.finishing,{ s with stream := s.stream.close })
  | .finishing => some (.closed,s)
  | .returned _ | .closed | .cancelled => none

/-- The future `i` has become the given one. -/
def store (i : ℕ) (p : Task × State) : State := { p.2 with tasks := p.2.tasks.set i p.1 }

end State

inductive Action
  | aread
  | aclose
  | aexit
  | aiterBytes (chunkSize : Option ℕ)
  | aiterText (E : Encoding) (chunkSize : Option ℕ)
  | aiterLines (E : Encoding)
  /-- The iterator reads from the stream it was given. -/
  | nextChunk
  | poll (i : ℕ)
  /-- A future is dropped where it awaits. -/
  | cancel (i : ℕ)

def step (s : State) : Action → Option State
  | .aread => some { s with tasks := s.tasks++[.aread] }
  | .aclose => some { s with tasks := s.tasks++[.aclose] }
  | .aexit => some { s with tasks := s.tasks++[.aexit] }
  | .aiterBytes chunkSize => some (s.aiterBytes chunkSize).2
  | .aiterText E chunkSize => some (s.aiterText E chunkSize).2
  | .aiterLines E => some (s.aiterLines E).2
  | .nextChunk => some { s with stream := s.stream.nextChunk.2 }
  | .poll i => do
    let task ← s.tasks[i]?
    let polled ← s.poll task
    return .store i polled
  | .cancel i =>
    match s.tasks[i]? with
    | some (.reading _) | some .dropping => some (.store i (.cancelled,s))
    | _ => none

/-! ## Staying closed -/

/-- Closed, and every use raises `StreamClosed`. A chunk size of 0 is refused before the
response is looked at. -/
structure Closed (s : State) : Prop where
  isClosed : s.isClosed = true
  aread : s.poll .aread = some (.returned (.error (.Py responseClosed)),s)
  aiterBytes : ∀ size, size ≠ some 0 → s.aiterBytes size = (.error responseClosed,s)
  aiterText : ∀ E size, size ≠ some 0 → s.aiterText E size = (.error responseClosed,s)
  aiterLines : ∀ E, s.aiterLines E = (.error responseClosed,s)
  content : s.content = .error responseClosed
  text : ∀ rs parts, s.text rs parts = .error responseClosed
  json : ∀ (V : Type) (parse : Bytes → Except PyRqxError V),
    s.json parse = .error (.Py responseClosed)

theorem closed_of_body {s : State} (h : s.body = none) : Closed s := by
  have hs : s.startStream = (.error responseClosed,s) := by simp [State.startStream,h]
  have hb : s.buffered = .error responseClosed := by simp [State.buffered,h]
  refine ⟨by simp [State.isClosed,h],by simp [State.poll,State.takeLive,h],?_,?_,?_,hb,?_,?_⟩
  · intro size hz
    simp [State.aiterBytes,State.checkedChunkSize,hz,hs,Except.map]
  · intro E size hz
    simp [State.aiterText,State.checkedChunkSize,hz,hs,Except.map]
  · intro E
    simp [State.aiterLines,hs,Except.map]
  · intro rs parts
    simp [State.text,hb,Except.map]
  · intro V parse
    simp [State.json,hb]

/-- The future has emptied the slot, or has found that nothing was left to do. -/
def Task.released : Task → Bool
  | .closing | .dropping | .finishing | .closed => true
  | _ => false

/-- A close has got past the slot. -/
def State.Released (s : State) : Prop := ∃ task ∈ s.tasks, task.released = true

instance (s : State) : Decidable s.Released :=
  inferInstanceAs (Decidable (∃ task ∈ s.tasks, task.released = true))

/-- The future would undo a close: an `aread` comes back from the network with the body
when a close is already past the slot, or an `__aexit__` finds the response taken by
another that has not taken its body yet. -/
def State.Undoes (s : State) : Task → Prop
  | .reading live => (readAll live).isOk = true ∧ s.Released
  | .aexit => s.context = false ∧ ¬s.Released
  | _ => False

instance (s : State) : (task : Task) → Decidable (s.Undoes task)
  | .reading live => inferInstanceAs (Decidable ((readAll live).isOk = true ∧ s.Released))
  | .aexit => inferInstanceAs (Decidable (s.context = false ∧ ¬s.Released))
  | .aread | .returned _ | .aclose | .exiting | .closing | .dropping | .finishing | .closed
  | .cancelled => inferInstanceAs (Decidable False)

/-- The step does not let such a future run. -/
def Undisturbed (s : State) : Action → Prop
  | .poll i => ∀ task ∈ s.tasks[i]?, ¬s.Undoes task
  | _ => True

instance (s : State) : (a : Action) → Decidable (Undisturbed s a)
  | .poll i => inferInstanceAs (Decidable (∀ task ∈ s.tasks[i]?, ¬s.Undoes task))
  | .aread | .aclose | .aexit | .aiterBytes _ | .aiterText _ _ | .aiterLines _ | .nextChunk
  | .cancel _ => inferInstanceAs (Decidable True)

/-- A close that got past the slot left it empty. -/
def Inv (s : State) : Prop := s.Released → s.body = none

theorem inv_fromPending (response : ChunkStream) : Inv (fromPending response) := by
  simp [Inv,State.Released,fromPending]

theorem startStream_inv {s : State} (hi : Inv s) : Inv s.startStream.2 := by
  unfold State.startStream
  split
  · next response hb =>
    intro hr
    have hn : s.body = none := hi hr
    simp [hb] at hn
  all_goals exact hi

theorem aiterBytes_inv {s : State} (hi : Inv s) (size : Option ℕ) : Inv (s.aiterBytes size).2 := by
  unfold State.aiterBytes
  split
  · exact hi
  · exact startStream_inv hi

theorem aiterText_inv {s : State} (hi : Inv s) (E : Encoding) (size : Option ℕ) :
    Inv (s.aiterText E size).2 := by
  unfold State.aiterText
  split
  · exact hi
  · exact startStream_inv hi

theorem released_append {s : State} {task : Task} (ht : task.released = false)
    (h : ({ s with tasks := s.tasks++[task] } : State).Released) : s.Released := by
  obtain ⟨other,hm,hr⟩ := h
  rcases List.mem_append.mp hm with hm | hm
  · exact ⟨other,hm,hr⟩
  · obtain rfl : other = task := by simpa using hm
    simp [ht] at hr

/-- Only a future that becomes released can get a close past the slot. -/
theorem released_store {s u : State} {i : ℕ} {task : Task} (hu : u.tasks = s.tasks)
    (ht : task.released = false) (h : (State.store i (task,u)).Released) : s.Released := by
  obtain ⟨other,hm,hr⟩ := h
  rcases List.mem_or_eq_of_mem_set hm with hm | rfl
  · exact ⟨other,hu ▸ hm,hr⟩
  · simp [ht] at hr

theorem takeLive_inv {s : State} (hi : Inv s) (i : ℕ) : Inv (.store i s.takeLive) := by
  unfold State.takeLive
  split
  all_goals
    intro hr
    have hb := hi (released_store rfl rfl hr)
    simp_all [State.store]

/-- The write-back: no close is past the slot, and none gets there by this action. -/
theorem writeBack_inv {s : State} (hi : Inv s) {live : ChunkStream} (i : ℕ)
    (hc : ¬s.Undoes (.reading live)) : Inv (.store i (s.writeBack live)) := by
  unfold State.writeBack
  split
  · next bytes hl =>
    intro hr
    exact absurd ⟨by simp [hl,Except.isOk,Except.toBool],released_store rfl rfl hr⟩ hc
  · exact fun hr => hi (released_store (s := s) rfl rfl hr)

theorem takeResponse_inv {s : State} (hi : Inv s) (i : ℕ) (hc : ¬s.Undoes .aexit) :
    Inv (.store i s.takeResponse) := by
  unfold State.takeResponse
  split
  · exact fun hr => hi (released_store (s := s) rfl rfl hr)
  · have hr : s.Released := by
      by_contra hr
      exact hc ⟨by simpa using ‹¬s.context = true›,hr⟩
    exact fun _ => hi hr

theorem poll_inv {s : State} {i : ℕ} {task : Task} {p : Task × State} (hi : Inv s)
    (hc : Undisturbed s (.poll i)) (ht : s.tasks[i]? = some task) (h : s.poll task = some p) :
    Inv (.store i p) := by
  have hmem : task ∈ s.tasks := List.mem_of_getElem? ht
  replace hc := hc task ht
  cases task with
  | aread =>
    obtain rfl := Option.some.inj h
    exact takeLive_inv hi i
  | reading live =>
    obtain rfl := Option.some.inj h
    exact writeBack_inv hi i hc
  | aclose =>
    obtain rfl := Option.some.inj h
    exact fun _ => rfl
  | aexit =>
    obtain rfl := Option.some.inj h
    exact takeResponse_inv hi i hc
  | exiting =>
    obtain rfl := Option.some.inj h
    exact fun _ => rfl
  | closing =>
    obtain rfl := Option.some.inj h
    exact fun _ => hi ⟨_,hmem,rfl⟩
  | dropping =>
    obtain rfl := Option.some.inj h
    exact fun _ => hi ⟨_,hmem,rfl⟩
  | finishing =>
    obtain rfl := Option.some.inj h
    exact fun _ => hi ⟨_,hmem,rfl⟩
  | _ => simp [State.poll] at h

theorem step_inv (s : State) (a : Action) (t : State) (hi : Inv s) (hc : Undisturbed s a)
    (h : step s a = some t) : Inv t := by
  cases a with
  | aread =>
    obtain rfl := Option.some.inj h
    exact fun hr => hi (released_append rfl hr)
  | aclose =>
    obtain rfl := Option.some.inj h
    exact fun hr => hi (released_append rfl hr)
  | aexit =>
    obtain rfl := Option.some.inj h
    exact fun hr => hi (released_append rfl hr)
  | aiterBytes size =>
    obtain rfl := Option.some.inj h
    exact aiterBytes_inv hi size
  | aiterText E size =>
    obtain rfl := Option.some.inj h
    exact aiterText_inv hi E size
  | aiterLines E =>
    obtain rfl := Option.some.inj h
    exact startStream_inv hi
  | nextChunk =>
    obtain rfl := Option.some.inj h
    exact hi
  | poll i =>
    cases ht : s.tasks[i]? with
    | none => simp [step,ht] at h
    | some task =>
      cases hp : s.poll task with
      | none => simp [step,ht,hp] at h
      | some p =>
        obtain rfl : _ = t := by simpa [step,ht,hp] using h
        exact poll_inv hi hc ht hp
  | cancel i =>
    simp only [step] at h
    split at h
    · obtain rfl := Option.some.inj h
      exact fun hr => hi (released_store rfl rfl hr)
    · obtain rfl := Option.some.inj h
      exact fun hr => hi (released_store rfl rfl hr)
    · simp at h

theorem closed_mem_store {s u : State} {i : ℕ} {task task' : Task} (hu : u.tasks = s.tasks)
    (ht : s.tasks[i]? = some task) (hne : task ≠ .closed) (hd : .closed ∈ s.tasks) :
    .closed ∈ (State.store i (task',u)).tasks := by
  obtain ⟨j,hj⟩ := List.getElem?_of_mem hd
  have hij : i ≠ j := by
    rintro rfl
    exact hne (Option.some.inj (ht.symm.trans hj))
  exact List.mem_of_getElem? (i := j) (by simp [State.store,hu,List.getElem?_set_ne hij,hj])

theorem poll_tasks {s : State} {task : Task} {p : Task × State} (h : s.poll task = some p) :
    p.2.tasks = s.tasks ∧ task ≠ .closed := by
  cases task with
  | aread =>
    obtain rfl := Option.some.inj h
    unfold State.takeLive
    split <;> exact ⟨rfl,by simp⟩
  | reading live =>
    obtain rfl := Option.some.inj h
    unfold State.writeBack
    split <;> exact ⟨rfl,by simp⟩
  | aexit =>
    obtain rfl := Option.some.inj h
    unfold State.takeResponse
    split <;> exact ⟨rfl,by simp⟩
  | aclose | exiting | closing | dropping | finishing =>
    obtain rfl := Option.some.inj h
    exact ⟨rfl,by simp⟩
  | _ => simp [State.poll] at h

theorem startStream_tasks (s : State) : s.startStream.2.tasks = s.tasks := by
  unfold State.startStream
  split <;> rfl

theorem step_closed_mem (s : State) (a : Action) (t : State) (hd : .closed ∈ s.tasks)
    (h : step s a = some t) : .closed ∈ t.tasks := by
  cases a with
  | aread | aclose | aexit =>
    obtain rfl := Option.some.inj h
    exact List.mem_append_left _ hd
  | aiterBytes size =>
    obtain rfl := Option.some.inj h
    unfold State.aiterBytes
    split
    · exact hd
    · simpa only [startStream_tasks] using hd
  | aiterText E size =>
    obtain rfl := Option.some.inj h
    unfold State.aiterText
    split
    · exact hd
    · simpa only [startStream_tasks] using hd
  | aiterLines E =>
    obtain rfl := Option.some.inj h
    simpa only [State.aiterLines,startStream_tasks] using hd
  | nextChunk =>
    obtain rfl := Option.some.inj h
    exact hd
  | poll i =>
    cases ht : s.tasks[i]? with
    | none => simp [step,ht] at h
    | some task =>
      cases hp : s.poll task with
      | none => simp [step,ht,hp] at h
      | some p =>
        obtain rfl : _ = t := by simpa [step,ht,hp] using h
        obtain ⟨hu,hne⟩ := poll_tasks hp
        exact closed_mem_store hu ht hne hd
  | cancel i =>
    simp only [step] at h
    split at h
    · obtain rfl := Option.some.inj h
      exact closed_mem_store (s := s) rfl ‹_› (by simp) hd
    · obtain rfl := Option.some.inj h
      exact closed_mem_store (s := s) rfl ‹_› (by simp) hd
    · simp at h

/-- In a run whose steps do not undo a close, a response that `aclose` or `__aexit__` has
closed is closed in every later state. -/
theorem stays_closed {response : ChunkStream} {as bs : List Action} {s t : State}
    (hc : Runs.Meets step Undisturbed (fromPending response) (as++bs))
    (hs : Runs.run step (fromPending response) as = some s) (hd : .closed ∈ s.tasks)
    (ht : Runs.run step s bs = some t) : Closed t := by
  have hr : Runs.run step (fromPending response) (as++bs) = some t := by
    rw [Runs.run_append,hs]
    exact ht
  have hi : Inv t := Runs.run_invariant_of_meets step_inv (inv_fromPending response) hc hr
  have hdt : .closed ∈ t.tasks := Runs.run_invariant step_closed_mem hd ht
  exact closed_of_body (hi ⟨_,hdt,rfl⟩)

/-- The close runs while `aread` awaits the network, and `aread` then fails to read. -/
theorem stays_closed_failed_read :
    let e : ReqwestError := ⟨"connection reset",false,false,false,true,false,[],none⟩
    let as := [.aread,.poll 0,.aclose,.poll 1,.poll 1]
    ∃ s t, Runs.run step (fromPending [.error e]) as = some s ∧
      Runs.run step s [.poll 0] = some t ∧ Closed t := by
  intro e as
  exact ⟨_,_,rfl,rfl,@stays_closed [.error e] as [.poll 0] _ _ (by decide) rfl (by decide) rfl⟩

/-- Without the condition it does not hold: `aread` comes back from the network and writes
its bytes into the slot that `aclose` had emptied. -/
theorem not_stays_closed : ¬∀ (response : ChunkStream) (as bs : List Action) (s t : State),
    Runs.run step (fromPending response) as = some s → .closed ∈ s.tasks →
    Runs.run step s bs = some t → Closed t := by
  intro h
  have hc := h [.ok [104,105]] [.aread,.poll 0,.aclose,.poll 1,.poll 1] [.poll 0] _ _ rfl
    (by decide) rfl
  have hb := hc.content
  revert hb
  decide

/-- The write-back always leaves the response open, whatever was closed before. -/
theorem reopened {s t : State} {i : ℕ} {live : ChunkStream} {bytes : Bytes}
    (ht : s.tasks[i]? = some (.reading live)) (hl : readAll live = .ok bytes)
    (h : step s (.poll i) = some t) : ¬Closed t := by
  obtain rfl : _ = t := by simpa [step,ht,State.poll,State.writeBack,hl] using h
  intro hc
  simpa [State.isClosed,State.store] using hc.isClosed

end PyAsyncStreamResponse
end Rqx
