import Rqx.Shutdown

/-! `Runtime::future_into_py` and `Bridge`: the tokio runtime that the tasks of an async call run
on. The threads that make such calls may be inside other tokio runtimes, and the Python code that
`generic::future_into_py` runs may make another such call. -/
namespace Rqx

open Rqx.Runtime

namespace Bridge

/-- A tokio runtime: one that `Runtime::handle` has built, or somebody else's. -/
inductive Pool
  | own (id : ℕ)
  | foreign (id : ℕ)
  deriving DecidableEq

/-- A call of `future_into_py` on the stack of a thread, with the call of `handle` that it makes.
`nested` is whether another one has stored its handle on the thread since this one did. -/
inductive Frame
  /-- `handle` has not returned. -/
  | Resolving (call : ℕ)
  /-- `generic::future_into_py` has not spawned. -/
  | Converting (call handle : ℕ) (nested : Bool)
  /-- `spawn` waits for `fallback`, which calls `handle` again. -/
  | FallingBack (call handle again : ℕ) (nested : Bool)
  | Spawned (call handle : ℕ) (nested : Bool)
  deriving DecidableEq

/-- Python code may be running. -/
def Frame.python : Frame → Bool
  | .Resolving _ | .FallingBack _ _ _ _ => false
  | .Converting _ _ _ | .Spawned _ _ _ => true

/-- Another call on the thread stores its handle. -/
def Frame.nest : Frame → Frame
  | .Resolving call => .Resolving call
  | .Converting call handle _ => .Converting call handle true
  | .FallingBack call handle again _ => .FallingBack call handle again true
  | .Spawned call handle _ => .Spawned call handle true

structure Thread where
  /-- `Handle::try_current`: the runtime that the thread is inside of. -/
  ambient : Option Pool
  /-- `SPAWN_HANDLE`. -/
  spawnHandle : Option ℕ
  frames : List Frame
  deriving DecidableEq

/-- The task that `generic::future_into_py` spawns, the one that this spawns and that runs the
future, and the blocking one that hands its result to Python. -/
inductive Kind
  | Outer
  | Inner
  | Delivery
  deriving DecidableEq

structure Task where
  call : ℕ
  nested : Bool
  kind : Kind
  pool : Pool
  deriving DecidableEq

/-- What `handle` has returned to its `call`-th caller. -/
def result (process : Process) (call : ℕ) : Option (Except Runtime.PyErr ℕ) :=
  match process.calls[call]? with
  | some ⟨_,.Returned result⟩ => some result
  | _ => none

/-- Where `Bridge::spawn` spawns, unless it falls back. -/
def spawn (thread : Thread) : Option Pool := thread.spawnHandle.map .own <|> thread.ambient

/-- Where `Bridge::spawn_blocking` spawns, unless it falls back. -/
def spawnBlocking (thread : Thread) : Option Pool := thread.ambient

/-- What a thread does next. -/
inductive Act
  /-- `future_into_py` is called. -/
  | enter
  /-- `handle` has returned. -/
  | resolved
  /-- `generic::future_into_py` spawns. -/
  | spawn
  /-- The `handle` of `fallback` has returned. -/
  | fallback
  /-- `generic::future_into_py` returns, or raises before it has spawned. -/
  | finish
  /-- The thread, which is a worker, polls an outer task. -/
  | nest (task : ℕ)
  /-- It polls a task that is through with the future. -/
  | deliver (task : ℕ)

def turn (process : Process) (tasks : List Task) (thread : Thread) :
    Act → Option (Process × Thread × List Task)
  | .enter =>
    if thread.frames.head?.all Frame.python then do
      let next ← Runtime.step process .call
      some (next,{ thread with frames := .Resolving process.calls.length :: thread.frames },[])
    else none
  | .resolved =>
    match thread.frames with
    | .Resolving call :: frames =>
      match result process call with
      | some (.ok handle) =>
        some (process,
          { thread with spawnHandle := some handle,
                        frames := .Converting call handle false :: frames.map Frame.nest },[])
      | some (.error _) => some (process,{ thread with frames },[])
      | none => none
    | _ => none
  | .spawn =>
    match thread.frames with
    | .Converting call handle nested :: frames =>
      match spawn thread with
      | some pool =>
        some (process,{ thread with frames := .Spawned call handle nested :: frames },
          [⟨call,nested,.Outer,pool⟩])
      | none => do
        let next ← Runtime.step process .call
        some (next,
          { thread with
            frames := .FallingBack call handle process.calls.length nested :: frames },[])
    | _ => none
  | .fallback =>
    match thread.frames with
    | .FallingBack call handle again nested :: frames =>
      match result process again with
      | some (.ok own) =>
        some (process,{ thread with frames := .Spawned call handle nested :: frames },
          [⟨call,nested,.Outer,.own own⟩])
      -- the panic unwinds past the `take`
      | some (.error _) => some (process,{ thread with frames },[])
      | none => none
    | _ => none
  | .finish =>
    match thread.frames with
    | .Converting _ _ _ :: frames | .Spawned _ _ _ :: frames =>
      some (process,{ thread with spawnHandle := none, frames },[])
    | _ => none
  | .nest task => do
    let task ← tasks[task]?
    if thread.frames = [] ∧ thread.ambient = some task.pool ∧ task.kind = .Outer then
      let pool ← spawn thread
      some (process,thread,[{ task with kind := .Inner, pool }])
    else none
  | .deliver task => do
    let task ← tasks[task]?
    if thread.frames = [] ∧ thread.ambient = some task.pool ∧ task.kind ≠ .Delivery then
      let pool ← spawnBlocking thread
      some (process,thread,[{ task with kind := .Delivery, pool }])
    else none

/-- The runtime was built in this process, if it is one of `handle`. -/
def Pool.built (process : Process) : Pool → Bool
  | .own id => process.memory.inherited ≤ id && id < process.memory.built
  | .foreign _ => true

structure State where
  process : Process
  threads : List Thread
  tasks : List Task

inductive Action
  /-- A step of `handle`, of `shutdown`, or of another caller of `handle`. -/
  | runtime (a : Runtime.Action)
  /-- A thread begins: one of Python, maybe inside another runtime, or a worker. -/
  | thread (ambient : Option Pool)
  | act (thread : ℕ) (a : Act)

def step (s : State) : Action → Option State
  | .runtime a => (Runtime.step s.process a).map fun process => { s with process }
  | .thread ambient =>
    if ambient.all (Pool.built s.process) then
      some { s with threads := s.threads++[⟨ambient,none,[]⟩] }
    else none
  | .act i a => do
    let thread ← s.threads[i]?
    let (process,thread,tasks) ← turn s.process s.tasks thread a
    some ⟨process,s.threads.set i thread,s.tasks++tasks⟩

def start (m : Memory) : State := ⟨.start m,[],[]⟩

/-! ## What `handle` has returned stays -/

section Grows

variable {s t u : Process}

structure Grows (s t : Process) : Prop where
  result : ∀ call r, result s call = some r → result t call = some r
  built : ∀ pool : Pool, pool.built s → pool.built t

theorem result_eq_some {call : ℕ} {r : Except Runtime.PyErr ℕ} :
    result s call = some r ↔ ∃ late, s.calls[call]? = some ⟨late,.Returned r⟩ := by
  unfold result
  split
  · next late r' h => simp [h]
  · next h =>
    simp only [reduceCtorEq,false_iff,not_exists]
    exact fun late hcall => h late r hcall

theorem turn_built {outcome : Except String Address} {m m' : Memory} {stage stage' : Stage}
    (h : Runtime.turn outcome m stage = some (m',stage')) : m.built ≤ m'.built := by
  cases stage with
  | Returned r => cases h
  | _ =>
    simp only [Runtime.turn] at h
    repeat' split at h
    all_goals cases h
    all_goals simp [Memory.alloc,Memory.install,Memory.lose,Memory.free,Memory.take,
      Memory.unpublish]

theorem shutdownTurn_built {m m' : Memory} {closing closing' : Closing}
    (h : shutdownTurn m closing = some (m',closing')) : m.built ≤ m'.built := by
  cases closing with
  | Done => cases h
  | _ =>
    simp only [shutdownTurn] at h
    repeat' split at h
    all_goals cases h
    all_goals simp [Memory.close,Memory.swapNull,Memory.take]

theorem built_of_le {pool : Pool} (hinherited : t.memory.inherited = s.memory.inherited)
    (hbuilt : s.memory.built ≤ t.memory.built) (h : pool.built s) : pool.built t := by
  cases pool with
  | own id =>
    simp only [Pool.built,Bool.and_eq_true,decide_eq_true_eq] at h ⊢
    exact ⟨hinherited ▸ h.1,h.2.trans_le hbuilt⟩
  | foreign id => rfl

theorem Grows.step (hs : s.Inv) {a : Runtime.Action} (h : Runtime.step s a = some t) :
    Grows s t := by
  have hinherited := step_inherited hs h
  cases a with
  | call =>
    cases h
    refine ⟨fun call r hr => ?_,fun _ => built_of_le hinherited le_rfl⟩
    obtain ⟨late,hcall⟩ := result_eq_some.mp hr
    refine result_eq_some.mpr ⟨late,?_⟩
    rwa [List.getElem?_append_left (List.getElem?_eq_some_iff.mp hcall).1]
  | resume i outcome =>
    obtain ⟨call,memory,stage,hcall,hturn,rfl⟩ := step_resume h
    refine ⟨fun other r hr => ?_,fun _ => built_of_le hinherited (turn_built hturn)⟩
    obtain ⟨late,hother⟩ := result_eq_some.mp hr
    refine result_eq_some.mpr ⟨late,?_⟩
    have hne : i ≠ other := by
      rintro rfl
      rw [hcall] at hother
      cases hother
      cases hturn
    rwa [List.getElem?_set_ne hne]
  | shutdown =>
    obtain ⟨memory,closing,hturn,rfl⟩ := step_shutdown h
    exact ⟨fun _ _ => id,fun _ => built_of_le hinherited (shutdownTurn_built hturn)⟩

/-- What `handle` returns is of this process. -/
theorem built_of_result (hs : s.Inv) {call handle : ℕ} (h : result s call = some (.ok handle)) :
    (Pool.own handle).built s := by
  obtain ⟨late,hcall⟩ := result_eq_some.mp h
  obtain ⟨p,⟨_,slot,hslot,hpid,rfl⟩,_⟩ := hs.calls _ (List.mem_of_getElem? hcall) handle rfl
  obtain ⟨hlt,hown⟩ := hs.memory.slots p slot hslot
  simpa [Pool.built] using And.intro (hown.mp hpid) hlt

end Grows

/-! ## The handle on a thread -/

def Frame.nested : Frame → Bool
  | .Resolving _ => true
  | .Converting _ _ nested | .FallingBack _ _ _ nested | .Spawned _ _ nested => nested

/-- What `SPAWN_HANDLE` holds: the handle of the innermost call that has stored one, unless a call
inside it has taken its own away again. -/
def handed : List Frame → Option ℕ
  | .Resolving _ :: frames => handed frames
  | .Converting _ handle false :: _ | .Spawned _ handle false :: _ => some handle
  | _ => none

/-- Below a call that has stored its handle every other one is nested. -/
def Marked : List Frame → Prop
  | [] => True
  | .Resolving _ :: frames => Marked frames
  | _ :: frames => ∀ frame ∈ frames, frame.nested

theorem nest_nested (frame : Frame) : frame.nest.nested := by
  cases frame <;> rfl

theorem handed_of_nested {frames : List Frame} (h : ∀ frame ∈ frames, frame.nested) :
    handed frames = none := by
  induction frames with
  | nil => rfl
  | cons frame frames ih =>
    have hrest := ih fun f hf => h f (List.mem_cons_of_mem _ hf)
    have hframe := h frame (by simp)
    cases frame with
    | Resolving call => exact hrest
    | FallingBack call handle again nested => rfl
    | Converting call handle nested | Spawned call handle nested =>
      simp only [Frame.nested] at hframe
      rw [hframe]
      rfl

theorem marked_of_nested {frames : List Frame} (h : ∀ frame ∈ frames, frame.nested) :
    Marked frames := by
  induction frames with
  | nil => trivial
  | cons frame frames ih =>
    have hrest : ∀ f ∈ frames, f.nested := fun f hf => h f (List.mem_cons_of_mem _ hf)
    cases frame with
    | Resolving call => exact ih hrest
    | _ => exact hrest

/-- What a call knows where it stands. -/
def Frame.Ok (process : Process) : Frame → Prop
  | .Resolving _ => True
  | .Converting call handle _ | .Spawned call handle _ => result process call = some (.ok handle)
  | .FallingBack call handle _ nested =>
    nested = true ∧ result process call = some (.ok handle)

structure Thread.Ok (process : Process) (thread : Thread) : Prop where
  handed : thread.spawnHandle = handed thread.frames
  marked : Marked thread.frames
  frames : ∀ frame ∈ thread.frames, frame.Ok process
  ambient : ∀ pool ∈ thread.ambient, pool.built process

/-- A task runs on a runtime of its process, if not on a foreign one, and on the one that its
call was given, if no other call came in between. -/
structure Task.Ok (process : Process) (task : Task) : Prop where
  handle : ∃ handle, result process task.call = some (.ok handle) ∧
    (task.nested = false → task.pool = .own handle)
  built : task.pool.built process

section Ok

variable {s t : Process} {thread : Thread}

theorem Frame.Ok.grow (hg : Grows s t) {frame : Frame} (h : frame.Ok s) : frame.Ok t := by
  cases frame with
  | Resolving call => trivial
  | Converting call handle nested | Spawned call handle nested => exact hg.result _ _ h
  | FallingBack call handle again nested => exact ⟨h.1,hg.result _ _ h.2⟩

theorem Thread.Ok.grow (hg : Grows s t) (h : thread.Ok s) : thread.Ok t :=
  ⟨h.handed,h.marked,fun frame hf => (h.frames frame hf).grow hg,
    fun pool hp => hg.built pool (h.ambient pool hp)⟩

theorem Task.Ok.grow (hg : Grows s t) {task : Task} (h : task.Ok s) : task.Ok t := by
  obtain ⟨handle,hcall,hpool⟩ := h.handle
  exact ⟨⟨handle,hg.result _ _ hcall,hpool⟩,hg.built _ h.built⟩

/-- `spawn` never leaves the process. -/
theorem Thread.Ok.spawn_built (hs : s.Inv) (h : thread.Ok s) {pool : Pool}
    (hspawn : spawn thread = some pool) : pool.built s := by
  rw [spawn,h.handed] at hspawn
  have hown : ∀ (frames : List Frame) (handle : ℕ), (∀ frame ∈ frames, frame.Ok s) →
      Bridge.handed frames = some handle → (Pool.own handle).built s := by
    intro frames handle hframes hhanded
    induction frames with
    | nil => cases hhanded
    | cons frame frames ih =>
      cases frame with
      | Resolving call => exact ih (fun f hf => hframes f (List.mem_cons_of_mem _ hf)) hhanded
      | FallingBack call handle' again nested => cases hhanded
      | Converting call handle' nested | Spawned call handle' nested =>
        cases nested with
        | true => cases hhanded
        | false =>
          cases hhanded
          exact built_of_result hs (hframes _ (List.mem_cons_self ..))
  cases hhanded : Bridge.handed thread.frames with
  | none =>
    rw [hhanded] at hspawn
    exact h.ambient pool (by simpa using hspawn)
  | some handle =>
    rw [hhanded] at hspawn
    cases hspawn
    exact hown _ handle h.frames hhanded

end Ok

/-! ## One step -/

section Turn

variable {s s' : Process} {tasks new : List Task} {thread thread' : Thread} {frames : List Frame}

/-- What a turn of a thread leaves behind: the runtime is as before or has got one more call of
`handle`, and the thread and what it has spawned are in order. -/
structure TurnOk (s s' : Process) (thread' : Thread) (new : List Task) : Prop where
  process : s' = s ∨ Runtime.step s .call = some s'
  thread : thread'.Ok s'
  tasks : ∀ task ∈ new, task.Ok s'

/-- What is known of the innermost call, and of the ones it is inside of. -/
theorem Thread.Ok.split {frame : Frame} (h : thread.Ok s)
    (hframes : thread.frames = frame :: frames) : frame.Ok s ∧ (∀ f ∈ frames, f.Ok s) ∧
      thread.spawnHandle = Bridge.handed (frame :: frames) ∧ Marked (frame :: frames) := by
  have hok := h.frames
  rw [hframes] at hok
  exact ⟨hok frame (by simp),fun f hf => hok f (List.mem_cons_of_mem _ hf),hframes ▸ h.handed,
    hframes ▸ h.marked⟩

theorem Thread.Ok.pop {frame : Frame} (h : thread.Ok s) (hframes : thread.frames = frame :: frames)
    (hmarked : ∀ f ∈ frames, f.nested) :
    ({ thread with spawnHandle := none, frames } : Thread).Ok s :=
  ⟨(handed_of_nested hmarked).symm,marked_of_nested hmarked,
    (h.split hframes).2.1,h.ambient⟩

theorem enter_ok (hs : s.Inv) (hthread : thread.Ok s)
    (h : turn s tasks thread .enter = some (s',thread',new)) : TurnOk s s' thread' new := by
  simp only [turn] at h
  split at h
  · obtain ⟨next,hnext,h⟩ := Option.bind_eq_some_iff.mp h
    cases h
    have hgrown := hthread.grow (.step hs hnext)
    refine ⟨.inr hnext,⟨hgrown.handed,hgrown.marked,fun frame hf => ?_,hgrown.ambient⟩,by simp⟩
    rcases List.mem_cons.mp hf with rfl | hf
    · trivial
    · exact hgrown.frames frame hf
  · cases h

theorem resolved_ok (hthread : thread.Ok s)
    (h : turn s tasks thread .resolved = some (s',thread',new)) : TurnOk s s' thread' new := by
  simp only [turn] at h
  split at h
  · next call frames hframes =>
    obtain ⟨_,hrest,hhanded,hmarked⟩ := hthread.split hframes
    split at h
    · next handle hresult =>
      cases h
      refine ⟨.inl rfl,⟨rfl,?_,?_,hthread.ambient⟩,by simp⟩
      · simp [Marked,nest_nested]
      · simp only [List.mem_cons,List.mem_map]
        rintro f (rfl | ⟨f,hf,rfl⟩)
        · exact hresult
        · have hf := hrest f hf
          cases f with
          | FallingBack call handle again nested => exact ⟨rfl,hf.2⟩
          | _ => exact hf
    · cases h
      exact ⟨.inl rfl,⟨hhanded,hmarked,hrest,hthread.ambient⟩,by simp⟩
    · cases h
  · cases h

theorem spawn_ok (hs : s.Inv) (hthread : thread.Ok s)
    (h : turn s tasks thread .spawn = some (s',thread',new)) : TurnOk s s' thread' new := by
  simp only [turn] at h
  split at h
  · next call handle nested frames hframes =>
    obtain ⟨hcall,hrest,hhanded,hmarked⟩ := hthread.split hframes
    split at h
    · next pool hpool =>
      cases h
      refine ⟨.inl rfl,⟨?_,hmarked,?_,hthread.ambient⟩,?_⟩
      · rw [hhanded]
        cases nested <;> rfl
      · simp only [List.mem_cons]
        rintro f (rfl | hf)
        exacts [hcall,hrest f hf]
      · simp only [List.mem_singleton]
        rintro task rfl
        refine ⟨⟨handle,hcall,fun hnested => ?_⟩,hthread.spawn_built hs hpool⟩
        change nested = false at hnested
        subst hnested
        rw [spawn,hhanded] at hpool
        exact (Option.some.inj hpool).symm
    · next hpool =>
      obtain ⟨next,hnext,h⟩ := Option.bind_eq_some_iff.mp h
      cases h
      -- nothing was left in `SPAWN_HANDLE`, so another call has been there
      have hnested : nested = true := by
        cases nested with
        | true => rfl
        | false =>
          rw [spawn,hhanded] at hpool
          cases hpool
      have hg := Grows.step hs hnext
      refine ⟨.inr hnext,⟨?_,hmarked,?_,(hthread.grow hg).ambient⟩,by simp⟩
      · rw [hhanded,hnested]
        rfl
      · simp only [List.mem_cons]
        rintro f (rfl | hf)
        exacts [⟨hnested,hg.result _ _ hcall⟩,(hrest f hf).grow hg]
  · cases h

theorem fallback_ok (hs : s.Inv) (hthread : thread.Ok s)
    (h : turn s tasks thread .fallback = some (s',thread',new)) : TurnOk s s' thread' new := by
  simp only [turn] at h
  split at h
  · next call handle again nested frames hframes =>
    obtain ⟨⟨rfl,hcall⟩,hrest,hhanded,hmarked⟩ := hthread.split hframes
    split at h
    · next own hown =>
      cases h
      refine ⟨.inl rfl,⟨hhanded,hmarked,?_,hthread.ambient⟩,?_⟩
      · simp only [List.mem_cons]
        rintro f (rfl | hf)
        exacts [hcall,hrest f hf]
      · simp only [List.mem_singleton]
        rintro task rfl
        exact ⟨⟨handle,hcall,nofun⟩,built_of_result hs hown⟩
    · cases h
      refine ⟨.inl rfl,⟨?_,marked_of_nested hmarked,hrest,hthread.ambient⟩,by simp⟩
      rw [hhanded]
      exact (handed_of_nested hmarked).symm
    · cases h
  · cases h

theorem finish_ok (hthread : thread.Ok s)
    (h : turn s tasks thread .finish = some (s',thread',new)) : TurnOk s s' thread' new := by
  simp only [turn] at h
  split at h
  · next hframes =>
    cases h
    exact ⟨.inl rfl,hthread.pop hframes (hthread.split hframes).2.2.2,by simp⟩
  · next hframes =>
    cases h
    exact ⟨.inl rfl,hthread.pop hframes (hthread.split hframes).2.2.2,by simp⟩
  · cases h

/-- A worker with nothing on its stack has nothing in `SPAWN_HANDLE`. -/
theorem Thread.Ok.idle (h : thread.Ok s) (hframes : thread.frames = []) :
    thread.spawnHandle = none := by
  rw [h.handed,hframes]
  rfl

theorem nest_ok (hthread : thread.Ok s) (htasks : ∀ task ∈ tasks, task.Ok s) {k : ℕ}
    (h : turn s tasks thread (.nest k) = some (s',thread',new)) : TurnOk s s' thread' new := by
  obtain ⟨task,htask,h⟩ := Option.bind_eq_some_iff.mp h
  split at h
  · next hidle =>
    obtain ⟨pool,hpool,h⟩ := Option.bind_eq_some_iff.mp h
    cases h
    obtain ⟨hhandle,hbuilt⟩ := htasks task (List.mem_of_getElem? htask)
    refine ⟨.inl rfl,hthread,?_⟩
    simp only [List.mem_singleton]
    rintro _ rfl
    rw [spawn,hthread.idle hidle.1,hidle.2.1] at hpool
    cases hpool
    exact ⟨hhandle,hbuilt⟩
  · cases h

theorem deliver_ok (hthread : thread.Ok s) (htasks : ∀ task ∈ tasks, task.Ok s) {k : ℕ}
    (h : turn s tasks thread (.deliver k) = some (s',thread',new)) : TurnOk s s' thread' new := by
  obtain ⟨task,htask,h⟩ := Option.bind_eq_some_iff.mp h
  split at h
  · next hidle =>
    obtain ⟨pool,hpool,h⟩ := Option.bind_eq_some_iff.mp h
    cases h
    obtain ⟨hhandle,hbuilt⟩ := htasks task (List.mem_of_getElem? htask)
    refine ⟨.inl rfl,hthread,?_⟩
    simp only [List.mem_singleton]
    rintro _ rfl
    rw [spawnBlocking,hidle.2.1] at hpool
    cases hpool
    exact ⟨hhandle,hbuilt⟩
  · cases h

theorem turn_ok (hs : s.Inv) (hthread : thread.Ok s) (htasks : ∀ task ∈ tasks, task.Ok s) {a : Act}
    (h : turn s tasks thread a = some (s',thread',new)) : TurnOk s s' thread' new := by
  cases a with
  | enter => exact enter_ok hs hthread h
  | resolved => exact resolved_ok hthread h
  | spawn => exact spawn_ok hs hthread h
  | fallback => exact fallback_ok hs hthread h
  | finish => exact finish_ok hthread h
  | nest k => exact nest_ok hthread htasks h
  | deliver k => exact deliver_ok hthread htasks h

end Turn

/-! ## Whole runs -/

/-- `inherited` runtimes had been built when the process began. -/
structure State.Inv (inherited : ℕ) (s : State) : Prop where
  process : s.process.Inv
  watched : s.process.Watched
  inherited : s.process.memory.inherited = inherited
  threads : ∀ thread ∈ s.threads, thread.Ok s.process
  tasks : ∀ task ∈ s.tasks, task.Ok s.process

section Run

variable {s t : State} {inherited : ℕ}

theorem State.Inv.grow (hs : s.Inv inherited) {a : Runtime.Action} {process : Process}
    (h : Runtime.step s.process a = some process) :
    ({ s with process } : State).Inv inherited :=
  have hg := Grows.step hs.process h
  ⟨hs.process.step h,hs.watched.step hs.process h,(step_inherited hs.process h).trans hs.inherited,
    fun thread hthread => (hs.threads thread hthread).grow hg,
    fun task htask => (hs.tasks task htask).grow hg⟩

theorem State.Inv.step (hs : s.Inv inherited) {a : Action} (h : step s a = some t) :
    t.Inv inherited := by
  cases a with
  | runtime a =>
    obtain ⟨process,hprocess,rfl⟩ := Option.map_eq_some_iff.mp h
    exact hs.grow hprocess
  | thread ambient =>
    simp only [Bridge.step] at h
    split at h
    · next hbuilt =>
      cases h
      refine { hs with threads := fun thread hthread => ?_ }
      rcases List.mem_append.mp hthread with hthread | hthread
      · exact hs.threads thread hthread
      · rw [List.mem_singleton.mp hthread]
        exact ⟨rfl,trivial,by simp,by simpa [Option.all_eq_true] using hbuilt⟩
    · cases h
  | act i a =>
    obtain ⟨thread,hthread,h⟩ := Option.bind_eq_some_iff.mp h
    obtain ⟨⟨process,thread',new⟩,hturn,h⟩ := Option.bind_eq_some_iff.mp h
    cases h
    have hok := turn_ok hs.process (hs.threads thread (List.mem_of_getElem? hthread)) hs.tasks hturn
    have hgrown : ({ s with process } : State).Inv inherited := by
      rcases hok.process with rfl | hcall
      · exact hs
      · exact hs.grow hcall
    refine { hgrown with threads := fun other hother => ?_, tasks := fun task htask => ?_ }
    · rcases List.mem_or_eq_of_mem_set hother with hother | rfl
      · exact hgrown.threads other hother
      · exact hok.thread
    · rcases List.mem_append.mp htask with htask | htask
      · exact hgrown.tasks task htask
      · exact hok.tasks task htask

end Run

theorem start_inv {m : Memory} (hm : Fresh m) : (start m).Inv m.built :=
  ⟨hm.start_inv,hm.start_watched,hm.inherited,by simp [start],by simp [start]⟩

/-- With `shutdown` and every call of `handle` returned, each runtime of the process is gone. -/
theorem ended_of_done {s : Process} (hs : s.Inv) (hw : s.Watched) (hdone : s.closing = .Done)
    (hreturned : ∀ call ∈ s.calls, ∃ result, call.stage = .Returned result) {id : ℕ}
    (hbuilt : (Pool.own id).built s) : s.memory.ended.count id = 1 := by
  simp only [Pool.built,Bool.and_eq_true,decide_eq_true_eq] at hbuilt
  obtain ⟨hlow,hhigh⟩ := hbuilt
  rcases hs.memory.account id hlow hhigh with ⟨hcount,_⟩ | ⟨_,p,hp⟩
  · exact hcount
  · rcases hw.held p id hp hlow with ⟨call,hmem,howner⟩ | ⟨_,hpending⟩ | htaking
    · obtain ⟨result,hresult⟩ := hreturned call hmem
      rw [hresult] at howner
      cases howner
    · rw [hdone] at hpending
      cases hpending
    · rw [hdone] at htaking
      cases htaking

/-- Wherever an async call is made from, its tasks run on the runtime that its own `handle` has
returned, unless another such call was made from inside it before it spawned; no runtime of the
process that a task was spawned on is left after `shutdown`; and no handle is left on a thread. -/
theorem spawn_routing {m : Memory} (hm : Fresh m) {as : List Action} {s : State}
    (hr : Runs.run step (start m) as = some s) :
    (∀ thread ∈ s.threads, thread.frames = [] → thread.spawnHandle = none) ∧
    ∀ task ∈ s.tasks, (∃ handle, result s.process task.call = some (.ok handle) ∧
        (task.nested = false → task.pool = .own handle)) ∧
      ∀ id, task.pool = .own id → m.built ≤ id ∧ id < s.process.memory.built ∧
        (s.process.closing = .Done →
          (∀ call ∈ s.process.calls, ∃ result, call.stage = .Returned result) →
          s.process.memory.ended.count id = 1) := by
  have hs : s.Inv m.built :=
    Runs.run_invariant (I := State.Inv m.built) (fun _ _ _ hs h => hs.step h) (start_inv hm) hr
  refine ⟨fun thread hthread => (hs.threads thread hthread).idle,fun task htask => ?_⟩
  have hok := hs.tasks task htask
  refine ⟨hok.handle,fun id hpool => ?_⟩
  have hbuilt : (Pool.own id).built s.process := hpool ▸ hok.built
  have hrange := hbuilt
  simp only [Pool.built,hs.inherited,Bool.and_eq_true,decide_eq_true_eq] at hrange
  exact ⟨hrange.1,hrange.2,fun hdone hreturned =>
    ended_of_done hs.process hs.watched hdone hreturned hbuilt⟩

/-- A thread inside a foreign runtime makes an async call, a worker polls it, and `shutdown`
comes. -/
def foreignCaller : List Action :=
  [.thread (some (.foreign 7)),.act 0 .enter]++
    List.replicate 5 (.runtime (.resume 0 (.ok 5)))++
    [.act 0 .resolved,.act 0 .spawn,.act 0 .finish,.thread (some (.own 0)),.act 1 (.nest 0),
      .act 1 (.deliver 1)]++
    List.replicate 3 (.runtime .shutdown)

theorem spawn_routing_foreign : ∃ s, Runs.run step (start (.root 1)) foreignCaller = some s ∧
    s.tasks = [⟨0,false,.Outer,.own 0⟩,⟨0,false,.Inner,.own 0⟩,⟨0,false,.Delivery,.own 0⟩] ∧
    s.process.memory.ended.count 0 = 1 := by
  have hr : ∃ s, Runs.run step (start (.root 1)) foreignCaller = some s ∧
      s.tasks = [⟨0,false,.Outer,.own 0⟩,⟨0,false,.Inner,.own 0⟩,⟨0,false,.Delivery,.own 0⟩] ∧
      s.process.closing = .Done ∧ s.process.calls = [⟨false,.Returned (.ok 0)⟩] :=
    ⟨_,rfl,rfl,rfl,rfl⟩
  obtain ⟨s,hr,htasks,hdone,hcalls⟩ := hr
  have hall := (spawn_routing (fresh_root 1) hr).2 ⟨0,false,.Outer,.own 0⟩ (by simp [htasks])
  exact ⟨s,hr,htasks,(hall.2 0 rfl).2.2 hdone (by simp [hcalls])⟩

/-- A call that was made inside it takes the handle of the outer one away, which then spawns where
the thread happens to be. -/
example : (Runs.run step (start (.root 1))
    ([.thread (some (.foreign 7)),.act 0 .enter]++
      List.replicate 5 (.runtime (.resume 0 (.ok 5)))++
      [.act 0 .resolved,.act 0 .enter,.runtime (.resume 1 (.ok 6)),.runtime (.resume 1 (.ok 6)),
        .act 0 .resolved,.act 0 .spawn,.act 0 .finish,.act 0 .spawn])).map State.tasks =
    some [⟨1,false,.Outer,.own 0⟩,⟨0,true,.Outer,.foreign 7⟩] := rfl

end Bridge
end Rqx
