import Rqx.Guarded
import Rqx.Iteration

/-! `__anext__` of one async iterator by any number of callers: its state is behind a mutex, each
call awaits the mutex, the stream and the network, and may be cancelled at each await. -/
namespace Rqx

open IterState

namespace SharedIterator

/-- Where the call that holds the state stands. -/
inductive Point
  | holding
  /-- In `next_chunk`, at the lock of the stream. -/
  | requesting
  /-- In `next_chunk`, at the select. -/
  | waiting
  deriving DecidableEq

/-- What the future of that call does next. -/
inductive Poll
  /-- From the top of the loop to its await, or to a return. -/
  | advance
  | lockStream
  /-- The network is ready. -/
  | deliver
  /-- The close signal is. -/
  | signal
  deriving DecidableEq

/-- `LiveStream::close`, by any number of callers. -/
inductive Close
  | mark
  | clear
  deriving DecidableEq

/-- What a call returns; `none` is a panic. -/
abbrev Outcome (ι : Type) := Option (Except PyRqxError ι)

variable {σ ι : Type} (S : Source σ ι)

def refused : Outcome ι := some (.error (.Core LiveStream.responseClosed))

def advance (s : IterState σ) : (Point ⊕ Outcome ι) × IterState σ :=
  match if s.finished then .ok () else s.stream.checkOpen with
  | .error e => (.inr (some (.error (.Core e))),s)
  | .ok () =>
    match S.ready s.inner with
    | none => (.inr none,s)
    | some (some item,next) => (.inr (some (.ok item)),{ s with inner := next })
    | some (none,next) =>
      if s.finished then
        match S.flush next with
        | none => (.inr none,s)
        | some (item,next) => (.inr (some (asyncResult (.ok item))),{ s with inner := next })
      else (.inl .requesting,{ s with inner := next })

def lockStream (s : IterState σ) : (Point ⊕ Outcome ι) × IterState σ :=
  match s.stream.checkOpen with
  | .error e => (.inr (some (.error (.Core e))),s)
  | .ok () => (if s.stream.stream.isSome then .inl .waiting else .inr refused,s)

/-- The slot with what is left of the stream. -/
def setSlot (s : IterState σ) (slot : Option ChunkStream) : IterState σ :=
  { s with stream := { s.stream with stream := slot } }

def deliver (s : IterState σ) : Option ((Point ⊕ Outcome ι) × IterState σ) :=
  match s.stream.stream with
  | none => none
  | some (.ok bytes :: rest) =>
    match S.feed bytes s.inner with
    | none => some (.inr none,setSlot s (some rest))
    | some next => some (.inl .holding,{ setSlot s (some rest) with inner := next })
  | some (.error e :: _) => some (.inr (some (.error (.Core (.fromReqwest e)))),setSlot s none)
  | some [] =>
    match S.finish s.inner with
    | none => some (.inr none,{ setSlot s none with finished := true })
    | some next => some (.inl .holding,{ setSlot s none with inner := next, finished := true })

/-- The select takes its first branch. The close may still be on its way to the slot. -/
def signal (s : IterState σ) : Option ((Point ⊕ Outcome ι) × IterState σ) :=
  if s.stream.closed then some (.inr refused,setSlot s none) else none

/-- `__anext__`, from the lock of the state on. -/
def anext : Guarded.Section (IterState σ) Point Poll Close (Outcome ι) where
  start := .holding
  act
    | .advance,.holding,s => some (advance S s)
    | .lockStream,.requesting,s => some (lockStream s)
    | .deliver,.waiting,s => deliver S s
    | .signal,.waiting,s => signal s
    | _,_,_ => none
  awaits
    | .holding => false
    | .requesting | .waiting => true
  disturb
    | .mark,_,s => some { s with stream := { s.stream with closed := true } }
    -- the lock of the stream is held at the select
    | .clear,some .waiting,_ => none
    | .clear,_,s => if s.stream.closed then some (setSlot s none) else none

/-- All calls of one iterator, over any schedule. -/
abbrev step := Guarded.step (anext S)

abbrev State (σ ι : Type) := Guarded.State (IterState σ) Point (Outcome ι)

/-! ## What is given out -/

/-- A body: its chunks, and what the read fails with after them, if it does. -/
structure Script where
  chunks : List Bytes
  failure : Option (ReqwestError × ChunkStream)

def scriptOf (chunks : List Bytes) : Option (ReqwestError × ChunkStream) → ChunkStream
  | none => chunks.map .ok
  | some (e,rest) => chunks.map .ok++.error e::rest

def Script.stream (x : Script) : ChunkStream := scriptOf x.chunks x.failure

/-- The items that have been returned, in this order. -/
def given (results : List (Outcome ι)) : List ι :=
  results.filterMap fun
    | some (.ok item) => some item
    | _ => none

/-- The call was told that the read failed. -/
def isReadError : Outcome ι → Bool
  | some (.error (.Core e)) => e ≠ LiveStream.responseClosed
  | _ => false

@[simp] theorem given_append (rs rs' : List (Outcome ι)) :
    given (rs++rs') = given rs++given rs' := List.filterMap_append

@[simp] theorem given_ok (item : ι) : given [some (.ok item)] = [item] := rfl
@[simp] theorem given_error (e : PyRqxError) : given [(some (.error e) : Outcome ι)] = [] := rfl
@[simp] theorem given_refused : given [(refused : Outcome ι)] = [] := rfl

@[simp] theorem isReadError_refused : isReadError (refused : Outcome ι) = false := by
  simp [isReadError,refused]

@[simp] theorem isReadError_ok (item : ι) : isReadError (some (.ok item)) = false := rfl
@[simp] theorem isReadError_py (e : PyErr) :
    isReadError (some (.error (.Py e)) : Outcome ι) = false := rfl

/-- The outcome of a call that gives out what is there. -/
def gave (o : Option ι) : List (Outcome ι) := o.toList.map fun item => some (.ok item)

@[simp] theorem gave_none : gave (none : Option ι) = [] := rfl
@[simp] theorem gave_some (item : ι) : gave (some item) = [some (.ok item)] := rfl
@[simp] theorem given_gave (o : Option ι) : given (gave o) = o.toList := by cases o <;> rfl
@[simp] theorem countP_gave (o : Option ι) : (gave o).countP isReadError = 0 := by cases o <;> rfl

/-- What a lone caller is told, call by call. -/
def told (failure : Option (ReqwestError × ChunkStream)) (items : List ι) (i : ℕ) :
    Except RqxCoreError (Option ι) :=
  match failure with
  | none => .ok items[i]?
  | some (e,_) => failing items e i

/-- Calls one after the other give out `items`, then the end or the failure. -/
def Alone (failure : Option (ReqwestError × ChunkStream)) (items : List ι) (s : IterState σ) :
    Prop :=
  ∀ k, ∃ t, calls (asyncNext S) k s =
    some ((List.range k).map fun i => asyncResult (told failure items i),t)

/-- What the callers have seen together, when a lone caller would see `items`. -/
structure Seen (x : Script) (items : List ι) (s : State σ ι) : Prop where
  /-- Every item is given out once, and in order. -/
  ordered : given s.results <+: items
  panics : none ∉ s.results
  /-- The end is reported only when every item has been given out. -/
  ended : ∀ e, some (.error (.Py e)) ∈ s.results →
    e = .StopAsyncIteration ∧ x.failure = none ∧ given s.results = items
  failed : ∀ e, some (.error (.Core e)) ∈ s.results →
    (e = LiveStream.responseClosed ∧
      (s.shared.stream.closed = true ∨ s.results.countP isReadError = 1)) ∨
    ∃ f rest, x.failure = some (f,rest) ∧ e = .fromReqwest f ∧ given s.results = items
  once : s.results.countP isReadError ≤ 1
  /-- No cancelled call has lost anything: the calls from here on give out the rest. -/
  resumes : s.holder = none → s.shared.stream.closed = false → s.results.countP isReadError = 0 →
    Alone S x.failure (items.drop (given s.results).length) s.shared
  /-- Each outcome is the outcome of one call. -/
  logged : Guarded.Logged s

/-! ## The invariant -/

section Invariant

variable {S} (L : Laws S)

/-- The items that the chunks to come lead to, until the stream ends or fails. -/
def coming (failure : Option (ReqwestError × ChunkStream)) (inner : σ) (chunks : List Bytes) :
    List ι :=
  match failure with
  | none => L.all inner chunks
  | some _ => L.early inner chunks

/-- How far the body is read. -/
inductive Stage (x : Script) (items : List ι) (results : List (Outcome ι)) (s : IterState σ) : Prop
  | reading (chunks : List Bytes) (finished : s.finished = false)
      (slot : s.stream.stream = some (scriptOf chunks x.failure))
      (rest : given results++coming L x.failure s.inner chunks = items)
      (unfailed : results.countP isReadError = 0)
  | ended (finished : s.finished = true) (failure : x.failure = none)
      (rest : given results++L.left s.inner = items) (unfailed : results.countP isReadError = 0)
  | closed (finished : s.finished = false) (slot : s.stream.stream = none)
      (closed : s.stream.closed = true) (rest : given results <+: items)
      (unfailed : results.countP isReadError = 0)
  | failed (finished : s.finished = false) (slot : s.stream.stream = none)
      (failure : x.failure.isSome) (drained : L.Drained s.inner) (rest : given results = items)
      (failed : results.countP isReadError = 1)

structure Inv (x : Script) (items : List ι) (point : Option Point) (results : List (Outcome ι))
    (s : IterState σ) : Prop where
  inner : L.Inv s.inner
  drained : point = some .requesting ∨ point = some .waiting →
    L.Drained s.inner ∧ s.finished = false
  slot : point = some .waiting → s.stream.stream.isSome
  panics : none ∉ results
  stage : Stage L x items results s
  ended : ∀ e, some (.error (.Py e)) ∈ results →
    e = .StopAsyncIteration ∧ x.failure = none ∧ given results = items
  failed : ∀ e, some (.error (.Core e)) ∈ results →
    (e = LiveStream.responseClosed ∧
      (s.stream.closed = true ∨ results.countP isReadError = 1)) ∨
    ∃ f rest, x.failure = some (f,rest) ∧ e = .fromReqwest f ∧ given results = items

variable {L} {x : Script} {items : List ι} {results : List (Outcome ι)} {s : IterState σ}

theorem Stage.ordered (h : Stage L x items results s) : given results <+: items := by
  cases h with
  | reading chunks _ _ rest _ => exact rest ▸ List.prefix_append _ _
  | ended _ _ rest _ => exact rest ▸ List.prefix_append _ _
  | closed _ _ _ rest _ => exact rest
  | failed _ _ _ _ rest _ => exact rest ▸ List.prefix_rfl

theorem Stage.once (h : Stage L x items results s) : results.countP isReadError ≤ 1 := by
  cases h <;> omega

theorem coming_ready {failure : Option (ReqwestError × ChunkStream)} {inner t : σ} {o : Option ι}
    (he : ∀ chunks, L.early inner chunks = o.toList++L.early t chunks)
    (ha : ∀ chunks, L.all inner chunks = o.toList++L.all t chunks) (chunks : List Bytes) :
    coming L failure inner chunks = o.toList++coming L failure t chunks := by
  cases failure with
  | none => exact ha chunks
  | some _ => exact he chunks

/-- Results that are no items, and no read errors, change nothing. -/
theorem Stage.refuse (h : Stage L x items results s) (r : Outcome ι) (hg : given [r] = [])
    (hr : isReadError r = false) : Stage L x items (results++[r]) s := by
  have hgiven : given (results++[r]) = given results := by rw [given_append,hg,List.append_nil]
  have hcount : (results++[r]).countP isReadError = results.countP isReadError := by
    simp [List.countP_append,hr]
  cases h with
  | reading chunks finished slot rest unfailed =>
    exact .reading chunks finished slot (hgiven ▸ rest) (hcount ▸ unfailed)
  | ended finished failure rest unfailed =>
    exact .ended finished failure (hgiven ▸ rest) (hcount ▸ unfailed)
  | closed finished slot closed rest unfailed =>
    exact .closed finished slot closed (hgiven ▸ rest) (hcount ▸ unfailed)
  | failed finished slot failure drained rest failed =>
    exact .failed finished slot failure drained (hgiven ▸ rest) (hcount ▸ failed)

theorem Inv.refuse {point : Option Point} (h : Inv L x items point results s)
    (hwhy : s.stream.closed = true ∨ results.countP isReadError = 1) :
    Inv L x items none (results++[refused]) s where
  inner := h.inner
  drained := by simp
  slot := by simp
  panics := by simpa [refused] using h.panics
  stage := h.stage.refuse refused rfl isReadError_refused
  ended := fun e he => by
    rw [given_append,given_refused,List.append_nil]
    exact h.ended e (by simpa [refused] using he)
  failed := fun e he => by
    have hcount : (results++[refused]).countP isReadError = results.countP isReadError := by
      simp [List.countP_append]
    rw [given_append,given_refused,List.append_nil,hcount]
    rcases List.mem_append.mp he with he | he
    · exact h.failed e he
    · have heq : e = LiveStream.responseClosed := by simpa [refused] using he
      exact .inl ⟨heq,hwhy⟩

theorem Stage.ready (h : Stage L x items results s)
    (hopen : s.finished = true ∨ s.stream.closed = false)
    {o : Option ι} {t : σ} (he : ∀ chunks, L.early s.inner chunks = o.toList++L.early t chunks)
    (ha : ∀ chunks, L.all s.inner chunks = o.toList++L.all t chunks)
    (hl : L.left s.inner = o.toList++L.left t) (hd : o = none → L.Drained t)
    (hi : L.Inv s.inner) :
    Stage L x items (results++gave o) { s with inner := t } := by
  have hgiven : given (results++gave o) = given results++o.toList := by simp
  have hcount : (results++gave o).countP isReadError = results.countP isReadError := by simp
  cases h with
  | reading chunks finished slot rest unfailed =>
    refine .reading chunks finished slot ?_ (hcount ▸ unfailed)
    rw [hgiven,List.append_assoc,← coming_ready he ha,rest]
  | ended finished failure rest unfailed =>
    refine .ended finished failure ?_ (hcount ▸ unfailed)
    rw [hgiven,List.append_assoc,← hl,rest]
  | closed finished slot closed rest unfailed =>
    rcases hopen with hopen | hopen
    · rw [finished] at hopen
      cases hopen
    · rw [closed] at hopen
      cases hopen
  | failed finished slot failure drained rest failed =>
    have hnil : o.toList++L.early t [] = [] := by rw [← he,L.drained_early _ hi drained]
    obtain rfl : o = none := by
      cases o with
      | none => rfl
      | some item => simp at hnil
    exact .failed finished slot failure (hd rfl) (by simpa using rest) (by simpa using failed)

theorem Inv.give {point : Option Point} (h : Inv L x items point results s) {item : ι} {t : σ}
    (hi : L.Inv t)
    (hstage : Stage L x items (results++[some (.ok item)]) { s with inner := t }) :
    Inv L x items none (results++[some (.ok item)]) { s with inner := t } := by
  have hmore : given results ≠ items := by
    intro heq
    have hlen := hstage.ordered.length_le
    rw [given_append,given_ok,heq,List.length_append,List.length_singleton] at hlen
    omega
  refine ⟨hi,by simp,by simp,by simpa using h.panics,hstage,fun e he => ?_,fun e he => ?_⟩
  · obtain ⟨_,_,heq⟩ := h.ended e (by simpa using he)
    exact absurd heq hmore
  · rcases h.failed e (by simpa using he) with ⟨rfl,hwhy⟩ | ⟨f,rest,_,_,heq⟩
    · refine .inl ⟨rfl,?_⟩
      simpa [List.countP_append,isReadError] using hwhy
    · exact absurd heq hmore

/-- What is left at the end is given out, or the end is reported. -/
theorem Inv.flush {point : Option Point} (h : Inv L x items point results s) {t u : σ}
    (hf : s.finished = true) (hstage : Stage L x items results { s with inner := t }) (hu : L.Inv u)
    {o : Option ι} (hlo : L.left t = o.toList) (hlu : L.left u = []) :
    Inv L x items none (results++[some (asyncResult (.ok o))]) { s with inner := u } := by
  obtain ⟨failure,rest,unfailed⟩ : x.failure = none ∧ given results++o.toList = items ∧
      results.countP isReadError = 0 := by
    cases hstage with
    | reading _ finished _ _ _ | closed finished _ _ _ _ | failed finished _ _ _ _ _ =>
      simp [hf] at finished
    | ended _ failure rest unfailed => exact ⟨failure,hlo ▸ rest,unfailed⟩
  cases o with
  | some item =>
      exact h.give hu (.ended hf failure (by simpa [hlu] using rest) (by simpa using unfailed))
  | none =>
    have hgiven : given (results++[some (asyncResult (.ok none))]) = given results := by
      simp [asyncResult]
    have heq : given results = items := by simpa using rest
    refine ⟨hu,by simp,by simp,by simpa using h.panics,.ended hf failure ?_ ?_,?_,fun e he => ?_⟩
    · rw [hgiven,heq,hlu,List.append_nil]
    · simpa [asyncResult] using unfailed
    · intro e he
      refine ⟨?_,failure,hgiven.trans heq⟩
      rcases List.mem_append.mp he with he | he
      · exact (h.ended e he).1
      · simpa [asyncResult] using he
    · have hcount : (results++[some (asyncResult (.ok none))]).countP isReadError =
          results.countP isReadError := by simp [asyncResult]
      rw [hcount,hgiven]
      exact h.failed e (by simpa [asyncResult] using he)

/-- What an action of the holder leads to. -/
def Leads (L : Laws S) (x : Script) (items : List ι) (results : List (Outcome ι)) :
    (Point ⊕ Outcome ι) × IterState σ → Prop
  | (.inl k,t) => Inv L x items (some k) results t
  | (.inr r,t) => Inv L x items none (results++[r]) t

theorem advance_inv (h : Inv L x items (some .holding) results s) :
    Leads L x items results (advance S s) := by
  unfold advance
  by_cases hshut : s.finished = false ∧ s.stream.closed = true
  · have hcheck : (if s.finished = true then Except.ok () else s.stream.checkOpen) =
        .error LiveStream.responseClosed := by simp [hshut.1,LiveStream.checkOpen,hshut.2]
    rw [hcheck]
    exact h.refuse (.inl hshut.2)
  · have hopen : s.finished = true ∨ s.stream.closed = false := by
      cases hf : s.finished with
      | true => exact .inl rfl
      | false => exact .inr (by simpa [hf] using hshut)
    have hcheck : (if s.finished = true then Except.ok () else s.stream.checkOpen) = .ok () := by
      rcases hopen with hf | hc
      · simp [hf]
      · simp [LiveStream.checkOpen,hc]
    rw [hcheck]
    obtain ⟨o,t,hr,ht,he,ha,hl,hd⟩ := L.ready_spec s.inner h.inner
    have hstage := h.stage.ready hopen he ha hl hd h.inner
    simp only [hr]
    cases o with
    | some item => exact h.give ht hstage
    | none =>
      have hdrained := hd rfl
      simp only [gave_none,List.append_nil] at hstage
      by_cases hf : s.finished = true
      · obtain ⟨o,u,hflush,hu,hlo,hlu⟩ := L.flush_spec t ht hdrained
        simp only [if_pos hf,hflush]
        exact h.flush hf hstage hu hlo hlu
      · simp only [if_neg hf]
        exact ⟨ht,fun _ => ⟨hdrained,by simpa using hf⟩,by simp,h.panics,hstage,h.ended,h.failed⟩

theorem lockStream_inv (h : Inv L x items (some .requesting) results s) :
    Leads L x items results (lockStream s) := by
  obtain ⟨hdrained,hf⟩ := h.drained (.inl rfl)
  unfold lockStream
  cases hc : s.stream.closed with
  | true =>
    simp only [LiveStream.checkOpen,hc,if_true]
    exact h.refuse (.inl hc)
  | false =>
    simp only [LiveStream.checkOpen,hc,Bool.false_eq_true,if_false]
    cases hslot : s.stream.stream with
    | some script =>
      exact ⟨h.inner,fun _ => ⟨hdrained,hf⟩,fun _ => by simp [hslot],h.panics,h.stage,h.ended,
        h.failed⟩
    | none =>
      refine h.refuse (.inr ?_)
      cases h.stage with
      | reading _ _ slot _ _ => simp [hslot] at slot
      | ended finished _ _ _ => simp [hf] at finished
      | closed _ _ closed _ _ => simp [hc] at closed
      | failed _ _ _ _ _ failed => exact failed

theorem Inv.clear {point : Option Point} (h : Inv L x items point results s)
    (hc : s.stream.closed = true) (hp : point ≠ some .waiting) :
    Inv L x items point results (setSlot s none) := by
  refine ⟨h.inner,h.drained,fun hw => absurd hw hp,h.panics,?_,h.ended,h.failed⟩
  cases h.stage with
  | reading chunks finished slot rest unfailed =>
    exact .closed finished rfl hc (rest ▸ List.prefix_append _ _) unfailed
  | ended finished failure rest unfailed => exact .ended finished failure rest unfailed
  | closed finished slot closed rest unfailed => exact .closed finished rfl hc rest unfailed
  | failed finished slot failure drained rest failed =>
    exact .failed finished rfl failure drained rest failed

theorem Inv.release {point : Option Point} (h : Inv L x items point results s) :
    Inv L x items none results s :=
  ⟨h.inner,by simp,by simp,h.panics,h.stage,h.ended,h.failed⟩

theorem signal_inv (h : Inv L x items (some .waiting) results s)
    {after : (Point ⊕ Outcome ι) × IterState σ} (ha : signal s = some after) :
    Leads L x items results after := by
  unfold signal at ha
  split at ha
  · next hc =>
    obtain rfl := Option.some.inj ha
    exact (h.release.clear hc (by simp)).refuse (.inl hc)
  · cases ha

theorem deliver_inv (h : Inv L x items (some .waiting) results s)
    {after : (Point ⊕ Outcome ι) × IterState σ} (ha : deliver S s = some after) :
    Leads L x items results after := by
  obtain ⟨hdrained,hf⟩ := h.drained (.inr rfl)
  have hslot := h.slot rfl
  cases h.stage with
  | ended finished _ _ _ => simp [hf] at finished
  | closed _ slot _ _ _ | failed _ slot _ _ _ _ => simp [slot] at hslot
  | reading chunks finished slot rest unfailed =>
    cases chunks with
    | cons bytes chunks =>
      obtain ⟨t,hfeed,ht,he,ha'⟩ := L.feed_spec s.inner bytes h.inner hdrained
      have hhead : s.stream.stream = some (.ok bytes::scriptOf chunks x.failure) := by
        rw [slot]
        rcases x.failure with _ | ⟨e,rest⟩ <;> rfl
      have hrest : given results++coming L x.failure t chunks = items := by
        rw [← rest]
        cases x.failure with
        | none => exact congrArg _ (ha' chunks).symm
        | some _ => exact congrArg _ (he chunks).symm
      simp only [deliver,hhead,hfeed] at ha
      obtain rfl := Option.some.inj ha
      exact ⟨ht,by simp,by simp,h.panics,.reading chunks finished rfl hrest unfailed,h.ended,
        h.failed⟩
    | nil =>
      rcases hx : x.failure with _ | ⟨e,more⟩
      · have hnil : s.stream.stream = some [] := by rw [slot,hx]; rfl
        obtain ⟨t,hfinish,ht,hl⟩ := L.finish_spec s.inner h.inner hdrained
        simp only [deliver,hnil,hfinish] at ha
        obtain rfl := Option.some.inj ha
        have hrest : given results++L.left t = items := by
          rw [← rest,hx,← hl]
          rfl
        exact ⟨ht,by simp,by simp,h.panics,.ended rfl hx hrest unfailed,h.ended,h.failed⟩
      · have hfail : s.stream.stream = some (.error e::more) := by rw [slot,hx]; rfl
        simp only [deliver,hfail] at ha
        obtain rfl := Option.some.inj ha
        have hall : given results = items := by
          rw [← rest,hx]
          simp [coming,L.drained_early s.inner h.inner hdrained]
        have hread : isReadError (some (.error (.Core (.fromReqwest e))) : Outcome ι) = true := by
          simp [isReadError,LiveStream.responseClosed,RqxCoreError.fromReqwest_ne_streamClosed]
        have hgiven : given (results++[some (.error (.Core (.fromReqwest e)))]) = items := by
          simpa using hall
        refine ⟨h.inner,by simp,by simp,by simpa using h.panics,
          .failed finished rfl (by simp [hx]) hdrained hgiven (by simp [unfailed,hread]),
          fun e' he' => ?_,fun e' he' => ?_⟩
        · obtain ⟨_,hnone,_⟩ := h.ended e' (by simpa using he')
          rw [hx] at hnone
          cases hnone
        · rcases List.mem_append.mp he' with he' | he'
          · rcases h.failed e' he' with ⟨rfl,_⟩ | ⟨f,rest,hx',rfl,_⟩
            · exact .inl ⟨rfl,.inr (by simp [unfailed,hread])⟩
            · exact .inr ⟨f,rest,hx',rfl,hgiven⟩
          · obtain rfl : e' = .fromReqwest e := by simpa using he'
            exact .inr ⟨e,more,hx,rfl,hgiven⟩

theorem anext_keeps : Guarded.Keeps (anext S) (Inv L x items) where
  lock _ _ h := ⟨h.inner,by simp [anext],by simp [anext],h.panics,h.stage,h.ended,h.failed⟩
  act results s a k k' t h hact := by
    have hleads : Leads L x items results (.inl k',t) := by
      cases a <;> cases k <;> simp only [anext,Option.some.injEq,reduceCtorEq] at hact
      · exact hact ▸ advance_inv h
      · exact hact ▸ lockStream_inv h
      · exact deliver_inv h hact
      · exact signal_inv h hact
    exact hleads
  leave results s a k r t h hact := by
    have hleads : Leads L x items results (.inr r,t) := by
      cases a <;> cases k <;> simp only [anext,Option.some.injEq,reduceCtorEq] at hact
      · exact hact ▸ advance_inv h
      · exact hact ▸ lockStream_inv h
      · exact deliver_inv h hact
      · exact signal_inv h hact
    exact hleads
  drop _ _ _ h _ := h.release
  disturb results s e k t h hdisturb := by
    cases e with
    | mark =>
      obtain rfl := Option.some.inj hdisturb
      refine ⟨h.inner,h.drained,h.slot,h.panics,?_,h.ended,fun e he => ?_⟩
      · cases h.stage with
        | reading chunks finished slot rest unfailed =>
          exact .reading chunks finished slot rest unfailed
        | ended finished failure rest unfailed => exact .ended finished failure rest unfailed
        | closed finished slot closed rest unfailed => exact .closed finished slot rfl rest unfailed
        | failed finished slot failure drained rest failed =>
          exact .failed finished slot failure drained rest failed
      · rcases h.failed e he with ⟨rfl,_⟩ | hf
        · exact .inl ⟨rfl,.inl rfl⟩
        · exact .inr hf
    | clear =>
      have hp : k ≠ some .waiting := by
        rintro rfl
        simp [anext] at hdisturb
      have hclear : (if s.stream.closed then some (setSlot s none) else none) = some t := by
        rcases k with _ | _ | _ | _
        · exact hdisturb
        · exact hdisturb
        · exact hdisturb
        · exact absurd rfl hp
      split at hclear
      · next hc =>
        obtain rfl := Option.some.inj hclear
        exact h.clear hc hp
      · cases hclear

/-! ## All callers together -/

theorem calls_ended (h : L.Inv s.inner) (hf : s.finished = true) (k : ℕ) :
    ∃ t, calls (next S) k s = some ((List.range k).map fun i => .ok (L.left s.inner)[i]?,t) := by
  obtain ⟨t,ht,_⟩ := calls_of_next (S := S) (P := fun i t => Ahead L t ((L.left s.inner).drop i))
    (r := fun i => .ok (L.left s.inner)[i]?)
    (fun i t ha => by
      obtain ⟨u,hu,hau⟩ := next_ahead L ha
      rw [List.head?_drop] at hu
      exact ⟨u,hu,by simpa using hau⟩)
    k (i := 0) (s := s) ⟨h,.inl ⟨hf,by simp⟩⟩
  exact ⟨t,by simpa using ht⟩

theorem Inv.resumes (h : Inv L x items none results s) (hopen : s.stream.closed = false)
    (hcount : results.countP isReadError = 0) (k : ℕ) :
    ∃ t, calls (next S) k s = some ((List.range k).map
      (told x.failure (items.drop (given results).length)),t) := by
  obtain ⟨⟨slot,closed⟩,inner,finished⟩ := s
  obtain rfl : closed = false := hopen
  cases h.stage with
  | reading chunks hf hslot rest _ =>
    obtain rfl : finished = false := hf
    obtain rfl : slot = _ := hslot
    rw [← rest,List.drop_left]
    rcases x.failure with _ | ⟨e,more⟩
    · obtain ⟨t,ht,_⟩ := calls_yield L h.inner chunks k
      exact ⟨t,ht⟩
    · obtain ⟨t,ht,_⟩ := calls_fail L h.inner chunks e more k
      exact ⟨t,ht⟩
  | ended hf failure rest _ =>
    rw [← rest,List.drop_left,failure]
    exact calls_ended h.inner hf k
  | closed _ _ closed _ _ => simp at closed
  | failed _ _ _ _ _ failed => omega

/-- Whatever the schedule, and whichever calls are cancelled, the callers together see what a lone
caller would have seen. -/
theorem seen_of_run (L : Laws S) {inner : σ} (hi : L.Inv inner) (x : Script)
    (as : List (Guarded.Action Poll Close)) (s : State σ ι)
    (h : Runs.run (step S) (Guarded.init ⟨.new x.stream,inner,false⟩) as = some s) :
    Seen S x (coming L x.failure inner x.chunks) s := by
  have hstart : Inv L x (coming L x.failure inner x.chunks) none [] ⟨.new x.stream,inner,false⟩ :=
    ⟨hi,by simp,by simp,by simp,.reading x.chunks rfl rfl rfl rfl,by simp,by simp⟩
  have hinv := Guarded.run_keeps anext_keeps hstart h
  refine ⟨hinv.stage.ordered,hinv.panics,hinv.ended,hinv.failed,hinv.stage.once,?_,
    Guarded.run_logged h⟩
  intro hholder hopen hcount k
  simp only [Guarded.State.point,hholder,Option.map_none] at hinv
  obtain ⟨t,ht⟩ := hinv.resumes hopen hcount k
  exact ⟨t,(calls_next ht).2⟩

theorem alone_of_laws (L : Laws S) {inner : σ} (hi : L.Inv inner) (x : Script) :
    Alone S x.failure (coming L x.failure inner x.chunks) ⟨.new x.stream,inner,false⟩ :=
  (seen_of_run L hi x [] _ rfl).resumes rfl rfl rfl

end Invariant

/-- The calls of any number of callers of one iterator, over any schedule, with any of them
cancelled and closes at any time. -/
def Shares (S : Source σ ι) (x : Script) (s : IterState σ) : Prop :=
  ∃ items, Alone S x.failure items s ∧ ∀ as t,
    Runs.run (step S) (Guarded.init s) as = some t → Seen S x items t

/-- Every async iterator gives its callers together what it would give a lone caller: no item is
lost to a cancelled call or given out twice, and no body is reported as complete before it is. -/
theorem shared_iterators (E : Encoding) (chunkSize : Option ℕ) (hs : chunkSize ≠ some 0)
    (x : Script) :
    Shares PyByteIterator.source x (PyByteIterator.new chunkSize x.stream) ∧
      Shares (PyTextIterator.source E) x (PyTextIterator.new E chunkSize x.stream) ∧
      Shares (PyLineIterator.source E) x (PyLineIterator.new E x.stream) := by
  have hbytes : (PyByteIterator.laws chunkSize).Inv (.new chunkSize) := ⟨ByteChunker.inv_new hs,rfl⟩
  have htext : (PyTextIterator.laws E chunkSize).Inv ⟨.new E,.new chunkSize⟩ :=
    ⟨TextChunker.inv_new hs,rfl⟩
  have hlines : (PyLineIterator.laws E).Inv ⟨.new E,.new,[]⟩ := LineDecoder.inv_new
  exact ⟨⟨_,alone_of_laws _ hbytes x,seen_of_run _ hbytes x⟩,
    ⟨_,alone_of_laws _ htext x,seen_of_run _ htext x⟩,
    ⟨_,alone_of_laws _ hlines x,seen_of_run _ hlines x⟩⟩

theorem shared_iterators_two :
    Shares PyByteIterator.source ⟨[[1,2,3]],none⟩ (PyByteIterator.new (some 2) [.ok [1,2,3]]) :=
  (shared_iterators asciiEncodings.UTF_8 (some 2) (by decide) ⟨[[1,2,3]],none⟩).1

/-- A call that is cancelled at the network takes the bytes of no piece with it. -/
example : ∃ s, Runs.run (step PyByteIterator.source)
    (Guarded.init (PyByteIterator.new (some 2) [.ok [1],.ok [2,3]]))
    [.spawn,.lock 0,.act .advance,.act .lockStream,.act .deliver,.act .advance,.act .lockStream,
      .drop 0,
      .spawn,.lock 1,.act .advance,.act .lockStream,.act .deliver,.act .advance] = some s ∧
    s.log = [(1,some (.ok [1,2]))] := ⟨_,rfl,rfl⟩

/-! ## A call that nothing disturbs -/

/-- What the holder's future does, without anyone else. -/
def drive (point : Point) (s : IterState σ) :
    List Poll → Option ((Point ⊕ Outcome ι) × IterState σ)
  | [] => some (.inl point,s)
  | a::as =>
    match (anext S).act a point s with
    | some (.inl k,t) => drive k t as
    | some (.inr r,t) => if as.isEmpty then some (.inr r,t) else none
    | none => none

variable {S}

@[simp] theorem act_advance (s : IterState σ) :
    (anext S).act .advance .holding s = some (advance S s) := rfl
@[simp] theorem act_lockStream (s : IterState σ) :
    (anext S).act .lockStream .requesting s = some (lockStream s) := rfl
@[simp] theorem act_deliver (s : IterState σ) :
    (anext S).act .deliver .waiting s = deliver S s := rfl

theorem drive_append {k k' : Point} {s t : IterState σ} {as bs : List Poll}
    (h : drive S k s as = some (.inl k',t)) : drive S k s (as++bs) = drive S k' t bs := by
  induction as generalizing k s with
  | nil =>
    obtain ⟨rfl,rfl⟩ : k = k' ∧ s = t := by simpa [drive] using h
    rfl
  | cons a as ih =>
    rw [drive] at h
    rw [List.cons_append,drive]
    rcases hact : (anext S).act a k s with _ | ⟨k'' | r,u⟩
    · simp [hact] at h
    · simp only [hact] at h ⊢
      exact ih h
    · simp only [hact] at h
      split at h
      · cases h
      · cases h

theorem drive_turn (s : IterState σ) :
    (∃ as r t, turn S s = .done (some (r,t)) ∧
      drive S .holding s as = some (.inr (some (asyncResult r)),t)) ∨
    (∃ as t, turn S s = .done none ∧ drive S .holding s as = some (.inr none,t)) ∨
    ∃ as t, turn S s = .again t ∧ drive S .holding s as = some (.inl .holding,t) := by
  obtain ⟨⟨slot,closed⟩,inner,finished⟩ := s
  by_cases hshut : finished = false ∧ closed = true
  · obtain ⟨rfl,rfl⟩ := hshut
    exact .inl ⟨[.advance],_,_,rfl,rfl⟩
  · have hcheck : (if finished = true then Except.ok () else LiveStream.checkOpen ⟨slot,closed⟩) =
        .ok () := by
      cases finished <;> cases closed <;> simp_all
    rcases hr : S.ready inner with _ | ⟨_ | item,t⟩
    · exact .inr (.inl ⟨[.advance],⟨⟨slot,closed⟩,inner,finished⟩,by simp [turn,hcheck,hr],
        by simp [drive,advance,hcheck,hr]⟩)
    · cases finished with
      | true =>
        rcases hf : S.flush t with _ | ⟨o,u⟩
        · exact .inr (.inl ⟨[.advance],⟨⟨slot,closed⟩,inner,true⟩,by simp [turn,hr,hf],
            by simp [drive,advance,hr,hf]⟩)
        · exact .inl ⟨[.advance],.ok o,⟨⟨slot,closed⟩,u,true⟩,by simp [turn,hr,hf],
            by simp [drive,advance,hr,hf]⟩
      | false =>
        obtain rfl : closed = false := by simpa using hshut
        rcases slot with _ | script
        · exact .inl ⟨[.advance,.lockStream],.error LiveStream.responseClosed,
            ⟨⟨none,false⟩,t,false⟩,
            by simp [turn,hr,LiveStream.nextChunk_none],
            by simp [drive,advance,lockStream,hr,refused,asyncResult]⟩
        · have hopen : ∀ rest, drive S .holding ⟨⟨some script,false⟩,inner,false⟩
              (.advance :: .lockStream :: rest) =
                drive S .waiting ⟨⟨some script,false⟩,t,false⟩ rest := by
            intro rest
            simp [drive,advance,lockStream,hr]
          rcases script with _ | ⟨e | bytes,rest⟩
          · rcases hf : S.finish t with _ | u
            · exact .inr (.inl ⟨[.advance,.lockStream,.deliver],⟨⟨none,false⟩,t,true⟩,
                by simp [turn,hr,hf],by rw [hopen]; simp [drive,deliver,hf,setSlot]⟩)
            · exact .inr (.inr ⟨[.advance,.lockStream,.deliver],_,turn_end hr hf,
                by rw [hopen]; simp [drive,deliver,hf,setSlot]⟩)
          · exact .inl ⟨[.advance,.lockStream,.deliver],_,_,turn_error hr,
              by rw [hopen]; simp [drive,deliver,setSlot,asyncResult]⟩
          · rcases hf : S.feed bytes t with _ | u
            · exact .inr (.inl ⟨[.advance,.lockStream,.deliver],⟨⟨some rest,false⟩,t,false⟩,
                by simp [turn,hr,hf],by rw [hopen]; simp [drive,deliver,hf,setSlot]⟩)
            · exact .inr (.inr ⟨[.advance,.lockStream,.deliver],_,turn_chunk hr hf,
                by rw [hopen]; simp [drive,deliver,hf,setSlot]⟩)
    · exact .inl ⟨[.advance],.ok (some item),⟨⟨slot,closed⟩,t,finished⟩,by simp [turn,hcheck,hr],
        by simp [drive,advance,hcheck,hr,asyncResult]⟩

/-- A call that nothing disturbs does what `asyncNext` does. -/
theorem drive_next (s : IterState σ) : ∃ as,
    match asyncNext S s with
    | none => ∃ t, drive S .holding s as = some (.inr none,t)
    | some (r,t) => drive S .holding s as = some (.inr (some r),t) := by
  have hrule := (loop S).run_rule
    (P := fun u => ∃ as, drive S .holding s as = some (.inl .holding,u))
    (Q := fun o => ∃ as, match o with
      | none => ∃ t, drive S .holding s as = some (.inr none,t)
      | some (r,t) => drive S .holding s as = some (.inr (some (asyncResult r)),t))
    (fun u ⟨as,has⟩ => ?_) s ⟨[],rfl⟩
  · obtain ⟨as,has⟩ := hrule
    refine ⟨as,?_⟩
    have hnext : asyncNext S s = ((loop S).run s).map (Prod.map asyncResult id) := rfl
    rw [hnext]
    rcases hrun : (loop S).run s with _ | ⟨r,t⟩
    · simpa [hrun] using has
    · simpa [hrun] using has
  · rcases drive_turn (S := S) u with ⟨bs,r,t,hturn,hbs⟩ | ⟨bs,t,hturn,hbs⟩ | ⟨bs,t,hturn,hbs⟩
    · exact .inl ⟨_,hturn,as++bs,(drive_append has).trans hbs⟩
    · exact .inl ⟨_,hturn,as++bs,t,(drive_append has).trans hbs⟩
    · exact .inr ⟨t,hturn,as++bs,(drive_append has).trans hbs⟩

end SharedIterator
end Rqx
