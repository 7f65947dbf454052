import Mathlib.Data.List.TakeWhile
import Rqx.Interrupted
import Rqx.Iteration
import Rqx.StreamResponse

/-! `Client.stream()`: the context that sends the request on enter and closes the response on
exit, and the response with its one iterator, as one thread uses them. Each call's result is
told from the calls before it. -/
namespace Rqx
namespace SyncStream

open PyAsyncStreamResponse (responseClosed alreadyConsumed)
open PyAsyncStreamResponse.State (checkedChunkSize)

/-- What a call gives back; `V` stands for the Python values that `json` makes. -/
inductive Value (V : Type)
  | None
  | bool (b : Bool)
  | bytes (bytes : Bytes)
  | str (text : Text)
  | json (value : V)
  | response
  | iterator

inductive Result (V : Type)
  | returned (value : Value V)
  | stopped
  | raised (e : PyRqxError)
  | panicked

def Result.ofExcept {V : Type} : Except PyRqxError (Value V) → Result V
  | .ok value => .returned value
  | .error e => .raised e

/-- An iterator object: its class, and what it keeps beside the stream. -/
structure Reader (V : Type) where
  {σ ι : Type}
  source : Source σ ι
  item : ι → Value V
  inner : σ
  finished : Bool

structure PyStreamResponse (V : Type) where
  parts : ResponseParts
  body : Option Body
  /-- The stream that the response and its iterator share, once there is one. -/
  stream : LiveStream
  /-- The iterator that has been given the stream. -/
  reader : Option (Reader V)
  contentCache : Option Bytes

def notRead : PyErr := .ResponseNotRead "response not read; call read() first"

def readIntoMemory : PyErr :=
  .StreamConsumed "response already read into memory; use .content, .text or .json()"

namespace PyStreamResponse

variable {V : Type}

def fromPending (parts : ResponseParts) (response : ChunkStream) : PyStreamResponse V :=
  ⟨parts,some (.Live response),⟨none,false⟩,none,none⟩

/-- Drop the body. An iterator still reading it raises on its next chunk. -/
def close (r : PyStreamResponse V) : PyStreamResponse V :=
  match r.body with
  | some .Streaming => { r with body := none, stream := r.stream.close }
  | some (.Live _) | some (.Buffered _) | none => { r with body := none }

/-- Hand the live body to an iterator, keeping a handle so `close` reaches it. -/
def startStream (r : PyStreamResponse V) : Except PyErr Unit × PyStreamResponse V :=
  match r.body with
  | some (.Live response) => (.ok (),{ r with body := some .Streaming, stream := .new response })
  | some .Streaming => (.error alreadyConsumed,r)
  | some (.Buffered _) => (.error readIntoMemory,r)
  | none => (.error responseClosed,r)

/-- Start the stream for the iterator. -/
def iterate (r : PyStreamResponse V) (reader : Reader V) : Result V × PyStreamResponse V :=
  match r.startStream with
  | (.ok (),r) => (.returned .iterator,{ r with reader := some reader })
  | (.error e,r) => (.raised (.Py e),r)

def iterBytes (chunkSize : Option ℕ) (r : PyStreamResponse V) : Result V × PyStreamResponse V :=
  match checkedChunkSize chunkSize with
  | .error e => (.raised (.Py e),r)
  | .ok size => r.iterate ⟨PyByteIterator.source,.bytes,.new size,false⟩

def iterText (rs : Encodings) (chunkSize : Option ℕ) (r : PyStreamResponse V) :
    Result V × PyStreamResponse V :=
  match checkedChunkSize chunkSize with
  | .error e => (.raised (.Py e),r)
  | .ok size =>
    let E := r.parts.resolvedEncoding rs
    r.iterate ⟨PyTextIterator.source E,.str,⟨.new E,.new size⟩,false⟩

def iterLines (rs : Encodings) (r : PyStreamResponse V) : Result V × PyStreamResponse V :=
  let E := r.parts.resolvedEncoding rs
  r.iterate ⟨PyLineIterator.source E,.str,⟨.new E,.new,[]⟩,false⟩

/-- `__next__` of the iterator. -/
def next (r : PyStreamResponse V) (reader : Reader V) : Result V × PyStreamResponse V :=
  match IterState.syncNext reader.source ⟨r.stream,reader.inner,reader.finished⟩ with
  | none => (.panicked,r)
  | some (result,s) =>
    (match result with
    | .ok (some item) => .returned (reader.item item)
    | .ok none => .stopped
    | .error e => .raised e,
    { r with
      stream := s.stream, reader := some { reader with inner := s.inner, finished := s.finished } })

/-- The buffered bytes that `text` and `json` work on. -/
def buffered (r : PyStreamResponse V) : Except PyErr Bytes :=
  match r.body with
  | some (.Buffered bytes) => .ok bytes
  | some (.Live _) | some .Streaming => .error notRead
  | none => .error responseClosed

/-- The `bytes` object is made once. -/
def content (r : PyStreamResponse V) : Result V × PyStreamResponse V :=
  match r.buffered with
  | .ok bytes =>
    let cached := r.contentCache.getD bytes
    (.returned (.bytes cached),{ r with contentCache := some cached })
  | .error e => (.raised (.Py e),r)

def read (r : PyStreamResponse V) : Result V × PyStreamResponse V :=
  match r.body with
  | some (.Live response) =>
    match readAll response with
    | .ok bytes => content { r with body := some (.Buffered bytes) }
    | .error e => (.raised (.Core (.fromReqwest e)),{ r with body := none })
  | some .Streaming => (.raised (.Py alreadyConsumed),r)
  | some (.Buffered _) => r.content
  | none => (.raised (.Py responseClosed),r)

def text (rs : Encodings) (r : PyStreamResponse V) : Result V :=
  match r.buffered with
  | .ok bytes => .returned (.str (r.parts.text rs bytes))
  | .error e => .raised (.Py e)

/-- `parse` is `ResponseParts::json` and the conversion to a Python value. -/
def json (parse : Bytes → Except PyRqxError V) (r : PyStreamResponse V) : Result V :=
  match r.buffered with
  | .ok bytes => .ofExcept ((parse bytes).map .json)
  | .error e => .raised (.Py e)

def isClosed (r : PyStreamResponse V) : Bool :=
  match r.body with
  | none => true
  | some .Streaming => r.stream.isClosed
  | some (.Live _) | some (.Buffered _) => false

def isConsumed (r : PyStreamResponse V) : Bool :=
  match r.body with
  | some (.Live _) => false
  | some .Streaming | some (.Buffered _) | none => true

def setEncoding (value : String) (r : PyStreamResponse V) : PyStreamResponse V :=
  { r with parts := { r.parts with encodingOverride := some value } }

/-- The response, or the stream it shares with its iterator, has the connection. -/
def connected (r : PyStreamResponse V) : Bool :=
  match r.body with
  | some (.Live _) => true
  | some .Streaming | some (.Buffered _) | none => r.stream.stream.isSome

end PyStreamResponse

/-- A call on the response or on its iterator. -/
inductive Use
  | close
  | iterBytes (chunkSize : Option ℕ)
  | iterText (chunkSize : Option ℕ)
  | iterLines
  | next
  | read
  | content
  | text
  | json
  | isClosed
  | isConsumed
  | encoding
  | setEncoding (value : String)

inductive Call
  /-- `outcome` is what `Client::send` comes back with, should it be called. -/
  | enter (outcome : Except RqxCoreError (ResponseParts × ChunkStream))
  | exit
  | use (u : Use)

structure PyStreamContext (V : Type) where
  /-- The request, until it is sent. -/
  unsent : Bool
  /-- The context has the response to close. -/
  response : Bool
  /-- The response that `__enter__` has returned. -/
  opened : Option (PyStreamResponse V)

section Steps

variable {V : Type} (rs : Encodings) (parse : Bytes → Except PyRqxError V)

/-- One call on the response; without an iterator there is none to call. -/
def PyStreamResponse.answer (r : PyStreamResponse V) : Use → Option (Result V × PyStreamResponse V)
  | .close => some (.returned .None,r.close)
  | .iterBytes chunkSize => some (r.iterBytes chunkSize)
  | .iterText chunkSize => some (r.iterText rs chunkSize)
  | .iterLines => some (r.iterLines rs)
  | .next => r.reader.map r.next
  | .read => some r.read
  | .content => some r.content
  | .text => some (r.text rs,r)
  | .json => some (r.json parse,r)
  | .isClosed => some (.returned (.bool r.isClosed),r)
  | .isConsumed => some (.returned (.bool r.isConsumed),r)
  | .encoding => some (.returned (.str (r.parts.encoding rs).toList),r)
  | .setEncoding value => some (.returned .None,r.setEncoding value)

namespace PyStreamContext

def new : PyStreamContext V := ⟨true,false,none⟩

/-- `Unsent::take`. -/
def takeUnsent (s : PyStreamContext V) : Except RqxCoreError Unit × PyStreamContext V :=
  if s.unsent then (.ok (),{ s with unsent := false })
  else (.error (.StreamError "stream already started; call stream() again for a new request"),s)

/-- `__enter__`. -/
def enter (outcome : Except RqxCoreError (ResponseParts × ChunkStream)) (s : PyStreamContext V) :
    Result V × PyStreamContext V :=
  match s.takeUnsent with
  | (.error e,s) => (.raised (.Core e),s)
  | (.ok (),s) =>
    match outcome with
    | .error e => (.raised (.Core e),s)
    | .ok (parts,response) =>
      (.returned .response,
        { s with response := true, opened := some (.fromPending parts response) })

/-- `__exit__`. -/
def exit (s : PyStreamContext V) : PyStreamContext V :=
  if s.response then { s with response := false, opened := s.opened.map .close } else s

def step (s : PyStreamContext V) : Call → Option (Result V × PyStreamContext V)
  | .enter outcome => some (s.enter outcome)
  | .exit => some (.returned .None,s.exit)
  | .use u => s.opened.bind fun r =>
    (r.answer rs parse u).map fun (result,r) => (result,{ s with opened := some r })

/-- The calls one after the other. -/
def run : List Call → Option (PyStreamContext V) :=
  Runs.run (fun s c => (step rs parse s c).map Prod.snd) new

end PyStreamContext
end Steps

/-! ## Told from the history -/

/-- What the first `__enter__` brought, and the calls after it. -/
def entered : List Call → Option (Except RqxCoreError (ResponseParts × ChunkStream) × List Call)
  | [] => none
  | .enter outcome::h => some (outcome,h)
  | .exit::h | .use _::h => entered h

namespace Call

def isNext : Call → Bool
  | .use .next => true
  | _ => false

def closes : Call → Bool
  | .exit | .use .close => true
  | _ => false

/-- The call takes the live body for itself, or drops it. -/
def takes : Call → Bool
  | .exit | .use .close | .use .read | .use .iterLines => true
  | .use (.iterBytes chunkSize) | .use (.iterText chunkSize) => chunkSize ≠ some 0
  | _ => false

end Call

/-- The parts of the response as the last `encoding` set has left them. -/
def partsAt (parts : ResponseParts) : List Call → ResponseParts
  | [] => parts
  | .use (.setEncoding value)::u => partsAt { parts with encodingOverride := some value } u
  | _::u => partsAt parts u

/-- How many calls of the iterator came before the first close. -/
def cut (u : List Call) : Option ℕ :=
  if u.any Call.closes then some ((u.takeWhile fun c => !c.closes).countP Call.isNext) else none

/-- What the iterator that the call makes gives out over the body. -/
def planOf (V : Type) (rs : Encodings) (parts : ResponseParts) (response : ChunkStream) :
    Call → Option (Plan (Value V))
  | .use (.iterBytes chunkSize) => some (Plan.map .bytes
    ⟨Regroup.completed chunkSize [] (arrived response).1,
      Regroup.regrouped chunkSize [] (arrived response).1,(arrived response).2⟩)
  | .use (.iterText chunkSize) =>
    let d := TextDecoder.new (parts.resolvedEncoding rs)
    some (Plan.map .str
      ⟨Regroup.completed chunkSize [] (Encoding.decodeChunks d (arrived response).1).1,
        Regroup.regrouped chunkSize [] (Encoding.streamTexts d (arrived response).1),
        (arrived response).2⟩)
  | .use .iterLines =>
    let d := TextDecoder.new (parts.resolvedEncoding rs)
    some (Plan.map .str
      ⟨Splitlines.terminated (Splitlines.settled
          (Encoding.decodeChunks d (arrived response).1).1.flatten),
        Splitlines.splitlines (Encoding.streamTexts d (arrived response).1).flatten,
        (arrived response).2⟩)
  | _ => none

inductive Status (V : Type)
  | live
  | iterating (plan : Plan (Value V))
  | inMemory (bytes : Bytes)
  | closed

section Spec

variable {V : Type} (rs : Encodings) (parse : Bytes → Except PyRqxError V)
  (parts : ResponseParts) (response : ChunkStream)

/-- The iterator of a response after the calls `u`: the first call that took the body made it. -/
def planAfter (u : List Call) : Option (Plan (Value V)) :=
  (u.find? Call.takes).bind
    (planOf V rs (partsAt parts (u.takeWhile fun c => !c.takes)) response)

/-- The first call that took the body decides, until a close. -/
def statusAfter (u : List Call) : Status V :=
  if u.any Call.closes then .closed
  else if u.any Call.takes = false then .live
  else
    match planAfter rs parts response u with
    | some plan => .iterating plan
    | none =>
      match readAll response with
      | .ok bytes => .inMemory bytes
      | .error _ => .closed

namespace Status

def iterate : Status V → Result V
  | live => .returned .iterator
  | iterating _ => .raised (.Py alreadyConsumed)
  | inMemory _ => .raised (.Py readIntoMemory)
  | closed => .raised (.Py responseClosed)

def read : Status V → Result V
  | live => .ofExcept ((readAll response).mapError (.Core ∘ .fromReqwest) |>.map .bytes)
  | iterating _ => .raised (.Py alreadyConsumed)
  | inMemory bytes => .returned (.bytes bytes)
  | closed => .raised (.Py responseClosed)

def buffered (f : Bytes → Result V) : Status V → Result V
  | live | iterating _ => .raised (.Py notRead)
  | inMemory bytes => f bytes
  | closed => .raised (.Py responseClosed)

/-- Closed, or read to the end by `y` calls of the iterator. -/
def isClosed (y : ℕ) : Status V → Bool
  | live | inMemory _ => false
  | iterating plan => plan.Over y
  | closed => true

def isConsumed : Status V → Bool
  | live => false
  | iterating _ | inMemory _ | closed => true

/-- The connection is held until the body has been read to its end or the response closed. -/
def connected (y : ℕ) : Status V → Bool
  | live => true
  | iterating plan => !plan.Over y
  | inMemory _ | closed => false

end Status

def ofNext : Except RqxCoreError (Option (Value V)) → Result V
  | .ok (some item) => .returned item
  | .ok none => .stopped
  | .error e => .raised (.Core e)

/-- What a call on the response gives back after the calls `u`. -/
def useAfter (u : List Call) : Use → Option (Result V)
  | .close | .setEncoding _ => some (.returned .None)
  | .iterBytes chunkSize | .iterText chunkSize =>
    some (if chunkSize = some 0 then .raised (.Py (.ValueError "chunk_size must be at least 1"))
      else (statusAfter rs parts response u).iterate)
  | .iterLines => some (statusAfter rs parts response u).iterate
  | .next => (planAfter rs parts response u).map fun plan =>
    ofNext (plan.resultCut (cut u) (u.countP Call.isNext))
  | .read => some ((statusAfter rs parts response u).read response)
  | .content => some ((statusAfter rs parts response u).buffered fun bytes =>
    .returned (.bytes bytes))
  | .text => some ((statusAfter rs parts response u).buffered fun bytes =>
    .returned (.str ((partsAt parts u).text rs bytes)))
  | .json => some ((statusAfter rs parts response u).buffered fun bytes =>
    .ofExcept ((parse bytes).map .json))
  | .isClosed => some (.returned (.bool
    ((statusAfter (V := V) rs parts response u).isClosed (u.countP Call.isNext))))
  | .isConsumed => some (.returned (.bool (statusAfter (V := V) rs parts response u).isConsumed))
  | .encoding => some (.returned (.str ((partsAt parts u).encoding rs).toList))

end Spec

/-! ## One more call -/

section History

variable {V : Type} {rs : Encodings} {parts : ResponseParts} {response : ChunkStream}
  {u : List Call} {c : Call}

theorem Call.eq_of_closes (h : c.closes = true) : c = .exit ∨ c = .use .close := by
  rcases c with _ | _ | use
  · simp [closes] at h
  · exact .inl rfl
  · cases use <;> simp [closes] at h ⊢

theorem Call.takes_of_closes (h : c.closes = true) : c.takes = true := by
  rcases eq_of_closes h with rfl | rfl <;> rfl

theorem Call.not_next_of_closes (h : c.closes = true) : c.isNext = false := by
  rcases eq_of_closes h with rfl | rfl <;> rfl

theorem find?_takes : u.find? Call.takes = none ↔ u.any Call.takes = false := by
  simp [List.find?_eq_none,List.any_eq_false]

theorem not_closes_of_not_takes (h : u.any Call.takes = false) : u.any Call.closes = false := by
  rw [List.any_eq_false] at h ⊢
  exact fun c hc hclose => h c hc (Call.takes_of_closes hclose)

section Before

variable {p : Call → Bool}

theorem takeWhile_of_any (h : u.any p = true) (v : List Call) :
    ((u++v).takeWhile fun c => !p c) = u.takeWhile fun c => !p c := by
  rw [List.takeWhile_append,if_neg]
  intro hl
  have hu : (u.takeWhile fun c => !p c) = u := (List.takeWhile_prefix _).eq_of_length hl
  obtain ⟨c,hc,hp⟩ := List.any_eq_true.mp h
  have hnot := List.takeWhile_eq_self_iff.mp hu c hc
  simp [hp] at hnot

theorem takeWhile_first (h : u.any p = false) (hc : p c = true) :
    ((u++[c]).takeWhile fun c => !p c) = u := by
  rw [List.takeWhile_append_of_pos (by simpa using h)]
  simp [hc]

end Before

theorem partsAt_append (u v : List Call) : partsAt parts (u++v) = partsAt (partsAt parts u) v := by
  induction u generalizing parts with
  | nil => rfl
  | cons c u ih =>
    rcases c with _ | _ | use
    · exact ih
    · exact ih
    · cases use <;> exact ih

theorem planAfter_of_any (h : u.any Call.takes = true) (v : List Call) :
    planAfter (V := V) rs parts response (u++v) = planAfter rs parts response u := by
  obtain ⟨o,ho⟩ : ∃ o, u.find? Call.takes = some o := by
    rw [← Option.ne_none_iff_exists',Ne,find?_takes,h]
    simp
  simp only [planAfter,takeWhile_of_any h,List.find?_append,ho,Option.some_or]

theorem planAfter_live (h : u.any Call.takes = false) :
    planAfter (V := V) rs parts response u = none := by
  simp [planAfter,find?_takes.mpr h]

theorem planAfter_take (h : u.any Call.takes = false) (hc : c.takes = true) :
    planAfter (V := V) rs parts response (u++[c]) = planOf V rs (partsAt parts u) response c := by
  simp [planAfter,takeWhile_first h hc,List.find?_append,find?_takes.mpr h,hc]

/-- A call that does not take the body, or comes after one that has. -/
theorem planAfter_leaves (h : c.takes = false ∨ u.any Call.takes = true) :
    planAfter (V := V) rs parts response (u++[c]) = planAfter rs parts response u := by
  cases hu : u.any Call.takes with
  | true => exact planAfter_of_any hu [c]
  | false =>
    have hct : c.takes = false := by simpa [hu] using h
    rw [planAfter_live hu,planAfter_live (by simp [hu,hct])]

theorem statusAfter_leaves (hc : c.closes = false)
    (h : c.takes = false ∨ u.any Call.takes = true) :
    statusAfter (V := V) rs parts response (u++[c]) = statusAfter rs parts response u := by
  have hany : (u++[c]).any Call.takes = u.any Call.takes := by
    rcases h with h | h <;> simp [h]
  simp only [statusAfter,planAfter_leaves h,hany,List.any_append,hc,List.any_cons,List.any_nil,
    Bool.or_false]

theorem cut_leaves (hc : c.closes = false) : cut (u++[c]) = cut u := by
  cases hu : u.any Call.closes with
  | true => simp [cut,hu,takeWhile_of_any hu]
  | false => simp [cut,hu,hc]

theorem cut_close (hc : c.closes = true) :
    cut (u++[c]) = (cut u <|> some (u.countP Call.isNext)) := by
  cases hu : u.any Call.closes with
  | true => simp [cut,hu,takeWhile_of_any hu]
  | false => simp [cut,hu,hc,takeWhile_first hu hc]

theorem planAfter_close (hc : c.closes = true) :
    planAfter (V := V) rs parts response (u++[c]) = planAfter rs parts response u := by
  cases hu : u.any Call.takes with
  | true => exact planAfter_of_any hu [c]
  | false =>
    rw [planAfter_live hu,planAfter_take hu (Call.takes_of_closes hc)]
    rcases Call.eq_of_closes hc with rfl | rfl <;> rfl

theorem countP_concat (hc : c.isNext = false) :
    (u++[c]).countP Call.isNext = u.countP Call.isNext := by
  simp [hc]

theorem statusAfter_live (h : u.any Call.takes = false) :
    statusAfter (V := V) rs parts response u = .live := by
  simp [statusAfter,h,not_closes_of_not_takes h]

theorem statusAfter_closes (h : u.any Call.closes = true) :
    statusAfter (V := V) rs parts response u = .closed := by
  simp [statusAfter,h]

/-- A body that is neither live nor closed is with the iterator, or was read. -/
theorem statusAfter_taken (hc : u.any Call.closes = false) (ht : u.any Call.takes = true) :
    statusAfter (V := V) rs parts response u =
      match planAfter rs parts response u with
      | some plan => .iterating plan
      | none =>
        match readAll response with
        | .ok bytes => .inMemory bytes
        | .error _ => .closed := by
  simp [statusAfter,hc,ht]

end History

/-! ## The response keeps to its history -/

def Status.body {V : Type} (response : ChunkStream) : Status V → Option Body
  | .live => some (.Live response)
  | .iterating _ => some .Streaming
  | .inMemory bytes => some (.Buffered bytes)
  | .closed => none

section Agrees

variable {V : Type} {rs : Encodings} {parse : Bytes → Except PyRqxError V} {parts : ResponseParts}
  {response : ChunkStream} {u : List Call} {c : Call} {r : PyStreamResponse V}

/-- The iterator is where the plan says, after `y` calls and a close after `cut` of them. -/
def Follows (plan : Plan (Value V)) (cut : Option ℕ) (y : ℕ) (r : PyStreamResponse V) : Prop :=
  ∃ (σ ι : Type) (S : Source σ ι) (L : Laws S) (P : Plan ι) (item : ι → Value V) (inner : σ)
    (finished : Bool), r.reader = some ⟨S,item,inner,finished⟩ ∧ plan = P.map item ∧
      IterState.Stage L P cut y ⟨r.stream,inner,finished⟩

structure Agrees (rs : Encodings) (parts : ResponseParts) (response : ChunkStream) (u : List Call)
    (r : PyStreamResponse V) : Prop where
  parts_eq : r.parts = partsAt parts u
  cache : ∀ bytes ∈ r.contentCache, readAll response = .ok bytes
  body_eq : r.body = (statusAfter (V := V) rs parts response u).body response
  idle : planAfter (V := V) rs parts response u = none →
    r.reader = none ∧ r.stream.stream = none ∧ u.countP Call.isNext = 0
  follows : ∀ plan ∈ planAfter (V := V) rs parts response u,
    Follows plan (cut u) (u.countP Call.isNext) r

theorem agrees_fromPending :
    Agrees (V := V) rs parts response [] (.fromPending parts response) where
  parts_eq := rfl
  cache := by simp [PyStreamResponse.fromPending]
  body_eq := rfl
  idle := fun _ => ⟨rfl,rfl,rfl⟩
  follows := by simp [planAfter]

theorem Agrees.leaves (h : Agrees rs parts response u r) (hc : c.closes = false)
    (hn : c.isNext = false) (hl : c.takes = false ∨ u.any Call.takes = true)
    {r' : PyStreamResponse V} (hparts : r'.parts = partsAt r.parts [c])
    (hcache : ∀ bytes ∈ r'.contentCache, readAll response = .ok bytes)
    (hbody : r'.body = r.body) (hreader : r'.reader = r.reader) (hstream : r'.stream = r.stream) :
    Agrees rs parts response (u++[c]) r' where
  parts_eq := by rw [hparts,h.parts_eq,partsAt_append]
  cache := hcache
  body_eq := by rw [hbody,h.body_eq,statusAfter_leaves hc hl]
  idle := by
    rw [planAfter_leaves hl,hreader,hstream,countP_concat hn]
    exact h.idle
  follows := by
    rw [planAfter_leaves hl,cut_leaves hc,countP_concat hn]
    simpa only [Follows,hreader,hstream] using h.follows

theorem close_eq (r : PyStreamResponse V) : r.close =
    { r with body := none,
             stream := if r.body = some .Streaming then r.stream.close else r.stream } := by
  unfold PyStreamResponse.close
  split <;> simp [*]

theorem Agrees.close (h : Agrees rs parts response u r) (hc : c.closes = true) :
    Agrees rs parts response (u++[c]) r.close where
  parts_eq := by
    rw [close_eq,partsAt_append,← h.parts_eq]
    rcases Call.eq_of_closes hc with rfl | rfl <;> rfl
  cache := by
    rw [close_eq]
    exact h.cache
  body_eq := by
    rw [close_eq,statusAfter_closes (by simp [hc])]
    rfl
  idle := by
    rw [planAfter_close hc,close_eq,countP_concat (Call.not_next_of_closes hc)]
    intro hp
    obtain ⟨hr,hs,hn⟩ := h.idle hp
    refine ⟨hr,?_,hn⟩
    split
    · rfl
    · exact hs
  follows := by
    rw [planAfter_close hc,cut_close hc,close_eq,countP_concat (Call.not_next_of_closes hc)]
    intro plan hp
    obtain ⟨σ,ι,S,L,P,item,inner,finished,hr,hplan,hs⟩ := h.follows plan hp
    refine ⟨σ,ι,S,L,P,item,inner,finished,hr,hplan,?_⟩
    cases hu : u.any Call.closes with
    | true =>
      have hbody : r.body = none := by rw [h.body_eq,statusAfter_closes hu]; rfl
      simpa [hbody,cut,hu] using hs
    | false =>
      have ht : u.any Call.takes = true := by
        by_contra ht
        rw [planAfter_live (by simpa using ht)] at hp
        simp at hp
      have hbody : r.body = some .Streaming := by
        rw [h.body_eq,statusAfter_taken hu ht,hp]
        rfl
      simpa [hbody] using hs.close

theorem statusAfter_eq_live :
    statusAfter (V := V) rs parts response u = .live ↔ u.any Call.takes = false := by
  refine ⟨fun h => ?_,statusAfter_live⟩
  by_contra ht
  replace ht : u.any Call.takes = true := by simpa using ht
  cases hu : u.any Call.closes with
  | true => simp [statusAfter_closes hu] at h
  | false =>
    rw [statusAfter_taken hu ht] at h
    repeat' split at h
    all_goals simp at h

theorem taken_of_ne_live {status : Status V} (h : statusAfter rs parts response u = status)
    (hne : status ≠ .live) : u.any Call.takes = true := by
  by_contra hu
  exact hne (h ▸ statusAfter_live (by simpa using hu))

theorem Agrees.started (h : Agrees rs parts response u r) (hu : u.any Call.takes = false)
    (ht : c.takes = true) (hc : c.closes = false) (hn : c.isNext = false)
    (hparts : partsAt r.parts [c] = r.parts) {σ ι : Type} {S : Source σ ι} (L : Laws S)
    {item : ι → Value V} {inner : σ} (hi : L.Inv inner)
    (hplan : planOf V rs r.parts response c = some ((IterState.plan L inner response).map item)) :
    Agrees rs parts response (u++[c]) { r with
      body := some .Streaming, stream := .new response, reader := some ⟨S,item,inner,false⟩ } := by
  have hafter : planAfter (V := V) rs parts response (u++[c]) =
      some ((IterState.plan L inner response).map item) := by
    rw [planAfter_take hu ht,← h.parts_eq,hplan]
  have hclosed : u.any Call.closes = false := not_closes_of_not_takes hu
  refine ⟨?_,h.cache,?_,?_,?_⟩
  · rw [partsAt_append,← h.parts_eq]
    exact hparts.symm
  · rw [statusAfter_taken (by simp [hclosed,hc]) (by simp [ht]),hafter]
    rfl
  · simp [hafter]
  · rw [hafter,cut_leaves hc,countP_concat hn,(h.idle (planAfter_live hu)).2.2]
    rintro plan ⟨⟩
    refine ⟨σ,ι,S,L,_,item,inner,false,rfl,rfl,?_⟩
    simpa [cut,hclosed] using IterState.stage_new hi response

theorem iterate_spec (h : Agrees rs parts response u r) (ht : c.takes = true)
    (hc : c.closes = false) (hn : c.isNext = false) (hparts : partsAt r.parts [c] = r.parts)
    {σ ι : Type} {S : Source σ ι} (L : Laws S) (item : ι → Value V) (inner : σ)
    (hi : L.Inv inner)
    (hplan : planOf V rs r.parts response c = some ((IterState.plan L inner response).map item)) :
    (r.iterate ⟨S,item,inner,false⟩).1 = (statusAfter rs parts response u).iterate ∧
      Agrees rs parts response (u++[c]) (r.iterate ⟨S,item,inner,false⟩).2 := by
  have hbody := h.body_eq
  cases hs : statusAfter (V := V) rs parts response u with
  | live =>
    rw [hs] at hbody
    simp only [PyStreamResponse.iterate,PyStreamResponse.startStream,hbody,Status.body]
    exact ⟨rfl,h.started (statusAfter_eq_live.mp hs) ht hc hn hparts L hi hplan⟩
  | iterating _ | inMemory _ | closed =>
    have htaken : u.any Call.takes = true := taken_of_ne_live hs (by simp)
    rw [hs] at hbody
    simp only [PyStreamResponse.iterate,PyStreamResponse.startStream,hbody,Status.body]
    exact ⟨rfl,h.leaves hc hn (.inr htaken) hparts.symm h.cache rfl rfl rfl⟩

theorem map_resultCut {ι : Type} (P : Plan ι) (item : ι → Value V) (cut : Option ℕ) (y : ℕ) :
    (P.map item).resultCut cut y = (P.resultCut cut y).map (Option.map item) := by
  have hover : ∀ c, (P.map item).Survives c ↔ P.Survives c := by
    simp [Plan.Survives,Plan.Over,Plan.map]
  have hresult : (P.map item).result y = (P.result y).map (Option.map item) := by
    simp only [Plan.result,Plan.map]
    cases P.error with
    | none => simp [Except.map]
    | some e =>
      simp only [IterState.failing,List.getElem?_map,List.length_map]
      cases P.early[y]? <;> rfl
  simp only [Plan.resultCut,hover,hresult]
  split <;> rfl

theorem next_spec (h : Agrees rs parts response u r) :
    ((r.answer rs parse .next).map Prod.fst = useAfter rs parse parts response u .next) ∧
      ∀ p ∈ r.answer rs parse .next, Agrees rs parts response (u++[.use .next]) p.2 := by
  cases hp : planAfter (V := V) rs parts response u with
  | none => simp [PyStreamResponse.answer,useAfter,(h.idle hp).1,hp]
  | some plan =>
    obtain ⟨σ,ι,S,L,P,item,inner,finished,hr,rfl,hs⟩ := h.follows plan hp
    obtain ⟨t,ht,hst⟩ := hs.next
    have hnext : r.next ⟨S,item,inner,finished⟩ =
        (ofNext ((P.map item).resultCut (cut u) (u.countP Call.isNext)),
          { r with stream := t.stream, reader := some ⟨S,item,t.inner,t.finished⟩ }) := by
      simp only [PyStreamResponse.next,IterState.syncNext,ht,map_resultCut,Option.map_some,Prod.map]
      rcases P.resultCut (cut u) (u.countP Call.isNext) with e | _ | item <;> rfl
    simp only [PyStreamResponse.answer,hr,useAfter,hp,Option.map_some,hnext,true_and]
    rintro p ⟨⟩
    have hleaves : Call.takes (.use .next) = false ∨ u.any Call.takes = true := .inl rfl
    refine ⟨?_,h.cache,?_,?_,?_⟩
    · rw [partsAt_append]
      exact h.parts_eq
    · rw [statusAfter_leaves rfl hleaves]
      exact h.body_eq
    · simp [planAfter_leaves hleaves,hp]
    · rw [planAfter_leaves hleaves,cut_leaves rfl,hp]
      rintro plan ⟨⟩
      refine ⟨σ,ι,S,L,P,item,t.inner,t.finished,rfl,rfl,?_⟩
      simpa [Call.isNext] using hst

theorem readAll_of_inMemory {bytes : Bytes}
    (h : statusAfter (V := V) rs parts response u = .inMemory bytes) :
    readAll response = .ok bytes := by
  unfold statusAfter at h
  repeat' split at h
  all_goals simp_all

theorem Agrees.cached (h : Agrees rs parts response u r) {bytes : Bytes}
    (hall : readAll response = .ok bytes) : r.contentCache.getD bytes = bytes := by
  cases hc : r.contentCache with
  | none => rfl
  | some cached => simpa [hall] using (h.cache cached hc).symm

theorem buffered_eq (h : Agrees rs parts response u r) (f : Bytes → Result V) :
    (match r.buffered with
      | .ok bytes => f bytes
      | .error e => .raised (.Py e)) = (statusAfter rs parts response u).buffered f := by
  have hbody := h.body_eq
  cases hs : statusAfter (V := V) rs parts response u <;> rw [hs] at hbody <;>
    simp [PyStreamResponse.buffered,hbody,Status.body,Status.buffered]

theorem Agrees.looks (h : Agrees rs parts response u r) {use : Use}
    (ht : Call.takes (.use use) = false) (hn : Call.isNext (.use use) = false)
    (hparts : partsAt r.parts [.use use] = r.parts) :
    Agrees rs parts response (u++[.use use]) r := by
  have hc : Call.closes (.use use) = false := by
    by_contra hc
    simp [Call.takes_of_closes (by simpa using hc)] at ht
  exact h.leaves hc hn (.inl ht) hparts.symm h.cache rfl rfl rfl

/-- `content`, called for itself or by a `read` after the first. -/
theorem content_spec (h : Agrees rs parts response u r) (hc : c.closes = false)
    (hn : c.isNext = false) (hl : c.takes = false ∨ u.any Call.takes = true)
    (hparts : partsAt r.parts [c] = r.parts) :
    r.content.1 = (statusAfter rs parts response u).buffered (fun bytes =>
      .returned (.bytes bytes)) ∧ Agrees rs parts response (u++[c]) r.content.2 := by
  have hbody := h.body_eq
  cases hs : statusAfter (V := V) rs parts response u with
  | inMemory bytes =>
    rw [hs] at hbody
    have hall := readAll_of_inMemory hs
    simp only [PyStreamResponse.content,PyStreamResponse.buffered,hbody,Status.body,h.cached hall]
    exact ⟨rfl,h.leaves hc hn hl hparts.symm (by simpa using hall) hbody.symm rfl rfl⟩
  | live | iterating _ | closed =>
    rw [hs] at hbody
    simp only [PyStreamResponse.content,PyStreamResponse.buffered,hbody,Status.body]
    exact ⟨rfl,h.leaves hc hn hl hparts.symm h.cache rfl rfl rfl⟩

theorem read_spec (h : Agrees rs parts response u r) :
    r.read.1 = (statusAfter rs parts response u).read response ∧
      Agrees rs parts response (u++[.use .read]) r.read.2 := by
  have hbody := h.body_eq
  cases hs : statusAfter (V := V) rs parts response u with
  | live =>
    rw [hs] at hbody
    have hu := statusAfter_eq_live.mp hs
    have hplan : planAfter (V := V) rs parts response (u++[.use .read]) = none :=
      planAfter_take hu rfl
    have hstatus := @statusAfter_taken V rs parts response (u++[.use .read])
      (by simp [not_closes_of_not_takes hu,Call.closes]) (by simp [Call.takes])
    have hparts : r.parts = partsAt parts (u++[.use .read]) := by
      rw [partsAt_append]
      exact h.parts_eq
    have hidle := h.idle (planAfter_live hu)
    rw [hplan] at hstatus
    cases hall : readAll response with
    | ok bytes =>
      simp only [PyStreamResponse.read,PyStreamResponse.content,PyStreamResponse.buffered,hbody,
        Status.body,Status.read,hall,h.cached hall]
      rw [hall] at hstatus
      refine ⟨rfl,hparts,by simpa using hall,?_,?_,by simp [hplan]⟩
      · rw [hstatus]
        rfl
      · simpa [hplan,Call.isNext] using hidle
    | error e =>
      simp only [PyStreamResponse.read,hbody,Status.body,Status.read,hall]
      rw [hall] at hstatus
      refine ⟨rfl,hparts,by simpa [hall] using h.cache,?_,?_,by simp [hplan]⟩
      · rw [hstatus]
        rfl
      · simpa [hplan,Call.isNext] using hidle
  | inMemory bytes =>
    have hread : r.read = r.content := by
      rw [hs] at hbody
      simp [PyStreamResponse.read,hbody,Status.body]
    obtain ⟨hresult,hagrees⟩ := content_spec h (c := .use .read) rfl rfl
      (.inr (taken_of_ne_live hs (by simp))) rfl
    rw [hs] at hresult
    rw [hread]
    exact ⟨hresult,hagrees⟩
  | iterating _ | closed =>
    have htaken : u.any Call.takes = true := taken_of_ne_live hs (by simp)
    rw [hs] at hbody
    simp only [PyStreamResponse.read,hbody,Status.body]
    exact ⟨rfl,h.leaves rfl rfl (.inr htaken) rfl h.cache rfl rfl rfl⟩

theorem plan_of_iterating {plan : Plan (Value V)}
    (h : statusAfter rs parts response u = .iterating plan) :
    planAfter rs parts response u = some plan ∧ cut u = none := by
  have ht := taken_of_ne_live h (by simp)
  cases hc : u.any Call.closes with
  | true => simp [statusAfter_closes hc] at h
  | false =>
    rw [statusAfter_taken hc ht] at h
    refine ⟨?_,by simp [cut,hc]⟩
    cases hp : planAfter (V := V) rs parts response u with
    | some plan' => simpa [hp] using h
    | none =>
      rw [hp] at h
      cases hall : readAll response <;> simp [hall] at h

theorem Agrees.stream_none (h : Agrees rs parts response u r)
    (hs : ∀ plan, statusAfter (V := V) rs parts response u ≠ .iterating plan) :
    r.stream.stream = none := by
  cases hp : planAfter (V := V) rs parts response u with
  | none => exact (h.idle hp).2.1
  | some plan =>
    obtain ⟨σ,ι,S,L,P,item,inner,finished,_,_,hstage⟩ := h.follows plan hp
    cases hc : u.any Call.closes with
    | true =>
      have hsome := hstage.stream_isSome
      simpa [cut,hc] using hsome
    | false =>
      have ht : u.any Call.takes = true := by
        by_contra ht
        rw [planAfter_live (by simpa using ht)] at hp
        simp at hp
      exact absurd (by rw [statusAfter_taken hc ht,hp]) (hs plan)

theorem Agrees.stream_iterating (h : Agrees rs parts response u r) {plan : Plan (Value V)}
    (hs : statusAfter rs parts response u = .iterating plan) :
    r.stream.isClosed = decide (plan.Over (u.countP Call.isNext)) ∧
      r.stream.stream.isSome = !decide (plan.Over (u.countP Call.isNext)) := by
  obtain ⟨hp,hcut⟩ := plan_of_iterating hs
  obtain ⟨σ,ι,S,L,P,item,inner,finished,_,rfl,hstage⟩ := h.follows plan hp
  have hover : ∀ y, (P.map item).Over y ↔ P.Over y := by simp [Plan.Over,Plan.map]
  rw [hcut] at hstage
  have hclosed := hstage.isClosed
  have hsome := hstage.stream_isSome
  constructor
  · rw [Bool.eq_iff_iff]
    simpa [hover] using hclosed
  · rw [Bool.eq_iff_iff]
    simpa [hover] using hsome

theorem isClosed_eq (h : Agrees rs parts response u r) : r.isClosed =
    (statusAfter (V := V) rs parts response u).isClosed (u.countP Call.isNext) := by
  have hbody := h.body_eq
  cases hs : statusAfter (V := V) rs parts response u with
  | iterating plan =>
    rw [hs] at hbody
    simpa [PyStreamResponse.isClosed,hbody,Status.body,Status.isClosed] using
      (h.stream_iterating hs).1
  | live | inMemory _ | closed =>
    rw [hs] at hbody
    simp [PyStreamResponse.isClosed,hbody,Status.body,Status.isClosed]

theorem connected_eq (h : Agrees rs parts response u r) : r.connected =
    (statusAfter (V := V) rs parts response u).connected (u.countP Call.isNext) := by
  have hbody := h.body_eq
  cases hs : statusAfter (V := V) rs parts response u with
  | live =>
    rw [hs] at hbody
    simp [PyStreamResponse.connected,hbody,Status.body,Status.connected]
  | iterating plan =>
    rw [hs] at hbody
    simpa [PyStreamResponse.connected,hbody,Status.body,Status.connected] using
      (h.stream_iterating hs).2
  | inMemory _ | closed =>
    have hnone := h.stream_none (by simp [hs])
    rw [hs] at hbody
    simp [PyStreamResponse.connected,hbody,Status.body,Status.connected,hnone]

theorem isConsumed_eq (h : Agrees rs parts response u r) :
    r.isConsumed = (statusAfter (V := V) rs parts response u).isConsumed := by
  have hbody := h.body_eq
  cases hs : statusAfter (V := V) rs parts response u <;> rw [hs] at hbody <;>
    simp [PyStreamResponse.isConsumed,hbody,Status.body,Status.isConsumed]

theorem answer_spec (parse : Bytes → Except PyRqxError V) (h : Agrees rs parts response u r)
    (use : Use) :
    (r.answer rs parse use).map Prod.fst = useAfter rs parse parts response u use ∧
      ∀ p ∈ r.answer rs parse use, Agrees rs parts response (u++[.use use]) p.2 := by
  cases use with
  | close =>
    refine ⟨rfl,?_⟩
    rintro p ⟨⟩
    exact h.close rfl
  | iterBytes chunkSize =>
    by_cases hz : chunkSize = some 0
    · subst hz
      refine ⟨rfl,?_⟩
      rintro p ⟨⟩
      exact h.looks rfl rfl rfl
    · obtain ⟨hresult,hagrees⟩ := iterate_spec h (c := .use (.iterBytes chunkSize))
        (by simp [Call.takes,hz]) rfl rfl rfl (PyByteIterator.laws chunkSize) .bytes
        (.new chunkSize) ⟨ByteChunker.inv_new hz,rfl⟩ rfl
      simp only [PyStreamResponse.answer,PyStreamResponse.iterBytes,checkedChunkSize,useAfter,
        if_neg hz,hresult,Option.map_some,true_and]
      rintro p ⟨⟩
      exact hagrees
  | iterText chunkSize =>
    by_cases hz : chunkSize = some 0
    · subst hz
      refine ⟨rfl,?_⟩
      rintro p ⟨⟩
      exact h.looks rfl rfl rfl
    · obtain ⟨hresult,hagrees⟩ := iterate_spec h (c := .use (.iterText chunkSize))
        (by simp [Call.takes,hz]) rfl rfl rfl
        (PyTextIterator.laws (r.parts.resolvedEncoding rs) chunkSize) .str
        ⟨.new _,.new chunkSize⟩ ⟨TextChunker.inv_new hz,rfl⟩ rfl
      simp only [PyStreamResponse.answer,PyStreamResponse.iterText,checkedChunkSize,useAfter,
        if_neg hz,hresult,Option.map_some,true_and]
      rintro p ⟨⟩
      exact hagrees
  | iterLines =>
    obtain ⟨hresult,hagrees⟩ := iterate_spec h (c := .use .iterLines) rfl rfl rfl rfl
      (PyLineIterator.laws (r.parts.resolvedEncoding rs)) .str ⟨.new _,.new,[]⟩
      LineDecoder.inv_new rfl
    simp only [PyStreamResponse.answer,PyStreamResponse.iterLines,useAfter,hresult,
      Option.map_some,true_and]
    rintro p ⟨⟩
    exact hagrees
  | next => exact next_spec h
  | read =>
    obtain ⟨hresult,hagrees⟩ := read_spec h
    simp only [PyStreamResponse.answer,useAfter,hresult,Option.map_some,true_and]
    rintro p ⟨⟩
    exact hagrees
  | content =>
    obtain ⟨hresult,hagrees⟩ := content_spec h (c := .use .content) rfl rfl (.inl rfl) rfl
    simp only [PyStreamResponse.answer,useAfter,hresult,Option.map_some,true_and]
    rintro p ⟨⟩
    exact hagrees
  | text =>
    refine ⟨?_,?_⟩
    · simp only [PyStreamResponse.answer,useAfter,Option.map_some,← h.parts_eq]
      exact congrArg some (buffered_eq h _)
    · rintro p ⟨⟩
      exact h.looks rfl rfl rfl
  | json =>
    refine ⟨congrArg some (buffered_eq h _),?_⟩
    rintro p ⟨⟩
    exact h.looks rfl rfl rfl
  | isClosed =>
    refine ⟨by simp only [PyStreamResponse.answer,useAfter,isClosed_eq h,Option.map_some],?_⟩
    rintro p ⟨⟩
    exact h.looks rfl rfl rfl
  | isConsumed =>
    refine ⟨by simp only [PyStreamResponse.answer,useAfter,isConsumed_eq h,Option.map_some],?_⟩
    rintro p ⟨⟩
    exact h.looks rfl rfl rfl
  | encoding =>
    refine ⟨by simp only [PyStreamResponse.answer,useAfter,h.parts_eq,Option.map_some],?_⟩
    rintro p ⟨⟩
    exact h.looks rfl rfl rfl
  | setEncoding value =>
    refine ⟨rfl,?_⟩
    rintro p ⟨⟩
    exact h.leaves rfl rfl (.inl rfl) rfl h.cache rfl rfl rfl

end Agrees

/-! ## The context keeps to its history -/

section Context

variable {V : Type} (rs : Encodings) (parse : Bytes → Except PyRqxError V)

/-- What a call gives back after the calls `h`, if it can be made. -/
def resultAfter (h : List Call) : Call → Option (Result V)
  | .enter outcome => some (
    match entered h,outcome with
    | some _,_ => .raised (.Core (.StreamError
      "stream already started; call stream() again for a new request"))
    | none,.error e => .raised (.Core e)
    | none,.ok _ => .returned .response)
  | .exit => some (.returned .None)
  | .use use =>
    match entered h with
    | some (.ok (parts,response),u) => useAfter rs parse parts response u use
    | some (.error _,_) | none => none

/-- The connection is held after the calls `h`. -/
def connectedAfter (V : Type) (h : List Call) : Bool :=
  match entered h with
  | some (.ok (parts,response),u) =>
    (statusAfter (V := V) rs parts response u).connected (u.countP Call.isNext)
  | some (.error _,_) | none => false

def PyStreamContext.connected (s : PyStreamContext V) : Bool :=
  s.opened.any PyStreamResponse.connected

variable {rs parse}

/-- What the context and the response are after the calls `h`. -/
def Keeps (rs : Encodings) (h : List Call) (s : PyStreamContext V) : Prop :=
  match entered h with
  | none => s = .new
  | some (.error _,_) => s = ⟨false,false,none⟩
  | some (.ok (parts,response),u) => s.unsent = false ∧
    (s.response = false → u.any Call.closes = true) ∧
    ∃ r, s.opened = some r ∧ Agrees rs parts response u r

theorem entered_append {h : List Call} {outcome : Except RqxCoreError (ResponseParts × ChunkStream)}
    {u : List Call} (he : entered h = some (outcome,u)) (c : Call) :
    entered (h++[c]) = some (outcome,u++[c]) := by
  induction h with
  | nil => simp [entered] at he
  | cons d h ih =>
    cases d with
    | enter first =>
      obtain ⟨rfl,rfl⟩ : first = outcome ∧ h = u := by simpa [entered] using he
      rfl
    | exit => exact ih he
    | use use => exact ih he

theorem entered_none {h : List Call} (he : entered h = none) (c : Call) :
    entered (h++[c]) = match c with
      | .enter outcome => some (outcome,[])
      | .exit | .use _ => none := by
  induction h with
  | nil => cases c <;> rfl
  | cons d h ih =>
    cases d with
    | enter first => simp [entered] at he
    | exit => exact ih he
    | use use => exact ih he

theorem close_of_closes {parts : ResponseParts} {response : ChunkStream} {u : List Call}
    {r : PyStreamResponse V} (h : Agrees rs parts response u r) (hu : u.any Call.closes = true) :
    r.close = r := by
  have hbody : r.body = none := by rw [h.body_eq,statusAfter_closes hu]; rfl
  rw [close_eq,if_neg (by simp [hbody])]
  simp [← hbody]

theorem enter_keeps (parse : Bytes → Except PyRqxError V) {h : List Call} {s : PyStreamContext V}
    (hk : Keeps rs h s) (outcome : Except RqxCoreError (ResponseParts × ChunkStream)) :
    some (s.enter outcome).1 = resultAfter rs parse h (.enter outcome) ∧
      Keeps rs (h++[.enter outcome]) (s.enter outcome).2 := by
  rcases he : entered h with _ | ⟨e | ⟨parts,response⟩,u⟩
  · simp only [Keeps,he] at hk
    subst hk
    rcases outcome with e | ⟨parts,response⟩
    · exact ⟨by simp [resultAfter,he,PyStreamContext.enter,PyStreamContext.takeUnsent,
        PyStreamContext.new],by simp [Keeps,entered_none he,PyStreamContext.enter,
        PyStreamContext.takeUnsent,PyStreamContext.new]⟩
    · refine ⟨by simp [resultAfter,he,PyStreamContext.enter,PyStreamContext.takeUnsent,
        PyStreamContext.new],?_⟩
      simp only [Keeps,entered_none he]
      exact ⟨rfl,by simp [PyStreamContext.enter,PyStreamContext.takeUnsent,PyStreamContext.new],
        _,rfl,agrees_fromPending⟩
  · simp only [Keeps,he] at hk
    subst hk
    refine ⟨by simp [resultAfter,he,PyStreamContext.enter,PyStreamContext.takeUnsent],?_⟩
    simp [Keeps,entered_append he,PyStreamContext.enter,PyStreamContext.takeUnsent]
  · simp only [Keeps,he] at hk
    obtain ⟨hunsent,hclosed,r,hr,hagrees⟩ := hk
    have hs : s.enter outcome = (.raised (.Core (.StreamError
        "stream already started; call stream() again for a new request")),s) := by
      simp [PyStreamContext.enter,PyStreamContext.takeUnsent,hunsent]
    rw [hs]
    refine ⟨by simp [resultAfter,he],?_⟩
    simp only [Keeps,entered_append he]
    refine ⟨hunsent,fun hn => by simp [hclosed hn],r,hr,?_⟩
    exact hagrees.leaves rfl rfl (.inl rfl) rfl hagrees.cache rfl rfl rfl

theorem exit_keeps {h : List Call} {s : PyStreamContext V} (hk : Keeps rs h s) :
    Keeps rs (h++[.exit]) s.exit := by
  rcases he : entered h with _ | ⟨e | ⟨parts,response⟩,u⟩
  · simp only [Keeps,he] at hk
    subst hk
    simp [Keeps,entered_none he,PyStreamContext.exit,PyStreamContext.new]
  · simp only [Keeps,he] at hk
    subst hk
    simp [Keeps,entered_append he,PyStreamContext.exit]
  · simp only [Keeps,he] at hk
    obtain ⟨hunsent,hclosed,r,hr,hagrees⟩ := hk
    simp only [Keeps,entered_append he]
    have hany : (u++[Call.exit]).any Call.closes = true := by simp [Call.closes]
    have hclose : Agrees rs parts response (u++[.exit]) r.close := hagrees.close rfl
    cases hctx : s.response with
    | true =>
      refine ⟨by simp [PyStreamContext.exit,hctx,hunsent],fun _ => hany,r.close,?_,hclose⟩
      simp [PyStreamContext.exit,hctx,hr]
    | false =>
      refine ⟨by simp [PyStreamContext.exit,hctx,hunsent],fun _ => hany,r,?_,?_⟩
      · simp [PyStreamContext.exit,hctx,hr]
      · rwa [close_of_closes hagrees (hclosed hctx)] at hclose

theorem use_keeps {h : List Call} {s : PyStreamContext V} (hk : Keeps rs h s) (use : Use) :
    (s.step rs parse (.use use)).map Prod.fst = resultAfter rs parse h (.use use) ∧
      ∀ p ∈ s.step rs parse (.use use), Keeps rs (h++[.use use]) p.2 := by
  rcases he : entered h with _ | ⟨e | ⟨parts,response⟩,u⟩
  · simp only [Keeps,he] at hk
    subst hk
    simp [resultAfter,he,PyStreamContext.step,PyStreamContext.new]
  · simp only [Keeps,he] at hk
    subst hk
    simp [resultAfter,he,PyStreamContext.step]
  · simp only [Keeps,he] at hk
    obtain ⟨hunsent,hclosed,r,hr,hagrees⟩ := hk
    obtain ⟨hresult,hkeeps⟩ := answer_spec parse hagrees use
    simp only [resultAfter,he,← hresult,PyStreamContext.step,hr,Option.bind_some,Option.map_map]
    refine ⟨rfl,?_⟩
    intro p hp
    obtain ⟨q,hq,rfl⟩ := Option.map_eq_some_iff.mp hp
    simp only [Keeps,entered_append he]
    exact ⟨hunsent,fun hn => by simp [hclosed hn],q.2,rfl,hkeeps q hq⟩

theorem step_keeps (parse : Bytes → Except PyRqxError V) {h : List Call} {s : PyStreamContext V}
    (hk : Keeps rs h s) (c : Call) :
    (s.step rs parse c).map Prod.fst = resultAfter rs parse h c ∧
      ∀ p ∈ s.step rs parse c, Keeps rs (h++[c]) p.2 := by
  cases c with
  | enter outcome =>
    obtain ⟨hresult,hkeeps⟩ := enter_keeps parse hk outcome
    refine ⟨hresult,?_⟩
    rintro p ⟨⟩
    exact hkeeps
  | exit =>
    refine ⟨rfl,?_⟩
    rintro p ⟨⟩
    exact exit_keeps hk
  | use use => exact use_keeps hk use

theorem run_keeps {g h : List Call} {s t : PyStreamContext V} (hk : Keeps rs g s)
    (hr : Runs.run (fun s c => (PyStreamContext.step rs parse s c).map Prod.snd) s h = some t) :
    Keeps rs (g++h) t := by
  induction h generalizing g s with
  | nil =>
    obtain rfl : s = t := by simpa using hr
    simpa using hk
  | cons c h ih =>
    obtain ⟨m,hm,hr⟩ := Runs.run_cons_some hr
    obtain ⟨p,hp,rfl⟩ := Option.map_eq_some_iff.mp hm
    have := ih ((step_keeps parse hk c).2 p hp) hr
    simpa using this

theorem Keeps.connected {h : List Call} {s : PyStreamContext V} (hk : Keeps rs h s) :
    s.connected = connectedAfter rs V h := by
  rcases he : entered h with _ | ⟨e | ⟨parts,response⟩,u⟩
  · simp only [Keeps,he] at hk
    simp [connectedAfter,he,hk,PyStreamContext.connected,PyStreamContext.new]
  · simp only [Keeps,he] at hk
    simp [connectedAfter,he,hk,PyStreamContext.connected]
  · simp only [Keeps,he] at hk
    obtain ⟨_,_,r,hr,hagrees⟩ := hk
    simp [connectedAfter,he,PyStreamContext.connected,hr,connected_eq hagrees]

/-- Two pieces complete without the end of the body being known, so a close after them cuts
the iterator off; a third call learns of the end and the close comes too late. -/
example :
    let parts : ResponseParts := ⟨200,⟨[]⟩,[],0,[],none⟩
    let pieces : List Call := [.enter (.ok (parts,[.ok [1,2],.ok [3,4]])),
      .use (.iterBytes (some 2)),.use .next,.use .next]
    let after := fun h => resultAfter (V := Unit) asciiEncodings (fun _ => .ok ()) h (.use .next)
    after pieces = some .stopped ∧
      after (pieces++[.exit]) = some (.raised (.Core (.StreamClosed "response closed"))) ∧
      after (pieces++[.use .next,.exit]) = some .stopped := ⟨rfl,rfl,rfl⟩

end Context
end SyncStream
end Rqx
