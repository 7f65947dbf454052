import Rqx.Error

/-! The body while an iterator reads it, as one caller at a time sees it. The
interleavings of a read with a close are in `Rqx.CloseRace`. -/
namespace Rqx

abbrev Bytes := List UInt8

/-- What the network will deliver: chunks, then the end, or a failed read. -/
abbrev ChunkStream := List (Except ReqwestError Bytes)

structure LiveStream where
  stream : Option ChunkStream
  closed : Bool
  deriving DecidableEq

namespace LiveStream

def new (response : ChunkStream) : LiveStream := ⟨some response,false⟩

def responseClosed : RqxCoreError := .StreamClosed "response closed"

/-- Raise if the response was closed under the iterator. -/
def checkOpen (s : LiveStream) : Except RqxCoreError Unit :=
  if s.closed then .error responseClosed else .ok ()

/-- The next chunk, `none` at the end. A failed read drops the stream. -/
def nextChunk (s : LiveStream) : Except RqxCoreError (Option Bytes) × LiveStream :=
  match s.checkOpen with
  | .error e => (.error e,s)
  | .ok () =>
    match s.stream with
    | none => (.error responseClosed,s)
    | some (.ok bytes :: rest) => (.ok (some bytes),{ s with stream := some rest })
    | some (.error e :: _) => (.error (.fromReqwest e),{ s with stream := none })
    | some [] => (.ok none,{ s with stream := none })

/-- `close` and `close_blocking`, run to the end. -/
def close (_ : LiveStream) : LiveStream := ⟨none,true⟩

/-- Closed, or read to the end. -/
def isClosed (s : LiveStream) : Bool := s.closed || s.stream.isNone

/-- How many requests the stream still answers, the end of the stream being one of
them: the measure of the iterator loops. -/
def remaining (s : LiveStream) : ℕ :=
  match s.stream with
  | some script => script.length+1
  | none => 0

@[simp] theorem remaining_some (script : ChunkStream) (closed : Bool) :
    remaining ⟨some script,closed⟩ = script.length+1 := rfl
@[simp] theorem remaining_none (closed : Bool) : remaining ⟨none,closed⟩ = 0 := rfl

@[simp] theorem checkOpen_open (stream : Option ChunkStream) :
    checkOpen ⟨stream,false⟩ = .ok () := rfl
@[simp] theorem checkOpen_closed (stream : Option ChunkStream) :
    checkOpen ⟨stream,true⟩ = .error responseClosed := rfl

@[simp] theorem nextChunk_ok (bytes : Bytes) (rest : ChunkStream) :
    nextChunk ⟨some (.ok bytes::rest),false⟩ = (.ok (some bytes),⟨some rest,false⟩) := rfl
@[simp] theorem nextChunk_error (e : ReqwestError) (rest : ChunkStream) :
    nextChunk ⟨some (.error e::rest),false⟩ = (.error (.fromReqwest e),⟨none,false⟩) := rfl
@[simp] theorem nextChunk_end : nextChunk ⟨some [],false⟩ = (.ok none,⟨none,false⟩) := rfl

/-- Once the slot is empty every read is refused and changes nothing. -/
theorem nextChunk_none {s : LiveStream} (h : s.stream = none) :
    s.nextChunk = (.error responseClosed,s) := by
  rcases s with ⟨stream,closed⟩
  obtain rfl : stream = none := h
  cases closed <;> rfl

theorem nextChunk_remaining {s t : LiveStream} {answer : Option Bytes}
    (h : s.nextChunk = (.ok answer,t)) : t.remaining < s.remaining := by
  rcases s with ⟨stream,closed⟩
  cases closed with
  | true => simp [nextChunk] at h
  | false =>
    rcases stream with _ | _ | ⟨_ | _,rest⟩
    all_goals simp [nextChunk] at h
    all_goals obtain ⟨_,rfl⟩ := h
    all_goals simp

end LiveStream
end Rqx
