import Rqx.Chunking
import Rqx.Response
import Rqx.IterState

/-! The byte, text and line iterators: what each keeps beside the stream, the laws it keeps
to, and what a whole run of its calls gives out. -/
namespace Rqx

/-! ## Bytes -/

abbrev PyByteIterator := IterState ByteChunker
abbrev PyAsyncByteIterator := PyByteIterator

namespace PyByteIterator

def new (chunkSize : Option ℕ) (response : ChunkStream) : PyByteIterator :=
  ⟨.new response,.new chunkSize,false⟩

def source : Source ByteChunker Bytes where
  ready := ByteChunker.nextFull
  feed := fun bytes chunker => chunker.feed bytes
  finish := some
  flush := fun chunker => some chunker.flush

/-- `__next__`. -/
def next (s : PyByteIterator) : Option (Except PyRqxError (Option Bytes) × PyByteIterator) :=
  s.syncNext source

def laws (size : Option ℕ) : Laws source where
  Inv := fun c => c.Inv ∧ c.size = size
  Drained := ByteChunker.Drained
  early := fun c chunks => Regroup.completed size c.buffer chunks
  all := fun c chunks => Regroup.regrouped size c.buffer chunks
  left := fun c => Regroup.regrouped size c.buffer []
  ready_spec := by
    rintro c ⟨hi,rfl⟩
    obtain ⟨o,d,hn,hd,hs,ht,hdr⟩ := ByteChunker.nextFull_spec hi
    exact ⟨o,d,hn,⟨hd,hs⟩,ht.completed,ht.regrouped,ht.regrouped [],hdr⟩
  drained_early := by
    rintro c ⟨_,rfl⟩ hd
    exact Regroup.completed_drained hd.buffer
  feed_spec := by
    rintro c bytes ⟨hi,rfl⟩ hd
    obtain ⟨d,hf,hdi,hs,hb⟩ := ByteChunker.feed_spec hi hd bytes
    refine ⟨d,hf,⟨hdi,hs⟩,fun chunks => ?_,fun chunks => ?_⟩
    · rw [hb,Regroup.completed_feed hd.buffer]
    · rw [hb,Regroup.regrouped_feed hd.buffer]
  finish_spec := fun c hi _ => ⟨c,rfl,hi,rfl⟩
  flush_spec := by
    rintro c ⟨hi,rfl⟩ hd
    obtain ⟨hdi,hs,hb,hl⟩ := ByteChunker.flush_spec hi
    refine ⟨c.flush.1,c.flush.2,rfl,⟨hdi,hs⟩,?_,?_⟩
    · rw [Regroup.regrouped_drained hd.buffer,hl]
    · rw [hb,Regroup.regrouped_nil]

end PyByteIterator

/-- `__anext__`. -/
def PyAsyncByteIterator.anext (s : PyAsyncByteIterator) :
    Option (Except PyRqxError Bytes × PyAsyncByteIterator) :=
  s.asyncNext PyByteIterator.source

/-! ## Text -/

structure TextState (E : Encoding) where
  decoder : TextDecoder E
  chunker : TextChunker

abbrev PyTextIterator (E : Encoding) := IterState (TextState E)
abbrev PyAsyncTextIterator (E : Encoding) := PyTextIterator E

namespace PyTextIterator

variable {E : Encoding}

def new (E : Encoding) (chunkSize : Option ℕ) (response : ChunkStream) : PyTextIterator E :=
  ⟨.new response,⟨.new E,.new chunkSize⟩,false⟩

/-- Decode the bytes and feed the text. -/
def decodeAndFeed (s : TextState E) (src : Bytes) (last : Bool) : Option (TextState E) := do
  let (text,decoder) := s.decoder.decode src last
  let chunker ← s.chunker.feed text
  return ⟨decoder,chunker⟩

def source (E : Encoding) : Source (TextState E) Text where
  ready := fun s => s.chunker.nextFull.map fun (piece,chunker) => (piece,{ s with chunker })
  feed := fun src s => decodeAndFeed s src false
  -- End of stream: flush any character the decoder still holds.
  finish := fun s => decodeAndFeed s [] true
  flush := fun s => s.chunker.flush.map fun (piece,chunker) => (piece,{ s with chunker })

/-- `__next__`. -/
def next (s : PyTextIterator E) : Option (Except PyRqxError (Option Text) × PyTextIterator E) :=
  s.syncNext (source E)

theorem decodeAndFeed_spec {s : TextState E} (hi : s.chunker.Inv) (src : Bytes) (last : Bool) :
    ∃ t, decodeAndFeed s src last = some t ∧ t.chunker.Inv ∧
      t.decoder = (s.decoder.decode src last).2 ∧ t.chunker.size = s.chunker.size ∧
      t.chunker.buffer = s.chunker.buffer++(s.decoder.decode src last).1 := by
  obtain ⟨c,hf,hc,hs,hb⟩ := TextChunker.feed_spec hi (s.decoder.decode src last).1
  exact ⟨⟨(s.decoder.decode src last).2,c⟩,by simp [decodeAndFeed,hf],hc,rfl,hs,hb⟩

def laws (E : Encoding) (size : Option ℕ) : Laws (source E) where
  Inv := fun s => s.chunker.Inv ∧ s.chunker.size = size
  Drained := fun s => Regroup.Drained size s.chunker.buffer
  early := fun s chunks => Regroup.completed size s.chunker.buffer
    (Encoding.decodeChunks s.decoder chunks).1
  all := fun s chunks => Regroup.regrouped size s.chunker.buffer
    (Encoding.streamTexts s.decoder chunks)
  left := fun s => Regroup.regrouped size s.chunker.buffer []
  ready_spec := by
    rintro s ⟨hi,rfl⟩
    obtain ⟨o,c,hn,hc,hs,ht⟩ := TextChunker.nextFull_spec hi
    refine ⟨o,⟨s.decoder,c⟩,by simp [source,hn],⟨hc,hs⟩,fun _ => ht.completed _,
      fun _ => ht.regrouped _,ht.regrouped [],?_⟩
    rintro rfl
    simpa only [← ht.1] using ht.2
  drained_early := fun s _ hd => Regroup.completed_drained hd
  feed_spec := by
    rintro s src ⟨hi,rfl⟩ hd
    obtain ⟨t,hf,ht,hde,hs,hb⟩ := decodeAndFeed_spec hi src false
    refine ⟨t,hf,⟨ht,hs⟩,fun chunks => ?_,fun chunks => ?_⟩
    · rw [Encoding.decodeChunks_cons,Regroup.completed_feed hd,hde,hb]
    · rw [Encoding.streamTexts_cons,Regroup.regrouped_feed hd,hde,hb]
  finish_spec := by
    rintro s ⟨hi,rfl⟩ hd
    obtain ⟨t,hf,ht,hde,hs,hb⟩ := decodeAndFeed_spec hi [] true
    refine ⟨t,hf,⟨ht,hs⟩,?_⟩
    rw [Encoding.streamTexts_nil,Regroup.regrouped_feed hd,hb]
    rfl
  flush_spec := by
    rintro s ⟨hi,rfl⟩ hd
    obtain ⟨o,c,hf,hc,hs,hb,hl⟩ := TextChunker.flush_spec hi
    refine ⟨o,⟨s.decoder,c⟩,by simp [source,hf],⟨hc,hs⟩,?_,?_⟩
    · rw [Regroup.regrouped_drained hd,hl]
    · rw [hb,Regroup.regrouped_nil]

end PyTextIterator

/-- `__anext__`. -/
def PyAsyncTextIterator.anext {E : Encoding} (s : PyAsyncTextIterator E) :
    Option (Except PyRqxError Text × PyAsyncTextIterator E) :=
  s.asyncNext (PyTextIterator.source E)

/-! ## Lines -/

structure LineState (E : Encoding) where
  decoder : TextDecoder E
  lines : LineDecoder
  /-- Complete lines decoded from a chunk and not yet given out. -/
  pending : List Text

abbrev PyLineIterator (E : Encoding) := IterState (LineState E)
abbrev PyAsyncLineIterator (E : Encoding) := PyLineIterator E

namespace PyLineIterator

open Splitlines

variable {E : Encoding}

def new (E : Encoding) (response : ChunkStream) : PyLineIterator E :=
  ⟨.new response,⟨.new E,.new,[]⟩,false⟩

/-- Decode the bytes, feed the text and queue the lines. -/
def decodeAndFeed (s : LineState E) (src : Bytes) (last : Bool) : Option (LineState E) := do
  let (text,decoder) := s.decoder.decode src last
  let (complete,lines) ← s.lines.feed text
  return ⟨decoder,lines,s.pending++complete⟩

def source (E : Encoding) : Source (LineState E) Text where
  ready := fun s =>
    match s.pending with
    | [] => some (none,s)
    | line::pending => some (some line,{ s with pending })
  feed := fun src s => decodeAndFeed s src false
  -- Flush the byte decoder, feed any final text, then flush the line buffer.
  finish := fun s => do
    let s ← decodeAndFeed s [] true
    let (last,lines) := s.lines.flush
    return { s with lines, pending := s.pending++last.toList }
  flush := fun s => some (none,s)

/-- `__next__`. -/
def next (s : PyLineIterator E) : Option (Except PyRqxError (Option Text) × PyLineIterator E) :=
  s.syncNext (source E)

theorem decodeAndFeed_spec {s : LineState E} (hi : s.lines.Inv) (src : Bytes) (last : Bool) :
    ∃ t, decodeAndFeed s src last = some t ∧ t.lines.Inv ∧
      t.decoder = (s.decoder.decode src last).2 ∧
      t.pending = s.pending++
        terminated (settled (s.lines.pending++(s.decoder.decode src last).1)) ∧
      t.lines.pending = remainder (s.lines.pending++(s.decoder.decode src last).1) := by
  obtain ⟨d,hf,hd,hp⟩ := LineDecoder.feed_spec hi (s.decoder.decode src last).1
  exact ⟨⟨(s.decoder.decode src last).2,d,_⟩,by simp [decodeAndFeed,hf],hd,rfl,rfl,hp⟩

def laws (E : Encoding) : Laws (source E) where
  Inv := fun s => s.lines.Inv
  Drained := fun s => s.pending = []
  early := fun s chunks => s.pending++
    terminated (settled (s.lines.pending++(Encoding.decodeChunks s.decoder chunks).1.flatten))
  all := fun s chunks => s.pending++
    splitlines (s.lines.pending++(Encoding.streamTexts s.decoder chunks).flatten)
  left := fun s => s.pending
  ready_spec := by
    rintro ⟨decoder,lines,_ | ⟨line,pending⟩⟩ hi
    · exact ⟨none,_,rfl,hi,fun _ => rfl,fun _ => rfl,rfl,fun _ => rfl⟩
    · exact ⟨some line,_,rfl,hi,fun _ => rfl,fun _ => rfl,rfl,by simp⟩
  drained_early := by
    intro s (hi : s.lines.Inv) (hd : s.pending = [])
    simp [hd,hi.terminated]
  feed_spec := by
    intro s src hi (hd : s.pending = [])
    obtain ⟨t,hf,ht,hde,hp,hl⟩ := decodeAndFeed_spec hi src false
    refine ⟨t,hf,ht,fun chunks => ?_,fun chunks => ?_⟩
    · rw [Encoding.decodeChunks_cons,List.flatten_cons,← List.append_assoc,terminated_grow,hp,hl,
        hde,hd,List.nil_append,List.nil_append]
    · rw [Encoding.streamTexts_cons,List.flatten_cons,← List.append_assoc,splitlines_grow,hp,hl,
        hde,hd,List.nil_append,List.nil_append]
  finish_spec := by
    intro s hi (hd : s.pending = [])
    obtain ⟨t,hf,ht,hde,hp,hl⟩ := decodeAndFeed_spec hi [] true
    refine ⟨{ t with lines := t.lines.flush.2, pending := t.pending++t.lines.flush.1.toList },
      by simp [source,hf],t.lines.flush_inv ht,?_⟩
    have hg := splitlines_grow (s.lines.pending++(s.decoder.decode [] true).1) []
    rw [LineDecoder.flush_spec ht,hp,hl,hd]
    simpa [Encoding.lastText] using hg
  flush_spec := fun s hi (hd : s.pending = []) => ⟨none,s,rfl,hi,hd,hd⟩

end PyLineIterator

/-- `__anext__`. -/
def PyAsyncLineIterator.anext {E : Encoding} (s : PyAsyncLineIterator E) :
    Option (Except PyRqxError Text × PyAsyncLineIterator E) :=
  s.asyncNext (PyLineIterator.source E)

end Rqx
