import Rqx.Chunking
import Rqx.Splitlines

/-! The streaming text decoder, as far as `encoding_rs` promises it, and `LineDecoder`. -/
namespace Rqx

/-- An encoding of `encoding_rs`: its one-shot and its streaming decoder. -/
structure Encoding where
  Decoder : Type
  newDecoder : Decoder
  /-- `Decoder::decode_to_string` with the worst-case capacity reserved: the last
  argument flushes a partial character. -/
  decodeToString : Decoder → Bytes → Bool → Text × Decoder
  /-- `Encoding::decode`. -/
  decode : Bytes → Text

/-- A streaming text decoder. -/
abbrev TextDecoder (E : Encoding) := E.Decoder

def TextDecoder.new (E : Encoding) : TextDecoder E := E.newDecoder

/-- Decode one chunk; `last` flushes any partial character at the end of the stream. -/
def TextDecoder.decode {E : Encoding} (d : TextDecoder E) (src : Bytes) (last : Bool) :
    Text × TextDecoder E := E.decodeToString d src last

namespace Encoding

variable {E : Encoding}

/-- The text of each chunk, and the decoder afterwards. -/
def decodeChunks (d : TextDecoder E) : List Bytes → List Text × TextDecoder E
  | [] => ([],d)
  | src::chunks =>
    let (text,d) := d.decode src false
    let (texts,d) := decodeChunks d chunks
    (text::texts,d)

/-- What the decoder still holds once the stream has ended. -/
def lastText (d : TextDecoder E) : Text := (d.decode [] true).1

/-- The texts of a whole stream, chunk by chunk and then the flush. -/
def streamTexts (d : TextDecoder E) (chunks : List Bytes) : List Text :=
  (decodeChunks d chunks).1++[lastText (decodeChunks d chunks).2]

/-- Decoding chunk by chunk and flushing gives the text of the one-shot decode. -/
def Streams (E : Encoding) : Prop :=
  ∀ chunks, (streamTexts (TextDecoder.new E) chunks).flatten = E.decode chunks.flatten

@[simp] theorem decodeChunks_nil (d : TextDecoder E) : decodeChunks d [] = ([],d) := rfl
@[simp] theorem decodeChunks_cons (d : TextDecoder E) (src : Bytes) (chunks : List Bytes) :
    decodeChunks d (src::chunks) =
      ((d.decode src false).1::(decodeChunks (d.decode src false).2 chunks).1,
        (decodeChunks (d.decode src false).2 chunks).2) := rfl
@[simp] theorem streamTexts_nil (d : TextDecoder E) : streamTexts d [] = [lastText d] := rfl
@[simp] theorem streamTexts_cons (d : TextDecoder E) (src : Bytes) (chunks : List Bytes) :
    streamTexts d (src::chunks) =
      (d.decode src false).1::streamTexts (d.decode src false).2 chunks := rfl

/-- A single-byte encoding decodes byte by byte through its table and holds nothing back. -/
def singleByte (table : UInt8 → Char) : Encoding where
  Decoder := Unit
  newDecoder := ()
  decodeToString := fun d src _ => (src.map table,d)
  decode := fun bytes => bytes.map table

theorem singleByte_streams (table : UInt8 → Char) : (singleByte table).Streams := by
  intro chunks
  have hd : ∀ d : TextDecoder (singleByte table),
      (streamTexts d chunks).flatten = chunks.flatten.map table := by
    induction chunks with
    | nil => intro d; rfl
    | cons src chunks ih =>
      intro d
      rw [streamTexts_cons,List.flatten_cons,ih,List.flatten_cons,List.map_append]
      rfl
  exact hd _

end Encoding

/-- Splits a stream of decoded text into lines, reassembling lines that span chunks. -/
structure LineDecoder where
  /-- The partial trailing line carried across `feed` calls. -/
  buffer : Text
  /-- A trailing `\r` deferred to the next `feed`. -/
  trailingCr : Bool
  deriving DecidableEq

namespace LineDecoder

open Splitlines

def new : LineDecoder := ⟨[],false⟩

def isLineBreak (c : Char) : Bool :=
  c = '\n' || c = '\r' || c = '\x0b' || c = '\x0c' || c = '\x1c' || c = '\x1d' || c = '\x1e' ||
    c = '\u0085' || c = '\u2028' || c = '\u2029'

/-- The `while let` loop of `split_lines` over the characters left. -/
def splitLoop : Text → Text → List Text → List Text
  | [],current,lines => if current = [] then lines else lines++[current]
  | '\r' :: '\n' ::chars,current,lines => splitLoop chars [] (lines++[current])
  | c::chars,current,lines =>
    if c = '\r' then splitLoop chars [] (lines++[current])
    else if isLineBreak c then splitLoop chars [] (lines++[current])
    else splitLoop chars (current++[c]) lines

def splitLines (text : Text) : List Text := splitLoop text [] []

/-- The lines the text completes. Indexing and popping an empty list would panic. -/
def feed (d : LineDecoder) (text : Text) : Option (List Text × LineDecoder) :=
  let text := if d.trailingCr then '\r' :: text else text
  let trailingCr := text.getLast? = some '\r'
  let text := if trailingCr then text.dropLast else text
  if text = [] then some ([],{ d with trailingCr })
  else
    let trailingNewline := text.getLast?.any isLineBreak
    let lines := splitLines text
    -- A single unterminated segment is just more of the partial line.
    if lines.length = 1 ∧ ¬trailingNewline then do
      let first ← lines[0]?
      return ([],{ buffer := d.buffer++first, trailingCr })
    else do
      -- Any buffered partial line is the start of this chunk's first segment.
      let (lines,buffer) ←
        if d.buffer ≠ [] then lines[0]?.map fun first => (lines.set 0 (d.buffer++first),[])
        else some (lines,d.buffer)
      if trailingNewline then return (lines,{ buffer, trailingCr })
      else do
        let popped ← lines.getLast?
        return (lines.dropLast,{ buffer := popped, trailingCr })

/-- Emit the final partial line at end of stream, if any. -/
def flush (d : LineDecoder) : Option Text × LineDecoder :=
  if d.buffer = [] ∧ ¬d.trailingCr then (none,d) else (some d.buffer,new)

/-- The text that is buffered: the partial line and the deferred `\r`. -/
def pending (d : LineDecoder) : Text := d.buffer++if d.trailingCr then ['\r'] else []

/-- The partial line holds no boundary. -/
def Inv (d : LineDecoder) : Prop := ∀ c ∈ d.buffer, Splitlines.isLineBreak c = false

theorem inv_new : Inv new := by simp [Inv,new]

theorem isLineBreak_eq : isLineBreak = Splitlines.isLineBreak := rfl

/-- The list of lines of a split: the unterminated text is a line unless it is empty. -/
def lineList (p : Split) : List Text := p.1++if p.2 = [] then [] else [p.2]

theorem splitlines_eq_lineList (text : Text) : splitlines text = lineList (split text) := rfl

theorem lineList_join (current : Text) (p : Split) :
    lineList (join ([],current) (join ([[]],[]) p)) = current::lineList (join ([],[]) p) := by
  rcases p with ⟨_ | ⟨l,ls⟩,_ | ⟨c,r⟩⟩ <;> simp [join,lineList]

/-- The loop adds to its lines what `current` and the rest split into. -/
theorem splitLoop_eq (chars current : Text) (lines : List Text) :
    splitLoop chars current lines = lines++lineList (join ([],current) (split chars)) := by
  induction chars,current,lines using splitLoop.induct with
  | case1 lines => simp [splitLoop,lineList]
  | case2 current lines hc => simp [splitLoop,lineList,hc]
  | case3 current lines chars ih =>
    rw [splitLoop,ih,split_crlf,lineList_join]
    simp
  | case4 current lines chars hne ih =>
    have hs : single '\r' = ([[]],[]) := by decide
    rw [splitLoop.eq_3 _ _ _ _ hne,if_pos rfl,ih,split.eq_3 _ _ hne,hs,lineList_join]
    simp
  | case5 c chars current lines hne hc hb ih =>
    have hs : single c = ([[]],[]) := by simp [single,← isLineBreak_eq,hb]
    rw [splitLoop.eq_3 _ _ _ _ hne,if_neg hc,if_pos hb,ih,split.eq_3 _ _ hne,hs,lineList_join]
    simp
  | case6 c chars current lines hne hc hb ih =>
    have hs : single c = ([],[c]) := by simp [single,← isLineBreak_eq,hb]
    rw [splitLoop.eq_3 _ _ _ _ hne,if_neg hc,if_neg hb,ih,split.eq_3 _ _ hne,hs,← join_assoc]
    simp [join]

/-- `split_lines` is `str.splitlines()`. -/
theorem splitLines_eq (text : Text) : splitLines text = splitlines text := by
  rw [splitLines,splitLoop_eq,splitlines_eq_lineList]
  simp

/-- The text ends a line exactly when `feed` sees a trailing boundary. -/
theorem getLast_any_isLineBreak {text : Text} (h : text ≠ []) :
    text.getLast?.any isLineBreak = true ↔ tail text = [] := by
  rw [← List.dropLast_append_getLast h,tail_concat,isLineBreak_eq]
  simp

/-- A buffer without boundaries only lengthens the first line of a text. -/
theorem split_buffer {buffer : Text} (h : ∀ c ∈ buffer, Splitlines.isLineBreak c = false)
    (text : Text) : split (buffer++text) = join ([],buffer) (split text) := by
  have ha : Apart buffer text := fun hr => absurd hr (getLast_of_no_break h)
  rw [split_append ha,split_of_no_break h]

/-- `feed` gives the lines that are now settled and keeps the rest. -/
theorem feed_eq {d : LineDecoder} (hi : d.Inv) (text : Text) :
    d.feed text = some (terminated (settled (d.pending++text)),
      ⟨tail (settled (d.pending++text)),(d.pending++text).getLast? = some '\r'⟩) := by
  obtain ⟨buffer,trailingCr⟩ := d
  replace hi : ∀ c ∈ buffer, Splitlines.isLineBreak c = false := hi
  have hr := getLast_of_no_break hi
  obtain ⟨t₁,ht₁⟩ : ∃ t₁, (if trailingCr then '\r' :: text else text) = t₁ := ⟨_,rfl⟩
  have hp : pending ⟨buffer,trailingCr⟩++text = buffer++t₁ := by
    subst ht₁
    cases trailingCr <;> simp [pending]
  have hlast : (buffer++t₁).getLast? = some '\r' ↔ t₁.getLast? = some '\r' := by
    rcases eq_or_ne t₁ [] with rfl | hne
    · simpa using hr
    · rw [List.getLast?_append_of_ne_nil _ hne]
  have hsplit := split_buffer hi (settled t₁)
  have hset : settled (buffer++t₁) = buffer++settled t₁ := settled_append fun _ => hr
  simp only [hp,hset,hlast,terminated,tail,hsplit]
  simp only [feed,ht₁]
  have hs : (if t₁.getLast? = some '\r' then t₁.dropLast else t₁) = settled t₁ := rfl
  simp only [hs]
  rcases eq_or_ne (settled t₁) [] with he | he
  · simp [he,join]
  · have hnl := getLast_any_isLineBreak he
    have hnil : terminated (settled t₁) = [] → tail (settled t₁) = settled t₁ :=
      tail_of_terminated_nil
    rw [if_neg he,splitLines_eq,splitlines]
    generalize ht : (settled t₁).getLast?.any isLineBreak = trailingNewline at hnl ⊢
    rw [terminated,tail] at hnil ⊢
    rw [tail] at hnl
    generalize split (settled t₁) = p at hnil hnl ⊢
    rcases p with ⟨_ | ⟨l,ls⟩,r⟩
    · -- one unterminated segment
      have hrt : r = settled t₁ := hnil rfl
      have hrne : r ≠ [] := by rwa [hrt]
      have hf : trailingNewline = false := by simpa [hrne] using hnl
      simp [join,hrne,hf]
    · rcases eq_or_ne r [] with rfl | hrne
      · have hf : trailingNewline = true := by simpa using hnl
        rcases eq_or_ne buffer [] with rfl | hb
        · simp [join,hf]
        · simp [join,hf,hb]
      · have hf : trailingNewline = false := by simpa [hrne] using hnl
        rcases eq_or_ne buffer [] with rfl | hb
        · simp [join,hrne,hf,List.getLast?_cons,List.dropLast_cons_of_ne_nil]
        · simp [join,hrne,hf,hb,List.getLast?_cons,List.dropLast_cons_of_ne_nil]

theorem feed_spec {d : LineDecoder} (hi : d.Inv) (text : Text) :
    ∃ d', d.feed text = some (terminated (settled (d.pending++text)),d') ∧ d'.Inv ∧
      d'.pending = remainder (d.pending++text) := by
  refine ⟨_,feed_eq hi text,tail_no_break _,?_⟩
  simp [pending,remainder,held]

/-- `flush` gives the line that is left. -/
theorem flush_spec {d : LineDecoder} (hi : d.Inv) :
    d.flush.1.toList = splitlines d.pending := by
  obtain ⟨buffer,trailingCr⟩ := d
  have hs : split buffer = ([],buffer) := split_of_no_break hi
  cases trailingCr with
  | false =>
    by_cases hb : buffer = []
    · simp [flush,pending,hb,splitlines,terminated,tail]
    · simp [flush,pending,hb,splitlines,terminated,tail,hs]
  | true =>
    have hc : split (buffer++['\r']) = ([buffer],[]) := by
      rw [split_buffer hi,split_single]
      simp [single,Splitlines.isLineBreak,join]
    simp [flush,pending,splitlines,terminated,tail,hc]

theorem flush_inv (d : LineDecoder) (hi : d.Inv) : d.flush.2.Inv := by
  unfold flush
  split
  · exact hi
  · exact inv_new

/-- Feed the chunks in turn, collecting the lines. -/
def feedAll (d : LineDecoder) : List Text → Option (List Text × LineDecoder)
  | [] => some ([],d)
  | text::texts => do
    let (lines,d) ← d.feed text
    let (more,d) ← d.feedAll texts
    return (lines++more,d)

theorem Inv.settled {d : LineDecoder} (hi : d.Inv) :
    Splitlines.settled d.pending = d.buffer := by
  obtain ⟨buffer,trailingCr⟩ := d
  have hr : buffer.getLast? ≠ some '\r' := getLast_of_no_break hi
  cases trailingCr <;> simp [pending,Splitlines.settled,hr]

theorem Inv.terminated {d : LineDecoder} (hi : d.Inv) :
    Splitlines.terminated (Splitlines.settled d.pending) = [] := by
  rw [hi.settled,Splitlines.terminated,split_of_no_break hi]

theorem Inv.remainder {d : LineDecoder} (hi : d.Inv) : Splitlines.remainder d.pending = d.pending := by
  have ht : tail d.buffer = d.buffer := by rw [tail,split_of_no_break hi]
  have hh : d.pending = d.buffer++held d.pending := by
    rw [← hi.settled,settled_append_held]
  rw [Splitlines.remainder,hi.settled,ht,← hh]

theorem feedAll_spec {d : LineDecoder} (hi : d.Inv) (texts : List Text) :
    ∃ d', d.feedAll texts = some (Splitlines.terminated (Splitlines.settled
      (d.pending++texts.flatten)),d') ∧ d'.Inv ∧
      d'.pending = Splitlines.remainder (d.pending++texts.flatten) := by
  induction texts generalizing d with
  | nil => exact ⟨d,by simp [feedAll,hi.terminated],hi,by simp [hi.remainder]⟩
  | cons text texts ih =>
    obtain ⟨d₁,h₁,hi₁,hp₁⟩ := feed_spec hi text
    obtain ⟨d₂,h₂,hi₂,hp₂⟩ := ih hi₁
    refine ⟨d₂,?_,hi₂,?_⟩
    · have hg := terminated_grow (d.pending++text) texts.flatten
      rw [← hp₁] at hg
      rw [List.flatten_cons,← List.append_assoc,hg]
      simp [feedAll,h₁,h₂]
    · rw [hp₂,hp₁,List.flatten_cons,← List.append_assoc,← remainder_grow]

end LineDecoder
end Rqx
