import Rqx.Iterators

/-! Whole runs of the six iterators: over a body that arrives in full, however the network
cuts it, and over one that breaks off. -/
namespace Rqx

open IterState Splitlines

section Runs

variable {σ ι : Type} (S : Source σ ι)

/-- What `k` calls of the sync and of the async iterator return, call by call. -/
def Returns (k : ℕ) (s : IterState σ) (r : ℕ → Except RqxCoreError (Option ι))
    (t : IterState σ) : Prop :=
  calls (syncNext S) k s = some ((List.range k).map fun i => syncResult (r i),t) ∧
    calls (asyncNext S) k s = some ((List.range k).map fun i => asyncResult (r i),t)

/-- Every item in order, and then the end each time. -/
def Gives (s : IterState σ) (items : List ι) : Prop :=
  ∀ k, ∃ t, Returns S k s (fun i => .ok items[i]?) t

variable {S}

theorem gives_all (L : Laws S) {inner : σ} (hi : L.Inv inner) (chunks : List Bytes) :
    Gives S ⟨.new (chunks.map .ok),inner,false⟩ (L.all inner chunks) := by
  intro k
  obtain ⟨t,ht,_⟩ := calls_yield L hi chunks k
  exact ⟨t,calls_next ht⟩

end Runs

/-- Byte iteration regroups the body exactly. A chunk requested after `m` others is requested
by a call whose piece those do not complete, and the carry stays within the size. -/
theorem PyByteIterator.regroups_bytes (chunkSize : Option ℕ) (hs : chunkSize ≠ some 0)
    (chunks : List Bytes) :
    ∃ pieces,
      (∀ n, chunkSize = some n → Regroup.IsRegrouping n chunks.flatten pieces) ∧
      (chunkSize = none → pieces = chunks.filter (!·.isEmpty)) ∧
      (∀ k, ∃ t,
        calls PyByteIterator.next k (PyByteIterator.new chunkSize (chunks.map .ok)) =
          some ((List.range k).map fun i => .ok pieces[i]?,t) ∧
        calls PyAsyncByteIterator.anext k (PyByteIterator.new chunkSize (chunks.map .ok)) =
          some ((List.range k).map fun i => asyncResult (.ok pieces[i]?),t) ∧
        ∀ m < chunks.length+1-t.stream.remaining,
          (Regroup.completed chunkSize [] (chunks.take m)).length < k) ∧
      ∀ t n, Reaches source (PyByteIterator.new chunkSize (chunks.map .ok)) t →
        chunkSize = some n → t.inner.carry.length ≤ n ∧
          ∀ o c, t.inner.nextFull = some (o,c) → c.carry.length ≤ n := by
  have hi : (laws chunkSize).Inv (.new chunkSize) := ⟨ByteChunker.inv_new hs,rfl⟩
  refine ⟨Regroup.regrouped chunkSize [] chunks,?_,?_,?_,?_⟩
  · rintro n rfl
    exact Regroup.pieces_isRegrouping (Nat.pos_of_ne_zero (by simpa using hs)) chunks.flatten
  · rintro rfl
    rfl
  · intro k
    obtain ⟨t,ht,hp⟩ := calls_yield (laws chunkSize) hi chunks k
    obtain ⟨hsync,hasync⟩ := calls_next ht
    exact ⟨t,hsync,hasync,hp⟩
  · rintro t n ht rfl
    obtain ⟨hti,hts⟩ : (laws (some n)).Inv t.inner := reaches_inv hi ht
    refine ⟨hti.carry_le hts,fun o c hc => ?_⟩
    obtain ⟨o',c',hc',hci,hcs,_⟩ := ByteChunker.nextFull_spec hti
    obtain ⟨_,rfl⟩ : o' = o ∧ c' = c := by simpa [hc'] using hc
    exact hci.carry_le (hcs.trans hts)

theorem PyByteIterator.regroups_bytes_two : ∃ pieces, Regroup.IsRegrouping 2 [1,2,3] pieces ∧
    ∀ k, ∃ t, calls PyByteIterator.next k (PyByteIterator.new (some 2) [.ok [1],.ok [],.ok [2,3]]) =
      some ((List.range k).map fun i => .ok pieces[i]?,t) := by
  obtain ⟨pieces,hp,_,hk,_⟩ :=
    PyByteIterator.regroups_bytes (some 2) (by decide) [[1],[],[2,3]]
  exact ⟨pieces,hp 2 rfl,fun k => (hk k).imp fun t ht => ht.1⟩

/-- Text iteration regroups the decoded body exactly, as promptly as it is decoded, and never
cuts a character. -/
theorem PyTextIterator.regroups_text (rs : Encodings) (parts : ResponseParts)
    (he : (parts.resolvedEncoding rs).Streams) (n : ℕ) (hn : 1 ≤ n) (chunks : List Bytes) :
    ∃ pieces, Regroup.IsRegrouping n (parts.text rs chunks.flatten) pieces ∧
      (∀ k, ∃ t,
        calls PyTextIterator.next k
          (PyTextIterator.new (parts.resolvedEncoding rs) (some n) (chunks.map .ok)) =
          some ((List.range k).map fun i => .ok pieces[i]?,t) ∧
        calls PyAsyncTextIterator.anext k
          (PyTextIterator.new (parts.resolvedEncoding rs) (some n) (chunks.map .ok)) =
          some ((List.range k).map fun i => asyncResult (.ok pieces[i]?),t) ∧
        ∀ m < chunks.length+1-t.stream.remaining,
          (Encoding.decodeChunks (TextDecoder.new (parts.resolvedEncoding rs))
            (chunks.take m)).1.flatten.length/n < k) ∧
      ∀ t, Reaches (source (parts.resolvedEncoding rs))
          (PyTextIterator.new (parts.resolvedEncoding rs) (some n) (chunks.map .ok)) t →
        IsCharBoundary t.inner.chunker.pending t.inner.chunker.consumed := by
  generalize hE : parts.resolvedEncoding rs = E at he
  have hs : some n ≠ some 0 := by simp; omega
  have hi : (laws E (some n)).Inv ⟨.new E,.new (some n)⟩ := ⟨TextChunker.inv_new hs,rfl⟩
  have htext : (Encoding.streamTexts (TextDecoder.new E) chunks).flatten =
      parts.text rs chunks.flatten := by rw [he,ResponseParts.text,hE]
  refine ⟨Regroup.pieces n (parts.text rs chunks.flatten),Regroup.pieces_isRegrouping hn _,
    fun k => ?_,fun t ht => ?_⟩
  · obtain ⟨t,ht,hp⟩ := calls_yield (laws E (some n)) hi chunks k
    obtain ⟨hsync,hasync⟩ := calls_next ht
    have hall : (laws E (some n)).all ⟨.new E,.new (some n)⟩ chunks =
        Regroup.pieces n (parts.text rs chunks.flatten) := by rw [← htext]; rfl
    rw [hall] at hsync hasync
    refine ⟨t,hsync,hasync,fun m hm => ?_⟩
    rw [← Regroup.whole_length]
    exact hp m hm
  · have hti : (laws E (some n)).Inv t.inner := reaches_inv hi ht
    exact hti.1.2

/-- Latin letters and digits in one byte each. -/
def asciiEncodings : Encodings :=
  ⟨fun _ => none,Encoding.singleByte fun b => Char.ofNat b.toNat,fun _ => "UTF-8",fun _ => none⟩

theorem PyTextIterator.regroups_text_two :
    ∃ pieces, Regroup.IsRegrouping 2 ['a','b','c'] pieces ∧
      ∀ k, ∃ t, calls PyTextIterator.next k
        (PyTextIterator.new asciiEncodings.UTF_8 (some 2) [.ok [97],.ok [],.ok [98,99]]) =
          some ((List.range k).map fun i => .ok pieces[i]?,t) := by
  obtain ⟨pieces,hp,hk,_⟩ := PyTextIterator.regroups_text asciiEncodings
    ⟨200,⟨[]⟩,[],0,[],none⟩ (Encoding.singleByte_streams _) 2 (by decide) [[97],[],[98,99]]
  exact ⟨pieces,hp,fun k => (hk k).imp fun t ht => ht.1⟩

/-- Line splitting does not see the chunk boundaries: after any chunks the settled lines have
been given out, at the end all of them, and so do both iterators over bytes. -/
theorem LineDecoder.splits_lines (E : Encoding) (he : E.Streams) :
    (∀ texts more, ∃ lines d later d',
      LineDecoder.new.feedAll texts = some (lines,d) ∧
      lines = terminated (settled texts.flatten) ∧
      d.feedAll more = some (later,d') ∧
      lines++later++d'.flush.1.toList = splitlines (texts++more).flatten) ∧
    ∀ (chunks : List Bytes) (k : ℕ), ∃ t,
      calls PyLineIterator.next k (PyLineIterator.new E (chunks.map .ok)) =
        some ((List.range k).map fun i => .ok (splitlines (E.decode chunks.flatten))[i]?,t) ∧
      calls PyAsyncLineIterator.anext k (PyLineIterator.new E (chunks.map .ok)) =
        some ((List.range k).map fun i =>
          asyncResult (.ok (splitlines (E.decode chunks.flatten))[i]?),t) := by
  refine ⟨fun texts more => ?_,fun chunks => ?_⟩
  · obtain ⟨d,hf,hi,hp⟩ := feedAll_spec inv_new texts
    obtain ⟨d',hf',hi',hp'⟩ := feedAll_spec hi more
    rw [show new.pending = [] from rfl,List.nil_append] at hf hp
    refine ⟨_,d,_,d',hf,rfl,hf',?_⟩
    have hg := splitlines_grow (texts.flatten++more.flatten) []
    rw [flush_spec hi',hp',hp,← remainder_grow,← terminated_grow,List.flatten_append]
    simpa using hg.symm
  · have hi : (PyLineIterator.laws E).Inv ⟨.new E,.new,[]⟩ := inv_new
    have hg := gives_all (PyLineIterator.laws E) hi chunks
    have hall : (PyLineIterator.laws E).all ⟨.new E,.new,[]⟩ chunks =
        splitlines (E.decode chunks.flatten) := by rw [← he chunks]; rfl
    rwa [hall] at hg

theorem LineDecoder.splits_lines_ascii : ∃ t,
    calls PyLineIterator.next 3 (PyLineIterator.new asciiEncodings.UTF_8
      [.ok [97,13],.ok [10],.ok [98]]) = some ([.ok (some ['a']),.ok (some ['b']),.ok none],t) := by
  obtain ⟨t,ht,_⟩ := (LineDecoder.splits_lines asciiEncodings.UTF_8
    (Encoding.singleByte_streams _)).2 [[97,13],[10],[98]] 3
  exact ⟨t,ht⟩

end Rqx
