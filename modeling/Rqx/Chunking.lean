import Rqx.LiveStream
import Rqx.Regroup

/-! `ByteChunker` and `TextChunker`. Slicing out of range, off a character boundary
and subtracting below zero panic in the source, so an operation here that can do one
of these returns an `Option`, with `none` for the panic. -/
namespace Rqx

abbrev Text := List Char

/-- `usize` subtraction, which panics below zero. -/
def checkedSub (a b : ℕ) : Option ℕ := if b ≤ a then some (a-b) else none

/-- `Bytes::split_to`: the front goes out, the rest stays. -/
def splitTo (size : ℕ) (bytes : Bytes) : Option (Bytes × Bytes) :=
  if size ≤ bytes.length then some (bytes.take size,bytes.drop size) else none

@[simp] theorem checkedSub_of_le {a b : ℕ} (h : b ≤ a) : checkedSub a b = some (a-b) := by
  simp [checkedSub,h]
@[simp] theorem splitTo_of_le {size : ℕ} {bytes : Bytes} (h : size ≤ bytes.length) :
    splitTo size bytes = some (bytes.take size,bytes.drop size) := by simp [splitTo,h]

/-- Regroups network chunks into pieces of exactly `size` bytes. -/
structure ByteChunker where
  size : Option ℕ
  carry : Bytes
  head : Bytes
  deriving DecidableEq

namespace ByteChunker

def new (size : Option ℕ) : ByteChunker := ⟨size,[],[]⟩

def feed (c : ByteChunker) (bytes : Bytes) : Option ByteChunker :=
  match c.size with
  | none => some { c with head := bytes }
  | some size =>
    if c.carry = [] then some { c with head := bytes }
    else do
      let room ← checkedSub size c.carry.length
      let (front,back) ← splitTo (min room bytes.length) bytes
      return { c with carry := c.carry++front, head := back }

/-- The next full piece, if one is buffered. -/
def nextFull (c : ByteChunker) : Option (Option Bytes × ByteChunker) :=
  match c.size with
  | none =>
    if c.head = [] then some (none,c) else some (some c.head,{ c with head := [] })
  | some size =>
    if size ≤ c.carry.length then do
      let (piece,carry) ← splitTo size c.carry
      return (some piece,{ c with carry })
    else if size ≤ c.head.length ∧ c.carry = [] then do
      let (piece,head) ← splitTo size c.head
      return (some piece,{ c with head })
    -- Too short on both sides: park the head so the next chunk completes it.
    else if c.head ≠ [] then some (none,{ c with carry := c.carry++c.head, head := [] })
    else some (none,c)

/-- Whatever is left once the stream has ended. -/
def flush (c : ByteChunker) : Option Bytes × ByteChunker :=
  let carry := c.carry++c.head
  if carry = [] then (none,{ c with carry := [], head := [] })
  else (some carry,{ c with carry := [], head := [] })

/-- The bytes that are buffered, in order. -/
def buffer (c : ByteChunker) : Bytes := c.carry++c.head

/-- A size is never zero, the carry never outgrows it, and bytes wait behind a
non-empty carry only when that carry is a full piece. -/
def Inv (c : ByteChunker) : Prop :=
  match c.size with
  | none => c.carry = []
  | some size => 0 < size ∧ c.carry.length ≤ size ∧
      (c.carry.length < size → c.carry ≠ [] → c.head = [])

/-- What `nextFull` leaves when it has no piece to give. -/
def Drained (c : ByteChunker) : Prop := c.head = [] ∧ Regroup.Drained c.size c.carry

theorem inv_new {size : Option ℕ} (h : size ≠ some 0) : Inv (new size) := by
  cases size with
  | none => rfl
  | some n =>
    have hn : 0 < n := Nat.pos_of_ne_zero (by simpa using h)
    exact ⟨hn,by simp [new],by simp [new]⟩

theorem Inv.carry_le {c : ByteChunker} (h : c.Inv) {size : ℕ} (hs : c.size = some size) :
    c.carry.length ≤ size := by
  simp only [Inv,hs] at h
  exact h.2.1

theorem Drained.buffer {c : ByteChunker} (h : c.Drained) : Regroup.Drained c.size c.buffer := by
  simpa [ByteChunker.buffer,h.1] using h.2

theorem feed_spec {c : ByteChunker} (hi : c.Inv) (hd : c.Drained) (bytes : Bytes) :
    ∃ d, c.feed bytes = some d ∧ d.Inv ∧ d.size = c.size ∧ d.buffer = c.buffer++bytes := by
  rcases c with ⟨size,carry,head⟩
  obtain ⟨rfl,hd⟩ : head = [] ∧ Regroup.Drained size carry := hd
  cases size with
  | none =>
    obtain rfl : carry = [] := hd
    exact ⟨⟨none,[],bytes⟩,rfl,rfl,rfl,rfl⟩
  | some size =>
    obtain ⟨hn,hle,_⟩ : 0 < size ∧ carry.length ≤ size ∧ _ := hi
    by_cases hc : carry = []
    · subst hc
      exact ⟨⟨some size,[],bytes⟩,rfl,⟨hn,hle,by simp⟩,rfl,rfl⟩
    · refine ⟨⟨some size,carry++bytes.take (size-carry.length),
        bytes.drop (size-carry.length)⟩,?_,⟨hn,?_,?_⟩,rfl,?_⟩
      · rcases Nat.le_total (size-carry.length) bytes.length with hb | hb
        · simp [feed,hc,hle,Nat.min_eq_left hb]
        · simp [feed,hc,hle,Nat.min_eq_right hb,List.take_of_length_le hb,
            List.drop_eq_nil_of_le hb]
      · simp only [List.length_append,List.length_take]
        omega
      · intro hl _
        simp only [List.length_append,List.length_take] at hl
        exact List.drop_eq_nil_of_le (by omega)
      · simp [buffer]

/-- `nextFull` takes the next full piece off the front of the buffer, if there is one. -/
theorem nextFull_spec {c : ByteChunker} (hi : c.Inv) :
    ∃ o d, c.nextFull = some (o,d) ∧ d.Inv ∧ d.size = c.size ∧
      Regroup.Takes c.size c.buffer o d.buffer ∧ (o = none → d.Drained) := by
  rcases c with ⟨size,carry,head⟩
  cases size with
  | none =>
    obtain rfl : carry = [] := hi
    by_cases hh : head = []
    · subst hh
      exact ⟨none,_,rfl,rfl,rfl,⟨rfl,rfl⟩,fun _ => ⟨rfl,rfl⟩⟩
    · exact ⟨some head,⟨none,[],[]⟩,by simp [nextFull,hh],rfl,rfl,⟨by simp [buffer],hh,rfl⟩,by simp⟩
  | some size =>
    obtain ⟨hn,hle,hw⟩ : 0 < size ∧ carry.length ≤ size ∧
      (carry.length < size → carry ≠ [] → head = []) := hi
    by_cases hc : size ≤ carry.length
    · -- the carry is exactly one piece
      have hl : carry.length = size := hle.antisymm hc
      refine ⟨some carry,⟨some size,[],head⟩,?_,⟨hn,by simp,by simp⟩,rfl,⟨rfl,hn,hl⟩,by simp⟩
      simp [nextFull,← hl]
    · by_cases hh : size ≤ head.length ∧ carry = []
      · -- a whole piece at the front of the chunk
        obtain ⟨hh,rfl⟩ := hh
        refine ⟨some (head.take size),⟨some size,[],head.drop size⟩,?_,⟨hn,by simp,by simp⟩,
          rfl,⟨by simp [buffer],hn,by simpa using hh⟩,by simp⟩
        simp [nextFull,hh,Nat.not_le.mpr hn]
      · -- too short on both sides
        have hs : (carry++head).length < size := by
          rcases eq_or_ne carry [] with rfl | hne
          · simpa using hh
          · simpa [hw (by omega) hne] using hc
        refine ⟨none,⟨some size,carry++head,[]⟩,?_,⟨hn,hs.le,by simp⟩,rfl,⟨by simp [buffer],hs⟩,
          fun _ => ⟨rfl,hs⟩⟩
        by_cases he : head = []
        · simp [nextFull,hc,he,Nat.not_le.mpr hn]
        · simp [nextFull,hc,hh,he]

/-- `flush` gives the remainder and leaves nothing. -/
theorem flush_spec {c : ByteChunker} (hi : c.Inv) :
    c.flush.2.Inv ∧ c.flush.2.size = c.size ∧ c.flush.2.buffer = [] ∧
      c.flush.1.toList = Regroup.last c.buffer := by
  rcases c with ⟨size,carry,head⟩
  have hinv : Inv ⟨size,[],[]⟩ := by
    cases size with
    | none => rfl
    | some n => exact ⟨hi.1,by simp,by simp⟩
  by_cases hb : carry++head = []
  · simpa [flush,hb,buffer] using hinv
  · simpa [flush,hb,buffer,Regroup.last_of_ne hb] using hinv

end ByteChunker

/-! ## Text -/

/-- The length of the UTF-8 encoding. -/
def utf8Len (text : Text) : ℕ := (text.map Char.utf8Size).sum

/-- Slice a string at a byte offset; an offset inside a character panics. -/
def splitAtByte : ℕ → Text → Option (Text × Text)
  | 0, text => some ([],text)
  | _+1, [] => none
  | n+1, c::text =>
    if c.utf8Size ≤ n+1 then
      (splitAtByte (n+1-c.utf8Size) text).map fun (front,back) => (c::front,back)
    else none

/-- `str::char_indices().nth(n)`: the byte offset of the `n`-th character, and it. -/
def nthCharIndex (text : Text) (n : ℕ) : Option (ℕ × Char) :=
  text[n]?.map fun c => (utf8Len (text.take n),c)

/-- `offset` is a character boundary of `text`. -/
def IsCharBoundary (text : Text) (offset : ℕ) : Prop :=
  ∃ front back, text = front++back ∧ utf8Len front = offset

@[simp] theorem utf8Len_nil : utf8Len [] = 0 := rfl
@[simp] theorem utf8Len_cons (c : Char) (text : Text) :
    utf8Len (c::text) = c.utf8Size+utf8Len text := rfl
@[simp] theorem utf8Len_append (a b : Text) : utf8Len (a++b) = utf8Len a+utf8Len b := by
  simp [utf8Len]

@[simp] theorem splitAtByte_utf8Len (front back : Text) :
    splitAtByte (utf8Len front) (front++back) = some (front,back) := by
  induction front with
  | nil => cases back <;> simp [splitAtByte]
  | cons c front ih =>
    have hc : 0 < c.utf8Size := c.utf8Size_pos
    obtain ⟨n,hn⟩ : ∃ n, utf8Len (c::front) = n+1 := ⟨utf8Len (c::front)-1,by simp; omega⟩
    have hm : n+1-c.utf8Size = utf8Len front := by rw [← hn]; simp
    have hle : c.utf8Size ≤ n+1 := by rw [← hn]; simp
    rw [hn,List.cons_append,splitAtByte,if_pos hle,hm,ih]
    rfl

/-- Regroups decoded text into pieces of exactly `size` characters. -/
structure TextChunker where
  size : Option ℕ
  pending : Text
  consumed : ℕ
  deriving DecidableEq

namespace TextChunker

def new (size : Option ℕ) : TextChunker := ⟨size,[],0⟩

def feed (c : TextChunker) (text : Text) : Option TextChunker :=
  if 0 < c.consumed then do
    let (_,kept) ← splitAtByte c.consumed c.pending
    return { c with pending := kept++text, consumed := 0 }
  else some { c with pending := c.pending++text }

/-- The next full piece, if `size` characters are buffered. -/
def nextFull (c : TextChunker) : Option (Option Text × TextChunker) := do
  let (_,unread) ← splitAtByte c.consumed c.pending
  match c.size with
  | none =>
    let c := { c with consumed := utf8Len c.pending }
    return (if unread = [] then none else some unread,c)
  | some size =>
    let n ← checkedSub size 1
    match nthCharIndex unread n with
    | none => return (none,c)
    | some (lastStart,last) =>
      let stop := lastStart+last.utf8Size
      let (piece,_) ← splitAtByte stop unread
      return (some piece,{ c with consumed := c.consumed+stop })

def flush (c : TextChunker) : Option (Option Text × TextChunker) := do
  let (_,left) ← splitAtByte c.consumed c.pending
  let c := { c with pending := [], consumed := 0 }
  return (if left = [] then none else some left,c)

/-- The text that is buffered and not yet given out. -/
def buffer (c : TextChunker) : Text :=
  ((splitAtByte c.consumed c.pending).map Prod.snd).getD []

/-- A size is never zero, and `consumed` is a boundary of `pending`. -/
def Inv (c : TextChunker) : Prop := c.size ≠ some 0 ∧ IsCharBoundary c.pending c.consumed

theorem inv_new {size : Option ℕ} (h : size ≠ some 0) : Inv (new size) := ⟨h,[],[],rfl,rfl⟩

@[simp] theorem buffer_mk (size : Option ℕ) (front back : Text) :
    buffer ⟨size,front++back,utf8Len front⟩ = back := by simp [buffer]

/-- What has been given out is dropped, and the new text goes behind the rest. -/
theorem feed_spec {c : TextChunker} (hi : c.Inv) (text : Text) :
    ∃ d, c.feed text = some d ∧ d.Inv ∧ d.size = c.size ∧ d.buffer = c.buffer++text := by
  obtain ⟨hs,front,back,hp,hc⟩ := hi
  rcases c with ⟨size,pending,consumed⟩
  obtain rfl : pending = front++back := hp
  obtain rfl : utf8Len front = consumed := hc
  have hi : Inv ⟨size,back++text,0⟩ := ⟨hs,[],back++text,rfl,rfl⟩
  refine ⟨⟨size,back++text,0⟩,?_,hi,rfl,by simpa using buffer_mk size [] (back++text)⟩
  cases front with
  | nil => simp [feed]
  | cons c front =>
    have hpos : 0 < utf8Len (c::front) := by simp [c.utf8Size_pos]
    simp only [feed,hpos,if_true,splitAtByte_utf8Len]
    rfl

/-- `nextFull` takes exactly `size` characters off the front, never part of one. -/
theorem nextFull_spec {c : TextChunker} (hi : c.Inv) :
    ∃ o d, c.nextFull = some (o,d) ∧ d.Inv ∧ d.size = c.size ∧
      Regroup.Takes c.size c.buffer o d.buffer := by
  obtain ⟨hs,front,back,hp,hc⟩ := hi
  rcases c with ⟨size,pending,consumed⟩
  obtain rfl : pending = front++back := hp
  obtain rfl : utf8Len front = consumed := hc
  -- every later offset is the length of a longer front
  have hinv : ∀ a b, back = a++b →
      Inv ⟨size,front++back,utf8Len front+utf8Len a⟩ ∧
      buffer ⟨size,front++back,utf8Len front+utf8Len a⟩ = b := by
    rintro a b rfl
    rw [← utf8Len_append,← List.append_assoc]
    exact ⟨⟨hs,front++a,b,rfl,rfl⟩,buffer_mk size (front++a) b⟩
  cases size with
  | none =>
    have hb := hinv back [] (by simp)
    refine ⟨if back = [] then none else some back,⟨none,front++back,utf8Len front+utf8Len back⟩,
      by simp [nextFull],hb.1,rfl,?_⟩
    rw [hb.2,buffer_mk]
    by_cases he : back = []
    · simp [Regroup.Takes,Regroup.Drained,he]
    · simp [Regroup.Takes,he]
  | some size =>
    have hn : 0 < size := Nat.pos_of_ne_zero (by simpa using hs)
    rcases Nat.lt_or_ge (size-1) back.length with hl | hl
    · have hstop : utf8Len (back.take (size-1))+back[size-1].utf8Size = utf8Len (back.take size) := by
        have ht : back.take size = back.take (size-1)++[back[size-1]] := by
          conv_lhs => rw [← Nat.sub_add_cancel hn,List.take_succ_eq_append_getElem hl]
        rw [ht]
        simp only [utf8Len_append,utf8Len_cons,utf8Len_nil,Nat.add_zero]
      have hsplit : splitAtByte (utf8Len (back.take size)) back =
          some (back.take size,back.drop size) := by
        simpa using splitAtByte_utf8Len (back.take size) (back.drop size)
      have hb := hinv (back.take size) (back.drop size) (by simp)
      refine ⟨some (back.take size),
        ⟨some size,front++back,utf8Len front+utf8Len (back.take size)⟩,?_,hb.1,rfl,?_⟩
      · simp [nextFull,checkedSub_of_le hn,nthCharIndex,hl,hstop,hsplit]
      · rw [hb.2,buffer_mk]
        exact ⟨by simp,hn,by simp; omega⟩
    · refine ⟨none,⟨some size,front++back,utf8Len front⟩,?_,⟨hs,front,back,rfl,rfl⟩,rfl,rfl,?_⟩
      · simp [nextFull,checkedSub_of_le hn,nthCharIndex,hl]
      · simp only [buffer_mk,Regroup.Drained]
        omega

/-- `flush` gives the remainder and leaves nothing. -/
theorem flush_spec {c : TextChunker} (hi : c.Inv) :
    ∃ o d, c.flush = some (o,d) ∧ d.Inv ∧ d.size = c.size ∧ d.buffer = [] ∧
      o.toList = Regroup.last c.buffer := by
  obtain ⟨hs,front,back,hp,hc⟩ := hi
  rcases c with ⟨size,pending,consumed⟩
  obtain rfl : pending = front++back := hp
  obtain rfl : utf8Len front = consumed := hc
  refine ⟨if back = [] then none else some back,⟨size,[],0⟩,by simp [flush],inv_new hs,rfl,rfl,?_⟩
  rw [buffer_mk]
  by_cases he : back = []
  · simp [he]
  · simp [he,Regroup.last_of_ne he]

end TextChunker
end Rqx
