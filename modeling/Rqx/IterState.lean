import Rqx.LiveStream
import Rqx.Loop

/-! The loop that all six body iterators run, over what one of them keeps beside the
stream. The sync and the async iterators differ only in how they report the end. -/
namespace Rqx

/-- What an iterator does with the items it holds: give one out, take in a chunk, take in
the end of the stream, and give out what is left after it. `none` is a panic. -/
structure Source (σ ι : Type) where
  ready : σ → Option (Option ι × σ)
  feed : Bytes → σ → Option σ
  finish : σ → Option σ
  flush : σ → Option (Option ι × σ)

structure IterState (σ : Type) where
  stream : LiveStream
  inner : σ
  finished : Bool

/-- How one pass of the loop ends; a pass that panics returns `none`. -/
abbrev Flow (σ ι : Type) :=
  Pass (IterState σ) (Option (Except RqxCoreError (Option ι) × IterState σ))

namespace IterState

variable {σ ι : Type} (S : Source σ ι)

/-- One pass of the loop. -/
def turn (s : IterState σ) : Flow σ ι :=
  match if s.finished then .ok () else s.stream.checkOpen with
  | .error e => .done (some (.error e,s))
  | .ok () =>
    match S.ready s.inner with
    | none => .done none
    | some (some item,inner) => .done (some (.ok (some item),{ s with inner }))
    | some (none,inner) =>
      if s.finished then
        match S.flush inner with
        | none => .done none
        | some (item,inner) => .done (some (.ok item,{ s with inner }))
      else
        match s.stream.nextChunk with
        | (.error e,stream) => .done (some (.error e,{ s with stream, inner }))
        | (.ok (some bytes),stream) =>
          match S.feed bytes inner with
          | none => .done none
          | some inner => .again { s with stream, inner }
        | (.ok none,stream) =>
          match S.finish inner with
          | none => .done none
          | some inner => .again ⟨stream,inner,true⟩

section Passes

variable {S} {stream : LiveStream} {inner t u : σ} {finished : Bool}

theorem turn_item {item : ι} (h : finished = true ∨ stream.closed = false)
    (hr : S.ready inner = some (some item,t)) :
    turn S ⟨stream,inner,finished⟩ = .done (some (.ok (some item),⟨stream,t,finished⟩)) := by
  obtain ⟨stream,closed⟩ := stream
  rcases h with rfl | rfl
  · simp [turn,hr]
  · cases finished <;> simp [turn,hr]

theorem turn_flush {o : Option ι} (hr : S.ready inner = some (none,t))
    (hf : S.flush t = some (o,u)) :
    turn S ⟨stream,inner,true⟩ = .done (some (.ok o,⟨stream,u,true⟩)) := by
  simp [turn,hr,hf]

theorem turn_chunk {bytes : Bytes} {rest : ChunkStream} (hr : S.ready inner = some (none,t))
    (hf : S.feed bytes t = some u) :
    turn S ⟨⟨some (.ok bytes::rest),false⟩,inner,false⟩ = .again ⟨⟨some rest,false⟩,u,false⟩ := by
  simp [turn,hr,hf]

theorem turn_end (hr : S.ready inner = some (none,t)) (hf : S.finish t = some u) :
    turn S ⟨⟨some [],false⟩,inner,false⟩ = .again ⟨⟨none,false⟩,u,true⟩ := by
  simp [turn,hr,hf]

theorem turn_error {e : ReqwestError} {rest : ChunkStream} (hr : S.ready inner = some (none,t)) :
    turn S ⟨⟨some (.error e::rest),false⟩,inner,false⟩ =
      .done (some (.error (.fromReqwest e),⟨⟨none,false⟩,t,false⟩)) := by
  simp [turn,hr]

end Passes

theorem turn_remaining {s t : IterState σ} (h : turn S s = .again t) :
    t.stream.remaining < s.stream.remaining := by
  unfold turn at h
  repeat' split at h
  all_goals try contradiction
  all_goals
    obtain rfl := Pass.again.inj h
    exact LiveStream.nextChunk_remaining ‹_›

/-- The loop of one call. -/
def loop : Loop (IterState σ) (Option (Except RqxCoreError (Option ι) × IterState σ)) where
  pass := turn S
  measure s := s.stream.remaining
  decreases _ _ := turn_remaining S

/-- One call: the loop runs until a pass returns. -/
def next (s : IterState σ) : Option (Except RqxCoreError (Option ι) × IterState σ) :=
  (loop S).run s

theorem next_done {s t : IterState σ} {r : Except RqxCoreError (Option ι)}
    (h : turn S s = .done (some (r,t))) : next S s = some (r,t) := Loop.run_done h

/-- The result of the sync call: the end is `None`. -/
def syncResult (r : Except RqxCoreError (Option ι)) : Except PyRqxError (Option ι) :=
  r.mapError .Core

/-- The result of the async call: the end is raised. -/
def asyncResult : Except RqxCoreError (Option ι) → Except PyRqxError ι
  | .ok (some item) => .ok item
  | .ok none => .error (.Py .StopAsyncIteration)
  | .error e => .error (.Core e)

/-- `__next__`. -/
def syncNext (s : IterState σ) : Option (Except PyRqxError (Option ι) × IterState σ) :=
  (next S s).map (Prod.map syncResult id)

/-- `__anext__`. -/
def asyncNext (s : IterState σ) : Option (Except PyRqxError ι × IterState σ) :=
  (next S s).map (Prod.map asyncResult id)

/-- The results of `k` calls one after the other. -/
def calls {ρ : Type} (call : IterState σ → Option (ρ × IterState σ)) :
    ℕ → IterState σ → Option (List ρ × IterState σ)
  | 0,s => some ([],s)
  | k+1,s => do
    let (r,s) ← call s
    let (rs,s) ← calls call k s
    return (r::rs,s)

/-- The states the loop runs through, with a close at any point between two passes. -/
inductive Reaches (s : IterState σ) : IterState σ → Prop
  | start : Reaches s s
  | again {t u : IterState σ} : Reaches s t → turn S t = .again u → Reaches s u
  | done {t u : IterState σ} {r : Except RqxCoreError (Option ι)} :
      Reaches s t → turn S t = .done (some (r,u)) → Reaches s u
  | close {t : IterState σ} : Reaches s t → Reaches s { t with stream := t.stream.close }

end IterState

/-- What a `Source` keeps to, in terms of the items it holds: `early` lists those that it and
the coming chunks complete, `all` adds what the end of the stream completes, and `left`
lists those it still has to give out once the stream has ended. -/
structure Laws {σ ι : Type} (S : Source σ ι) where
  Inv : σ → Prop
  /-- Nothing can be given out before more arrives. -/
  Drained : σ → Prop
  early : σ → List Bytes → List ι
  all : σ → List Bytes → List ι
  left : σ → List ι
  ready_spec : ∀ s, Inv s → ∃ o t, S.ready s = some (o,t) ∧ Inv t ∧
    (∀ chunks, early s chunks = o.toList++early t chunks) ∧
    (∀ chunks, all s chunks = o.toList++all t chunks) ∧
    left s = o.toList++left t ∧ (o = none → Drained t)
  drained_early : ∀ s, Inv s → Drained s → early s [] = []
  feed_spec : ∀ s bytes, Inv s → Drained s → ∃ t, S.feed bytes s = some t ∧ Inv t ∧
    (∀ chunks, early s (bytes::chunks) = early t chunks) ∧
    (∀ chunks, all s (bytes::chunks) = all t chunks)
  finish_spec : ∀ s, Inv s → Drained s → ∃ t, S.finish s = some t ∧ Inv t ∧ all s [] = left t
  flush_spec : ∀ s, Inv s → Drained s → ∃ o t, S.flush s = some (o,t) ∧ Inv t ∧
    left s = o.toList ∧ left t = []

namespace IterState

variable {σ ι : Type} {S : Source σ ι} (L : Laws S)

/-- The rule for the loop: a fact that each pass keeps until it returns holds of the call. -/
theorem next_of_turn {P : IterState σ → Prop}
    {Q : Except RqxCoreError (Option ι) → IterState σ → Prop}
    (h : ∀ s, P s → (∃ r t, turn S s = .done (some (r,t)) ∧ Q r t) ∨ ∃ t, turn S s = .again t ∧ P t)
    (s : IterState σ) (hs : P s) : ∃ r t, next S s = some (r,t) ∧ Q r t := by
  refine (loop S).run_rule (Q := fun o => ∃ r t, o = some (r,t) ∧ Q r t) (fun s hs => ?_) s hs
  rcases h s hs with ⟨r,t,ht,hq⟩ | h
  · exact .inl ⟨some (r,t),ht,r,t,rfl,hq⟩
  · exact .inr h

theorem calls_map {ρ ρ' : Type} (f : ρ → ρ') (call : IterState σ → Option (ρ × IterState σ))
    (k : ℕ) (s : IterState σ) : calls (fun s => (call s).map (Prod.map f id)) k s =
      (calls call k s).map (Prod.map (List.map f) id) := by
  induction k generalizing s with
  | zero => rfl
  | succ k ih =>
    cases hc : call s with
    | none => simp [calls,hc]
    | some p =>
      cases hk : calls call k p.2 with
      | none => simp [calls,hc,ih,hk]
      | some q => simp [calls,hc,ih,hk]

/-- What the calls of both kinds of iterator return is what the loop returns. -/
theorem calls_next {k : ℕ} {s t : IterState σ} {r : ℕ → Except RqxCoreError (Option ι)}
    (h : calls (next S) k s = some ((List.range k).map r,t)) :
    calls (syncNext S) k s = some ((List.range k).map fun i => syncResult (r i),t) ∧
      calls (asyncNext S) k s = some ((List.range k).map fun i => asyncResult (r i),t) := by
  have hs := calls_map syncResult (next S) k s
  have ha := calls_map asyncResult (next S) k s
  simp only [h,Option.map_some,Prod.map_apply,List.map_map,id] at hs ha
  exact ⟨hs,ha⟩

/-- Calls go one by one: a fact about each call that follows from where it starts. -/
theorem calls_of_next {P : ℕ → IterState σ → Prop}
    {r : ℕ → Except RqxCoreError (Option ι)}
    (h : ∀ i s, P i s → ∃ t, next S s = some (r i,t) ∧ P (i+1) t)
    (k : ℕ) {i : ℕ} {s : IterState σ} (hs : P i s) :
    ∃ t, calls (next S) k s = some ((List.range k).map fun j => r (i+j),t) ∧ P (i+k) t := by
  induction k generalizing i s with
  | zero => exact ⟨s,rfl,hs⟩
  | succ k ih =>
    obtain ⟨t,ht,hp⟩ := h i s hs
    obtain ⟨u,hu,hq⟩ := ih hp
    refine ⟨u,?_,by rwa [Nat.add_right_comm i 1 k] at hq⟩
    simp [calls,ht,hu,List.range_succ_eq_map,Function.comp_def,Nat.add_right_comm i 1,
      Nat.add_assoc]

/-! ## A stream that ends normally -/

/-- The iterator has `items` still to give out and then ends. -/
def Ahead (s : IterState σ) (items : List ι) : Prop :=
  L.Inv s.inner ∧ ((s.finished = true ∧ items = L.left s.inner) ∨ (s.finished = false ∧
    ∃ chunks, s.stream = ⟨some (chunks.map .ok),false⟩ ∧ items = L.all s.inner chunks))

/-- One pass gives out the first item, reports the end, or leaves all the items ahead. -/
theorem turn_ahead {s : IterState σ} {items : List ι} (h : Ahead L s items) :
    (∃ r t, turn S s = .done (some (r,t)) ∧ r = .ok items.head? ∧ Ahead L t items.tail) ∨
      ∃ t, turn S s = .again t ∧ Ahead L t items := by
  obtain ⟨stream,inner,finished⟩ := s
  obtain ⟨hi,⟨rfl,rfl⟩ | ⟨rfl,chunks,rfl,rfl⟩⟩ := h
  · obtain ⟨o,t,hr,ht,_,_,hl,hd⟩ := L.ready_spec inner hi
    cases o with
    | some item =>
      exact .inl ⟨_,_,turn_item (.inl rfl) hr,by simp [hl],ht,.inl ⟨rfl,by simp [hl]⟩⟩
    | none =>
      obtain ⟨o,u,hf,hu,hlo,hlu⟩ := L.flush_spec t ht (hd rfl)
      have hlast : L.left inner = o.toList := by simp [hl,hlo]
      refine .inl ⟨_,_,turn_flush hr hf,?_,hu,.inl ⟨rfl,?_⟩⟩
      · cases o <;> simp [hlast]
      · cases o <;> simp [hlast,hlu]
  · obtain ⟨o,t,hr,ht,_,ha,_,hd⟩ := L.ready_spec inner hi
    cases o with
    | some item =>
      exact .inl ⟨_,_,turn_item (.inr rfl) hr,by simp [ha],ht,.inr ⟨rfl,chunks,rfl,by simp [ha]⟩⟩
    | none =>
      cases chunks with
      | nil =>
        obtain ⟨u,hf,hu,hlu⟩ := L.finish_spec t ht (hd rfl)
        exact .inr ⟨_,turn_end hr hf,hu,.inl ⟨rfl,by simp [ha,hlu]⟩⟩
      | cons bytes chunks =>
        obtain ⟨u,hf,hu,_,hau⟩ := L.feed_spec t bytes ht (hd rfl)
        exact .inr ⟨_,turn_chunk hr hf,hu,.inr ⟨rfl,chunks,rfl,by simp [ha,hau]⟩⟩

theorem next_ahead {s : IterState σ} {items : List ι} (h : Ahead L s items) :
    ∃ t, next S s = some (.ok items.head?,t) ∧ Ahead L t items.tail := by
  obtain ⟨r,t,ht,rfl,ha⟩ := next_of_turn (S := S) (P := fun s => Ahead L s items)
    (Q := fun r t => r = .ok items.head? ∧ Ahead L t items.tail) (fun s => turn_ahead L) s h
  exact ⟨t,ht,ha⟩

/-- No request was made too early: `early` of the chunks requested before the last one was
always below `p`. What has been given out so far is the first of what the chunks complete. -/
structure Paced (origin : σ) (chunks : List Bytes) (y p : ℕ) (s : IterState σ) : Prop where
  inv : L.Inv s.inner
  prompt : ∀ m < chunks.length+1-s.stream.remaining,
    (L.early origin (chunks.take m)).length < p
  given : s.finished = false → ∃ pre post items, chunks = pre++post ∧
    s.stream = ⟨some (post.map .ok),false⟩ ∧ items.length ≤ y ∧
    ∀ ds, L.early origin (pre++ds) = items++L.early s.inner ds

variable {L} {origin : σ} {chunks : List Bytes} {y p : ℕ} {s : IterState σ}

theorem Paced.mono {y' p' : ℕ} (h : Paced L origin chunks y p s) (hy : y ≤ y') (hp : p ≤ p') :
    Paced L origin chunks y' p' s where
  inv := h.inv
  prompt := fun m hm => Nat.lt_of_lt_of_le (h.prompt m hm) hp
  given := fun hf => by
    obtain ⟨pre,post,items,hc,hs,hl,he⟩ := h.given hf
    exact ⟨pre,post,items,hc,hs,Nat.le_trans hl hy,he⟩

/-- A pass asks for a chunk only when everything the chunks so far complete is given out. -/
theorem turn_paced (h : Paced L origin chunks y (y+1) s) :
    (∃ r t, turn S s = .done (some (r,t)) ∧ Paced L origin chunks (y+1) (y+1) t) ∨
      ∃ t, turn S s = .again t ∧ Paced L origin chunks y (y+1) t := by
  obtain ⟨stream,inner,finished⟩ := s
  obtain ⟨o,t,hr,ht,he,_,_,hd⟩ := L.ready_spec inner h.inv
  cases finished with
  | true =>
    cases o with
    | some item => exact .inl ⟨_,_,turn_item (.inl rfl) hr,ht,h.prompt,by simp⟩
    | none =>
      obtain ⟨o,u,hf,hu,_,_⟩ := L.flush_spec t ht (hd rfl)
      exact .inl ⟨_,_,turn_flush hr hf,hu,h.prompt,by simp⟩
  | false =>
    obtain ⟨pre,post,items,rfl,rfl,hl,hg⟩ := h.given rfl
    cases o with
    | some item =>
      refine .inl ⟨_,_,turn_item (.inr rfl) hr,ht,h.prompt,fun _ => ?_⟩
      refine ⟨pre,post,items++[item],rfl,rfl,by simpa using hl,fun ds => ?_⟩
      have hgd : L.early origin (pre++ds) = items++L.early inner ds := hg ds
      simp [hgd,he]
    | none =>
      -- nothing that the chunks before this request complete is still to be given out
      have hpre : (L.early origin pre).length < y+1 := by
        have hg0 : L.early origin (pre++[]) = items++L.early inner [] := hg []
        rw [List.append_nil] at hg0
        simp only [hg0,he,L.drained_early t ht (hd rfl),Option.toList_none,List.append_nil]
        omega
      have hprompt : ∀ m < pre.length+1,
          (L.early origin ((pre++post).take m)).length < y+1 := by
        intro m hm
        rcases Nat.lt_succ_iff_lt_or_eq.mp hm with hlt | rfl
        · exact h.prompt m (by simp; omega)
        · simpa using hpre
      cases post with
      | nil =>
        obtain ⟨u,hf,hu,_⟩ := L.finish_spec t ht (hd rfl)
        exact .inr ⟨_,turn_end hr hf,hu,by simpa using hprompt,by simp⟩
      | cons bytes post =>
        obtain ⟨u,hf,hu,hfe,_⟩ := L.feed_spec t bytes ht (hd rfl)
        refine .inr ⟨_,turn_chunk hr hf,hu,?_,fun _ => ?_⟩
        · intro m hm
          exact hprompt m (by simp at hm; omega)
        · refine ⟨pre++[bytes],post,items,by simp,rfl,hl,fun ds => ?_⟩
          have hgd : L.early origin (pre++bytes::ds) = items++L.early inner (bytes::ds) :=
            hg (bytes::ds)
          simp [hgd,he,hfe]

theorem next_paced {t : IterState σ} {r : Except RqxCoreError (Option ι)}
    (h : Paced L origin chunks y y s) (ht : next S s = some (r,t)) :
    Paced L origin chunks (y+1) (y+1) t := by
  obtain ⟨r',t',ht',hp⟩ := next_of_turn (S := S) (P := Paced L origin chunks y (y+1))
    (Q := fun _ => Paced L origin chunks (y+1) (y+1)) (fun s => turn_paced) s
    (h.mono (Nat.le_refl _) (by omega))
  obtain ⟨rfl,rfl⟩ : r' = r ∧ t' = t := by simpa [ht'] using ht
  exact hp

/-- A stream that ends normally: the calls give out every item, then the end every time,
and no call asks for a chunk while the chunks so far complete its item. -/
theorem calls_yield (L : Laws S) {inner : σ} (hi : L.Inv inner) (chunks : List Bytes) (k : ℕ) :
    ∃ t, calls (next S) k ⟨.new (chunks.map .ok),inner,false⟩ =
        some ((List.range k).map fun i => .ok (L.all inner chunks)[i]?,t) ∧
      ∀ m < chunks.length+1-t.stream.remaining, (L.early inner (chunks.take m)).length < k := by
  have ha : Ahead L ⟨.new (chunks.map .ok),inner,false⟩ (L.all inner chunks) :=
    ⟨hi,.inr ⟨rfl,chunks,rfl,rfl⟩⟩
  have hp : Paced L inner chunks 0 0 ⟨.new (chunks.map .ok),inner,false⟩ :=
    ⟨hi,by simp [LiveStream.new],fun _ => ⟨[],chunks,[],rfl,rfl,(Nat.le_refl _),fun _ => rfl⟩⟩
  obtain ⟨t,ht,_,hq⟩ := calls_of_next (S := S)
    (P := fun i s => Ahead L s ((L.all inner chunks).drop i) ∧ Paced L inner chunks i i s)
    (r := fun i => .ok (L.all inner chunks)[i]?)
    (fun i s ⟨ha,hp⟩ => by
      obtain ⟨t,ht,hat⟩ := next_ahead L ha
      rw [List.head?_drop] at ht
      exact ⟨t,ht,by simpa using hat,next_paced hp ht⟩)
    k (i := 0) ⟨by simpa using ha,hp⟩
  exact ⟨t,by simpa using ht,by simpa using hq.prompt⟩

/-! ## A stream that fails -/

/-- The iterator has `items` still to give out before the read fails with `e`. -/
def Failing (L : Laws S) (e : ReqwestError) (s : IterState σ) (items : List ι) : Prop :=
  L.Inv s.inner ∧ s.finished = false ∧ ∃ chunks rest,
    s.stream = ⟨some (chunks.map .ok++.error e::rest),false⟩ ∧ items = L.early s.inner chunks

/-- After a failed read: the stream is gone, and what is buffered completes nothing. -/
def Failed (L : Laws S) (s : IterState σ) : Prop :=
  L.Inv s.inner ∧ L.Drained s.inner ∧ s.finished = false ∧ s.stream.stream = none

/-- The result of each call on a stream that fails after `items`. -/
def failing (items : List ι) (e : ReqwestError) (i : ℕ) : Except RqxCoreError (Option ι) :=
  match items[i]? with
  | some item => .ok (some item)
  | none => .error (if i = items.length then .fromReqwest e else LiveStream.responseClosed)

theorem turn_failing {items : List ι} {e : ReqwestError} (h : Failing L e s items) :
    (∃ r t, turn S s = .done (some (r,t)) ∧
      ((∃ item rest, items = item::rest ∧ r = .ok (some item) ∧ Failing L e t rest) ∨
        (items = [] ∧ r = .error (.fromReqwest e) ∧ Failed L t))) ∨
      ∃ t, turn S s = .again t ∧ Failing L e t items := by
  obtain ⟨stream,inner,finished⟩ := s
  obtain ⟨hi,rfl,chunks,rest,rfl,rfl⟩ := h
  obtain ⟨o,t,hr,ht,he,_,_,hd⟩ := L.ready_spec inner hi
  cases o with
  | some item =>
    refine .inl ⟨_,_,turn_item (.inr rfl) hr,.inl ⟨item,_,he chunks,rfl,ht,rfl,?_⟩⟩
    exact ⟨chunks,rest,rfl,rfl⟩
  | none =>
    cases chunks with
    | nil =>
      refine .inl ⟨_,_,turn_error hr,.inr ⟨?_,rfl,ht,hd rfl,rfl,rfl⟩⟩
      simp [he,L.drained_early t ht (hd rfl)]
    | cons bytes chunks =>
      obtain ⟨u,hf,hu,hfe,_⟩ := L.feed_spec t bytes ht (hd rfl)
      refine .inr ⟨_,turn_chunk hr hf,hu,rfl,chunks,rest,rfl,?_⟩
      simp [he,hfe]

theorem turn_failed (h : Failed L s) :
    ∃ t, turn S s = .done (some (.error LiveStream.responseClosed,t)) ∧ Failed L t := by
  obtain ⟨⟨stream,closed⟩,inner,finished⟩ := s
  obtain ⟨hi,hdr,rfl,rfl⟩ := h
  cases closed with
  | true => exact ⟨⟨⟨none,true⟩,inner,false⟩,by simp [turn],hi,hdr,rfl,rfl⟩
  | false =>
    obtain ⟨o,t,hr,ht,he,_,_,hd⟩ := L.ready_spec inner hi
    have ho : o.toList++L.early t [] = [] := by rw [← he,L.drained_early inner hi hdr]
    cases o with
    | some item => simp at ho
    | none =>
      refine ⟨⟨⟨none,false⟩,t,false⟩,?_,ht,hd rfl,rfl,rfl⟩
      simp [turn,hr,LiveStream.nextChunk_none]

theorem next_failed (h : Failed L s) :
    ∃ t, next S s = some (.error LiveStream.responseClosed,t) ∧ Failed L t := by
  obtain ⟨t,ht,hf⟩ := turn_failed h
  exact ⟨t,next_done S ht,hf⟩

theorem next_failing {items : List ι} {e : ReqwestError} (h : Failing L e s items) :
    (∃ item rest t, items = item::rest ∧ next S s = some (.ok (some item),t) ∧
      Failing L e t rest) ∨
    (∃ t, items = [] ∧ next S s = some (.error (.fromReqwest e),t) ∧ Failed L t) := by
  obtain ⟨r,t,ht,⟨item,rest,rfl,rfl,hf⟩ | ⟨rfl,rfl,hf⟩⟩ := next_of_turn (S := S)
    (P := fun s => Failing L e s items)
    (Q := fun r t => (∃ item rest, items = item::rest ∧ r = .ok (some item) ∧ Failing L e t rest) ∨
      (items = [] ∧ r = .error (.fromReqwest e) ∧ Failed L t)) (fun _ => turn_failing) s h
  · exact .inl ⟨item,rest,t,rfl,ht,hf⟩
  · exact .inr ⟨t,rfl,ht,hf⟩

/-- Nothing that happens after the failure brings the stream back. -/
theorem reaches_failed {t : IterState σ} (h : Failed L s) (ht : Reaches S s t) : Failed L t := by
  induction ht with
  | start => exact h
  | again _ hu ih =>
    obtain ⟨v,hv,_⟩ := turn_failed ih
    simp [hv] at hu
  | done _ hu ih =>
    obtain ⟨v,hv,hf⟩ := turn_failed ih
    obtain ⟨rfl,rfl⟩ : _ ∧ v = _ := by simpa [hv] using hu
    exact hf
  | close _ ih => exact ⟨ih.1,ih.2.1,ih.2.2.1,rfl⟩

/-- A stream that fails: the calls give out the items the chunks complete, then the error
once. After it every call is refused and the stream is gone, closes included. -/
theorem calls_fail (L : Laws S) {inner : σ} (hi : L.Inv inner) (chunks : List Bytes)
    (e : ReqwestError) (rest : ChunkStream) (k : ℕ) :
    ∃ t, calls (next S) k ⟨.new (chunks.map .ok++.error e::rest),inner,false⟩ =
        some ((List.range k).map (failing (L.early inner chunks) e),t) ∧
      ((L.early inner chunks).length < k → ∀ u, Reaches S t u →
        u.stream.stream = none ∧ ∃ v, next S u = some (.error LiveStream.responseClosed,v)) := by
  have hstart : Failing L e ⟨.new (chunks.map .ok++.error e::rest),inner,false⟩
      (L.early inner chunks) := ⟨hi,rfl,chunks,rest,rfl,rfl⟩
  generalize L.early inner chunks = items at hstart ⊢
  obtain ⟨t,ht,hq⟩ := calls_of_next (S := S) (r := failing items e)
    (P := fun i s => (i ≤ items.length ∧ Failing L e s (items.drop i)) ∨
      (items.length < i ∧ Failed L s))
    (fun i s hs => by
      rcases hs with ⟨hl,hf⟩ | ⟨hl,hf⟩
      · rcases next_failing hf with ⟨item,rest,t,hc,hn,hft⟩ | ⟨t,hc,hn,hft⟩
        · have hi : items[i]? = some item := by rw [← List.head?_drop,hc]; rfl
          have hd : items.drop (i+1) = rest := by rw [← List.tail_drop,hc]; rfl
          have hlt : i < items.length := (List.getElem?_eq_some_iff.mp hi).1
          exact ⟨t,by simpa [failing,hi] using hn,.inl ⟨hlt,by rwa [hd]⟩⟩
        · have hle : items.length ≤ i := List.drop_eq_nil_iff.mp hc
          have he : i = items.length := Nat.le_antisymm hl hle
          exact ⟨t,by simpa [failing,he] using hn,.inr ⟨by omega,hft⟩⟩
      · obtain ⟨t,hn,hft⟩ := next_failed hf
        have hi : items[i]? = none := by simp; omega
        exact ⟨t,by simpa [failing,hi,Nat.ne_of_gt hl] using hn,.inr ⟨by omega,hft⟩⟩)
    k (i := 0) (.inl ⟨Nat.zero_le _,hstart⟩)
  refine ⟨t,by simpa using ht,fun hk u hu => ?_⟩
  rcases hq with ⟨hl,_⟩ | ⟨_,hf⟩
  · omega
  · have hfu := reaches_failed hf hu
    obtain ⟨v,hv,_⟩ := next_failed hfu
    exact ⟨hfu.2.2.2,v,hv⟩

/-! ## Every run -/

/-- A pass keeps the invariant and does not panic, whatever the stream does. -/
theorem turn_inv (h : L.Inv s.inner) :
    (∃ r t, turn S s = .done (some (r,t)) ∧ L.Inv t.inner) ∨ ∃ t, turn S s = .again t ∧ L.Inv t.inner := by
  obtain ⟨stream,inner,finished⟩ := s
  obtain ⟨o,t,hr,ht,_,_,_,hd⟩ := L.ready_spec inner h
  cases finished with
  | true =>
    cases o with
    | some item => exact .inl ⟨_,_,turn_item (.inl rfl) hr,ht⟩
    | none =>
      obtain ⟨o,u,hf,hu,_,_⟩ := L.flush_spec t ht (hd rfl)
      exact .inl ⟨_,_,turn_flush hr hf,hu⟩
  | false =>
    obtain ⟨script,closed⟩ := stream
    cases closed with
    | true => exact .inl ⟨_,⟨⟨script,true⟩,inner,false⟩,by simp [turn]; rfl,h⟩
    | false =>
      cases o with
      | some item => exact .inl ⟨_,_,turn_item (.inr rfl) hr,ht⟩
      | none =>
        rcases script with _ | _ | ⟨e | bytes,rest⟩
        · exact .inl ⟨_,⟨⟨none,false⟩,t,false⟩,by simp [turn,hr,LiveStream.nextChunk_none]; rfl,ht⟩
        · obtain ⟨u,hf,hu,_⟩ := L.finish_spec t ht (hd rfl)
          exact .inr ⟨_,turn_end hr hf,hu⟩
        · exact .inl ⟨_,_,turn_error hr,ht⟩
        · obtain ⟨u,hf,hu,_⟩ := L.feed_spec t bytes ht (hd rfl)
          exact .inr ⟨_,turn_chunk hr hf,hu⟩

theorem reaches_inv {t : IterState σ} (h : L.Inv s.inner) (ht : Reaches S s t) : L.Inv t.inner := by
  induction ht with
  | start => exact h
  | again _ hu ih =>
    rcases turn_inv ih with ⟨r,v,hv,_⟩ | ⟨v,hv,hi⟩
    · simp [hv] at hu
    · obtain rfl : v = _ := by simpa [hv] using hu
      exact hi
  | done _ hu ih =>
    rcases turn_inv ih with ⟨r,v,hv,hi⟩ | ⟨v,hv,_⟩
    · obtain ⟨rfl,rfl⟩ : _ ∧ v = _ := by simpa [hv] using hu
      exact hi
    · simp [hv] at hu
  | close _ ih => exact ih

end IterState
end Rqx
