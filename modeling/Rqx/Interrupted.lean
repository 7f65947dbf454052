import Rqx.IterState

/-! An iterator whose response may be closed between two of its calls: what each call
returns, told from how many came before it and before the close. -/
namespace Rqx

/-- The chunks that arrive, and the error the body then breaks off with, if it does. -/
def arrived : ChunkStream → List Bytes × Option ReqwestError
  | [] => ([],none)
  | .error e::_ => ([],some e)
  | .ok bytes::rest => (bytes::(arrived rest).1,(arrived rest).2)

/-- What an iterator gives out over one body: the items that the arriving chunks complete,
all of them once the end is known, and the error if the end never comes. -/
structure Plan (ι : Type) where
  early : List ι
  all : List ι
  error : Option ReqwestError

namespace Plan

variable {ι : Type}

/-- Call number `y` of an iterator that nobody closes. -/
def result (P : Plan ι) (y : ℕ) : Except RqxCoreError (Option ι) :=
  match P.error with
  | none => .ok P.all[y]?
  | some e => IterState.failing P.early e y

/-- The first `y` calls have reached the end of the body, or its error. -/
def Over (P : Plan ι) (y : ℕ) : Prop := P.early.length < y

/-- The end was known before the close: what is buffered is still given out. -/
def Survives (P : Plan ι) (cut : ℕ) : Prop := P.error = none ∧ P.Over cut

instance (P : Plan ι) (y : ℕ) : Decidable (P.Over y) := inferInstanceAs (Decidable (_ < y))
instance (P : Plan ι) (cut : ℕ) : Decidable (P.Survives cut) :=
  inferInstanceAs (Decidable (_ ∧ _))

/-- Call number `y`, when the first close came after `cut` calls, if there was one. -/
def resultCut (P : Plan ι) (cut : Option ℕ) (y : ℕ) : Except RqxCoreError (Option ι) :=
  if ∀ c ∈ cut, P.Survives c then P.result y else .error LiveStream.responseClosed

/-- What is left after the first `y` calls. -/
def drop (P : Plan ι) (y : ℕ) : Plan ι := ⟨P.early.drop y,P.all.drop y,P.error⟩

def map {κ : Type} (f : ι → κ) (P : Plan ι) : Plan κ := ⟨P.early.map f,P.all.map f,P.error⟩

end Plan

namespace IterState

variable {σ ι : Type} {S : Source σ ι} (L : Laws S)

/-- What an iterator that starts from `inner` gives out over the body. -/
def plan (inner : σ) (response : ChunkStream) : Plan ι :=
  ⟨L.early inner (arrived response).1,L.all inner (arrived response).1,(arrived response).2⟩

/-- Where the iterator is after `y` calls and a close after `cut` of them, if there was one. -/
inductive Stage (P : Plan ι) (cut : Option ℕ) (y : ℕ) (s : IterState σ) : Prop
  | going (rest : ChunkStream) (hi : L.Inv s.inner) (hs : s.stream = ⟨some rest,false⟩)
      (hf : s.finished = false) (hcut : cut = none) (hy : ¬P.Over y)
      (hplan : plan L s.inner rest = P.drop y)
  | ended (hi : L.Inv s.inner) (hs : s.stream.stream = none) (hf : s.finished = true)
      (hcut : ∀ c ∈ cut, P.Survives c) (he : P.error = none) (hy : P.Over y)
      (hl : L.left s.inner = P.all.drop y)
  | failed (hs : Failed L s) (he : P.error ≠ none) (hy : P.Over y)
  | cut (c : ℕ) (hs : s.stream = ⟨none,true⟩) (hf : s.finished = false) (hcut : cut = some c)
      (hc : ¬P.Survives c)

variable {L} {P : Plan ι} {cut : Option ℕ} {y : ℕ} {s : IterState σ}

theorem stage_new {inner : σ} (hi : L.Inv inner) (response : ChunkStream) :
    Stage L (plan L inner response) none 0 ⟨.new response,inner,false⟩ :=
  .going response hi rfl rfl rfl (by simp [Plan.Over]) (by simp [Plan.drop,plan])

theorem Stage.stream_isSome (h : Stage L P cut y s) :
    s.stream.stream.isSome = true ↔ cut = none ∧ ¬P.Over y := by
  cases h with
  | going rest _ hs _ hcut hy => simp [hs,hcut,hy]
  | ended _ hs _ _ _ hy => simp [hs,hy]
  | failed hs _ hy => simp [hs.2.2.2,hy]
  | cut c hs _ hcut => simp [hs,hcut]

theorem Stage.isClosed (h : Stage L P cut y s) :
    s.stream.isClosed = true ↔ cut ≠ none ∨ P.Over y := by
  cases h with
  | going rest _ hs _ hcut hy => simp [LiveStream.isClosed,hs,hcut,hy]
  | ended _ hs _ _ _ hy => simp [LiveStream.isClosed,hs,hy]
  | failed hs _ hy => simp [LiveStream.isClosed,hs.2.2.2,hy]
  | cut c hs _ hcut => simp [LiveStream.isClosed,hs,hcut]

/-- A close ends the iterator, unless the end of the body had been reached. -/
theorem Stage.close (h : Stage L P cut y s) :
    Stage L P (cut <|> some y) y { s with stream := s.stream.close } := by
  cases h with
  | going rest hi hs hf hcut hy hplan =>
    subst hcut
    exact .cut y rfl hf rfl fun hc => hy hc.2
  | ended hi hs hf hcut he hy hl =>
    refine .ended hi rfl hf (fun c hc => ?_) he hy hl
    cases cut with
    | none =>
      obtain rfl : y = c := by simpa using hc
      exact ⟨he,hy⟩
    | some c' => exact hcut c hc
  | failed hs he hy => exact .failed ⟨hs.1,hs.2.1,hs.2.2.1,rfl⟩ he hy
  | cut c hs hf hcut hc =>
    subst hcut
    exact .cut c rfl hf rfl hc

/-- Inside a call: going, or the end has just been reached. -/
def Midway (L : Laws S) (P : Plan ι) (y : ℕ) (s : IterState σ) : Prop :=
  Stage L P none y s ∨ L.Inv s.inner ∧ s.stream.stream = none ∧ s.finished = true ∧
    P.error = none ∧ P.Over (y+1) ∧ L.left s.inner = P.all.drop y

theorem turn_ended (hi : L.Inv s.inner) (hs : s.stream.stream = none) (hf : s.finished = true)
    (hl : L.left s.inner = P.all.drop y) :
    ∃ t, turn S s = .done (some (.ok P.all[y]?,t)) ∧ L.Inv t.inner ∧ t.stream = s.stream ∧
      t.finished = true ∧ L.left t.inner = P.all.drop (y+1) := by
  obtain ⟨stream,inner,finished⟩ := s
  obtain rfl : finished = true := hf
  obtain ⟨o,t,hr,ht,_,_,hlo,hd⟩ := L.ready_spec inner hi
  rw [← List.head?_drop,← List.tail_drop,← hl]
  cases o with
  | some item =>
      exact ⟨⟨stream,t,true⟩,by rw [turn_item (.inl rfl) hr]; simp [hlo],ht,rfl,rfl,by simp [hlo]⟩
  | none =>
    obtain ⟨o,u,hf,hu,hlt,hlu⟩ := L.flush_spec t ht (hd rfl)
    refine ⟨⟨stream,u,true⟩,?_,hu,rfl,rfl,?_⟩
    · rw [turn_flush hr hf]
      cases o <;> simp [hlo,hlt]
    · cases o <;> simp [hlo,hlt,hlu]

theorem result_of_over {e : ReqwestError} (he : P.error = some e) (hy : P.Over y) :
    P.result y = .error LiveStream.responseClosed := by
  have hnone : P.early[y]? = none := List.getElem?_eq_none (Nat.le_of_lt hy)
  simp [Plan.result,he,failing,hnone,Nat.ne_of_gt hy]

theorem turn_going {rest : ChunkStream} {inner : σ} (hi : L.Inv inner) (hy : ¬P.Over y)
    (hplan : plan L inner rest = P.drop y) :
    (∃ r t, turn S ⟨⟨some rest,false⟩,inner,false⟩ = .done (some (r,t)) ∧ r = P.result y ∧
      Stage L P none (y+1) t) ∨
      ∃ t, turn S ⟨⟨some rest,false⟩,inner,false⟩ = .again t ∧ Midway L P y t := by
  obtain ⟨o,t,hr,ht,he,ha,_,hd⟩ := L.ready_spec inner hi
  have hearly : P.early.drop y = o.toList++L.early t (arrived rest).1 := by
    rw [← he]
    exact (congrArg Plan.early hplan).symm
  have hall : P.all.drop y = o.toList++L.all t (arrived rest).1 := by
    rw [← ha]
    exact (congrArg Plan.all hplan).symm
  have herror : (arrived rest).2 = P.error := congrArg Plan.error hplan
  cases o with
  | some item =>
    have hitem : P.early[y]? = some item := by simp [← List.head?_drop,hearly]
    have hlt : ¬P.Over (y+1) := by
      have hl := (List.getElem?_eq_some_iff.mp hitem).1
      simp [Plan.Over]
      omega
    refine .inl ⟨_,_,turn_item (.inr rfl) hr,?_,.going rest ht rfl rfl rfl hlt ?_⟩
    · cases hp : P.error with
      | none => simp [Plan.result,hp,← List.head?_drop,hall]
      | some e => simp [Plan.result,hp,failing,hitem]
    · simp [plan,Plan.drop,← List.tail_drop,hearly,hall,herror]
  | none =>
    have hdr := hd rfl
    rcases rest with _ | ⟨e | bytes,rest⟩
    · have hn : P.Over (y+1) := by
        have hle : P.early.length ≤ y := by
          rw [← List.drop_eq_nil_iff,hearly]
          simpa [arrived] using L.drained_early t ht hdr
        exact Nat.lt_succ_of_le hle
      obtain ⟨u,hf,hu,hlu⟩ := L.finish_spec t ht hdr
      refine .inr ⟨_,turn_end hr hf,.inr ⟨hu,rfl,rfl,herror.symm,hn,?_⟩⟩
      rw [hall,← hlu]
      rfl
    · have hle : P.early.length ≤ y := by
        rw [← List.drop_eq_nil_iff,hearly]
        simpa [arrived] using L.drained_early t ht hdr
      have hp : P.error = some e := herror.symm
      have hye : y = P.early.length := Nat.le_antisymm (Nat.le_of_not_lt hy) hle
      refine .inl ⟨_,_,turn_error hr,?_,.failed ⟨ht,hdr,rfl,rfl⟩ (by simp [hp]) ?_⟩
      · simp [Plan.result,hp,failing,hye]
      · exact Nat.lt_succ_of_le hle
    · obtain ⟨u,hf,hu,hfe,hfa⟩ := L.feed_spec t bytes ht hdr
      refine .inr ⟨_,turn_chunk hr hf,.inl (.going rest hu rfl rfl rfl hy ?_)⟩
      simp only [plan,Plan.drop,hearly,hall,← herror,arrived,hfe,hfa,Option.toList_none,
        List.nil_append]

theorem turn_midway (h : Midway L P y s) :
    (∃ r t, turn S s = .done (some (r,t)) ∧ r = P.result y ∧ Stage L P none (y+1) t) ∨
      ∃ t, turn S s = .again t ∧ Midway L P y t := by
  rcases h with h | ⟨hi,hs,hf,he,hy,hl⟩
  · cases h with
    | going rest hi hs hf _ hy hplan =>
      obtain ⟨stream,inner,finished⟩ := s
      obtain rfl : stream = _ := hs
      obtain rfl : finished = false := hf
      exact turn_going hi hy hplan
    | ended hi hs hf hcut he hy hl =>
      obtain ⟨t,ht,hti,hts,htf,htl⟩ := turn_ended hi hs hf hl
      exact .inl ⟨_,t,ht,by simp [Plan.result,he],
        .ended hti (hts ▸ hs) htf hcut he (Nat.lt_succ_of_lt hy) htl⟩
    | failed hs he hy =>
      obtain ⟨e,he'⟩ := Option.ne_none_iff_exists'.mp he
      obtain ⟨t,ht,hf⟩ := turn_failed hs
      exact .inl ⟨_,t,ht,(result_of_over he' hy).symm,.failed hf he (Nat.lt_succ_of_lt hy)⟩
    | cut c _ _ hcut => simp at hcut
  · obtain ⟨t,ht,hti,hts,htf,htl⟩ := turn_ended hi hs hf hl
    exact .inl ⟨_,t,ht,by simp [Plan.result,he],
      .ended hti (hts ▸ hs) htf (by simp) he hy htl⟩

theorem Stage.next (h : Stage L P cut y s) :
    ∃ t, next S s = some (P.resultCut cut y,t) ∧ Stage L P cut (y+1) t := by
  cases cut with
  | none =>
    obtain ⟨r,t,ht,rfl,hs⟩ := next_of_turn (S := S) (P := Midway L P y)
      (Q := fun r t => r = P.result y ∧ Stage L P none (y+1) t) (fun s => turn_midway) s (.inl h)
    exact ⟨t,by simpa [Plan.resultCut] using ht,hs⟩
  | some c =>
    cases h with
    | going _ _ _ _ hcut => simp at hcut
    | ended hi hs hf hcut he hy hl =>
      obtain ⟨t,ht,hti,hts,htf,htl⟩ := turn_ended hi hs hf hl
      refine ⟨t,?_,.ended hti (hts ▸ hs) htf hcut he (Nat.lt_succ_of_lt hy) htl⟩
      rw [Plan.resultCut,if_pos hcut,Plan.result,he]
      exact next_done S ht
    | failed hs he hy =>
      obtain ⟨t,ht,hf⟩ := next_failed hs
      refine ⟨t,?_,.failed hf he (Nat.lt_succ_of_lt hy)⟩
      rw [Plan.resultCut,if_neg (by simp [Plan.Survives,he])]
      exact ht
    | cut c' hs hf hcut hc =>
      obtain rfl : c = c' := by simpa using hcut
      refine ⟨s,?_,.cut c hs hf rfl hc⟩
      rw [Plan.resultCut,if_neg (by simpa using hc)]
      exact next_done S (by simp [turn,hs,hf])

end IterState
end Rqx
