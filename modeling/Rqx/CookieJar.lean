import Rqx.FinalResponse
import Rqx.Runs
import Mathlib.Data.List.Nodup

/-! Concurrent sends on clones of one `Client`, which share its cookie jar, action by action;
and how often the cookies of each response are merged into it. -/
namespace Rqx

namespace CookieJar
open Client

/-- Where a send stands. A response goes by how many there had been before it. -/
inductive Stage
  /-- `Transport::send` is under way. -/
  | Sending (s : RedirectState Unit)
  /-- `follow_redirects` has a response, and has not looked at it yet. -/
  | Received (s : RedirectState Unit) (hop : PendingResponse) (id : ℕ)
  /-- `send` has the response it is to return. -/
  | Returning (pending : PendingResponse) (id : ℕ)
  | Ended (result : Except RqxCoreError PendingResponse)

structure Send where
  follow : Bool
  stage : Stage

/-- The jar, the sends there have been, the cookies of every response so far, and which of the
responses have had their cookies merged, in that order. -/
structure State where
  cookies : Cookies
  sends : List Send
  obtained : List Cookies
  merged : List ℕ

def new (cookies : Cookies) : State := ⟨cookies,[],[],[]⟩

inductive Action
  | send (request : Request) (follow : Bool)
  /-- `Transport::send` comes back. -/
  | respond (i : ℕ) (result : Except RqxCoreError PendingResponse)
  /-- The send takes the lock of the jar if it has something to merge, and goes on to its
  next request or to its end. -/
  | proceed (i : ℕ)

/-- The send `i` has got to the given stage. -/
def State.store (s : State) (i : ℕ) (send : Send) (stage : Stage) : State :=
  { s with sends := s.sends.set i { send with stage } }

/-- The log of merges after `accumulate_cookies`, which leaves an empty map alone. -/
def State.log (s : State) (id : ℕ) (respCookies : Cookies) : List ℕ :=
  if respCookies.isEmpty then s.merged else s.merged++[id]

/-- Where a pass of the loop leads, and the jar it leaves behind. -/
def next (id : ℕ) :
    Pass (RedirectState Unit) (Except RqxCoreError PendingResponse × RedirectState Unit) →
      Stage × Cookies
  | .done (.ok pending,s) => (.Returning pending id,s.cookies)
  | .done (.error e,s) => (.Ended (.error e),s.cookies)
  | .again s => (.Sending s,s.cookies)

/-- Requests and drained bodies go through the actions here, not through the transport. -/
def offline : Transport Unit := ⟨fun _ world => (.error (.RequestError ""),world),fun _ world => world⟩

section Step

variable (crate : UrlCrate) (redirects : RedirectPolicy)

/-- `follow_redirects` goes on with the response it has; inside the loop only a 3xx is merged. -/
def State.follow (s : State) (i : ℕ) (send : Send) (u : RedirectState Unit) (hop : PendingResponse)
    (id : ℕ) : State :=
  let (stage,cookies) := next id (receive crate offline redirects { u with cookies := s.cookies } hop)
  let merged := if hop.is3xx then s.log id hop.parts.cookies else s.merged
  { s.store i send stage with cookies, merged }

def step (s : State) : Action → Option State
  | .send request follow =>
    some { s with sends := s.sends++[⟨follow,.Sending (redirectStart request s.cookies ())⟩] }
  | .respond i result => do
    let send ← s.sends[i]?
    match send.stage with
    | .Sending u =>
      match result with
      | .error e => some (s.store i send (.Ended (.error e)))
      | .ok hop =>
        let id := s.obtained.length
        let s := { s with obtained := s.obtained++[hop.parts.cookies] }
        if send.follow then some (s.store i send (.Received u hop id))
        else some (s.store i send (.Returning hop id))
    | _ => none
  | .proceed i => do
    let send ← s.sends[i]?
    match send.stage with
    | .Received u hop id => some (s.follow crate redirects i send u hop id)
    | .Returning pending id =>
      some { s.store i send (.Ended (.ok pending)) with
        cookies := accumulateCookies s.cookies pending.parts.cookies
        merged := s.log id pending.parts.cookies }
    | _ => none

end Step

/-! ## Held and merged -/

/-- The response whose cookies the send is about to merge, or to drop. -/
def Stage.held : Stage → Option (ℕ × Cookies)
  | .Received _ hop id => some (id,hop.parts.cookies)
  | .Returning pending id => some (id,pending.parts.cookies)
  | .Sending _ | .Ended _ => none

def Stage.holds (id : ℕ) (stage : Stage) : Bool := stage.held.any fun p => p.1 = id

def State.holders (s : State) (id : ℕ) : ℕ := s.sends.countP fun send => send.stage.holds id

/-- How often the response has been merged or is still to be. -/
def State.due (s : State) (id : ℕ) : ℕ := s.merged.count id+s.holders id

/-- The maps that have been merged, in that order. -/
def State.merges (s : State) : List Cookies := s.merged.map fun id => s.obtained.getD id []

/-- A response with cookies is merged once, by the one send that holds it until then; and the
jar is what the merges make of it, one after the other, the last one to set a name winning. -/
structure MergedOnce (cookies : Cookies) (s : State) : Prop where
  once : ∀ id respCookies, s.obtained[id]? = some respCookies → respCookies ≠ [] → s.due id = 1
  nodup : s.merged.Nodup
  jar : s.cookies = s.merges.foldl accumulateCookies cookies

/-- The loop is about to hand the response to `send` although it merges it itself: a redirect
with cookies, one too many, that is not raised. -/
def Stage.overruns (redirects : RedirectPolicy) : Stage → Bool
  | .Received s hop _ => hop.is3xx && !hop.parts.cookies.isEmpty &&
      redirects.maxRedirects ≤ s.redirectsUsed+1 && !redirects.raiseOnExceeded
  | _ => false

/-- The step does not return a redirect with cookies from the loop. -/
def Action.NotOverrun (redirects : RedirectPolicy) (s : State) : Action → Prop
  | .proceed i => ∀ send ∈ s.sends[i]?, send.stage.overruns redirects = false
  | _ => True

instance (redirects : RedirectPolicy) (s : State) : (a : Action) → Decidable (a.NotOverrun redirects s)
  | .proceed i =>
    inferInstanceAs (Decidable (∀ send ∈ s.sends[i]?, send.stage.overruns redirects = false))
  | .send _ _ | .respond _ _ => inferInstanceAs (Decidable True)

/-! ## What the loop does with a response -/

section Receive

variable {crate : UrlCrate} {redirects : RedirectPolicy} {u : RedirectState Unit}
  {hop : PendingResponse} {id : ℕ} {stage : Stage} {cookies : Cookies}

/-- A response that is not a 3xx goes to `send`, and the jar is left alone. -/
theorem next_final (h : hop.is3xx = false)
    (hn : next id (receive crate offline redirects u hop) = (stage,cookies)) :
    cookies = u.cookies ∧ stage.held = some (id,hop.parts.cookies) := by
  have hstatus : ¬ (300 ≤ hop.parts.statusCode ∧ hop.parts.statusCode < 400) := by
    rw [← PendingResponse.is3xx_iff,h]
    exact Bool.false_ne_true
  simp only [receive,if_pos hstatus] at hn
  cases hn
  exact ⟨rfl,rfl⟩

/-- A 3xx is merged, and then given up unless it is returned as one too many. -/
theorem next_redirect (h : hop.is3xx = true)
    (hn : next id (receive crate offline redirects u hop) = (stage,cookies)) :
    cookies = accumulateCookies u.cookies hop.parts.cookies ∧
      stage.held =
        if redirects.maxRedirects ≤ u.redirectsUsed+1 ∧ redirects.raiseOnExceeded = false then
          some (id,hop.parts.cookies)
        else none := by
  have hstatus := (PendingResponse.is3xx_iff hop).mp h
  simp only [receive,if_neg (not_not_intro hstatus)] at hn
  by_cases hused : redirects.maxRedirects ≤ u.redirectsUsed+1
  · rw [if_pos hused] at hn
    cases hraise : redirects.raiseOnExceeded with
    | true =>
      simp only [hraise,if_true] at hn
      cases hn
      exact ⟨rfl,by simp [Stage.held]⟩
    | false =>
      simp only [hraise,Bool.false_eq_true,if_false] at hn
      cases hn
      exact ⟨rfl,by simp [Stage.held,hused,PendingResponse.withRetries]⟩
  · rw [if_neg hused] at hn
    rw [if_neg fun hboth => hused hboth.1]
    cases hl : hop.parts.headers.getFirst "location" with
    | none =>
      simp only [hl] at hn
      cases hn
      exact ⟨rfl,rfl⟩
    | some location =>
      simp only [hl] at hn
      cases hr : Redirect.redirectTarget crate u.request.url location with
      | error e =>
        simp only [hr] at hn
        cases hn
        exact ⟨rfl,rfl⟩
      | ok url =>
        simp only [hr] at hn
        cases hn
        exact ⟨rfl,rfl⟩

end Receive

/-! ## The books -/

section Books

variable {s t : State} {i : ℕ} {send : Send}

@[simp] theorem holds_of_held {stage : Stage} {id k : ℕ} {respCookies : Cookies}
    (h : stage.held = some (id,respCookies)) : stage.holds k = decide (id = k) := by
  simp [Stage.holds,h]

@[simp] theorem holds_of_none {stage : Stage} {k : ℕ} (h : stage.held = none) :
    stage.holds k = false := by
  simp [Stage.holds,h]

theorem store_holders (h : s.sends[i]? = some send) (stage : Stage) (k : ℕ) :
    (s.store i send stage).holders k+(send.stage.holds k).toNat =
      s.holders k+(stage.holds k).toNat :=
  Runs.countP_set (fun send : Send => send.stage.holds k) h { send with stage }

/-- What a step does to the books; `overrun` is whether the send keeps what it merges. -/
inductive Effect (s : State) : (overrun : Bool) → State → Prop
  | started {send : Send} (hnew : send.stage.held = none) :
    Effect s false { s with sends := s.sends++[send] }
  | idle {i : ℕ} {send : Send} {stage : Stage} (h : s.sends[i]? = some send)
    (hold : send.stage.held = none) (hnew : stage.held = none) : Effect s false (s.store i send stage)
  | obtained {i : ℕ} {send : Send} {stage : Stage} {respCookies : Cookies}
    (h : s.sends[i]? = some send) (hold : send.stage.held = none)
    (hnew : stage.held = some (s.obtained.length,respCookies)) :
    Effect s false { s.store i send stage with obtained := s.obtained++[respCookies] }
  | passed {i id : ℕ} {send : Send} {stage : Stage} {respCookies : Cookies}
    (h : s.sends[i]? = some send) (hold : send.stage.held = some (id,respCookies))
    (hnew : stage.held = some (id,respCookies)) : Effect s false (s.store i send stage)
  | merged {i id : ℕ} {send : Send} {stage : Stage} {respCookies : Cookies} {kept : Bool}
    (h : s.sends[i]? = some send) (hold : send.stage.held = some (id,respCookies))
    (hnew : stage.held = if kept then some (id,respCookies) else none) :
    Effect s (kept && !respCookies.isEmpty) { s.store i send stage with
      cookies := accumulateCookies s.cookies respCookies, merged := s.log id respCookies }

theorem follow_effect {crate : UrlCrate} {redirects : RedirectPolicy} {u : RedirectState Unit}
    {hop : PendingResponse} {id : ℕ} (h : s.sends[i]? = some send)
    (hstage : send.stage = .Received u hop id) :
    Effect s (send.stage.overruns redirects) (s.follow crate redirects i send u hop id) := by
  have hold : send.stage.held = some (id,hop.parts.cookies) := by rw [hstage]; rfl
  cases hn : next id (receive crate offline redirects { u with cookies := s.cookies } hop) with
  | mk stage cookies =>
    cases hredirect : hop.is3xx with
    | false =>
      obtain ⟨rfl,hheld⟩ := next_final hredirect hn
      have hover : send.stage.overruns redirects = false := by
        simp [hstage,Stage.overruns,hredirect]
      have hstay : s.follow crate redirects i send u hop id = s.store i send stage := by
        simp [State.follow,State.store,hn,hredirect]
      rw [hover,hstay]
      exact .passed h hold hheld
    | true =>
      obtain ⟨rfl,hheld⟩ := next_redirect hredirect hn
      have hover : send.stage.overruns redirects =
          (decide (redirects.maxRedirects ≤ u.redirectsUsed+1 ∧ redirects.raiseOnExceeded = false) &&
            !hop.parts.cookies.isEmpty) := by
        rw [Bool.eq_iff_iff]
        simp [hstage,Stage.overruns,hredirect]
        tauto
      have hmerge : s.follow crate redirects i send u hop id = { s.store i send stage with
          cookies := accumulateCookies s.cookies hop.parts.cookies
          merged := s.log id hop.parts.cookies } := by
        simp [State.follow,State.store,hn,hredirect]
      rw [hover,hmerge]
      exact .merged h hold (by simpa using hheld)

theorem step_effect {crate : UrlCrate} {redirects : RedirectPolicy} {a : Action}
    (h : step crate redirects s a = some t) :
    ∃ overrun, Effect s overrun t ∧ (a.NotOverrun redirects s ↔ overrun = false) := by
  cases a with
  | send request follow =>
    cases h
    exact ⟨false,.started rfl,iff_of_true trivial rfl⟩
  | respond i result =>
    obtain ⟨send,hsend,h⟩ := Option.bind_eq_some_iff.mp h
    refine ⟨false,?_,iff_of_true trivial rfl⟩
    split at h
    · rename_i hstage
      have hold : send.stage.held = none := by rw [hstage]; rfl
      cases result with
      | error e =>
        cases h
        exact .idle hsend hold rfl
      | ok hop =>
        by_cases hfollow : send.follow = true
        · simp only [hfollow,if_true,Option.some.injEq] at h
          subst h
          exact .obtained hsend hold rfl
        · simp only [hfollow,Bool.false_eq_true,if_false,Option.some.injEq] at h
          subst h
          exact .obtained hsend hold rfl
    · cases h
  | proceed i =>
    obtain ⟨send,hsend,h⟩ := Option.bind_eq_some_iff.mp h
    have hmet : (Action.proceed i).NotOverrun redirects s ↔ send.stage.overruns redirects = false := by
      simp [Action.NotOverrun,hsend]
    refine ⟨send.stage.overruns redirects,?_,hmet⟩
    split at h
    · rename_i u hop id hstage
      cases h
      exact follow_effect hsend hstage
    · rename_i pending id hstage
      have hold : send.stage.held = some (id,pending.parts.cookies) := by rw [hstage]; rfl
      have hover : send.stage.overruns redirects = (false && !pending.parts.cookies.isEmpty) := by
        rw [hstage]
        rfl
      cases h
      rw [hover]
      exact .merged hsend hold rfl
    · cases h

/-- What is held is a response there has been, and what is merged has cookies. -/
structure Kept (cookies : Cookies) (s : State) : Prop where
  held : ∀ send ∈ s.sends, ∀ id respCookies, send.stage.held = some (id,respCookies) →
    s.obtained[id]? = some respCookies
  merged : ∀ id ∈ s.merged, ∃ respCookies, s.obtained[id]? = some respCookies ∧ respCookies ≠ []
  jar : s.cookies = s.merges.foldl accumulateCookies cookies

theorem kept_new (cookies : Cookies) : Kept cookies (new cookies) :=
  ⟨by simp [new],by simp [new],rfl⟩

theorem mem_store {send' : Send} {stage : Stage} (h : send' ∈ (s.store i send stage).sends) :
    send' ∈ s.sends ∨ send'.stage = stage := by
  rcases List.mem_or_eq_of_mem_set h with hmem | rfl
  · exact .inl hmem
  · exact .inr rfl

theorem Kept.store {cookies : Cookies} {stage : Stage} (hs : Kept cookies s)
    (hnew : ∀ id respCookies, stage.held = some (id,respCookies) →
      s.obtained[id]? = some respCookies) : Kept cookies (s.store i send stage) where
  held := by
    intro send' hmem id respCookies hheld
    rcases mem_store hmem with hmem | hstage
    · exact hs.held send' hmem id respCookies hheld
    · exact hnew id respCookies (hstage ▸ hheld)
  merged := hs.merged
  jar := hs.jar

theorem merges_obtained {cookies : Cookies} (hs : Kept cookies s) (respCookies : Cookies) :
    s.merged.map (fun id => (s.obtained++[respCookies]).getD id []) = s.merges := by
  refine List.map_congr_left fun id hid => ?_
  obtain ⟨found,hfound,_⟩ := hs.merged id hid
  have hlt := (List.getElem?_eq_some_iff.mp hfound).1
  simp only [List.getD_eq_getElem?_getD,List.getElem?_append_left hlt]

theorem Effect.kept {overrun : Bool} {cookies : Cookies} (h : Effect s overrun t)
    (hs : Kept cookies s) : Kept cookies t := by
  cases h with
  | started hnew =>
    refine ⟨fun send' hmem id respCookies hheld => ?_,hs.merged,hs.jar⟩
    rcases List.mem_append.mp hmem with hmem | hmem
    · exact hs.held send' hmem id respCookies hheld
    · rw [List.mem_singleton.mp hmem,hnew] at hheld
      cases hheld
  | idle h hold hnew => exact hs.store fun id respCookies hheld => by rw [hnew] at hheld; cases hheld
  | passed h hold hnew =>
    refine hs.store fun id respCookies hheld => ?_
    rw [hnew,← hold] at hheld
    exact hs.held _ (List.mem_of_getElem? h) id respCookies hheld
  | @obtained i send stage respCookies h hold hnew =>
    have hgrow : ∀ {id : ℕ} {found : Cookies}, s.obtained[id]? = some found →
        (s.obtained++[respCookies])[id]? = some found := fun hfound => by
      rw [List.getElem?_append_left (List.getElem?_eq_some_iff.mp hfound).1,hfound]
    refine ⟨fun send' hmem id found hheld => ?_,fun id hid => ?_,?_⟩
    · rcases mem_store hmem with hmem | hstage
      · exact hgrow (hs.held send' hmem id found hheld)
      · rw [hstage,hnew] at hheld
        cases hheld
        simp
    · obtain ⟨found,hfound,hne⟩ := hs.merged id hid
      exact ⟨found,hgrow hfound,hne⟩
    · show s.cookies = (s.merged.map _).foldl accumulateCookies cookies
      rw [merges_obtained hs]
      exact hs.jar
  | @merged i id send stage respCookies kept h hold hnew =>
    have hfound := hs.held _ (List.mem_of_getElem? h) id respCookies hold
    have hstore : Kept cookies (s.store i send stage) := by
      refine hs.store fun id' found hheld => ?_
      rw [hnew] at hheld
      cases kept with
      | true =>
        cases hheld
        exact hfound
      | false => cases hheld
    refine ⟨hstore.held,fun id' hid => ?_,?_⟩
    · by_cases hempty : respCookies.isEmpty = true
      · simp only [State.log,hempty,if_true] at hid
        exact hs.merged id' hid
      · simp only [State.log,hempty,Bool.false_eq_true,if_false] at hid
        rcases List.mem_append.mp hid with hid | hid
        · exact hs.merged id' hid
        · rw [List.mem_singleton.mp hid]
          exact ⟨respCookies,hfound,by simpa using hempty⟩
    · show accumulateCookies s.cookies respCookies =
        ((s.log id respCookies).map fun id => s.obtained.getD id []).foldl accumulateCookies cookies
      by_cases hempty : respCookies.isEmpty = true
      · simp only [State.log,hempty,if_true,accumulateCookies]
        exact hs.jar
      · simp only [State.log,hempty,Bool.false_eq_true,if_false,List.map_append,List.map_singleton,
          List.foldl_append,List.foldl_cons,List.foldl_nil,List.getD_eq_getElem?_getD,hfound,
          Option.getD_some]
        rw [hs.jar]
        rfl

/-! ## Once each -/

/-- Every response with cookies has been merged or is still to be, and not both. -/
def Once (s : State) : Prop :=
  ∀ id respCookies, s.obtained[id]? = some respCookies → respCookies ≠ [] → s.due id = 1

/-- A response that there has not been is neither merged nor held. -/
theorem due_new {cookies : Cookies} (hs : Kept cookies s) : s.due s.obtained.length = 0 := by
  have hmerged : s.merged.count s.obtained.length = 0 := by
    rw [List.count_eq_zero]
    intro hmem
    obtain ⟨found,hfound,_⟩ := hs.merged _ hmem
    simp at hfound
  have hheld : s.holders s.obtained.length = 0 := by
    rw [State.holders,List.countP_eq_zero]
    intro send hmem hholds
    cases hheld : send.stage.held with
    | none => simp [hheld] at hholds
    | some p =>
      have hid : p.1 = s.obtained.length := by simpa [Stage.holds,hheld] using hholds
      have hfound := hs.held send hmem p.1 p.2 hheld
      simp [hid] at hfound
  rw [State.due,hmerged,hheld]

theorem log_count (id k : ℕ) {respCookies : Cookies} (hne : respCookies ≠ []) :
    (s.log id respCookies).count k = s.merged.count k+(decide (id = k)).toNat := by
  have hempty : respCookies.isEmpty = false := by simpa using hne
  simp only [State.log,hempty,Bool.false_eq_true,if_false,List.count_append,List.count_singleton]
  by_cases hk : id = k
  · simp [hk]
  · simp [hk]

theorem Effect.once {cookies : Cookies} {overrun : Bool} (h : Effect s overrun t)
    (hover : overrun = false) (hs : Kept cookies s) (honce : Once s) : Once t := by
  intro k found hfound hne
  cases h with
  | @started send hnew =>
    have hdue := honce k found hfound hne
    simpa [State.due,State.holders,hnew] using hdue
  | @idle i send stage h hold hnew =>
    have hholders := store_holders h stage k
    rw [holds_of_none hold,holds_of_none hnew] at hholders
    have hdue := honce k found hfound hne
    simp only [State.due] at hdue ⊢
    show s.merged.count k+(s.store i send stage).holders k = 1
    omega
  | @passed i id send stage respCookies h hold hnew =>
    have hholders := store_holders h stage k
    rw [holds_of_held hold,holds_of_held hnew] at hholders
    have hdue := honce k found hfound hne
    simp only [State.due] at hdue ⊢
    show s.merged.count k+(s.store i send stage).holders k = 1
    omega
  | @obtained i send stage respCookies h hold hnew =>
    have hholders := store_holders h stage k
    rw [holds_of_none hold,holds_of_held hnew] at hholders
    show s.merged.count k+(s.store i send stage).holders k = 1
    by_cases hk : s.obtained.length = k
    · have hdue := due_new hs
      simp only [State.due,hk] at hdue
      simp only [hk,decide_true,Bool.toNat_true,Bool.toNat_false] at hholders
      omega
    · have hold : s.obtained[k]? = some found := by
        have hlt := (List.getElem?_eq_some_iff.mp hfound).1
        simp only [List.length_append,List.length_singleton] at hlt
        rwa [List.getElem?_append_left (by omega)] at hfound
      have hdue := honce k found hold hne
      simp only [State.due] at hdue
      simp only [hk,decide_false,Bool.toNat_false] at hholders
      omega
  | @merged i id send stage respCookies kept h hold hnew =>
    have hheld := hs.held _ (List.mem_of_getElem? h) id respCookies hold
    have hholders := store_holders h stage k
    have hdue := honce k found hfound hne
    simp only [State.due] at hdue
    show (s.log id respCookies).count k+(s.store i send stage).holders k = 1
    by_cases hempty : respCookies = []
    · -- An empty map is not counted, and no other response is touched.
      have hk : id ≠ k := by
        rintro rfl
        have hsame : some respCookies = some found := hheld.symm.trans hfound
        exact hne (Option.some.inj hsame ▸ hempty)
      have hcount : stage.holds k = false := by
        cases kept with
        | true => simpa [holds_of_held hnew] using hk
        | false => exact holds_of_none hnew
      rw [holds_of_held hold,hcount] at hholders
      simp only [hk,decide_false,Bool.toNat_false] at hholders
      simp only [State.log,hempty,List.isEmpty_nil,if_true]
      omega
    · have hdrop : kept = false := by simpa [hempty] using hover
      subst hdrop
      rw [holds_of_held hold,holds_of_none hnew] at hholders
      rw [log_count id k hempty]
      simp only [Bool.toNat_false] at hholders
      omega

theorem Effect.not_once {cookies : Cookies} {overrun : Bool} (h : Effect s overrun t)
    (hover : overrun = true) (hs : Kept cookies s) (honce : Once s) : ¬ Once t := by
  cases h with
  | started | idle | passed | obtained => cases hover
  | @merged i id send stage respCookies kept h hold hnew =>
    simp only [Bool.and_eq_true,Bool.not_eq_true',List.isEmpty_eq_false_iff] at hover
    obtain ⟨rfl,hne⟩ := hover
    have hheld := hs.held _ (List.mem_of_getElem? h) id respCookies hold
    intro htwice
    have hdue := honce id respCookies hheld hne
    have hdue' : (s.log id respCookies).count id+(s.store i send stage).holders id = 1 :=
      htwice id respCookies hheld hne
    have hholders := store_holders h stage id
    rw [holds_of_held hold,holds_of_held hnew] at hholders
    rw [log_count id id hne] at hdue'
    simp only [State.due] at hdue
    simp only [decide_true,Bool.toNat_true] at hdue' hholders
    omega

end Books

section Runs

variable (crate : UrlCrate) (redirects : RedirectPolicy) (cookies : Cookies)

theorem kept_step (s : State) (a : Action) (t : State) (hs : Kept cookies s)
    (h : step crate redirects s a = some t) : Kept cookies t := by
  obtain ⟨_,heffect,_⟩ := step_effect h
  exact heffect.kept hs

theorem Kept.nodup {s : State} (hs : Kept cookies s) (honce : Once s) : s.merged.Nodup := by
  rw [List.nodup_iff_count_le_one]
  intro id
  by_cases hmem : id ∈ s.merged
  · obtain ⟨found,hfound,hne⟩ := hs.merged id hmem
    have hdue := honce id found hfound hne
    rw [State.due] at hdue
    omega
  · rw [List.count_eq_zero.mpr hmem]
    exact Nat.zero_le 1

/-- When every send is through, every response with cookies has been merged once. -/
theorem MergedOnce.count {s : State} (h : MergedOnce cookies s)
    (hthrough : ∀ send ∈ s.sends, send.stage.held = none) {id : ℕ} {respCookies : Cookies}
    (hfound : s.obtained[id]? = some respCookies) (hne : respCookies ≠ []) :
    s.merged.count id = 1 := by
  have hheld : s.holders id = 0 := by
    rw [State.holders,List.countP_eq_zero]
    intro send hmem
    simp [holds_of_none (hthrough send hmem)]
  have hdue := h.once id respCookies hfound hne
  rwa [State.due,hheld,Nat.add_zero] at hdue

theorem mergedOnce_iff {s : State} (hs : Kept cookies s) : MergedOnce cookies s ↔ Once s :=
  ⟨fun h => h.once,fun h => ⟨h,hs.nodup cookies h,hs.jar⟩⟩

/-- The cookies of each response reach the jar once, whatever the sends do in between, exactly
while the loop returns no redirect with cookies as one too many. -/
theorem merged_once {as : List Action} {t : State}
    (hr : Runs.run (step crate redirects) (new cookies) as = some t) :
    Runs.Always (step crate redirects) (MergedOnce cookies) (new cookies) as ↔
      Runs.Meets (step crate redirects) (fun s a => a.NotOverrun redirects s) (new cookies) as := by
  refine Runs.always_iff_meets (kept_step crate redirects cookies) (fun s a t hs hp h => ?_)
    (kept_new cookies) ?_ hr
  · obtain ⟨overrun,heffect,hmet⟩ := step_effect h
    rw [hmet,mergedOnce_iff cookies (heffect.kept hs)]
    have honce := (mergedOnce_iff cookies hs).mp hp
    cases overrun with
    | true => exact iff_of_false (heffect.not_once rfl hs honce) (by decide)
    | false => exact iff_of_true (heffect.once rfl hs honce) rfl
  · rw [mergedOnce_iff cookies (kept_new cookies)]
    intro id respCookies hfound
    simp [new] at hfound

/-- An answer that sets the cookie `sid`. -/
def session (status : ℕ) (value : String) : PendingResponse where
  parts := ⟨status,⟨[]⟩,[("sid",value)],0,[],none⟩
  response := []

/-- A redirect sets a cookie and is one too many; before its send goes on, another send sets
the same cookie. -/
def crossing : List Action :=
  [.send getRoot true,.respond 0 (.ok (session 302 "old")),.proceed 0,
    .send getRoot false,.respond 1 (.ok (session 200 "new")),.proceed 1]

theorem merged_once_crossing :
    Runs.Always (step stay ⟨true,1,true⟩) (MergedOnce []) (new []) crossing :=
  have hr : (Runs.run (step stay ⟨true,1,true⟩) (new []) crossing).isSome := rfl
  (merged_once stay ⟨true,1,true⟩ [] (Option.some_get hr).symm).mpr (by decide)

/-- The redirect is not raised, so `send` merges it once more, over what was set since. -/
theorem merged_twice : ∃ t,
    Runs.run (step stay ⟨true,1,false⟩) (new []) (crossing++[.proceed 0]) = some t ∧
      t.merged = [0,1,0] ∧ t.cookies = [("sid","old")] ∧
      ¬ Runs.Always (step stay ⟨true,1,false⟩) (MergedOnce []) (new []) (crossing++[.proceed 0]) := by
  refine ⟨_,rfl,by decide,by decide,fun halways => ?_⟩
  have hnodup : [0,1,0].Nodup := (halways.last rfl).nodup
  exact absurd hnodup (by decide)

end Runs

end CookieJar
end Rqx
