import Rqx.UnsupportedProtocol

/-! What stands on a request line: whatever a caller gives as a URL or as params, and whatever a
server gives as a Location, it ends nothing there. -/
namespace Whatwg
open Split

/-- Printable ASCII, blanks apart. -/
def isVisible (c : Char) : Bool := 32 < c.toNat && c.toNat < 127

/-- What follows the method on a request line. -/
def Url.target (url : Url) : Chars := url.path.text++lead '?' url.query

/-- A URL with an authority whose text has visible characters only. -/
structure Url.Visible (url : Url) : Prop where
  scheme : ∀ c ∈ url.scheme, isVisible c
  authority : ∃ authority, url.authority = some authority ∧
    (∀ c ∈ authority.username, isVisible c) ∧ (∀ c ∈ authority.password, isVisible c) ∧
    ∀ c ∈ authority.host, isVisible c
  path : ∃ names, url.path = .segments names ∧ names ≠ [] ∧ ∀ name ∈ names, ∀ c ∈ name, isVisible c
  query : ∀ text ∈ url.query, ∀ c ∈ text, isVisible c
  fragment : ∀ text ∈ url.fragment, ∀ c ∈ text, isVisible c

/-- `domain_to_ascii`, and addresses in digits. -/
def Parsers.HostsVisible (parsers : Parsers) : Prop :=
  ∀ text host, parsers.host text = .ok host → ∀ c ∈ host, isVisible c

/-! ## Texts -/

section Text

variable {url : Url} {set : Char → Bool}

theorem c0ControlSet_visible {c : Char} (h : c0ControlSet c = false) (hspace : c ≠ ' ') :
    isVisible c := by
  simp only [c0ControlSet,Bool.or_eq_false_iff,decide_eq_false_iff_not] at h
  have hne : c.toNat ≠ 32 := fun he => hspace (Char.toNat_inj.mp he)
  simp only [isVisible,Bool.and_eq_true,decide_eq_true_eq]
  omega

theorem querySet_isVisible {c : Char} (h : querySet c = false) : isVisible c := by
  simp only [querySet,Bool.or_eq_false_iff,List.contains_eq_mem,decide_eq_false_iff_not,
    List.mem_cons,not_or] at h
  exact c0ControlSet_visible h.1 h.2.1

theorem pathSet_isVisible {c : Char} (h : pathSet c = false) : isVisible c := by
  simp only [pathSet,Bool.or_eq_false_iff] at h
  exact querySet_isVisible h.1

theorem userinfoSet_isVisible {c : Char} (h : userinfoSet c = false) : isVisible c := by
  simp only [userinfoSet,Bool.or_eq_false_iff] at h
  exact pathSet_isVisible h.1

theorem fragmentSet_isVisible {c : Char} (h : fragmentSet c = false) : isVisible c := by
  simp only [fragmentSet,Bool.or_eq_false_iff,List.contains_eq_mem,decide_eq_false_iff_not,
    List.mem_cons,not_or] at h
  exact c0ControlSet_visible h.1 h.2.1

theorem querySetOf_isVisible {scheme : Chars} {c : Char} (h : querySetOf scheme c = false) :
    isVisible c := querySet_isVisible (querySet_of_querySetOf h)

theorem percentEncode_visible (hset : ∀ c, set c = false → isVisible c) (text : Chars) :
    ∀ c ∈ percentEncode set text, isVisible c :=
  percentEncode_mem (P := fun c => isVisible c) (by decide) (by decide) fun c _ h => hset c h

theorem map_percentEncode_visible (hset : ∀ c, set c = false → isVisible c) (text : Option Chars) :
    ∀ t ∈ text.map (percentEncode set), ∀ c ∈ t, isVisible c := by
  intro t ht
  obtain ⟨raw,_,rfl⟩ := Option.map_eq_some_iff.mp ht
  exact percentEncode_visible hset raw

theorem lead_isVisible {mark : Char} {o : Option Chars} (hmark : isVisible mark)
    (h : ∀ t ∈ o, ∀ c ∈ t, isVisible c) : ∀ c ∈ lead mark o, isVisible c := by
  intro c hc
  obtain ⟨t,ht,rfl | hc⟩ := mem_lead.mp hc
  · exact hmark
  · exact h t ht c hc

theorem isDigit_visible {c : Char} (h : c.isDigit) : isVisible c := by
  simp only [Char.isDigit,Bool.and_eq_true,decide_eq_true_eq] at h
  have hlow : 48 ≤ c.toNat := h.1
  have hhigh : c.toNat ≤ 57 := h.2
  simp only [isVisible,Bool.and_eq_true,decide_eq_true_eq]
  omega

theorem Url.Visible.path_text (h : url.Visible) : ∀ c ∈ url.path.text, isVisible c := by
  obtain ⟨names,hpath,_,hnames⟩ := h.path
  intro c hc
  rw [hpath] at hc
  obtain ⟨name,hname,hc⟩ := List.mem_flatMap.mp hc
  rcases List.mem_cons.mp hc with rfl | hc
  · decide
  · exact hnames name hname c hc

theorem Authority.text_visible {authority : Authority}
    (huser : ∀ c ∈ authority.username, isVisible c)
    (hpassword : ∀ c ∈ authority.password, isVisible c)
    (hhost : ∀ c ∈ authority.host, isVisible c) :
    ∀ c ∈ authority.text, isVisible c := by
  intro c hc
  rcases List.mem_append.mp hc with hc | hc
  · rcases List.mem_append.mp hc with hc | hc
    · unfold Authority.credentials at hc
      split at hc
      · simp at hc
      · rcases List.mem_append.mp hc with hc | hc
        · rcases List.mem_append.mp hc with hc | hc
          · exact huser c hc
          · split at hc
            · simp at hc
            · rcases List.mem_cons.mp hc with rfl | hc
              · decide
              · exact hpassword c hc
        · rw [List.mem_singleton.mp hc]
          decide
    · exact hhost c hc
  · refine lead_isVisible (by decide) (fun digits hdigits c hc => ?_) c hc
    obtain ⟨n,_,rfl⟩ := Option.map_eq_some_iff.mp hdigits
    exact isDigit_visible (Nat.isDigit_of_mem_toDigits (by decide) (by decide) hc)

theorem Url.Visible.text_isVisible (h : url.Visible) : ∀ c ∈ url.text, isVisible c := by
  obtain ⟨authority,hauthority,huser,hpassword,hhost⟩ := h.authority
  intro c hc
  rw [Url.text_front] at hc
  rcases List.mem_append.mp hc with hc | hc
  · rcases List.mem_append.mp hc with hc | hc
    · simp only [Url.front,hauthority,List.mem_append,List.mem_cons] at hc
      rcases hc with (hc | rfl | rfl | rfl | hc) | hc
      · exact h.scheme c hc
      · decide
      · decide
      · decide
      · exact Authority.text_visible huser hpassword hhost c hc
      · exact h.path_text c hc
    · exact lead_isVisible (by decide) h.query c hc
  · exact lead_isVisible (by decide) h.fragment c hc

/-- A request line has no other parts: no blank, no line break and no fragment. -/
theorem Url.Visible.target_spec (h : url.Visible) : (∀ c ∈ url.target, isVisible c) ∧
    ∃ rest, url.target = '/' :: rest := by
  obtain ⟨names,hpath,hne,_⟩ := h.path
  refine ⟨?_,?_⟩
  · intro c hc
    rcases List.mem_append.mp hc with hc | hc
    · exact h.path_text c hc
    · exact lead_isVisible (by decide) h.query c hc
  · obtain ⟨name,names,rfl⟩ := List.exists_cons_of_ne_nil hne
    exact ⟨name++names.flatMap ('/' :: ·)++lead '?' url.query,by simp [Url.target,hpath,Path.text]⟩

end Text

/-! ## What is parsed, and what is joined -/

section Join

variable {parsers : Parsers} {base url : Url} {scheme text : Chars}

theorem parsePath_visible {path : List Chars} (hpath : ∀ name ∈ path, ∀ c ∈ name, isVisible c) :
    ∀ name ∈ parsePath path text, ∀ c ∈ name, isVisible c := by
  intro name hname
  rcases mem_pushAll hname with h | h | rfl
  · exact hpath name h
  · obtain ⟨segment,_,rfl⟩ := List.mem_map.mp h
    exact percentEncode_visible (fun c => pathSet_isVisible) segment
  · simp

theorem pushAll_ne_nil {path segments : List Chars} (h : segments ≠ []) :
    pushAll path segments ≠ [] := by
  induction segments generalizing path with
  | nil => exact absurd rfl h
  | cons s segments ih =>
    cases segments with
    | nil =>
      simp only [pushAll,push]
      split
      · simp
      · split <;> simp
    | cons s' segments => exact ih (by simp)

theorem parsePath_ne_nil (path : List Chars) (text : Chars) : parsePath path text ≠ [] :=
  pushAll_ne_nil (by simp [List.splitOnP_ne_nil])

theorem http_visible (h : Rqx.isHttp url) : ∀ c ∈ url.scheme, isVisible c := by
  rcases Rqx.isHttp_iff.mp h with h | h <;> rw [h] <;> exact List.all_eq_true.mp (by decide)

theorem Parsers.authority_visible {authority : Authority} (hhosts : parsers.HostsVisible)
    (h : parsers.authority scheme text = .ok authority) :
    (∀ c ∈ authority.username, isVisible c) ∧ (∀ c ∈ authority.password, isVisible c) ∧
      ∀ c ∈ authority.host, isVisible c := by
  simp only [Parsers.authority,bind,Except.bind,pure,Except.pure,throw,throwThe,
    MonadExceptOf.throw] at h
  split at h
  · cases h
  · split at h
    · cases h
    · next host hhost =>
      split at h
      · cases h
      · cases h
        exact ⟨percentEncode_visible (fun c => userinfoSet_isVisible) _,
          percentEncode_visible (fun c => userinfoSet_isVisible) _,hhosts _ _ hhost⟩

theorem Parsers.fromAuthority_visible (hhosts : parsers.HostsVisible)
    (hscheme : ∀ c ∈ scheme, isVisible c) (h : parsers.fromAuthority scheme text = .ok url) :
    url.Visible := by
  simp only [Parsers.fromAuthority,bind,Except.bind,pure,Except.pure] at h
  split at h
  · cases h
  · next authority hauthority =>
    cases h
    exact {
      scheme := hscheme
      authority := ⟨authority,rfl,authority_visible hhosts hauthority⟩
      path := ⟨_,rfl,parsePath_ne_nil _ _,parsePath_visible (by simp)⟩
      query := map_percentEncode_visible (fun c h => querySet_isVisible (by
        simp only [specialQuerySet,Bool.or_eq_false_iff] at h
        exact h.1)) _
      fragment := map_percentEncode_visible (fun c => fragmentSet_isVisible) _ }

theorem relative_visible (hbase : base.Visible) (text : Chars) : (relative base text).Visible := by
  have hquery : ∀ t ∈ (Reference.split text).query.map (percentEncode specialQuerySet),
      ∀ c ∈ t, isVisible c := map_percentEncode_visible (fun c h => querySet_isVisible (by
    simp only [specialQuerySet,Bool.or_eq_false_iff] at h
    exact h.1)) _
  have hfragment : ∀ t ∈ (Reference.split text).fragment.map (percentEncode fragmentSet),
      ∀ c ∈ t, isVisible c := map_percentEncode_visible (fun c => fragmentSet_isVisible) _
  obtain ⟨names,hnames,hne,hplain⟩ := hbase.path
  simp only [relative]
  split
  · refine ⟨hbase.scheme,hbase.authority,hbase.path,?_,hfragment⟩
    intro t ht
    have ht : ((Reference.split text).query.map (percentEncode specialQuerySet) <|>
      base.query) = some t := ht
    cases hq : (Reference.split text).query.map (percentEncode specialQuerySet) with
    | none => exact hbase.query t (by simpa [hq] using ht)
    | some q =>
      obtain rfl : q = t := by simpa [hq] using ht
      exact hquery q hq
  · refine ⟨hbase.scheme,hbase.authority,⟨_,rfl,?_,?_⟩,hquery,hfragment⟩
    · split <;> exact parsePath_ne_nil _ _
    · split
      · exact parsePath_visible (by simp)
      · refine parsePath_visible fun name hname => ?_
        rw [hnames] at hname
        exact hplain name (List.dropLast_subset _ hname)

theorem Parsers.parse_visible {rest : Chars} (hhosts : parsers.HostsVisible)
    (h : parsers.parse scheme rest = .ok url) (hhttp : Rqx.isHttp url) : url.Visible := by
  have hscheme := Parsers.parse_scheme h
  have hvisible : ∀ c ∈ scheme, isVisible c := hscheme ▸ http_visible hhttp
  unfold Parsers.parse at h
  split at h
  · exact fromAuthority_visible hhosts hvisible h
  · next hspecial =>
    rcases Rqx.isHttp_iff.mp hhttp with hs | hs <;> rw [← hscheme,hs] at hspecial <;>
      exact absurd (by decide) hspecial

/-- Whatever a reference holds, an `http` URL that it leads to has visible characters only. -/
theorem Parsers.join_visible (hhosts : parsers.HostsVisible) (hbase : base.Visible)
    (h : parsers.join base text = .ok url) (hhttp : Rqx.isHttp url) : url.Visible := by
  rw [Parsers.join,Parsers.resolve] at h
  split at h
  · exact parse_visible hhosts h hhttp
  · exact fromAuthority_visible hhosts hbase.scheme h
  · cases h
    exact relative_visible hbase _

theorem Url.Valid.isVisible {authority : Authority} (h : url.Valid) (hhttp : Rqx.isHttp url)
    (ha : url.authority = some authority) (hhost : ∀ c ∈ authority.host, isVisible c) :
    url.Visible := by
  have hspecial : isSpecialNotFile url.scheme := by
    rcases Rqx.isHttp_iff.mp hhttp with hs | hs <;> rw [hs] <;> decide
  obtain ⟨names,hpath,hne,hplain⟩ := (h.special hspecial).2
  have hvalid := h.authority authority ha
  exact {
    scheme := http_visible hhttp
    authority := ⟨authority,ha,fun c hc => userinfoSet_isVisible (hvalid.username c hc),
      fun c hc => userinfoSet_isVisible (hvalid.password c hc),hhost⟩
    path := ⟨names,hpath,hne,fun name hname c hc =>
      pathSet_isVisible (plain_iff.mp (hplain name hname c hc)).1⟩
    query := fun t ht c hc => querySet_isVisible (h.query t ht c hc)
    fragment := fun t ht c hc => fragmentSet_isVisible (h.fragment t ht c hc) }

/-- The credentials are taken out of the URL. -/
def Url.withoutCredentials (url : Url) : Url :=
  { url with authority := url.authority.map fun a => { a with username := [], password := [] } }

theorem Url.Visible.withoutCredentials (h : url.Visible) : url.withoutCredentials.Visible := by
  obtain ⟨authority,hauthority,_,_,hhost⟩ := h.authority
  exact ⟨h.scheme,⟨{ authority with username := [], password := [] },
    by simp [Url.withoutCredentials,hauthority],by simp,by simp,hhost⟩,h.path,h.query,h.fragment⟩

theorem Url.Visible.setQuery (h : url.Visible) (query : Option Chars) :
    (url.setQuery query).Visible := by
  refine ⟨h.scheme,h.authority,h.path,?_,h.fragment⟩
  intro t ht
  obtain ⟨q,_,rfl⟩ := Option.map_eq_some_iff.mp ht
  exact percentEncode_visible (fun c => querySetOf_isVisible) _

end Join

end Whatwg

namespace Rqx
open Whatwg

/-- Making a request moves the credentials of its URL into a header, where they are UTF-8, and
nothing that the builder is told after that touches the URL. -/
structure RequestBuilder.KeepsUrl (builder : RequestBuilder) : Prop where
  request : ∀ method url r, builder.request method url = .ok r →
    r.url = url ∨ r.url = url.withoutCredentials
  tell : ∀ r call r', builder.tell r call = .ok r' → r'.url = r.url

theorem RequestBuilder.KeepsUrl.keepsScheme {builder : RequestBuilder} (h : builder.KeepsUrl) :
    builder.KeepsScheme where
  request method url r hr := by
    rcases h.request method url r hr with he | he
    · rw [he]
    · rw [he]
      rfl
  tell := h.tell

/-- What `Url::join` makes an `http` URL of on a base of another scheme is one by itself. -/
def UrlCrate.LeavesScheme (crate : UrlCrate) (parsers : Parsers) : Prop :=
  ∀ base text url, ¬isHttp base → crate.join base text = .ok url → isHttp url →
    ∃ rest, splitScheme (clean text) = some (url.scheme,rest) ∧
      parsers.parse url.scheme rest = .ok url

/-- reqwest answers no request to a URL of another scheme. -/
def Transport.RefusesOthers {ω : Type} (transport : Transport ω) : Prop :=
  ∀ r world hop, (transport.send r world).1 = .ok hop → isHttp r.url

namespace Client

variable {ω : Type} {libs : Libraries} {config : ClientConfig} {transport : Transport ω}
variable {request : CallerRequest} {cookies : Cookies} {world : ω} {parsers : Parsers}

theorem withParams_visible {url : Url} (h : url.Visible) :
    (withParams libs request url).Visible := by
  unfold withParams
  split
  · exact h
  · simp only
    split <;> exact h.setQuery _

theorem build_url {r : Request} (hkeeps : libs.reqwest.KeepsUrl)
    (h : build libs config request = some (.ok r)) :
    ∃ url, mergeUrl libs config request.url = .ok url ∧
      isHttp url ∧ (r.url = withParams libs request url ∨
        r.url = (withParams libs request url).withoutCredentials) := by
  unfold build at h
  split at h
  · cases h
  · next url hmerge =>
    split at h
    · cases h
    · next hhttp =>
      obtain ⟨seconds,_,hbuilt⟩ := Option.map_eq_some_iff.mp h
      refine ⟨url,hmerge,by simpa using hhttp,?_⟩
      cases hnew : libs.reqwest.request request.method (withParams libs request url) with
      | error e =>
        rw [hnew] at hbuilt
        cases hbuilt
      | ok first =>
        rw [hnew] at hbuilt
        simp only [Except.bind] at hbuilt
        cases hcalls : (builderCalls config request seconds).foldlM libs.reqwest.tell first with
        | error e =>
          rw [hcalls] at hbuilt
          cases hbuilt
        | ok last =>
          rw [hcalls] at hbuilt
          obtain rfl : last = r := by simpa [Except.mapError] using hbuilt
          rw [foldlM_tell hkeeps.keepsScheme _ hcalls]
          exact hkeeps.request _ _ _ hnew

theorem mergeUrl_visible {url : Url} (hurl : BaseUrl.FollowsWhatwg libs.url parsers)
    (hleaves : libs.url.LeavesScheme parsers) (hhosts : parsers.HostsVisible)
    (hbase : ∀ base ∈ config.baseUrl, isHttp base → base.Visible)
    (hcaller : ∀ own, request.url = .Absolute own → ∀ authority ∈ own.1.authority,
      ∀ c ∈ authority.host, isVisible c)
    (h : mergeUrl libs config request.url = .ok url) (hhttp : isHttp url) : url.Visible := by
  unfold mergeUrl at h
  split at h
  · next own _ hown =>
    cases h
    cases hr : request.url with
    | Relative _ => simp [hr,UrlReference.ownHost] at hown
    | Absolute absolute =>
      simp only [hr,UrlReference.ownHost] at hown
      split at hown
      · next hsome =>
        cases hown
        obtain ⟨authority,ha⟩ := Option.isSome_iff_exists.mp hsome
        exact absolute.2.isVisible hhttp ha (hcaller absolute hr authority ha)
      · cases hown
  · next base _ hconfig =>
    unfold BaseUrl.joinTo at h
    split at h
    · next joined hjoin =>
      cases h
      by_cases hhttpBase : isHttp base
      · rw [hurl base _ hhttpBase] at hjoin
        exact Parsers.join_visible hhosts (hbase base hconfig hhttpBase) hjoin hhttp
      · obtain ⟨rest,_,hparse⟩ := hleaves base _ url hhttpBase hjoin hhttp
        exact Parsers.parse_visible hhosts hparse hhttp
    · cases h
  · cases h

/-- Following redirects, from a URL that is visible, only such URLs are sent to over HTTP. -/
theorem sent_visible {crate : UrlCrate} {redirects : RedirectPolicy}
    (hurl : BaseUrl.FollowsWhatwg crate parsers) (hhosts : parsers.HostsVisible)
    (hrefuses : transport.RefusesOthers) {first : Request} (h : first.url.Visible) :
    ∀ r ∈ (followRedirects crate transport redirects first cookies world).2.sent,
      isHttp r.url → r.url.Visible := by
  refine (redirectLoop crate transport redirects).run_rule
    (P := fun s => ∀ r ∈ s.sent++[s.request], isHttp r.url → r.url.Visible)
    (Q := fun e => ∀ r ∈ e.2.sent, isHttp r.url → r.url.Visible) (fun s hs => ?_)
    (redirectStart first cookies world) (by simpa [redirectStart] using fun _ => h)
  rcases pass_cases crate transport redirects s with
    ⟨result,t,hp,hsent⟩ | ⟨t,status,url,hp,hsent,_⟩
  · exact .inl ⟨_,hp,by rwa [hsent]⟩
  · refine .inr ⟨t,hp,?_⟩
    rw [hsent]
    intro r hr hhttp
    rcases List.mem_append.mp hr with hr | hr
    · exact hs r hr hhttp
    · obtain rfl := List.mem_singleton.mp hr
      obtain ⟨hop,hsend,_,_,htarget⟩ := leadsTo_again hp
      have hbase := hrefuses s.request s.world hop hsend
      obtain ⟨location,_,hjoin⟩ := Option.bind_eq_some_iff.mp htarget
      rw [hurl _ _ hbase] at hjoin
      have hjoin : parsers.join s.request.url location.toList = .ok t.request.url := by
        cases hj : parsers.join s.request.url location.toList with
        | error e => simp [hj,Except.toOption] at hjoin
        | ok url => simpa [hj,Except.toOption] using hjoin
      exact Parsers.join_visible hhosts (hs s.request (by simp) hbase) hjoin hhttp

/-- Nothing that the caller or a server writes ends the target of a request before it ends. -/
theorem request_line (libs : Libraries) (config : ClientConfig) (transport : Transport ω)
    (request : CallerRequest) (cookies : Cookies) (world : ω) (parsers : Parsers)
    (hurl : BaseUrl.FollowsWhatwg libs.url parsers) (hleaves : libs.url.LeavesScheme parsers)
    (hhosts : parsers.HostsVisible) (hkeeps : libs.reqwest.KeepsUrl)
    (hrefuses : transport.RefusesOthers)
    (hbase : ∀ base ∈ config.baseUrl, isHttp base → base.Visible)
    (hcaller : ∀ own, request.url = .Absolute own → ∀ authority ∈ own.1.authority,
      ∀ c ∈ authority.host, isVisible c) :
    ∀ r ∈ (call libs config transport request cookies world).sent, isHttp r.url →
      (∀ c ∈ r.url.text, isVisible c) ∧ (∀ c ∈ r.url.target, isVisible c) ∧
        ∃ rest, r.url.target = '/' :: rest := by
  suffices hvisible : ∀ r ∈ (call libs config transport request cookies world).sent,
      isHttp r.url → r.url.Visible from fun r hr hhttp =>
    ⟨(hvisible r hr hhttp).text_isVisible,(hvisible r hr hhttp).target_spec⟩
  intro r hr hhttp
  cases hb : build libs config request with
  | none => simp [call,hb] at hr
  | some built =>
    cases built with
    | error e => simp [call,hb] at hr
    | ok executable =>
      obtain ⟨url,hmerge,hmerged,hexecutable⟩ := build_url hkeeps hb
      have hparams : (withParams libs request url).Visible := withParams_visible
        (mergeUrl_visible hurl hleaves hhosts hbase hcaller hmerge hmerged)
      have hfirst : executable.url.Visible := by
        rcases hexecutable with he | he <;> rw [he]
        · exact hparams
        · exact hparams.withoutCredentials
      cases hfollow : follows config request with
      | true =>
        have hr : r ∈ (followRedirects libs.url transport config.redirects executable cookies
          world).2.sent := by simpa [call,hb,hfollow] using hr
        exact sent_visible hurl hhosts hrefuses hfirst r hr hhttp
      | false =>
        obtain rfl : r = executable := by simpa [call,hb,hfollow] using hr
        exact hfirst

/-- Hosts that are visible are taken as they are. -/
def visibleParsers : Parsers :=
  { BaseUrl.asciiParsers with
    host text :=
      if text.all isVisible then .ok text else .error "invalid international domain name" }

def strippingBuilder : RequestBuilder where
  request method url := .ok ⟨method,url.withoutCredentials,[],none⟩
  tell := plainBuilder.tell

def visibleLibraries : Libraries :=
  ⟨⟨visibleParsers.join,fun _ => .Opaque⟩,⟨fun _ => [],fun _ => "",fun _ => ""⟩,strippingBuilder⟩

/-- A server that redirects every request to `/ HTTP/1.1`. -/
def splitting : Transport Unit where
  send r _ :=
    (if isHttp r.url then
      .ok ⟨⟨302,⟨[("location",[47,32,72,84,84,80,47,49,46,49])]⟩,[],0,[],none⟩,[]⟩
    else .error (.RequestError "request failed: builder error for url"),())
  drain _ _ := ()

/-- The blank that would end its target is escaped. -/
theorem request_line_split :
    (∃ r ∈ (call visibleLibraries boundClient splitting (rootRequest true) [] ()).sent,
      r.url.target = "/%20HTTP/1.1".toList) ∧
    ∀ r ∈ (call visibleLibraries boundClient splitting (rootRequest true) [] ()).sent,
      isHttp r.url → (∀ c ∈ r.url.text, isVisible c) ∧ (∀ c ∈ r.url.target, isVisible c) ∧
        ∃ rest, r.url.target = '/' :: rest := by
  refine ⟨?_,?_⟩
  · have hvisits : Visits visibleLibraries boundClient splitting (rootRequest true) [] ()
        (redirectStart getRoot [] ()) := ⟨rfl,getRoot,rfl,.refl⟩
    have hleads : LeadsTo visibleLibraries.url splitting boundClient.redirects
        (redirectStart getRoot [] ()) ⟨http,some ⟨[],[],['a'],none⟩,
          .segments ["%20HTTP".toList,"1.1".toList],none,none⟩ :=
      ⟨_,rfl,by decide,by decide,by decide⟩
    obtain ⟨r,hr,hurl⟩ := leadsTo_sent hvisits hleads
    exact ⟨r,hr,by rw [hurl]; rfl⟩
  · refine request_line visibleLibraries boundClient splitting (rootRequest true) [] ()
      visibleParsers (fun _ _ _ => rfl) ?_ ?_ ?_ ?_ ?_ ?_
    · intro base text url hother h hhttp
      have hjoin : visibleParsers.resolve base (clean text) = .ok url := h
      unfold Parsers.resolve at hjoin
      split at hjoin
      · next scheme rest hk =>
        obtain rfl := Parsers.parse_scheme hjoin
        exact ⟨rest,(kind_other hk).1,hjoin⟩
      · have hscheme : url.scheme = base.scheme := (Parsers.fromAuthority_ok hjoin).1
        exact absurd (by rwa [isHttp,hscheme] at hhttp) hother
      · cases hjoin
        exact absurd (by rwa [isHttp,relative_scheme] at hhttp) hother
    · intro text host h
      simp only [visibleParsers] at h
      split at h
      · next hall =>
        cases h
        simpa using hall
      · cases h
    · refine ⟨fun method url r h => .inr ?_,plainBuilder_keeps.tell⟩
      cases h
      rfl
    · intro r _ hop h
      by_contra hother
      simp [splitting,hother] at h
    · rintro base ⟨⟩ _
      have all {text : Chars} (h : text.all isVisible) : ∀ c ∈ text, isVisible c :=
        List.all_eq_true.mp h
      exact ⟨all (by decide),⟨_,rfl,by simp,by simp,all (by decide)⟩,
        ⟨_,rfl,by decide,by simp⟩,by simp,by simp⟩
    · intro own h
      cases h

end Client
end Rqx
