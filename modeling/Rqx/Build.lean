import Rqx.BaseUrl
import Rqx.PyJson
import Rqx.QueryParams
import Rqx.Transport
import Rqx.UrlText

/-! `Client::build`: from what the caller asks for to the request that is sent. -/
namespace Whatwg

/-- `Url::set_query`. -/
def Url.setQuery (url : Url) (query : Option Chars) : Url :=
  { url with
    query := query.map fun q => percentEncode (querySetOf url.scheme) (q.filter (!isDropped ·)) }

@[simp] theorem Url.setQuery_scheme (url : Url) (query : Option Chars) :
    (url.setQuery query).scheme = url.scheme := rfl

end Whatwg

namespace Rqx
open Whatwg

structure Timeout where
  connect : Option Number
  read : Option Number
  write : Option Number
  pool : Option Number

/-- The read timeout, or else the longest of the others. -/
def Timeout.perRequestTotal (timeout : Timeout) : Option Number :=
  if timeout.read.isSome then timeout.read
  else match [timeout.connect,timeout.write,timeout.pool].filterMap id with
    | [] => none
    | first::rest => some (rest.foldl Number.max first)

inductive Auth
  | None
  | Basic (username password : String)
  | Bearer (token : String)

inductive RequestBody
  | Empty
  | Content (content : Bytes)
  | Form (fields : List (String × String))
  | Json (value : PyJson.Value)

/-- `request::Request`: what the caller asks for. -/
structure CallerRequest where
  method : Method
  url : UrlReference
  params : Option QueryPairs
  headers : Option Headers
  body : RequestBody
  auth : Option Auth
  timeout : Option Number
  followRedirects : Option Bool

def DEFAULT_TIMEOUT : Number := .fin 15

/-- The base URL is any absolute one, canonicalized. -/
structure ClientConfig where
  timeout : Timeout
  redirects : RedirectPolicy
  baseUrl : Option Url
  auth : Auth

def ClientConfig.timeoutSecs (config : ClientConfig) : Number :=
  config.timeout.perRequestTotal.getD DEFAULT_TIMEOUT

/-- What a `reqwest::RequestBuilder` is told of a request besides its method and its URL. -/
inductive BuilderCall
  | headers (headers : HeaderMap)
  | basicAuth (username : String) (password : Option String)
  | bearerAuth (token : String)
  | body (content : Bytes)
  | form (fields : List (String × String))
  | json (value : PyJson.Value)
  | timeout (seconds : ℚ)

/-- `reqwest::RequestBuilder`. The credentials of a URL become a header. -/
structure RequestBuilder where
  request : Method → Url → Except ReqwestError Request
  tell : Request → BuilderCall → Except ReqwestError Request

/-- Whatever a builder is told, it is a request to the URL that it was made for. -/
structure RequestBuilder.KeepsScheme (builder : RequestBuilder) : Prop where
  request : ∀ method url r, builder.request method url = .ok r → r.url.scheme = url.scheme
  tell : ∀ r call r', builder.tell r call = .ok r' → r'.url = r.url

/-- The libraries that `build` calls. -/
structure Libraries where
  url : UrlCrate
  form : FormUrlencoded
  reqwest : RequestBuilder

/-- `BaseUrl::join`, to a base of any scheme. -/
def BaseUrl.joinTo (crate : UrlCrate) (base : Url) (url : UrlReference) :
    Except RqxCoreError Url :=
  match crate.join base (url.rawPath.dropWhile (· = '/')) with
  | .ok joined => .ok joined
  | .error e => .error (.InvalidURL
      s!"could not join base_url with \"{String.ofList url.text}\": {e}")

theorem BaseUrl.join_eq (crate : UrlCrate) (b : BaseUrl) (url : UrlReference) :
    b.join crate url = BaseUrl.joinTo crate b.inner url := rfl

/-- The URL of a reference that names a host of its own: `has_authority`. -/
def UrlReference.ownHost : UrlReference → Option Url
  | .Absolute url => if url.1.authority.isSome then some url.1 else none
  | .Relative _ => none

namespace Client

variable (libs : Libraries) (config : ClientConfig)

def mergeUrl (url : UrlReference) : Except RqxCoreError Url :=
  match url.ownHost,config.baseUrl with
  | some absolute,_ => .ok absolute
  | none,some base => BaseUrl.joinTo libs.url base url
  | none,none => .error (.UnsupportedProtocol
      "Request URL is missing an 'http://' or 'https://' protocol.")

/-- The query of the request, if it has params. -/
def withParams (request : CallerRequest) (url : Url) : Url :=
  match request.params with
  | none => url
  | some params =>
    let query := params.text libs.form
    if query.isEmpty then url.setQuery none else url.setQuery (some query.toList)

/-- What the builder is told, in order. -/
def builderCalls (request : CallerRequest) (seconds : ℚ) : List BuilderCall :=
  (match request.headers with
    | some headers => [.headers headers.inner]
    | none => [])++
  (match request.auth.getD config.auth with
    | .None => []
    | .Basic username password => [.basicAuth username (some password)]
    | .Bearer token => [.bearerAuth token])++
  (match request.body with
    | .Content content => [.body content]
    | .Form fields => [.form fields]
    | .Json value => [.json value]
    | .Empty => [])++
  [.timeout seconds]

/-- `build`; `none` is the panic of `Duration::from_secs_f64`. -/
def build (request : CallerRequest) : Option (Except RqxCoreError Request) :=
  match mergeUrl libs config request.url with
  | .error e => some (.error e)
  | .ok url =>
    if !isHttp url then some (.error (.UnsupportedProtocol
      s!"Request URL has an unsupported protocol '{String.ofList url.scheme}://'."))
    else
      (fromSecs (request.timeout.getD config.timeoutSecs)).map fun seconds =>
        ((libs.reqwest.request request.method (withParams libs request url)).bind fun builder =>
          (builderCalls config request seconds).foldlM libs.reqwest.tell builder).mapError
            RqxCoreError.fromReqwest

/-! ## What `build` lets through -/

variable {libs config} {request : CallerRequest} {url : Url} {r : Request}

theorem withParams_scheme : (withParams libs request url).scheme = url.scheme := by
  unfold withParams
  split
  · rfl
  · simp only
    split <;> rfl

theorem build_unsupported (hmerge : mergeUrl libs config request.url = .ok url)
    (h : ¬isHttp url) : build libs config request = some (.error (.UnsupportedProtocol
      s!"Request URL has an unsupported protocol '{String.ofList url.scheme}://'.")) := by
  have hhttp : isHttp url = false := by simpa using h
  simp [build,hmerge,hhttp]

theorem foldlM_tell (hkeeps : libs.reqwest.KeepsScheme) (calls : List BuilderCall) {r r' : Request}
    (h : calls.foldlM libs.reqwest.tell r = .ok r') : r'.url = r.url := by
  induction calls generalizing r with
  | nil =>
    obtain rfl : r = r' := by simpa [pure,Except.pure] using h
    rfl
  | cons call calls ih =>
    rw [List.foldlM_cons] at h
    cases ht : libs.reqwest.tell r call with
    | error e =>
      rw [ht] at h
      cases h
    | ok told =>
      rw [ht] at h
      exact (ih h).trans (hkeeps.tell _ _ _ ht)

/-- A request that is built goes to an `http` or `https` URL. -/
theorem build_ok (hkeeps : libs.reqwest.KeepsScheme)
    (h : build libs config request = some (.ok r)) : isHttp r.url := by
  unfold build at h
  split at h
  · cases h
  · rename_i url _
    split at h
    · cases h
    · rename_i hhttp
      have hhttp : isHttp url := by simpa using hhttp
      obtain ⟨seconds,_,hbuilt⟩ := Option.map_eq_some_iff.mp h
      cases hnew : libs.reqwest.request request.method (withParams libs request url) with
      | error e =>
        rw [hnew] at hbuilt
        cases hbuilt
      | ok first =>
        rw [hnew] at hbuilt
        simp only [Except.bind] at hbuilt
        cases hcalls : (builderCalls config request seconds).foldlM libs.reqwest.tell first with
        | error e =>
          rw [hcalls] at hbuilt
          cases hbuilt
        | ok last =>
          rw [hcalls] at hbuilt
          obtain rfl : last = r := by simpa [Except.mapError] using hbuilt
          have hscheme : last.url.scheme = url.scheme := by
            rw [foldlM_tell hkeeps _ hcalls,hkeeps.request _ _ _ hnew,withParams_scheme]
          simpa [isHttp,hscheme] using hhttp

/-- With a URL that may be sent to, no failure of `build` is `UnsupportedProtocol`. -/
theorem build_supported (hmerge : mergeUrl libs config request.url = .ok url) (h : isHttp url)
    (message : String) : build libs config request ≠ some (.error (.UnsupportedProtocol message)) := by
  intro hbuild
  simp only [build,hmerge,h,Bool.not_true,Bool.false_eq_true,if_false] at hbuild
  obtain ⟨seconds,_,hbuilt⟩ := Option.map_eq_some_iff.mp hbuild
  generalize Except.bind _ _ = built at hbuilt
  cases built with
  | error e => exact RqxCoreError.fromReqwest_ne_unsupported e message (Except.error.inj hbuilt)
  | ok r => cases hbuilt

end Client
end Rqx
