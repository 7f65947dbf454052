import Rqx.Backoff
import Rqx.Exceptions
import Rqx.StreamResponse
import Rqx.UnsupportedProtocol

/-! `PyClient.request`, from its arguments to a response with its body read, and the exceptions
it can raise. -/
namespace Rqx
open Whatwg HttpClient

inductive TimeoutArg
  | Timeout (timeout : Rqx.Timeout)
  | Seconds (n : Number)

def TimeoutArg.toTimeout : TimeoutArg → Rqx.Timeout
  | .Timeout timeout => timeout
  | .Seconds n => ⟨some n,some n,some n,some n⟩

def Auth.new (basic : Option (String × String)) (bearer : Option String) :
    Except RqxCoreError Auth :=
  match basic,bearer with
  | none,none => .ok .None
  | some (username,password),none => .ok (.Basic username password)
  | none,some token => .ok (.Bearer token)
  | some _,some _ =>
    .error (.InvalidArgument "Cannot specify both basic auth and a bearer token.")

def RequestBody.new (content : Option Bytes) (data : Option (List (String × String)))
    (json : Option PyJson.Value) : Except RqxCoreError RequestBody :=
  match content,data,json with
  | none,none,none => .ok .Empty
  | some content,none,none => .ok (.Content content)
  | none,some data,none => .ok (.Form data)
  | none,none,some json => .ok (.Json json)
  | _,_,_ => .error (.InvalidArgument "Only one of content, data, or json may be set")

/-- The arguments of `PyClient.request`, after their own conversions. -/
structure Arguments where
  method : String
  url : UrlReference
  content : Option Bytes
  data : Option (List (String × String))
  json : Option PyJson.Value
  params : Option QueryPairs
  headers : Option Headers
  auth : Option (String × String)
  authBearer : Option String
  followRedirects : Option Bool
  timeout : Option TimeoutArg

/-- What building a method takes from `http` and from `Debug`. -/
structure MethodCrate where
  /-- `Method::from_bytes`. -/
  fromBytes : String → Except String Method
  /-- The text of a string in quotes. -/
  debug : String → String

/-- `Request::new`, as far as it can fail. -/
def MethodCrate.parse (crate : MethodCrate) (method : String) : Except RqxCoreError Method :=
  (crate.fromBytes (method.map Char.toUpper)).mapError fun e =>
    .InvalidArgument s!"invalid method {crate.debug method}: {e}"

/-- Without either argument the auth of the client is left to apply. -/
def Arguments.authConfig (args : Arguments) : Except RqxCoreError (Option Auth) :=
  match args.auth,args.authBearer with
  | none,none => .ok none
  | auth,authBearer => (Auth.new auth authBearer).map some

/-- The request that the arguments ask for. -/
def Arguments.toRequest (crate : MethodCrate) (args : Arguments) :
    Except RqxCoreError CallerRequest := do
  let auth ← args.authConfig
  let body ← RequestBody.new args.content args.data args.json
  let method ← crate.parse args.method
  return {
    method
    url := args.url
    params := args.params
    headers := args.headers
    body
    auth
    timeout := args.timeout.bind fun t => t.toTimeout.perRequestTotal
    followRedirects := args.followRedirects }

structure BufferedResponse where
  parts : ResponseParts
  body : Bytes

/-- `PendingResponse::read`. -/
def PendingResponse.read (pending : PendingResponse) : Except RqxCoreError BufferedResponse :=
  match readAll pending.response with
  | .ok body => .ok ⟨pending.parts,body⟩
  | .error e => .error (.fromReqwest e)

/-- The last send has panicked, and with it all that awaited it. -/
def HttpClient.Traffic.panicked {ω : Type} (traffic : Traffic ω) : Bool :=
  traffic.hops.getLast?.any Hop.panicked

/-- How a whole request ends; `none` is a panic. -/
structure Outcome (ω : Type) where
  result : Option (Except RqxCoreError BufferedResponse)
  cookies : Cookies
  traffic : Traffic ω

/-- The class of what is raised, if anything is. -/
def Outcome.raised {ω : Type} (outcome : Outcome ω) : Option ExceptionClass :=
  match outcome.result with
  | none => some .PanicException
  | some (.error e) => some e.raisedAs
  | some (.ok _) => none

section Request

variable {ω : Type} (libs : Libraries) (crate : MethodCrate) (config : ClientConfig)
variable (http : HttpClient ω) (retryConfig : Option Retry)

/-- Build and send a request, then buffer the body. -/
def Client.request (request : CallerRequest) (cookies : Cookies) (traffic : Traffic ω) :
    Outcome ω :=
  let ended := call libs config (http.transport retryConfig) request cookies traffic
  if !ended.sent.isEmpty && ended.world.panicked then ⟨none,ended.cookies,ended.world⟩
  else match ended.result with
  | none => ⟨none,ended.cookies,ended.world⟩
  | some (.error e) => ⟨some (.error e),ended.cookies,ended.world⟩
  | some (.ok pending) => ⟨some pending.read,ended.cookies,
      { ended.world with world := http.bytes pending.response ended.world.world }⟩

/-- `request`. -/
def PyClient.request (args : Arguments) (cookies : Cookies) (traffic : Traffic ω) : Outcome ω :=
  match args.toRequest crate with
  | .error e => ⟨some (.error e),cookies,traffic⟩
  | .ok request => Client.request libs config http retryConfig request cookies traffic

/-- What is wrong with the arguments: two ways to authorize, two bodies, a method that is none,
or a URL that the base URL cannot be joined with. -/
def PyClient.refusal (args : Arguments) : Option RqxCoreError :=
  if args.auth.isSome && args.authBearer.isSome then
    some (.InvalidArgument "Cannot specify both basic auth and a bearer token.")
  else if 1 < [args.content.isSome,args.data.isSome,args.json.isSome].count true then
    some (.InvalidArgument "Only one of content, data, or json may be set")
  else
    match crate.parse args.method,args.url.ownHost,config.baseUrl with
    | .error e,_,_ => some e
    | .ok _,none,some base =>
      match BaseUrl.joinTo libs.url base args.url with
      | .error e => some e
      | .ok _ => none
    | .ok _,_,_ => none

end Request

/-! ## What sending can raise -/

/-- A `RequestError`, or the retries are used up. -/
def FailsSending (retryConfig : Option Retry) (e : RqxCoreError) : Prop :=
  e.raisedAs.isSubclass .RequestError = true ∨
    retryConfig.isSome = true ∧ e.raisedAs = .MaxRetriesExceeded

theorem FailsSending.http {retryConfig : Option Retry} {e : RqxCoreError}
    (h : FailsSending retryConfig e) : e.raisedAs.isSubclass .HTTPError = true := by
  rcases h with h | ⟨_,h⟩
  · exact RqxCoreError.request_http h
  · rw [h]
    rfl

section Sending

variable {ω : Type} {crate : UrlCrate} {http : HttpClient ω} {r : Retry}
  {retryConfig : Option Retry} {redirects : RedirectPolicy} {e : RqxCoreError}

end Sending

section Arguments

variable {ω : Type} {libs : Libraries} {crate : MethodCrate} {config : ClientConfig}
variable {http : HttpClient ω} {retryConfig : Option Retry} {args : Arguments}
variable {cookies : Cookies} {traffic : Traffic ω}

end Arguments

section Contained

variable {ω : Type} {retryConfig : Option Retry} {seconds : Number} {cookies : Cookies}
variable {traffic : Traffic ω}

end Contained

/-- The seconds that the whole request is given. -/
def Arguments.seconds (config : ClientConfig) (args : Arguments) : Number :=
  (args.timeout.bind fun t => t.toTimeout.perRequestTotal).getD config.timeoutSecs

end Rqx
