import Mathlib.Data.List.Basic
import Mathlib.Data.Int.Notation

/-! The errors core produces, their conversion from `reqwest::Error`, and the
Python exceptions the bindings raise for them. -/
namespace Rqx

/-- `JSONDecodeError`: `pos` counts characters of `doc`. -/
structure JSONDecodeError where
  message : String
  doc : String
  pos : ℕ
  deriving DecidableEq, Repr

/-- Every error core produces; each but the last four is raised as one exception class. -/
inductive RqxCoreError
  | ConnectTimeout (message : String)
  | ReadTimeout (message : String)
  | ConnectError (message : String)
  | ReadError (message : String)
  | RemoteProtocolError (message : String)
  | ProxyError (message : String)
  | UnsupportedProtocol (message : String)
  | DecodingError (message : String)
  | TooManyRedirects (message : String)
  | RequestError (message : String)
  | HTTPStatusError (message : String)
  | MaxRetriesExceeded (message : String)
  | InvalidURL (message : String)
  | JSONDecode (error : JSONDecodeError)
  | StreamClosed (message : String)
  | StreamError (message : String)
  | TLSConfigError (message : String)
  | InvalidArgument (message : String)
  | UnknownKeyword (message : String)
  | MissingKey (message : String)
  deriving DecidableEq, Repr

/-- `Display`. -/
def RqxCoreError.text : RqxCoreError → String
  | JSONDecode e => e.message
  | ConnectTimeout message | ReadTimeout message | ConnectError message | ReadError message
  | RemoteProtocolError message | ProxyError message | UnsupportedProtocol message
  | DecodingError message | TooManyRedirects message | RequestError message
  | HTTPStatusError message | MaxRetriesExceeded message | InvalidURL message
  | StreamClosed message | StreamError message | TLSConfigError message
  | InvalidArgument message | UnknownKeyword message | MissingKey message => message

/-- What the conversion reads off the first `hyper::Error` among an error's sources. -/
structure HyperError where
  isParse : Bool
  isIncompleteMessage : Bool
  /-- The OS error of the `io::Error` directly underneath, if there is one. -/
  rawOsError : Option ℤ
  deriving DecidableEq, Repr

/-- What the conversion reads off a `reqwest::Error`. -/
structure ReqwestError where
  text : String
  isTimeout : Bool
  isConnect : Bool
  isRedirect : Bool
  isBody : Bool
  isDecode : Bool
  /-- The texts along the chain of sources, outermost first. -/
  sources : List String
  hyper : Option HyperError
  deriving DecidableEq, Repr

/-- hyper-util keeps its tunnel error type private, so its text is all there is to match. -/
def tunnelRefused : List String :=
  ["tunnel error: unsuccessful","tunnel error: proxy authorization required"]

/-- `From<reqwest::Error> for RqxCoreError`. -/
def RqxCoreError.fromReqwest (value : ReqwestError) : RqxCoreError :=
  if value.isTimeout then
    if value.isConnect then .ConnectTimeout value.text else .ReadTimeout value.text
  else if value.isConnect then
    if value.sources.any (tunnelRefused.contains ·) then .ProxyError value.text
    else .ConnectError value.text
  else if value.isRedirect then .TooManyRedirects value.text
  else
    match value.hyper with
    | some hyper =>
      -- The server broke HTTP, unless the network failed underneath hyper.
      if hyper.isParse || hyper.isIncompleteMessage then .RemoteProtocolError value.text
      else
        match hyper.rawOsError with
        | some _ => .ReadError value.text
        | none => .RemoteProtocolError value.text
    | none =>
      if value.isBody || value.isDecode then .DecodingError value.text
      else .RequestError s!"request failed: {value.text}"

/-- The Python exceptions the bindings build themselves, not through a core error. -/
inductive PyErr
  | StopAsyncIteration
  | ValueError (message : String)
  | StreamConsumed (message : String)
  | StreamClosed (message : String)
  | ResponseNotRead (message : String)
  deriving DecidableEq, Repr

/-- The error a pymethod returns: a core error or a Python one. -/
inductive PyRqxError
  | Core (e : RqxCoreError)
  | Py (e : PyErr)
  deriving DecidableEq, Repr

/-- A failed read is never mistaken for a closed stream: the conversion of a
network error is not `StreamClosed`. -/
theorem RqxCoreError.fromReqwest_ne_streamClosed (value : ReqwestError) (message : String) :
    RqxCoreError.fromReqwest value ≠ .StreamClosed message := by
  unfold RqxCoreError.fromReqwest
  repeat' split
  all_goals simp

/-- What reqwest refuses is not told apart as an unsupported protocol. -/
theorem RqxCoreError.fromReqwest_ne_unsupported (value : ReqwestError) (message : String) :
    RqxCoreError.fromReqwest value ≠ .UnsupportedProtocol message := by
  unfold RqxCoreError.fromReqwest
  repeat' split
  all_goals simp

end Rqx
