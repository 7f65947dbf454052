import Rqx.Decoding
import Mathlib.Data.Rat.Defs

/-! `Headers` and `ResponseParts`: what is known of a response before its body, and the
decoding of a buffered body. -/
namespace Rqx

/-- `http::HeaderMap`: names in lower case, the values of one name in order. -/
abbrev HeaderMap := List (String × Bytes)

namespace HeaderMap

def get (headers : HeaderMap) (name : String) : Option Bytes :=
  (headers.find? fun (key,_) => key = name).map Prod.snd

def getAll (headers : HeaderMap) (name : String) : List Bytes :=
  (headers.filter fun (key,_) => key = name).map Prod.snd

def containsKey (headers : HeaderMap) (name : String) : Bool := (headers.get name).isSome

def remove (headers : HeaderMap) (name : String) : HeaderMap :=
  headers.filter fun (key,_) => key ≠ name

@[simp] theorem get_remove_self (headers : HeaderMap) (name : String) :
    (headers.remove name).get name = none := by
  simp [get,remove,List.find?_filter]

@[simp] theorem get_remove_of_ne (headers : HeaderMap) {name other : String} (h : other ≠ name) :
    (headers.remove name).get other = headers.get other := by
  have hp : (fun p : String × Bytes => decide (p.1 ≠ name ∧ p.1 = other)) =
      fun p => decide (p.1 = other) := by
    funext p
    rw [decide_eq_decide]
    exact ⟨And.right,fun hp => ⟨hp ▸ h,hp⟩⟩
  simp only [get,remove,List.find?_filter,decide_eq_true_eq,hp]

@[simp] theorem getAll_remove_self (headers : HeaderMap) (name : String) :
    (headers.remove name).getAll name = [] := by
  simp [getAll,remove,List.filter_filter]

@[simp] theorem getAll_remove_of_ne (headers : HeaderMap) {name other : String}
    (h : other ≠ name) : (headers.remove name).getAll other = headers.getAll other := by
  have hp : (fun p : String × Bytes => decide (p.1 = other) && decide (p.1 ≠ name)) =
      fun p => decide (p.1 = other) := by
    funext p
    by_cases hk : p.1 = other
    · simp [hk,h]
    · simp [hk]
  simp only [getAll,remove,List.filter_filter,hp]

end HeaderMap

/-- `HeaderValue::to_str`: visible ASCII, space and tab only. -/
def headerValueToStr (value : Bytes) : Option String :=
  if value.all fun b => b = 9 || (32 ≤ b && b < 127) then
    some (String.ofList (value.map fun b => Char.ofNat b.toNat))
  else none

structure Headers where
  inner : HeaderMap
  deriving DecidableEq

/-- The first value of `key`, if it is text. -/
def Headers.getFirst (headers : Headers) (key : String) : Option String :=
  (headers.inner.get key).bind headerValueToStr

def Headers.contains (headers : Headers) (key : String) : Bool := headers.inner.containsKey key

structure ResponseParts where
  statusCode : ℕ
  headers : Headers
  cookies : List (String × String)
  numRetries : ℕ
  /-- Per retry: what the attempt ended in and the milliseconds it took. -/
  retryHistory : List (String × ℚ)
  encodingOverride : Option String
  deriving DecidableEq

/-- `encoding_rs` and `mime`, as far as the choice of an encoding uses them. -/
structure Encodings where
  /-- `Encoding::for_label`. -/
  forLabel : String → Option Encoding
  UTF_8 : Encoding
  /-- `Encoding::name`. -/
  name : Encoding → String
  /-- The charset parameter of a header value that parses as a MIME type. -/
  charset : String → Option String

namespace ResponseParts

def contentType (parts : ResponseParts) : Option String := parts.headers.getFirst "content-type"

/-- The encoding that the Content-Type header names, if `encoding_rs` knows it. -/
def detectEncodingFromHeaders (rs : Encodings) (parts : ResponseParts) : Option Encoding :=
  (parts.contentType.bind rs.charset).bind rs.forLabel

def resolvedEncoding (rs : Encodings) (parts : ResponseParts) : Encoding :=
  match parts.encodingOverride with
  | some label => (rs.forLabel label).getD rs.UTF_8
  | none => (parts.detectEncodingFromHeaders rs).getD rs.UTF_8

def encoding (rs : Encodings) (parts : ResponseParts) : String :=
  match parts.encodingOverride with
  | some label => label
  | none => ((parts.detectEncodingFromHeaders rs).map fun enc => (rs.name enc).toLower).getD "utf-8"

def text (rs : Encodings) (parts : ResponseParts) (body : Bytes) : Text :=
  (parts.resolvedEncoding rs).decode body

def isRedirect (parts : ResponseParts) : Bool :=
  300 ≤ parts.statusCode && parts.statusCode < 400 && parts.headers.contains "location"

end ResponseParts
end Rqx
