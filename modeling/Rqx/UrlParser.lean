import Rqx.UrlPath
import Mathlib.Data.List.DropRight

/-! The WHATWG URL parser for a base URL with a special scheme other than `file`: the
authority, and the resolution of a reference. -/
namespace Whatwg
open Split

/-! ## References -/

structure Reference where
  body : Chars
  query : Option Chars
  fragment : Option Chars

def Reference.split (text : Chars) : Reference :=
  let (text,fragment) := splitFirst '#' text
  let (body,query) := splitFirst '?' text
  { body, query, fragment }

def isC0OrSpace (c : Char) : Bool := c.toNat ≤ 32

/-- What the parser drops first: control characters and spaces at both ends, tabs and
newlines anywhere. -/
def clean (text : Chars) : Chars :=
  ((text.dropWhile isC0OrSpace).rdropWhile isC0OrSpace).filter
    fun c => !(['\t','\n','\r'].contains c)

def isSchemeChar (c : Char) : Bool := c.isAlphanum || c = '+' || c = '-' || c = '.'

def splitScheme (text : Chars) : Option (Chars × Chars) :=
  if (text.headD ' ').isAlpha then
    match text.dropWhile isSchemeChar with
    | ':' :: rest => some ((text.takeWhile isSchemeChar).map Char.toLower,rest)
    | _ => none
  else none

/-- What a reference is to a base with a special scheme. -/
inductive Kind
  /-- A URL of its own, with another scheme. -/
  | other (scheme rest : Chars)
  /-- With an authority of its own, after the slashes. -/
  | authority (rest : Chars)
  | relative (rest : Chars)

def relativeKind (text : Chars) : Kind :=
  if (text.takeWhile isSlash).length < 2 then .relative text
  else .authority (text.dropWhile isSlash)

def kind (baseScheme text : Chars) : Kind :=
  match splitScheme text with
  | some (scheme,rest) => if scheme = baseScheme then relativeKind rest else .other scheme rest
  | none => relativeKind text

/-- What `splitScheme` cuts off. -/
theorem splitScheme_some {text scheme rest : Chars} (h : splitScheme text = some (scheme,rest)) :
    ∃ pre, text = pre ++ ':' :: rest ∧ pre ≠ [] ∧ ∀ c ∈ pre, isSchemeChar c := by
  unfold splitScheme at h
  split at h
  · rename_i halpha
    split at h
    · rename_i rest' hdrop
      obtain ⟨-,rfl⟩ := Prod.mk.inj (Option.some.inj h)
      refine ⟨text.takeWhile isSchemeChar,?_,?_,fun c hc => List.mem_takeWhile_imp hc⟩
      · rw [← hdrop,List.takeWhile_append_dropWhile]
      · cases text with
        | nil => simp at halpha
        | cons c text =>
          have hc : isSchemeChar c := by
            have halpha : c.isAlpha := by simpa using halpha
            simp [isSchemeChar,Char.isAlphanum,halpha]
          simp [hc]
    · simp at h
  · simp at h

section Kinds

variable {baseScheme text scheme rest : Chars}

theorem relativeKind_ne_other : relativeKind text ≠ .other scheme rest := by
  unfold relativeKind
  split <;> simp

theorem kind_other (h : kind baseScheme text = .other scheme rest) :
    splitScheme text = some (scheme,rest) ∧ scheme ≠ baseScheme := by
  unfold kind at h
  split at h
  · rename_i hs
    split at h
    · exact absurd h relativeKind_ne_other
    · rename_i hne
      cases h
      exact ⟨hs,hne⟩
  · exact absurd h relativeKind_ne_other

theorem relativeKind_authority (h : relativeKind text = .authority rest) :
    rest = text.dropWhile isSlash ∧ text.takeWhile isSlash ≠ [] := by
  unfold relativeKind at h
  split at h
  · cases h
  · rename_i hlen
    cases h
    exact ⟨rfl,fun he => hlen (by simp [he])⟩

/-- An authority stands behind the base's own scheme, or at the front. -/
theorem kind_authority (h : kind baseScheme text = .authority rest) :
    (∃ after, splitScheme text = some (baseScheme,after) ∧ rest = after.dropWhile isSlash) ∨
      text.takeWhile isSlash ≠ [] := by
  unfold kind at h
  split at h
  · rename_i scheme after hs
    split at h
    · rename_i he
      exact .inl ⟨after,he ▸ hs,(relativeKind_authority h).1⟩
    · cases h
  · exact .inr (relativeKind_authority h).2

theorem relativeKind_relative (h : relativeKind text = .relative rest) : rest = text := by
  unfold relativeKind at h
  split at h <;> cases h
  rfl

theorem kind_relative (h : kind baseScheme text = .relative rest) :
    splitScheme text = some (baseScheme,rest) ∨ splitScheme text = none ∧ rest = text := by
  unfold kind at h
  split at h
  · rename_i scheme after hs
    split at h
    · rename_i he
      obtain rfl := relativeKind_relative h
      exact .inl (he ▸ hs)
    · cases h
  · rename_i hs
    exact .inr ⟨hs,relativeKind_relative h⟩

end Kinds

theorem Reference.split_append {pre : Chars} (h : ∀ c ∈ pre, c ≠ '#' ∧ c ≠ '?') (text : Chars) :
    Reference.split (pre++text) = { Reference.split text with
      body := pre++(Reference.split text).body } := by
  have hhash : ∀ c ∈ pre, decide (c ≠ '#') = true := fun c hc => by simpa using (h c hc).1
  have hquery : ∀ c ∈ pre, decide (c ≠ '?') = true := fun c hc => by simpa using (h c hc).2
  simp only [Reference.split,splitFirst,List.takeWhile_append_of_pos hhash,
    List.dropWhile_append_of_pos hhash,List.takeWhile_append_of_pos hquery,
    List.dropWhile_append_of_pos hquery]

theorem body_append {pre : Chars} (h : ∀ c ∈ pre, c ≠ '#' ∧ c ≠ '?') (text : Chars) :
    (Reference.split (pre++text)).body = pre++(Reference.split text).body :=
  congrArg Reference.body (Reference.split_append h text)

theorem clean_eq {text : Chars} (h : ∀ c ∈ text, 32 < c.toNat) : clean text = text := by
  have hspace : ∀ c ∈ text, isC0OrSpace c = false := fun c hc => by
    simpa [isC0OrSpace] using h c hc
  have hfront : text.dropWhile isC0OrSpace = text := by
    cases text with
    | nil => rfl
    | cons c text => simp [hspace c (by simp)]
  have hback : text.rdropWhile isC0OrSpace = text := by
    rw [List.rdropWhile_eq_self_iff]
    intro hne
    simpa using hspace _ (List.getLast_mem hne)
  rw [clean,hfront,hback,List.filter_eq_self]
  intro c hc
  have hlow := h c hc
  simp only [Bool.not_eq_true',List.contains_eq_mem,decide_eq_false_iff_not,List.mem_cons,
    List.not_mem_nil,or_false,not_or]
  refine ⟨?_,?_,?_⟩ <;> rintro rfl <;> simp at hlow

/-! ## Authorities -/

/-- The parts of the parser that are not written out here: the host parser, and the URLs with
a scheme that is `file` or not special. -/
structure Parsers where
  host : Chars → Except String Chars
  other : Chars → Chars → Except String Url
  other_scheme : ∀ scheme rest url, other scheme rest = .ok url → url.scheme = scheme

/-- The first colon outside brackets starts the port. -/
def splitPort (inBrackets : Bool) : Chars → Chars × Option Chars
  | [] => ([],none)
  | c::text =>
    if c = ':' && !inBrackets then ([],some text)
    else
      let (host,port) := splitPort (if c = '[' then true else if c = ']' then false else inBrackets) text
      (c::host,port)

def parsePort (scheme text : Chars) : Except String (Option ℕ) :=
  if !text.all Char.isDigit then .error "invalid port number"
  else
    let port := text.foldl (fun n c => 10*n+(c.toNat-48)) 0
    if 65535 < port then .error "invalid port number"
    else .ok (if text = [] ∨ defaultPort scheme = some port then none else some port)

def Parsers.authority (parsers : Parsers) (scheme text : Chars) : Except String Authority := do
  let (hostRev,userinfoRev) := splitFirst '@' text.reverse
  let (host,port) := splitPort false hostRev.reverse
  if host = [] then throw "empty host"
  let host ← parsers.host host
  let port ← parsePort scheme (port.getD [])
  let (username,password) := splitFirst ':' (userinfoRev.getD []).reverse
  return {
    username := percentEncode userinfoSet username
    password := percentEncode userinfoSet (password.getD [])
    host, port }

/-! ## Resolution -/

def Path.names : Path → List Chars
  | .whole _ => []
  | .segments names => names

/-- A special URL from where its authority starts. -/
def Parsers.fromAuthority (parsers : Parsers) (scheme text : Chars) : Except String Url := do
  let reference := Reference.split text
  let authority ← parsers.authority scheme (reference.body.takeWhile (!isSlash ·))
  return {
    scheme, authority
    path := .segments (parsePath [] (reference.body.dropWhile (!isSlash ·)).tail)
    query := reference.query.map (percentEncode specialQuerySet)
    fragment := reference.fragment.map (percentEncode fragmentSet) }

/-- A reference without an authority, against the base. -/
def relative (base : Url) (text : Chars) : Url :=
  let reference := Reference.split text
  let query := reference.query.map (percentEncode specialQuerySet)
  let fragment := reference.fragment.map (percentEncode fragmentSet)
  match reference.body with
  | [] => { base with query := query <|> base.query, fragment }
  | c::rest =>
    let path := if isSlash c then parsePath [] rest
      else parsePath base.path.names.dropLast (c::rest)
    { base with path := .segments path, query, fragment }

/-- A URL of its own, after its scheme. -/
def Parsers.parse (parsers : Parsers) (scheme rest : Chars) : Except String Url :=
  if isSpecialNotFile scheme then parsers.fromAuthority scheme (rest.dropWhile isSlash)
  else parsers.other scheme rest

/-- A cleaned text against a base with a special scheme other than `file`. -/
def Parsers.resolve (parsers : Parsers) (base : Url) (text : Chars) : Except String Url :=
  match kind base.scheme text with
  | .other scheme rest => parsers.parse scheme rest
  | .authority rest => parsers.fromAuthority base.scheme rest
  | .relative rest => .ok (relative base rest)

/-- `Url::join` on such a base. -/
def Parsers.join (parsers : Parsers) (base : Url) (text : Chars) : Except String Url :=
  parsers.resolve base (clean text)

section Resolution

variable {parsers : Parsers} {base url : Url} {scheme text : Chars}

/-- What `fromAuthority` returns: the scheme, the authority it has parsed, and the path. -/
theorem Parsers.fromAuthority_ok (h : parsers.fromAuthority scheme text = .ok url) :
    url.scheme = scheme ∧ (∃ authority, url.authority = some authority ∧
      parsers.authority scheme ((Reference.split text).body.takeWhile (!isSlash ·)) =
        .ok authority) ∧
      url.path = .segments (parsePath []
        ((Reference.split text).body.dropWhile (!isSlash ·)).tail) := by
  simp only [Parsers.fromAuthority] at h
  cases ha : parsers.authority scheme
    ((Reference.split text).body.takeWhile (!isSlash ·)) with
  | error e => simp [ha,bind,Except.bind] at h
  | ok authority =>
    simp only [ha,bind,Except.bind,pure,Except.pure,Except.ok.injEq] at h
    subst h
    exact ⟨rfl,⟨authority,rfl,rfl⟩,rfl⟩

theorem Parsers.parse_scheme (h : parsers.parse scheme text = .ok url) : url.scheme = scheme := by
  unfold Parsers.parse at h
  split at h
  · exact (fromAuthority_ok h).1
  · exact parsers.other_scheme _ _ _ h

theorem Parsers.fromAuthority_of_ok {authority : Authority}
    (h : parsers.authority scheme ((Reference.split text).body.takeWhile (!isSlash ·)) =
      .ok authority) : ∃ url, parsers.fromAuthority scheme text = .ok url := by
  simp [Parsers.fromAuthority,h,bind,Except.bind,pure,Except.pure]

theorem relative_scheme (base : Url) (text : Chars) : (relative base text).scheme = base.scheme := by
  simp only [relative]
  split <;> rfl

theorem relative_authority (base : Url) (text : Chars) :
    (relative base text).authority = base.authority := by
  simp only [relative]
  split <;> rfl

/-- The path of a relative reference, by how the reference begins. -/
theorem relative_path (base : Url) (text : Chars) :
    (relative base text).path = match (Reference.split text).body with
      | [] => base.path
      | c::rest => .segments (if isSlash c then parsePath [] rest
        else parsePath base.path.names.dropLast (c::rest)) := by
  simp only [relative]
  split <;> simp_all

end Resolution

/-! ## URLs as the parser leaves them -/

/-- No host contains these. -/
def forbiddenHostSet (c : Char) : Bool :=
  c.toNat ≤ 32 || ['#','/','<','>','?','@','\\','^','|'].contains c

structure Authority.Valid (authority : Authority) : Prop where
  username : ∀ c ∈ authority.username, userinfoSet c = false
  password : ∀ c ∈ authority.password, userinfoSet c = false
  host : ∀ c ∈ authority.host, forbiddenHostSet c = false

structure Url.Valid (url : Url) : Prop where
  scheme_ne : url.scheme ≠ []
  scheme : ∀ c ∈ url.scheme, isSchemeChar c
  authority : ∀ authority ∈ url.authority, authority.Valid
  /-- A URL whose path is no list has no authority. -/
  whole : ∀ text, url.path = .whole text → url.authority = none
  /-- A special URL has an authority and a path. -/
  special : isSpecialNotFile url.scheme → url.authority.isSome ∧
    ∃ names, url.path = .segments names ∧ names ≠ [] ∧ ∀ name ∈ names, ∀ c ∈ name, plain c
  path : ∀ c ∈ url.path.text, c ≠ '?' ∧ c ≠ '#'
  query : ∀ text ∈ url.query, ∀ c ∈ text, querySet c = false
  fragment : ∀ text ∈ url.fragment, ∀ c ∈ text, fragmentSet c = false

end Whatwg
