import Rqx.UrlParser

/-! The basic URL parser of the WHATWG URL standard on a text of its own: special schemes,
`file`, and all others. The host parser is a parameter. -/
namespace Whatwg
open Split

def file : Chars := ['f','i','l','e']

def isSpecial (scheme : Chars) : Bool := isSpecialNotFile scheme || scheme = file

/-- The host parser, for special URLs and for the others. -/
structure HostParser where
  parse : (special : Bool) → Chars → Except String Chars
  parse_valid : ∀ special text host, parse special text = .ok host →
    ∀ c ∈ host, forbiddenHostSet c = false
  /-- `@` is forbidden in a host. -/
  parse_at : ∀ special text, '@' ∈ text → ∃ e, parse special text = .error e

inductive ParseError
  | RelativeUrlWithoutBase
  | Invalid (message : String)

def ParseError.text : ParseError → String
  | .RelativeUrlWithoutBase => "relative URL without a base"
  | .Invalid message => message

/-- What ends a segment, and the authority. -/
def isSlashOf (scheme : Chars) (c : Char) : Bool := c = '/' || (isSpecial scheme && c = '\\')

def querySetOf (scheme : Chars) : Char → Bool := if isSpecial scheme then specialQuerySet else querySet

/-! ## Paths -/

def isDriveLetter : Chars → Bool
  | [a,b] => a.isAlpha && (b = ':' || b = '|')
  | _ => false

/-- The path without its last segment; a drive letter stays. -/
def shorten (scheme : Chars) (path : List Chars) : List Chars :=
  if scheme = file ∧ path.length = 1 ∧ path.all fun name => isDriveLetter name && name.getLast? = some ':'
  then path
  else path.dropLast

/-- The first segment of a `file` URL may be a drive letter, which ends in a colon. -/
def segmentOf (scheme : Chars) (path : List Chars) (segment : Chars) : Chars :=
  if scheme = file ∧ path = [] ∧ isDriveLetter segment then segment.take 1++[':'] else segment

def pushOf (scheme : Chars) (path : List Chars) (segment : Chars) (last : Bool) : List Chars :=
  if isDoubleDot segment then if last then shorten scheme path++[[]] else shorten scheme path
  else if isSingleDot segment then if last then path++[[]] else path
  else path++[segmentOf scheme path segment]

def pushAllOf (scheme : Chars) (path : List Chars) : List Chars → List Chars
  | [] => path
  | [segment] => pushOf scheme path segment true
  | segment::segments => pushAllOf scheme (pushOf scheme path segment false) segments

/-- The path state over `text`. -/
def parsePathOf (scheme text : Chars) : List Chars :=
  pushAllOf scheme [] ((text.splitOnP (isSlashOf scheme)).map (percentEncode pathSet))

def pathAfter (scheme : Chars) : Chars → List Chars
  | [] => if isSpecial scheme then parsePathOf scheme [] else []
  | _::text => parsePathOf scheme text

/-! ## The parser -/

/-- The credentials before the last `@`, the host, and the port behind the first colon outside
brackets. -/
structure AuthorityText where
  userinfo : Option Chars
  host : Chars
  port : Option Chars

def cutAuthority (text : Chars) : AuthorityText where
  userinfo := (splitFirst '@' text.reverse).2.map List.reverse
  host := (splitPort false (splitFirst '@' text.reverse).1.reverse).1
  port := (splitPort false (splitFirst '@' text.reverse).1.reverse).2

namespace HostParser

variable (hosts : HostParser)

/-- The authority of a `file` URL is a host, if anything. -/
def fileAuthority (text : Chars) : Except String Authority :=
  if text = [] then .ok ⟨[],[],[],none⟩
  else match hosts.parse true text with
    | .error e => .error e
    | .ok host => .ok ⟨[],[],if host = "localhost".toList then [] else host,none⟩

def netAuthority (scheme text : Chars) : Except String Authority :=
  let parts := cutAuthority text
  if parts.host = [] ∧ (isSpecial scheme ∨ parts.userinfo.isSome ∨ parts.port.isSome) then
    .error "empty host"
  else match hosts.parse (isSpecial scheme) parts.host,parsePort scheme (parts.port.getD []) with
    | .error e,_ => .error e
    | _,.error e => .error e
    | .ok host,.ok port =>
      let (username,password) := splitFirst ':' (parts.userinfo.getD [])
      .ok ⟨percentEncode userinfoSet username,percentEncode userinfoSet (password.getD []),host,port⟩

def authority (scheme text : Chars) : Except String Authority :=
  if scheme = file then hosts.fileAuthority text else hosts.netAuthority scheme text

/-- A URL from where its authority starts. -/
def fromAuthority (scheme text : Chars) : Except String Url :=
  let reference := Reference.split text
  (hosts.authority scheme (reference.body.takeWhile (!isSlashOf scheme ·))).map fun authority => {
    scheme
    authority := some authority
    path := .segments (pathAfter scheme (reference.body.dropWhile (!isSlashOf scheme ·)))
    query := reference.query.map (percentEncode (querySetOf scheme))
    fragment := reference.fragment.map (percentEncode fragmentSet) }

end HostParser

/-- A URL without a host. -/
def hostless (scheme : Chars) (authority : Option Authority) (path : Chars → Path) (text : Chars) : Url :=
  let reference := Reference.split text
  { scheme, authority
    path := path reference.body
    query := reference.query.map (percentEncode (querySetOf scheme))
    fragment := reference.fragment.map (percentEncode fragmentSet) }

/-- A `file` URL that is a path. -/
def filePath (text : Chars) : Url :=
  hostless file (some ⟨[],[],[],none⟩) (fun body => .segments (parsePathOf file body)) text

/-- The path of a URL that is not special and has no authority. -/
def plainPath (scheme : Chars) : Chars → Path
  | '/' :: body => .segments (parsePathOf scheme body)
  | body => .whole (percentEncode c0ControlSet body)

namespace HostParser

variable (hosts : HostParser)

/-- A host that is a drive letter is the beginning of the path. -/
def fileUrl (rest : Chars) : Except String Url :=
  match rest with
  | a::b::text =>
    if isSlash a && isSlash b then
      if isDriveLetter ((Reference.split text).body.takeWhile (!isSlashOf file ·)) then
        .ok (filePath text)
      else hosts.fromAuthority file text
    else .ok (filePath (if isSlash a then b::text else rest))
  | [a] => .ok (filePath (if isSlash a then [] else rest))
  | [] => .ok (filePath [])

def otherUrl (scheme rest : Chars) : Except String Url :=
  match rest with
  | '/' :: '/' :: text => hosts.fromAuthority scheme text
  | _ => .ok (hostless scheme none (plainPath scheme) rest)

/-- A URL after its scheme. -/
def afterScheme (scheme rest : Chars) : Except String Url :=
  if isSpecialNotFile scheme then hosts.fromAuthority scheme (rest.dropWhile isSlash)
  else if scheme = file then hosts.fileUrl rest
  else hosts.otherUrl scheme rest

/-- `Url::parse`, as the standard has it. `url` 2.5.8 departs from that in `file` URLs (empty segments
in front, and a host before a drive letter, are dropped) and in URLs that are not special (a backslash
ends the port, and credentials that are a colon need no host). -/
def parseUrl (text : Chars) : Except ParseError Url :=
  match splitScheme (clean text) with
  | none => .error .RelativeUrlWithoutBase
  | some (scheme,rest) => (hosts.afterScheme scheme rest).mapError .Invalid

end HostParser

/-! ## What the path is made of -/

section Paths

variable {scheme : Chars} {path segments : List Chars} {segment t : Chars} {last : Bool}

theorem shorten_subset : ∀ name ∈ shorten scheme path, name ∈ path := by
  intro name hname
  unfold shorten at hname
  split at hname
  · exact hname
  · exact List.dropLast_subset path hname

theorem mem_pushOf (h : t ∈ pushOf scheme path segment last) :
    t ∈ path ∨ t = [] ∨ (t = segmentOf scheme path segment ∧ isDot segment = false) := by
  unfold pushOf at h
  split at h
  · split at h
    · rcases List.mem_append.mp h with h | h
      · exact .inl (shorten_subset t h)
      · exact .inr (.inl (List.mem_singleton.mp h))
    · exact .inl (shorten_subset t h)
  · rename_i hdouble
    split at h
    · split at h
      · rcases List.mem_append.mp h with h | h
        · exact .inl h
        · exact .inr (.inl (List.mem_singleton.mp h))
      · exact .inl h
    · rename_i hsingle
      rcases List.mem_append.mp h with h | h
      · exact .inl h
      · exact .inr (.inr ⟨List.mem_singleton.mp h,by simp_all [isDot]⟩)

/-- What holds of the empty segment and of all segments that are kept holds of the path. -/
theorem pushAllOf_rule {P : Chars → Prop} (hnil : P []) (hpath : ∀ name ∈ path, P name)
    (h : ∀ s ∈ segments, ∀ path, isDot s = false → P (segmentOf scheme path s)) :
    ∀ name ∈ pushAllOf scheme path segments, P name := by
  have hpush : ∀ {path : List Chars}, (∀ name ∈ path, P name) → ∀ s ∈ segments, ∀ last,
      ∀ name ∈ pushOf scheme path s last, P name := by
    intro path hpath s hs last name hname
    rcases mem_pushOf hname with hmem | rfl | ⟨rfl,hdot⟩
    · exact hpath name hmem
    · exact hnil
    · exact h s hs path hdot
  induction segments generalizing path with
  | nil => exact hpath
  | cons s segments ih =>
    cases segments with
    | nil => exact hpush hpath s (by simp) true
    | cons s' segments =>
      refine ih (hpush hpath s (by simp) false) (fun t ht => h t (by simp [ht])) ?_
      intro path hpath t ht
      exact hpush hpath t (by simp [ht])

theorem pushAllOf_ne_nil (h : segments ≠ []) : pushAllOf scheme path segments ≠ [] := by
  induction segments generalizing path with
  | nil => exact absurd rfl h
  | cons s segments ih =>
    cases segments with
    | nil =>
      simp only [pushAllOf,pushOf]
      split
      · simp
      · split <;> simp
    | cons s' segments => exact ih (by simp)

theorem parsePathOf_ne_nil (scheme text : Chars) : parsePathOf scheme text ≠ [] :=
  pushAllOf_ne_nil (by simp)

/-- What stays as it is in a segment. -/
def plainOf (scheme : Chars) (c : Char) : Bool := !pathSet c && !isSlashOf scheme c

theorem plainOf_iff {c : Char} :
    plainOf scheme c ↔ pathSet c = false ∧ isSlashOf scheme c = false := by
  simp [plainOf]

theorem segmentOf_mem {P : Char → Prop} (hcolon : P ':') (h : ∀ c ∈ segment, P c) :
    ∀ c ∈ segmentOf scheme path segment, P c := by
  intro c hc
  unfold segmentOf at hc
  split at hc
  · rcases List.mem_append.mp hc with hc | hc
    · exact h c (List.mem_of_mem_take hc)
    · rwa [List.mem_singleton.mp hc]
  · exact h c hc

theorem isSlashOf_of_hex (scheme : Chars) : ∀ n < 16, isSlashOf scheme (hexDigit n) = false := by
  intro n hn
  have hne : ∀ n < 16, hexDigit n ≠ '/' ∧ hexDigit n ≠ '\\' := by decide
  simp [isSlashOf,hne n hn]

theorem parsePathOf_plain (scheme text : Chars) :
    ∀ name ∈ parsePathOf scheme text, ∀ c ∈ name, plainOf scheme c := by
  refine pushAllOf_rule (P := fun name => ∀ c ∈ name, plainOf scheme c) (by simp) (by simp) ?_
  intro s hs path _
  obtain ⟨segment,hsegment,rfl⟩ := List.mem_map.mp hs
  have hcolon : plainOf scheme ':' := plainOf_iff.mpr ⟨by decide,by simp [isSlashOf]⟩
  refine segmentOf_mem hcolon ?_
  refine percentEncode_mem (P := fun c => plainOf scheme c) ?_ ?_ ?_
  · exact plainOf_iff.mpr ⟨by decide,by simp [isSlashOf]⟩
  · intro n hn
    have hhex : ∀ n < 16, pathSet (hexDigit n) = false := by decide
    exact plainOf_iff.mpr ⟨hhex n hn,isSlashOf_of_hex scheme n hn⟩
  · intro c hc hset
    exact plainOf_iff.mpr ⟨hset,(mem_splitOnP hsegment c hc).2⟩

theorem pathAfter_plain (scheme text : Chars) :
    ∀ name ∈ pathAfter scheme text, ∀ c ∈ name, plainOf scheme c := by
  unfold pathAfter
  split
  · split
    · exact parsePathOf_plain scheme []
    · simp
  · exact parsePathOf_plain scheme _

theorem isDot_false_of_segmentOf (h : isDot segment = false) :
    isDot (segmentOf scheme path segment) = false := by
  unfold segmentOf
  split
  · rename_i hdrive
    obtain ⟨_,_,hdrive⟩ := hdrive
    unfold isDriveLetter at hdrive
    split at hdrive
    · have hcolon : ':'.toLower = ':' := by decide
      simp [isDot,isSingleDot,isDoubleDot,hcolon]
    · cases hdrive
  · exact h

end Paths

/-! ## The parser returns valid URLs -/

theorem isSchemeChar_small {c : Char} (h : isSchemeChar c) : c.toNat < 128 := by
  have hval : c.toNat = c.val.toNat := rfl
  simp only [isSchemeChar,Char.isAlphanum] at h
  delta Char.isAlpha Char.isUpper Char.isLower at h
  simp only [Char.isDigit,Bool.or_eq_true,decide_eq_true_eq,ge_iff_le,UInt32.le_iff_toNat_le,
    Bool.and_eq_true] at h
  rcases h with ((h | rfl) | rfl) | rfl
  · have hbounds : 'Z'.val.toNat = 90 ∧ 'z'.val.toNat = 122 ∧ '9'.val.toNat = 57 := by decide
    rcases h with (h | h) | h <;> omega
  · decide
  · decide
  · decide

theorem isSchemeChar_toLower {c : Char} (h : isSchemeChar c) : isSchemeChar c.toLower := by
  have hall : ∀ n < 128, isSchemeChar (Char.ofNat n) → isSchemeChar (Char.ofNat n).toLower := by
    decide
  have hsmall : c.toNat < 128 := isSchemeChar_small h
  have hc := hall c.toNat hsmall
  rw [Char.ofNat_toNat] at hc
  exact hc h

theorem splitScheme_valid {text scheme rest : Chars} (h : splitScheme text = some (scheme,rest)) :
    scheme ≠ [] ∧ ∀ c ∈ scheme, isSchemeChar c := by
  unfold splitScheme at h
  split at h
  · rename_i halpha
    split at h
    · obtain ⟨rfl,-⟩ := Prod.mk.inj (Option.some.inj h)
      refine ⟨?_,fun c hc => ?_⟩
      · cases text with
        | nil => simp at halpha
        | cons c text =>
          have halpha : c.isAlpha := by simpa using halpha
          have hc : isSchemeChar c := by simp [isSchemeChar,Char.isAlphanum,halpha]
          simp [hc]
      · obtain ⟨d,hd,rfl⟩ := List.mem_map.mp hc
        exact isSchemeChar_toLower (List.mem_takeWhile_imp hd)
    · cases h
  · cases h

theorem percentEncode_userinfo (text : Chars) :
    ∀ c ∈ percentEncode userinfoSet text, userinfoSet c = false :=
  percentEncode_mem (P := fun c => userinfoSet c = false) (by decide) (by decide) fun _ _ h => h

theorem querySet_of_querySetOf {scheme : Chars} {c : Char} (h : querySetOf scheme c = false) :
    querySet c = false := by
  unfold querySetOf at h
  split at h
  · simp only [specialQuerySet,Bool.or_eq_false_iff] at h
    exact h.1
  · exact h

theorem percentEncode_query (scheme text : Chars) :
    ∀ c ∈ percentEncode (querySetOf scheme) text, querySet c = false :=
  percentEncode_mem (P := fun c => querySet c = false) (by decide) (by decide)
    fun _ _ h => querySet_of_querySetOf h

theorem percentEncode_fragment (text : Chars) :
    ∀ c ∈ percentEncode fragmentSet text, fragmentSet c = false :=
  percentEncode_mem (P := fun c => fragmentSet c = false) (by decide) (by decide) fun _ _ h => h

section Valid

variable {hosts : HostParser} {scheme rest text : Chars} {url : Url} {authority : Authority}

theorem HostParser.authority_valid (h : hosts.authority scheme text = .ok authority) :
    authority.Valid := by
  unfold HostParser.authority at h
  split at h
  · unfold HostParser.fileAuthority at h
    split at h
    · cases h
      exact ⟨by simp,by simp,by simp⟩
    · split at h
      · cases h
      · rename_i host hp
        cases h
        refine ⟨by simp,by simp,?_⟩
        simp only
        split
        · simp
        · exact hosts.parse_valid true text host hp
  · simp only [HostParser.netAuthority] at h
    split at h
    · cases h
    · split at h
      · cases h
      · cases h
      · rename_i host port hp _
        cases h
        exact ⟨percentEncode_userinfo _,percentEncode_userinfo _,hosts.parse_valid _ _ host hp⟩

theorem segments_text {names : List Chars} (h : ∀ name ∈ names, ∀ c ∈ name, plainOf scheme c) :
    ∀ c ∈ (Path.segments names).text, c ≠ '?' ∧ c ≠ '#' := by
  intro c hc
  simp only [Path.text,List.mem_flatMap,List.mem_cons] at hc
  obtain ⟨name,hname,rfl | hc⟩ := hc
  · decide
  · have hset := (plainOf_iff.mp (h name hname c hc)).1
    constructor
    · rintro rfl
      exact absurd hset (by decide)
    · rintro rfl
      exact absurd hset (by decide)

theorem isSpecial_of_notFile (h : isSpecialNotFile scheme) : isSpecial scheme = true := by
  simp [isSpecial,h]

theorem isSlashOf_special (h : isSpecial scheme = true) : isSlashOf scheme = isSlash := by
  funext c
  simp [isSlashOf,isSlash,h]

theorem plainOf_special (h : isSpecial scheme = true) {c : Char} : plainOf scheme c ↔ plain c := by
  rw [plainOf_iff,plain_iff,isSlashOf_special h]

/-- Neither `?` nor `#` is left in the body. -/
theorem body_mem (text : Chars) : ∀ c ∈ (Reference.split text).body, c ≠ '?' ∧ c ≠ '#' := by
  intro c hc
  simp only [Reference.split,splitFirst] at hc
  have hquery := List.mem_takeWhile_imp hc
  have hhash := List.mem_takeWhile_imp ((List.takeWhile_sublist _).mem hc)
  exact ⟨by simpa using hquery,by simpa using hhash⟩

theorem HostParser.fromAuthority_ok (h : hosts.fromAuthority scheme text = .ok url) :
    ∃ authority, hosts.authority scheme
        ((Reference.split text).body.takeWhile (!isSlashOf scheme ·)) = .ok authority ∧
      url = ⟨scheme,some authority,
        .segments (pathAfter scheme ((Reference.split text).body.dropWhile (!isSlashOf scheme ·))),
        (Reference.split text).query.map (percentEncode (querySetOf scheme)),
        (Reference.split text).fragment.map (percentEncode fragmentSet)⟩ := by
  simp only [HostParser.fromAuthority] at h
  cases ha : hosts.authority scheme
    ((Reference.split text).body.takeWhile (!isSlashOf scheme ·)) with
  | error e =>
    rw [ha] at h
    cases h
  | ok authority =>
    rw [ha] at h
    cases h
    exact ⟨authority,rfl,rfl⟩

theorem pathAfter_ne_nil (h : isSpecial scheme = true) (text : Chars) :
    pathAfter scheme text ≠ [] := by
  unfold pathAfter
  split
  · rw [if_pos h]
    exact parsePathOf_ne_nil scheme []
  · exact parsePathOf_ne_nil scheme _

theorem HostParser.fromAuthority_valid (hne : scheme ≠ []) (hscheme : ∀ c ∈ scheme, isSchemeChar c)
    (h : hosts.fromAuthority scheme text = .ok url) : url.Valid := by
  obtain ⟨authority,hauthority,rfl⟩ := fromAuthority_ok h
  have hplain := pathAfter_plain scheme ((Reference.split text).body.dropWhile (!isSlashOf scheme ·))
  refine ⟨hne,hscheme,?_,?_,?_,segments_text hplain,?_,?_⟩
  · intro other hother
    cases hother
    exact authority_valid hauthority
  · intro whole hwhole
    cases hwhole
  · intro hspecial
    have hspecial := isSpecial_of_notFile hspecial
    exact ⟨rfl,_,rfl,pathAfter_ne_nil hspecial _,fun name hname c hc =>
      (plainOf_special hspecial).mp (hplain name hname c hc)⟩
  · intro query hquery
    obtain ⟨raw,_,rfl⟩ := Option.map_eq_some_iff.mp hquery
    exact percentEncode_query scheme raw
  · intro fragment hfragment
    obtain ⟨raw,_,rfl⟩ := Option.map_eq_some_iff.mp hfragment
    exact percentEncode_fragment raw

theorem hostless_valid {path : Chars → Path} (hne : scheme ≠ [])
    (hscheme : ∀ c ∈ scheme, isSchemeChar c) (hnot : isSpecialNotFile scheme = false)
    {given : Option Authority} (hgiven : ∀ authority ∈ given, authority.Valid)
    (hwhole : ∀ body whole, path body = .whole whole → given = none)
    (hpath : ∀ body, (∀ c ∈ body, c ≠ '?' ∧ c ≠ '#') → ∀ c ∈ (path body).text, c ≠ '?' ∧ c ≠ '#') :
    (hostless scheme given path text).Valid where
  scheme_ne := hne
  scheme := hscheme
  authority := hgiven
  whole := hwhole _
  special := fun h => by
    have h : isSpecialNotFile scheme = true := h
    simp [hnot] at h
  path := hpath _ (body_mem text)
  query := by
    intro query hquery
    obtain ⟨raw,_,rfl⟩ := Option.map_eq_some_iff.mp hquery
    exact percentEncode_query scheme raw
  fragment := by
    intro fragment hfragment
    obtain ⟨raw,_,rfl⟩ := Option.map_eq_some_iff.mp hfragment
    exact percentEncode_fragment raw

theorem file_chars : ∀ c ∈ file, isSchemeChar c := List.all_eq_true.mp (by decide)

theorem filePath_valid : (filePath text).Valid := by
  refine hostless_valid (by decide) file_chars (by decide) ?_ (by simp) fun body _ =>
    segments_text (parsePathOf_plain file body)
  intro authority hauthority
  cases hauthority
  exact ⟨by simp,by simp,by simp⟩

theorem plainPath_valid (hne : scheme ≠ []) (hscheme : ∀ c ∈ scheme, isSchemeChar c)
    (hnot : isSpecialNotFile scheme = false) : (hostless scheme none (plainPath scheme) text).Valid := by
  refine hostless_valid hne hscheme hnot (by simp) (fun _ _ _ => rfl) fun body hbody => ?_
  unfold plainPath
  split
  · exact segments_text (parsePathOf_plain scheme _)
  · refine percentEncode_mem (P := fun c => c ≠ '?' ∧ c ≠ '#') (by decide) (by decide) ?_
    exact fun c hc _ => hbody c hc

theorem HostParser.afterScheme_valid (hne : scheme ≠ []) (hscheme : ∀ c ∈ scheme, isSchemeChar c)
    (h : hosts.afterScheme scheme rest = .ok url) : url.Valid ∧ url.scheme = scheme := by
  unfold HostParser.afterScheme at h
  split at h
  · refine ⟨fromAuthority_valid hne hscheme h,?_⟩
    obtain ⟨_,_,rfl⟩ := fromAuthority_ok h
    rfl
  · rename_i hnot
    have hnot : isSpecialNotFile scheme = false := by simpa using hnot
    split at h
    · rename_i hfile
      unfold HostParser.fileUrl at h
      split at h
      · split at h
        · split at h
          · cases h
            exact ⟨filePath_valid,hfile.symm⟩
          · refine ⟨fromAuthority_valid (by decide) file_chars h,?_⟩
            obtain ⟨_,_,rfl⟩ := fromAuthority_ok h
            exact hfile.symm
        · cases h
          exact ⟨filePath_valid,hfile.symm⟩
      · cases h
        exact ⟨filePath_valid,hfile.symm⟩
      · cases h
        exact ⟨filePath_valid,hfile.symm⟩
    · unfold HostParser.otherUrl at h
      split at h
      · refine ⟨fromAuthority_valid hne hscheme h,?_⟩
        obtain ⟨_,_,rfl⟩ := fromAuthority_ok h
        rfl
      · cases h
        exact ⟨plainPath_valid hne hscheme hnot,rfl⟩

/-- What `parseUrl` returns, and where its scheme comes from. -/
theorem HostParser.parseUrl_ok (h : hosts.parseUrl text = .ok url) :
    ∃ rest, splitScheme (clean text) = some (url.scheme,rest) ∧
      hosts.afterScheme url.scheme rest = .ok url := by
  unfold HostParser.parseUrl at h
  split at h
  · cases h
  · rename_i scheme rest hsplit
    cases ha : hosts.afterScheme scheme rest with
    | error e =>
      rw [ha] at h
      cases h
    | ok found =>
      rw [ha] at h
      cases h
      obtain ⟨hne,hscheme⟩ := splitScheme_valid hsplit
      obtain rfl := (afterScheme_valid hne hscheme ha).2
      exact ⟨rest,hsplit,ha⟩

theorem HostParser.parseUrl_valid (h : hosts.parseUrl text = .ok url) : url.Valid := by
  obtain ⟨rest,hsplit,ha⟩ := parseUrl_ok h
  obtain ⟨hne,hscheme⟩ := splitScheme_valid hsplit
  exact (afterScheme_valid hne hscheme ha).1

end Valid

end Whatwg
