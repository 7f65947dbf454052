import Rqx.RfcAuthority
import Rqx.UrlBasic

/-! The text of a URL: what can be read off it again, and what the parser makes of its parts. -/
namespace Whatwg
open Split

/-! ## What a text consists of -/

/-- Body, query and fragment, if none of them contains what ends it. -/
theorem Reference.split_lead {body : Chars} {query fragment : Option Chars}
    (hbody : ∀ c ∈ body, c ≠ '?' ∧ c ≠ '#') (hquery : ∀ q ∈ query, '#' ∉ q) :
    Reference.split (body++lead '?' query++lead '#' fragment) = ⟨body,query,fragment⟩ := by
  have hhash : '#' ∉ body++lead '?' query := by
    intro hc
    rcases List.mem_append.mp hc with hc | hc
    · exact (hbody _ hc).2 rfl
    · obtain ⟨q,hq,he | hc⟩ := mem_lead.mp hc
      · exact absurd he (by decide)
      · exact hquery q hq hc
  have hmark : '?' ∉ body := fun hc => (hbody _ hc).1 rfl
  simp only [Reference.split,splitFirst_lead hhash,splitFirst_lead hmark]

theorem Reference.query_mem (text : Chars) : ∀ q ∈ (Reference.split text).query, '#' ∉ q := by
  intro q hq hc
  exact splitFirst_not_mem '#' text (mem_of_splitFirst_some hq hc)

theorem Reference.split_text (text : Chars) :
    (Reference.split text).body++lead '?' (Reference.split text).query++
      lead '#' (Reference.split text).fragment = text := by
  simp only [Reference.split,splitFirst_append]

/-- How a path with a root begins, and what stands there when it is empty. -/
theorem root_head {path : Chars} {query fragment : Option Chars}
    (h : path = [] ∨ path.head? = some '/') :
    ∀ c ∈ (path++(lead '?' query++lead '#' fragment)).head?, c = '/' ∨ c = '?' ∨ c = '#' := by
  intro c hc
  cases path with
  | nil => cases query <;> cases fragment <;> simp_all [eq_comm]
  | cons d path => simp_all [eq_comm]

section Valid

variable {url : Url} {authority : Authority}

theorem Url.path_root (hvalid : url.Valid) (ha : url.authority = some authority) :
    url.path.text = [] ∨ url.path.text.head? = some '/' := by
  cases hpath : url.path with
  | whole body => simp [hvalid.whole body hpath] at ha
  | segments names => cases names <;> simp [Path.text]

theorem userinfo_mem {c : Char} (h : userinfoSet c = false) :
    c ≠ ':' ∧ c ≠ '@' ∧ c ≠ '/' ∧ c ≠ '?' ∧ c ≠ '#' ∧ c ≠ '[' := by
  refine ⟨?_,?_,?_,?_,?_,?_⟩ <;> rintro rfl <;> exact absurd h (by decide)

theorem host_mem {c : Char} (h : forbiddenHostSet c = false) :
    c ≠ '@' ∧ c ≠ '/' ∧ c ≠ '?' ∧ c ≠ '#' := by
  refine ⟨?_,?_,?_,?_⟩ <;> rintro rfl <;> exact absurd h (by decide)

theorem Authority.credentials_mem (hvalid : authority.Valid) :
    ∀ c ∈ authority.credentials, userinfoSet c = false ∨ c = ':' ∨ c = '@' := by
  intro c hc
  unfold Authority.credentials at hc
  split at hc
  · simp at hc
  · rcases List.mem_append.mp hc with hc | hc
    · rcases List.mem_append.mp hc with hc | hc
      · exact .inl (hvalid.username c hc)
      · split at hc
        · simp at hc
        · rcases List.mem_cons.mp hc with rfl | hc
          · exact .inr (.inl rfl)
          · exact .inl (hvalid.password c hc)
    · exact .inr (.inr (List.mem_singleton.mp hc))

theorem Authority.text_rule {P : Char → Prop} (hvalid : authority.Valid)
    (huser : ∀ c, userinfoSet c = false → P c) (hcolon : P ':') (hat : P '@')
    (hhost : ∀ c, forbiddenHostSet c = false → P c) (hdigit : ∀ c, c.isDigit → P c) :
    ∀ c ∈ authority.text, P c := by
  intro c hc
  rcases List.mem_append.mp hc with hc | hc
  · rcases List.mem_append.mp hc with hc | hc
    · rcases credentials_mem hvalid c hc with hc | rfl | rfl
      · exact huser c hc
      · exact hcolon
      · exact hat
    · exact hhost c (hvalid.host c hc)
  · obtain ⟨digits,hdigits,rfl | hc⟩ := mem_lead.mp hc
    · exact hcolon
    · obtain ⟨n,_,rfl⟩ := Option.map_eq_some_iff.mp hdigits
      exact hdigit c (Nat.isDigit_of_mem_toDigits (by decide) (by decide) hc)

theorem Authority.text_mem (hvalid : authority.Valid) :
    ∀ c ∈ authority.text, c ≠ '/' ∧ c ≠ '?' ∧ c ≠ '#' := by
  refine text_rule hvalid ?_ (by decide) (by decide) ?_ ?_
  · exact fun c hc => ⟨(userinfo_mem hc).2.2.1,(userinfo_mem hc).2.2.2.1,(userinfo_mem hc).2.2.2.2.1⟩
  · exact fun c hc => (host_mem hc).2
  · intro c hc
    refine ⟨?_,?_,?_⟩ <;> rintro rfl <;> exact absurd hc (by decide)

/-- The components of a URL's text, as RFC 3986 names them. -/
def Url.components (url : Url) : Rfc3986.Components where
  scheme := some url.scheme
  authority := url.authority.map Authority.text
  path := url.path.text
  query := url.query
  fragment := url.fragment

theorem Url.text_eq (h : url.authority = some authority) :
    url.text = Rfc3986.compose url.components := by
  simp [Url.text,Rfc3986.compose,Url.components,h]

theorem schemeChar_mem {c : Char} (h : isSchemeChar c) : c ≠ ':' ∧ c ≠ '/' ∧ c ≠ '?' ∧ c ≠ '#' := by
  refine ⟨?_,?_,?_,?_⟩ <;> rintro rfl <;> exact absurd h (by decide)

/-- The text of a URL with an authority splits into its components. -/
theorem Url.split_text (hvalid : url.Valid) (ha : url.authority = some authority) :
    Rfc3986.split url.text = url.components := by
  rw [Url.text_eq ha]
  refine Rfc3986.split_compose (by simp [components,ha] : _ = some authority.text) ?_
    (Authority.text_mem (hvalid.authority authority ha)) ?_ hvalid.path ?_
  · intro s hs
    obtain rfl : url.scheme = s := by simpa [components] using hs
    exact ⟨hvalid.scheme_ne,fun d hd => schemeChar_mem (hvalid.scheme d hd)⟩
  · simp only [components]
    cases hpath : url.path with
    | whole text => simp [hvalid.whole text hpath] at ha
    | segments names => cases names <;> simp [Path.text]
  · exact fun q hq hd => (querySet_visible (hvalid.query q hq _ hd)).1 rfl

/-- What stands before query and fragment. -/
def Url.front (url : Url) : Chars :=
  url.scheme ++ ':' :: (match url.authority with
    | some authority => '/' :: '/' :: authority.text
    | none => if ['/','/'].isPrefixOf url.path.text then ['/','.'] else [])++url.path.text

theorem Url.text_front (url : Url) :
    url.text = url.front++lead '?' url.query++lead '#' url.fragment := by
  cases ha : url.authority <;> simp [text,front,ha]

theorem Url.front_mem (hvalid : url.Valid) : ∀ c ∈ url.front, c ≠ '?' ∧ c ≠ '#' := by
  intro c hc
  simp only [front,List.mem_append,List.mem_cons] at hc
  rcases hc with (hc | rfl | hc) | hc
  · exact (schemeChar_mem (hvalid.scheme c hc)).2.2
  · decide
  · split at hc
    · rename_i authority hauthority
      simp only [List.mem_cons] at hc
      rcases hc with rfl | rfl | hc
      · decide
      · decide
      · exact (Authority.text_mem (hvalid.authority authority hauthority) c hc).2
    · split at hc
      · simp only [List.mem_cons,List.not_mem_nil,or_false] at hc
        rcases hc with rfl | rfl <;> decide
      · simp at hc
  · exact hvalid.path c hc

/-- What stands between the scheme and the query. -/
def Url.after (url : Url) : Chars :=
  (match url.authority with
    | some authority => '/' :: '/' :: authority.text
    | none => if ['/','/'].isPrefixOf url.path.text then ['/','.'] else [])++url.path.text

theorem Url.front_eq (url : Url) : url.front = url.scheme++lead ':' (some url.after) := by
  cases ha : url.authority <;> simp [front,after,ha]

theorem Url.front_inj {found : Url} (hvalid : url.Valid) (hfound : found.Valid)
    (h : found.front = url.front) : found.scheme = url.scheme ∧ found.after = url.after := by
  have hcolon : ∀ {u : Url}, u.Valid → splitFirst ':' u.front = (u.scheme,some u.after) := by
    intro u hu
    rw [front_eq]
    exact splitFirst_lead (fun hc => (schemeChar_mem (hu.scheme _ hc)).1 rfl) _
  have hsplit := hcolon hfound
  rw [h,hcolon hvalid] at hsplit
  simpa [eq_comm] using hsplit

theorem Url.after_whole {body : Chars} (hvalid : url.Valid) (hpath : url.path = .whole body)
    (hhead : body.head? ≠ some '/') : url.after = body := by
  have hslashes : ['/','/'].isPrefixOf body = false := by
    cases body with
    | nil => rfl
    | cons c body =>
      have hc : ('/' == c) = false := by
        rw [beq_eq_false_iff_ne]
        rintro rfl
        exact hhead rfl
      simp only [List.isPrefixOf,hc,Bool.false_and]
  simp [after,hvalid.whole body hpath,hpath,Path.text,hslashes]

theorem Url.after_segments {names : List Chars} (hpath : url.path = .segments names) :
    url.after = [] ∨ url.after.head? = some '/' := by
  cases ha : url.authority with
  | some authority => simp [after,ha]
  | none =>
    cases names with
    | nil => simp [after,ha,hpath,Path.text]
    | cons name names =>
      right
      simp only [after,ha,hpath,Path.text]
      split <;> simp

theorem Url.reference_text (hvalid : url.Valid) :
    Reference.split url.text = ⟨url.front,url.query,url.fragment⟩ := by
  rw [text_front]
  exact Reference.split_lead (front_mem hvalid) fun q hq hc =>
    (querySet_visible (hvalid.query q hq _ hc)).1 rfl

theorem Url.not_isRelativeRef (hvalid : url.Valid) : Rfc3986.isRelativeRef url.text = false := by
  have htext : url.text = url.scheme++lead ':' (some (url.after++lead '?' url.query++
      lead '#' url.fragment)) := by
    rw [Url.text_front,Url.front_eq]
    simp
  have hscheme := Rfc3986.split_scheme hvalid.scheme_ne
    (fun d hd => schemeChar_mem (hvalid.scheme d hd)) (url.after++lead '?' url.query++
      lead '#' url.fragment)
  rw [htext,Rfc3986.isRelativeRef,hscheme]
  simp

end Valid

/-! ## What the parser leaves -/

section Parsed

variable {hosts : HostParser} {scheme rest text : Chars} {url : Url}

theorem dropWhile_slash_reference (text : Chars) :
    (Reference.split (text.dropWhile isSlash)).query = (Reference.split text).query ∧
      (Reference.split (text.dropWhile isSlash)).fragment = (Reference.split text).fragment := by
  have hslash : ∀ c ∈ text.takeWhile isSlash, c ≠ '#' ∧ c ≠ '?' := by
    intro c hc
    have hc := List.mem_takeWhile_imp hc
    constructor <;> rintro rfl <;> exact absurd hc (by decide)
  have happend := Reference.split_append hslash (text.dropWhile isSlash)
  rw [List.takeWhile_append_dropWhile] at happend
  simp [happend]

theorem cons_slash_reference {a : Char} (h : isSlash a) (text : Chars) :
    (Reference.split (a::text)).query = (Reference.split text).query ∧
      (Reference.split (a::text)).fragment = (Reference.split text).fragment := by
  have ha : ∀ c ∈ [a], c ≠ '#' ∧ c ≠ '?' := by
    intro c hc
    obtain rfl := List.mem_singleton.mp hc
    constructor <;> rintro rfl <;> exact absurd h (by decide)
  have happend := Reference.split_append ha text
  simp only [List.singleton_append] at happend
  simp [happend]

/-- Query and fragment of `url` are those of `text`, encoded. -/
def Url.Tail (url : Url) (text : Chars) : Prop :=
  url.query = (Reference.split text).query.map (percentEncode (querySetOf url.scheme)) ∧
    url.fragment = (Reference.split text).fragment.map (percentEncode fragmentSet)

theorem HostParser.fromAuthority_tail (h : hosts.fromAuthority scheme text = .ok url) :
    url.Tail text := by
  obtain ⟨_,_,rfl⟩ := fromAuthority_ok h
  exact ⟨rfl,rfl⟩

theorem Url.Tail.slash {a : Char} (ha : isSlash a) (h : url.Tail text) : url.Tail (a::text) := by
  obtain ⟨hquery,hfragment⟩ := cons_slash_reference ha text
  simpa only [Url.Tail,hquery,hfragment] using h

theorem HostParser.fileUrl_tail (h : hosts.fileUrl rest = .ok url) : url.Tail rest := by
  unfold HostParser.fileUrl at h
  split at h
  · rename_i a b text
    split at h
    · rename_i hab
      obtain ⟨ha,hb⟩ := (Bool.and_eq_true _ _).mp hab
      refine .slash ha (.slash hb ?_)
      split at h
      · cases h
        exact ⟨rfl,rfl⟩
      · exact fromAuthority_tail h
    · cases h
      split
      · rename_i ha
        exact .slash ha ⟨rfl,rfl⟩
      · exact ⟨rfl,rfl⟩
  · rename_i a
    cases h
    split
    · rename_i ha
      exact .slash ha ⟨rfl,rfl⟩
    · exact ⟨rfl,rfl⟩
  · cases h
    exact ⟨rfl,rfl⟩

theorem HostParser.afterScheme_tail (h : hosts.afterScheme scheme rest = .ok url) :
    url.Tail rest := by
  unfold HostParser.afterScheme at h
  split at h
  · obtain ⟨hquery,hfragment⟩ := dropWhile_slash_reference rest
    simpa only [Url.Tail,hquery,hfragment] using fromAuthority_tail h
  · split at h
    · exact fileUrl_tail h
    · unfold HostParser.otherUrl at h
      split at h
      · exact .slash (by decide) (.slash (by decide) (fromAuthority_tail h))
      · cases h
        exact ⟨rfl,rfl⟩

theorem HostParser.parseUrl_tail (h : hosts.parseUrl text = .ok url) : url.Tail (clean text) := by
  obtain ⟨rest,hsplit,ha⟩ := parseUrl_ok h
  obtain ⟨pre,hpre,_,hscheme⟩ := splitScheme_some hsplit
  have hfront : ∀ c ∈ pre++[':'], c ≠ '#' ∧ c ≠ '?' := by
    intro c hc
    rcases List.mem_append.mp hc with hc | hc
    · exact ⟨(schemeChar_mem (hscheme c hc)).2.2.2,(schemeChar_mem (hscheme c hc)).2.2.1⟩
    · obtain rfl := List.mem_singleton.mp hc
      decide
  have happend := Reference.split_append hfront rest
  rw [List.append_assoc,List.singleton_append,← hpre] at happend
  simpa only [Url.Tail,happend] using afterScheme_tail ha

/-- A scheme as the parser leaves it. -/
structure IsScheme (scheme : Chars) : Prop where
  alpha : (scheme.headD ' ').isAlpha
  chars : ∀ c ∈ scheme, isSchemeChar c
  lower : scheme.map Char.toLower = scheme

theorem splitScheme_lead (h : IsScheme scheme) (rest : Chars) :
    splitScheme (scheme++lead ':' (some rest)) = some (scheme,rest) := by
  have hhead : ((scheme++lead ':' (some rest)).headD ' ').isAlpha := by
    have halpha := h.alpha
    cases scheme with
    | nil => exact absurd halpha (by decide)
    | cons c scheme => exact halpha
  have hcolon : isSchemeChar ':' = false := by decide
  simp only [splitScheme,if_pos hhead,List.dropWhile_append_of_pos h.chars,
    List.takeWhile_append_of_pos h.chars]
  simp [hcolon,h.lower]

/-- How the path of a parsed URL is written. -/
def Path.Written (scheme : Chars) : Path → Prop
  | .segments names => ∀ name ∈ names, ∀ c ∈ name, plainOf scheme c
  | .whole body => body.head? ≠ some '/' ∧ ∀ c ∈ body, c0ControlSet c = false

theorem percentEncode_head {c : Char} (hc : c ≠ '/') (set : Char → Bool) (text : Chars) :
    (percentEncode set (c::text)).head? ≠ some '/' := by
  simp only [percentEncode,List.flatMap_cons]
  split
  · obtain ⟨b,bytes,hb⟩ := List.exists_cons_of_ne_nil (String.utf8EncodeChar_ne_nil (c := c))
    simp [hb,percentEncodeByte]
  · simpa using hc

theorem plainPath_written (scheme body : Chars) : (plainPath scheme body).Written scheme := by
  unfold plainPath
  split
  · exact parsePathOf_plain scheme _
  · rename_i hslash
    refine ⟨?_,percentEncode_mem (by decide) (by decide) fun _ _ h => h⟩
    cases body with
    | nil => simp [percentEncode]
    | cons c body => exact percentEncode_head (fun he => hslash body (by rw [he])) _ body

theorem HostParser.fromAuthority_written (h : hosts.fromAuthority scheme text = .ok url) :
    url.path.Written url.scheme := by
  obtain ⟨_,_,rfl⟩ := fromAuthority_ok h
  exact pathAfter_plain scheme _

theorem HostParser.parseUrl_written (h : hosts.parseUrl text = .ok url) :
    url.path.Written url.scheme := by
  obtain ⟨rest,_,ha⟩ := parseUrl_ok h
  unfold HostParser.afterScheme at ha
  split at ha
  · exact fromAuthority_written ha
  · split at ha
    · unfold HostParser.fileUrl at ha
      split at ha
      · split at ha
        · split at ha
          · cases ha
            exact parsePathOf_plain file _
          · exact fromAuthority_written ha
        · cases ha
          exact parsePathOf_plain file _
      · cases ha
        exact parsePathOf_plain file _
      · cases ha
        exact parsePathOf_plain file _
    · unfold HostParser.otherUrl at ha
      split at ha
      · exact fromAuthority_written ha
      · have hpath := congrArg Url.path (Except.ok.inj ha)
        rw [← hpath]
        exact plainPath_written url.scheme _

/-- A path that is no list is the body behind the scheme, encoded. -/
theorem HostParser.afterScheme_whole {body : Chars} (h : hosts.afterScheme scheme rest = .ok url)
    (hpath : url.path = .whole body) :
    body = percentEncode c0ControlSet (Reference.split rest).body := by
  have hauthority : ∀ {text : Chars}, hosts.fromAuthority scheme text = .ok url → False := by
    intro text h
    obtain ⟨_,_,rfl⟩ := fromAuthority_ok h
    cases hpath
  have hfile : ∀ {text : Chars}, filePath text = url → False := by
    rintro text rfl
    cases hpath
  unfold HostParser.afterScheme at h
  split at h
  · exact (hauthority h).elim
  · split at h
    · rename_i hscheme
      unfold HostParser.fileUrl at h
      split at h
      · split at h
        · split at h
          · exact (hfile (Except.ok.inj h)).elim
          · exact (hauthority (hscheme ▸ h)).elim
        · exact (hfile (Except.ok.inj h)).elim
      · exact (hfile (Except.ok.inj h)).elim
      · exact (hfile (Except.ok.inj h)).elim
    · unfold HostParser.otherUrl at h
      split at h
      · exact (hauthority h).elim
      · have hplain := congrArg Url.path (Except.ok.inj h)
        rw [hpath] at hplain
        simp only [hostless,plainPath] at hplain
        split at hplain
        · cases hplain
        · exact (Path.whole.inj hplain).symm

variable {authority : Authority}

/-- The text of a URL with an authority consists of visible characters. -/
theorem Url.front_visible (hvalid : url.Valid) (hwritten : url.path.Written url.scheme)
    (ha : url.authority = some authority) : ∀ c ∈ url.front, 32 < c.toNat := by
  have hset : ∀ c, querySet c = false → 32 < c.toNat := fun c hc => (querySet_visible hc).2
  have hpathSet : ∀ c, pathSet c = false → 32 < c.toNat := fun c hc => hset c (by
    simp only [pathSet,Bool.or_eq_false_iff] at hc
    exact hc.1)
  intro c hc
  simp only [Url.front,ha,List.mem_append,List.mem_cons] at hc
  rcases hc with (hc | rfl | rfl | rfl | hc) | hc
  · exact (Rfc3986.visible (by decide) (by decide) c (hvalid.scheme c hc)).2
  · decide
  · decide
  · decide
  · refine Authority.text_rule (P := fun c => 32 < c.toNat) (hvalid.authority authority ha) ?_
      (by decide) (by decide) ?_ ?_ c hc
    · intro c hc
      simp only [userinfoSet,Bool.or_eq_false_iff] at hc
      exact hpathSet c hc.1
    · intro c hc
      simp only [forbiddenHostSet,Bool.or_eq_false_iff,decide_eq_false_iff_not,not_le] at hc
      exact hc.1
    · exact fun c hc => (Rfc3986.visible (by decide) (by decide) c hc).2
  · cases hpath : url.path with
    | whole body => simp [hvalid.whole body hpath] at ha
    | segments names =>
      rw [hpath] at hc hwritten
      obtain ⟨name,hname,hc⟩ := List.mem_flatMap.mp hc
      rcases List.mem_cons.mp hc with rfl | hc
      · decide
      · exact hpathSet c (plainOf_iff.mp (hwritten name hname c hc)).1

theorem fragmentSet_visible {c : Char} (h : fragmentSet c = false) : 32 < c.toNat := by
  simp only [fragmentSet,c0ControlSet,Bool.or_eq_false_iff,decide_eq_false_iff_not,
    List.contains_eq_mem,List.mem_cons,List.not_mem_nil,or_false,not_or] at h
  have hspace : c.toNat ≠ 32 := fun he => h.2.1 (Char.toNat_inj.mp he)
  omega

theorem Url.text_visible (hvalid : url.Valid) (hwritten : url.path.Written url.scheme)
    (ha : url.authority = some authority) : ∀ c ∈ url.text, 32 < c.toNat := by
  intro c hc
  rw [Url.text_front] at hc
  rcases List.mem_append.mp hc with hc | hc
  · rcases List.mem_append.mp hc with hc | hc
    · exact Url.front_visible hvalid hwritten ha c hc
    · obtain ⟨query,hquery,rfl | hc⟩ := mem_lead.mp hc
      · decide
      · exact (querySet_visible (hvalid.query query hquery c hc)).2
  · obtain ⟨fragment,hfragment,rfl | hc⟩ := mem_lead.mp hc
    · decide
    · exact fragmentSet_visible (hvalid.fragment fragment hfragment c hc)

end Parsed

/-! ## Cleaning -/

/-- Tabs and newlines are dropped wherever they stand. -/
def isDropped (c : Char) : Bool := ['\t','\n','\r'].contains c

/-- What is left of a text that has visible characters before it, and `last` if none behind. -/
def cleanInner (last : Bool) (text : Chars) : Chars :=
  (if last then text.rdropWhile isC0OrSpace else text).filter (!isDropped ·)

theorem isDropped_visible {c : Char} (h : 32 < c.toNat) : isDropped c = false := by
  simp only [isDropped,List.contains_eq_mem,decide_eq_false_iff_not,List.mem_cons,
    List.not_mem_nil,or_false,not_or]
  refine ⟨?_,?_,?_⟩ <;> rintro rfl <;> simp at h

theorem filter_visible {text : Chars} (h : ∀ c ∈ text, 32 < c.toNat) :
    text.filter (!isDropped ·) = text := by
  rw [List.filter_eq_self]
  intro c hc
  simp [isDropped_visible (h c hc)]

theorem rdropWhile_visible {text : Chars} (h : ∀ c ∈ text, 32 < c.toNat) :
    text.rdropWhile isC0OrSpace = text := by
  rw [List.rdropWhile_eq_self_iff]
  intro hl
  have hlow := h _ (List.getLast_mem hl)
  simpa [isC0OrSpace] using hlow

theorem rdropWhile_append {front : Chars} (h : ∀ c ∈ front, 32 < c.toNat) (text : Chars) :
    (front++text).rdropWhile isC0OrSpace = front++text.rdropWhile isC0OrSpace := by
  induction text using List.reverseRecOn with
  | nil => simp [rdropWhile_visible h]
  | append_singleton text c ih =>
    rw [← List.append_assoc,List.rdropWhile_concat,List.rdropWhile_concat]
    split
    · exact ih
    · simp

theorem rdropWhile_back {text back : Chars} (hne : back ≠ []) (h : ∀ c ∈ back, 32 < c.toNat) :
    (text++back).rdropWhile isC0OrSpace = text++back := by
  rw [List.rdropWhile_eq_self_iff]
  intro hl
  rw [List.getLast_append_of_ne_nil hl hne]
  simpa [isC0OrSpace] using h _ (List.getLast_mem hne)

/-- Between visible characters only tabs, newlines, and blanks at the end are dropped. -/
theorem clean_between (front text back : Chars) (hne : front ≠ [])
    (hfront : ∀ c ∈ front, 32 < c.toNat) (hback : ∀ c ∈ back, 32 < c.toNat) :
    clean (front++text++back) = front++cleanInner (back = []) text++back := by
  have hdrop : (front++text++back).dropWhile isC0OrSpace = front++text++back := by
    obtain ⟨c,front,rfl⟩ := List.exists_cons_of_ne_nil hne
    have hc := hfront c (by simp)
    have hc : isC0OrSpace c = false := by simpa [isC0OrSpace] using hc
    simp [hc]
  have hclean : clean (front++text++back) =
      ((front++text++back).rdropWhile isC0OrSpace).filter (!isDropped ·) := by
    rw [clean,hdrop]
    rfl
  rw [hclean]
  by_cases hb : back = []
  · rw [hb,List.append_nil,rdropWhile_append hfront]
    simp [cleanInner,filter_visible hfront]
  · rw [rdropWhile_back hb hback]
    simp [cleanInner,hb,filter_visible hfront,filter_visible hback]

theorem cleanInner_visible (last : Bool) {text : Chars} (h : ∀ c ∈ text, 32 < c.toNat) :
    cleanInner last text = text := by
  rw [cleanInner,rdropWhile_visible h]
  cases last <;> exact filter_visible h

theorem clean_sublist (text : Chars) : (clean text).Sublist text := by
  refine List.filter_sublist.trans ?_
  exact (List.rdropWhile_prefix _ _).sublist.trans (List.dropWhile_sublist _)

theorem clean_append (text : Chars) {back : Chars} (hback : ∀ c ∈ back, 32 < c.toNat) :
    ∃ rest, rest.Sublist text ∧ clean (text++back) = rest++back := by
  by_cases hb : back = []
  · exact ⟨clean text,clean_sublist text,by simp [hb]⟩
  · refine ⟨(text.dropWhile isC0OrSpace).filter (!isDropped ·),
      List.filter_sublist.trans (List.dropWhile_sublist _),?_⟩
    have hdrop : (text++back).dropWhile isC0OrSpace = text.dropWhile isC0OrSpace++back := by
      rw [List.dropWhile_append]
      split
      · rename_i hnil
        obtain ⟨c,back,rfl⟩ := List.exists_cons_of_ne_nil hb
        have hc : isC0OrSpace c = false := by simpa [isC0OrSpace] using hback c (by simp)
        rw [List.isEmpty_iff.mp hnil]
        simp [hc]
      · rfl
    rw [clean,hdrop,rdropWhile_back hb hback,List.filter_append]
    congr 1
    exact filter_visible hback

theorem clean_head {c : Char} (hc : 32 < c.toNat) (text : Chars) :
    ∃ rest, clean (c::text) = c::rest := by
  have hclean := clean_between [c] text [] (by simp) (by simpa using hc)
    (by simp)
  simp only [List.singleton_append,List.append_nil] at hclean
  exact ⟨_,hclean⟩

/-- A text that begins with a visible character and no letter has no scheme. -/
theorem splitScheme_clean_none {text : Chars} (h : ∀ c ∈ text.head?, c.isAlpha = false ∧ 32 < c.toNat) :
    splitScheme (clean text) = none := by
  cases text with
  | nil => decide
  | cons c text =>
    obtain ⟨halpha,hc⟩ := h c rfl
    obtain ⟨rest,hrest⟩ := clean_head hc text
    simp [hrest,splitScheme,halpha]

/-- What has no scheme by RFC 3986 has none for a URL parser either. -/
theorem splitScheme_split {text : Chars} (hvisible : ∀ c ∈ text, 32 < c.toNat)
    (h : (Rfc3986.split text).scheme = none) : splitScheme (clean text) = none := by
  rw [clean_eq hvisible,Option.eq_none_iff_forall_ne_some]
  rintro ⟨scheme,rest⟩ hsplit
  obtain ⟨pre,hpre,hne,hchars⟩ := splitScheme_some hsplit
  have hscheme := Rfc3986.split_scheme hne (fun d hd => schemeChar_mem (hchars d hd)) rest
  rw [lead_some,← hpre,h] at hscheme
  cases hscheme

theorem HostParser.parseUrl_relative (hosts : HostParser) {text : Chars}
    (h : Rfc3986.isRelativeRef text) : hosts.parseUrl text = .error .RelativeUrlWithoutBase := by
  have hrelative := Rfc3986.isRelativeRef_iff.mp h
  have hvisible : ∀ c ∈ text, 32 < c.toNat := by
    intro c hc
    rw [← Rfc3986.compose_split text] at hc
    exact (hrelative.mem c hc).1
  rw [parseUrl,splitScheme_split hvisible hrelative.scheme]

/-! ## How many slashes there are -/

section Slashes

variable {hosts : HostParser} {scheme text : Chars} {url : Url}

theorem percentEncode_count {set : Char → Bool} (hset : set '/' = false) (text : Chars) :
    (percentEncode set text).count '/' = text.count '/' := by
  induction text with
  | nil => rfl
  | cons c text ih =>
    rw [percentEncode_cons,List.count_append,ih]
    cases hc : set c with
    | false => simp [percentEncode,hc,List.count_cons,Nat.add_comm]
    | true =>
      have hne : c ≠ '/' := by
        rintro rfl
        simp [hset] at hc
      have hnone : '/' ∉ percentEncode set [c] := fun hmem => by
        refine percentEncode_mem (P := (· ≠ '/')) (by decide) (by decide) ?_ _ hmem rfl
        rintro d hd _ rfl
        exact hne (List.mem_singleton.mp hd).symm
      simp [List.count_eq_zero.mpr hnone,hne]

theorem pushOf_length (scheme : Chars) (path : List Chars) (segment : Chars) (last : Bool) :
    (pushOf scheme path segment last).length ≤ path.length+1 := by
  have hshorten : (shorten scheme path).length ≤ path.length := by
    unfold shorten
    split <;> simp
  unfold pushOf
  split_ifs <;> simp <;> omega

theorem pushAllOf_length (scheme : Chars) (path segments : List Chars) :
    (pushAllOf scheme path segments).length ≤ path.length+segments.length := by
  induction segments generalizing path with
  | nil => simp [pushAllOf]
  | cons segment segments ih =>
    cases segments with
    | nil => simpa [pushAllOf] using pushOf_length scheme path segment true
    | cons next segments =>
      have hpush := pushOf_length scheme path segment false
      have hrest := ih (pushOf scheme path segment false)
      simp only [pushAllOf,List.length_cons] at hrest ⊢
      omega

theorem splitOnP_count (p : Char → Bool) (text : Chars) :
    (text.splitOnP p).length = text.countP p+1 := by
  induction text with
  | nil => rfl
  | cons c text ih =>
    rw [List.splitOnP_cons_eq_if_modifyHead]
    split
    · rename_i hc
      simp [ih,hc]
    · rename_i hc
      simp [ih,hc]

theorem parsePathOf_length (scheme text : Chars) :
    (parsePathOf scheme text).length ≤ text.countP (isSlashOf scheme)+1 := by
  have hlength := pushAllOf_length scheme [] ((text.splitOnP (isSlashOf scheme)).map
    (percentEncode pathSet))
  rwa [List.length_map,splitOnP_count,List.length_nil,Nat.zero_add] at hlength

theorem pathAfter_length (scheme text : Chars) :
    (pathAfter scheme text).length ≤ text.countP (isSlashOf scheme)+1 := by
  unfold pathAfter
  split
  · split
    · exact parsePathOf_length scheme []
    · simp
  · rename_i c text
    have hcons := (List.sublist_cons_self c text).countP_le (p := isSlashOf scheme)
    have hlength := parsePathOf_length scheme text
    omega

theorem segments_count {names : List Chars} (h : ∀ name ∈ names, ∀ c ∈ name, plainOf scheme c) :
    (Path.segments names).text.count '/' = names.length := by
  induction names with
  | nil => rfl
  | cons name names ih =>
    have hname : name.count '/' = 0 := by
      rw [List.count_eq_zero]
      intro hc
      exact absurd (plainOf_iff.mp (h name (by simp) '/' hc)).2 (by simp [isSlashOf])
    have hrest := ih fun other hother => h other (by simp [hother])
    simp only [Path.text,List.flatMap_cons,List.count_append,List.count_cons_self,
      List.length_cons] at hrest ⊢
    omega

theorem lead_count {set : Char → Bool} (hset : set '/' = false) (mark : Char) (o : Option Chars) :
    (lead mark (o.map (percentEncode set))).count '/' = (lead mark o).count '/' := by
  cases o with
  | none => rfl
  | some text => simp [List.count_cons,percentEncode_count hset]

theorem querySetOf_slash (scheme : Chars) : querySetOf scheme '/' = false := by
  unfold querySetOf
  split <;> decide

/-- A URL has no more slashes than the text behind its scheme, but for three: two before the
authority and one for an empty path. -/
theorem HostParser.fromAuthority_count (hslash : '\\' ∉ text) (hscheme : '/' ∉ scheme)
    (h : hosts.fromAuthority scheme text = .ok url) :
    url.text.count '/' ≤ text.count '/'+3 := by
  obtain ⟨authority,hauthority,rfl⟩ := fromAuthority_ok h
  have hscheme0 : scheme.count '/' = 0 := List.count_eq_zero.mpr hscheme
  have hauthority0 : authority.text.count '/' = 0 := List.count_eq_zero.mpr fun hc =>
    (Authority.text_mem (authority_valid hauthority) _ hc).1 rfl
  have hnames := segments_count (pathAfter_plain scheme
    ((Reference.split text).body.dropWhile (!isSlashOf scheme ·)))
  have hlength := pathAfter_length scheme
    ((Reference.split text).body.dropWhile (!isSlashOf scheme ·))
  have htext := congrArg (List.count '/') (Reference.split_text text)
  have hmem : ∀ c ∈ (Reference.split text).body, isSlashOf scheme c ↔ (c == '/') = true := by
    intro c hc
    have hne : c ≠ '\\' := by
      rintro rfl
      refine hslash ?_
      rw [← Reference.split_text text]
      exact List.mem_append_left _ (List.mem_append_left _ hc)
    simp [isSlashOf,hne]
  have hbody : ((Reference.split text).body.dropWhile (!isSlashOf scheme ·)).countP
      (isSlashOf scheme) ≤ (Reference.split text).body.count '/' := by
    rw [List.count,← List.countP_congr hmem]
    exact (List.dropWhile_sublist _).countP_le
  simp only [Url.text,List.count_append,lead_count (querySetOf_slash scheme),
    lead_count (by decide : fragmentSet '/' = false),hnames,List.count_cons,hscheme0,
    hauthority0] at htext ⊢
  simp
  omega

end Slashes

end Whatwg
