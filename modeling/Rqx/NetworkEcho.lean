import Rqx.RelativeEscapes
import Rqx.Encodings

/-! When a reference with an authority is echoed like one without. -/
namespace Rqx
open Whatwg Split

namespace UrlReference

/-- A registered name without escapes. -/
structure IsName (name : Chars) : Prop where
  ne : name ≠ []
  chars : ∀ c ∈ name, Rfc3986.isRegNameChar c

/-- The same path, query and fragment. -/
structure SameTail (u v : UrlReference) : Prop where
  path : v.encodedPath = u.encodedPath
  query : v.query = u.query
  fragment : v.fragment = u.fragment

/-- Behind an authority a rooted path is parsed as it is without one. -/
def Echoes (crates : UrlCrates) (name text : Chars) : Prop :=
  ∀ u, parse crates ('/' :: text) = .ok u →
    ∃ v, parse crates ('/' :: '/' :: (name++ '/' :: text)) = .ok v ∧ SameTail u v

/-- The URL parser drops nothing of the text, encodes the same of it as the grammar needs, and finds no
dot segments in it. -/
structure Agrees (text : Chars) : Prop where
  clean : clean ('/' :: text) = '/' :: text
  path : ∀ c ∈ (Reference.split text).body, pathSet c = !Rfc3986.isPathChar c
  dots : hasDotSegment (Reference.split text).body = false
  query : ∀ q ∈ (Reference.split text).query, ∀ c ∈ q, specialQuerySet c = !Rfc3986.isQueryChar c
  fragment : ∀ f ∈ (Reference.split text).fragment, ∀ c ∈ f, fragmentSet c = !Rfc3986.isQueryChar c

/-! ## Encoded texts are of the grammar -/

section Grammar

variable {set : Char → Bool} {text name : Chars}

theorem isEncoded_of_all (hpercent : set '%' = false) (h : ∀ c ∈ text, set c) :
    Rfc3986.isEncoded set text := by
  induction text with
  | nil => rfl
  | cons c text ih =>
    obtain ⟨hc,htext⟩ := List.forall_mem_cons.mp h
    have hone : Rfc3986.isEncoded set [c] := by simpa [Rfc3986.isEncoded] using hc
    exact Form.isEncoded_append hpercent hone (ih htext)

theorem isEncoded_byte (set : Char → Bool) (byte : UInt8) :
    Rfc3986.isEncoded set (percentEncodeByte byte) := by
  have hdigit : ∀ n < 16, Rfc3986.isHexDigit (hexDigit n) := by decide
  have hbyte : byte.toNat < 256 := byte.toNat_lt
  simp [percentEncodeByte,Rfc3986.isEncoded,hdigit _ (by omega : byte.toNat/16 < 16),
    hdigit _ (Nat.mod_lt _ (by decide) : byte.toNat%16 < 16)]

/-- Encoding what the grammar does not take leaves what it takes. -/
theorem isEncoded_percentEncode (hpercent : set '%' = false) (text : Chars) :
    Rfc3986.isEncoded set (percentEncode (!set ·) text) := by
  have hbytes : ∀ bytes : List UInt8, Rfc3986.isEncoded set (bytes.flatMap percentEncodeByte) := by
    intro bytes
    induction bytes with
    | nil => rfl
    | cons byte bytes ih => exact Form.isEncoded_append hpercent (isEncoded_byte set byte) ih
  induction text with
  | nil => rfl
  | cons c text ih =>
    rw [percentEncode_cons]
    refine Form.isEncoded_append hpercent ?_ ih
    rw [percentEncode_single]
    cases hc : set c with
    | false => exact hbytes _
    | true => simpa [Rfc3986.isEncoded] using hc

theorem isEncoded_map (o : Option Chars) : ∀ q ∈ o.map (percentEncode (!Rfc3986.isQueryChar ·)),
    Rfc3986.isEncoded Rfc3986.isQueryChar q := by
  intro q hq
  obtain ⟨raw,_,rfl⟩ := Option.map_eq_some_iff.mp hq
  exact isEncoded_percentEncode (by decide) raw

theorem IsName.isHost (h : IsName name) : Rfc3986.IsHost name :=
  .name (isEncoded_of_all (by decide) h.chars)

theorem IsName.isAuthority (h : IsName name) : Rfc3986.isAuthority name := by
  have hvalid : (⟨none,name,none⟩ : Rfc3986.AuthorityComponents).Valid := ⟨by simp,h.isHost,by simp⟩
  have htext := hvalid.authorityComponents_text.1
  simpa [Rfc3986.AuthorityComponents.text] using htext

theorem IsName.isEnd (h : IsName name) (scheme : Chars) : ∀ c ∈ name, isEnd scheme c = false := by
  intro c hc
  have hname := h.chars c hc
  have hne : c ≠ '/' ∧ c ≠ '\\' ∧ c ≠ '?' ∧ c ≠ '#' := by
    refine ⟨?_,?_,?_,?_⟩ <;> rintro rfl <;> exact absurd hname (by decide)
  simp [Whatwg.isEnd,isSlashOf,hne]

end Grammar

/-! ## The components of both references -/

section Components

variable {text name : Chars}

theorem split_root (text : Chars) : Reference.split ('/' :: text) =
    ⟨'/' :: (Reference.split text).body,(Reference.split text).query,(Reference.split text).fragment⟩ := by
  have hslash : ∀ c ∈ ['/'], c ≠ '#' ∧ c ≠ '?' := by simp
  exact Reference.split_append hslash text

theorem body_head (h : text.head? ≠ some '/') : (Reference.split text).body.head? ≠ some '/' := by
  intro hbody
  obtain ⟨rest,hrest⟩ := List.head?_eq_some_iff.mp hbody
  have htext := Reference.split_text text
  rw [hrest] at htext
  rw [← htext] at h
  exact h rfl

theorem root_slashes (h : text.head? ≠ some '/') : ∀ rest, '/' :: text ≠ '/' :: '/' :: rest := by
  rintro rest heq
  obtain ⟨_,rfl⟩ := List.cons.inj heq
  exact h rfl

theorem components_root (h : text.head? ≠ some '/') : Rfc3986.split ('/' :: text) =
    ⟨none,none,'/' :: (Reference.split text).body,(Reference.split text).query,
      (Reference.split text).fragment⟩ := by
  have hscheme : (Rfc3986.split ('/' :: text)).scheme = none := by
    have hsplit := congrArg Reference.body (split_root text)
    have hfront : (Rfc3986.split ('/' :: text)).scheme =
        (Rfc3986.splitScheme (Reference.split ('/' :: text)).body).1 := rfl
    rw [hfront,hsplit]
    simp [Rfc3986.splitScheme]
  rw [authority_none (body_slashes (root_slashes h)) hscheme,split_root]

theorem components_name (hname : IsName name) (text : Chars) :
    Rfc3986.split ('/' :: '/' :: (name++ '/' :: text)) =
      ⟨none,some name,'/' :: (Reference.split text).body,(Reference.split text).query,
        (Reference.split text).fragment⟩ := by
  have hslash : (fun _ : Char => false) '/' = false := rfl
  have hsplit := @split_encoded name ('/' :: text) (fun _ => false) (fun _ => false) (fun _ => false)
    hslash (hname.isEnd []) (by simp [Whatwg.isEnd,isSlashOf])
  have hid : percentEncode (fun _ => false) = id := funext percentEncode_none
  simpa only [encodeParts_none,hid,Option.map_id,id_eq,split_root] using hsplit

theorem isRelativeRef_name (hname : IsName name) (h : text.head? ≠ some '/') :
    Rfc3986.isRelativeRef ('/' :: '/' :: (name++ '/' :: text)) =
      Rfc3986.isRelativeRef ('/' :: text) := by
  rw [Bool.eq_iff_iff,Rfc3986.isRelativeRef_iff,Rfc3986.isRelativeRef_iff,components_name hname,
    components_root h]
  constructor
  · intro hrelative
    exact ⟨rfl,by simp,hrelative.path,fun _ => by simp,hrelative.query,hrelative.fragment⟩
  · intro hrelative
    refine ⟨rfl,?_,hrelative.path,by simp,hrelative.query,hrelative.fragment⟩
    rintro authority ⟨⟩
    exact hname.isAuthority

end Components

/-! ## Encoded references -/

section Encoded

variable {crates : UrlCrates} {name text : Chars} {set setQuery setFragment : Char → Bool}

theorem encodeParts_root (hslash : set '/' = false) (text : Chars) :
    encodeParts set setQuery setFragment ('/' :: text) =
      '/' :: encodeParts set setQuery setFragment text := by
  rw [encodeParts,split_root,percentEncode_raw hslash]
  rfl

theorem encodeParts_name (hset : ∀ c, Rfc3986.isPathChar c → set c = false) (hname : IsName name)
    (text : Chars) : encodeParts set setQuery setFragment (name++text) =
      name++encodeParts set setQuery setFragment text := by
  have hmarks : ∀ c ∈ name, c ≠ '#' ∧ c ≠ '?' := fun c hc =>
    ⟨(isEnd_nil.mp (hname.isEnd [] c hc)).2.2,(isEnd_nil.mp (hname.isEnd [] c hc)).2.1⟩
  have hkeep : percentEncode set name = name := percentEncode_id fun c hc => hset c (by
    have hc := hname.chars c hc
    rw [Rfc3986.isRegNameChar] at hc
    simp [Rfc3986.isPathChar,Rfc3986.isPchar,Rfc3986.isUserinfoChar,hc])
  rw [encodeParts,Reference.split_append hmarks,percentEncode_append,hkeep]
  simp only [encodeParts,List.append_assoc]

/-- A rooted text, encoded. -/
def encodedRoot (text : Chars) : Chars :=
  encodeParts (!Rfc3986.isPathChar ·) (!Rfc3986.isQueryChar ·) (!Rfc3986.isQueryChar ·) text

theorem split_encodedRoot (text : Chars) : Reference.split (encodedRoot text) =
    ⟨percentEncode (!Rfc3986.isPathChar ·) (Reference.split text).body,
      (Reference.split text).query.map (percentEncode (!Rfc3986.isQueryChar ·)),
      (Reference.split text).fragment.map (percentEncode (!Rfc3986.isQueryChar ·))⟩ :=
  split_encodeParts _ _ _ text

theorem encodedRoot_head (h : text.head? ≠ some '/') : (encodedRoot text).head? ≠ some '/' := by
  intro hhead
  obtain ⟨rest,hrest⟩ := List.head?_eq_some_iff.mp hhead
  have hbody := congrArg Reference.body (split_encodedRoot text)
  rw [hrest,split_root] at hbody
  obtain ⟨rest,hraw,_⟩ := percentEncode_head_raw (by decide) hbody.symm
  exact body_head h (by rw [hraw]; rfl)

theorem isRelativeRef_encodedRoot (h : text.head? ≠ some '/') :
    Rfc3986.isRelativeRef ('/' :: encodedRoot text) := by
  rw [Rfc3986.isRelativeRef_iff,components_root (encodedRoot_head h),split_encodedRoot]
  have hpath : Rfc3986.isEncoded Rfc3986.isPathChar
      (percentEncode (!Rfc3986.isPathChar ·) (Reference.split text).body) :=
    isEncoded_percentEncode (by decide) _
  refine ⟨rfl,by simp,?_,fun _ => by simp,isEncoded_map _,isEncoded_map _⟩
  exact Form.isEncoded_append (a := ['/']) (by decide) (by decide) hpath

theorem encodePath_root (hiri : IsIri crates) (text : Chars) :
    encodePath crates ('/' :: text) = '/' :: encodedRoot text := by
  rw [hiri.encodePath_eq]
  exact encodeParts_root (by decide) text

theorem encodePath_name (hiri : IsIri crates) (hname : IsName name) (text : Chars) :
    encodePath crates ('/' :: '/' :: (name++ '/' :: text)) =
      '/' :: '/' :: (name++ '/' :: encodedRoot text) := by
  rw [hiri.encodePath_eq,encodeParts_root (by decide),encodeParts_root (by decide),
    encodeParts_name (fun c hc => by simp [hc]) hname,encodeParts_root (by decide)]
  rfl

theorem parse_root (hiri : IsIri crates) (h : text.head? ≠ some '/') :
    ∃ hrelative, parse crates ('/' :: text) = .ok (.Relative
      ⟨if Rfc3986.isRelativeRef ('/' :: text) then '/' :: text else '/' :: encodedRoot text,hrelative⟩) := by
  rw [parse_rooted]
  unfold parseRelative
  have hroute : encodeRelative crates ('/' :: text) = '/' :: encodedRoot text :=
    (encodeRelative_path (root_slashes h)).trans (encodePath_root hiri text)
  by_cases hinput : Rfc3986.isRelativeRef ('/' :: text)
  · exact ⟨by rwa [if_pos hinput],by simp only [dif_pos hinput,if_pos hinput]⟩
  · have hencoded := isRelativeRef_encodedRoot h
    refine ⟨by rwa [if_neg hinput],?_⟩
    simp only [dif_neg hinput,if_neg hinput,hroute,dif_pos hencoded]

end Encoded

/-! ## Behind a borrowed scheme -/

section Named

variable {hosts : HostParser} {crates : UrlCrates} {scheme name host text : Chars}

/-- A host and nothing else. -/
def namedAuthority (host : Chars) : Authority := ⟨[],[],host,none⟩

theorem namedAuthority_text (host : Chars) : (namedAuthority host).text = host := by
  simp [namedAuthority,Authority.text,Authority.credentials]

theorem namedAuthority_valid (h : ∀ c ∈ host, forbiddenHostSet c = false) :
    (namedAuthority host).Valid := ⟨by simp [namedAuthority],by simp [namedAuthority],h⟩

theorem IsName.visible (h : IsName name) : ∀ c ∈ name, 32 < c.toNat := fun c hc =>
  (Rfc3986.visible (by decide) (by decide) c (h.chars c hc)).2

theorem netAuthority_name (hspecial : isSpecialNotFile scheme) (hname : IsName name) :
    hosts.netAuthority scheme name = (hosts.parse true name).map namedAuthority := by
  have hparse := @HostParser.netAuthority_hostPort hosts scheme name none
    (Delimited.of_isHost hname.isHost) hname.isHost.at_not_mem hname.ne (by simp) none
  have htext : behind none (name++lead ':' ((none : Option ℕ).map (Nat.toDigits 10))) = name := by
    simp [behind]
  rw [htext,isSpecial_of_notFile hspecial] at hparse
  rw [hparse]
  cases hosts.parse true name with
  | error e => rfl
  | ok host => simp [Except.map,namedAuthority,splitFirst,percentEncode]

theorem parseUrl_name (hscheme : IsScheme scheme) (hspecial : isSpecialNotFile scheme)
    (hname : IsName name) (text : Chars) :
    hosts.parseUrl (scheme++ ':' :: '/' :: '/' :: (name++ '/' :: text)) =
      ((hosts.parse true name).map fun host => borrowedUrl (namedAuthority host)
        ('/' :: cleanInner true text) scheme).mapError .Invalid := by
  have hvisible : ∀ c ∈ scheme++[':','/','/']++name++['/'], 32 < c.toNat := by
    intro c hc
    simp only [List.mem_append,List.mem_singleton] at hc
    rcases hc with (hc | hc) | rfl
    · exact scheme_visible hscheme c (List.mem_append.mpr hc)
    · exact hname.visible c hc
    · decide
  have hclean := clean_between (scheme++[':','/','/']++name++['/']) text [] (by simp) hvisible (by simp)
  have hskip : skipSlashes ftp (name++ '/' :: cleanInner true text) =
      name++ '/' :: cleanInner true text := by
    refine skipSlashes_of_end fun c hc => ?_
    rw [List.head?_append_of_ne_nil _ hname.ne] at hc
    exact hname.isEnd ftp c (List.mem_of_mem_head? hc)
  rw [parseUrl_cut hosts hscheme hspecial (by simpa using hclean) hskip (hname.isEnd ftp)
      (by simp [isEnd,isSlashOf]),netAuthority_name hspecial hname]
  cases hosts.parse true name <;> rfl

/-- A host that is refused leaves the reference to the other encoder. -/
theorem encodeRelative_name_error {e : String} (hname : IsName name)
    (h : crates.hosts.parse true name = .error e) (text : Chars) :
    encodeRelative crates ('/' :: '/' :: (name++ '/' :: text)) =
      encodePath crates ('/' :: '/' :: (name++ '/' :: text)) := by
  refine encodeRelative_refused (fun hborrows => ?_) _ rfl
  obtain ⟨url,hurl⟩ := hborrows.1
  rw [parseUrl_name ftp_scheme (by decide) hname,h] at hurl
  cases hurl

/-- The components of what is written for a host that is accepted. -/
def namedComponents (host text : Chars) : Rfc3986.Components :=
  borrowedComponents (namedAuthority host) ('/' :: cleanInner true text)
    (Path.segments (parsePath [] (Reference.split (cleanInner true text)).body)).text

theorem namedPath (text : Chars) : (Path.segments (pathAfter ftp (Reference.split ('/' :: text)).body)).text =
    (Path.segments (parsePath [] (Reference.split text).body)).text := by
  rw [split_root,← parsePathOf_ftp]
  rfl

theorem encodeRelative_name_ok (hname : IsName name) (h : crates.hosts.parse true name = .ok host)
    (text : Chars) : encodeRelative crates ('/' :: '/' :: (name++ '/' :: text)) =
      Rfc3986.compose (namedComponents host text) := by
  have hurl : ∀ scheme, IsScheme scheme → isSpecialNotFile scheme →
      crates.hosts.parseUrl (scheme++ ':' :: '/' :: '/' :: (name++ '/' :: text)) =
        .ok (borrowedUrl (namedAuthority host) ('/' :: cleanInner true text) scheme) := by
    intro scheme hscheme hspecial
    rw [parseUrl_name hscheme hspecial hname,h]
    rfl
  have hslash : ((name++ '/' :: text).any fun c => c = '/' || c = '?' || c = '#') = true := by simp
  simp only [encodeRelative,hurl ftp ftp_scheme (by decide),hurl ws ws_scheme (by decide),keptPort,
    borrowedUrl,Url.port,namedAuthority,Option.bind_some,hslash,if_true]
  rw [withoutScheme_eq _ ftp_scheme rfl,namedComponents,← namedPath]
  simp [Rfc3986.compose,borrowedComponents,namedAuthority]

theorem split_named (hforbidden : ∀ c ∈ host, forbiddenHostSet c = false) (text : Chars) :
    Rfc3986.split (Rfc3986.compose (namedComponents host text)) = namedComponents host text :=
  split_borrowed (namedAuthority_valid hforbidden) (.inl (namedPath _).symm)

/-! ## When both encoders write the same -/

/-- Two encodings of an optional component, with less of it in one. -/
theorem map_percentEncode_iff {set set' : Char → Bool} (hpercent : set '%' = false)
    (hhex : ∀ c, Rfc3986.isHexDigit c → set c = false) (hpercent' : set' '%')
    (hhex' : ∀ c, Rfc3986.isHexDigit c → set' c = false) {rest text : Option Chars}
    (h : Option.Rel Thinned rest text) :
    (rest.map (percentEncode set)).getD [] = (text.map (percentEncode set')).getD [] ↔
      rest = text ∧ ∀ q ∈ text, ∀ c ∈ q, set c = set' c := by
  cases h with
  | none => simp
  | @some rest text h =>
    simp only [Option.map_some,Option.getD_some,Option.some.injEq,Option.mem_def,forall_eq']
    have htwo := hhex' '2' (by decide)
    have hfive := hhex' '5' (by decide)
    have hiff := percentEncode_eq_iff hpercent htwo hfive text
    constructor
    · intro heq
      obtain rfl := percentEncode_inj hpercent hhex hpercent' h.sublist heq
      exact ⟨rfl,hiff.mp heq⟩
    · rintro ⟨rfl,hall⟩
      exact hiff.mpr hall

theorem cleanInner_eq_iff (text : Chars) : clean ('/' :: text) = '/' :: text ↔ cleanInner true text = text := by
  have hslash : ∀ c ∈ ['/'], 32 < c.toNat := fun c hc => by
    rw [List.mem_singleton.mp hc]
    decide
  have hclean := clean_between ['/'] text [] (by simp) hslash (by simp)
  simp only [List.singleton_append,List.append_nil,decide_true] at hclean
  rw [hclean]
  simp

/-- What is written behind a host agrees with what is written without one. -/
theorem agrees_iff (text : Chars) :
    ((Path.segments (parsePath [] (Reference.split (cleanInner true text)).body)).text =
        '/' :: percentEncode (!Rfc3986.isPathChar ·) (Reference.split text).body ∧
      ((Reference.split (cleanInner true text)).query.map (percentEncode specialQuerySet)).getD [] =
        ((Reference.split text).query.map (percentEncode (!Rfc3986.isQueryChar ·))).getD [] ∧
      ((Reference.split (cleanInner true text)).fragment.map (percentEncode fragmentSet)).getD [] =
        ((Reference.split text).fragment.map (percentEncode (!Rfc3986.isQueryChar ·))).getD []) ↔
      Agrees text := by
  obtain ⟨hbody,hquery,hfragment⟩ := (Thinned.cleanInner true text).split
  have hpath : ∀ c, pathSet c → !Rfc3986.isPathChar c := by
    intro c hc
    by_contra hnot
    rw [pathSet_isPathChar (by simpa using hnot)] at hc
    cases hc
  have hhex : ∀ c, Rfc3986.isHexDigit c → (!Rfc3986.isQueryChar c) = false := fun c hc => by
    simp [Rfc3986.isQueryChar,isHexDigit_isPathChar hc]
  rw [parsePath_text_iff hpath (by decide) (by decide) hbody.sublist,
    map_percentEncode_iff (by decide) (fun c hc => (isHexDigit_stays hc).2.1) (by decide) hhex hquery,
    map_percentEncode_iff (by decide) (fun c hc => (isHexDigit_stays hc).2.2) (by decide) hhex hfragment]
  constructor
  · rintro ⟨⟨hb,hpathset,hdots⟩,⟨hq,hqueryset⟩,⟨hf,hfragmentset⟩⟩
    refine ⟨(cleanInner_eq_iff text).mpr ?_,hpathset,hdots,hqueryset,hfragmentset⟩
    rw [← Reference.split_text (cleanInner true text),hb,hq,hf,Reference.split_text]
  · rintro ⟨hclean,hpathset,hdots,hqueryset,hfragmentset⟩
    rw [(cleanInner_eq_iff text).mp hclean]
    exact ⟨⟨rfl,hpathset,hdots⟩,⟨rfl,hqueryset⟩,⟨rfl,hfragmentset⟩⟩

end Named

/-! ## When a network-path reference is echoed -/

section Echo

variable {crates : UrlCrates} {name host text : Chars}

theorem sameTail_verbatim (hname : IsName name) (h : text.head? ≠ some '/')
    (hroot : Rfc3986.isRelativeRef ('/' :: text))
    (hnamed : Rfc3986.isRelativeRef ('/' :: '/' :: (name++ '/' :: text))) :
    SameTail (.Relative ⟨_,hroot⟩) (.Relative ⟨_,hnamed⟩) := by
  constructor <;> simp only [encodedPath,query,fragment,components_root h,components_name hname]

theorem echoes_verbatim (hname : IsName name) (h : text.head? ≠ some '/')
    (hroot : Rfc3986.isRelativeRef ('/' :: text)) : Echoes crates name text := by
  intro u hu
  have hnamed : Rfc3986.isRelativeRef ('/' :: '/' :: (name++ '/' :: text)) := by
    rwa [isRelativeRef_name hname h]
  rw [parse_rooted,parseRelative,dif_pos hroot] at hu
  cases hu
  refine ⟨.Relative ⟨_,hnamed⟩,?_,sameTail_verbatim hname h hroot hnamed⟩
  rw [parse_slashes,parseRelative,dif_pos hnamed]

/-- What it does not take is echoed if it comes out of both encoders the same. -/
theorem echoes_encoded (hiri : IsIri crates) (hname : IsName name) (h : text.head? ≠ some '/')
    (hroot : ¬Rfc3986.isRelativeRef ('/' :: text)) : Echoes crates name text ↔
      ∃ hnamed : Rfc3986.isRelativeRef (encodeRelative crates ('/' :: '/' :: (name++ '/' :: text))),
        SameTail (.Relative ⟨_,isRelativeRef_encodedRoot h⟩) (.Relative ⟨_,hnamed⟩) := by
  have hparse : parse crates ('/' :: text) = .ok (.Relative ⟨_,isRelativeRef_encodedRoot h⟩) := by
    obtain ⟨hrelative,hparse⟩ := parse_root hiri h
    simpa only [if_neg hroot] using hparse
  have hnot : ¬Rfc3986.isRelativeRef ('/' :: '/' :: (name++ '/' :: text)) := by
    rwa [isRelativeRef_name hname h]
  have hroute : parse crates ('/' :: '/' :: (name++ '/' :: text)) = _ := parse_slashes crates _
  rw [parseRelative,dif_neg hnot] at hroute
  constructor
  · intro hechoes
    obtain ⟨v,hv,hsame⟩ := hechoes _ hparse
    rw [hroute] at hv
    split at hv
    · rename_i hnamed
      cases hv
      exact ⟨hnamed,hsame⟩
    · cases hv
  · rintro ⟨hnamed,hsame⟩ u hu
    rw [hparse] at hu
    cases hu
    exact ⟨_,hroute.trans (dif_pos hnamed),hsame⟩

/-- A host that is refused leaves both references to one encoder. -/
theorem echoes_refused {e : String} (hiri : IsIri crates) (hname : IsName name)
    (h : text.head? ≠ some '/') (hparse : crates.hosts.parse true name = .error e) :
    Echoes crates name text := by
  by_cases hroot : Rfc3986.isRelativeRef ('/' :: text)
  · exact echoes_verbatim hname h hroot
  · have hencoded := encodeRelative_name_error hname hparse text
    rw [encodePath_name hiri hname] at hencoded
    have hnamed : Rfc3986.isRelativeRef ('/' :: '/' :: (name++ '/' :: encodedRoot text)) := by
      rw [isRelativeRef_name hname (encodedRoot_head h)]
      exact isRelativeRef_encodedRoot h
    rw [echoes_encoded hiri hname h hroot]
    simp only [hencoded]
    exact ⟨hnamed,sameTail_verbatim hname (encodedRoot_head h) _ hnamed⟩

theorem isRelativeRef_named (hhost : IsName host) (hforbidden : ∀ c ∈ host, forbiddenHostSet c = false)
    (h : Agrees text) : Rfc3986.isRelativeRef (Rfc3986.compose (namedComponents host text)) := by
  obtain ⟨hpath,_,_⟩ := (agrees_iff text).mpr h
  have hclean := (cleanInner_eq_iff text).mp h.clean
  rw [hclean] at hpath
  have hslash : Rfc3986.isEncoded Rfc3986.isPathChar ['/'] := by decide
  have hencoded : ∀ (set : Char → Bool) (o : Option Chars),
      (∀ q ∈ o, ∀ c ∈ q, set c = !Rfc3986.isQueryChar c) →
        ∀ q ∈ o.map (percentEncode set), Rfc3986.isEncoded Rfc3986.isQueryChar q := by
    intro set o hall q hq
    obtain ⟨raw,hraw,rfl⟩ := Option.map_eq_some_iff.mp hq
    rw [percentEncode_congr (hall raw hraw)]
    exact isEncoded_percentEncode (by decide) raw
  rw [Rfc3986.isRelativeRef_iff,split_named hforbidden]
  simp only [namedComponents,borrowedComponents,split_root,hclean,hpath]
  refine ⟨rfl,?_,?_,?_,hencoded _ _ h.query,hencoded _ _ h.fragment⟩
  · rintro authority ⟨⟩
    rw [namedAuthority_text]
    exact hhost.isAuthority
  · exact Form.isEncoded_append (by decide) hslash (isEncoded_percentEncode (by decide) _)
  · intro hnone
    cases hnone

/-- Behind a host that is accepted a reference is echoed if and only if both encoders agree on it. -/
theorem echoes_accepted (hiri : IsIri crates) (hname : IsName name) (h : text.head? ≠ some '/')
    (hparse : crates.hosts.parse true name = .ok host) (hhost : IsName host)
    (hroot : ¬Rfc3986.isRelativeRef ('/' :: text)) : Echoes crates name text ↔ Agrees text := by
  have hencoded := encodeRelative_name_ok hname hparse text
  have hcomponents := split_named (crates.hosts.parse_valid _ _ _ hparse) text
  have hroots : Rfc3986.split ('/' :: encodedRoot text) =
      ⟨none,none,'/' :: percentEncode (!Rfc3986.isPathChar ·) (Reference.split text).body,
        (Reference.split text).query.map (percentEncode (!Rfc3986.isQueryChar ·)),
        (Reference.split text).fragment.map (percentEncode (!Rfc3986.isQueryChar ·))⟩ := by
    rw [components_root (encodedRoot_head h),split_encodedRoot]
  have hquery : (namedComponents host text).query =
      (Reference.split (cleanInner true text)).query.map (percentEncode specialQuerySet) := by
    simp only [namedComponents,borrowedComponents,split_root]
  have hfragment : (namedComponents host text).fragment =
      (Reference.split (cleanInner true text)).fragment.map (percentEncode fragmentSet) := by
    simp only [namedComponents,borrowedComponents,split_root]
  have hsame : ∀ hnamed : Rfc3986.isRelativeRef (Rfc3986.compose (namedComponents host text)),
      SameTail (.Relative ⟨_,isRelativeRef_encodedRoot h⟩) (.Relative ⟨_,hnamed⟩) ↔ Agrees text := by
    intro hnamed
    rw [← agrees_iff,← hquery,← hfragment]
    constructor
    · rintro ⟨hpath,hq,hf⟩
      simp only [encodedPath,query,fragment,hcomponents,hroots] at hpath hq hf
      exact ⟨hpath,hq,hf⟩
    · rintro ⟨hpath,hq,hf⟩
      constructor <;> simp only [encodedPath,query,fragment,hcomponents,hroots]
      · exact hpath
      · exact hq
      · exact hf
  rw [echoes_encoded hiri hname h hroot]
  simp only [hencoded]
  constructor
  · rintro ⟨hnamed,hsametail⟩
    exact (hsame hnamed).mp hsametail
  · intro hagrees
    exact ⟨isRelativeRef_named hhost (crates.hosts.parse_valid _ _ _ hparse) hagrees,
      (hsame _).mpr hagrees⟩

/-- A network-path reference is echoed like a path if and only if the grammar takes the path as it is,
the host is refused, or the URL parser encodes the path like the grammar and changes nothing else. -/
theorem echoes_iff (crates : UrlCrates) (hiri : IsIri crates) {name text : Chars} (hname : IsName name)
    (hhosts : ∀ name host, IsName name → crates.hosts.parse true name = .ok host → IsName host)
    (h : text.head? ≠ some '/') : Echoes crates name text ↔
      Rfc3986.isRelativeRef ('/' :: text) ∨ (∃ e, crates.hosts.parse true name = .error e) ∨
        Agrees text := by
  by_cases hroot : Rfc3986.isRelativeRef ('/' :: text)
  · exact iff_of_true (echoes_verbatim hname h hroot) (.inl hroot)
  · cases hparse : crates.hosts.parse true name with
    | error e => exact iff_of_true (echoes_refused hiri hname h hparse) (.inr (.inl ⟨e,rfl⟩))
    | ok host =>
      rw [echoes_accepted hiri hname h hparse (hhosts name host hname hparse) hroot]
      simp [hroot]

theorem isName_iriCrates (name host : Chars) (hname : IsName name)
    (h : iriCrates.hosts.parse true name = .ok host) : IsName host := by
  simp only [iriCrates,plainHosts] at h
  split at h
  · cases h
    exact hname
  · cases h

/-- Both encoders agree on `a b`. -/
theorem echoes_space : Echoes iriCrates ['h'] ['a',' ','b'] :=
  (echoes_iff iriCrates isIri_iriCrates ⟨by decide,List.all_eq_true.mp (by decide)⟩ isName_iriCrates
    (by decide)).mpr
    (.inr (.inr ⟨by decide,List.all_iff_forall_prop.mp (by decide),by decide,by decide,by decide⟩))

/-- `/a/../b c` keeps its dot segments, and loses them behind a host. -/
theorem echo_drops_dots : ¬ ∀ (crates : UrlCrates) (name text : Chars), IsIri crates → IsName name →
    (∀ name host, IsName name → crates.hosts.parse true name = .ok host → IsName host) →
      text.head? ≠ some '/' → Echoes crates name text := by
  intro h
  have hechoes := h iriCrates ['h'] ['a','/','.','.','/','b',' ','c'] isIri_iriCrates
    ⟨by decide,List.all_eq_true.mp (by decide)⟩ isName_iriCrates (by decide)
  obtain ⟨v,hv,hsame⟩ := hechoes
    (.Relative ⟨['/','a','/','.','.','/','b','%','2','0','c'],by decide⟩) rfl
  have hshort : parse iriCrates ['/','/','h','/','a','/','.','.','/','b',' ','c'] =
      .ok (.Relative ⟨['/','/','h','/','b','%','2','0','c'],by decide⟩) := rfl
  rw [List.singleton_append] at hv
  rw [hshort] at hv
  cases hv
  exact absurd hsame.path (by decide)

end Echo

end UrlReference
end Rqx
