import Rqx.CopyWith

/-! `join`: a reference resolved against a URL, or against a reference on a borrowed base. -/
namespace Whatwg

/-- `Url::join` on a base with a special scheme other than `file`. -/
def HostParser.join (hosts : HostParser) (base : Url) (text : Chars) : Except ParseError Url :=
  match kind base.scheme (clean text) with
  | .other scheme rest => (hosts.afterScheme scheme rest).mapError .Invalid
  | .authority rest => (hosts.fromAuthority base.scheme rest).mapError .Invalid
  | .relative rest => .ok (relative base rest)

end Whatwg

namespace Rqx
open Whatwg Split

namespace UrlReference

/-! ## Joining -/

section Join

variable (crates : UrlCrates)

/-- The base that a reference borrows. -/
def anchor : Chars := "http://rqx.invalid".toList

/-- The path of the reference and its query, behind the anchor. -/
def anchoredBase (reference : Chars) : Chars :=
  let components := Rfc3986.split reference
  anchor++ '/' :: components.path.dropWhile (· = '/')++lead '?' components.query

/-- What follows the anchor, where the text begins with it. -/
def stripAnchor (text : Chars) : Chars :=
  if anchor.isPrefixOf text then text.drop anchor.length else text

/-- The reference resolved on the borrowed base, as far as it follows the anchor. -/
def resolveAnchored (reference other : Chars) : Except RqxCoreError Chars :=
  match crates.hosts.parseUrl (anchoredBase reference) with
  | .error e => .error (invalid crates reference e.text)
  | .ok anchored => match crates.hosts.join anchored other with
    | .error e => .error (invalid crates other e.text)
    | .ok joined => .ok (stripAnchor joined.text)

/-- Without an authority the result is rooted only if either side was. -/
def isRooted (reference other : Chars) : Bool :=
  (Rfc3986.split reference).path.head? = some '/' || other.head? = some '/'

def rebuilt (reference other tail : Chars) : Chars :=
  match (Rfc3986.split reference).authority with
  | some authority => '/' :: '/' :: (authority++tail)
  | none => if isRooted reference other then tail else tail.dropWhile (· = '/')

def joinRelative (reference other : Chars) : Except RqxCoreError UrlReference :=
  if (crates.hosts.parseUrl other).isOk || ['/','/'].isPrefixOf other then parse crates other
  else match resolveAnchored crates reference other with
    | .error e => .error e
    | .ok tail => parse crates (rebuilt reference other tail)

/-- `Url::join` on a base of its own is a parameter. -/
def join (joinUrl : { url : Url // url.Valid } → Chars → Except String { url : Url // url.Valid })
    (url : UrlReference) (other : Chars) : Except RqxCoreError UrlReference :=
  if other = [] then .ok url
  else match url with
    | Absolute url => match joinUrl url other with
      | .ok joined => .ok (Absolute joined)
      | .error e => .error (invalid crates other e)
    | Relative reference => joinRelative crates reference.1 other

end Join

/-! ## The authority of what is parsed -/

section Authority

variable {crates : UrlCrates} {text front rest raw scheme : Chars} {url : Url}

theorem split_cut (hfront : ∀ c ∈ front, isEnd [] c = false) (hrest : ∀ c ∈ rest.head?, isEnd [] c) :
    (Rfc3986.split ('/' :: '/' :: (front++rest))).authority = some front := by
  have hslash : (fun _ : Char => false) '/' = false := rfl
  have hsplit := @split_encoded front rest (fun _ => false) (fun _ => false) (fun _ => false) hslash
    hfront hrest
  rw [encodeParts_none,percentEncode_none] at hsplit
  rw [hsplit]

theorem split_slashes (raw : Chars) :
    (Rfc3986.split ('/' :: '/' :: raw)).authority = some (raw.takeWhile (!isEnd [] ·)) := by
  have hsplit := split_cut (takeWhile_end [] raw) (dropWhile_end [] raw)
  rwa [List.takeWhile_append_dropWhile] at hsplit

/-- A reference has an authority if and only if it begins with two slashes. -/
theorem split_authority_none (h : Rfc3986.isRelativeRef text) :
    (Rfc3986.split text).authority = none ↔ ∀ raw, text ≠ '/' :: '/' :: raw := by
  constructor
  · rintro hnone raw rfl
    rw [split_slashes] at hnone
    cases hnone
  · intro hraw
    cases ha : (Rfc3986.split text).authority with
    | none => rfl
    | some authority =>
      have htext := Rfc3986.compose_split text
      rw [Rfc3986.compose,(Rfc3986.isRelativeRef_iff.mp h).scheme,ha] at htext
      exact absurd htext.symm (hraw _)

theorem encodeParts_head {set setQuery setFragment : Char → Bool} (h : text.head? ≠ some '/') :
    (encodeParts set setQuery setFragment text).head? ≠ some '/' := by
  have htext := Reference.split_text text
  unfold encodeParts
  cases hbody : (Reference.split text).body with
  | nil =>
    have hnil : percentEncode set [] = [] := rfl
    rw [hnil]
    cases (Reference.split text).query with
    | some query =>
      simp only [Option.map_some,lead_some,List.nil_append,List.cons_append,List.head?_cons]
      decide
    | none =>
      cases (Reference.split text).fragment with
      | some fragment =>
        simp only [Option.map_none,Option.map_some,lead_none,lead_some,List.nil_append,List.head?_cons]
        decide
      | none =>
        intro he
        cases he
  | cons c body =>
    have hc : c ≠ '/' := by
      rintro rfl
      rw [hbody] at htext
      exact h (by rw [← htext]; rfl)
    have hhead := percentEncode_head hc set body
    cases hencoded : percentEncode set (c::body) with
    | nil =>
      have hlength := percentEncode_length set (c::body)
      rw [hencoded] at hlength
      simp at hlength
    | cons d encoded =>
      rw [hencoded] at hhead
      simpa using hhead

theorem encodeParts_slashes {set setQuery setFragment : Char → Bool} (hslash : set '/' = false)
    (h : ∀ raw, text ≠ '/' :: '/' :: raw) :
    ∀ raw, encodeParts set setQuery setFragment text ≠ '/' :: '/' :: raw := by
  intro raw he
  cases text with
  | nil =>
    have hhead : ([] : Chars).head? ≠ some '/' := by simp
    exact encodeParts_head hhead (by rw [he]; rfl)
  | cons c rest =>
    by_cases hc : c = '/'
    · subst hc
      have hrest : rest.head? ≠ some '/' := by
        intro hhead
        obtain ⟨raw,rfl⟩ := List.head?_eq_some_iff.mp hhead
        exact h raw rfl
      have hcons : encodeParts set setQuery setFragment ('/' :: rest) =
          '/' :: encodeParts set setQuery setFragment rest := by
        have hmarks : ∀ d ∈ ['/'], d ≠ '#' ∧ d ≠ '?' := by simp
        have hsplit := Reference.split_append hmarks rest
        rw [List.singleton_append] at hsplit
        simp only [encodeParts,hsplit,percentEncode_raw hslash,List.cons_append,List.nil_append]
      rw [hcons] at he
      exact encodeParts_head hrest (by rw [(List.cons.inj he).2]; rfl)
    · have hhead : (c::rest).head? ≠ some '/' := by simpa using hc
      exact encodeParts_head hhead (by rw [he]; rfl)

/-- The host of a special URL is not empty, if the host parser makes none that is. -/
theorem netAuthority_host {authority : Whatwg.Authority} (hspecial : isSpecialNotFile scheme)
    (hhost : ∀ text host, text ≠ [] → crates.hosts.parse true text = .ok host → host ≠ [])
    (h : crates.hosts.netAuthority scheme text = .ok authority) : authority.host ≠ [] := by
  have hspecial := isSpecial_of_notFile hspecial
  simp only [HostParser.netAuthority,hspecial,true_or,and_true] at h
  split at h
  · cases h
  · rename_i hne
    split at h
    · cases h
    · cases h
    · rename_i host port hparse _
      cases h
      exact hhost _ _ hne hparse

/-- What `url` makes of a reference under a borrowed scheme. -/
theorem parseUrl_special (hscheme : IsScheme scheme) (hspecial : isSpecialNotFile scheme)
    (hhost : ∀ text host, text ≠ [] → crates.hosts.parse true text = .ok host → host ≠ [])
    (h : crates.hosts.parseUrl (scheme++ ':' :: raw) = .ok url) :
    url.scheme = scheme ∧ url.Valid ∧ ∃ authority, url.authority = some authority ∧ authority.host ≠ [] := by
  have hvalid := HostParser.parseUrl_valid h
  obtain ⟨authority,hauthority,rfl⟩ := HostParser.fromAuthority_ok
    (fromAuthority_of_parseUrl hscheme hspecial h)
  refine ⟨rfl,hvalid,authority,rfl,?_⟩
  have hfile : scheme ≠ file := by
    rintro rfl
    exact absurd hspecial (by decide)
  rw [HostParser.authority,if_neg hfile] at hauthority
  exact netAuthority_host hspecial hhost hauthority

/-- A URL without its scheme has the authority it had, trimmed or not. -/
theorem split_written {authority : Whatwg.Authority} (hvalid : url.Valid)
    (ha : url.authority = some authority) (hne : authority.host ≠ []) (keep : Bool) :
    (Rfc3986.split (if keep then
        '/' :: '/' :: (authority.text++(url.path.text++lead '?' url.query++lead '#' url.fragment))
      else ('/' :: '/' :: (authority.text++(url.path.text++lead '?' url.query++
        lead '#' url.fragment))).rdropWhile (· = '/'))).authority = some authority.text := by
  have htext : authority.text ≠ [] := by simp [Authority.text,hne]
  have hmem := Authority.text_mem (hvalid.authority authority ha)
  have hfront : ∀ c ∈ authority.text, isEnd [] c = false := fun c hc => isEnd_nil.mpr (hmem c hc)
  have hhead : ∀ c ∈ (url.path.text++lead '?' url.query++lead '#' url.fragment).head?,
      isEnd [] c := by
    intro c hc
    rw [List.append_assoc] at hc
    rcases root_head (Url.path_root hvalid ha) c hc with rfl | rfl | rfl <;> rfl
  cases keep with
  | true => exact split_cut hfront hhead
  | false =>
    rw [if_neg (by simp),trim_behind (hvalid.authority authority ha) htext]
    refine split_cut hfront fun c hc => ?_
    obtain ⟨rest,hrest⟩ := List.rdropWhile_prefix (fun c => decide (c = '/'))
      (url.path.text++lead '?' url.query++lead '#' url.fragment)
    refine hhead c ?_
    rw [← hrest]
    obtain ⟨tail,htail⟩ := List.head?_eq_some_iff.mp hc
    rw [htail]
    rfl

/-- The authority with which `encodeRelative` writes a network-path reference. -/
def encodedAuthority (crates : UrlCrates) (raw : Chars) : Chars :=
  match crates.hosts.parseUrl (ftp++ ':' :: '/' :: '/' :: raw),
      crates.hosts.parseUrl (ws++ ':' :: '/' :: '/' :: raw) with
  | .ok ftp,.ok ws => (keptPort ftp ws).authority.elim [] Authority.text
  | _,_ => percentEncode (!Rfc3986.isPathChar ·) (raw.takeWhile (!isEnd [] ·))

theorem split_encodeRelative (hiri : IsIri crates)
    (hhost : ∀ text host, text ≠ [] → crates.hosts.parse true text = .ok host → host ≠ [])
    (raw : Chars) : (Rfc3986.split (encodeRelative crates ('/' :: '/' :: raw))).authority =
      some (encodedAuthority crates raw) := by
  have hslash : (!Rfc3986.isPathChar '/') = false := by decide
  have hsplit := @split_encoded _ _ (!Rfc3986.isPathChar ·) (!Rfc3986.isQueryChar ·)
    (!Rfc3986.isQueryChar ·) hslash (takeWhile_end [] raw) (dropWhile_end [] raw)
  rw [List.takeWhile_append_dropWhile,← hiri.encodePath_eq] at hsplit
  unfold encodeRelative encodedAuthority
  cases hftp : crates.hosts.parseUrl (ftp++ ':' :: '/' :: '/' :: raw) with
  | error e => exact congrArg Rfc3986.Components.authority hsplit
  | ok ftpUrl =>
    cases hws : crates.hosts.parseUrl (ws++ ':' :: '/' :: '/' :: raw) with
    | error e => exact congrArg Rfc3986.Components.authority hsplit
    | ok wsUrl =>
      simp only
      obtain ⟨hscheme,hvalid,authority,ha,hne⟩ : IsScheme (keptPort ftpUrl wsUrl).scheme ∧
          (keptPort ftpUrl wsUrl).Valid ∧ ∃ authority,
            (keptPort ftpUrl wsUrl).authority = some authority ∧ authority.host ≠ [] := by
        obtain ⟨hftpScheme,hftp⟩ := parseUrl_special ftp_scheme (by decide) hhost hftp
        obtain ⟨hwsScheme,hws⟩ := parseUrl_special ws_scheme (by decide) hhost hws
        rcases keptPort_eq ftpUrl wsUrl with he | he
        · rw [he,hftpScheme]
          exact ⟨ftp_scheme,hftp⟩
        · rw [he,hwsScheme]
          exact ⟨ws_scheme,hws⟩
      rw [ha,Option.elim_some,withoutScheme_eq _ hscheme ha]
      exact split_written hvalid ha hne _

/-- A relative reference with this authority. -/
def HasAuthority (authority : Option Chars) (u : UrlReference) : Prop :=
  ∃ reference, u = .Relative reference ∧ (Rfc3986.split reference.1).authority = authority

theorem isOk_false {input : Chars} {u : UrlReference} (h : (crates.hosts.parseUrl input).isOk = false)
    (hu : parse crates input = .ok u) : parseRelative crates input = .ok u := by
  rcases parse_ok hu with ⟨found,_,hfound,_⟩ | ⟨_,hrelative⟩
  · rw [hfound] at h
    cases h
  · exact hrelative

/-- A text is read without an authority if and only if it is no URL and nothing behind two slashes. -/
theorem parse_authority_none (hiri : IsIri crates)
    (hhost : ∀ text host, text ≠ [] → crates.hosts.parse true text = .ok host → host ≠ []) :
    (∀ u, parse crates text = .ok u → HasAuthority none u) ↔
      (crates.hosts.parseUrl text).isOk = false ∧ ∀ raw, text = '/' :: '/' :: raw →
        Rfc3986.isRelativeRef text = false ∧ Rfc3986.isRelativeRef (encodeRelative crates text) = false := by
  constructor
  · intro h
    have hok : (crates.hosts.parseUrl text).isOk = false := by
      cases hparse : crates.hosts.parseUrl text with
      | error e => rfl
      | ok found =>
        obtain ⟨_,he,_⟩ := h _ (parse_absolute (HostParser.parseUrl_valid hparse) hparse)
        cases he
    refine ⟨hok,?_⟩
    rintro raw rfl
    rw [parse_slashes] at h
    have hread : Rfc3986.isRelativeRef ('/' :: '/' :: raw) = false := by
      by_contra hread
      have hread := Bool.of_not_eq_false hread
      obtain ⟨_,he,hnone⟩ := h (.Relative ⟨_,hread⟩) (by rw [parseRelative,dif_pos hread])
      cases he
      rw [split_slashes] at hnone
      cases hnone
    refine ⟨hread,?_⟩
    by_contra hencoded
    have hencoded := Bool.of_not_eq_false hencoded
    obtain ⟨_,he,hnone⟩ := h (.Relative ⟨_,hencoded⟩) (by
      rw [parseRelative,dif_neg (by simp [hread]),dif_pos hencoded])
    cases he
    rw [split_encodeRelative hiri hhost] at hnone
    cases hnone
  · rintro ⟨hok,hslashes⟩ u hu
    have hu := isOk_false hok hu
    by_cases hraw : ∀ raw, text ≠ '/' :: '/' :: raw
    · rcases parseRelative_ok hu with ⟨hread,rfl⟩ | ⟨_,hread,rfl⟩
      · exact ⟨_,rfl,(split_authority_none hread).mpr hraw⟩
      · refine ⟨_,rfl,(split_authority_none hread).mpr ?_⟩
        have hpath : encodeRelative crates text = encodePath crates text := by
          unfold encodeRelative
          split
          · exact absurd rfl (hraw _)
          · rfl
        rw [hpath,hiri.encodePath_eq]
        exact encodeParts_slashes (by decide) hraw
    · obtain ⟨raw,rfl⟩ : ∃ raw, text = '/' :: '/' :: raw := by simpa using hraw
      obtain ⟨hread,hencoded⟩ := hslashes raw rfl
      rcases parseRelative_ok hu with ⟨hinput,_⟩ | ⟨_,hinput,_⟩
      · rw [hread] at hinput
        cases hinput
      · rw [hencoded] at hinput
        cases hinput

end Authority

theorem plainHosts_ne : ∀ text host, text ≠ [] → plainHosts.parse true text = .ok host → host ≠ [] := by
  intro text host hne h
  unfold plainHosts at h
  simp only at h
  split at h
  · cases h
    exact hne
  · cases h

def noJoin (_ : { url : Url // url.Valid }) (_ : Chars) : Except String { url : Url // url.Valid } :=
  .error "not a base"

end UrlReference
end Rqx
