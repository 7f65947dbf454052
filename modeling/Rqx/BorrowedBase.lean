import Rqx.NetworkEcho
import Rqx.UrlJoin
import Rqx.BaseUrl

/-! The URL that a relative reference borrows to be a base, and what is read once its own authority is
put back. -/
namespace Whatwg
open Split

/-! ## Special URLs -/

section Special

variable {scheme text : Chars} {base url : Url}

theorem HostParser.afterScheme_scheme {hosts : HostParser} (h : hosts.afterScheme scheme text = .ok url) :
    url.scheme = scheme := by
  have hfrom : ∀ {scheme text}, hosts.fromAuthority scheme text = .ok url → url.scheme = scheme := by
    intro scheme text h
    obtain ⟨_,_,rfl⟩ := fromAuthority_ok h
    rfl
  unfold afterScheme at h
  split at h
  · exact hfrom h
  · split at h
    · rename_i hfile
      rw [hfile]
      unfold fileUrl at h
      split at h
      · split at h
        · split at h
          · cases h
            rfl
          · exact hfrom h
        · cases h
          rfl
      · cases h
        rfl
      · cases h
        rfl
    · unfold otherUrl at h
      split at h
      · exact hfrom h
      · cases h
        rfl

/-- What is parsed against a base is parsed by the same parser as a URL of its own. -/
def HostParser.parsers (hosts : HostParser) : Parsers where
  host := hosts.parse true
  other := hosts.afterScheme
  other_scheme := fun _ _ _ => HostParser.afterScheme_scheme

theorem HostParser.parsers_authority (hosts : HostParser) (h : isSpecialNotFile scheme) (text : Chars) :
    hosts.parsers.authority scheme text = hosts.authority scheme text := by
  have hfile : scheme ≠ file := by
    rintro rfl
    exact absurd h (by decide)
  rw [HostParser.authority,if_neg hfile]
  simp only [Parsers.authority,netAuthority,cutAuthority,isSpecial_of_notFile h,true_or,and_true]
  have huserinfo : ((splitFirst '@' text.reverse).2.getD []).reverse =
      ((splitFirst '@' text.reverse).2.map List.reverse).getD [] := by
    cases (splitFirst '@' text.reverse).2 <;> rfl
  rw [huserinfo]
  generalize splitPort false (splitFirst '@' text.reverse).1.reverse = parts
  obtain ⟨host,port⟩ := parts
  by_cases hnil : host = []
  · simp [hnil,throw,throwThe,MonadExceptOf.throw,bind,Except.bind]
  · simp only [hnil,if_false]
    have hhost : hosts.parsers.host = hosts.parse true := rfl
    rw [hhost]
    cases hosts.parse true host with
    | error e => rfl
    | ok found =>
      cases parsePort scheme (port.getD []) with
      | error e => rfl
      | ok n => rfl

theorem HostParser.parsers_fromAuthority (hosts : HostParser) (h : isSpecialNotFile scheme)
    (text : Chars) : hosts.parsers.fromAuthority scheme text = hosts.fromAuthority scheme text := by
  have hspecial := isSpecial_of_notFile h
  have hpath : ∀ rest, pathAfter scheme rest = parsePath [] rest.tail := by
    intro rest
    rw [pathAfter_special h]
    cases rest with
    | nil => exact parsePathOf_ftp []
    | cons c rest => exact parsePathOf_ftp rest
  simp only [Parsers.fromAuthority,HostParser.fromAuthority,isSlashOf_special hspecial,
    parsers_authority hosts h,hpath,querySetOf_special h]
  cases hosts.authority scheme _ <;> rfl

theorem HostParser.parsers_join (hosts : HostParser) (h : isSpecialNotFile base.scheme) (text : Chars) :
    hosts.join base text = (hosts.parsers.join base text).mapError .Invalid := by
  unfold HostParser.join Parsers.join Parsers.resolve
  cases kind base.scheme (clean text) with
  | other scheme rest =>
    simp only [Parsers.parse]
    split
    · rename_i hspecial
      rw [parsers_fromAuthority hosts hspecial,afterScheme,if_pos hspecial]
    · rfl
  | authority rest => simp only [parsers_fromAuthority hosts h]
  | relative rest => rfl

end Special

end Whatwg

namespace Rqx
open Whatwg Split

namespace UrlReference

/-! ## The borrowed base -/

section Anchored

variable {crates : UrlCrates} {text other : Chars}

def anchorHost : Chars := "rqx.invalid".toList

/-- The URL that a reference borrows. -/
def anchoredUrl (base : Rfc3986.Components) : Url where
  scheme := http
  authority := some ⟨[],[],anchorHost,none⟩
  path := .segments (parsePath [] (base.path.dropWhile (· = '/')))
  query := base.query.map (percentEncode specialQuerySet)
  fragment := none

theorem parseUrl_anchored (hanchor : crates.hosts.parse true anchorHost = .ok anchorHost)
    (h : Rfc3986.isRelativeRef text) : crates.hosts.parseUrl (anchoredBase text) =
      .ok (anchoredUrl (Rfc3986.split text)) := by
  have hrelative := Rfc3986.isRelativeRef_iff.mp h
  have hname : IsName anchorHost := ⟨by decide,List.all_eq_true.mp (by decide)⟩
  have hscheme : IsScheme http := ⟨by decide,List.all_eq_true.mp (by decide),by decide⟩
  have hbase : anchoredBase text = http++ ':' :: '/' :: '/' :: (anchorHost++ '/' ::
      ((Rfc3986.split text).path.dropWhile (· = '/')++lead '?' (Rfc3986.split text).query)) := rfl
  have hpath : ∀ c ∈ (Rfc3986.split text).path.dropWhile (· = '/'), c ≠ '?' ∧ c ≠ '#' := fun c hc =>
    Rfc3986.split_path_mem text c ((List.dropWhile_sublist _).mem hc)
  have hquery : ∀ q ∈ (Rfc3986.split text).query, '#' ∉ q := fun q hq =>
    Rfc3986.isQueryChar_mem (hrelative.query q hq)
  have hvisible : ∀ c ∈ (Rfc3986.split text).path.dropWhile (· = '/')++lead '?' (Rfc3986.split text).query,
      32 < c.toNat := by
    intro c hc
    refine (hrelative.mem c ?_).1
    rcases List.mem_append.mp hc with hc | hc
    · simp [Rfc3986.compose,(List.dropWhile_sublist _).mem hc]
    · simp [Rfc3986.compose,hc]
  have hsplit := @Reference.split_lead _ _ none hpath hquery
  rw [lead_none,List.append_nil] at hsplit
  have hparse : pathAfter ftp ('/' :: (Rfc3986.split text).path.dropWhile (· = '/')) = parsePath [] _ :=
    parsePathOf_ftp _
  rw [hbase,parseUrl_name hscheme (by decide) hname,hanchor,cleanInner_visible true hvisible]
  simp only [Except.map,Except.mapError,borrowedUrl,split_root,hsplit,hparse,Option.map_none]
  rfl

theorem clean_mark {mark : Char} (hmark : 32 < mark.toNat) (h : other.head? = some mark) :
    ∃ rest, clean other = mark::rest := by
  obtain ⟨rest,rfl⟩ := List.head?_eq_some_iff.mp h
  exact clean_head hmark rest

/-- A reference with an empty path has a query or a fragment, if it is anything. -/
theorem split_mark (h : other.head? = some '?' ∨ other.head? = some '#') :
    splitScheme (clean other) = none ∧ (Reference.split (clean other)).body = [] ∧
      kind http (clean other) = .relative (clean other) := by
  rcases h with h | h
  all_goals
    obtain ⟨rest,hrest⟩ := clean_mark (by decide) h
    rw [hrest]
    exact ⟨by simp [splitScheme],by simp [Reference.split,splitFirst],
      by simp [kind,splitScheme,relativeKind,isSlash]⟩

/-- The query that is written behind the path. -/
def mergedQuery (base : Rfc3986.Components) (other : Chars) : Option Chars :=
  (Reference.split (clean other)).query.map (percentEncode specialQuerySet) <|>
    base.query.map (percentEncode specialQuerySet)

def mergedFragment (other : Chars) : Option Chars :=
  (Reference.split (clean other)).fragment.map (percentEncode fragmentSet)

/-- The path that the URL parser makes of the base's. -/
def anchoredPath (base : Rfc3986.Components) : Chars :=
  (Path.segments (parsePath [] (base.path.dropWhile (· = '/')))).text

theorem anchored_text (path : Path) (query fragment : Option Chars) :
    Url.text ⟨http,some ⟨[],[],anchorHost,none⟩,path,query,fragment⟩ =
      anchor++(path.text++(lead '?' query++lead '#' fragment)) := by
  have hauthority : Whatwg.Authority.text ⟨[],[],anchorHost,none⟩ = anchorHost := by
    simp [Whatwg.Authority.text,Whatwg.Authority.credentials]
  have hanchor : anchor = http++ ':' :: '/' :: '/' :: anchorHost := by decide
  simp only [Url.text,hauthority,hanchor,List.append_assoc,List.cons_append]

/-- A URL on the borrowed base without the anchor. -/
theorem stripAnchor_text (path : Path) (query fragment : Option Chars) :
    stripAnchor (Url.text ⟨http,some ⟨[],[],anchorHost,none⟩,path,query,fragment⟩) =
      path.text++(lead '?' query++lead '#' fragment) := by
  rw [anchored_text,stripAnchor,if_pos (List.isPrefixOf_iff_prefix.mpr (List.prefix_append _ _)),
    List.drop_left]

theorem resolveAnchored_mark (hanchor : crates.hosts.parse true anchorHost = .ok anchorHost)
    (hrelative : Rfc3986.isRelativeRef text) (h : other.head? = some '?' ∨ other.head? = some '#') :
    resolveAnchored crates text other = .ok (anchoredPath (Rfc3986.split text)++
      (lead '?' (mergedQuery (Rfc3986.split text) other)++lead '#' (mergedFragment other))) := by
  obtain ⟨_,hbody,hkind⟩ := split_mark h
  have hjoin : crates.hosts.join (anchoredUrl (Rfc3986.split text)) other =
      .ok { anchoredUrl (Rfc3986.split text) with
        query := mergedQuery (Rfc3986.split text) other, fragment := mergedFragment other } := by
    simp only [HostParser.join,anchoredUrl,hkind,relative,hbody]
    rfl
  simp only [resolveAnchored,parseUrl_anchored hanchor hrelative,hjoin]
  rw [anchoredUrl,stripAnchor_text]
  rfl

end Anchored

/-! ## What is put together again -/

section Merged

variable {crates : UrlCrates} {text other : Chars} {base c : Rfc3986.Components}

/-- The authority of the base, and the path as the URL parser has left it. -/
def merged (base : Rfc3986.Components) (other : Chars) : Rfc3986.Components where
  scheme := none
  authority := base.authority
  path := if base.authority ≠ none ∨ base.path.head? = some '/' then anchoredPath base
    else (anchoredPath base).dropWhile (· = '/')
  query := mergedQuery base other
  fragment := mergedFragment other

theorem dropWhile_tail {p : Char → Bool} (hquery : p '?' = false) (hfragment : p '#' = false) (path : Chars)
    (query fragment : Option Chars) : (path++(lead '?' query++lead '#' fragment)).dropWhile p =
      path.dropWhile p++(lead '?' query++lead '#' fragment) := by
  have htail : (lead '?' query++lead '#' fragment).dropWhile p = lead '?' query++lead '#' fragment := by
    cases query <;> cases fragment <;> simp [hquery,hfragment]
  rw [List.dropWhile_append]
  split
  · rename_i hnil
    rw [htail,List.isEmpty_iff.mp hnil,List.nil_append]
  · rfl

theorem rebuilt_mark (h : other.head? = some '?' ∨ other.head? = some '#') :
    rebuilt text other (anchoredPath (Rfc3986.split text)++
      (lead '?' (mergedQuery (Rfc3986.split text) other)++lead '#' (mergedFragment other))) =
        Rfc3986.compose (merged (Rfc3986.split text) other) := by
  have hother : other.head? ≠ some '/' := by
    rcases h with h | h <;> rw [h] <;> decide
  unfold rebuilt merged
  cases ha : (Rfc3986.split text).authority with
  | some authority => simp [Rfc3986.compose]
  | none =>
    by_cases hroot : (Rfc3986.split text).path.head? = some '/'
    · simp [Rfc3986.compose,isRooted,hroot]
    · have hdrop := dropWhile_tail (p := (decide <| · = '/')) (by decide) (by decide)
        (anchoredPath (Rfc3986.split text)) (mergedQuery (Rfc3986.split text) other) (mergedFragment other)
      simp only [isRooted,hroot,hother,decide_false,Bool.or_false,Bool.false_eq_true,if_false,hdrop]
      simp [Rfc3986.compose]

/-- The components of a text whose path, query and fragment a URL parser has encoded. -/
structure IsParsed (c : Rfc3986.Components) : Prop where
  scheme : c.scheme = none
  authority : ∀ authority ∈ c.authority, Rfc3986.isAuthority authority
  root : c.authority ≠ none → ∃ rest, c.path = '/' :: rest
  path : ∀ d ∈ c.path, pathSet d = false
  dots : hasDotSegment c.path = false
  query : ∀ q ∈ c.query, ∀ d ∈ q, specialQuerySet d = false
  fragment : ∀ f ∈ c.fragment, ∀ d ∈ f, fragmentSet d = false

theorem anchoredPath_names (base : Rfc3986.Components) :
    ∃ name names, parsePath [] (base.path.dropWhile (· = '/')) = name::names ∧
      ∀ segment ∈ name::names, (∀ d ∈ segment, plain d) ∧ isDot segment = false := by
  have hplain := @parsePath_plain (base.path.dropWhile (· = '/')) [] (by simp)
  have hdot := pathAfter_dot ftp ('/' :: base.path.dropWhile (· = '/'))
  have hne := @pathAfter_ne_nil ftp (by decide) ('/' :: base.path.dropWhile (· = '/'))
  have hparse : pathAfter ftp ('/' :: base.path.dropWhile (· = '/')) = parsePath [] _ :=
    parsePathOf_ftp _
  rw [hparse] at hdot hne
  obtain ⟨name,names,hnames⟩ := List.exists_cons_of_ne_nil hne
  rw [hnames] at hplain hdot
  exact ⟨name,names,hnames,fun segment hsegment => ⟨hplain segment hsegment,hdot segment hsegment⟩⟩

/-- The path of a URL begins with a slash, and has no dot segments. -/
theorem anchoredPath_rule (base : Rfc3986.Components) : (∃ rest, anchoredPath base = '/' :: rest) ∧
    (∀ d ∈ anchoredPath base, pathSet d = false) ∧ hasDotSegment (anchoredPath base) = false := by
  obtain ⟨name,names,hnames,hrule⟩ := anchoredPath_names base
  rw [anchoredPath,hnames]
  refine ⟨⟨_,rfl⟩,?_,?_⟩
  · intro d hd
    simp only [Path.text,List.mem_flatMap,List.mem_cons] at hd
    obtain ⟨segment,hsegment,rfl | hd⟩ := hd
    · decide
    · exact (plain_iff.mp ((hrule segment (by simpa using hsegment)).1 d hd)).1
  · rw [hasDotSegment_segments,List.any_eq_false]
    · exact fun segment hsegment => by simp [(hrule segment hsegment).2]
    · intro segment hsegment hslash
      exact absurd ((hrule segment hsegment).1 '/' hslash) (by decide)

theorem merged_isParsed (hrelative : Rfc3986.isRelativeRef text) (other : Chars) :
    IsParsed (merged (Rfc3986.split text) other) := by
  obtain ⟨hroot,hpath,hdots⟩ := anchoredPath_rule (Rfc3986.split text)
  refine ⟨rfl,(Rfc3986.isRelativeRef_iff.mp hrelative).authority,?_,?_,?_,?_,?_⟩
  · intro hauthority
    rwa [merged,if_pos (.inl hauthority)]
  · intro d hd
    simp only [merged] at hd
    split at hd
    · exact hpath d hd
    · exact hpath d ((List.dropWhile_sublist _).mem hd)
  · simp only [merged]
    split
    · exact hdots
    · rwa [BaseUrl.hasDotSegment_dropWhile]
  · intro q hq d hd
    have hencoded : ∃ raw, q = percentEncode specialQuerySet raw := by
      simp only [merged,mergedQuery,Option.mem_def,Option.orElse_eq_some,Option.map_eq_some_iff] at hq
      rcases hq with ⟨raw,_,rfl⟩ | ⟨_,raw,_,rfl⟩ <;> exact ⟨raw,rfl⟩
    obtain ⟨raw,rfl⟩ := hencoded
    exact percentEncode_mem (P := (specialQuerySet · = false)) (by decide) (by decide)
      (fun _ _ h => h) d hd
  · intro f hf
    obtain ⟨raw,_,rfl⟩ := Option.map_eq_some_iff.mp hf
    exact percentEncode_fragment raw

end Merged

/-! ## Components read off a text -/

section Composed

variable {crates : UrlCrates} {c : Rfc3986.Components}

/-- No component contains what ends it. -/
structure Composed (c : Rfc3986.Components) : Prop where
  scheme : c.scheme = none
  authority : ∀ authority ∈ c.authority, ∀ d ∈ authority, d ≠ '/' ∧ d ≠ '?' ∧ d ≠ '#'
  root : c.authority ≠ none → ∃ rest, c.path = '/' :: rest
  path : ∀ d ∈ c.path, d ≠ '?' ∧ d ≠ '#'
  query : ∀ q ∈ c.query, '#' ∉ q

theorem pathSet_visible {d : Char} (h : pathSet d = false) : d ≠ '?' ∧ d ≠ '#' ∧ 32 < d.toNat := by
  have hquery : querySet d = false := (Bool.or_eq_false_iff.mp h).1
  obtain ⟨hhash,hlow⟩ := querySet_visible hquery
  refine ⟨?_,hhash,hlow⟩
  rintro rfl
  exact absurd h (by decide)

theorem specialQuerySet_visible {d : Char} (h : specialQuerySet d = false) : d ≠ '#' ∧ 32 < d.toNat :=
  querySet_visible (Bool.or_eq_false_iff.mp h).1

theorem IsParsed.composed (h : IsParsed c) : Composed c :=
  ⟨h.scheme,fun authority hauthority => Rfc3986.isAuthority_mem (h.authority authority hauthority),h.root,
    fun d hd => ⟨(pathSet_visible (h.path d hd)).1,(pathSet_visible (h.path d hd)).2.1⟩,
    fun q hq hhash => (specialQuerySet_visible (h.query q hq _ hhash)).1 rfl⟩

/-- All but the scheme, once more encoded. -/
def reencoded (c : Rfc3986.Components) : Rfc3986.Components where
  scheme := none
  authority := c.authority.map (percentEncode (!Rfc3986.isPathChar ·))
  path := percentEncode (!Rfc3986.isPathChar ·) c.path
  query := c.query.map (percentEncode (!Rfc3986.isQueryChar ·))
  fragment := c.fragment.map (percentEncode (!Rfc3986.isQueryChar ·))

theorem Composed.reencoded (h : Composed c) : Composed (reencoded c) := by
  refine ⟨rfl,?_,?_,?_,?_⟩
  · intro authority hauthority d hd
    obtain ⟨raw,hraw,rfl⟩ := Option.map_eq_some_iff.mp hauthority
    exact percentEncode_end _ (h.authority raw hraw) hd
  · intro hauthority
    obtain ⟨rest,hrest⟩ := h.root (by simpa [UrlReference.reencoded] using hauthority)
    exact ⟨_,by rw [UrlReference.reencoded,hrest,percentEncode_raw (by decide)]⟩
  · exact percentEncode_mem (by decide) (by decide) fun d hd _ => h.path d hd
  · exact map_percentEncode_hash h.query

/-- Components are found again, if no authority is found that was none. -/
theorem Composed.split (h : Composed c) (hnone : c.authority = none →
    Rfc3986.isRelativeRef (Rfc3986.compose c) ∧ (Rfc3986.split (Rfc3986.compose c)).authority = none) :
    Rfc3986.split (Rfc3986.compose c) = c := by
  cases hauthority : c.authority with
  | some authority =>
    exact Rfc3986.split_compose hauthority (by simp [h.scheme]) (h.authority authority hauthority)
      (.inr (h.root (by simp [hauthority]))) h.path h.query
  | none =>
    obtain ⟨hrelative,ha⟩ := hnone hauthority
    obtain ⟨scheme,authority,path,query,fragment⟩ := c
    obtain rfl : authority = none := hauthority
    obtain rfl : scheme = none := h.scheme
    have htext : Rfc3986.compose ⟨none,none,path,query,fragment⟩ =
        path++lead '?' query++lead '#' fragment := by simp [Rfc3986.compose]
    have hreference := @Reference.split_lead _ _ fragment h.path h.query
    rw [htext] at hrelative ha ⊢
    have hslashes := (split_authority_none hrelative).mp ha
    rw [authority_none (body_slashes hslashes) (Rfc3986.isRelativeRef_iff.mp hrelative).scheme,hreference]

/-- What stands before the path. -/
def slashes (authority : Option Chars) : Chars := authority.elim [] ('/' :: '/' :: ·)

theorem Composed.reference (h : Composed c) : Reference.split (Rfc3986.compose c) =
    ⟨slashes c.authority++c.path,c.query,c.fragment⟩ := by
  have hfront : ∀ d ∈ slashes c.authority, d ≠ '#' ∧ d ≠ '?' := by
    intro d hd
    cases ha : c.authority with
    | none => simp [ha,slashes] at hd
    | some authority =>
      simp only [ha,slashes,Option.elim_some,List.mem_cons] at hd
      rcases hd with rfl | rfl | hd
      · decide
      · decide
      · exact ⟨(h.authority authority ha d hd).2.2,(h.authority authority ha d hd).2.1⟩
  have htext : Rfc3986.compose c = slashes c.authority++
      (c.path++lead '?' c.query++lead '#' c.fragment) := by simp [Rfc3986.compose,h.scheme,slashes]
  rw [htext,Reference.split_append hfront,Reference.split_lead h.path h.query]

theorem encodePath_composed (hiri : IsIri crates) (h : Composed c) :
    encodePath crates (Rfc3986.compose c) = Rfc3986.compose (reencoded c) := by
  have hencoded : percentEncode (!Rfc3986.isPathChar ·) (slashes c.authority) =
      slashes (reencoded c).authority := by
    cases ha : c.authority with
    | none => simp [reencoded,ha,percentEncode,slashes]
    | some authority =>
      simp only [reencoded,ha,Option.map_some,slashes,Option.elim_some]
      rw [percentEncode_raw (by decide),percentEncode_raw (by decide)]
  rw [hiri.encodePath_eq,encodeParts,h.reference,percentEncode_append,hencoded]
  simp [Rfc3986.compose,reencoded,slashes]

end Composed

/-! ## How a text is parsed -/

section Routes

variable {crates : UrlCrates} {c : Rfc3986.Components} {scheme raw : Chars} {url : Url}

/-- A URL that is made of a reference, under a borrowed scheme. -/
structure Borrowed (text : Chars) (url : Url) : Prop where
  scheme : IsScheme url.scheme
  valid : url.Valid
  authority : url.authority.isSome
  dots : hasDotSegment url.path.text = false
  query : url.query = (Reference.split text).query.map (percentEncode specialQuerySet)
  fragment : url.fragment = (Reference.split text).fragment.map (percentEncode fragmentSet)

theorem borrowed_of_parseUrl (hscheme : IsScheme scheme) (hspecial : isSpecialNotFile scheme)
    (h : crates.hosts.parseUrl (scheme++ ':' :: raw) = .ok url) : Borrowed (cleanInner true raw) url := by
  have hvalid := HostParser.parseUrl_valid h
  obtain ⟨hquery,hfragment⟩ := dropWhile_slash_reference (cleanInner true raw)
  obtain ⟨authority,_,rfl⟩ := HostParser.fromAuthority_ok (fromAuthority_of_parseUrl hscheme hspecial h)
  refine ⟨hscheme,hvalid,rfl,?_,?_,?_⟩
  · rw [hasDotSegment_segments,List.any_eq_false]
    · exact fun name hname => by simp [pathAfter_dot _ _ name hname]
    · intro name hname hslash
      have hplain := pathAfter_plain _ _ name hname '/' hslash
      simp [plainOf,isSlashOf] at hplain
  · rw [querySetOf_special hspecial,hquery]
  · rw [hfragment]

/-- A network-path reference that the `url` crate writes. -/
theorem encodeRelative_borrows (hborrows : Borrows crates ('/' :: '/' :: raw))
    (hmark : raw.any fun c => c = '/' || c = '?' || c = '#') :
    ∃ url authority, Borrowed (cleanInner true ('/' :: '/' :: raw)) url ∧ url.authority = some authority ∧
      encodeRelative crates ('/' :: '/' :: raw) =
        Rfc3986.compose ⟨none,some authority.text,url.path.text,url.query,url.fragment⟩ := by
  obtain ⟨⟨ftpUrl,hftp⟩,wsUrl,hws⟩ := hborrows
  have hkept : Borrowed (cleanInner true ('/' :: '/' :: raw)) (keptPort ftpUrl wsUrl) := by
    rcases keptPort_eq ftpUrl wsUrl with hkept | hkept <;> rw [hkept]
    · exact borrowed_of_parseUrl ftp_scheme (by decide) hftp
    · exact borrowed_of_parseUrl ws_scheme (by decide) hws
  obtain ⟨authority,hauthority⟩ := Option.isSome_iff_exists.mp hkept.authority
  refine ⟨_,authority,hkept,hauthority,?_⟩
  simp only [encodeRelative,hftp,hws,hmark,if_true]
  rw [withoutScheme_eq _ hkept.scheme hauthority]
  simp [Rfc3986.compose]

theorem split_written_url {authority : Whatwg.Authority} (hvalid : url.Valid)
    (ha : url.authority = some authority) : Rfc3986.split
        (Rfc3986.compose ⟨none,some authority.text,url.path.text,url.query,url.fragment⟩) =
      ⟨none,some authority.text,url.path.text,url.query,url.fragment⟩ :=
  Rfc3986.split_compose rfl (by simp) (Authority.text_mem (hvalid.authority authority ha))
    ((Url.path_root hvalid ha).imp_right List.head?_eq_some_iff.mp) hvalid.path
    fun q hq hd => (querySet_visible (hvalid.query q hq _ hd)).1 rfl

theorem encodeRelative_authority (hmark : raw.any fun c => c = '/' || c = '?' || c = '#') (hiri : IsIri crates) :
    (Rfc3986.split (encodeRelative crates ('/' :: '/' :: raw))).authority ≠ none := by
  by_cases hborrows : Borrows crates ('/' :: '/' :: raw)
  · obtain ⟨url,authority,hurl,ha,hencoded⟩ := encodeRelative_borrows hborrows hmark
    rw [hencoded,split_written_url hurl.valid ha]
    simp
  · rw [encodeRelative_refused hborrows raw rfl,hiri.encodePath_eq,encodeParts_root (by decide),
      encodeParts_root (by decide),split_slashes]
    simp

theorem IsParsed.visible (h : IsParsed c) : ∀ d ∈ Rfc3986.compose c, 32 < d.toNat := by
  refine Rfc3986.compose_rule h.scheme (by decide) (by decide) (by decide) ?_
    (fun d hd => (pathSet_visible (h.path d hd)).2.2)
    (fun query hquery d hd => (specialQuerySet_visible (h.query query hquery d hd)).2)
    (fun fragment hfragment d hd => fragmentSet_visible (h.fragment fragment hfragment d hd))
  intro authority ha
  refine Rfc3986.isAuthority_rule (fun d hd => ?_) (by decide) (by decide) (by decide) (h.authority _ ha)
  exact (Rfc3986.visible (by decide) (by decide) d hd).2

theorem mark_behind (hmark : c.query ≠ none ∨ c.fragment ≠ none)
    (hraw : Rfc3986.compose c = '/' :: '/' :: raw) :
    raw.any (fun c => c = '/' || c = '?' || c = '#') = true := by
  have hmem : '?' ∈ Rfc3986.compose c ∨ '#' ∈ Rfc3986.compose c := by
    rcases hmark with hquery | hfragment
    · obtain ⟨q,hq⟩ := Option.ne_none_iff_exists'.mp hquery
      exact .inl (by simp [Rfc3986.compose,hq])
    · obtain ⟨f,hf⟩ := Option.ne_none_iff_exists'.mp hfragment
      exact .inr (by simp [Rfc3986.compose,hf])
  rw [hraw] at hmem
  rw [List.any_eq_true]
  rcases hmem with hmem | hmem
  · exact ⟨'?',by simpa using hmem,by decide⟩
  · exact ⟨'#',by simpa using hmem,by decide⟩

/-- How a parsed text with its authority is read: as it is, encoded, or with an authority that the
`url` crate takes. -/
inductive Reading (crates : UrlCrates) (c target : Rfc3986.Components) : Prop
  | verbatim (hrelative : Rfc3986.isRelativeRef (Rfc3986.compose c)) (htarget : target = c)
  | encoded (hrelative : ¬Rfc3986.isRelativeRef (Rfc3986.compose c)) (htarget : target = reencoded c)
      (hrefused : c.authority ≠ none → ¬Borrows crates (Rfc3986.compose c))
  | borrowed (hrelative : ¬Rfc3986.isRelativeRef (Rfc3986.compose c)) (hdots : hasDotSegment target.path = false)
      (hquery : target.query = c.query) (hfragment : target.fragment = c.fragment)

theorem parse_reading (hiri : IsIri crates) (hc : IsParsed c) (hmark : c.query ≠ none ∨ c.fragment ≠ none)
    {r : { text : Chars // Rfc3986.isRelativeRef text }}
    (h : parse crates (Rfc3986.compose c) = .ok (.Relative r))
    (ha : (Rfc3986.split r.1).authority = c.authority) : Reading crates c (Rfc3986.split r.1) := by
  have hcomposed := hc.composed
  rcases parse_ok h with ⟨_,_,_,habsolute⟩ | ⟨_,hparse⟩
  · cases habsolute
  rcases parseRelative_ok hparse with ⟨hinput,hr⟩ | ⟨hinput,hencoded,hr⟩
  · cases hr
    exact .verbatim hinput (hcomposed.split fun hnone => ⟨hinput,ha.trans hnone⟩)
  · cases hr
    change (Rfc3986.split (encodeRelative crates (Rfc3986.compose c))).authority = c.authority at ha
    change Reading crates c (Rfc3986.split (encodeRelative crates (Rfc3986.compose c)))
    have hnot : ¬Rfc3986.isRelativeRef (Rfc3986.compose c) := by simp [hinput]
    -- what is not taken from the `url` crate is encoded component by component
    have hpath : encodeRelative crates (Rfc3986.compose c) = encodePath crates (Rfc3986.compose c) →
        (c.authority ≠ none → ¬Borrows crates (Rfc3986.compose c)) →
          Reading crates c (Rfc3986.split (encodeRelative crates (Rfc3986.compose c))) := by
      intro hroute hrefused
      rw [encodePath_composed hiri hcomposed] at hroute
      refine .encoded hnot ?_ hrefused
      rw [hroute] at ha hencoded ⊢
      refine hcomposed.reencoded.split fun hnone => ⟨hencoded,ha.trans ?_⟩
      simpa [reencoded] using hnone
    by_cases hslashes : ∃ raw, Rfc3986.compose c = '/' :: '/' :: raw
    · obtain ⟨raw,hraw⟩ := hslashes
      have hany := mark_behind hmark hraw
      have hsome : c.authority ≠ none := by
        rw [← ha,hraw]
        exact encodeRelative_authority hany hiri
      by_cases hborrows : Borrows crates (Rfc3986.compose c)
      · rw [hraw] at hborrows
        obtain ⟨url,authority,hurl,hauthority,htext⟩ := encodeRelative_borrows hborrows hany
        have hquery := hurl.query
        have hfragment := hurl.fragment
        rw [← hraw,cleanInner_visible true hc.visible,hcomposed.reference] at hquery hfragment
        rw [hraw,htext,split_written_url hurl.valid hauthority]
        refine .borrowed hnot hurl.dots (hquery.trans ?_) (hfragment.trans ?_)
        · exact (map_percentEncode_self_iff _).mpr hc.query
        · exact (map_percentEncode_self_iff _).mpr hc.fragment
      · exact hpath (by rw [hraw] at hborrows ⊢; exact encodeRelative_refused hborrows raw rfl) fun _ => hborrows
    · refine hpath (encodeRelative_path fun raw hraw => hslashes ⟨raw,hraw⟩) fun hsome => ?_
      obtain ⟨authority,hauthority⟩ := Option.ne_none_iff_exists'.mp hsome
      exact absurd ⟨authority++(c.path++lead '?' c.query++lead '#' c.fragment),by
        simp [Rfc3986.compose,hc.scheme,hauthority]⟩ hslashes

end Routes

end UrlReference
end Rqx
