import Rqx.BorrowedBase

/-! When a reference with an empty path keeps the path of the base it is joined onto. -/
namespace Rqx
open Whatwg Split

namespace UrlReference

/-- What a reference with an empty path makes of its base: only the query, if it has one, and the
fragment are its own. -/
structure Inherits (base target : Rfc3986.Components) (other : Chars) : Prop where
  authority : target.authority = base.authority
  path : target.path = base.path
  query : ∀ q ∈ (Reference.split (clean other)).query, ∃ q' ∈ target.query, Kept q q'
  kept : (Reference.split (clean other)).query = none → target.query = base.query
  fragment : other ≠ [] → Option.Rel Kept (Reference.split (clean other)).fragment target.fragment

def KeepsPath (crates : UrlCrates)
    (joinUrl : { url : Url // url.Valid } → Chars → Except String { url : Url // url.Valid })
    (b : { text : Chars // Rfc3986.isRelativeRef text }) (other : Chars) : Prop :=
  ∃ r, join crates joinUrl (.Relative b) other = .ok (.Relative r) ∧
    Inherits (Rfc3986.split b.1) (Rfc3986.split r.1) other

/-- The base is the same with the path of a URL for its own. -/
structure Anchorable (base : Rfc3986.Components) (other : Chars) : Prop where
  dots : hasDotSegment base.path = false
  root : base.authority ≠ none → ∃ rest, base.path = '/' :: rest ∧ rest.head? ≠ some '/'
  quote : (Reference.split (clean other)).query = none → ∀ q ∈ base.query, Char.ofNat 39 ∉ q

/-- What the URL parser makes of the reference is of the grammar. -/
structure Readable (other : Chars) : Prop where
  query : ∀ q ∈ (Reference.split (clean other)).query,
    Rfc3986.isEncoded Rfc3986.isQueryChar (percentEncode specialQuerySet q)
  fragment : ∀ f ∈ (Reference.split (clean other)).fragment,
    Rfc3986.isEncoded Rfc3986.isQueryChar (percentEncode fragmentSet f)

/-- A text with no escapes, none of which is encoded. -/
def Untouched (set : Char → Bool) (text : Chars) : Prop :=
  hasEscape text = false ∧ ∀ c ∈ text, set c = false

/-- Both can be encoded once more. -/
structure Encodable (crates : UrlCrates) (base : Rfc3986.Components) (other : Chars) : Prop where
  authority : ∀ authority ∈ base.authority, (∀ c ∈ authority, Rfc3986.isPathChar c) ∧
    ¬Borrows crates ('/' :: '/' :: (authority++base.path))
  path : '%' ∉ base.path
  kept : (Reference.split (clean other)).query = none → ∀ q ∈ base.query, '%' ∉ q
  query : ∀ q ∈ (Reference.split (clean other)).query, Untouched specialQuerySet q
  fragment : ∀ f ∈ (Reference.split (clean other)).fragment, Untouched fragmentSet f

/-! ## The base's own path -/

section Paths

variable {crates : UrlCrates} {text other : Chars} {base c target : Rfc3986.Components}

theorem isPathChar_plain {d : Char} (h : Rfc3986.isPathChar d) : plain d ∨ d = '/' := by
  by_cases hslash : d = '/'
  · exact .inr hslash
  · have hback : d ≠ '\\' := by
      rintro rfl
      exact absurd h (by decide)
    exact .inl (plain_iff.mpr ⟨pathSet_isPathChar h,by simp [isSlash,hslash,hback]⟩)

/-- A path without dot segments comes back with one slash in front. -/
theorem anchoredPath_eq (hpath : Rfc3986.isEncoded Rfc3986.isPathChar base.path)
    (hdots : hasDotSegment base.path = false) :
    anchoredPath base = '/' :: base.path.dropWhile (· = '/') := by
  have hplain : ∀ d ∈ base.path.dropWhile (· = '/'), plain d ∨ d = '/' := fun d hd =>
    Rfc3986.isEncoded_mem (P := fun d => plain d ∨ d = '/') (fun _ => isPathChar_plain) (by decide)
      (fun _ hd => isPathChar_plain (isHexDigit_isPathChar hd)) hpath d ((List.dropWhile_sublist _).mem hd)
  rw [anchoredPath,parsePath_eq [] hplain (by rwa [BaseUrl.hasDotSegment_dropWhile]),List.nil_append,text_splitOn]

theorem dropWhile_slash_self {path : Chars} (h : path.head? ≠ some '/') :
    path.dropWhile (· = '/') = path := by
  cases path with
  | nil => rfl
  | cons d path => exact List.dropWhile_cons_of_neg (by simpa using h)

theorem merged_path_none (hrelative : Rfc3986.isRelativeRef text)
    (hdots : hasDotSegment (Rfc3986.split text).path = false)
    (ha : (Rfc3986.split text).authority = none) :
    (merged (Rfc3986.split text) other).path = (Rfc3986.split text).path := by
  have hpath := (Rfc3986.isRelativeRef_iff.mp hrelative).path
  have hsingle := fun rest => @Rfc3986.split_path_single text rest ha
  rw [merged,anchoredPath_eq hpath hdots]
  cases hcons : (Rfc3986.split text).path with
  | nil => simp [ha]
  | cons d path =>
    by_cases hd : d = '/'
    · subst hd
      have hhead : path.head? ≠ some '/' := by
        intro hhead
        obtain ⟨rest,rfl⟩ := List.head?_eq_some_iff.mp hhead
        exact hsingle rest hcons
      simp [dropWhile_slash_self hhead]
    · simp [ha,hd]

theorem merged_path_some (hrelative : Rfc3986.isRelativeRef text)
    (hdots : hasDotSegment (Rfc3986.split text).path = false)
    (ha : (Rfc3986.split text).authority ≠ none) :
    (merged (Rfc3986.split text) other).path = '/' :: (Rfc3986.split text).path.dropWhile (· = '/') := by
  rw [merged,if_pos (.inl ha),anchoredPath_eq (Rfc3986.isRelativeRef_iff.mp hrelative).path hdots]

theorem isEncoded_dropWhile {set : Char → Bool} {text : Chars} (h : Rfc3986.isEncoded set text) :
    Rfc3986.isEncoded set (text.dropWhile (· = '/')) := by
  induction text with
  | nil => exact h
  | cons c text ih =>
    by_cases hc : c = '/'
    · subst hc
      rw [List.dropWhile_cons_of_pos (by simp)]
      have hboth : set '/' ∧ Rfc3986.isEncoded set text := by simpa [Rfc3986.isEncoded] using h
      exact ih hboth.2
    · rwa [List.dropWhile_cons_of_neg (by simpa using hc)]

/-- The components that are put together are a reference if query and fragment are of the grammar. -/
theorem merged_isRelative (hrelative : Rfc3986.isRelativeRef text)
    (hdots : hasDotSegment (Rfc3986.split text).path = false)
    (hquery : ∀ q ∈ mergedQuery (Rfc3986.split text) other, Rfc3986.isEncoded Rfc3986.isQueryChar q)
    (hfragment : ∀ f ∈ mergedFragment other, Rfc3986.isEncoded Rfc3986.isQueryChar f) :
    (merged (Rfc3986.split text) other).IsRelative := by
  have hbase := Rfc3986.isRelativeRef_iff.mp hrelative
  refine ⟨rfl,hbase.authority,?_,?_,hquery,hfragment⟩
  · by_cases ha : (Rfc3986.split text).authority = none
    · rw [merged_path_none hrelative hdots ha]
      exact hbase.path
    · rw [merged_path_some hrelative hdots ha]
      have hslash : Rfc3986.isEncoded Rfc3986.isPathChar ['/'] := by decide
      exact Form.isEncoded_append (by decide) hslash (isEncoded_dropWhile hbase.path)
  · intro ha
    rw [merged_path_none hrelative hdots ha]
    exact hbase.colon ha

end Paths

/-! ## Encoding twice -/

section Twice

variable {set set' : Char → Bool} {text : Chars}

/-- What is encoded twice means the same only if it is left alone. -/
theorem kept_twice_iff (hpercent : set' '%') :
    Kept text (percentEncode set' (percentEncode set text)) ↔ Untouched set text := by
  constructor
  · intro h
    have hdecode := h.decode
    rw [percentDecode_percentEncode hpercent] at hdecode
    have hlossy : Utf8.lossy none (percentDecode text) = percentEncode set text := by
      rw [← hdecode,Utf8.lossy_text]
    -- decoding makes a text no longer, encoding no shorter
    have hlength := lossy_length text Utf8.sound_none
    rw [hlossy,Utf8.flush_none,List.length_nil] at hlength
    have hset := @percentEncode_no_longer set text (by omega)
    rw [percentEncode_id hset] at hlossy
    exact ⟨(lossy_eq_iff text).mp hlossy,hset⟩
  · rintro ⟨hescape,hset⟩
    rw [percentEncode_id hset]
    exact .plain hescape set'

end Twice

/-! ## Whether the authority is taken -/

section Accepted

variable {hosts : HostParser} {crates : UrlCrates} {scheme front authority : Chars} {c : Rfc3986.Components}

theorem fromAuthority_isOk (text : Chars) : (∃ url, hosts.fromAuthority scheme text = .ok url) ↔
    ∃ authority, hosts.authority scheme
      ((Reference.split text).body.takeWhile (!isSlashOf scheme ·)) = .ok authority := by
  constructor
  · rintro ⟨url,hurl⟩
    obtain ⟨authority,hauthority,_⟩ := HostParser.fromAuthority_ok hurl
    exact ⟨authority,hauthority⟩
  · rintro ⟨authority,hauthority⟩
    simp only [HostParser.fromAuthority,hauthority]
    exact ⟨_,rfl⟩

theorem parseUrl_isOk (hscheme : IsScheme scheme) (hspecial : isSpecialNotFile scheme)
    (hfront : ∀ d ∈ front, d ≠ '?' ∧ d ≠ '#') {query fragment : Option Chars} (hquery : ∀ q ∈ query, '#' ∉ q)
    (hvisible : ∀ d ∈ front++lead '?' query++lead '#' fragment, 32 < d.toNat) :
    (∃ url, hosts.parseUrl (scheme++ ':' :: (front++lead '?' query++lead '#' fragment)) = .ok url) ↔
      ∃ authority, hosts.authority scheme
        ((front.dropWhile isSlash).takeWhile (!isSlashOf scheme ·)) = .ok authority := by
  have hslashes : ∀ d ∈ front.dropWhile isSlash, d ≠ '?' ∧ d ≠ '#' := fun d hd =>
    hfront d ((List.dropWhile_sublist _).mem hd)
  have hdrop : (front++lead '?' query++lead '#' fragment).dropWhile isSlash =
      front.dropWhile isSlash++lead '?' query++lead '#' fragment := by
    rw [List.append_assoc,dropWhile_tail (by decide) (by decide),List.append_assoc]
  rw [parseUrl_fromAuthority hscheme hspecial,cleanInner_visible true hvisible,hdrop]
  have hok := @fromAuthority_isOk hosts scheme (front.dropWhile isSlash++lead '?' query++lead '#' fragment)
  rw [Reference.split_lead hslashes hquery] at hok
  rw [← hok]
  cases hosts.fromAuthority scheme (front.dropWhile isSlash++lead '?' query++lead '#' fragment) <;>
    simp [Except.mapError]

/-- Whether a text is borrowed is up to what stands before its query. -/
theorem borrows_compose (hc : IsParsed c) :
    Borrows crates (Rfc3986.compose c) ↔ Borrows crates (slashes c.authority++c.path) := by
  have hreference := hc.composed.reference
  have htext := Reference.split_text (Rfc3986.compose c)
  have hbody : ∀ d ∈ slashes c.authority++c.path, d ≠ '?' ∧ d ≠ '#' := by
    have hmem := body_mem (Rfc3986.compose c)
    rwa [hreference] at hmem
  have hvisible := hc.visible
  rw [hreference] at htext
  rw [← htext] at hvisible
  have hfront : ∀ d ∈ slashes c.authority++c.path++lead '?' none++lead '#' none, 32 < d.toNat := by
    intro d hd
    refine hvisible d ?_
    simp only [lead_none,List.append_nil] at hd
    exact List.mem_append_left _ (List.mem_append_left _ hd)
  have hsame : ∀ scheme, IsScheme scheme → isSpecialNotFile scheme →
      ((∃ url, crates.hosts.parseUrl (scheme++ ':' :: Rfc3986.compose c) = .ok url) ↔
        ∃ url, crates.hosts.parseUrl (scheme++ ':' :: (slashes c.authority++c.path)) = .ok url) := by
    intro scheme hscheme hspecial
    have hwith := @parseUrl_isOk crates.hosts _ _ hscheme hspecial hbody _ _ hc.composed.query hvisible
    have hwithout := @parseUrl_isOk crates.hosts _ _ hscheme hspecial hbody none none (by simp) hfront
    simp only [lead_none,List.append_nil] at hwithout
    rw [← htext,hwith,hwithout]
  exact and_congr (hsame ftp ftp_scheme (by decide)) (hsame ws ws_scheme (by decide))

end Accepted

/-! ## What the result inherits -/

section Inherited

variable {crates : UrlCrates} {text other q : Chars} {base target : Rfc3986.Components}

theorem mergedQuery_none (h : (Reference.split (clean other)).query = none) :
    mergedQuery base other = base.query.map (percentEncode specialQuerySet) := by
  rw [mergedQuery,h]
  rfl

theorem mergedQuery_some (h : q ∈ (Reference.split (clean other)).query) :
    mergedQuery base other = some (percentEncode specialQuerySet q) := by
  rw [mergedQuery,Option.mem_def.mp h]
  rfl

theorem isEncoded_percent {set : Char → Bool} (hpercent : set '%' = false)
    (hhex : ∀ c, Rfc3986.isHexDigit c → set c) (h : Rfc3986.isEncoded set text) :
    (∀ c ∈ text, (!set c) = false) ↔ '%' ∉ text := by
  constructor
  · intro hall hmem
    have hc := hall '%' hmem
    rw [hpercent] at hc
    cases hc
  · intro hnot c hc
    have hset : c ≠ '%' → set c := Rfc3986.isEncoded_mem (P := fun c => c ≠ '%' → set c)
      (fun _ hc _ => hc) (by simp) (fun c hc _ => hhex c hc) h c hc
    have hne : c ≠ '%' := by
      rintro rfl
      exact hnot hc
    simp [hset hne]

/-- Of what the grammar takes in a query only the quote is encoded. -/
theorem isQueryChar_quote {c : Char} (h : Rfc3986.isQueryChar c) (hne : c ≠ Char.ofNat 39) :
    specialQuerySet c = false := by
  have hall : ∀ n < 128, Rfc3986.isQueryChar (Char.ofNat n) → Char.ofNat n ≠ Char.ofNat 39 →
      specialQuerySet (Char.ofNat n) = false := by decide +kernel
  have hsmall : c.toNat < 128 := by
    rcases Bool.or_eq_true_iff.mp h with hpath | hmark
    · exact isPathChar_small hpath
    · obtain rfl : c = '?' := by simpa using hmark
      decide
  have hc := hall c.toNat hsmall
  rw [Char.ofNat_toNat] at hc
  exact hc h hne

theorem isHexDigit_isQueryChar {c : Char} (h : Rfc3986.isHexDigit c) : Rfc3986.isQueryChar c := by
  simp [Rfc3986.isQueryChar,isHexDigit_isPathChar h]

theorem isEncoded_quote (h : Rfc3986.isEncoded Rfc3986.isQueryChar q) :
    (∀ c ∈ q, specialQuerySet c = false) ↔ Char.ofNat 39 ∉ q := by
  constructor
  · intro hall hmem
    exact absurd (hall _ hmem) (by decide)
  · intro hnot c hc
    have hset : c ≠ Char.ofNat 39 → specialQuerySet c = false :=
      Rfc3986.isEncoded_mem (P := fun c => c ≠ Char.ofNat 39 → specialQuerySet c = false)
        (fun _ => isQueryChar_quote) (by decide) (fun c hc => isQueryChar_quote (isHexDigit_isQueryChar hc)) h c hc
    refine hset ?_
    rintro rfl
    exact hnot hc

theorem root_of_dropWhile {path : Chars} (h : path = '/' :: path.dropWhile (· = '/')) :
    ∃ rest, path = '/' :: rest ∧ rest.head? ≠ some '/' :=
  ⟨_,h,BaseUrl.head?_dropWhile_slash path⟩

theorem root_of_percentEncode {set : Char → Bool} {path : Chars}
    (h : '/' :: percentEncode set (path.dropWhile (· = '/')) = path) :
    path = '/' :: path.dropWhile (· = '/') := by
  have hhead : (percentEncode set (path.dropWhile (· = '/'))).head? ≠ some '/' := by
    intro hhead
    obtain ⟨rest,hrest⟩ := List.head?_eq_some_iff.mp hhead
    obtain ⟨raw,hraw,_⟩ := percentEncode_head_raw (by decide) hrest
    exact BaseUrl.head?_dropWhile_slash path (by rw [hraw]; rfl)
  have hdrop : path.dropWhile (· = '/') = percentEncode set (path.dropWhile (· = '/')) := by
    conv_lhs => rw [← h]
    rw [List.dropWhile_cons_of_pos (by simp),dropWhile_slash_self hhead]
  exact (h.symm).trans (by rw [← hdrop])

theorem query_twice {set set' : Char → Bool} (h : percentEncode set' (percentEncode set q) = q) :
    (∀ c ∈ q, set c = false) ∧ ∀ c ∈ q, set' c = false := by
  have hlength := percentEncode_length set' (percentEncode set q)
  rw [h] at hlength
  have hset := percentEncode_no_longer hlength
  rw [percentEncode_id hset] at h
  exact ⟨hset,(percentEncode_self_iff q).mp h⟩

theorem Reading.dots {c : Rfc3986.Components} (hc : IsParsed c) (h : Reading crates c target) :
    hasDotSegment target.path = false := by
  cases h with
  | verbatim _ htarget =>
    rw [htarget]
    exact hc.dots
  | encoded _ htarget _ =>
    rw [htarget]
    exact hasDotSegment_percentEncode (by decide) (by decide) hc.dots
  | borrowed _ hdots _ _ => exact hdots

theorem Inherits.verbatim (hrelative : Rfc3986.isRelativeRef text)
    (htarget : (merged (Rfc3986.split text) other).IsRelative)
    (h : Inherits (Rfc3986.split text) (merged (Rfc3986.split text) other) other)
    (hdots : hasDotSegment (Rfc3986.split text).path = false) :
    Anchorable (Rfc3986.split text) other ∧ Readable other := by
  have hbase := Rfc3986.isRelativeRef_iff.mp hrelative
  refine ⟨⟨hdots,fun ha => ?_,fun hnone q hq => ?_⟩,⟨fun q hq => ?_,fun f hf => ?_⟩⟩
  · refine root_of_dropWhile ?_
    rw [← merged_path_some hrelative hdots ha]
    exact h.path.symm
  · have hkept := h.kept hnone
    simp only [merged,mergedQuery_none hnone] at hkept
    exact (isEncoded_quote (hbase.query q hq)).mp ((map_percentEncode_self_iff _).mp hkept q hq)
  · exact htarget.query _ (mergedQuery_some hq)
  · exact htarget.fragment _ (Option.map_eq_some_iff.mpr ⟨f,hf,rfl⟩)

theorem Inherits.encoded (hrelative : Rfc3986.isRelativeRef text) (hne : other ≠ [])
    (hrefused : (merged (Rfc3986.split text) other).authority ≠ none →
      ¬Borrows crates (Rfc3986.compose (merged (Rfc3986.split text) other)))
    (h : Inherits (Rfc3986.split text) (reencoded (merged (Rfc3986.split text) other)) other)
    (hdots : hasDotSegment (Rfc3986.split text).path = false) :
    Anchorable (Rfc3986.split text) other ∧ Encodable crates (Rfc3986.split text) other := by
  have hbase := Rfc3986.isRelativeRef_iff.mp hrelative
  have hpercent : (!Rfc3986.isQueryChar '%') = true := by decide
  have hencoded : percentEncode (!Rfc3986.isPathChar ·) (merged (Rfc3986.split text) other).path =
      (Rfc3986.split text).path := h.path
  have hroot : (Rfc3986.split text).authority ≠ none →
      (Rfc3986.split text).path = '/' :: (Rfc3986.split text).path.dropWhile (· = '/') := by
    intro ha
    rw [merged_path_some hrelative hdots ha,percentEncode_raw (by decide)] at hencoded
    exact root_of_percentEncode hencoded
  have hpath : (merged (Rfc3986.split text) other).path = (Rfc3986.split text).path := by
    by_cases ha : (Rfc3986.split text).authority = none
    · exact merged_path_none hrelative hdots ha
    · rw [merged_path_some hrelative hdots ha,← hroot ha]
  have htwice : (Reference.split (clean other)).query = none → ∀ q ∈ (Rfc3986.split text).query,
      Char.ofNat 39 ∉ q ∧ '%' ∉ q := by
    intro hnone q hq
    have hkept := h.kept hnone
    simp only [reencoded,merged,mergedQuery_none hnone,Option.mem_def.mp hq,Option.map_some,
      Option.some.injEq] at hkept
    obtain ⟨hquote,hraw⟩ := query_twice hkept
    exact ⟨(isEncoded_quote (hbase.query q hq)).mp hquote,
      (isEncoded_percent (by decide) (fun _ => isHexDigit_isQueryChar) (hbase.query q hq)).mp hraw⟩
  refine ⟨⟨hdots,fun ha => root_of_dropWhile (hroot ha),fun hnone q hq => (htwice hnone q hq).1⟩,
    ⟨fun authority ha => ⟨?_,?_⟩,?_,fun hnone q hq => (htwice hnone q hq).2,fun q hq => ?_,?_⟩⟩
  · have hauthority := (map_percentEncode_self_iff _).mp h.authority authority ha
    exact fun c hc => by simpa using hauthority c hc
  · have hrefused := hrefused (by simp [merged,Option.mem_def.mp ha])
    rw [borrows_compose (merged_isParsed hrelative other),hpath] at hrefused
    simpa only [merged,Option.mem_def.mp ha,slashes,Option.elim_some,List.cons_append] using hrefused
  · rw [hpath] at hencoded
    exact (isEncoded_percent (by decide) (fun _ => isHexDigit_isPathChar) hbase.path).mp
      ((percentEncode_self_iff _).mp hencoded)
  · obtain ⟨q',hq',hkept⟩ := h.query q hq
    simp only [reencoded,merged,mergedQuery_some hq,Option.map_some,Option.mem_def,
      Option.some.injEq] at hq'
    rw [← hq'] at hkept
    exact (kept_twice_iff hpercent).mp hkept
  · intro f hf
    have hfragment := h.fragment hne
    simp only [reencoded,merged,mergedFragment,Option.mem_def.mp hf,Option.map_some] at hfragment
    cases hfragment with
    | some hkept => exact (kept_twice_iff hpercent).mp hkept

theorem Inherits.conditions (hrelative : Rfc3986.isRelativeRef text) (hne : other ≠ [])
    (hread : Reading crates (merged (Rfc3986.split text) other) target) (htarget : target.IsRelative)
    (h : Inherits (Rfc3986.split text) target other) : Anchorable (Rfc3986.split text) other ∧
      (Readable other ∨ Encodable crates (Rfc3986.split text) other) := by
  have hdots := hread.dots (merged_isParsed hrelative other)
  rw [h.path] at hdots
  cases hread with
  | verbatim _ hsame =>
    subst hsame
    exact (h.verbatim hrelative htarget hdots).imp_right .inl
  | encoded _ hsame hrefused =>
    subst hsame
    exact (h.encoded hrelative hne hrefused hdots).imp_right .inr
  | borrowed hnot _ hquery hfragment =>
    -- query and fragment are of the grammar, and so was the text
    have hmerged : (merged (Rfc3986.split text) other).IsRelative := by
      refine merged_isRelative hrelative hdots ?_ ?_
      · rw [show mergedQuery (Rfc3986.split text) other = target.query from hquery.symm]
        exact htarget.query
      · rw [show mergedFragment other = target.fragment from hfragment.symm]
        exact htarget.fragment
    refine absurd (hmerged.compose (fun ha => .inr ((merged_isParsed hrelative other).root ha)) ?_).2 hnot
    intro ha rest
    rw [merged_path_none hrelative hdots ha]
    exact Rfc3986.split_path_single ha

/-! ## What it takes to inherit -/

theorem merged_path (hrelative : Rfc3986.isRelativeRef text) (h : Anchorable (Rfc3986.split text) other) :
    (merged (Rfc3986.split text) other).path = (Rfc3986.split text).path := by
  by_cases ha : (Rfc3986.split text).authority = none
  · exact merged_path_none hrelative h.dots ha
  · obtain ⟨rest,hpath,hrest⟩ := h.root ha
    rw [merged_path_some hrelative h.dots ha,hpath,List.dropWhile_cons_of_pos (by simp),
      dropWhile_slash_self hrest]

/-- The components that are put together are read off the text again. -/
theorem split_merged (hrelative : Rfc3986.isRelativeRef text) (h : Anchorable (Rfc3986.split text) other) :
    Rfc3986.split (Rfc3986.compose (merged (Rfc3986.split text) other)) =
      merged (Rfc3986.split text) other := by
  have hbase := Rfc3986.isRelativeRef_iff.mp hrelative
  have hcomposed := (merged_isParsed hrelative other).composed
  have hpath := merged_path hrelative h
  have hmem := hcomposed.path
  cases ha : (Rfc3986.split text).authority with
  | some authority => exact hcomposed.split fun hnone => by simp [merged,ha] at hnone
  | none =>
    have hmerged : merged (Rfc3986.split text) other =
        ⟨none,none,(Rfc3986.split text).path,mergedQuery (Rfc3986.split text) other,mergedFragment other⟩ := by
      rw [← hpath]
      simp [merged,ha]
    rw [hpath] at hmem
    rw [hmerged]
    exact Rfc3986.split_compose_path hmem hcomposed.query (fun rest => Rfc3986.split_path_single ha)
      (hbase.colon ha)

theorem kept_query (q : Chars) : Kept q (percentEncode specialQuerySet q) :=
  kept_encoding (by decide) (fun _ hc => (isHexDigit_stays hc).2.1) q

theorem kept_fragment (f : Chars) : Kept f (percentEncode fragmentSet f) :=
  kept_encoding (by decide) (fun _ hc => (isHexDigit_stays hc).2.2) f

theorem Anchorable.kept (hrelative : Rfc3986.isRelativeRef text) (h : Anchorable (Rfc3986.split text) other)
    (hnone : (Reference.split (clean other)).query = none) :
    mergedQuery (Rfc3986.split text) other = (Rfc3986.split text).query := by
  rw [mergedQuery_none hnone,map_percentEncode_self_iff]
  exact fun q hq => (isEncoded_quote ((Rfc3986.isRelativeRef_iff.mp hrelative).query q hq)).mpr
    (h.quote hnone q hq)

theorem Anchorable.inherits (hrelative : Rfc3986.isRelativeRef text)
    (h : Anchorable (Rfc3986.split text) other) :
    Inherits (Rfc3986.split text) (merged (Rfc3986.split text) other) other := by
  refine ⟨rfl,merged_path hrelative h,fun q hq => ?_,h.kept hrelative,fun _ => ?_⟩
  · exact ⟨_,mergedQuery_some hq,kept_query q⟩
  · simp only [merged,mergedFragment]
    cases (Reference.split (clean other)).fragment with
    | none => exact .none
    | some f => exact .some (kept_fragment f)

theorem Readable.isRelative (hrelative : Rfc3986.isRelativeRef text)
    (h : Anchorable (Rfc3986.split text) other) (hread : Readable other) :
    (merged (Rfc3986.split text) other).IsRelative := by
  refine merged_isRelative hrelative h.dots ?_ ?_
  · cases hquery : (Reference.split (clean other)).query with
    | none =>
      rw [h.kept hrelative hquery]
      exact (Rfc3986.isRelativeRef_iff.mp hrelative).query
    | some q =>
      rw [mergedQuery_some hquery]
      rintro _ ⟨⟩
      exact hread.query q hquery
  · intro f hf
    obtain ⟨raw,hraw,rfl⟩ := Option.map_eq_some_iff.mp hf
    exact hread.fragment raw hraw

/-- Authority and path stay as they are when they are encoded once more. -/
theorem Encodable.front (hrelative : Rfc3986.isRelativeRef text)
    (h : Anchorable (Rfc3986.split text) other) (hencodable : Encodable crates (Rfc3986.split text) other) :
    (reencoded (merged (Rfc3986.split text) other)).authority = (Rfc3986.split text).authority ∧
      (reencoded (merged (Rfc3986.split text) other)).path = (Rfc3986.split text).path := by
  constructor
  · refine (map_percentEncode_self_iff _).mpr fun authority ha c hc => ?_
    simp [(hencodable.authority authority ha).1 c hc]
  · have hpath := (Rfc3986.isRelativeRef_iff.mp hrelative).path
    rw [reencoded,merged_path hrelative h]
    exact (percentEncode_self_iff _).mpr
      ((isEncoded_percent (by decide) (fun _ => isHexDigit_isPathChar) hpath).mpr hencodable.path)

theorem Encodable.inherits (hrelative : Rfc3986.isRelativeRef text)
    (h : Anchorable (Rfc3986.split text) other) (hencodable : Encodable crates (Rfc3986.split text) other) :
    Inherits (Rfc3986.split text) (reencoded (merged (Rfc3986.split text) other)) other := by
  have hpercent : (!Rfc3986.isQueryChar '%') = true := by decide
  obtain ⟨hauthority,hpath⟩ := hencodable.front hrelative h
  refine ⟨hauthority,hpath,fun q hq => ?_,fun hnone => ?_,fun _ => ?_⟩
  · refine ⟨percentEncode (!Rfc3986.isQueryChar ·) (percentEncode specialQuerySet q),?_,
      (kept_twice_iff hpercent).mpr (hencodable.query q hq)⟩
    simp [reencoded,merged,mergedQuery_some hq]
  · have hkept := h.kept hrelative hnone
    simp only [reencoded,merged,hkept]
    refine (map_percentEncode_self_iff _).mpr fun q hq => ?_
    exact (isEncoded_percent (by decide) (fun _ => isHexDigit_isQueryChar)
      ((Rfc3986.isRelativeRef_iff.mp hrelative).query q hq)).mpr (hencodable.kept hnone q hq)
  · have hfragment := hencodable.fragment
    simp only [reencoded,merged,mergedFragment]
    cases hf : (Reference.split (clean other)).fragment with
    | none => exact .none
    | some f => exact .some ((kept_twice_iff hpercent).mpr (hfragment f hf))

/-- Encoded once more the text is a reference with these components. -/
theorem Encodable.split (hrelative : Rfc3986.isRelativeRef text)
    (h : Anchorable (Rfc3986.split text) other) (hencodable : Encodable crates (Rfc3986.split text) other) :
    Rfc3986.split (Rfc3986.compose (reencoded (merged (Rfc3986.split text) other))) =
      reencoded (merged (Rfc3986.split text) other) ∧
    Rfc3986.isRelativeRef (Rfc3986.compose (reencoded (merged (Rfc3986.split text) other))) := by
  have hbase := Rfc3986.isRelativeRef_iff.mp hrelative
  obtain ⟨hauthority,hpath⟩ := hencodable.front hrelative h
  have htarget : (reencoded (merged (Rfc3986.split text) other)).IsRelative := by
    refine ⟨rfl,?_,?_,?_,isEncoded_map _,isEncoded_map _⟩
    · rw [hauthority]
      exact hbase.authority
    · rw [hpath]
      exact hbase.path
    · rw [hauthority,hpath]
      exact hbase.colon
  refine htarget.compose (fun ha => ?_) fun ha => ?_
  · rw [hauthority] at ha
    obtain ⟨rest,hrest,_⟩ := h.root ha
    exact .inr ⟨rest,hpath.trans hrest⟩
  · rw [hauthority] at ha
    rw [hpath]
    exact fun rest => Rfc3986.split_path_single ha

/-- A text that is no reference is encoded, if its authority is refused. -/
theorem encodeRelative_merged (hiri : IsIri crates) (hrelative : Rfc3986.isRelativeRef text)
    (h : Anchorable (Rfc3986.split text) other) (hencodable : Encodable crates (Rfc3986.split text) other) :
    encodeRelative crates (Rfc3986.compose (merged (Rfc3986.split text) other)) =
      Rfc3986.compose (reencoded (merged (Rfc3986.split text) other)) := by
  have hparsed := merged_isParsed hrelative other
  have hsplit := split_merged hrelative h
  rw [← encodePath_composed hiri hparsed.composed]
  by_cases hslashes : ∃ raw, Rfc3986.compose (merged (Rfc3986.split text) other) = '/' :: '/' :: raw
  · obtain ⟨raw,hraw⟩ := hslashes
    refine encodeRelative_refused ?_ raw hraw
    have hsome : (merged (Rfc3986.split text) other).authority ≠ none := by
      rw [← hsplit,hraw,split_slashes]
      simp
    obtain ⟨authority,ha⟩ := Option.ne_none_iff_exists'.mp hsome
    have hrefused := (hencodable.authority authority ha).2
    rw [borrows_compose hparsed,merged_path hrelative h,ha]
    simpa only [slashes,Option.elim_some,List.cons_append] using hrefused
  · exact encodeRelative_path fun raw hraw => hslashes ⟨raw,hraw⟩

end Inherited

/-! ## Joining -/

section Joining

variable {crates : UrlCrates} {other : Chars}

/-- A join of a reference with an empty path parses what is put together. -/
theorem join_mark (hanchor : crates.hosts.parse true anchorHost = .ok anchorHost)
    (joinUrl : { url : Url // url.Valid } → Chars → Except String { url : Url // url.Valid })
    (b : { text : Chars // Rfc3986.isRelativeRef text })
    (h : other.head? = some '?' ∨ other.head? = some '#') :
    join crates joinUrl (.Relative b) other =
      parse crates (Rfc3986.compose (merged (Rfc3986.split b.1) other)) := by
  have hne : other ≠ [] := by
    rintro rfl
    simp at h
  have hurl : crates.hosts.parseUrl other = .error .RelativeUrlWithoutBase := by
    rw [HostParser.parseUrl,(split_mark h).1]
  have hslashes : ['/','/'].isPrefixOf other = false := by
    rcases h with h | h
    all_goals
      obtain ⟨rest,rfl⟩ := List.head?_eq_some_iff.mp h
      rfl
  have hdirect : ((crates.hosts.parseUrl other).isOk || ['/','/'].isPrefixOf other) = false := by
    rw [hurl,hslashes]
    rfl
  simp only [join,if_neg hne,joinRelative,hdirect,Bool.false_eq_true,if_false,
    resolveAnchored_mark hanchor b.2 h,rebuilt_mark h]

/-- A reference with an empty path that has neither query nor fragment is empty. -/
theorem merged_mark (base : Rfc3986.Components) (h : other.head? = some '?' ∨ other.head? = some '#') :
    (merged base other).query ≠ none ∨ (merged base other).fragment ≠ none := by
  have hsome : (Reference.split (clean other)).query ≠ none ∨
      (Reference.split (clean other)).fragment ≠ none := by
    rcases h with h | h
    · obtain ⟨rest,hrest⟩ := clean_mark (by decide) h
      left
      rw [hrest]
      simp [Reference.split,splitFirst]
    · obtain ⟨rest,hrest⟩ := clean_mark (by decide) h
      right
      rw [hrest]
      simp [Reference.split,splitFirst]
  rcases hsome with hquery | hfragment
  · obtain ⟨q,hq⟩ := Option.ne_none_iff_exists'.mp hquery
    left
    rw [merged,mergedQuery_some hq]
    simp
  · obtain ⟨f,hf⟩ := Option.ne_none_iff_exists'.mp hfragment
    right
    rw [merged,mergedFragment,hf]
    simp

theorem keepsPath_of_conditions (hiri : IsIri crates) (hanchor : crates.hosts.parse true anchorHost = .ok anchorHost)
    (joinUrl : { url : Url // url.Valid } → Chars → Except String { url : Url // url.Valid })
    (b : { text : Chars // Rfc3986.isRelativeRef text })
    (ho : other.head? = some '?' ∨ other.head? = some '#') (h : Anchorable (Rfc3986.split b.1) other)
    (hwritten : Readable other ∨ Encodable crates (Rfc3986.split b.1) other) :
    KeepsPath crates joinUrl b other := by
  have hparsed := merged_isParsed b.2 other
  have hsplit := split_merged b.2 h
  have hscheme : splitScheme (clean (Rfc3986.compose (merged (Rfc3986.split b.1) other))) = none := by
    refine splitScheme_split hparsed.visible ?_
    rw [hsplit]
    rfl
  have hparse := parse_schemeless crates hscheme
  rw [parseRelative] at hparse
  by_cases hread : Rfc3986.isRelativeRef (Rfc3986.compose (merged (Rfc3986.split b.1) other))
  · rw [dif_pos hread] at hparse
    refine ⟨⟨_,hread⟩,(join_mark hanchor joinUrl b ho).trans hparse,?_⟩
    rw [hsplit]
    exact h.inherits b.2
  · have hencodable : Encodable crates (Rfc3986.split b.1) other := by
      refine hwritten.resolve_left fun hreadable => hread ?_
      rw [Rfc3986.isRelativeRef_iff,hsplit]
      exact hreadable.isRelative b.2 h
    obtain ⟨htarget,hencoded⟩ := hencodable.split b.2 h
    have hroute := encodeRelative_merged hiri b.2 h hencodable
    simp only [dif_neg hread,hroute,dif_pos hencoded] at hparse
    refine ⟨⟨_,hencoded⟩,(join_mark hanchor joinUrl b ho).trans hparse,?_⟩
    rw [htarget]
    exact hencodable.inherits b.2 h

theorem conditions_of_keepsPath (hiri : IsIri crates) (hanchor : crates.hosts.parse true anchorHost = .ok anchorHost)
    (joinUrl : { url : Url // url.Valid } → Chars → Except String { url : Url // url.Valid })
    (b : { text : Chars // Rfc3986.isRelativeRef text })
    (ho : other.head? = some '?' ∨ other.head? = some '#') (h : KeepsPath crates joinUrl b other) :
    Anchorable (Rfc3986.split b.1) other ∧ (Readable other ∨ Encodable crates (Rfc3986.split b.1) other) := by
  obtain ⟨r,hjoin,hinherits⟩ := h
  have hne : other ≠ [] := by
    rintro rfl
    simp at ho
  rw [join_mark hanchor joinUrl b ho] at hjoin
  have hread := parse_reading hiri (merged_isParsed b.2 other) (merged_mark _ ho) hjoin hinherits.authority
  exact hinherits.conditions b.2 hne hread (Rfc3986.isRelativeRef_iff.mp r.2)

/-- A reference with an empty path keeps the base's path if and only if it is empty, or the borrowed URL
leaves the base as it is and what the join puts together is read as it is written. -/
theorem join_empty_path (crates : UrlCrates) (hiri : IsIri crates)
    (hanchor : crates.hosts.parse true anchorHost = .ok anchorHost)
    (joinUrl : { url : Url // url.Valid } → Chars → Except String { url : Url // url.Valid })
    (b : { text : Chars // Rfc3986.isRelativeRef text }) (o : Chars)
    (ho : o = [] ∨ o.head? = some '?' ∨ o.head? = some '#') :
    KeepsPath crates joinUrl b o ↔ o = [] ∨ Anchorable (Rfc3986.split b.1) o ∧
      (Readable o ∨ Encodable crates (Rfc3986.split b.1) o) := by
  by_cases hempty : o = []
  · subst hempty
    have hclean : Reference.split (clean []) = ⟨[],none,none⟩ := rfl
    refine iff_of_true ⟨b,rfl,rfl,rfl,?_,fun _ => rfl,fun hne => absurd rfl hne⟩ (.inl rfl)
    simp [hclean]
  · have ho := ho.resolve_left hempty
    simp only [hempty,false_or]
    exact ⟨conditions_of_keepsPath hiri hanchor joinUrl b ho,
      fun h => keepsPath_of_conditions hiri hanchor joinUrl b ho h.1 h.2⟩

/-- `/a//b?x` joined with `#f` is `/a//b?x#f`. -/
theorem join_empty_path_fragment : KeepsPath iriCrates noJoin
    ⟨['/','a','/','/','b','?','x'],by decide⟩ ['#','f'] :=
  (join_empty_path iriCrates isIri_iriCrates (by decide) noJoin _ _ (.inr (.inr rfl))).mpr
    (.inr ⟨⟨by decide,fun hne => absurd rfl hne,by decide⟩,.inl ⟨by decide,by decide⟩⟩)

/-- `a/../b` joined with `?x` is `b?x`. -/
theorem join_drops_dots : ¬ ∀ (crates : UrlCrates)
    (joinUrl : { url : Url // url.Valid } → Chars → Except String { url : Url // url.Valid })
    (b : { text : Chars // Rfc3986.isRelativeRef text }) (o : Chars), IsIri crates →
    crates.hosts.parse true anchorHost = .ok anchorHost →
      (o = [] ∨ o.head? = some '?' ∨ o.head? = some '#') → KeepsPath crates joinUrl b o := by
  intro h
  obtain ⟨r,hr,hinherits⟩ := h iriCrates noJoin ⟨['a','/','.','.','/','b'],by decide⟩ ['?','x']
    isIri_iriCrates (by decide) (.inr (.inl rfl))
  have hjoin : join iriCrates noJoin (.Relative ⟨['a','/','.','.','/','b'],by decide⟩) ['?','x'] =
      .ok (.Relative ⟨['b','?','x'],by decide⟩) := rfl
  rw [hjoin] at hr
  cases hr
  exact absurd hinherits.path (by decide)

end Joining

end UrlReference
end Rqx
