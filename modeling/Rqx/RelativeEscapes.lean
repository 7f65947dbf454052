import Rqx.CopyWith
import Rqx.PercentDecoding

/-! Escapes in a reference without a scheme: which of them mean what they meant, once it is parsed. -/
namespace Rqx
open Whatwg Split

namespace UrlReference

/-- `percent_decode_str` and `decode_utf8_lossy` on the path, or on the root. -/
def path (url : UrlReference) : Chars := Utf8.lossy none (percentDecode url.encodedPathOrRoot)

/-- What is written in a text is what is read off the URL. -/
structure KeepsMeaning (text : Chars) (url : UrlReference) : Prop where
  path : url.path = if (Reference.split text).body = [] then ['/']
    else Utf8.lossy none (percentDecode (Reference.split text).body)
  query : Kept ((Reference.split text).query.getD []) url.query
  fragment : Kept ((Reference.split text).fragment.getD []) url.fragment

section Encode

variable {crates : UrlCrates} {text : Chars} {set setQuery setFragment : Char → Bool}

theorem encodeRelative_path (h : ∀ rest, text ≠ '/' :: '/' :: rest) :
    encodeRelative crates text = encodePath crates text := by
  unfold encodeRelative
  split
  · exact absurd rfl (h _)
  · rfl

/-- The components of an encoded text are those of the text, encoded. -/
theorem split_encodeParts (set setQuery setFragment : Char → Bool) (text : Chars) :
    Reference.split (encodeParts set setQuery setFragment text) =
      ⟨percentEncode set (Reference.split text).body,
        (Reference.split text).query.map (percentEncode setQuery),
        (Reference.split text).fragment.map (percentEncode setFragment)⟩ := by
  refine Reference.split_lead (percentEncode_mem (by decide) (by decide) fun c hc _ => body_mem text c hc) ?_
  exact map_percentEncode_hash (Reference.query_mem text)

end Encode

/-! ## References without an authority -/

section Rootless

variable {text : Chars}

theorem authority_none (h : ∀ rest, (Reference.split text).body ≠ '/' :: '/' :: rest)
    (hscheme : (Rfc3986.split text).scheme = none) :
    Rfc3986.split text = ⟨none,none,(Reference.split text).body,(Reference.split text).query,
      (Reference.split text).fragment⟩ := by
  have hbody : Rfc3986.splitScheme (Reference.split text).body = (none,(Reference.split text).body) := by
    have happend := Rfc3986.splitScheme_append (Reference.split text).body
    have hnone : (Rfc3986.splitScheme (Reference.split text).body).1 = none := hscheme
    rw [hnone] at happend
    exact Prod.ext hnone happend
  have hauthority : Rfc3986.splitAuthority (Reference.split text).body =
      (none,(Reference.split text).body) := by
    unfold Rfc3986.splitAuthority
    split
    · rename_i rest heq
      exact absurd heq (h rest)
    · rfl
  have hsplit : Rfc3986.split text = ⟨(Rfc3986.splitScheme (Reference.split text).body).1,
      (Rfc3986.splitAuthority (Rfc3986.splitScheme (Reference.split text).body).2).1,
      (Rfc3986.splitAuthority (Rfc3986.splitScheme (Reference.split text).body).2).2,
      (Reference.split text).query,(Reference.split text).fragment⟩ := rfl
  rw [hsplit,hbody]
  simp only [hauthority]

theorem body_slashes (h : ∀ rest, text ≠ '/' :: '/' :: rest) (rest : Chars) :
    (Reference.split text).body ≠ '/' :: '/' :: rest := by
  intro hbody
  have htext := Reference.split_text text
  rw [hbody] at htext
  exact h _ (by simpa using htext.symm)

/-- An escape stands in one of the components, as no mark belongs to one. -/
theorem hasEscape_lead {mark : Char} (hpercent : mark ≠ '%') (hhex : Rfc3986.isHexDigit mark = false)
    (front : Chars) (o : Option Chars) :
    hasEscape (front++lead mark o) = (hasEscape front || hasEscape (o.getD [])) := by
  induction front with
  | nil =>
    cases o with
    | none => rfl
    | some rest =>
      have hmark : hasEscape (mark::rest) = hasEscape rest := by
        rw [hasEscape,startsEscape_of_ne hpercent,Bool.false_or]
      exact hmark
  | cons c front ih =>
    have hstarts : startsEscape (c::(front++lead mark o)) = startsEscape (c::front) := by
      by_cases hc : c = '%'
      · subst hc
        cases front with
        | nil =>
          rcases o with _ | _ | ⟨b,rest⟩
          · rfl
          · rfl
          · simp [startsEscape,hhex]
        | cons a front =>
          cases front with
          | nil => cases o <;> simp [startsEscape,hhex]
          | cons b front => rfl
      · rw [startsEscape_of_ne hc,startsEscape_of_ne hc]
    rw [List.cons_append,hasEscape,hasEscape,hstarts,ih,Bool.or_assoc]

theorem hasEscape_split (text : Chars) : hasEscape text = false ↔
    hasEscape (Reference.split text).body = false ∧
      hasEscape ((Reference.split text).query.getD []) = false ∧
      hasEscape ((Reference.split text).fragment.getD []) = false := by
  have htext := Reference.split_text text
  generalize Reference.split text = reference at htext ⊢
  rw [← htext,hasEscape_lead (by decide) (by decide),hasEscape_lead (by decide) (by decide)]
  simp only [Bool.or_eq_false_iff,and_assoc]

end Rootless

/-! ## The two routes -/

section Routes

variable {crates : UrlCrates} {text : Chars} {u : UrlReference}

theorem keepsMeaning_verbatim (h : Rfc3986.isRelativeRef text)
    (hslashes : ∀ rest, text ≠ '/' :: '/' :: rest) : KeepsMeaning text (.Relative ⟨text,h⟩) := by
  have hscheme := (Rfc3986.isRelativeRef_iff.mp h).scheme
  have hsplit := authority_none (body_slashes hslashes) hscheme
  refine ⟨?_,?_,?_⟩
  · simp only [path,encodedPathOrRoot,encodedPath,hsplit]
    split_ifs
    · rfl
    · rfl
  · simp only [query,hsplit]
    exact .refl _
  · simp only [fragment,hsplit]
    exact .refl _

theorem getD_map_encode (set : Char → Bool) (o : Option Chars) :
    (o.map (percentEncode set)).getD [] = percentEncode set (o.getD []) := by
  cases o <;> rfl

theorem encoded_components (hiri : IsIri crates) (hslashes : ∀ rest, text ≠ '/' :: '/' :: rest)
    (h : Rfc3986.isRelativeRef (encodePath crates text)) :
    Rfc3986.split (encodePath crates text) =
      ⟨none,none,percentEncode (!Rfc3986.isPathChar ·) (Reference.split text).body,
        (Reference.split text).query.map (percentEncode (!Rfc3986.isQueryChar ·)),
        (Reference.split text).fragment.map (percentEncode (!Rfc3986.isQueryChar ·))⟩ := by
  have hreference := split_encodeParts (!Rfc3986.isPathChar ·) (!Rfc3986.isQueryChar ·)
    (!Rfc3986.isQueryChar ·) text
  rw [← hiri.encodePath_eq] at hreference
  have hbody : ∀ rest, (Reference.split (encodePath crates text)).body ≠ '/' :: '/' :: rest := by
    intro rest hbody
    rw [hreference] at hbody
    obtain ⟨rest,hrest,hcons⟩ := percentEncode_head_raw (by decide) hbody
    obtain ⟨rest,rfl,_⟩ := percentEncode_head_raw (by decide) hcons.symm
    exact body_slashes hslashes rest hrest
  have hsplit := authority_none hbody (Rfc3986.isRelativeRef_iff.mp h).scheme
  rw [hreference] at hsplit
  exact hsplit

/-- A path that is encoded with its percent signs is decoded to itself. -/
theorem path_encoded (reference : { text : Chars // Rfc3986.isRelativeRef text }) {set : Char → Bool}
    {body : Chars} (hset : set '%') (h : (Rfc3986.split reference.1).path = percentEncode set body) :
    path (.Relative reference) = if body = [] then ['/'] else body := by
  simp only [path,encodedPathOrRoot,encodedPath,h]
  by_cases hnil : body = []
  · rw [if_pos hnil,hnil]
    rfl
  · have hne : percentEncode set body ≠ [] := by
      intro hnone
      have hlength := percentEncode_length set body
      rw [hnone] at hlength
      exact hnil (List.length_eq_zero_iff.mp (Nat.le_zero.mp hlength))
    rw [if_neg hne,if_neg hnil,percentDecode_percentEncode hset,Utf8.lossy_text]

theorem keepsMeaning_encoded (hiri : IsIri crates) (hslashes : ∀ rest, text ≠ '/' :: '/' :: rest)
    (h : Rfc3986.isRelativeRef (encodePath crates text)) :
    KeepsMeaning text (.Relative ⟨encodePath crates text,h⟩) ↔ hasEscape text = false := by
  have hsplit := encoded_components hiri hslashes h
  have hpathPercent : (!Rfc3986.isPathChar '%') = true := by decide
  have hqueryPercent : (!Rfc3986.isQueryChar '%') = true := by decide
  have hpath := path_encoded ⟨encodePath crates text,h⟩ hpathPercent (by rw [hsplit])
  have hquery : query (.Relative ⟨encodePath crates text,h⟩) =
      percentEncode (!Rfc3986.isQueryChar ·) ((Reference.split text).query.getD []) := by
    simp only [query,hsplit,getD_map_encode]
  have hfragment : fragment (.Relative ⟨encodePath crates text,h⟩) =
      percentEncode (!Rfc3986.isQueryChar ·) ((Reference.split text).fragment.getD []) := by
    simp only [fragment,hsplit,getD_map_encode]
  have hsame : (path (.Relative ⟨encodePath crates text,h⟩) = if (Reference.split text).body = [] then ['/']
      else Utf8.lossy none (percentDecode (Reference.split text).body)) ↔
        hasEscape (Reference.split text).body = false := by
    rw [hpath]
    by_cases hnil : (Reference.split text).body = []
    · rw [if_pos hnil,if_pos hnil,hnil]
      exact ⟨fun _ => rfl,fun _ => rfl⟩
    · rw [if_neg hnil,if_neg hnil,eq_comm,lossy_eq_iff]
  rw [hasEscape_split]
  constructor
  · intro hkeeps
    have hq := hkeeps.query
    have hf := hkeeps.fragment
    rw [hquery,kept_percentEncode_iff hqueryPercent] at hq
    rw [hfragment,kept_percentEncode_iff hqueryPercent] at hf
    exact ⟨hsame.mp hkeeps.path,hq,hf⟩
  · rintro ⟨hp,hq,hf⟩
    refine ⟨hsame.mpr hp,?_,?_⟩
    · rw [hquery]
      exact .plain hq _
    · rw [hfragment]
      exact .plain hf _

end Routes

/-- What is written in a reference without a scheme means the same once it is parsed, if and only if
it is left as it is or has no escapes. -/
theorem parse_keeps_meaning (crates : UrlCrates) (hiri : IsIri crates) (text : Chars) (u : UrlReference)
    (hscheme : splitScheme (clean text) = none) (hslashes : ∀ rest, text ≠ '/' :: '/' :: rest)
    (h : parse crates text = .ok u) :
    KeepsMeaning text u ↔ Rfc3986.isRelativeRef text ∨ hasEscape text = false := by
  rw [parse_schemeless crates hscheme] at h
  rcases parseRelative_ok h with ⟨hinput,rfl⟩ | ⟨hnot,hencoded,rfl⟩
  · exact iff_of_true (keepsMeaning_verbatim hinput hslashes) (.inl hinput)
  · rw [hnot]
    have hroute : encodeRelative crates text = encodePath crates text := encodeRelative_path hslashes
    simp only [hroute] at hencoded ⊢
    rw [keepsMeaning_encoded hiri hslashes hencoded]
    simp

def iriCrates : UrlCrates :=
  { nameCrates with hosts := plainHosts }

theorem isIri_iriCrates : IsIri iriCrates := ⟨rfl,rfl,rfl⟩

/-- `a b` is encoded, and means what it meant. -/
theorem parse_keeps_meaning_space :
    KeepsMeaning ['a',' ','b'] (.Relative ⟨['a','%','2','0','b'],by decide⟩) :=
  (parse_keeps_meaning iriCrates isIri_iriCrates ['a',' ','b'] _ (by decide) (by simp) rfl).mpr
    (.inr (by decide))

/-- `a%20b c` is read as `a%20b c`, with the escape's own text. -/
theorem parse_escape_twice : ¬ ∀ (crates : UrlCrates) (text : Chars) (u : UrlReference), IsIri crates →
    splitScheme (clean text) = none → (∀ rest, text ≠ '/' :: '/' :: rest) → parse crates text = .ok u →
      KeepsMeaning text u := by
  intro h
  have hkeeps := h iriCrates ['a','%','2','0','b',' ','c']
    (.Relative ⟨['a','%','2','5','2','0','b','%','2','0','c'],by decide⟩) isIri_iriCrates (by decide)
    (by simp) rfl
  exact absurd hkeeps.path (by decide)

end UrlReference
end Rqx
