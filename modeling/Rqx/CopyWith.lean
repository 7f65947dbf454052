import Rqx.UrlSettled

/-! When `copy_with` changes the one component it is given and no other. -/
namespace Rqx
open Whatwg Split

namespace UrlReference

/-- Whether the `url` crate parses a reference under both borrowed schemes. -/
def Borrows (crates : UrlCrates) (text : Chars) : Prop :=
  (∃ url, crates.hosts.parseUrl (ftp++ ':' :: text) = .ok url) ∧
    ∃ url, crates.hosts.parseUrl (ws++ ':' :: text) = .ok url

/-- `PercentEncoded` encodes the characters that the grammar does not take in the component, and
percent signs. -/
structure IsIri (crates : UrlCrates) : Prop where
  fromPath : crates.fromPath = percentEncode (!Rfc3986.isPathChar ·)
  fromQuery : crates.fromQuery = percentEncode (!Rfc3986.isQueryChar ·)
  fromFragment : crates.fromFragment = percentEncode (!Rfc3986.isQueryChar ·)

/-! ## Where the value stays inside its component -/

section Copy

variable {crates : UrlCrates} {text : Chars} {p : Parts} {c : Component} {v : Chars}

theorem IsIri.encodePath_eq (h : IsIri crates) (input : Chars) : encodePath crates input =
    encodeParts (!Rfc3986.isPathChar ·) (!Rfc3986.isQueryChar ·) (!Rfc3986.isQueryChar ·) input := by
  simp only [encodePath,encodeParts,Reference.split,h.fromPath,h.fromQuery,h.fromFragment]

theorem encodeRelative_refused (h : ¬Borrows crates text) (raw : Chars)
    (htext : text = '/' :: '/' :: raw) : encodeRelative crates text = encodePath crates text := by
  subst htext
  simp only [encodeRelative]
  split
  · rename_i ftpUrl wsUrl hftp hws
    exact absurd ⟨⟨ftpUrl,hftp⟩,wsUrl,hws⟩ h
  · rfl

theorem parse_schemeless (crates : UrlCrates) (h : splitScheme (clean text) = none) :
    parse crates text = parseRelative crates text := by
  have hparse : crates.hosts.parseUrl text = .error .RelativeUrlWithoutBase := by
    rw [HostParser.parseUrl,h]
  unfold parse
  split
  · rename_i hother
    rw [hparse] at hother
    cases hother
  · rfl
  · rename_i hother
    rw [hparse] at hother
    cases hother
    rename_i hnot
    exact absurd rfl hnot

theorem parse_rooted (crates : UrlCrates) (rest : Chars) :
    parse crates ('/' :: rest) = parseRelative crates ('/' :: rest) := by
  refine parse_schemeless crates (splitScheme_clean_none fun d hd => ?_)
  obtain rfl : '/' = d := by simpa using hd
  decide

theorem parse_slashes (crates : UrlCrates) (raw : Chars) :
    parse crates ('/' :: '/' :: raw) = parseRelative crates ('/' :: '/' :: raw) :=
  parse_rooted crates _

/-! ## Network-path references -/

end Copy

/-- A host parser that takes names in small letters. -/
def nameHosts : HostParser where
  parse := fun _ text =>
    if text ≠ [] ∧ text.all Char.isLower then .ok text else .error "invalid domain character"
  parse_valid := by
    intro _ text host h
    split at h
    · rename_i hname
      cases h
      have hlower : ∀ n < 128, (Char.ofNat n).isLower → forbiddenHostSet (Char.ofNat n) = false := by
        decide
      intro c hc
      have hc : c.isLower := List.all_eq_true.mp hname.2 c hc
      have halpha : c.isAlpha := by
        delta Char.isAlpha
        simp [hc]
      have hsmall : c.toNat < 128 := isSchemeChar_small (by simp [isSchemeChar,Char.isAlphanum,halpha])
      have hset := hlower c.toNat hsmall
      rw [Char.ofNat_toNat] at hset
      exact hset hc
    · cases h
  parse_at := by
    intro _ text hat
    refine ⟨_,if_neg fun hname => ?_⟩
    exact absurd (List.all_eq_true.mp hname.2 '@' hat) (by decide)

def nameCrates : UrlCrates where
  hosts := nameHosts
  fromPath := percentEncode (!Rfc3986.isPathChar ·)
  fromQuery := percentEncode (!Rfc3986.isQueryChar ·)
  fromFragment := percentEncode (!Rfc3986.isQueryChar ·)
  grammarError := "invalid IRI"
  debug := String.ofList
  path_slash := percentEncode_count (by decide)
  query_slash := percentEncode_count (by decide)
  fragment_slash := percentEncode_count (by decide)

end UrlReference
end Rqx
