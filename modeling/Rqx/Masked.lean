import Rqx.UrlReference
import Rqx.UrlText

/-! When `UrlReference::masked` hides the password: one grammar has written the text, another
has to take it. -/
namespace Whatwg
open Split

def Url.withPassword (url : Url) (password : Chars) : Url :=
  { url with authority := url.authority.map ({ · with password }) }

/-- The credentials before the host and port. -/
def Authority.asCredentials (authority : Authority) : Rfc3986.Credentials where
  user := authority.username
  password := authority.password
  host := authority.host++lead ':' (authority.port.map (Nat.toDigits 10))

theorem Authority.text_eq {authority : Authority} (h : authority.password ≠ []) :
    authority.text = authority.asCredentials.text := by
  simp [Authority.text,Authority.credentials,Rfc3986.Credentials.text,Authority.asCredentials,h]

section Valid

variable {url : Url} {authority : Authority}

theorem Authority.credentials_text (hvalid : authority.Valid) (hp : authority.password ≠ []) :
    Rfc3986.credentials authority.text = some authority.asCredentials := by
  rw [Authority.text_eq hp]
  refine Rfc3986.credentials_text (fun hc => (userinfo_mem (hvalid.username _ hc)).1 rfl) ?_
  simp only [asCredentials,List.mem_append,List.mem_cons]
  rintro (hc | hc | hc)
  · exact (userinfo_mem (hvalid.username _ hc)).2.1 rfl
  · exact absurd hc (by decide)
  · exact (userinfo_mem (hvalid.password _ hc)).2.1 rfl

theorem Url.withPassword_authority (ha : url.authority = some authority) (password : Chars) :
    (url.withPassword password).authority = some { authority with password } := by
  simp [withPassword,ha]

theorem Url.withPassword_components (ha : url.authority = some authority) {password : Chars}
    (hp : password ≠ []) : (url.withPassword password).components =
      { url.components with
        authority := some { authority.asCredentials with password }.text } := by
  simp only [components,withPassword_authority ha,Option.map_some]
  rw [Authority.text_eq hp]
  rfl

theorem Url.replacePassword_text (hvalid : url.Valid) (ha : url.authority = some authority)
    (hp : authority.password ≠ []) {password : Chars} (hne : password ≠ []) :
    Rfc3986.replacePassword url.text password = (url.withPassword password).text := by
  have hcomponents : (Rfc3986.split url.text).authority.bind Rfc3986.credentials =
      some authority.asCredentials := by
    rw [split_text hvalid ha]
    simpa [components,ha] using Authority.credentials_text (hvalid.authority authority ha) hp
  rw [Url.text_eq (withPassword_authority ha password),withPassword_components ha hne,
    Rfc3986.replacePassword_credentials hcomponents,split_text hvalid ha]

theorem Url.password_of_text (ha : url.authority = some authority)
    (hp : authority.password ≠ []) {password : Chars} (hne : password ≠ [])
    (h : url.text = (url.withPassword password).text) : authority.password = password := by
  rw [Url.text_eq ha,Url.text_eq (withPassword_authority ha password),
    withPassword_components ha hne] at h
  have htext := Authority.text_eq hp
  simpa [Rfc3986.compose,components,ha,htext,Rfc3986.Credentials.text,Authority.asCredentials]
    using h

end Valid
end Whatwg

namespace Rqx
open Whatwg

namespace UrlReference

/-- The text with `[secure]` in the place of the password. -/
def redacted : UrlReference → Chars
  | Absolute url => (url.1.withPassword secure).text
  | Relative reference => Rfc3986.replacePassword reference.1 secure

/-- The two have passwords and differ in nothing else. -/
def DifferInPassword : UrlReference → UrlReference → Prop
  | Absolute u,Absolute v => ∃ authority password, u.1.authority = some authority ∧
    authority.password ≠ [] ∧ password ≠ [] ∧ v.1 = u.1.withPassword password
  | Relative u,Relative v => ∃ c password, c.password ≠ [] ∧ password ≠ [] ∧
    (Rfc3986.split u.1).authority.bind Rfc3986.credentials = some c ∧
    (Rfc3986.split v.1).authority.bind Rfc3986.credentials = some { c with password } ∧
    { Rfc3986.split v.1 with authority := none } = { Rfc3986.split u.1 with authority := none }
  | _,_ => False

/-- Every component is in the grammar that RFC 3986 has for it. A relative reference has been
parsed by that grammar; in a URL a path, a query, a fragment or a password can fall outside. -/
def Conforms : UrlReference → Prop
  | Absolute url => url.1.components.isUriReference
  | Relative _ => True

instance : DecidablePred Conforms
  | .Absolute _ => inferInstanceAs (Decidable (_ = true))
  | .Relative _ => inferInstanceAs (Decidable True)

theorem secure_ne : secure ≠ [] := by decide

theorem masked_of_accepted {u : UrlReference} (h : Rfc3986.isUriReference u.text) :
    u.masked = Rfc3986.replacePassword u.text secure := if_pos h

theorem masked_of_rejected {u : UrlReference} (h : ¬ Rfc3986.isUriReference u.text) :
    u.masked = u.text := if_neg h

theorem masked_absolute (url : { url : Url // url.Valid }) {authority : Authority}
    (ha : url.1.authority = some authority) (hp : authority.password ≠ []) :
    (Absolute url).masked = (Absolute url).redacted ↔ (Absolute url).Conforms := by
  obtain ⟨url,hvalid⟩ := url
  have htext : Rfc3986.isUriReference (Absolute ⟨url,hvalid⟩).text =
      url.components.isUriReference :=
    congrArg Rfc3986.Components.isUriReference (Url.split_text hvalid ha)
  by_cases hconforms : url.components.isUriReference
  · rw [masked_of_accepted (htext.trans hconforms)]
    exact iff_of_true (Url.replacePassword_text hvalid ha hp secure_ne) hconforms
  · rw [masked_of_rejected (by rwa [htext])]
    refine iff_of_false (fun h => ?_) hconforms
    have hsecure := Url.password_of_text ha hp secure_ne h
    -- The parser would have encoded the brackets.
    have hbracket := (hvalid.authority authority ha).password '[' (by rw [hsecure]; decide)
    exact (userinfo_mem hbracket).2.2.2.2.2 rfl

theorem masked_relative (reference : { text : Chars // Rfc3986.isRelativeRef text }) :
    (Relative reference).masked = (Relative reference).redacted := by
  have haccepted := reference.2
  simp only [Rfc3986.isRelativeRef,Bool.and_eq_true] at haccepted
  exact masked_of_accepted (u := .Relative reference) haccepted.1

theorem masked_iff {u v : UrlReference} (h : DifferInPassword u v) :
    (u.masked = u.redacted ↔ u.Conforms) ∧ (v.masked = v.redacted ↔ v.Conforms) ∧
      u.redacted = v.redacted := by
  rcases u with u | u <;> rcases v with v | v
  · obtain ⟨authority,password,ha,hp,hne,hv⟩ := h
    have hva : v.1.authority = some { authority with password } := by
      rw [hv,Url.withPassword_authority ha]
    refine ⟨masked_absolute u ha hp,masked_absolute v hva hne,?_⟩
    simp only [redacted,hv,Url.withPassword,Option.map_map]
    rfl
  · exact absurd h id
  · exact absurd h id
  · obtain ⟨c,password,hp,hne,hu,hv,hsame⟩ := h
    refine ⟨iff_of_true (masked_relative u) trivial,iff_of_true (masked_relative v) trivial,?_⟩
    simp only [redacted,Rfc3986.replacePassword_credentials hu,Rfc3986.replacePassword_credentials hv]
    exact congrArg (fun d : Rfc3986.Components => Rfc3986.compose
      { d with authority := some { c with password := secure }.text }) hsame.symm

/-- The passwords do not show exactly when both references conform to RFC 3986. -/
theorem masked_hides {u v : UrlReference} (h : DifferInPassword u v) :
    (u.masked = v.masked ∧ u.masked = u.redacted) ↔ u.Conforms ∧ v.Conforms := by
  obtain ⟨hu,hv,hsame⟩ := masked_iff h
  rw [← hu,← hv,← hsame]
  constructor
  · rintro ⟨he,hmasked⟩
    exact ⟨hmasked,he.symm.trans hmasked⟩
  · rintro ⟨hmasked,hmasked'⟩
    exact ⟨hmasked.trans hmasked'.symm,hmasked⟩

/-- A URL with the user `u`, a password of one character, and a path of one name. -/
def withPath (password : Char) (hpassword : userinfoSet password = false) (name : Chars)
    (hname : name.all plain) : UrlReference :=
  .Absolute ⟨⟨http,some ⟨['u'],[password],['h'],none⟩,.segments [name],none,none⟩,
    { scheme_ne := (by decide : http ≠ [])
      scheme := List.all_eq_true.mp (by decide : http.all isSchemeChar)
      authority := by
        rintro _ ⟨rfl⟩
        exact ⟨by simpa using (by decide : userinfoSet 'u' = false),by simpa using hpassword,
          by simpa using (by decide : forbiddenHostSet 'h' = false)⟩
      whole := by simp
      special := fun _ => ⟨rfl,[name],rfl,by simp,by simpa using hname⟩
      path := by
        simp only [Path.text,List.flatMap_cons,List.flatMap_nil,List.append_nil,List.mem_cons]
        rintro c (rfl | hc)
        · decide
        · have hc := plain_visible (List.all_eq_true.mp hname c hc)
          exact ⟨hc.2.1,hc.1⟩
      query := by simp
      fragment := by simp }⟩

/-- `http://u:s@h/` and `http://u:t@h/`. -/
theorem masked_hides_root :
    let u := withPath 's' (by decide) [] rfl
    let v := withPath 't' (by decide) [] rfl
    u.masked = v.masked ∧ u.masked = u.redacted :=
  (masked_hides (u := withPath 's' (by decide) [] rfl) (v := withPath 't' (by decide) [] rfl)
    ⟨_,['t'],rfl,by simp,by simp,rfl⟩).mpr ⟨by decide,by decide⟩

/-- A bar in the path is a character that RFC 3986 does not take. -/
theorem masked_reveals : ¬ ∀ u v : UrlReference, DifferInPassword u v →
    u.masked = v.masked ∧ u.masked = u.redacted := by
  intro h
  have hmasked := h (withPath 's' (by decide) ['|'] (by decide))
    (withPath 't' (by decide) ['|'] (by decide)) ⟨_,['t'],rfl,by simp,by simp,rfl⟩
  exact absurd hmasked.1 (by decide)

end UrlReference
end Rqx
