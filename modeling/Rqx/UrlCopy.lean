import Rqx.UrlComponents
import Rqx.UrlEdit
import Rqx.UrlRoundTrip

/-! What `copy_with` does to the components it is not given: one component is replaced in the text,
and the text is parsed. -/
namespace Rqx
open Whatwg Split

namespace UrlReference

/-! ## Query and fragment -/

section Tails

variable {set setFragment : Char → Bool} {query fragment text : Chars} {hash mark : Option Chars}

/-- What a text reads as when a query and a fragment are put behind it. -/
theorem split_tail (mark hash : Option Chars) (hquery : ∀ q ∈ mark, '#' ∉ q) (text : Chars) :
    Reference.split (text++(lead '?' mark++lead '#' hash)) =
      match (Reference.split text).fragment,(Reference.split text).query with
      | some rest,q => ⟨(Reference.split text).body,q,some (rest++(lead '?' mark++lead '#' hash))⟩
      | none,some rest => ⟨(Reference.split text).body,some (rest++lead '?' mark),hash⟩
      | none,none => ⟨(Reference.split text).body,mark,hash⟩ := by
  have htext := Reference.split_text text
  have hbody := body_mem text
  have hsplit := Reference.query_mem text
  generalize Reference.split text = r at htext hbody hsplit ⊢
  obtain ⟨body,q,f⟩ := r
  simp only at htext hbody hsplit ⊢
  subst htext
  cases f with
  | some rest =>
    have hmerge : body++lead '?' q++lead '#' (some rest)++(lead '?' mark++lead '#' hash) =
        body++lead '?' q++lead '#' (some (rest++(lead '?' mark++lead '#' hash))) := by simp
    rw [hmerge,Reference.split_lead hbody hsplit]
  | none =>
    cases q with
    | some rest =>
      have hmerge : body++lead '?' (some rest)++lead '#' none++(lead '?' mark++lead '#' hash) =
          body++lead '?' (some (rest++lead '?' mark))++lead '#' hash := by simp
      rw [hmerge,Reference.split_lead hbody]
      intro q hq hc
      obtain rfl := Option.mem_some_iff.mp hq
      rcases List.mem_append.mp hc with hc | hc
      · exact hsplit rest rfl hc
      · obtain ⟨q,hq,he | hc⟩ := mem_lead.mp hc
        · exact absurd he (by decide)
        · exact hquery q hq hc
    | none =>
      have hmerge : body++lead '?' none++lead '#' none++(lead '?' mark++lead '#' hash) =
          body++lead '?' mark++lead '#' hash := by simp
      rw [hmerge,Reference.split_lead hbody hquery]

theorem present_keep {encode : Chars → Chars} (h : encode text = text) :
    (present text).map encode = present text := by
  unfold present
  split
  · rfl
  · exact congrArg some h

end Tails

/-! ## Framing -/

/-- What a URL reads as: an empty path reads as the root. -/
def reading (u : UrlReference) : Parts := { u.read with path := u.encodedPathOrRoot }

/-- What a parser keeps of a value; blanks at its end are dropped where nothing follows. -/
def kept (p : Parts) (c : Component) (v : Chars) : Chars :=
  match c with
  | .username => cleanInner false v
  | .password => cleanInner false v
  | .path => cleanInner (p.query = [] ∧ p.fragment = []) v
  | .query => cleanInner (p.fragment = []) v
  | .fragment => cleanInner true v

/-- A value stays inside its component. An end of the authority in the credentials must make a text
that is `refused`; what a mark or a colon cuts off must be empty, and so must the components that it
would run on into. -/
def Inside (scheme : Chars) (refused : Chars → Prop) (p : Parts) (c : Component) (text : Chars) :
    Prop :=
  match c with
  | .username =>
    let text := skipSlashes scheme text
    if text.any (isEnd scheme) then refused (text.takeWhile (!isEnd scheme ·))
    else scheme = file ∨ ∀ rest ∈ (splitFirst ':' text).2, rest = [] ∧ p.password = []
  | .password =>
    text.any (isEnd scheme) → refused (p.username++ ':' :: text.takeWhile (!isEnd scheme ·))
  | .path =>
    (∀ rest ∈ (Reference.split text).query, rest = [] ∧ p.query = []) ∧
      ∀ rest ∈ (Reference.split text).fragment, rest = [] ∧ p.query = [] ∧ p.fragment = []
  | .query => ∀ rest ∈ (splitFirst '#' text).2, rest = [] ∧ p.fragment = []
  | .fragment => True

section AbsoluteEdits

variable {crates : UrlCrates} {form : FormUrlencoded} {url : Url} {authority : Authority} {v : Chars}

theorem settled_fragment (h : Settled crates.hosts url authority) :
    percentEncode fragmentSet (url.fragment.getD []) = url.fragment.getD [] := by
  have hfragment := h.fragment
  cases hf : url.fragment with
  | none => rfl
  | some fragment =>
    rw [hf] at hfragment
    exact Option.some.inj hfragment

theorem front_tail (ha : url.authority = some authority) (tail : Chars) :
    url.front++tail = url.scheme++lead ':' (some ('/' :: '/' :: (authority.text++
      (url.path.text++tail)))) := by
  simp [Url.front,ha]

theorem withTail_path (h : Settled crates.hosts url authority) {tail : Chars}
    (hbody : (Reference.split tail).body = url.path.text) : (url.withTail tail).path = url.path := by
  rw [Url.withTail,hbody]
  exact h.path.symm

theorem query_text (hvalid : url.Valid) (ha : url.authority = some authority)
    (hhost : authority.host ≠ []) (v : Chars) : ((Absolute ⟨url,hvalid⟩).read.set .query v).text =
      url.front++lead '?' (present v)++lead '#' (present (url.fragment.getD [])) := by
  rw [← read_front hvalid ha hhost]
  rfl

/-- Host and port, as they are written. -/
def hostPort (authority : Authority) : Chars :=
  authority.host++lead ':' (authority.port.map (Nat.toDigits 10))

end AbsoluteEdits

end UrlReference
end Rqx
