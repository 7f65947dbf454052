import Rqx.BorrowedScheme

/-! A URL that was parsed is settled: its parts are parsed to themselves. -/
namespace Whatwg
open Rqx Rqx.UrlReference Split

section Paths

variable {scheme : Chars} {path segments : List Chars} {segment : Chars} {last : Bool}

/-- A first segment is no drive letter that still ends in a bar. -/
def Lettered (scheme : Chars) (path : List Chars) : Prop :=
  ∀ name ∈ path.head?, segmentOf scheme [] name = name

theorem segmentOf_again (scheme segment : Chars) :
    segmentOf scheme [] (segmentOf scheme [] segment) = segmentOf scheme [] segment := by
  by_cases hdrive : scheme = file ∧ isDriveLetter segment
  · obtain ⟨hscheme,hletter⟩ := hdrive
    obtain ⟨a,b,rfl⟩ : ∃ a b, segment = [a,b] := by
      unfold isDriveLetter at hletter
      split at hletter
      · exact ⟨_,_,rfl⟩
      · cases hletter
    simp [segmentOf,hscheme,hletter]
  · have hsame : segmentOf scheme [] segment = segment := by
      rw [segmentOf,if_neg fun h => hdrive ⟨h.1,h.2.2⟩]
    rw [hsame,hsame]

theorem Lettered.shorten (h : Lettered scheme path) : Lettered scheme (shorten scheme path) := by
  unfold Whatwg.shorten
  split
  · exact h
  · intro name hname
    refine h name ?_
    cases path with
    | nil => simp at hname
    | cons first path =>
      cases path with
      | nil => simp at hname
      | cons next path => simpa using hname

theorem Lettered.append (h : Lettered scheme path) (segment : Chars) :
    Lettered scheme (path++[segmentOf scheme path segment]) := by
  cases path with
  | nil =>
    intro name hname
    obtain rfl : segmentOf scheme [] segment = name := by simpa using hname
    exact segmentOf_again scheme segment
  | cons first path => exact h

theorem Lettered.appendNil (h : Lettered scheme path) : Lettered scheme (path++[[]]) := by
  have hnil : segmentOf scheme path [] = [] := by simp [segmentOf,isDriveLetter]
  have happend := h.append []
  rwa [hnil] at happend

theorem Lettered.push (h : Lettered scheme path) : Lettered scheme (pushOf scheme path segment last) := by
  unfold pushOf
  split
  · split
    · exact h.shorten.appendNil
    · exact h.shorten
  · split
    · split
      · exact h.appendNil
      · exact h
    · exact h.append segment

theorem Lettered.pushAll (h : Lettered scheme path) : Lettered scheme (pushAllOf scheme path segments) := by
  induction segments generalizing path with
  | nil => exact h
  | cons segment segments ih =>
    cases segments with
    | nil => exact h.push
    | cons next segments => exact ih h.push

end Paths

section Authorities

variable {hosts : HostParser} {scheme text : Chars} {url : Url} {authority : Authority}

end Authorities

end Whatwg
