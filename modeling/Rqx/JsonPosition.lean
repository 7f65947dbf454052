import Rqx.LastLine
import Rqx.PyJson
import Rqx.Utf8Lossy

/-! Where a `JSONDecodeError` points: the line and the column of `serde_json` turned back into an
offset, and what Python makes of it. -/
namespace Rqx
namespace PyJson
open LastLine

/-- The error that `serde_json` reports once it has read `index` bytes. -/
def errorAt (text : String) (body : Bytes) (index : ℕ) : JsonError where
  text := text
  line := 1+(body.take index).count 10
  column := index-lineStart 10 (body.take index)

/-- `lineno` of `json.JSONDecodeError`. -/
def lineno (doc : List Char) (pos : ℕ) : ℕ := (doc.take pos).count '\n'+1

/-- `colno` of `json.JSONDecodeError`. -/
def colno (doc : List Char) (pos : ℕ) : ℕ := pos+1-lineStart '\n' (doc.take pos)

def byteLineno (body : Bytes) (offset : ℕ) : ℕ := (body.take offset).count 10+1

/-- The characters that stand before a byte in its line, and one. -/
def byteColno (body : Bytes) (offset : ℕ) : ℕ :=
  (Utf8.lossy none ((body.take offset).drop (lineStart 10 (body.take offset)))).length+1

/-- The error points at the last byte that was read. -/
structure PointsAt (body : Bytes) (index : ℕ) (error : JsonError) (e : JSONDecodeError) : Prop where
  offset : byteOffset body error = index-1
  pos : e.pos = (Utf8.lossy none (body.take (index-1))).length
  lineno : lineno e.doc.toList e.pos = byteLineno body (index-1)
  colno : colno e.doc.toList e.pos = byteColno body (index-1)

section Position

variable {body : Bytes} {index offset : ℕ} {text : String}

theorem lineStart_le (newline : UInt8) (body : Bytes) : lineStart newline body ≤ body.length :=
  (List.rdropWhile_prefix _ _).length_le

theorem sum_lineStart (body : Bytes) (index : ℕ) :
    ((((body.splitOn 10).take ((body.take index).count 10)).map fun line => line.length+1).sum) =
      lineStart 10 (body.take index) := by
  obtain ⟨front,rest,hcut,hends,hrest,hstart⟩ := exists_cut 10 (body.take index)
  have hbody : body = front++(rest++body.drop index) := by
    rw [← List.append_assoc,← hcut,List.take_append_drop]
  have hcount : (body.take index).count 10 = front.count 10 := by
    rw [hcut,List.count_append,List.count_eq_zero.mpr hrest,Nat.add_zero]
  have hsum := sum_lines hends (rest++body.drop index)
  rw [← hbody] at hsum
  rw [hcount,hsum,hstart]

theorem byteOffset_eq (text : String) (body : Bytes) (index : ℕ) :
    byteOffset body (errorAt text body index) =
      min (lineStart 10 (body.take index)+(index-lineStart 10 (body.take index)-1)) body.length := by
  have hline : 1+(body.take index).count 10-1 = (body.take index).count 10 := by omega
  rw [byteOffset,if_neg (by simp [errorAt])]
  simp only [errorAt,hline,sum_lineStart]

/-- Behind the last newline there is something to point at, unless the newline is the last byte. -/
theorem lineStart_lt (hlow : 1 ≤ index) (hhigh : index ≤ body.length) :
    lineStart 10 (body.take index) < index ↔ body[index-1]? ≠ some 10 := by
  obtain ⟨n,rfl⟩ : ∃ n, index = n+1 := ⟨index-1,by omega⟩
  have hn : n < body.length := by omega
  have htake : body.take (n+1) = body.take n++[body[n]] := by simp
  rw [Nat.add_sub_cancel,List.getElem?_eq_getElem hn,htake]
  by_cases hnewline : body[n] = 10
  · rw [hnewline,lineStart_ends (.inr ⟨_,rfl⟩)]
    simp
    omega
  · have hle := lineStart_le 10 (body.take n)
    rw [lineStart_append (by simpa using Ne.symm hnewline)]
    simp only [List.length_take] at hle
    simp [hnewline]
    omega

/-- Cut anywhere, the text begins as the decoded beginning does, but for a last character that is
not finished and is no newline either way. -/
theorem take_lossy (body : Bytes) (offset : ℕ) : ∃ text last other : List Char,
    (Utf8.lossy none body).take (Utf8.lossy none (body.take offset)).length = text++other ∧
      Utf8.lossy none (body.take offset) = text++last ∧ '\n' ∉ last ∧ '\n' ∉ other ∧
        text.count '\n' = (body.take offset).count 10 := by
  have hwhole := Utf8.lossy_append none (body.take offset) (body.drop offset)
  rw [List.take_append_drop] at hwhole
  have hsound := Utf8.run_sound Utf8.sound_none (body.take offset)
  have hcount := Utf8.run_newlines Utf8.sound_none (body.take offset)
  rw [hwhole,Utf8.lossy_run none (body.take offset)]
  generalize Utf8.run none (body.take offset) = state at hsound hcount ⊢
  obtain ⟨text,pending⟩ := state
  cases pending with
  | none => exact ⟨text,[],[],by simp,by simp,by simp,by simp,hcount⟩
  | some p =>
    obtain ⟨c,rest,hrest,hc⟩ := Utf8.lossy_head hsound (body.drop offset)
    refine ⟨text,[Utf8.replacement],[c],?_,rfl,by decide,by simpa using Ne.symm hc,hcount⟩
    simp only [hrest,List.length_append,List.take_length_add_append]
    rfl

theorem lossy_lastLine (body : Bytes) : ∃ lines : List Char, Ends '\n' lines ∧
    Utf8.lossy none body = lines++Utf8.lossy none (body.drop (lineStart 10 body)) ∧
      '\n' ∉ Utf8.lossy none (body.drop (lineStart 10 body)) := by
  obtain ⟨front,rest,hcut,hends,hrest,hstart⟩ := exists_cut 10 body
  have hdrop : body.drop (lineStart 10 body) = rest := by
    rw [hstart,hcut]
    exact List.drop_left
  have hplain : '\n' ∉ Utf8.lossy none rest := by
    have hcount := Utf8.run_newlines Utf8.sound_none rest
    rw [List.count_eq_zero.mpr hrest,List.count_eq_zero] at hcount
    rw [Utf8.lossy_run]
    simpa [Utf8.flush] using ⟨hcount,fun _ => by decide⟩
  rw [hdrop]
  have hwhole := Utf8.lossy_append none front rest
  rw [← hcut] at hwhole
  rcases hends with rfl | ⟨lines,rfl⟩
  · exact ⟨[],.inl rfl,hwhole,hplain⟩
  · obtain ⟨text,htext⟩ := Utf8.run_concat_newline Utf8.sound_none lines
    rw [htext] at hwhole
    exact ⟨text++['\n'],.inr ⟨text,rfl⟩,hwhole,hplain⟩

theorem python_position (body : Bytes) (offset : ℕ) :
    lineno (Utf8.lossy none body) (Utf8.lossy none (body.take offset)).length = byteLineno body offset ∧
      colno (Utf8.lossy none body) (Utf8.lossy none (body.take offset)).length =
        byteColno body offset := by
  obtain ⟨text,last,other,htake,hlossy,hlast,hother,hcount⟩ := take_lossy body offset
  obtain ⟨lines,hends,hlines,hplain⟩ := lossy_lastLine (body.take offset)
  have hstart : lineStart '\n' (text++other) = lines.length := by
    have hsame : lineStart '\n' (text++last) = lines.length := by
      rw [← hlossy,hlines,lineStart_append hplain,lineStart_ends hends]
    rwa [lineStart_append hlast,← lineStart_append hother text] at hsame
  constructor
  · rw [lineno,htake,byteLineno,List.count_append,hcount,List.count_eq_zero.mpr hother,Nat.add_zero]
  · rw [colno,htake,hstart,byteColno,hlines,List.length_append]
    omega

end Position

/-- The position is that of the last byte that was read if and only if this byte is no newline. -/
theorem json_position (parts : ResponseParts) (text : String) (body : Bytes) (index : ℕ)
    (hlow : 1 ≤ index) (hhigh : index ≤ body.length) :
    (∃ e, jsonDecodeError parts body (errorAt text body index) = .JSONDecode e ∧
      PointsAt body index (errorAt text body index) e) ↔ body[index-1]? ≠ some 10 := by
  rw [← lineStart_lt hlow hhigh]
  have hoffset := byteOffset_eq text body index
  have hstart : lineStart 10 (body.take index) ≤ index := by
    have hle := lineStart_le 10 (body.take index)
    simp only [List.length_take] at hle
    omega
  constructor
  · rintro ⟨e,-,hpoints⟩
    have hpoints := hpoints.offset
    rw [hoffset] at hpoints
    omega
  · intro hlt
    have hindex : byteOffset body (errorAt text body index) = index-1 := by
      rw [hoffset]
      omega
    obtain ⟨hlineno,hcolno⟩ := python_position body (index-1)
    refine ⟨_,rfl,hindex,?_,?_,?_⟩
    · simp only [hindex]
    · simpa only [hindex,String.toList_ofList] using hlineno
    · simpa only [hindex,String.toList_ofList] using hcolno

/-- An `x` in the second line, behind two quotes and a letter of two bytes: the column is counted in
characters. -/
theorem json_position_accent : ∃ e, jsonDecodeError emptyParts [91,10,34,195,169,34,120]
      (errorAt "expected `,` or `]` at line 2 column 5" [91,10,34,195,169,34,120] 7) = .JSONDecode e ∧
    e.pos = 5 ∧ lineno e.doc.toList e.pos = 2 ∧ colno e.doc.toList e.pos = 4 := by
  obtain ⟨e,he,hpoints⟩ := (json_position emptyParts "expected `,` or `]` at line 2 column 5"
    [91,10,34,195,169,34,120] 7 (by decide) (by decide)).mpr (by decide)
  exact ⟨e,he,hpoints.pos.trans (by decide +kernel),hpoints.lineno.trans (by decide +kernel),
    hpoints.colno.trans (by decide +kernel)⟩

/-- A newline in a string is found in the line behind it. -/
theorem json_position_newline : ¬ ∀ (parts : ResponseParts) (text : String) (body : Bytes) (index : ℕ),
    1 ≤ index → index ≤ body.length →
      ∃ e, jsonDecodeError parts body (errorAt text body index) = .JSONDecode e ∧
        PointsAt body index (errorAt text body index) e := by
  intro h
  obtain ⟨e,-,hpoints⟩ := h emptyParts
    "control character (\\u0000-\\u001F) found while parsing a string at line 2 column 0"
    [34,97,10,34] 3 (by decide) (by decide)
  have hoffset := hpoints.offset
  exact absurd hoffset (by decide)

end PyJson
end Rqx
