import Rqx.PercentDecoding
import Rqx.BorrowedScheme
import Mathlib.Data.List.Sections
import Mathlib.Data.Bool.AllAny

/-! Two percent-encodings of a text compared, when the second may drop some of the text first. -/
namespace Whatwg
open Split Rqx.Utf8

/-! ## Dropped characters -/

/-- A text without some of its blanks. -/
inductive Thinned : Chars → Chars → Prop
  | nil : Thinned [] []
  | keep (c : Char) {rest text : Chars} (h : Thinned rest text) : Thinned (c::rest) (c::text)
  | drop {c : Char} (hc : c.toNat ≤ 32) {rest text : Chars} (h : Thinned rest text) : Thinned rest (c::text)

section Thinned

variable {rest text : Chars}

theorem Thinned.sublist (h : Thinned rest text) : rest.Sublist text := by
  induction h with
  | nil => exact .slnil
  | keep c _ ih => exact ih.cons_cons c
  | drop _ _ ih => exact ih.cons _

theorem Thinned.filter (text : Chars) : Thinned (text.filter (!isDropped ·)) text := by
  induction text with
  | nil => exact .nil
  | cons c text ih =>
    cases hc : isDropped c with
    | false => simpa [hc] using ih.keep c
    | true =>
      have hsmall : c.toNat ≤ 32 := by
        by_contra hlarge
        rw [isDropped_visible (by omega)] at hc
        cases hc
      simpa [hc] using ih.drop hsmall

theorem Thinned.refl (text : Chars) : Thinned text text := by
  induction text with
  | nil => exact .nil
  | cons c text ih => exact ih.keep c

theorem Thinned.trans {text' : Chars} (h : Thinned rest text) (h' : Thinned text text') :
    Thinned rest text' := by
  induction h' generalizing rest with
  | nil => exact h
  | keep c _ ih =>
    cases h with
    | keep _ h => exact (ih h).keep c
    | drop hc h => exact (ih h).drop hc
  | drop hc _ ih => exact (ih h).drop hc

theorem Thinned.concat (h : Thinned rest text) {c : Char} (hc : c.toNat ≤ 32) :
    Thinned rest (text++[c]) := by
  induction h with
  | nil => exact .drop hc .nil
  | keep d _ ih => exact ih.keep d
  | drop hd _ ih => exact ih.drop hd

theorem Thinned.rdropWhile (text : Chars) : Thinned (text.rdropWhile isC0OrSpace) text := by
  induction text using List.reverseRecOn with
  | nil => exact .nil
  | append_singleton text c ih =>
    rw [List.rdropWhile_concat]
    split
    · rename_i hc
      exact ih.concat (of_decide_eq_true hc)
    · exact .refl _

theorem Thinned.cleanInner (last : Bool) (text : Chars) : Thinned (cleanInner last text) text := by
  cases last with
  | false => exact .filter text
  | true => exact (Thinned.filter _).trans (.rdropWhile text)

theorem splitFirst_cons {α : Type} [DecidableEq α] (mark c : α) (text : List α) :
    Split.splitFirst mark (c::text) = if c = mark then ([],some text)
      else (c::(Split.splitFirst mark text).1,(Split.splitFirst mark text).2) := by
  by_cases hc : c = mark
  · simp [Split.splitFirst,hc]
  · simp [Split.splitFirst,hc]

theorem Thinned.splitFirst {mark : Char} (hmark : 32 < mark.toNat) (h : Thinned rest text) :
    Thinned (Split.splitFirst mark rest).1 (Split.splitFirst mark text).1 ∧
      Option.Rel Thinned (Split.splitFirst mark rest).2 (Split.splitFirst mark text).2 := by
  induction h with
  | nil => exact ⟨.nil,.none⟩
  | keep c h ih =>
    rw [splitFirst_cons,splitFirst_cons]
    split_ifs
    · exact ⟨.nil,.some h⟩
    · exact ⟨ih.1.keep c,ih.2⟩
  | @drop c hc _ _ _ ih =>
    have hne : c ≠ mark := by
      rintro rfl
      omega
    rw [splitFirst_cons _ c,if_neg hne]
    exact ⟨ih.1.drop hc,ih.2⟩

theorem Thinned.split (h : Thinned rest text) :
    Thinned (Reference.split rest).body (Reference.split text).body ∧
      Option.Rel Thinned (Reference.split rest).query (Reference.split text).query ∧
      Option.Rel Thinned (Reference.split rest).fragment (Reference.split text).fragment := by
  obtain ⟨hfront,hfragment⟩ := @Thinned.splitFirst _ _ '#' (by decide) h
  obtain ⟨hbody,hquery⟩ := @Thinned.splitFirst _ _ '?' (by decide) hfront
  exact ⟨hbody,hquery,hfragment⟩

end Thinned

/-! ## Longer encodings -/

section Compare

variable {set set' : Char → Bool} {rest text : Chars}

theorem percentEncode_single_length (c : Char) : 3 ≤ ((String.utf8EncodeChar c).flatMap percentEncodeByte).length := by
  obtain ⟨byte,bytes,hbytes⟩ := List.exists_cons_of_ne_nil (String.utf8EncodeChar_ne_nil (c := c))
  rw [hbytes,List.flatMap_cons,List.length_append]
  exact Nat.le_add_right 3 _

/-- An encoding of fewer characters, of less text, is shorter, unless it is the same. -/
theorem percentEncode_thinner (hset : ∀ c, set c → set' c) (h : rest.Sublist text) :
    (percentEncode set rest).length ≤ (percentEncode set' text).length ∧
      ((percentEncode set' text).length ≤ (percentEncode set rest).length →
        rest = text ∧ ∀ c ∈ text, set c = set' c) := by
  induction h with
  | slnil => exact ⟨le_refl _,fun _ => ⟨rfl,by simp⟩⟩
  | @cons rest text c h ih =>
    have hone := percentEncode_length set' [c]
    rw [percentEncode_cons set' c,List.length_append]
    rw [List.length_singleton] at hone
    exact ⟨by omega,fun hle => by omega⟩
  | @cons_cons rest text c h ih =>
    rw [percentEncode_cons set c,percentEncode_cons set' c,List.length_append,List.length_append]
    have hthree := percentEncode_single_length c
    have hsingle : (percentEncode set [c]).length ≤ (percentEncode set' [c]).length ∧
        ((percentEncode set' [c]).length ≤ (percentEncode set [c]).length → set c = set' c) := by
      rw [percentEncode_single,percentEncode_single]
      cases hc : set c with
      | true => simp [hset c hc]
      | false =>
        cases hc' : set' c with
        | false => simp
        | true =>
          simp only [if_true,Bool.false_eq_true,if_false,List.length_singleton]
          exact ⟨by omega,fun hle => by omega⟩
    refine ⟨by omega,fun hle => ?_⟩
    obtain ⟨rfl,hall⟩ := ih.2 (by omega)
    refine ⟨rfl,fun d hd => ?_⟩
    rcases List.mem_cons.mp hd with rfl | hd
    · exact hsingle.2 (by omega)
    · exact hall d hd

theorem percentEncode_no_longer (h : (percentEncode set text).length ≤ text.length) :
    ∀ c ∈ text, set c = false := by
  have hnone : percentEncode (fun _ => false) text = text := percentEncode_id fun _ _ => rfl
  have hthin := (@percentEncode_thinner (fun _ => false) set text text (by simp) (List.Sublist.refl _)).2
  rw [hnone] at hthin
  exact fun c hc => ((hthin h).2 c hc).symm

theorem percentEncode_self_iff (text : Chars) :
    percentEncode set text = text ↔ ∀ c ∈ text, set c = false :=
  ⟨fun h => percentEncode_no_longer (by rw [h]),percentEncode_id⟩

theorem map_percentEncode_self_iff (o : Option Chars) :
    o.map (percentEncode set) = o ↔ ∀ q ∈ o, ∀ c ∈ q, set c = false := by
  cases o with
  | none => simp
  | some text => simpa using percentEncode_self_iff text

/-- Digits that an encoded percent sign leaves behind are none of the text's own. -/
theorem percentEncode_shift (htwo : set' '2' = false) (hfive : set' '5' = false) (text : Chars) :
    percentEncode set text ≠ '2' :: '5' :: percentEncode set' text := by
  induction hlength : text.length using Nat.strong_induction_on generalizing text with
  | _ n ih =>
    subst hlength
    intro h
    obtain ⟨text,rfl,hrest⟩ := percentEncode_head_raw (by decide) h
    rw [percentEncode_raw htwo] at hrest
    obtain ⟨text,rfl,hrest⟩ := percentEncode_head_raw (by decide) hrest.symm
    rw [percentEncode_raw hfive] at hrest
    exact ih text.length (by simp only [List.length_cons]; omega) text rfl hrest.symm

/-- Two encodings of a text are the same if they encode the same of its characters. -/
theorem percentEncode_eq_iff (hpercent : set '%' = false) (htwo : set' '2' = false)
    (hfive : set' '5' = false) (text : Chars) :
    percentEncode set text = percentEncode set' text ↔ ∀ c ∈ text, set c = set' c := by
  induction text with
  | nil => exact iff_of_true rfl (by simp)
  | cons c text ih =>
    rw [List.forall_mem_cons,← ih,percentEncode_cons set c,percentEncode_cons set' c]
    constructor
    · intro h
      have hc : set c = set' c := by
        by_contra hne
        cases hc : set c with
        | true =>
          rw [hc] at hne
          rw [← percentEncode_cons,← percentEncode_cons] at h
          obtain ⟨rest,hrest⟩ := percentEncode_percent hc text
          rw [hrest,percentEncode_raw (by simpa using Ne.symm hne)] at h
          obtain ⟨rfl,_⟩ := List.cons.inj h
          rw [hpercent] at hc
          cases hc
        | false =>
          rw [hc] at hne
          have hc' : set' c = true := by simpa using Ne.symm hne
          rw [← percentEncode_cons,← percentEncode_cons,percentEncode_raw hc] at h
          obtain ⟨rest,hrest⟩ := percentEncode_percent hc' text
          rw [hrest] at h
          obtain ⟨rfl,_⟩ := List.cons.inj h
          have htwice : percentEncode set' ('%' :: text) = '%' :: '2' :: '5' :: percentEncode set' text := by
            rw [percentEncode_cons,percentEncode_single,if_pos hc']
            rfl
          rw [← hrest,htwice] at h
          exact percentEncode_shift htwo hfive text (List.cons.inj h).2
      refine ⟨hc,?_⟩
      rw [percentEncode_single,percentEncode_single,hc] at h
      exact List.append_cancel_left h
    · rintro ⟨hc,htext⟩
      rw [percentEncode_single,percentEncode_single,hc,htext]

/-- An encoding that leaves percent signs and digits as they are keeps escapes. -/
theorem kept_encoding (hpercent : set '%' = false) (hhex : ∀ c, Rfc3986.isHexDigit c → set c = false)
    (text : Chars) : Kept text (percentEncode set text) := by
  induction text using escape_induction with
  | nil => exact .nil
  | escape a b text ha hb ih =>
    rw [percentEncode_cons,percentEncode_cons set a,percentEncode_cons set b,percentEncode_single,
      percentEncode_single,percentEncode_single,hpercent,hhex a ha,hhex b hb]
    exact .escape ha hb ih
  | raw c text hc ih =>
    rw [percentEncode_cons]
    exact ih.one hc set

/-- Two encodings of a text, with less of it in one, are not the same. -/
theorem percentEncode_inj (hpercent : set '%' = false) (hhex : ∀ c, Rfc3986.isHexDigit c → set c = false)
    (hpercent' : set' '%') (h : rest.Sublist text)
    (heq : percentEncode set rest = percentEncode set' text) : rest = text := by
  have hdecode := (kept_encoding hpercent hhex rest).decode
  rw [heq,percentDecode_percentEncode hpercent'] at hdecode
  have hlength := lossy_length rest sound_none
  rw [← hdecode,lossy_text,flush_none,List.length_nil,Nat.zero_add] at hlength
  exact h.eq_of_length_le (by omega)

end Compare

/-! ## Paths -/

section Paths

variable {path segments : List Chars} {segment rest text : Chars} {set : Char → Bool}

/-- A scheme like `ftp` has nothing of its own in its paths. -/
theorem pushAllOf_ftp (path segments : List Chars) : pushAllOf ftp path segments = pushAll path segments := by
  have hfile : ftp ≠ file := by decide
  have hpush : pushOf ftp = push := by
    funext path segment last
    simp [pushOf,push,shorten,segmentOf,hfile]
  induction segments generalizing path with
  | nil => rfl
  | cons segment segments ih =>
    cases segments with
    | nil => simp only [pushAllOf,pushAll,hpush]
    | cons next segments =>
      change pushAllOf ftp (pushOf ftp path segment false) (next::segments) =
        pushAll (push path segment false) (next::segments)
      rw [hpush,ih]

theorem parsePathOf_ftp (text : Chars) : parsePathOf ftp text = parsePath [] text := by
  rw [parsePathOf,parsePath,pushAllOf_ftp,isSlashOf_special (by decide)]

theorem isDot_ne_nil (h : isDot segment) : segment ≠ [] := by
  rintro rfl
  exact absurd h (by decide)

theorem push_dot_length (h : isDot segment) (path : List Chars) (last : Bool) :
    textLength (push path segment last) < textLength path+(segment.length+1) := by
  have hdrop := textLength_dropLast path
  have hlength := List.length_pos_of_ne_nil (isDot_ne_nil h)
  unfold push
  split_ifs with hdouble hlast hsingle
  · simp only [textLength_append,textLength_cons,textLength_nil,List.length_nil]
    omega
  · omega
  · simp only [textLength_append,textLength_cons,textLength_nil,List.length_nil]
    omega
  · omega
  · simp [isDot,hdouble,hsingle] at h

theorem pushAll_dot_length (h : ∃ segment ∈ segments, isDot segment) (path : List Chars) :
    textLength (pushAll path segments) < textLength path+textLength segments := by
  induction segments generalizing path with
  | nil => simp at h
  | cons segment segments ih =>
    cases segments with
    | nil =>
      have hdot : isDot segment := by simpa using h
      simpa [pushAll] using push_dot_length hdot path true
    | cons next segments =>
      change textLength (pushAll (push path segment false) (next::segments)) < _
      rw [textLength_cons segment]
      by_cases hdot : isDot segment
      · have hpush := push_dot_length hdot path false
        have hrest := pushAll_length (push path segment false) (next::segments)
        omega
      · have hpush := push_length path segment false
        have hrest := ih (by simpa [hdot] using h) (push path segment false)
        omega

theorem textLength_split {p : Char → Bool} (hp : ∀ c, p c → set c = false) (text : Chars) :
    textLength ((text.splitOnP p).map (percentEncode set)) = (percentEncode set text).length+1 := by
  induction text with
  | nil => rfl
  | cons c text ih =>
    rw [List.splitOnP_cons_eq_if_modifyHead]
    split
    · rename_i hc
      rw [List.map_cons,textLength_cons,ih,percentEncode_raw (hp c hc)]
      simp only [percentEncode,List.flatMap_nil,List.length_nil,List.length_cons]
      omega
    · obtain ⟨segment,segments,hsplit⟩ := List.exists_cons_of_ne_nil (List.splitOnP_ne_nil p text)
      rw [hsplit,List.map_cons,textLength_cons] at ih
      rw [hsplit,List.modifyHead_cons,List.map_cons,textLength_cons,percentEncode_cons,
        percentEncode_cons set c text,List.length_append,List.length_append]
      omega

theorem text_map_splitOn (hslash : set '/' = false) (text : Chars) :
    (Path.segments ((text.splitOn '/').map (percentEncode set))).text = '/' :: percentEncode set text := by
  have hwhole := text_splitOn text
  simp only [Path.text] at hwhole ⊢
  rw [← percentEncode_raw hslash,← hwhole]
  generalize text.splitOn '/' = segments
  induction segments with
  | nil => rfl
  | cons segment segments ih =>
    rw [List.map_cons,List.flatMap_cons,ih,List.flatMap_cons,List.cons_append,List.cons_append,
      percentEncode_raw hslash,percentEncode_append]

/-! ## Dot segments -/

/-- How dot segments are written, but for the case of their letters. -/
def dotPatterns : List Chars :=
  [['.'],['%','2','e'],['.','.'],['.','%','2','e'],['%','2','e','.'],['%','2','e','%','2','e']]

def eitherCase (c : Char) : Chars := if c = 'e' then ['e','E'] else [c]

theorem toLower_dot {c d : Char} (h : c.toLower = d) (hd : d ∈ ['.','%','2','e']) : c ∈ eitherCase d := by
  have hall : ∀ n < 128, (Char.ofNat n).toLower ∈ ['.','%','2','e'] →
      Char.ofNat n ∈ eitherCase (Char.ofNat n).toLower := by decide
  by_cases hsmall : c.toNat < 128
  · have hc := hall c.toNat hsmall
    rw [Char.ofNat_toNat,h] at hc
    exact hc hd
  · have hsame : c.toLower = c := by
      unfold Char.toLower
      rw [dif_neg]
      rintro ⟨_,hle⟩
      have hle : c.toNat ≤ 90 := UInt32.le_iff_toNat_le.mp hle
      omega
    rw [hsame] at h
    have hasci : ∀ d ∈ ['.','%','2','e'], d.toNat < 128 := List.all_iff_forall_prop.mp (by decide)
    exact absurd (h ▸ hasci d hd) hsmall

theorem isDot_mem (h : isDot segment) : ∃ pattern ∈ dotPatterns, segment ∈ (pattern.map eitherCase).sections := by
  have hpattern : segment.map Char.toLower ∈ dotPatterns := by
    simp only [isDot,isSingleDot,isDoubleDot,Bool.or_eq_true,List.contains_iff_mem,List.mem_cons,
      List.not_mem_nil,or_false] at h
    simp only [dotPatterns,List.mem_cons,List.not_mem_nil,or_false]
    tauto
  have hchars : ∀ pattern ∈ dotPatterns, pattern ⊆ ['.','%','2','e'] := by decide
  refine ⟨_,hpattern,List.mem_sections.mpr ?_⟩
  rw [List.map_map,List.forall₂_map_right_iff,List.forall₂_same]
  intro c hc
  exact toLower_dot rfl (hchars _ hpattern (List.mem_map_of_mem hc))

/-- A dot segment is written with characters that stay, and decoded to a dot segment. -/
theorem isDot_decode (h : isDot segment) : (∀ c ∈ segment, pathSet c = false) ∧
    isDot (lossy none (percentDecode segment)) := by
  have hall : ∀ pattern ∈ dotPatterns, ∀ segment ∈ (pattern.map eitherCase).sections,
      segment.all (!pathSet ·) ∧ isDot (lossy none (percentDecode segment)) := by decide
  obtain ⟨pattern,hpattern,hsegment⟩ := isDot_mem h
  simpa using hall pattern hpattern segment hsegment

theorem hasEscape_of_not_mem (h : '%' ∉ text) : hasEscape text = false := by
  induction text with
  | nil => rfl
  | cons c text ih =>
    obtain ⟨hc,htext⟩ := not_or.mp (mt List.mem_cons.mpr h)
    rw [hasEscape,startsEscape_of_ne (Ne.symm hc),ih htext]
    rfl

theorem isPathChar_small {c : Char} (h : Rfc3986.isPathChar c) : c.toNat < 128 := by
  simp only [Rfc3986.isPathChar,Rfc3986.isPchar,Rfc3986.isUserinfoChar,Rfc3986.isUnreserved,
    Rfc3986.isSubDelim,Bool.or_eq_true,decide_eq_true_eq,List.contains_iff_mem] at h
  rcases h with ((((halnum | hmem) | hmem) | rfl) | rfl) | rfl
  · exact isSchemeChar_small (by simp [isSchemeChar,halnum])
  · have hall : ∀ c ∈ ['-','.','_','~'], c.toNat < 128 := List.all_iff_forall_prop.mp (by decide)
    exact hall c hmem
  · have hall : ∀ c ∈ ['!','$','&',Char.ofNat 39,'(',')','*','+',',',';','='], c.toNat < 128 :=
      List.all_iff_forall_prop.mp (by decide)
    exact hall c hmem
  · decide
  · decide
  · decide

theorem pathSet_isPathChar {c : Char} (h : Rfc3986.isPathChar c) : pathSet c = false := by
  have hall : ∀ n < 128, Rfc3986.isPathChar (Char.ofNat n) → pathSet (Char.ofNat n) = false := by
    decide +kernel
  have hc := hall c.toNat (isPathChar_small h)
  rw [Char.ofNat_toNat] at hc
  exact hc h

theorem isHexDigit_isPathChar {c : Char} (h : Rfc3986.isHexDigit c) : Rfc3986.isPathChar c := by
  simp [Rfc3986.isPathChar,Rfc3986.isPchar,Rfc3986.isHexDigit_userinfo h]

theorem isHexDigit_stays {c : Char} (h : Rfc3986.isHexDigit c) :
    pathSet c = false ∧ specialQuerySet c = false ∧ fragmentSet c = false := by
  have hall : ∀ n < 128, Rfc3986.isHexDigit (Char.ofNat n) → pathSet (Char.ofNat n) = false ∧
      specialQuerySet (Char.ofNat n) = false ∧ fragmentSet (Char.ofNat n) = false := by decide +kernel
  have hc := hall c.toNat (isPathChar_small (isHexDigit_isPathChar h))
  rw [Char.ofNat_toNat] at hc
  exact hc h

theorem isDot_percentEncode (hpercent : '%' ∉ segment) :
    isDot (percentEncode pathSet segment) = isDot segment := by
  rw [Bool.eq_iff_iff]
  constructor
  · intro h
    have hdecode := (kept_encoding (by decide) (fun c hc => (isHexDigit_stays hc).1) segment).decode
    have hdot := (isDot_decode h).2
    rwa [hdecode,(lossy_eq_iff segment).mpr (hasEscape_of_not_mem hpercent)] at hdot
  · intro h
    rwa [percentEncode_id (isDot_decode h).1]

theorem percentEncode_congr {set' : Char → Bool} (h : ∀ c ∈ text, set c = set' c) :
    percentEncode set text = percentEncode set' text :=
  List.flatMap_congr fun c hc => by rw [h c hc]

/-- The segments of a path with slashes and without percent signs. -/
theorem map_segments (hback : '\\' ∉ text) (hpercent : '%' ∉ text) :
    text.splitOnP isSlash = text.splitOn '/' ∧
      ((text.splitOn '/').map (percentEncode pathSet)).any isDot = hasDotSegment text := by
  constructor
  · refine splitOnP_congr fun c hc => ?_
    have hne : c ≠ '\\' := by
      rintro rfl
      exact hback hc
    rw [isSlash,decide_eq_false hne,Bool.or_false,beq_eq_decide]
  · have hsame : ∀ segment ∈ text.splitOn '/', isDot (percentEncode pathSet segment) = isDot segment :=
      fun segment hsegment => isDot_percentEncode fun hmem => hpercent (mem_splitOnP hsegment _ hmem).1
    rw [hasDotSegment,Bool.eq_iff_iff,List.any_map,List.any_eq_true,List.any_eq_true]
    refine exists_congr fun segment => and_congr_right fun hsegment => ?_
    rw [Function.comp_apply,hsame segment hsegment]

theorem hasDotSegment_append (a b : Chars) :
    hasDotSegment (a++ '/' :: b) = (hasDotSegment a || hasDotSegment b) := by
  have hsplit : (a++ '/' :: b).splitOn '/' = a.splitOn '/'++b.splitOn '/' :=
    List.splitOnP_append_cons a b (by simp)
  rw [hasDotSegment,hsplit,List.any_append]
  rfl

theorem hasDotSegment_cons (text : Chars) : hasDotSegment ('/' :: text) = hasDotSegment text :=
  hasDotSegment_append [] text

theorem hasDotSegment_single (h : '/' ∉ segment) : hasDotSegment segment = isDot segment := by
  have hplain : ∀ c ∈ segment, (c == '/') = false := by
    intro c hc
    have hne : c ≠ '/' := by
      rintro rfl
      exact h hc
    simpa using hne
  have hsplit : segment.splitOn '/' = [segment] := List.splitOnP_eq_singleton hplain
  rw [hasDotSegment,hsplit]
  simp

theorem hasDotSegment_segments (h : ∀ segment ∈ segments, '/' ∉ segment) :
    hasDotSegment (Path.segments segments).text = segments.any isDot := by
  induction segments with
  | nil => rfl
  | cons segment segments ih =>
    obtain ⟨hsegment,hsegments⟩ := List.forall_mem_cons.mp h
    have htext : (Path.segments (segment::segments)).text =
        '/' :: (segment++(Path.segments segments).text) := by simp [Path.text]
    rw [htext,hasDotSegment_cons,List.any_cons,← ih hsegments,← hasDotSegment_single hsegment]
    cases segments with
    | nil =>
      have hnil : hasDotSegment (Path.segments []).text = false := by decide
      rw [hnil,Bool.or_false]
      exact congrArg hasDotSegment (List.append_nil segment)
    | cons next segments =>
      have hnext : (Path.segments (next::segments)).text =
          '/' :: (next++(Path.segments segments).text) := by simp [Path.text]
      rw [hnext,hasDotSegment_append,hasDotSegment_cons]

theorem hasDotSegment_percentEncode (hslash : set '/' = false) (hpercent : set '%')
    (h : hasDotSegment text = false) : hasDotSegment (percentEncode set text) = false := by
  have hnames : ∀ name ∈ (text.splitOn '/').map (percentEncode set), '/' ∉ name := by
    intro name hname hc
    obtain ⟨segment,hsegment,rfl⟩ := List.mem_map.mp hname
    refine percentEncode_mem (P := (· ≠ '/')) (by decide) (by decide) ?_ _ hc rfl
    rintro c hc _ rfl
    have hnot := (mem_splitOnP hsegment _ hc).2
    simp at hnot
  rw [← hasDotSegment_cons,← text_map_splitOn hslash,hasDotSegment_segments hnames,List.any_eq_false]
  intro name hname hdot
  obtain ⟨segment,hsegment,rfl⟩ := List.mem_map.mp hname
  have hdecode := (isDot_decode hdot).2
  rw [percentDecode_percentEncode hpercent,lossy_text] at hdecode
  rw [hasDotSegment,List.any_eq_false] at h
  exact h segment hsegment hdecode

/-- What a special URL writes for a path is the path, encoded otherwise, if and only if nothing of it
is dropped, the two encodings agree on it and it has no dot segments. -/
theorem parsePath_text_iff (hset : ∀ c, pathSet c → set c) (hback : set '\\') (hpercent : set '%')
    (h : rest.Sublist text) :
    (Path.segments (parsePath [] rest)).text = '/' :: percentEncode set text ↔
      rest = text ∧ (∀ c ∈ text, pathSet c = set c) ∧ hasDotSegment text = false := by
  have hraw : ∀ d, set d → pathSet d = false → (∀ c ∈ text, pathSet c = set c) → d ∉ text := by
    intro d hd hpath hagree hmem
    rw [hagree d hmem,hd] at hpath
    cases hpath
  have hslashes : ∀ c, isSlash c → pathSet c = false := by
    intro c hc
    simp only [isSlash,Bool.or_eq_true,decide_eq_true_eq] at hc
    rcases hc with rfl | rfl
    · decide
    · decide
  obtain ⟨hthin,hequal⟩ := percentEncode_thinner hset h
  have hsegments := textLength_split hslashes rest
  constructor
  · intro htext
    have hlength := textLength_eq (parsePath [] rest)
    rw [htext,List.length_cons] at hlength
    have hnodot : ¬∃ segment ∈ (rest.splitOnP isSlash).map (percentEncode pathSet), isDot segment := by
      intro hdot
      have hshort := pushAll_dot_length hdot []
      rw [← parsePath,textLength_nil] at hshort
      omega
    have hlong := pushAll_length [] ((rest.splitOnP isSlash).map (percentEncode pathSet))
    rw [← parsePath,textLength_nil] at hlong
    obtain ⟨rfl,hagree⟩ := hequal (by omega)
    refine ⟨rfl,hagree,?_⟩
    obtain ⟨hsplit,hany⟩ := map_segments (hraw _ hback (by decide) hagree) (hraw _ hpercent (by decide) hagree)
    rw [hsplit] at hnodot
    rw [← hany]
    simpa using hnodot
  · rintro ⟨rfl,hagree,hdot⟩
    obtain ⟨hsplit,hany⟩ := map_segments (hraw _ hback (by decide) hagree) (hraw _ hpercent (by decide) hagree)
    have hnodot : ∀ segment ∈ (rest.splitOn '/').map (percentEncode pathSet), isDot segment = false := by
      rw [← hany,List.any_eq_false] at hdot
      simpa using hdot
    rw [parsePath,hsplit,pushAll_eq hnodot,List.nil_append,text_map_splitOn (by decide),
      percentEncode_congr hagree]

end Paths

end Whatwg
