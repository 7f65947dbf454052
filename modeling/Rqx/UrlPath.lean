import Rqx.Url

/-! Percent encoding, and the path state of the WHATWG URL parser for special URLs: what it
makes of a text, and how long and how plain the result is. -/
namespace Whatwg

/-! ## Percent encoding -/

def hexDigit (n : ℕ) : Char := if n < 10 then Char.ofNat (48+n) else Char.ofNat (55+n)

def percentEncodeByte (b : UInt8) : Chars :=
  ['%',hexDigit (b.toNat/16),hexDigit (b.toNat%16)]

def percentEncode (set : Char → Bool) (text : Chars) : Chars :=
  text.flatMap fun c =>
    if set c then (String.utf8EncodeChar c).flatMap percentEncodeByte else [c]

def c0ControlSet (c : Char) : Bool := c.toNat < 32 || 126 < c.toNat

/-- 34 and 96 are the quotation mark and the grave accent. -/
def fragmentSet (c : Char) : Bool :=
  c0ControlSet c || [' ',Char.ofNat 34,'<','>',Char.ofNat 96].contains c

def querySet (c : Char) : Bool :=
  c0ControlSet c || [' ',Char.ofNat 34,'#','<','>'].contains c

theorem querySet_visible {c : Char} (h : querySet c = false) : c ≠ '#' ∧ 32 < c.toNat := by
  simp only [querySet,c0ControlSet,Bool.or_eq_false_iff,decide_eq_false_iff_not,
    List.contains_eq_mem,List.mem_cons,List.not_mem_nil,or_false,not_or] at h
  have hspace : c.toNat ≠ 32 := fun he => h.2.1 (Char.toNat_inj.mp he)
  exact ⟨h.2.2.2.1,by omega⟩

def specialQuerySet (c : Char) : Bool := querySet c || c = Char.ofNat 39

def pathSet (c : Char) : Bool :=
  querySet c || ['?',Char.ofNat 96,'{','}'].contains c

def userinfoSet (c : Char) : Bool :=
  pathSet c || ['/',':',';','=','@','[','\\',']','^','|'].contains c

theorem percentEncode_id {set : Char → Bool} {text : Chars} (h : ∀ c ∈ text, set c = false) :
    percentEncode set text = text := by
  induction text with
  | nil => rfl
  | cons c text ih =>
    have hc : set c = false := h c (by simp)
    have ht : percentEncode set text = text := ih fun d hd => h d (by simp [hd])
    simp only [percentEncode] at ht
    simp [percentEncode,hc,ht]

theorem percentEncode_cons (set : Char → Bool) (c : Char) (text : Chars) :
    percentEncode set (c::text) = percentEncode set [c]++percentEncode set text := by
  simp [percentEncode]

theorem percentEncode_append (set : Char → Bool) (a b : Chars) :
    percentEncode set (a++b) = percentEncode set a++percentEncode set b :=
  List.flatMap_append

theorem percentEncode_raw {set : Char → Bool} {c : Char} (hc : set c = false) (text : Chars) :
    percentEncode set (c::text) = c::percentEncode set text := by
  simp [percentEncode,hc]

theorem percentEncode_length (set : Char → Bool) (text : Chars) :
    text.length ≤ (percentEncode set text).length := by
  induction text with
  | nil => exact le_refl _
  | cons c text ih =>
    have hone : 1 ≤ (percentEncode set [c]).length := by
      cases hc : set c with
      | false => simp [percentEncode,hc]
      | true =>
        obtain ⟨b,bytes,hb⟩ := List.exists_cons_of_ne_nil (String.utf8EncodeChar_ne_nil (c := c))
        simp [percentEncode,hc,hb,percentEncodeByte]
    rw [percentEncode_cons,List.length_append,List.length_cons]
    omega

/-- Whatever is encoded becomes percent signs and hexadecimal digits. -/
theorem percentEncode_mem {P : Char → Prop} {set : Char → Bool} {text : Chars}
    (hpercent : P '%') (hhex : ∀ n < 16, P (hexDigit n))
    (htext : ∀ c ∈ text, set c = false → P c) : ∀ c ∈ percentEncode set text, P c := by
  intro x hx
  obtain ⟨c,hc,hx⟩ := List.mem_flatMap.mp hx
  cases hset : set c with
  | false =>
    obtain rfl : x = c := by simpa [hset] using hx
    exact htext x hc hset
  | true =>
    rw [if_pos hset] at hx
    obtain ⟨b,_,hb⟩ := List.mem_flatMap.mp hx
    have hb256 : b.toNat < 256 := b.toNat_lt
    simp only [percentEncodeByte,List.mem_cons,List.not_mem_nil,or_false] at hb
    rcases hb with rfl | rfl | rfl
    · exact hpercent
    · exact hhex _ (by omega)
    · exact hhex _ (Nat.mod_lt _ (by decide))

theorem map_percentEncode_hash {set : Char → Bool} {query : Option Chars} (h : ∀ q ∈ query, '#' ∉ q) :
    ∀ q ∈ query.map (percentEncode set), '#' ∉ q := by
  intro q hq hc
  obtain ⟨raw,hraw,rfl⟩ := Option.map_eq_some_iff.mp hq
  refine percentEncode_mem (P := (· ≠ '#')) (by decide) (by decide) ?_ _ hc rfl
  rintro d hd _ rfl
  exact h raw hraw hd

/-! ## Paths -/

/-- In special URLs the backslash is a slash. -/
def isSlash (c : Char) : Bool := c = '/' || c = '\\'

/-- What stays as it is in a segment of a special URL's path. -/
def plain (c : Char) : Bool := !pathSet c && !isSlash c

theorem plain_iff {c : Char} : plain c ↔ pathSet c = false ∧ isSlash c = false := by
  simp [plain]

theorem plain_visible {c : Char} (h : plain c) :
    c ≠ '#' ∧ c ≠ '?' ∧ c ≠ '\\' ∧ 32 < c.toNat := by
  obtain ⟨hpath,hslash⟩ := plain_iff.mp h
  have hquery : querySet c = false := by
    simp only [pathSet,Bool.or_eq_false_iff] at hpath
    exact hpath.1
  obtain ⟨hhash,hlow⟩ := querySet_visible hquery
  refine ⟨hhash,?_,?_,hlow⟩
  · rintro rfl
    exact absurd hpath (by decide)
  · rintro rfl
    exact absurd hslash (by decide)

def isSingleDot (segment : Chars) : Bool :=
  [['.'],['%','2','e']].contains (segment.map Char.toLower)

def isDoubleDot (segment : Chars) : Bool :=
  [['.','.'],['.','%','2','e'],['%','2','e','.'],['%','2','e','%','2','e']].contains
    (segment.map Char.toLower)

def isDot (segment : Chars) : Bool := isSingleDot segment || isDoubleDot segment

/-- A `.` or `..` segment, raw or percent-encoded. -/
def hasDotSegment (path : Chars) : Bool := (path.splitOn '/').any isDot

/-- The path state at the end of a segment, `last` if no slash follows it. -/
def push (path : List Chars) (segment : Chars) (last : Bool) : List Chars :=
  if isDoubleDot segment then if last then path.dropLast++[[]] else path.dropLast
  else if isSingleDot segment then if last then path++[[]] else path
  else path++[segment]

def pushAll (path : List Chars) : List Chars → List Chars
  | [] => path
  | [segment] => push path segment true
  | segment::segments => pushAll (push path segment false) segments

/-- The path state over `text`, when `path` is there already. -/
def parsePath (path : List Chars) (text : Chars) : List Chars :=
  pushAll path ((text.splitOnP isSlash).map (percentEncode pathSet))

theorem push_eq {path : List Chars} {segment : Chars} {last : Bool} (h : isDot segment = false) :
    push path segment last = path++[segment] := by
  simp only [isDot,Bool.or_eq_false_iff] at h
  simp [push,h.1,h.2]

theorem pushAll_eq {path segments : List Chars} (h : ∀ s ∈ segments, isDot s = false) :
    pushAll path segments = path++segments := by
  induction segments generalizing path with
  | nil => simp [pushAll]
  | cons s segments ih =>
    have hs : ∀ last, push path s last = path++[s] := fun _ => push_eq (h s (by simp))
    cases segments with
    | nil => simp [pushAll,hs]
    | cons s' segments =>
      rw [pushAll,hs,ih fun t ht => h t (by simp [ht])]
      · simp
      · simp

theorem pushAll_concat_nil (path segments : List Chars) :
    ∃ dirs, pushAll path (segments++[[]]) = dirs++[[]] := by
  have hnil : isDot [] = false := by decide
  induction segments generalizing path with
  | nil => exact ⟨path,by simp [pushAll,push_eq hnil]⟩
  | cons s segments ih =>
    obtain ⟨s',segments',hs⟩ := List.exists_cons_of_ne_nil
      (l := segments++[[]]) (by simp)
    obtain ⟨dirs,hdirs⟩ := ih (push path s false)
    refine ⟨dirs,?_⟩
    rw [List.cons_append,hs,pushAll,← hs,hdirs]
    simp

theorem mem_push {path : List Chars} {segment t : Chars} {last : Bool}
    (h : t ∈ push path segment last) : t ∈ path ∨ t = segment ∨ t = [] := by
  have hdrop : ∀ {t}, t ∈ path.dropLast → t ∈ path := fun ht => List.dropLast_subset path ht
  unfold push at h
  split at h
  · split at h
    · exact (List.mem_append.mp h).imp hdrop fun h => .inr (List.mem_singleton.mp h)
    · exact .inl (hdrop h)
  · split at h
    · split at h
      · exact (List.mem_append.mp h).imp_right fun h => .inr (List.mem_singleton.mp h)
      · exact .inl h
    · exact (List.mem_append.mp h).imp_right fun h => .inl (List.mem_singleton.mp h)

theorem mem_pushAll {path segments : List Chars} {t : Chars} (h : t ∈ pushAll path segments) :
    t ∈ path ∨ t ∈ segments ∨ t = [] := by
  induction segments generalizing path with
  | nil => exact .inl h
  | cons s segments ih =>
    cases segments with
    | nil =>
      rcases mem_push h with h | h | h
      · exact .inl h
      · exact .inr (.inl (by simp [h]))
      · exact .inr (.inr h)
    | cons s' segments =>
      rcases ih h with h | h | h
      · rcases mem_push h with h | h | h
        · exact .inl h
        · exact .inr (.inl (by simp [h]))
        · exact .inr (.inr h)
      · exact .inr (.inl (List.mem_cons_of_mem _ h))
      · exact .inr (.inr h)

/-- The length of the path as text. -/
def textLength : List Chars → ℕ
  | [] => 0
  | name::names => name.length+1+textLength names

theorem textLength_eq (names : List Chars) :
    (Path.segments names).text.length = textLength names := by
  induction names with
  | nil => rfl
  | cons name names ih =>
    simp only [Path.text] at ih
    simp only [Path.text,List.flatMap_cons,List.length_append,List.length_cons,ih,textLength]

@[simp] theorem textLength_nil : textLength [] = 0 := rfl

@[simp] theorem textLength_cons (name : Chars) (names : List Chars) :
    textLength (name::names) = name.length+1+textLength names := rfl

@[simp] theorem textLength_append (names names' : List Chars) :
    textLength (names++names') = textLength names+textLength names' := by
  induction names with
  | nil => simp
  | cons name names ih => simp [ih,Nat.add_assoc]

theorem textLength_dropLast (names : List Chars) :
    textLength names.dropLast ≤ textLength names := by
  induction names with
  | nil => simp
  | cons name names ih =>
    cases names with
    | nil => simp
    | cons name' names => simpa using ih

theorem push_length (path : List Chars) (segment : Chars) (last : Bool) :
    textLength (push path segment last) ≤ textLength path+(segment.length+1) := by
  have h := textLength_dropLast path
  unfold push
  split
  · split
    · simp only [textLength_append,textLength_cons,textLength_nil,List.length_nil]
      omega
    · omega
  · split
    · split <;> simp
    · simp

theorem pushAll_length (path segments : List Chars) :
    textLength (pushAll path segments) ≤ textLength path+textLength segments := by
  induction segments generalizing path with
  | nil => simp [pushAll]
  | cons s segments ih =>
    cases segments with
    | nil => simpa [pushAll] using push_length path s true
    | cons s' segments =>
      have h := push_length path s false
      have h' := ih (push path s false)
      rw [pushAll,textLength_cons]
      · omega
      · simp

section Split

variable {p : Char → Bool} {text : Chars}

theorem mem_splitOnP {segment : Chars} (h : segment ∈ text.splitOnP p) :
    ∀ c ∈ segment, c ∈ text ∧ p c = false := by
  induction text generalizing segment with
  | nil =>
    obtain rfl : segment = [] := by simpa using h
    simp
  | cons c text ih =>
    rw [List.splitOnP_cons_eq_if_modifyHead] at h
    split at h
    · rcases List.mem_cons.mp h with rfl | h
      · simp
      · exact fun d hd => ⟨.tail _ (ih h d hd).1,(ih h d hd).2⟩
    · rename_i hc
      obtain ⟨s,segments,hs⟩ := List.exists_cons_of_ne_nil (List.splitOnP_ne_nil p text)
      rw [hs,List.modifyHead_cons] at h
      have hmem : ∀ t ∈ s::segments, ∀ d ∈ t, d ∈ text ∧ p d = false := fun t ht =>
        ih (hs ▸ ht)
      intro d hd
      rcases List.mem_cons.mp h with rfl | h
      · rcases List.mem_cons.mp hd with rfl | hd
        · exact ⟨.head _,by simpa using hc⟩
        · exact ⟨.tail _ (hmem s (by simp) d hd).1,(hmem s (by simp) d hd).2⟩
      · exact ⟨.tail _ (hmem segment (by simp [h]) d hd).1,(hmem segment (by simp [h]) d hd).2⟩

theorem splitOnP_length : textLength (text.splitOnP p) = text.length+1 := by
  induction text with
  | nil => simp
  | cons c text ih =>
    rw [List.splitOnP_cons_eq_if_modifyHead]
    split
    · simp [ih]
      omega
    · obtain ⟨s,segments,hs⟩ := List.exists_cons_of_ne_nil (List.splitOnP_ne_nil p text)
      rw [hs,textLength_cons] at ih
      simp only [hs,List.modifyHead_cons,textLength_cons,List.length_cons]
      omega

theorem splitOnP_congr {q : Char → Bool} (h : ∀ c ∈ text, p c = q c) :
    text.splitOnP p = text.splitOnP q := by
  induction text with
  | nil => rfl
  | cons c text ih =>
    rw [List.splitOnP_cons_eq_if_modifyHead,List.splitOnP_cons_eq_if_modifyHead,h c (by simp),
      ih fun d hd => h d (by simp [hd])]

end Split

theorem text_append (names names' : List Chars) :
    (Path.segments (names++names')).text =
      (Path.segments names).text++(Path.segments names').text := by
  simp [Path.text]

theorem text_splitOn (text : Chars) : (Path.segments (text.splitOn '/')).text = '/' :: text :=
  Split.splitOn_flatMap '/' text

section ParsePath

variable (path : List Chars) {text : Chars}

theorem parsePath_plain {path : List Chars} (hpath : ∀ name ∈ path, ∀ c ∈ name, plain c) :
    ∀ name ∈ parsePath path text, ∀ c ∈ name, plain c := by
  intro name hname
  rcases mem_pushAll hname with h | h | rfl
  · exact hpath name h
  · obtain ⟨segment,hsegment,rfl⟩ := List.mem_map.mp h
    exact percentEncode_mem (P := fun c => plain c) (by decide) (by decide)
      fun c hc hset => plain_iff.mpr ⟨hset,(mem_splitOnP hsegment c hc).2⟩
  · simp

theorem map_percentEncode (h : ∀ c ∈ text, plain c ∨ isSlash c) :
    (text.splitOnP isSlash).map (percentEncode pathSet) = text.splitOnP isSlash := by
  have hid : ∀ s ∈ text.splitOnP isSlash, percentEncode pathSet s = id s := by
    intro s hs
    refine percentEncode_id fun c hc => ?_
    obtain ⟨hmem,hslash⟩ := mem_splitOnP hs c hc
    rcases h c hmem with hp | hp
    · exact (plain_iff.mp hp).1
    · simp [hp] at hslash
  rw [List.map_congr_left hid,List.map_id]

theorem parsePath_length (h : ∀ c ∈ text, plain c ∨ isSlash c) :
    textLength (parsePath path text) ≤ textLength path+(text.length+1) := by
  rw [parsePath,map_percentEncode h,← splitOnP_length (p := isSlash)]
  exact pushAll_length _ _

theorem parsePath_slash (path : List Chars) (text : Chars) :
    ∃ dirs, parsePath path (text++['/']) = dirs++[[]] := by
  rw [parsePath,List.splitOnP_append_cons text [] (by decide : isSlash '/' = true)]
  simpa [percentEncode] using pushAll_concat_nil path _

theorem parsePath_eq (h : ∀ c ∈ text, plain c ∨ c = '/') (hdot : hasDotSegment text = false) :
    parsePath path text = path++text.splitOn '/' := by
  have hsplit : text.splitOnP isSlash = text.splitOn '/' := by
    refine splitOnP_congr fun c hc => ?_
    rcases h c hc with hp | rfl
    · have hslash := (plain_iff.mp hp).2
      have hne : c ≠ '/' := by
        rintro rfl
        exact absurd hslash (by decide)
      simp [hslash,hne]
    · rfl
  rw [parsePath,map_percentEncode fun c hc => (h c hc).imp_right fun he => by simp [isSlash,he],
    hsplit,pushAll_eq]
  simpa [hasDotSegment] using hdot

end ParsePath

end Whatwg
