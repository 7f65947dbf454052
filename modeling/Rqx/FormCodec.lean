import Rqx.UrlPath
import Rqx.Split
import Rqx.Rfc3986

/-! `application/x-www-form-urlencoded`: how a list of pairs is written into a query, and how it is
read out of one. -/
namespace Whatwg
namespace Form
open Split

/-! ## Writing -/

/-- The bytes that are written as they are: letters, digits and `*-._`. -/
def isPlain (b : UInt8) : Bool :=
  (48 ≤ b && b ≤ 57) || (65 ≤ b && b ≤ 90) || (97 ≤ b && b ≤ 122) || [42,45,46,95].contains b

def encodeByte (b : UInt8) : Chars :=
  if isPlain b then [Char.ofNat b.toNat] else if b = 32 then ['+'] else percentEncodeByte b

def encodeBytes (bytes : List UInt8) : Chars := bytes.flatMap encodeByte

def encode (text : String) : Chars := encodeBytes text.toUTF8.data.toList

def encodePair (pair : String × String) : Chars := encode pair.1++ '=' :: encode pair.2

def serialize (pairs : List (String × String)) : Chars := ['&'].intercalate (pairs.map encodePair)

/-! ## Reading -/

def hexValue (c : Char) : Option ℕ :=
  if c.isDigit then some (c.toNat-48)
  else if 'A' ≤ c ∧ c ≤ 'F' then some (c.toNat-55)
  else if 'a' ≤ c ∧ c ≤ 'f' then some (c.toNat-87)
  else none

/-- A plus sign is a space; a percent sign without two digits behind it stands for itself. -/
def decodeBytes : Chars → List UInt8
  | [] => []
  | '%' :: a::b::text =>
    match hexValue a,hexValue b with
    | some high,some low => UInt8.ofNat (16*high+low)::decodeBytes text
    | _,_ => 37::decodeBytes (a::b::text)
  | c::text => (if c = '+' then [32] else String.utf8EncodeChar c)++decodeBytes text

variable (decode : List UInt8 → String)

def parsePair (piece : Chars) : String × String :=
  let (name,value) := splitFirst '=' piece
  (decode (decodeBytes name),decode (decodeBytes (value.getD [])))

def parse (text : Chars) : List (String × String) :=
  ((text.splitOn '&').filter (· ≠ [])).map (parsePair decode)

/-! ## What is written -/

variable {decode}

/-- A byte that stays is a character of its own, and none that means something. -/
theorem isPlain_char {b : UInt8} (h : isPlain b) :
    String.utf8EncodeChar (Char.ofNat b.toNat) = [b] ∧
      (Rfc3986.isQueryChar (Char.ofNat b.toNat) ∧ specialQuerySet (Char.ofNat b.toNat) = false) ∧
      Char.ofNat b.toNat ≠ '%' ∧ Char.ofNat b.toNat ≠ '+' ∧ Char.ofNat b.toNat ≠ '=' ∧
      Char.ofNat b.toNat ≠ '&' := by
  have hall : ∀ n < 256, isPlain (UInt8.ofNat n) →
      String.utf8EncodeChar (Char.ofNat n) = [UInt8.ofNat n] ∧
        (Rfc3986.isQueryChar (Char.ofNat n) ∧ specialQuerySet (Char.ofNat n) = false) ∧
        Char.ofNat n ≠ '%' ∧ Char.ofNat n ≠ '+' ∧ Char.ofNat n ≠ '=' ∧ Char.ofNat n ≠ '&' := by
    decide +kernel
  have hb := hall b.toNat b.toNat_lt
  rw [UInt8.ofNat_toNat] at hb
  exact hb h

/-- What holds of the characters that stay, the plus sign, the percent sign and the digits holds of
what is written of bytes. -/
theorem encodeBytes_rule {P : Char → Prop} (hplain : ∀ b, isPlain b → P (Char.ofNat b.toNat))
    (hplus : P '+') (hpercent : P '%') (hhex : ∀ n < 16, P (hexDigit n)) (bytes : List UInt8) :
    ∀ c ∈ encodeBytes bytes, P c := by
  intro c hc
  obtain ⟨b,_,hc⟩ := List.mem_flatMap.mp hc
  unfold encodeByte at hc
  split at hc
  · rename_i hb
    rw [List.mem_singleton.mp hc]
    exact hplain b hb
  · split at hc
    · rwa [List.mem_singleton.mp hc]
    · have hb256 : b.toNat < 256 := b.toNat_lt
      simp only [percentEncodeByte,List.mem_cons,List.not_mem_nil,or_false] at hc
      rcases hc with rfl | rfl | rfl
      · exact hpercent
      · exact hhex _ (by omega)
      · exact hhex _ (Nat.mod_lt _ (by decide))

theorem encode_mark (text : String) : '=' ∉ encode text ∧ '&' ∉ encode text := by
  have hall : ∀ c ∈ encode text, c ≠ '=' ∧ c ≠ '&' :=
    encodeBytes_rule (fun b hb => (isPlain_char hb).2.2.2.2) (by decide) (by decide) (by decide) _
  exact ⟨fun hc => (hall _ hc).1 rfl,fun hc => (hall _ hc).2 rfl⟩

theorem encodePair_mark (pair : String × String) : '&' ∉ encodePair pair := by
  simp only [encodePair,List.mem_append,List.mem_cons,not_or]
  exact ⟨(encode_mark pair.1).2,by decide,(encode_mark pair.2).2⟩

/-- Every character of a query that is written is one that a query keeps as it is. -/
theorem serialize_plain (pairs : List (String × String)) :
    ∀ c ∈ serialize pairs, specialQuerySet c = false := by
  have hencode : ∀ text : String, ∀ c ∈ encode text, specialQuerySet c = false := fun text =>
    encodeBytes_rule (fun b hb => (isPlain_char hb).2.1.2) (by decide) (by decide) (by decide) _
  have hpair : ∀ pair : String × String, ∀ c ∈ encodePair pair, specialQuerySet c = false := by
    intro pair c hc
    rcases List.mem_append.mp hc with hc | hc
    · exact hencode _ c hc
    · rcases List.mem_cons.mp hc with rfl | hc
      · decide
      · exact hencode _ c hc
  intro c hc
  induction pairs with
  | nil => simp [serialize] at hc
  | cons pair pairs ih =>
    cases pairs with
    | nil => exact hpair pair c (by simpa [serialize] using hc)
    | cons other pairs =>
      rw [serialize,List.map_cons,List.map_cons,List.intercalate_cons_cons] at hc
      rcases List.mem_append.mp hc with hc | hc
      · rcases List.mem_append.mp hc with hc | hc
        · exact hpair pair c hc
        · rw [List.mem_singleton.mp hc]
          decide
      · exact ih hc

theorem isEncoded_append {set : Char → Bool} (hset : set '%' = false) {a b : Chars}
    (ha : Rfc3986.isEncoded set a) (hb : Rfc3986.isEncoded set b) :
    Rfc3986.isEncoded set (a++b) := by
  induction a using Rfc3986.isEncoded.induct with
  | case1 => exact hb
  | case2 x y text ih =>
    simp only [List.cons_append,Rfc3986.isEncoded,Bool.and_eq_true] at ha ⊢
    exact ⟨ha.1,ih ha.2⟩
  | case3 c text hno ih =>
    rw [Rfc3986.isEncoded,Bool.and_eq_true] at ha
    · have hc : c ≠ '%' := by
        rintro rfl
        rw [hset] at ha
        exact absurd ha.1 (by decide)
      rw [List.cons_append,Rfc3986.isEncoded,Bool.and_eq_true]
      · exact ⟨ha.1,ih ha.2⟩
      · rintro x y rest rfl
        exact absurd rfl hc
    · exact hno

theorem encodeBytes_query (bytes : List UInt8) :
    Rfc3986.isEncoded Rfc3986.isQueryChar (encodeBytes bytes) := by
  induction bytes with
  | nil => rfl
  | cons b bytes ih =>
    refine isEncoded_append (by decide) ?_ ih
    unfold encodeByte
    split
    · rename_i hb
      obtain ⟨_,⟨hquery,_⟩,hpercent,_⟩ := isPlain_char hb
      rw [Rfc3986.isEncoded]
      · simpa [Rfc3986.isEncoded] using hquery
      · rintro x y rest he
        exact absurd he hpercent
    · split
      · decide
      · have hb256 : b.toNat < 256 := b.toNat_lt
        have hdigit : ∀ n < 16, Rfc3986.isHexDigit (hexDigit n) := by decide
        simp [percentEncodeByte,Rfc3986.isEncoded,hdigit _ (by omega : b.toNat/16 < 16),
          hdigit _ (Nat.mod_lt _ (by decide) : b.toNat%16 < 16)]

theorem encodePair_query (pair : String × String) :
    Rfc3986.isEncoded Rfc3986.isQueryChar (encodePair pair) := by
  have hmark : Rfc3986.isEncoded Rfc3986.isQueryChar ('=' :: encode pair.2) :=
    isEncoded_append (a := ['=']) (by decide) (by decide) (encodeBytes_query _)
  exact isEncoded_append (by decide) (encodeBytes_query _) hmark

theorem serialize_query (pairs : List (String × String)) :
    Rfc3986.isEncoded Rfc3986.isQueryChar (serialize pairs) := by
  induction pairs with
  | nil => rfl
  | cons pair pairs ih =>
    cases pairs with
    | nil => simpa [serialize] using encodePair_query pair
    | cons other pairs =>
      rw [serialize,List.map_cons,List.map_cons,List.intercalate_cons_cons]
      refine isEncoded_append (by decide) ?_ ih
      exact isEncoded_append (by decide) (encodePair_query pair) (by decide)

/-! ## Reading what was written -/

theorem hexValue_hexDigit : ∀ n < 16, hexValue (hexDigit n) = some n := by decide

theorem decodeBytes_encodeByte (b : UInt8) (text : Chars) :
    decodeBytes (encodeByte b++text) = b::decodeBytes text := by
  unfold encodeByte
  split
  · rename_i hb
    obtain ⟨hutf8,_,hpercent,hplus,_⟩ := isPlain_char hb
    rw [List.singleton_append,decodeBytes]
    · rw [if_neg hplus,hutf8]
      rfl
    · rintro x y rest he
      exact absurd he hpercent
  · split
    · rename_i hb
      rw [List.singleton_append,decodeBytes,hb]
      · rfl
      · rintro x y rest he
        exact absurd he (by decide)
    · have hb256 : b.toNat < 256 := b.toNat_lt
      have hvalue : 16*(b.toNat/16)+b.toNat%16 = b.toNat := Nat.div_add_mod _ _
      simp only [percentEncodeByte,List.cons_append,List.nil_append,decodeBytes,
        hexValue_hexDigit _ (by omega : b.toNat/16 < 16),
        hexValue_hexDigit _ (Nat.mod_lt _ (by decide) : b.toNat%16 < 16),hvalue,UInt8.ofNat_toNat]

theorem decodeBytes_encodeBytes (bytes : List UInt8) : decodeBytes (encodeBytes bytes) = bytes := by
  induction bytes with
  | nil => rfl
  | cons b bytes ih =>
    have hcons : encodeBytes (b::bytes) = encodeByte b++encodeBytes bytes := rfl
    rw [hcons,decodeBytes_encodeByte,ih]

section RoundTrip

variable (hdecode : ∀ text : String, decode text.toUTF8.data.toList = text)
include hdecode

theorem parsePair_encodePair (pair : String × String) : parsePair decode (encodePair pair) = pair := by
  have hsplit : splitFirst '=' (encodePair pair) = (encode pair.1,some (encode pair.2)) :=
    splitFirst_lead (encode_mark pair.1).1 (some _)
  rw [parsePair,hsplit]
  simp only [Option.getD_some,encode,decodeBytes_encodeBytes,hdecode]

theorem parse_serialize (pairs : List (String × String)) : parse decode (serialize pairs) = pairs := by
  by_cases hnil : pairs = []
  · subst hnil
    rfl
  · have hpieces : (serialize pairs).splitOn '&' = pairs.map encodePair := by
      refine List.splitOn_intercalate '&' ?_ (by simpa using hnil)
      intro piece hpiece
      obtain ⟨pair,_,rfl⟩ := List.mem_map.mp hpiece
      exact encodePair_mark pair
    have hkeep : (pairs.map encodePair).filter (· ≠ []) = pairs.map encodePair := by
      rw [List.filter_eq_self]
      intro piece hpiece
      obtain ⟨pair,_,rfl⟩ := List.mem_map.mp hpiece
      simp [encodePair]
    have hpair : parsePair decode ∘ encodePair = id := funext (parsePair_encodePair hdecode)
    rw [parse,hpieces,hkeep,List.map_map,hpair,List.map_id]

end RoundTrip

end Form
end Whatwg
