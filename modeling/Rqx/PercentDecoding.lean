import Rqx.FormCodec
import Rqx.Utf8Lossy

/-! Percent-encoded octets: what they are decoded to, and which encodings leave them as they are. -/
namespace Whatwg
open Rqx.Utf8

/-! ## Single characters -/

section Single

variable {set : Char → Bool} {c : Char} {text rest : Chars}

theorem percentEncode_single (set : Char → Bool) (c : Char) :
    percentEncode set [c] = if set c then (String.utf8EncodeChar c).flatMap percentEncodeByte else [c] := by
  simp [percentEncode]

theorem percentEncode_percent (hc : set c = true) (text : Chars) :
    ∃ rest, percentEncode set (c::text) = '%' :: rest := by
  obtain ⟨byte,bytes,hbytes⟩ := List.exists_cons_of_ne_nil (String.utf8EncodeChar_ne_nil (c := c))
  refine ⟨hexDigit (byte.toNat/16)::hexDigit (byte.toNat%16)::
    (bytes.flatMap percentEncodeByte++percentEncode set text),?_⟩
  rw [percentEncode_cons,percentEncode_single,if_pos hc,hbytes]
  rfl

/-- A character that does not come from a percent sign was there before. -/
theorem percentEncode_head_raw (hc : c ≠ '%') (h : percentEncode set text = c::rest) :
    ∃ text', text = c::text' ∧ rest = percentEncode set text' := by
  cases text with
  | nil => cases h
  | cons d text =>
    cases hd : set d with
    | true =>
      obtain ⟨rest',hrest⟩ := percentEncode_percent hd text
      rw [hrest] at h
      exact absurd (List.cons.inj h).1.symm hc
    | false =>
      rw [percentEncode_raw hd] at h
      obtain ⟨rfl,rfl⟩ := List.cons.inj h
      exact ⟨text,rfl,rfl⟩

end Single

/-! ## Escapes -/

/-- A percent sign with two digits behind it. -/
def startsEscape : Chars → Bool
  | '%' :: a::b::_ => Rfc3986.isHexDigit a && Rfc3986.isHexDigit b
  | _ => false

def hasEscape : Chars → Bool
  | [] => false
  | c::text => startsEscape (c::text) || hasEscape text

/-- A percent sign that begins no escape stands for itself. -/
def percentDecode : Chars → List UInt8
  | [] => []
  | '%' :: a::b::text =>
    match Form.hexValue a,Form.hexValue b with
    | some high,some low => UInt8.ofNat (16*high+low)::percentDecode text
    | _,_ => 37::percentDecode (a::b::text)
  | c::text => String.utf8EncodeChar c++percentDecode text

/-- The escapes are still there, and any other character is, raw or encoded. -/
inductive Kept : Chars → Chars → Prop
  | nil : Kept [] []
  | escape {a b : Char} {text text' : Chars} (ha : Rfc3986.isHexDigit a) (hb : Rfc3986.isHexDigit b)
      (h : Kept text text') : Kept ('%' :: a::b::text) ('%' :: a::b::text')
  | raw {c : Char} {text text' : Chars} (hc : startsEscape (c::text) = false) (h : Kept text text') :
      Kept (c::text) (c::text')
  | encoded {c : Char} {text text' : Chars} (hc : startsEscape (c::text) = false)
      (h : Kept text text') : Kept (c::text) (percentEncode (fun _ => true) [c]++text')

theorem escape_induction {P : Chars → Prop} (nil : P [])
    (escape : ∀ a b text, Rfc3986.isHexDigit a → Rfc3986.isHexDigit b → P text → P ('%' :: a::b::text))
    (raw : ∀ c text, startsEscape (c::text) = false → P text → P (c::text)) (text : Chars) : P text := by
  induction hlength : text.length using Nat.strong_induction_on generalizing text with
  | _ n ih =>
    subst hlength
    cases text with
    | nil => exact nil
    | cons c rest =>
      cases hstarts : startsEscape (c::rest) with
      | false => exact raw c rest hstarts (ih _ (by simp) rest rfl)
      | true =>
        unfold startsEscape at hstarts
        split at hstarts
        · rename_i a b text htext
          obtain ⟨rfl,rfl⟩ := List.cons.inj htext
          obtain ⟨ha,hb⟩ := (Bool.and_eq_true _ _).mp hstarts
          exact escape a b text ha hb (ih _ (by simp only [List.length_cons]; omega) text rfl)
        · cases hstarts

theorem hexValue_isSome (c : Char) : (Form.hexValue c).isSome = Rfc3986.isHexDigit c := by
  unfold Form.hexValue Rfc3986.isHexDigit
  by_cases hdigit : c.isDigit
  · simp [hdigit]
  · by_cases hupper : 'A' ≤ c ∧ c ≤ 'F'
    · simp [hdigit,hupper]
    · rw [if_neg hdigit,if_neg hupper]
      by_cases hlower : 'a' ≤ c ∧ c ≤ 'f'
      · simp [hlower]
      · have hnot : (decide ('a' ≤ c) && decide (c ≤ 'f')) = false ∧
            (decide ('A' ≤ c) && decide (c ≤ 'F')) = false := by
          rw [← Bool.decide_and,← Bool.decide_and]
          exact ⟨decide_eq_false hlower,decide_eq_false hupper⟩
        simp [hlower,hnot.1,hnot.2,hdigit]

section Decode

variable {a b c : Char} {text text' : Chars} {set : Char → Bool}

theorem percentDecode_escape (ha : Rfc3986.isHexDigit a) (hb : Rfc3986.isHexDigit b) :
    ∃ byte, ∀ text, percentDecode ('%' :: a::b::text) = byte::percentDecode text := by
  rw [← hexValue_isSome] at ha hb
  obtain ⟨high,hhigh⟩ := Option.isSome_iff_exists.mp ha
  obtain ⟨low,hlow⟩ := Option.isSome_iff_exists.mp hb
  exact ⟨UInt8.ofNat (16*high+low),fun text => by simp only [percentDecode,hhigh,hlow]⟩

theorem percentDecode_raw (h : startsEscape (c::text) = false) :
    percentDecode (c::text) = String.utf8EncodeChar c++percentDecode text := by
  rw [percentDecode.eq_def]
  split
  · rename_i heq
    cases heq
  · rename_i a b rest heq
    cases heq
    have hnone : Form.hexValue a = none ∨ Form.hexValue b = none := by
      rw [startsEscape,← hexValue_isSome,← hexValue_isSome] at h
      cases ha : Form.hexValue a with
      | none => exact .inl rfl
      | some high =>
        cases hb : Form.hexValue b with
        | none => exact .inr rfl
        | some low => simp [ha,hb] at h
    have hpercent : String.utf8EncodeChar '%' = [37] := by decide
    rw [hpercent]
    rcases hnone with hnone | hnone
    · rw [hnone]
      rfl
    · rw [hnone]
      split
      · rename_i heq
        cases heq
      · rfl
  · rename_i heq
    cases heq
    rfl

theorem percentDecode_byte (byte : UInt8) (text : Chars) :
    percentDecode (percentEncodeByte byte++text) = byte::percentDecode text := by
  have hbyte : byte.toNat < 256 := byte.toNat_lt
  have hvalue : 16*(byte.toNat/16)+byte.toNat%16 = byte.toNat := Nat.div_add_mod _ _
  simp only [percentEncodeByte,List.cons_append,List.nil_append,percentDecode,
    Form.hexValue_hexDigit _ (by omega : byte.toNat/16 < 16),
    Form.hexValue_hexDigit _ (Nat.mod_lt _ (by decide) : byte.toNat%16 < 16),hvalue,UInt8.ofNat_toNat]

theorem percentDecode_bytes (bytes : List UInt8) (text : Chars) :
    percentDecode (bytes.flatMap percentEncodeByte++text) = bytes++percentDecode text := by
  induction bytes with
  | nil => rfl
  | cons byte bytes ih => rw [List.flatMap_cons,List.append_assoc,percentDecode_byte,ih,List.cons_append]

theorem startsEscape_of_ne (hc : c ≠ '%') (text : Chars) : startsEscape (c::text) = false := by
  unfold startsEscape
  split
  · rename_i heq
    exact absurd (List.cons.inj heq).1 hc
  · rfl

theorem percentDecode_percentEncode (hset : set '%') (text : Chars) :
    percentDecode (percentEncode set text) = text.flatMap String.utf8EncodeChar := by
  induction text with
  | nil => rfl
  | cons c text ih =>
    rw [percentEncode_cons,List.flatMap_cons,← ih]
    cases hc : set c with
    | true =>
      rw [percentEncode_single,if_pos hc,percentDecode_bytes]
    | false =>
      have hne : c ≠ '%' := by
        rintro rfl
        rw [hset] at hc
        cases hc
      rw [percentEncode_single,hc,if_neg (by simp),List.singleton_append,
        percentDecode_raw (startsEscape_of_ne hne _)]

theorem percentDecode_plain (h : hasEscape text = false) :
    percentDecode text = text.flatMap String.utf8EncodeChar := by
  induction text with
  | nil => rfl
  | cons c text ih =>
    obtain ⟨hc,htext⟩ := Bool.or_eq_false_iff.mp h
    rw [percentDecode_raw hc,ih htext,List.flatMap_cons]

theorem lossy_length (text : Chars) {pending : Option Pending} (hpending : Sound pending) :
    (lossy pending (percentDecode text)).length+(if hasEscape text then 2 else 0) ≤
      (flush pending).length+text.length := by
  induction text using escape_induction generalizing pending with
  | nil => simp [percentDecode,hasEscape]
  | escape a b text ha hb ih =>
    obtain ⟨byte,hbyte⟩ := percentDecode_escape ha hb
    have hstep := step_length pending byte
    have hrest := ih (step_sound hpending byte)
    have hescape : hasEscape ('%' :: a::b::text) = true := by
      rw [hasEscape,startsEscape,ha,hb]
      rfl
    rw [hbyte,lossy_cons,List.length_append,if_pos hescape]
    simp only [List.length_cons]
    omega
  | raw c text hc ih =>
    have hrest := ih sound_none
    have hescape : hasEscape (c::text) = hasEscape text := by rw [hasEscape,hc,Bool.false_or]
    rw [percentDecode_raw hc,lossy_char hpending,hescape]
    simp only [List.length_append,List.length_cons,flush_none,List.length_nil] at hrest ⊢
    omega

/-- Decoding changes a text if and only if there is an escape in it. -/
theorem lossy_eq_iff (text : Chars) : lossy none (percentDecode text) = text ↔ hasEscape text = false := by
  constructor
  · intro h
    have hlength := lossy_length text sound_none
    rw [h,flush_none,List.length_nil,Nat.zero_add] at hlength
    by_contra hescape
    rw [Bool.not_eq_false] at hescape
    rw [if_pos hescape] at hlength
    omega
  · intro h
    rw [percentDecode_plain h,lossy_text]

end Decode

/-! ## Keeping escapes -/

section Kept

variable {c : Char} {text text' : Chars} {set : Char → Bool}

theorem Kept.refl (text : Chars) : Kept text text := by
  induction text using escape_induction with
  | nil => exact .nil
  | escape a b text ha hb ih => exact .escape ha hb ih
  | raw c text hc ih => exact .raw hc ih

theorem Kept.one (h : Kept text text') (hc : startsEscape (c::text) = false) (set : Char → Bool) :
    Kept (c::text) (percentEncode set [c]++text') := by
  rw [percentEncode_single]
  split
  · have hall := Kept.encoded hc h
    rwa [percentEncode_single,if_pos rfl] at hall
  · exact .raw hc h

theorem Kept.plain (h : hasEscape text = false) (set : Char → Bool) :
    Kept text (percentEncode set text) := by
  induction text with
  | nil => exact .nil
  | cons c text ih =>
    obtain ⟨hc,htext⟩ := Bool.or_eq_false_iff.mp h
    rw [percentEncode_cons]
    exact (ih htext).one hc set

theorem Kept.head (h : Kept text text') {rest' : Chars} (hc : text' = c::rest')
    (hhex : Rfc3986.isHexDigit c) : ∃ rest, text = c::rest ∧ Kept rest rest' := by
  have hpercent : Rfc3986.isHexDigit '%' = false := by decide
  cases h with
  | nil => cases hc
  | escape ha hb h =>
    obtain ⟨rfl,_⟩ := List.cons.inj hc
    rw [hpercent] at hhex
    cases hhex
  | raw _ h =>
    obtain ⟨rfl,rfl⟩ := List.cons.inj hc
    exact ⟨_,rfl,h⟩
  | @encoded d _ text' _ h =>
    obtain ⟨rest,hrest⟩ : ∃ rest, percentEncode (fun _ => true) [d] = '%' :: rest :=
      percentEncode_percent rfl []
    rw [hrest,List.cons_append] at hc
    obtain ⟨rfl,_⟩ := List.cons.inj hc
    rw [hpercent] at hhex
    cases hhex

theorem Kept.not_startsEscape (h : Kept text text') (hc : startsEscape (c::text) = false) :
    startsEscape (c::text') = false := by
  by_contra hstarts
  rw [Bool.not_eq_false] at hstarts
  unfold startsEscape at hstarts
  split at hstarts
  · rename_i a b rest' heq
    obtain ⟨rfl,htext'⟩ := List.cons.inj heq
    obtain ⟨ha,hb⟩ := (Bool.and_eq_true _ _).mp hstarts
    obtain ⟨rest,rfl,hrest⟩ := h.head htext' ha
    obtain ⟨rest,rfl,_⟩ := hrest.head rfl hb
    rw [startsEscape,ha,hb] at hc
    cases hc
  · cases hstarts

theorem Kept.decode (h : Kept text text') : percentDecode text' = percentDecode text := by
  induction h with
  | nil => rfl
  | escape ha hb _ ih =>
    obtain ⟨byte,hbyte⟩ := percentDecode_escape ha hb
    rw [hbyte,hbyte,ih]
  | raw hc h ih => rw [percentDecode_raw hc,percentDecode_raw (h.not_startsEscape hc),ih]
  | @encoded c _ _ hc _ ih =>
    rw [percentEncode_single,if_pos rfl,percentDecode_bytes,ih,percentDecode_raw hc]

theorem kept_percentEncode_iff (hset : set '%') :
    Kept text (percentEncode set text) ↔ hasEscape text = false := by
  refine ⟨fun h => ?_,fun h => .plain h set⟩
  have hdecode := h.decode
  rw [percentDecode_percentEncode hset] at hdecode
  rw [← lossy_eq_iff,← hdecode,lossy_text]

end Kept

end Whatwg
