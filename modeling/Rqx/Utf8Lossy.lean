import Rqx.UrlComponents
import Mathlib

/-! `String::from_utf8_lossy`, byte by byte: where a text may be cut, what becomes of newlines, how
long the result is, and that text is decoded to itself. -/
namespace Rqx
namespace Utf8
open Whatwg

variable {pending : Option Pending} {p : Pending} {b : UInt8} {bytes rest : List UInt8}

/-- The characters that bytes complete, and what is still unfinished. -/
def run (pending : Option Pending) : List UInt8 → Chars × Option Pending
  | [] => ([],pending)
  | b::bytes => ((step pending b).1++(run (step pending b).2 bytes).1,(run (step pending b).2 bytes).2)

/-- What is unfinished at the end becomes one replacement. -/
def flush (pending : Option Pending) : Chars := if pending.isSome then [replacement] else []

@[simp] theorem flush_none : flush none = [] := rfl

@[simp] theorem lossy_nil (pending : Option Pending) : lossy pending [] = flush pending := rfl

theorem lossy_cons (pending : Option Pending) (b : UInt8) (bytes : List UInt8) :
    lossy pending (b::bytes) = (step pending b).1++lossy (step pending b).2 bytes := rfl

theorem lossy_append (pending : Option Pending) (bytes rest : List UInt8) :
    lossy pending (bytes++rest) = (run pending bytes).1++lossy (run pending bytes).2 rest := by
  induction bytes generalizing pending with
  | nil => rfl
  | cons b bytes ih => rw [List.cons_append,lossy_cons,ih,run,List.append_assoc]

theorem lossy_run (pending : Option Pending) (bytes : List UInt8) :
    lossy pending bytes = (run pending bytes).1++flush (run pending bytes).2 := by
  have happend := lossy_append pending bytes []
  rwa [List.append_nil] at happend

/-! ## Sequences that are not finished -/

/-- However the sequence goes on, its code point is none of a single byte. -/
structure Pending.Sound (p : Pending) : Prop where
  missing : 1 ≤ p.missing
  lower : 128 ≤ p.lower.toNat
  upper : p.upper.toNat < 192
  point : 128 ≤ (64*p.point+(p.lower.toNat-128))*64^(p.missing-1)

def Sound (pending : Option Pending) : Prop := ∀ p ∈ pending, p.Sound

theorem sound_none : Sound none := by simp [Sound]

theorem lead_sound (h : lead b = some p) : p.Sound := by
  have hall : ∀ n < 256, ∀ p ∈ lead (UInt8.ofNat n), 1 ≤ p.missing ∧ 128 ≤ p.lower.toNat ∧
      p.upper.toNat < 192 ∧ 128 ≤ (64*p.point+(p.lower.toNat-128))*64^(p.missing-1) := by
    decide +kernel
  have hb := hall b.toNat b.toNat_lt
  rw [UInt8.ofNat_toNat] at hb
  obtain ⟨hmissing,hlower,hupper,hpoint⟩ := hb p h
  exact ⟨hmissing,hlower,hupper,hpoint⟩

theorem start_sound (b : UInt8) : Sound (start b).2 := by
  intro p hp
  unfold start at hp
  split at hp
  · cases hp
  · split at hp
    · rename_i pending hlead
      cases hp
      exact lead_sound hlead
    · cases hp

theorem Pending.Sound.next (hp : p.Sound) (hb : p.lower ≤ b) (hmissing : p.missing ≠ 1) :
    Pending.Sound ⟨p.missing-1,0x80,0xBF,64*p.point+(b.toNat-0x80)⟩ := by
  have hone := hp.missing
  have hlow : p.lower.toNat ≤ b.toNat := UInt8.le_iff_toNat_le.mp hb
  obtain ⟨n,hn⟩ : ∃ n, p.missing-1 = n+1 := ⟨p.missing-2,by omega⟩
  have hpoint := hp.point
  rw [hn] at hpoint
  refine ⟨by simp only; omega,by simp,by simp,?_⟩
  have hle : (64*p.point+(p.lower.toNat-128))*64^(n+1) ≤ (64*p.point+(b.toNat-128))*64^(n+1) :=
    Nat.mul_le_mul_right _ (by omega)
  have hshift : (64*p.point+(b.toNat-128))*64^(n+1) = 64*(64*p.point+(b.toNat-128))*64^n := by ring
  have hlower : (0x80 : UInt8).toNat = 128 := rfl
  simp only [hn,hlower,Nat.sub_self,Nat.add_zero,Nat.add_sub_cancel]
  exact hpoint.trans (hle.trans hshift.le)

theorem step_sound (h : Sound pending) (b : UInt8) : Sound (step pending b).2 := by
  cases pending with
  | none => exact start_sound b
  | some p =>
    simp only [step]
    split_ifs with hrange hmissing
    · exact sound_none
    · intro q hq
      cases hq
      exact (h p rfl).next hrange.1 hmissing
    · exact start_sound b

theorem run_sound (h : Sound pending) (bytes : List UInt8) : Sound (run pending bytes).2 := by
  induction bytes generalizing pending with
  | nil => exact h
  | cons b bytes ih => exact ih (step_sound h b)

/-! ## Newlines -/

theorem ofNat_ne_newline {n : ℕ} (h : 128 ≤ n) : Char.ofNat n ≠ '\n' := by
  intro he
  have hten : (Char.ofNat n).toNat = 10 := by rw [he]; rfl
  rw [Char.ofNat] at hten
  split at hten
  · have htoNat : n = 10 := hten
    omega
  · cases hten

theorem step_newline (h : Sound pending) :
    step pending 10 = (flush pending++['\n'],none) := by
  cases pending with
  | none => rfl
  | some p =>
    have hlower := (h p rfl).lower
    have hrange : ¬(p.lower ≤ 10 ∧ 10 ≤ p.upper) := by
      rintro ⟨hle,_⟩
      have hle : p.lower.toNat ≤ 10 := UInt8.le_iff_toNat_le.mp hle
      omega
    simp only [step,if_neg hrange]
    rfl

theorem step_other (h : Sound pending) (hb : b ≠ 10) : ∀ c ∈ (step pending b).1, c ≠ '\n' := by
  have hstart : ∀ c ∈ (start b).1, c ≠ '\n' := by
    have hall : ∀ n < 256, UInt8.ofNat n ≠ 10 → (start (UInt8.ofNat n)).1.all (· ≠ '\n') := by
      decide +kernel
    have hstart := hall b.toNat b.toNat_lt
    rw [UInt8.ofNat_toNat] at hstart
    simpa using hstart hb
  cases pending with
  | none => exact hstart
  | some p =>
    have hp := h p rfl
    simp only [step]
    split_ifs with hrange hmissing
    · intro c hc
      rw [List.mem_singleton.mp hc]
      have hpoint := hp.point
      have hlow : p.lower.toNat ≤ b.toNat := UInt8.le_iff_toNat_le.mp hrange.1
      rw [hmissing] at hpoint
      exact ofNat_ne_newline (by simp at hpoint; omega)
    · simp
    · intro c hc
      rcases List.mem_cons.mp hc with rfl | hc
      · decide
      · exact hstart c hc

theorem run_newlines (h : Sound pending) (bytes : List UInt8) :
    (run pending bytes).1.count '\n' = bytes.count 10 := by
  have hflush : ∀ pending : Option Pending, (flush pending).count '\n' = 0 := by
    intro pending
    have hone : [replacement].count '\n' = 0 := by decide
    cases pending with
    | none => rfl
    | some p => exact hone
  induction bytes generalizing pending with
  | nil => rfl
  | cons b bytes ih =>
    rw [run,List.count_append,ih (step_sound h b)]
    by_cases hb : b = 10
    · subst hb
      rw [step_newline h,List.count_cons_self,List.count_append,hflush]
      simp only [List.count_singleton_self]
      omega
    · rw [List.count_eq_zero.mpr fun hc => step_other h hb _ hc rfl,List.count_cons_of_ne hb,Nat.zero_add]

theorem run_concat_newline (h : Sound pending) (bytes : List UInt8) :
    ∃ text, run pending (bytes++[10]) = (text++['\n'],none) := by
  induction bytes generalizing pending with
  | nil => exact ⟨flush pending,by simp [run,step_newline h]⟩
  | cons b bytes ih =>
    obtain ⟨text,htext⟩ := ih (step_sound h b)
    exact ⟨(step pending b).1++text,by rw [List.cons_append,run,htext,List.append_assoc]⟩

/-- What an unfinished sequence becomes, whatever follows, is one character and no newline. -/
theorem lossy_head (h : Sound (some p)) (bytes : List UInt8) :
    ∃ c rest, lossy (some p) bytes = c::rest ∧ c ≠ '\n' := by
  induction bytes generalizing p with
  | nil => exact ⟨replacement,[],rfl,by decide⟩
  | cons b bytes ih =>
    rw [lossy_cons]
    have hsound := step_sound h b
    have hother := fun hb => step_other h (b := b) hb
    simp only [step] at hsound hother ⊢
    split_ifs with hrange hmissing
    · refine ⟨_,_,rfl,?_⟩
      rw [if_pos hrange,if_pos hmissing] at hother
      refine hother ?_ _ (List.mem_singleton_self _)
      rintro rfl
      have hle : p.lower.toNat ≤ 10 := UInt8.le_iff_toNat_le.mp hrange.1
      have hlower := (h p rfl).lower
      omega
    · rw [if_pos hrange,if_neg hmissing] at hsound
      exact ih hsound
    · exact ⟨replacement,_,rfl,by decide⟩

/-! ## Text -/

theorem step_new (h : Sound pending) (hb : b.toNat < 128 ∨ 192 ≤ b.toNat) :
    step pending b = (flush pending++(start b).1,(start b).2) := by
  cases pending with
  | none => rfl
  | some p =>
    have hrange : ¬(p.lower ≤ b ∧ b ≤ p.upper) := by
      rintro ⟨hlow,hup⟩
      have hlow : p.lower.toNat ≤ b.toNat := UInt8.le_iff_toNat_le.mp hlow
      have hup : b.toNat ≤ p.upper.toNat := UInt8.le_iff_toNat_le.mp hup
      have hlower := (h p rfl).lower
      have hupper := (h p rfl).upper
      omega
    simp only [step,if_neg hrange]
    rfl

theorem step_lead (h : Sound pending) (hb : 192 ≤ b.toNat) (hlead : lead b = some p) :
    step pending b = (flush pending,some p) := by
  have hbig : ¬b < 0x80 := by
    intro hlt
    have hlt : b.toNat < 128 := UInt8.lt_iff_toNat_lt.mp hlt
    omega
  rw [step_new h (.inr hb),start,if_neg hbig,hlead,List.append_nil]

theorem step_tail {lower upper : UInt8} {r : ℕ} (missing point : ℕ) (hr : r < 64)
    (hlow : lower.toNat ≤ r+128) (hup : r+128 ≤ upper.toNat) :
    step (some ⟨missing,lower,upper,point⟩) (UInt8.ofNat (r+0x80)) =
      if missing = 1 then ([Char.ofNat (64*point+r)],none)
      else ([],some ⟨missing-1,0x80,0xBF,64*point+r⟩) := by
  have hnat : (UInt8.ofNat (r+0x80)).toNat = r+128 := by
    refine UInt8.toNat_ofNat_of_lt' ?_
    have hsize : UInt8.size = 256 := rfl
    omega
  have hrange : lower ≤ UInt8.ofNat (r+0x80) ∧ UInt8.ofNat (r+0x80) ≤ upper :=
    ⟨UInt8.le_iff_toNat_le.mpr (by omega),UInt8.le_iff_toNat_le.mpr (by omega)⟩
  simp only [step,if_pos hrange,hnat]
  have hpoint : r+128-0x80 = r := by omega
  rw [hpoint]

theorem lead_two : ∀ q < 32, 2 ≤ q → lead (UInt8.ofNat (q+0xC0)) = some ⟨1,0x80,0xBF,q⟩ := by
  intro q hq hlow
  interval_cases q <;> rfl

theorem lead_three : ∀ q < 16, lead (UInt8.ofNat (q+0xE0)) =
    some ⟨2,if q = 0 then 0xA0 else 0x80,if q = 13 then 0x9F else 0xBF,q⟩ := by
  intro q hq
  interval_cases q <;> rfl

theorem lead_four : ∀ q < 5, lead (UInt8.ofNat (q+0xF0)) =
    some ⟨3,if q = 0 then 0x90 else 0x80,if q = 4 then 0x8F else 0xBF,q⟩ := by
  intro q hq
  interval_cases q <;> rfl

theorem toNat_byte {n : ℕ} (h : n < 256) : (UInt8.ofNat n).toNat = n := UInt8.toNat_ofNat_of_lt' h

theorem lossy_char (h : Sound pending) (c : Char) (rest : List UInt8) :
    lossy pending (String.utf8EncodeChar c++rest) = flush pending++c::lossy none rest := by
  have hvalid : c.toNat < 0xD800 ∨ 0xDFFF < c.toNat ∧ c.toNat < 0x110000 := c.valid
  have hchar : Char.ofNat c.toNat = c := Char.ofNat_toNat c
  have hupper : ∀ r < 64, r+128 ≤ (0xBF : UInt8).toNat := fun r hr => by
    have hnat : (0xBF : UInt8).toNat = 191 := rfl
    omega
  have hlower : ∀ r, (0x80 : UInt8).toNat ≤ r+128 := fun r => Nat.le_add_left 128 r
  generalize hv : c.toNat = v at hvalid hchar
  have hval : c.val.toNat = v := hv
  simp only [String.utf8EncodeChar,hval]
  split_ifs with hone htwo hthree
  · have hstart : start (UInt8.ofNat v) = ([c],none) := by
      have hb : UInt8.ofNat v < 0x80 := UInt8.lt_iff_toNat_lt.mpr (by
        rw [toNat_byte (by omega)]
        exact Nat.lt_succ_of_le hone)
      rw [start,if_pos hb,toNat_byte (by omega),hchar]
    rw [List.singleton_append,lossy_cons,step_new h (.inl (by rw [toNat_byte (by omega)]; omega)),hstart,
      List.append_assoc]
    rfl
  · have hq : v/64%32 = v/64 := Nat.mod_eq_of_lt (by omega)
    have hfirst := step_lead h (b := UInt8.ofNat (v/64%32+0xC0)) (by rw [toNat_byte (by omega)]; omega)
      (lead_two _ (by omega) (by omega))
    have hsecond := step_tail 1 (v/64%32) (by omega : v%64 < 64) (hlower _) (hupper _ (by omega))
    have hpoint : 64*(v/64%32)+v%64 = v := by omega
    rw [if_pos rfl,hpoint,hchar] at hsecond
    simp only [List.cons_append,List.nil_append,lossy_cons,hfirst,hsecond]
  · have hbounds : (if v/4096%16 = 0 then 0xA0 else 0x80 : UInt8).toNat ≤ v/64%64+128 ∧
        v/64%64+128 ≤ (if v/4096%16 = 13 then 0x9F else 0xBF : UInt8).toNat := by
      have hnats : (0xA0 : UInt8).toNat = 160 ∧ (0x9F : UInt8).toNat = 159 := ⟨rfl,rfl⟩
      constructor
      · split_ifs
        · omega
        · exact hlower _
      · split_ifs
        · omega
        · exact hupper _ (by omega)
    have hfirst := step_lead h (b := UInt8.ofNat (v/4096%16+0xE0)) (by rw [toNat_byte (by omega)]; omega)
      (lead_three _ (by omega))
    have hsecond := step_tail 2 (v/4096%16) (by omega) hbounds.1 hbounds.2
    have hthird := step_tail 1 (64*(v/4096%16)+v/64%64) (by omega : v%64 < 64) (hlower _)
      (hupper _ (by omega))
    have hpoint : 64*(64*(v/4096%16)+v/64%64)+v%64 = v := by omega
    rw [if_neg (by decide : ¬2 = 1)] at hsecond
    rw [if_pos rfl,hpoint,hchar] at hthird
    simp only [List.cons_append,List.nil_append,lossy_cons,hfirst,hsecond,hthird]
  · have hbounds : (if v/262144%8 = 0 then 0x90 else 0x80 : UInt8).toNat ≤ v/4096%64+128 ∧
        v/4096%64+128 ≤ (if v/262144%8 = 4 then 0x8F else 0xBF : UInt8).toNat := by
      have hnats : (0x90 : UInt8).toNat = 144 ∧ (0x8F : UInt8).toNat = 143 := ⟨rfl,rfl⟩
      constructor
      · split_ifs
        · omega
        · exact hlower _
      · split_ifs
        · omega
        · exact hupper _ (by omega)
    have hfirst := step_lead h (b := UInt8.ofNat (v/262144%8+0xF0)) (by rw [toNat_byte (by omega)]; omega)
      (lead_four _ (by omega))
    have hsecond := step_tail 3 (v/262144%8) (by omega) hbounds.1 hbounds.2
    have hthird := step_tail 2 (64*(v/262144%8)+v/4096%64) (by omega : v/64%64 < 64) (hlower _)
      (hupper _ (by omega))
    have hfourth := step_tail 1 (64*(64*(v/262144%8)+v/4096%64)+v/64%64) (by omega : v%64 < 64)
      (hlower _) (hupper _ (by omega))
    have hpoint : 64*(64*(64*(v/262144%8)+v/4096%64)+v/64%64)+v%64 = v := by omega
    rw [if_neg (by decide : ¬3 = 1)] at hsecond
    rw [if_neg (by decide : ¬2 = 1)] at hthird
    rw [if_pos rfl,hpoint,hchar] at hfourth
    simp only [List.cons_append,List.nil_append,lossy_cons,hfirst,hsecond,hthird,hfourth]

theorem lossy_text (text : Chars) : lossy none (text.flatMap String.utf8EncodeChar) = text := by
  induction text with
  | nil => rfl
  | cons c text ih =>
    rw [List.flatMap_cons,lossy_char sound_none,ih]
    rfl

/-- No byte makes more than one character, but for what was unfinished before it. -/
theorem step_length (pending : Option Pending) (b : UInt8) :
    (step pending b).1.length+(flush (step pending b).2).length ≤ (flush pending).length+1 := by
  have hstart : (start b).1.length+(flush (start b).2).length ≤ 1 := by
    unfold start
    split
    · exact le_refl 1
    · split
      · exact le_refl 1
      · exact le_refl 1
  cases pending with
  | none => simpa [step] using hstart
  | some p =>
    have hone : (flush (some p)).length = 1 := rfl
    simp only [step]
    split_ifs
    · exact Nat.le_succ 1
    · exact Nat.le_succ 1
    · simp only [List.length_cons]
      omega

end Utf8
end Rqx
