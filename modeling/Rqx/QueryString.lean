import Rqx.FormCodec
import Rqx.UrlComponents

/-! Query strings: the params that are written to one are the params that are read from it. -/
namespace Rqx
open Whatwg

/-- What is written pair by pair is read as these pairs. -/
def FormUrlencoded.Inverts (form : FormUrlencoded) : Prop :=
  ∀ pairs, form.parse (form.serialize pairs) = pairs

namespace QueryPairs
open Multidict

variable {form : FormUrlencoded}

theorem foldl_push_pairs (d : Dict) :
    d.pairs.foldl (fun pairs (key,value) => pairs.push key value) ⟨[]⟩ = ofDict d := by
  have hfold : ∀ (l : List (String × String)) (e : Dict),
      l.foldl (fun pairs (key,value) => pairs.push key value) (ofDict e) =
        ofDict (l.foldl (fun d p => d.add p.1 p.2) e) := by
    intro l
    induction l with
    | nil => exact fun e => rfl
    | cons p l ih =>
      intro e
      obtain ⟨key,value⟩ := p
      have hpush : (ofDict e).push key value = ofDict (e.add key value) := push_ofDict e key value
      simp only [List.foldl_cons,hpush,ih]
  have hempty : (⟨[]⟩ : QueryPairs) = ofDict empty := rfl
  rw [hempty,hfold]
  exact congrArg ofDict (ofPairs_pairs d)

theorem parse_serialized (hform : form.Inverts) {p : QueryPairs} (hp : Reachable form p) :
    parse form (p.text form) = p := by
  obtain ⟨d,rfl⟩ := hp.isDict
  rw [parse,text,hform]
  exact foldl_push_pairs d

/-- Params are read from a query as they were written to it, however they came about. -/
theorem query_round_trip (form : FormUrlencoded) (hform : form.Inverts) :
    (∀ p, Reachable form p → parse form (p.text form) = p) ∧
      ∀ query, parse form ((parse form query).text form) = parse form query :=
  ⟨fun _ hp => parse_serialized hform hp,fun query => parse_serialized hform (.parse query)⟩

end QueryPairs

/-- `decode_utf8_lossy`. -/
def Utf8.decodeLossy (bytes : List UInt8) : String :=
  (String.fromUTF8? ⟨bytes.toArray⟩).getD (String.ofList (lossy none bytes))

theorem Utf8.decodeLossy_toUTF8 (text : String) : decodeLossy text.toUTF8.data.toList = text := by
  have hvalid : String.fromUTF8? ⟨text.toUTF8.data.toList.toArray⟩ = some text := by
    simp [String.fromUTF8?,text.isValidUTF8,String.fromUTF8]
  rw [decodeLossy,hvalid,Option.getD_some]

/-- `form_urlencoded`, with a given `Display` for `f64`. -/
def formUrlencoded (displayF64 : Number → String) : FormUrlencoded where
  parse query := Form.parse Utf8.decodeLossy query.toList
  serialize pairs := String.ofList (Form.serialize pairs)
  displayF64 := displayF64

theorem formUrlencoded_inverts (displayF64 : Number → String) :
    (formUrlencoded displayF64).Inverts := by
  intro pairs
  have hparse := Form.parse_serialize Utf8.decodeLossy_toUTF8 pairs
  simpa [formUrlencoded] using hparse

/-- The query `b=1&a=2&b=3`, which is written back as `b=1&b=3&a=2`. -/
theorem QueryPairs.query_round_trip_grouped :
    (QueryPairs.parse (formUrlencoded fun _ => "") "b=1&a=2&b=3").pairs =
        [("b","1"),("b","3"),("a","2")] ∧
      ∀ p, Reachable (formUrlencoded fun _ => "") p →
        QueryPairs.parse (formUrlencoded fun _ => "") (p.text (formUrlencoded fun _ => "")) = p :=
  ⟨by decide +kernel,(query_round_trip _ (formUrlencoded_inverts _)).1⟩

end Rqx
