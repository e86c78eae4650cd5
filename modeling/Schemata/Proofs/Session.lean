import Schemata.Converter
import Schemata.Description.Build
import Schemata.Proofs.Closed
/-!
# Session — calls on one converter

A converter is called with values and with descriptions, one call after the other.  A call reads its
description before it looks at the converter, so it comes down to the conversion of a description or
leaves the converter as it is; whatever holds of conversions and of a refusal holds of a session
(`Converter.callAll_induction`).
-/
namespace Schemata
namespace Converter

/-- What a converter is called with. -/
inductive Call where
  | value (v : Json)
  | node (d : Description)

def call (c : Converter) : Call → Except ConvertError (Option Json) × Converter
  | .value v => c.convert v
  | .node d => c.convertDescription d

/-- The converter after calls, whatever came of them. -/
def callAll (c : Converter) (calls : List Call) : Converter :=
  calls.foldl (fun c x => (c.call x).2) c

/-- The description of a call, or why there is none. -/
def Call.read : Call → Except ConvertError Description
  | .value v =>
    if Description.isMarked v then
      (Description.ofJson v).mapError fun e => .notASchema (.undecodable e)
    else .error (.notASchema .unmarked)
  | .node d => .ok d

/-- A call converts the description it reads, or refuses without a conversion. -/
theorem call_eq (c : Converter) (x : Call) :
    c.call x = match x.read with
      | .ok d => c.convertDescription d
      | .error e => (.error e, c) := by
  cases x with
  | node d => rfl
  | value v =>
    unfold call convert Call.read convertUnmarked
    by_cases hm : Description.isMarked v = true
    · simp only [hm, if_true]
      cases Description.ofJson v <;> rfl
    · simp only [hm, if_false, Bool.false_eq_true]

theorem call_of_read {x : Call} {d : Description} (h : x.read = .ok d) (c : Converter) :
    c.call x = c.convertDescription d := by
  rw [call_eq, h]

theorem call_of_refused {x : Call} {e : ConvertError} (h : x.read = .error e) (c : Converter) :
    c.call x = (.error e, c) := by
  rw [call_eq, h]

theorem convertDescription_eq (c : Converter) (d : Description) :
    c.convertDescription d =
      (((d.convert c.options).run c.registry).1,
        ⟨c.options, ((d.convert c.options).run c.registry).2⟩) := rfl

theorem callAll_cons (c : Converter) (x : Call) (calls : List Call) :
    c.callAll (x :: calls) = (c.call x).2.callAll calls := rfl

/-- **What conversions keep, a session keeps.** -/
theorem callAll_induction {P : Registry → Prop} {o : Options}
    (step : ∀ (d : Description) (r : Registry), P r → P ((d.convert o).run r).2) :
    ∀ (calls : List Call) {r : Registry}, P r →
      ∃ r', callAll ⟨o, r⟩ calls = ⟨o, r'⟩ ∧ P r'
  | [], r, h => ⟨r, rfl, h⟩
  | x :: calls, r, h => by
    rw [callAll_cons]
    cases hx : x.read with
    | error e =>
      rw [call_of_refused hx]
      exact callAll_induction step calls h
    | ok d =>
      rw [call_of_read hx]
      exact callAll_induction step calls (step d r h)

/-- **A session only adds to the registry** and keeps the options. -/
theorem callAll_extends (c : Converter) (calls : List Call) :
    ∃ r, c.callAll calls = ⟨c.options, r⟩ ∧ c.registry ≤ r :=
  callAll_induction (fun d _ h => le_trans h (d.convert_extends c.options _)) calls le_rfl

end Converter
end Schemata
