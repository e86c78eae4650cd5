import Schemata.Proofs.Delegates
/-!
# Nesting — conversions that handlers ask for inside one another

A handler may have another description converted, a handler there may ask again, and nothing says that
this ends.  So options have a number of such conversions that may run inside one another, and an
error for the one beyond.  A run that does not come to it is the same with every greater number
(`Description.run_convert_of_nesting_le`).  No run comes to it when the handlers ask only for what
ranks below their node and the number is not less than the rank (`Description.convert_of_descends`);
and without handlers none does at all.
-/
namespace Schemata

namespace Description

variable {o : Options} {bottom : Description → Conversion (Option Json)}

theorem convertNested_add (o : Options) (bottom : Description → Conversion (Option Json)) (n : Nat) :
    ∀ k : Nat, convertNested o bottom (n + k) = convertNested o (convertNested o bottom n) k
  | 0 => rfl
  | k + 1 => by
    rw [← Nat.add_assoc, convertNested, convertNested, convertNested_add o bottom n k]

/-- The number is not part of what a node does. -/
theorem convert_with_nesting (o : Options) (n : Nat) (e : ConvertError) (d : Description) :
    d.convert { o with nesting := n, tooDeep := e } =
      d.convertWith o (convertNested o (fun _ => Conversion.fail e) n) := by
  have hsame : Options.Delegates { o with nesting := n, tooDeep := e } o :=
    ⟨rfl, fun _ => .inl rfl⟩
  rw [convert, convertWith_delegates hsame, Options.elsewhere, convertNested_delegates hsame]

/-- **A run on which the conversions nested too deep have no say** is the same with every greater
number, and whatever the error is. -/
theorem run_convert_of_nesting_le {d : Description} {r : Registry}
    {result : Except ConvertError (Option Json) × Registry}
    (h : ∀ bottom, (d.convertWith o (convertNested o bottom o.nesting)).run r = result)
    {n : Nat} (hn : o.nesting ≤ n) (e : ConvertError) :
    (d.convert { o with nesting := n, tooDeep := e }).run r = result := by
  obtain ⟨k, rfl⟩ := Nat.exists_eq_add_of_le' hn
  rw [convert_with_nesting, convertNested_add]
  exact h _

end Description

/-! ## Handlers that descend -/

/-- Every description that is asked for has a property, whatever came of those before. -/
inductive Handling.AsksOnly (p : Description → Prop) : Handling → Prop
  | finish (result : Option Fragment) : AsksOnly p (.finish result)
  | fail (e : ConvertError) : AsksOnly p (.fail e)
  | delegate (kind : Kind) (f : Fragment) {next : Except ConvertError Fragment → Handling}
    (hnext : ∀ result, AsksOnly p (next result)) : AsksOnly p (.delegate kind f next)
  | convert {d : Description} (hd : p d) {next : Except ConvertError (Option Json) → Handling}
    (hnext : ∀ result, AsksOnly p (next result)) : AsksOnly p (.convert d next)

namespace Handling.AsksOnly

variable {p q : Description → Prop} {steps : Handling}

theorem mono (h : steps.AsksOnly p) (hpq : ∀ d, p d → q d) : steps.AsksOnly q := by
  induction h with
  | finish result => exact .finish result
  | fail e => exact .fail e
  | delegate kind f _ ih => exact .delegate kind f ih
  | convert hd _ ih => exact .convert (hpq _ hd) ih

/-- What a handler does depends on the conversions that it asks for. -/
theorem run_congr (h : steps.AsksOnly p) {other other' : Description → Conversion (Option Json)}
    (hother : ∀ d, p d → other d = other' d) (ofKind : Kind → Fragment → Conversion Fragment) :
    steps.run ofKind other = steps.run ofKind other' := by
  induction h with
  | finish result => rfl
  | fail e => rfl
  | delegate kind f _ ih =>
    rw [run, run]
    exact bind_congr ih
  | convert hd _ ih =>
    rw [run, run, hother _ hd]
    exact bind_congr ih

end Handling.AsksOnly

/-- **Handlers that descend**: none ranks higher below a node than the node, and what a handler asks
for ranks lower. -/
structure Options.Descends (o : Options) (rank : Description → Nat) : Prop where
  below : ∀ d : Description, ∀ e ∈ d.directlyBelow, rank e ≤ rank d
  asks : ∀ (d : Description) (handler : Handler), o.resolve d.typeName = some (.inl handler) →
    ∀ f, (handler o.toSettings d f).AsksOnly fun e => rank e < rank d

/-- Handlers descend that ask only for what is directly below their node. -/
theorem Options.descends_sizeOf {o : Options}
    (h : ∀ (d : Description) (handler : Handler), o.resolve d.typeName = some (.inl handler) →
      ∀ f, (handler o.toSettings d f).AsksOnly (· ∈ d.directlyBelow)) : o.Descends sizeOf where
  below _ _ he := Nat.le_of_lt (Description.sizeOf_lt_of_mem_directlyBelow he)
  asks d handler hr f :=
    (h d handler hr f).mono fun _ he => Description.sizeOf_lt_of_mem_directlyBelow he

theorem Options.descends_of_no_handlers {o : Options} (ho : o.handlers = []) :
    o.Descends fun _ => 0 where
  below _ _ _ := Nat.le_refl 0
  asks d handler hr := by
    rw [Options.resolve_of_no_handlers ho] at hr
    cases hk : Kind.ofName? d.typeName <;> rw [hk] at hr <;> cases hr

namespace Description

variable {o : Options} {rank : Description → Nat}

theorem convertWith_congr (h : o.Descends rank)
    {other other' : Description → Conversion (Option Json)} {d : Description}
    (hother : ∀ e, rank e < rank d → other e = other' e) :
    d.convertWith o other = d.convertWith o other' := by
  induction d using Description.induction with
  | node d ih =>
    have hbelow : d.conversionsBelow o other = d.conversionsBelow o other' :=
      conversionsBelow_congr fun e he =>
        ih e he fun e' hlt => hother e' (Nat.lt_of_lt_of_le hlt (h.below d e he))
    rw [convertWith_eq, convertWith_eq, hbelow]
    cases hr : o.resolve d.typeName with
    | none => rw [convertNode_of_unknown hr, convertNode_of_unknown hr]
    | some handling =>
      cases handling with
      | inl handler =>
        rw [convertNode_of_handler hr, convertNode_of_handler hr,
          (h.asks d handler hr _).run_congr hother]
      | inr kind => rw [convertNode_of_kind hr, convertNode_of_kind hr]

theorem convertNested_congr (h : o.Descends rank)
    (bottom bottom' : Description → Conversion (Option Json)) :
    ∀ (n : Nat) {d : Description}, rank d < n →
      convertNested o bottom n d = convertNested o bottom' n d
  | 0, _, hlt => absurd hlt (Nat.not_lt_zero _)
  | n + 1, _, hlt => convertWith_congr h fun _ he =>
    convertNested_congr h bottom bottom' n (Nat.lt_of_lt_of_le he (Nat.le_of_lt_succ hlt))

/-- **Where handlers descend**, no conversion is nested too deep once the number is not less than the
rank, so that a greater number makes no difference. -/
theorem convert_of_descends (h : o.Descends rank) {d : Description} (hrank : rank d ≤ o.nesting)
    {n : Nat} (hn : o.nesting ≤ n) (e : ConvertError) :
    d.convert { o with nesting := n, tooDeep := e } = d.convert o := by
  refine Conversion.ext fun r => run_convert_of_nesting_le (fun bottom => ?_) hn e
  have hsame := convertNested_congr h bottom (fun _ => Conversion.fail o.tooDeep) (o.nesting + 1)
    (Nat.lt_succ_of_le hrank)
  exact congrArg (fun c => c.run r) hsame

/-- **Without handlers** nothing is nested. -/
theorem convert_of_no_handlers (ho : o.handlers = []) (n : Nat) (e : ConvertError)
    (d : Description) : d.convert { o with nesting := n, tooDeep := e } = d.convert o := by
  rw [convert_with_nesting]
  exact convertWith_congr (Options.descends_of_no_handlers ho)
    fun _ hlt => absurd hlt (Nat.not_lt_zero 0)

end Description
end Schemata
