import Schemata.Proofs.Success
/-!
# Gathering — the schemas that a list of descriptions gives

The lists below a node hold descriptions alone, under keys or under patterns of keys.  The
descriptions of a list are converted one after the other, each from the registry that those before
it left, and the schemas of those that are not dropped are gathered, each beside the entry that it
comes from (`Gathering`).  What a kind is handed of a list is read off the schemas that were gathered
(`Description.convertChildren_gathers` and its siblings).
-/
namespace Schemata

/-- **Schemas gathered from a list**: the descriptions in its entries are converted one after the
other, and an entry whose description is not dropped gives a schema. -/
inductive Gathering (o : Options) {α : Type} (describe : α → Description) :
    List α → List (α × Json) → Registry → Registry → Prop where
  | nil {r : Registry} : Gathering o describe [] [] r r
  | dropped {a : α} {entries : List α} {gathered : List (α × Json)} {r s t : Registry} :
    ((describe a).convert o).run r = (.ok none, s) → Gathering o describe entries gathered s t →
      Gathering o describe (a :: entries) gathered r t
  | kept {a : α} {schema : Json} {entries : List α} {gathered : List (α × Json)}
    {r s t : Registry} :
    ((describe a).convert o).run r = (.ok (some schema), s) →
      Gathering o describe entries gathered s t →
      Gathering o describe (a :: entries) ((a, schema) :: gathered) r t

namespace Gathering

variable {o : Options} {α : Type} {describe : α → Description} {entries : List α}
  {gathered : List (α × Json)} {r s t : Registry}

theorem cons {a : α} {schema? : Option Json}
    (hrest : Gathering o describe entries gathered s t)
    (h : ((describe a).convert o).run r = (.ok schema?, s)) :
    Gathering o describe (a :: entries) (schema?.toList.map (fun v => (a, v)) ++ gathered) r t := by
  cases schema? with
  | none => exact .dropped h hrest
  | some schema => exact .kept h hrest

/-- Entries are left out, and the others stay in order. -/
theorem sublist (h : Gathering o describe entries gathered r t) :
    (gathered.map Prod.fst).Sublist entries := by
  induction h with
  | nil => exact .slnil
  | @dropped a _ _ _ _ _ _ _ ih => exact ih.cons a
  | @kept a _ _ _ _ _ _ _ _ ih => exact ih.cons_cons a

/-- What is gathered from a list, and the registry that is left, depend on the first registry alone. -/
theorem unique (h : Gathering o describe entries gathered r s) :
    ∀ {gathered' : List (α × Json)} {t : Registry},
      Gathering o describe entries gathered' r t → gathered = gathered' ∧ s = t := by
  induction h with
  | nil =>
    rintro _ _ ⟨⟩
    exact ⟨rfl, rfl⟩
  | dropped hrun _ ih =>
    -- The run of the head decides how the other gathering starts.
    rintro _ _ (_ | ⟨hrun', hrest⟩ | ⟨hrun', _⟩)
    · cases hrun.symm.trans hrun'
      exact ih hrest
    · cases hrun.symm.trans hrun'
  | kept hrun _ ih =>
    rintro _ _ (_ | ⟨hrun', _⟩ | ⟨hrun', hrest⟩)
    · cases hrun.symm.trans hrun'
    · cases hrun.symm.trans hrun'
      obtain ⟨rfl, rfl⟩ := ih hrest
      exact ⟨rfl, rfl⟩

end Gathering

namespace Conversion

variable {α β γ : Type} {o : Options} {describe : α → Description} {entries : List α}

/-- A conversion that gathers schemas from a list; its result is read off them. -/
def Gathers (o : Options) (describe : α → Description) (entries : List α)
    (read : List (α × Json) → β) (c : Conversion β) : Prop :=
  ∀ r b t, c.run r = (.ok b, t) →
    ∃ gathered, Gathering o describe entries gathered r t ∧ b = read gathered

theorem gathers_pure {read : List (α × Json) → β} {b : β} (h : b = read []) :
    (pure b : Conversion β).Gathers o describe [] read := by
  intro r b' t hrun
  cases hrun
  exact ⟨[], .nil, h⟩

theorem Gathers.map {read : List (α × Json) → β} {c : Conversion β}
    (hc : c.Gathers o describe entries read) (g : β → γ) :
    (g <$> c).Gathers o describe entries fun gathered => g (read gathered) := by
  intro r b t hrun
  obtain ⟨a, ha, rfl⟩ := exists_of_map_ok hrun
  obtain ⟨gathered, hgathered, rfl⟩ := hc r a t ha
  exact ⟨gathered, hgathered, rfl⟩

end Conversion

namespace PatternRule

/-- The key under which a key pattern stands, if it has one that can be expressed. -/
def key (p : PatternRule Description) : String :=
  match p.schema with
  | some _ => Pattern.anyKey
  | none => (p.regex.map Pattern.stripDelimiters).getD ""

theorem key_of_keyPattern {p : PatternRule Description} {key : String}
    (h : Keywords.keyPattern (p.schema.map Description.toTraits) p.regex = .ok key) :
    key = p.key := by
  unfold PatternRule.key
  unfold Keywords.keyPattern at h
  cases hschema : p.schema with
  | some schema =>
    rw [hschema, Option.map_some] at h
    dsimp only at h
    split at h <;> cases h
    rfl
  | none =>
    rw [hschema, Option.map_none] at h
    cases hregex : p.regex with
    | some literal =>
      rw [hregex] at h
      cases h
      rfl
    | none =>
      rw [hregex] at h
      cases h

end PatternRule

namespace Description

open Conversion (Gathers gathers_pure exists_of_bind_ok eq_of_lift_ok)

/-- The children that are not forbidden, under their keys. -/
def allowedChildren (d : Description) : List (String × Description) :=
  (d.children.getD []).filter fun c => c.2.presence ≠ .forbidden

/-- A child that gave a schema. -/
def converted (c : (String × Description) × Json) : ConvertedChild :=
  ⟨c.1.1, c.1.2.presence = .required, c.2⟩

variable {o : Options}

theorem convertChildren_gathers : ∀ cs : List (String × Description),
    (convertChildren o o.elsewhere cs).Gathers o Prod.snd
      (cs.filter fun c => c.2.presence ≠ .forbidden) fun gathered => gathered.map converted
  | [] => gathers_pure rfl
  | (key, d) :: cs => by
    rw [convertChildren]
    by_cases hpresence : d.presence = .forbidden
    · rw [if_pos hpresence, List.filter_cons_of_neg (by simpa using hpresence)]
      exact convertChildren_gathers cs
    · rw [if_neg hpresence, List.filter_cons_of_pos (by simpa using hpresence)]
      intro r children t h
      obtain ⟨schema?, s, hd, h⟩ := exists_of_bind_ok h
      obtain ⟨rest, _, hrest, hpure⟩ := exists_of_bind_ok h
      cases hpure
      obtain ⟨gathered, hgathered, rfl⟩ := convertChildren_gathers cs s rest _ hrest
      refine ⟨_, hgathered.cons (a := (key, d)) hd, ?_⟩
      cases schema? <;> rfl

theorem convertPatterns_gathers : ∀ ps : List (PatternRule Description),
    (convertPatterns o o.elsewhere ps).Gathers o PatternRule.rule ps fun gathered =>
      gathered.map fun p => (p.1.key, p.2)
  | [] => gathers_pure rfl
  | p :: ps => by
    rw [convertPatterns]
    intro r members t h
    obtain ⟨key, _, hlift, hkeyed⟩ := exists_of_bind_ok h
    obtain ⟨hkey, rfl⟩ := eq_of_lift_ok hlift
    obtain ⟨value?, s, hrule, hruled⟩ := exists_of_bind_ok hkeyed
    obtain ⟨rest, _, hrest, hpure⟩ := exists_of_bind_ok hruled
    cases hpure
    obtain ⟨gathered, hgathered, rfl⟩ := convertPatterns_gathers ps s rest _ hrest
    obtain rfl := PatternRule.key_of_keyPattern hkey
    refine ⟨_, hgathered.cons (a := p) hrule, ?_⟩
    cases value? <;> rfl

theorem convertBranches_gathers : ∀ bs : List (Alternative Description),
    (convertBranches o o.elsewhere bs).Gathers o id (bs.filterMap Alternative.schema?)
      fun gathered => gathered.map Prod.snd
  | [] => gathers_pure rfl
  | .conditional _ :: bs => by
    intro r schemas t h
    cases h
  | .schema d :: bs => by
    rw [convertBranches]
    intro r schemas t h
    obtain ⟨schema?, s, hd, h⟩ := exists_of_bind_ok h
    obtain ⟨rest, _, hrest, hpure⟩ := exists_of_bind_ok h
    cases hpure
    obtain ⟨gathered, hgathered, rfl⟩ := convertBranches_gathers bs s rest _ hrest
    refine ⟨_, hgathered.cons (a := d) hd, ?_⟩
    cases schema? <;> rfl

variable {d : Description}

theorem children_gathers :
    (d.conversionsBelow o o.elsewhere).children.Gathers o Prod.snd d.allowedChildren
      fun gathered => d.children.map fun _ => gathered.map converted := by
  simp only [conversionsBelow, allowedChildren]
  cases d.children with
  | none => exact gathers_pure rfl
  | some cs => exact (convertChildren_gathers cs).map some

theorem patterns_gathers :
    (d.conversionsBelow o o.elsewhere).patterns.Gathers o PatternRule.rule (d.patterns.getD [])
      fun gathered => d.patterns.map fun _ => gathered.map fun p => (p.1.key, p.2) := by
  simp only [conversionsBelow]
  cases d.patterns with
  | none => exact gathers_pure rfl
  | some ps => exact (convertPatterns_gathers ps).map some

theorem branches_gathers :
    (d.conversionsBelow o o.elsewhere).branches.Gathers o id (d.visitedBy .alternatives)
      fun gathered => gathered.map Prod.snd := by
  simp only [conversionsBelow, visitedBy]
  cases d.alternatives with
  | none => exact gathers_pure rfl
  | some bs => exact convertBranches_gathers bs

end Description
end Schemata
