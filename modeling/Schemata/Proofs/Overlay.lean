import Schemata.Proofs.Overwriting
import Schemata.Proofs.Plain
/-!
# Overlay — a kind over the keywords that are there

Numbers compare with the bounds that stand, and alternations look for a combinator in the metadata.
Every other kind passes the fragment from rule to rule and from one conversion below to the next, and
each of these steps inserts the same keywords into whatever it is handed (`Kind.writes`).  So the kind
makes of any fragment what is made of it by inserting, one by one, the keywords that the kind makes of
nothing (`Description.convertAs_overlays`).
-/
namespace Schemata

/-! ## Fragments -/

theorem Members.names_prefix_insertAll {α : Type} : ∀ new ms : Members α,
    names ms <+: names (insertAll ms new)
  | [], _ => List.prefix_refl _
  | (name, value) :: new, ms => by
    refine List.IsPrefix.trans ?_ (names_prefix_insertAll new (insert ms name value))
    rw [names_insert]
    split
    · exact List.prefix_refl _
    · exact List.prefix_append _ _

namespace Fragment

/-- **A fragment over which the keywords of another were laid**: they were inserted one by one, in their
order, and the bag is the same, behind as many keywords as it was.  No keyword that was there lost its
place, so these are the same keywords. -/
structure Overlaid (f own g : Fragment) : Prop where
  inserted : g = own.keywords.foldl (fun f m => f.insert m.1 m.2) f
  alone : own.bag = none
  bag : g.bag = f.bag
  slot : g.slot = f.slot
  places : Members.names f.keywords <+: Members.names g.keywords

theorem insertAll_eq (f : Fragment) (ms : Members Json) :
    f.insertAll ms = { f with keywords := Members.insertAll f.keywords ms } := by
  rw [← f.keywords_insertAll ms, ← f.bag_insertAll ms, ← f.slot_insertAll ms]

/-- Keywords may be inserted into nothing first, where a name that repeats is written once. -/
theorem overlaid_insertAll (f : Fragment) (ms : Members Json) :
    Overlaid f (insertAll {} ms) (f.insertAll ms) := by
  refine ⟨?_, bag_insertAll ms {}, f.bag_insertAll ms, f.slot_insertAll ms, ?_⟩
  · have hown : (insertAll {} ms).keywords = Members.ofList ms := keywords_insertAll ms {}
    change f.insertAll ms = f.insertAll (insertAll {} ms).keywords
    rw [hown, insertAll_eq, insertAll_eq, Members.insertAll_ofList]
  · rw [keywords_insertAll]
    exact Members.names_prefix_insertAll ms f.keywords

end Fragment

/-! ## A node -/

namespace Description

/-- **What these kinds make of a fragment** is decided by what they make of nothing.  They fail on both
with the same error, or on neither; on both they leave the same registry; and the keywords that they
make of nothing are laid over the fragment. -/
theorem convertAs_overlays (o : Options) {kind : Kind} (hkind : kind ∈ Kind.overlaying)
    (d : Description) (f : Fragment) (r : Registry) :
    (∃ e s, (d.convertAs o kind {}).run r = (.error e, s) ∧
      (d.convertAs o kind f).run r = (.error e, s)) ∨
    (∃ own g s, (d.convertAs o kind {}).run r = (.ok own, s) ∧
      (d.convertAs o kind f).run r = (.ok g, s) ∧ f.Overlaid own g) := by
  obtain ⟨own, hown⟩ := Kind.writes hkind o.toSettings d.toTraits (d.conversionsBelow o o.elsewhere)
  simp only [convertAs, hown, Conversion.run_map]
  rcases own.run r with ⟨e | ms, s⟩
  · exact .inl ⟨e, s, rfl, rfl⟩
  · exact .inr ⟨_, _, s, rfl, rfl, f.overlaid_insertAll ms.members⟩

/-- An array over keywords of which it sets two again, with a bag between them.  An item is registered
on the way, and a limit is set twice. -/
theorem convertAs_overlays_array :
    let o : Options := { extract := true }
    let item : Description := { typeName := "string", metas := some [[("extract", .string "A")]] }
    let two : Json := .number (.natural 2)
    let d : Description :=
      { typeName := "array", items := some [item]
        rules := [{ name := "min", arg := .number (.natural 1) }, { name := "unique" },
          { name := "min", arg := two }] }
    let f : Fragment :=
      { keywords := [("items", .null), ("title", .string "List"), ("minItems", .null)]
        bag := some { unit := some (.string "s") }, slot := 2 }
    Kind.array ∈ Kind.overlaying ∧ ∃ own g s,
      (d.convertAs o .array {}).run {} = (.ok own, s) ∧
      Members.names own.keywords = ["type", "minItems", "uniqueItems", "items"] ∧
      (d.convertAs o .array f).run {} = (.ok g, s) ∧ s.paths = ["/A"] ∧
      g.keywords =
        [("items", .reference "/A"), ("title", .string "List"), ("minItems", two),
         ("type", .string "array"), ("uniqueItems", .bool true)] ∧
      g.bag = f.bag ∧ g.slot = 2 := by
  intro o item two d f
  have hkind : Kind.array ∈ Kind.overlaying := by decide
  rcases convertAs_overlays o hkind d f {} with ⟨e, s, herror, -⟩ | ⟨own, g, s, hown, hg, hoverlaid⟩
  · cases herror
  · cases hown
    refine ⟨hkind, _, g, _, rfl, rfl, hg, rfl, ?_, hoverlaid.bag, hoverlaid.slot⟩
    rw [hoverlaid.inserted]
    rfl

end Description
end Schemata
