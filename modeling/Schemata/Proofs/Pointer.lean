import Schemata.Proofs.Document
import Schemata.Proofs.Paths
import Schemata.Proofs.Place
import Schemata.Proofs.Session
/-!
# Pointer — references followed in the document

A reference is a hash sign and a path, the path as it stands.  As a pointer it is cut at every slash,
a part may be empty, and in a part `~1` spells a slash and `~0` a tilde.  The document leaves empty
parts out and takes the others as they stand.  So a reference points to the place of its schema when
no part is empty and none has such a spelling (`Pointer.tokens?_eq_segments_iff`), and only then.

Where no schema lost its place to another, a reference with such a path leads to the schema it stands
for (`Converter.references_followed`).
-/
namespace Schemata

namespace Pointer

/-! ## Reading a pointer -/

/-- The name that a part of a pointer spells. -/
def unescape : List Char → List Char
  | '~' :: '0' :: cs => '~' :: unescape cs
  | '~' :: '1' :: cs => '/' :: unescape cs
  | c :: cs => c :: unescape cs
  | [] => []

/-- The names along a pointer that follows a hash sign: a slash stands before each. -/
def tokens? (text : String) : Option (List String) :=
  match text.toList with
  | ['#'] => some []
  | '#' :: '/' :: cs => some ((cs.splitOn '/').map fun part => String.ofList (unescape part))
  | _ => none

/-- What a reference leads to in a document. -/
def follow? (document reference : Json) : Option Json :=
  (reference.target?.bind tokens?).bind document.at?

/-! ## Parts that spell themselves -/

/-- A part that spells a tilde or a slash. -/
def Escaped (part : List Char) : Prop := ['~', '0'] <:+: part ∨ ['~', '1'] <:+: part

instance (part : List Char) : Decidable (Escaped part) :=
  inferInstanceAs (Decidable (_ ∨ _))

theorem escaped_cons {c : Char} {cs : List Char} :
    Escaped (c :: cs) ↔ (['~', '0'] <+: c :: cs ∨ ['~', '1'] <+: c :: cs) ∨ Escaped cs := by
  rw [Escaped, List.infix_cons_iff, List.infix_cons_iff, or_or_or_comm]
  rfl

theorem length_unescape_le (cs : List Char) : (unescape cs).length ≤ cs.length := by
  fun_induction unescape cs with
  | case1 cs ih => simp only [List.length_cons]; omega
  | case2 cs ih => simp only [List.length_cons]; omega
  | case3 c cs _ _ ih => simp only [List.length_cons]; omega
  | case4 => exact Nat.le_refl _

theorem length_unescape_lt {cs : List Char} (h : Escaped cs) :
    (unescape cs).length < cs.length := by
  fun_induction unescape cs with
  | case1 cs ih =>
    have := length_unescape_le cs
    simp only [List.length_cons]
    omega
  | case2 cs ih =>
    have := length_unescape_le cs
    simp only [List.length_cons]
    omega
  | case3 c cs hzero hone ih =>
    -- An escape at the head is one of the first two cases.
    rcases escaped_cons.1 h with (⟨rest, hrest⟩ | ⟨rest, hrest⟩) | h
    · cases hrest
      exact absurd rfl (hzero rest rfl)
    · cases hrest
      exact absurd rfl (hone rest rfl)
    · simpa using ih h
  | case4 => simp [Escaped] at h

theorem unescape_of_not_escaped {cs : List Char} (h : ¬Escaped cs) : unescape cs = cs := by
  fun_induction unescape cs with
  | case1 cs ih => exact absurd (escaped_cons.2 (.inl (.inl ⟨cs, rfl⟩))) h
  | case2 cs ih => exact absurd (escaped_cons.2 (.inl (.inr ⟨cs, rfl⟩))) h
  | case3 c cs _ _ ih => rw [ih fun hcs => h (escaped_cons.2 (.inr hcs))]
  | case4 => rfl

theorem unescape_eq_self_iff {cs : List Char} : unescape cs = cs ↔ ¬Escaped cs := by
  refine ⟨fun heq hescaped => ?_, unescape_of_not_escaped⟩
  have hlt := length_unescape_lt hescaped
  rw [heq] at hlt
  exact Nat.lt_irrefl _ hlt

/-! ## The two readings of a path -/

/-- **A plain path**: after its first slash no part is empty, and none spells a tilde or a slash. -/
def Plain (path : String) : Prop :=
  ∀ part ∈ path.toList.tail.splitOn '/', part ≠ [] ∧ ¬Escaped part

instance (path : String) : Decidable (Plain path) :=
  inferInstanceAs (Decidable (∀ part ∈ _, part ≠ [] ∧ ¬Escaped part))

theorem cut_eq (cs part : List Char) :
    Registry.cut cs part = cs.splitOnPPrepend (· == '/') part := by
  induction cs generalizing part with
  | nil => rfl
  | cons c cs ih =>
    rw [Registry.cut, List.splitOnPPrepend, ih, ih]
    simp [Registry.separator]

theorem segments_eq {path : String} {cs : List Char} (h : path.toList = '/' :: cs) :
    Registry.segments path =
      ((cs.splitOn '/').filter fun part => !part.isEmpty).map String.ofList := by
  rw [Registry.segments, h, Registry.cut, Registry.separator, if_pos rfl, cut_eq]
  rfl

theorem exists_cons_of_isAbsolute {path : String} (h : Settings.isAbsolute path = true) :
    ∃ cs, path.toList = '/' :: cs := by
  simp only [Settings.isAbsolute, decide_eq_true_eq] at h
  exact List.head?_eq_some_iff.1 h

theorem tokens?_eq {path : String} {cs : List Char} (h : path.toList = '/' :: cs) :
    tokens? ("#" ++ path) =
      some ((cs.splitOn '/').map fun part => String.ofList (unescape part)) := by
  have htext : ("#" ++ path).toList = '#' :: '/' :: cs := by
    rw [String.toList_append, h]
    rfl
  simp only [tokens?, htext]

theorem plain_iff {path : String} {cs : List Char} (h : path.toList = '/' :: cs) :
    Plain path ↔ ∀ part ∈ cs.splitOn '/', part ≠ [] ∧ ¬Escaped part := by
  rw [Plain, h, List.tail_cons]

theorem segments_of_plain {path : String} {cs : List Char} (h : path.toList = '/' :: cs)
    (hplain : Plain path) : Registry.segments path = (cs.splitOn '/').map String.ofList := by
  rw [plain_iff h] at hplain
  rw [segments_eq h, List.filter_eq_self.2]
  exact fun part hpart => by simpa using (hplain part hpart).1

theorem segments_ne_nil_of_plain {path : String} (h : Settings.isAbsolute path = true)
    (hplain : Plain path) : Registry.segments path ≠ [] := by
  obtain ⟨cs, hcs⟩ := exists_cons_of_isAbsolute h
  rw [segments_of_plain hcs hplain, ne_eq, List.map_eq_nil_iff]
  exact List.splitOn_ne_nil '/' cs

/-- **A reference points to the place of its path** when the path is plain, and only then. -/
theorem tokens?_eq_segments_iff {path : String} (h : Settings.isAbsolute path = true) :
    tokens? ("#" ++ path) = some (Registry.segments path) ↔ Plain path := by
  obtain ⟨cs, hcs⟩ := exists_cons_of_isAbsolute h
  rw [tokens?_eq hcs, Option.some.injEq]
  constructor
  · intro heq
    rw [segments_eq hcs] at heq
    -- Both readings cut the path alike, so none of as many names was left out as empty.
    have hlength := congrArg List.length heq
    rw [List.length_map, List.length_map] at hlength
    have hfull := List.length_filter_eq_length_iff.1 hlength.symm
    rw [List.filter_eq_self.2 hfull] at heq
    refine (plain_iff hcs).2 fun part hpart => ⟨by simpa using hfull part hpart, ?_⟩
    exact unescape_eq_self_iff.1 (String.ofList_injective (List.map_inj_left.1 heq part hpart))
  · intro hplain
    rw [segments_of_plain hcs hplain]
    exact List.map_congr_left fun part hpart =>
      congrArg String.ofList (unescape_of_not_escaped ((plain_iff hcs).1 hplain part hpart).2)

end Pointer

namespace Registry

theorem mem_placed_of_pairwise {r : Registry} {path : String} {schema : Json}
    (hapart : r.paths.Pairwise fun p q => ¬Conflict (segments p) (segments q))
    (hpath : segments path ≠ []) (h : r.get? path = some schema) : (path, schema) ∈ r.placed := by
  obtain ⟨earlier, later, hsplit⟩ := List.append_of_mem (Members.mem_of_get?_eq_some h)
  refine (mem_placed_iff hsplit).2 ⟨hpath, fun e he _ => ?_⟩
  rw [paths, hsplit, Members.names, List.pairwise_map] at hapart
  exact (List.pairwise_append.1 hapart).2.2 e he _ List.mem_cons_self

end Registry

namespace Converter

/-- A converter that starts with nothing registers absolute paths only. -/
theorem isAbsolute_of_callAll {given : Options} {c : Converter}
    (hcreate : create given {} = .ok c) (calls : List Call) :
    ∀ path ∈ (c.callAll calls).registry.paths, Settings.isAbsolute path = true := by
  unfold create at hcreate
  cases hvalid : given.validate with
  | error e =>
    rw [hvalid] at hcreate
    cases hcreate
  | ok o =>
    rw [hvalid] at hcreate
    cases hcreate
    have step : ∀ (d : Description) (r : Registry), (∀ path ∈ r.paths, Settings.isAbsolute path) →
        ∀ path ∈ ((d.convert o).run r).2.paths, Settings.isAbsolute path := fun d r hr path hp =>
      (d.convert_within (fun _ _ => Options.isAbsolute_of_path? hvalid) r path hp).elim (hr path) id
    obtain ⟨r, hr, habsolute⟩ := callAll_induction step calls (r := {})
      fun path hp => absurd hp List.not_mem_nil
    rw [hr]
    exact habsolute

/-- **References with plain paths lead to their schemas.**  For a session that starts with nothing and
leaves no two paths in conflict, a reference read as a pointer names the place of its path exactly
when the path is plain, and then it leads to the schema that is registered. -/
theorem references_followed {given : Options} {c : Converter} (hcreate : create given {} = .ok c)
    (calls : List Call)
    (hapart : (c.callAll calls).registry.paths.Pairwise fun p q =>
      ¬Registry.Conflict (Registry.segments p) (Registry.segments q))
    {path : String} {schema : Json} (h : (c.callAll calls).registry.get? path = some schema) :
    (Pointer.tokens? ("#" ++ path) = some (Registry.segments path) ↔ Pointer.Plain path) ∧
    (Pointer.Plain path →
      Pointer.follow? (c.callAll calls).registry.document (.reference path) = some schema) := by
  have hpath : path ∈ (c.callAll calls).registry.paths :=
    List.mem_map_of_mem (Members.mem_of_get?_eq_some h)
  have habsolute := isAbsolute_of_callAll hcreate calls path hpath
  have htokens := Pointer.tokens?_eq_segments_iff habsolute
  refine ⟨htokens, fun hplain => ?_⟩
  have hat := Registry.document_at?_of_mem_placed
    (Registry.mem_placed_of_pairwise hapart (Pointer.segments_ne_nil_of_plain habsolute hplain) h)
  rw [Pointer.follow?, Json.target?_reference, Option.bind_some, htokens.2 hplain, Option.bind_some,
    hat]

/-- Two named nodes, with a tilde that spells nothing in one of the names. -/
theorem references_followed_tilde :
    let named (name : String) : Call :=
      .node ((Description.ofType "string").withMeta [("extract", .string name)])
    let c : Converter := ⟨{ extract := true, extractPath := "/s/" }, {}⟩
    let after := c.callAll [named "A", named "/B/~C"]
    after.registry.paths = ["/s/A", "/B/~C"] ∧
      Pointer.follow? after.registry.document (.reference "/B/~C") =
        some (.object [("type", .string "string")]) := by
  intro named c after
  have hcreate : create { extract := true, extractPath := "/s/" } {} = .ok c := rfl
  exact ⟨rfl, (references_followed hcreate [named "A", named "/B/~C"] (by decide +kernel) rfl).2
    (by decide +kernel)⟩

/-- **A reference can lead nowhere.**  Names are taken into paths as they stand: what spells another
name in a pointer is not the name in the document, and an empty part is no name there. -/
theorem references_lead_nowhere :
    let named (name : String) : Call :=
      .node ((Description.ofType "string").withMeta [("extract", .string name)])
    let c : Converter := ⟨{ extract := true }, {}⟩
    let after := c.callAll [named "A~1B", named "C//D"]
    let schema : Json := .object [("type", .string "string")]
    create { extract := true } {} = .ok c ∧ c.options.extract = true ∧ c.options.handlers = [] ∧
      (c.call (named "A~1B")).1 = .ok (some (.reference "/A~1B")) ∧
      ((c.call (named "A~1B")).2.call (named "C//D")).1 = .ok (some (.reference "/C//D")) ∧
      (after.registry.paths.Pairwise fun p q =>
        ¬Registry.Conflict (Registry.segments p) (Registry.segments q)) ∧
      after.registry.entries = [("/A~1B", schema), ("/C//D", schema)] ∧
      Pointer.follow? after.registry.document (.reference "/A~1B") = none ∧
      Pointer.follow? after.registry.document (.reference "/C//D") = none :=
  ⟨rfl, rfl, rfl, rfl, rfl, by decide +kernel, rfl, by decide +kernel, by decide +kernel⟩

end Converter
end Schemata
