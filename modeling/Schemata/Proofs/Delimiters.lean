import Mathlib.Data.List.TakeWhile
import Schemata.Pattern
/-!
# Delimiters — what is stripped from a pattern literal

A literal is a slash, a body, a slash and flags, which are small letters.  A body may be any text,
with slashes and line breaks in it and with an end that looks like flags.  A text can still be taken
apart in one way only, because flags hold no slash: the body ends at the last one
(`Pattern.IsLiteral.unique`, `Pattern.IsLiteral.last_slash`).  So whatever prefers a long body or a
short one finds the same body, and the pattern of a literal is its body
(`Pattern.stripDelimiters_exact`).
-/
namespace Schemata
namespace Pattern

/-- **A text is a literal** with a body and flags. -/
structure IsLiteral (text body flags : String) : Prop where
  parts : text = "/" ++ body ++ "/" ++ flags
  flags : ∀ c ∈ flags.toList, isFlag c = true

theorem not_isFlag_slash : isFlag '/' = false := by decide

theorem slash_not_mem_flags {flags : List Char} (h : ∀ c ∈ flags, isFlag c = true) :
    '/' ∉ flags := by
  intro hmem
  have hslash := h '/' hmem
  rw [not_isFlag_slash] at hslash
  cases hslash

/-! ## Around the last slash -/

/-- What stands before and after the last slash of a text. -/
theorem eq_of_last_slash : ∀ {before before' after after' : List Char},
    '/' ∉ after → '/' ∉ after' → before ++ '/' :: after = before' ++ '/' :: after' →
      before = before' ∧ after = after'
  | [], [], _, _, _, _, h => ⟨rfl, (List.cons.inj h).2⟩
  | [], c :: before', _, _, hafter, _, h => by
    -- The slash in front is the only one, but there is one further on.
    obtain ⟨-, h⟩ := List.cons.inj h
    exact absurd (h ▸ List.mem_append_right before' List.mem_cons_self) hafter
  | c :: before, [], _, _, _, hafter', h => by
    obtain ⟨-, h⟩ := List.cons.inj h
    exact absurd (h.symm ▸ List.mem_append_right before List.mem_cons_self) hafter'
  | c :: before, c' :: before', _, _, hafter, hafter', h => by
    obtain ⟨rfl, hparts⟩ := List.cons.inj h
    obtain ⟨rfl, hrest⟩ := eq_of_last_slash hafter hafter' hparts
    exact ⟨rfl, hrest⟩

/-- The reading of a literal from its end finds the body in front of the flags. -/
theorem body?_eq_some_iff {cs body : List Char} :
    body? cs = some body ↔
      ∃ flags, (∀ c ∈ flags, isFlag c = true) ∧ cs = '/' :: (body ++ '/' :: flags) := by
  constructor
  · intro h
    unfold body? at h
    split at h
    · rename_i rest
      split at h
      · rename_i found hfound
        cases h
        have hsplit : rest.reverse = rest.reverse.takeWhile isFlag ++ '/' :: found := by
          rw [← hfound, List.takeWhile_append_dropWhile]
        refine ⟨(rest.reverse.takeWhile isFlag).reverse, fun c hc => ?_, ?_⟩
        · exact List.mem_takeWhile_imp (List.mem_reverse.1 hc)
        · have hrest := congrArg List.reverse hsplit
          rw [List.reverse_reverse, List.reverse_append, List.reverse_cons, List.append_assoc] at hrest
          exact congrArg ('/' :: ·) hrest
      · cases h
    · cases h
  · rintro ⟨flags, hflags, rfl⟩
    have hend : (body ++ '/' :: flags).reverse.dropWhile isFlag = '/' :: body.reverse := by
      rw [List.reverse_append, List.reverse_cons, List.append_assoc,
        List.dropWhile_append_of_pos fun c hc => hflags c (List.mem_reverse.1 hc)]
      exact List.dropWhile_cons_of_neg (Bool.eq_false_iff.1 not_isFlag_slash)
    rw [body?, hend]
    exact congrArg some (List.reverse_reverse body)

/-! ## Literals -/

namespace IsLiteral

variable {text body flags : String}

theorem toList (h : IsLiteral text body flags) :
    text.toList = '/' :: (body.toList ++ '/' :: flags.toList) := by
  rw [h.parts]
  simp

/-- The body ends at the last slash. -/
theorem last_slash (h : IsLiteral text body flags) {before after : String}
    (hparts : text = before ++ "/" ++ after) (hafter : '/' ∉ after.toList) :
    before = "/" ++ body ∧ after = flags := by
  have hlist : before.toList ++ '/' :: after.toList =
      ('/' :: body.toList) ++ '/' :: flags.toList := by
    rw [List.cons_append, ← h.toList, hparts]
    simp
  obtain ⟨hbefore, heq⟩ := eq_of_last_slash hafter (slash_not_mem_flags h.flags) hlist
  refine ⟨String.toList_injective ?_, String.toList_injective heq⟩
  rw [hbefore]
  simp

/-- **A text is a literal in one way only.** -/
theorem unique (h : IsLiteral text body flags) {body' flags' : String}
    (h' : IsLiteral text body' flags') : body = body' ∧ flags = flags' := by
  have hlist := h.toList.symm.trans h'.toList
  obtain ⟨hbody, hflags⟩ := eq_of_last_slash (slash_not_mem_flags h.flags)
    (slash_not_mem_flags h'.flags) (List.cons.inj hlist).2
  exact ⟨String.toList_injective hbody, String.toList_injective hflags⟩

theorem stripDelimiters_eq (h : IsLiteral text body flags) : stripDelimiters text = body := by
  have hbody : body? text.toList = some body.toList :=
    body?_eq_some_iff.2 ⟨flags.toList, h.flags, h.toList⟩
  rw [stripDelimiters, hbody]
  exact String.ofList_toList

end IsLiteral

theorem stripDelimiters_of_not_isLiteral {text : String}
    (h : ∀ body flags, ¬ IsLiteral text body flags) : stripDelimiters text = text := by
  have hbody : body? text.toList = none := by
    rw [Option.eq_none_iff_forall_ne_some]
    intro body hbody
    obtain ⟨flags, hflags, hlist⟩ := body?_eq_some_iff.1 hbody
    refine h (String.ofList body) (String.ofList flags) ⟨?_, ?_⟩
    · apply String.toList_injective
      rw [hlist]
      simp
    · rw [String.toList_ofList]
      exact hflags
  rw [stripDelimiters, hbody]

/-- **Literals are stripped exactly**: of a slash, any body, a slash and flags the body is left; a text
that is not of this form for any body and flags is left as it is; and the body of a literal ends at the
last slash, wherever else it has slashes. -/
theorem stripDelimiters_exact :
    (∀ body flags : String, (∀ c ∈ flags.toList, 'a' ≤ c ∧ c ≤ 'z') →
      stripDelimiters ("/" ++ body ++ "/" ++ flags) = body) ∧
    (∀ text : String,
      (¬ ∃ body flags : String, (∀ c ∈ flags.toList, 'a' ≤ c ∧ c ≤ 'z') ∧
        text = "/" ++ body ++ "/" ++ flags) → stripDelimiters text = text) ∧
    (∀ body flags before after : String, (∀ c ∈ flags.toList, 'a' ≤ c ∧ c ≤ 'z') →
      '/' ∉ after.toList → "/" ++ body ++ "/" ++ flags = before ++ "/" ++ after →
      before = "/" ++ stripDelimiters ("/" ++ body ++ "/" ++ flags)) := by
  have hflag : ∀ c : Char, isFlag c = true ↔ 'a' ≤ c ∧ c ≤ 'z' := fun c => by
    simp only [isFlag, Bool.and_eq_true, decide_eq_true_eq]
  refine ⟨fun body flags hflags => ?_, fun text htext => ?_,
    fun body flags before after hflags hafter hparts => ?_⟩
  · exact (IsLiteral.mk rfl fun c hc => (hflag c).2 (hflags c hc)).stripDelimiters_eq
  · refine stripDelimiters_of_not_isLiteral fun body flags h => htext ⟨body, flags, ?_, h.parts⟩
    exact fun c hc => (hflag c).1 (h.flags c hc)
  · have h : IsLiteral ("/" ++ body ++ "/" ++ flags) body flags :=
      ⟨rfl, fun c hc => (hflag c).2 (hflags c hc)⟩
    rw [h.stripDelimiters_eq]
    exact (h.last_slash hparts hafter).1

/-- A body with a slash, a line break and an end that looks like flags; and a text with a capital letter
behind its last slash. -/
theorem stripDelimiters_exact_slashes :
    stripDelimiters "/a/b\n/gi/mx" = "a/b\n/gi" ∧ stripDelimiters "/a/b/gI" = "/a/b/gI" := by
  obtain ⟨hliteral, hother, -⟩ := stripDelimiters_exact
  have hletters : ∀ c ∈ "mx".toList, 'a' ≤ c ∧ c ≤ 'z' := by simp
  refine ⟨hliteral "a/b\n/gi" "mx" hletters, hother "/a/b/gI" ?_⟩
  rintro ⟨body, flags, hflags, hparts⟩
  -- The last slash stands before `gI`, which are not flags.
  have hlist : "/a/b".toList ++ '/' :: "gI".toList = ('/' :: body.toList) ++ '/' :: flags.toList := by
    have h := congrArg String.toList hparts
    simpa using h
  have hslash : '/' ∉ flags.toList := fun hmem => absurd (hflags '/' hmem) (by decide)
  obtain ⟨-, rfl⟩ : _ ∧ flags = "gI" := by
    have h := eq_of_last_slash (by decide) hslash hlist
    exact ⟨h.1, String.toList_injective h.2.symm⟩
  exact absurd (hflags 'I' (by decide)) (by decide)

end Pattern
end Schemata
