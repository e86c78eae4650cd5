/-!
# Folds — the last step that matters

Where each step may fail and a later step takes the place of earlier ones, what a run leaves is
decided by the last step that matters to it: the steps behind keep what that one wrote.
-/
namespace Schemata

variable {α β σ ε : Type}

/-! ## The last of a list -/

/-- **The last of a list with a property**, with those behind it. -/
structure IsLast (p : α → Prop) (l : List α) (a : α) (behind : List α) : Prop where
  split : ∃ before, l = before ++ a :: behind
  holds : p a
  none_behind : ∀ b ∈ behind, ¬p b

namespace IsLast

variable {p : α → Prop} {l behind : List α} {a : α}

theorem mem (h : IsLast p l a behind) : a ∈ l := by
  obtain ⟨before, rfl⟩ := h.split
  exact List.mem_append_right _ List.mem_cons_self

theorem cons (h : IsLast p l a behind) (b : α) : IsLast p (b :: l) a behind := by
  obtain ⟨before, rfl⟩ := h.split
  exact ⟨⟨b :: before, rfl⟩, h.holds, h.none_behind⟩

theorem exists_of_mem : ∀ {l : List α}, (∃ a ∈ l, p a) → ∃ a behind, IsLast p l a behind
  | [], ⟨_, hmem, _⟩ => absurd hmem List.not_mem_nil
  | b :: l, ⟨a, hmem, ha⟩ => by
    by_cases hlater : ∃ c ∈ l, p c
    · obtain ⟨c, behind, hlast⟩ := exists_of_mem hlater
      exact ⟨c, behind, hlast.cons b⟩
    · have hnone : ∀ c ∈ l, ¬p c := fun c hc hpc => hlater ⟨c, hc, hpc⟩
      rcases List.mem_cons.1 hmem with rfl | hmem
      · exact ⟨a, l, ⟨[], rfl⟩, ha, hnone⟩
      · exact absurd ha (hnone a hmem)

/-- The last of a longer list is its head, when nothing behind has the property, or stays the last. -/
theorem of_cons {b : α} (h : IsLast p (b :: l) a behind) :
    (a = b ∧ behind = l) ∨ IsLast p l a behind := by
  obtain ⟨before, hsplit⟩ := h.split
  cases before with
  | nil =>
    rw [List.nil_append, List.cons.injEq] at hsplit
    exact .inl ⟨hsplit.1.symm, hsplit.2.symm⟩
  | cons c before =>
    rw [List.cons_append, List.cons.injEq] at hsplit
    exact .inr ⟨⟨before, hsplit.2⟩, h.holds, h.none_behind⟩

theorem unique : ∀ {l : List α} {a b : α} {behind behind' : List α},
    IsLast p l a behind → IsLast p l b behind' → a = b ∧ behind = behind'
  | [], _, _, _, _, h, _ => absurd h.mem List.not_mem_nil
  | c :: l, a, b, behind, behind', h, h' => by
    rcases h.of_cons with ⟨rfl, rfl⟩ | hl
    · rcases h'.of_cons with ⟨rfl, rfl⟩ | hl'
      · exact ⟨rfl, rfl⟩
      · exact absurd hl'.holds (h.none_behind b hl'.mem)
    · rcases h'.of_cons with ⟨rfl, rfl⟩ | hl'
      · exact absurd hl.holds (h'.none_behind a hl.mem)
      · exact unique hl hl'

end IsLast

/-! ## Runs of steps that may fail -/

theorem exists_ok_of_map {x : Except ε α} {g : α → β} {b : β} (h : x.map g = .ok b) :
    ∃ a, x = .ok a ∧ b = g a := by
  cases x with
  | error e => cases h
  | ok a =>
    cases h
    exact ⟨a, rfl, rfl⟩

theorem exists_ok_of_bind {x : Except ε α} {next : α → Except ε β} {b : β}
    (h : (x >>= next) = .ok b) : ∃ a, x = .ok a ∧ next a = .ok b := by
  cases x with
  | error e => cases h
  | ok a => exact ⟨a, rfl, h⟩

section Runs

variable {step : σ → α → Except ε σ}

theorem foldlM_cons_ok {a : α} {l : List α} {s t : σ} (h : (a :: l).foldlM step s = .ok t) :
    ∃ s', step s a = .ok s' ∧ l.foldlM step s' = .ok t := by
  rw [List.foldlM_cons] at h
  exact exists_ok_of_bind h

theorem foldlM_append_ok : ∀ {before behind : List α} {s t : σ},
    (before ++ behind).foldlM step s = .ok t →
      ∃ s', before.foldlM step s = .ok s' ∧ behind.foldlM step s' = .ok t
  | [], _, s, _, h => ⟨s, rfl, h⟩
  | a :: before, behind, s, t, h => by
    obtain ⟨s₁, ha, h⟩ := foldlM_cons_ok h
    obtain ⟨s₂, hbefore, hbehind⟩ := foldlM_append_ok h
    refine ⟨s₂, ?_, hbehind⟩
    rw [List.foldlM_cons, ha]
    exact hbefore

/-- A run goes through the last step with a property, and goes on from there. -/
theorem IsLast.foldlM_ok {p : α → Prop} {l behind : List α} {a : α} {s t : σ}
    (hlast : IsLast p l a behind) (h : l.foldlM step s = .ok t) :
    ∃ s₁ s₂, step s₁ a = .ok s₂ ∧ behind.foldlM step s₂ = .ok t := by
  obtain ⟨before, rfl⟩ := hlast.split
  obtain ⟨s₁, -, h⟩ := foldlM_append_ok h
  obtain ⟨s₂, ha, h⟩ := foldlM_cons_ok h
  exact ⟨s₁, s₂, ha, h⟩

variable {p : α → Prop} (observe : σ → β)

/-- What each step keeps, a run keeps. -/
theorem foldlM_keeps (hkeeps : ∀ s a s', ¬p a → step s a = .ok s' → observe s' = observe s) :
    ∀ {l : List α} {s t : σ}, (∀ a ∈ l, ¬p a) → l.foldlM step s = .ok t → observe t = observe s
  | [], _, _, _, h => by
    cases h
    rfl
  | a :: l, s, t, hnone, h => by
    rw [List.forall_mem_cons] at hnone
    obtain ⟨s', ha, h⟩ := foldlM_cons_ok h
    rw [foldlM_keeps hkeeps hnone.2 h, hkeeps s a s' hnone.1 ha]

/-- **A run ends with what the last step that matters left.** -/
theorem IsLast.observe_eq (hkeeps : ∀ s a s', ¬p a → step s a = .ok s' → observe s' = observe s)
    {l behind : List α} {a : α} {s t : σ} (hlast : IsLast p l a behind)
    (h : l.foldlM step s = .ok t) :
    ∃ s₁ s₂, step s₁ a = .ok s₂ ∧ observe t = observe s₂ := by
  obtain ⟨s₁, s₂, ha, hbehind⟩ := hlast.foldlM_ok h
  exact ⟨s₁, s₂, ha, foldlM_keeps observe hkeeps hlast.none_behind hbehind⟩

end Runs

end Schemata
