import Mathlib.Algebra.Group.Nat.Defs
import Mathlib.Data.List.Induction
import Schemata.Calendar.Reader
/-!
# Digits — numbers of a fixed width

A number that is written with so many digits has that many if it is small enough
(`Instant.length_padded`), and the digits name it (`Instant.valueOf_padded`); every text of so many
digits is written like that (`Instant.padded_valueOf`).  So reading so many digits is the inverse of
writing them (`Instant.digits?_eq_some_iff`).  Numbers of the same width come in the order of their texts
(`Instant.padded_lt`).
-/
namespace Schemata
namespace Instant

/-! ## The value of digits -/

theorem valueOf_eq (ds : List Char) : valueOf ds = Nat.ofDigitChars 10 ds 0 := rfl

theorem valueOf_append (ds es : List Char) :
    valueOf (ds ++ es) = 10 ^ es.length * valueOf ds + valueOf es := by
  rw [valueOf_eq, Nat.ofDigitChars_append, Nat.ofDigitChars_eq_ofDigitChars_zero]
  rfl

theorem valueOf_singleton (c : Char) : valueOf [c] = c.toNat - '0'.toNat := by
  simp [valueOf]

theorem toNat_of_isDigit {c : Char} (h : c.isDigit = true) : 48 ≤ c.toNat ∧ c.toNat ≤ 57 :=
  Char.isDigit_iff_toNat.1 h

theorem digitChar_valueOf {c : Char} (h : c.isDigit = true) :
    Nat.digitChar (c.toNat - '0'.toNat) = c := by
  have hc := toNat_of_isDigit h
  have hzero : '0'.toNat = 48 := rfl
  apply Char.toNat_inj.1
  rw [hzero, Nat.toNat_digitChar_of_lt_ten (by omega)]
  omega

theorem digitChar_lt {m n : Nat} (h : m < n) (hn : n < 10) : Nat.digitChar m < Nat.digitChar n := by
  change (Nat.digitChar m).toNat < (Nat.digitChar n).toNat
  rw [Nat.toNat_digitChar_of_lt_ten (Nat.lt_trans h hn), Nat.toNat_digitChar_of_lt_ten hn]
  omega

theorem valueOf_lt {ds : List Char} (h : ∀ c ∈ ds, c.isDigit = true) :
    valueOf ds < 10 ^ ds.length := by
  induction ds using List.reverseRecOn with
  | nil => decide
  | append_singleton ds c ih =>
    rw [List.forall_mem_append] at h
    have hfront := ih h.1
    have hc := toNat_of_isDigit (h.2 c (List.mem_singleton_self c))
    have hzero : '0'.toNat = 48 := rfl
    rw [valueOf_append, valueOf_singleton, hzero, List.length_append, List.length_singleton,
      Nat.pow_succ]
    omega

/-! ## Numbers of a fixed width -/

theorem padded_of_lt {width n : Nat} (h : n < 10) :
    padded (width + 1) n = List.replicate width '0' ++ [Nat.digitChar n] := by
  rw [padded, Nat.toDigits_of_lt_base h]
  rfl

/-- The last digit comes off the end. -/
theorem padded_succ (width n : Nat) :
    padded (width + 2) n = padded (width + 1) (n / 10) ++ [Nat.digitChar (n % 10)] := by
  by_cases h : n < 10
  · have hzero : Nat.digitChar 0 = '0' := rfl
    rw [padded_of_lt h, Nat.div_eq_of_lt h, padded_of_lt (by decide), Nat.mod_eq_of_lt h, hzero,
      ← List.replicate_succ']
  · have hdigits : Nat.toDigits 10 n = Nat.toDigits 10 (n / 10) ++ [Nat.digitChar (n % 10)] := by
      rw [Nat.toDigits_eq_if (by decide), if_neg h]
    have hwidth : width + 2 - ((Nat.toDigits 10 (n / 10)).length + 1) =
        width + 1 - (Nat.toDigits 10 (n / 10)).length := by omega
    rw [padded, padded, hdigits, List.length_append, List.length_singleton, hwidth,
      List.append_assoc]

theorem length_padded : ∀ {width n : Nat}, n < 10 ^ (width + 1) →
    (padded (width + 1) n).length = width + 1
  | 0, n, h => by rw [padded_of_lt h]; rfl
  | width + 1, n, h => by
    have hrest : n / 10 < 10 ^ (width + 1) := by
      rw [Nat.pow_succ] at h
      omega
    rw [padded_succ, List.length_append, length_padded hrest, List.length_singleton]

theorem isDigit_of_mem_padded {width n : Nat} {c : Char} (h : c ∈ padded width n) :
    c.isDigit = true := by
  rcases List.mem_append.1 h with h | h
  · rw [List.eq_of_mem_replicate h]
    rfl
  · exact Nat.isDigit_of_mem_toDigits (by decide) (by decide) h

theorem padded_ne_nil (width n : Nat) : padded width n ≠ [] := by
  rw [padded]
  simp [Nat.toDigits_ne_nil]

/-- **The digits of a number name it.** -/
theorem valueOf_padded (width n : Nat) : valueOf (padded width n) = n := by
  rw [padded, valueOf_append, valueOf_eq, Nat.ofDigitChars_replicate_zero, valueOf_eq,
    Nat.ofDigitChars_toDigits (by decide) (by decide)]
  simp

/-- **Digits are those of the number that they name.** -/
theorem padded_valueOf : ∀ {width : Nat} {ds : List Char}, ds.length = width + 1 →
    (∀ c ∈ ds, c.isDigit = true) → padded (width + 1) (valueOf ds) = ds := by
  intro width ds hlength hdigits
  induction ds using List.reverseRecOn generalizing width with
  | nil => cases hlength
  | append_singleton ds c ih =>
    rw [List.length_append, List.length_singleton] at hlength
    rw [List.forall_mem_append] at hdigits
    have hdigit := hdigits.2 c (List.mem_singleton_self c)
    have hc := toNat_of_isDigit hdigit
    have hzero : '0'.toNat = 48 := rfl
    have hvalue : valueOf (ds ++ [c]) = 10 * valueOf ds + (c.toNat - '0'.toNat) := by
      rw [valueOf_append, valueOf_singleton]
      rfl
    cases width with
    | zero =>
      obtain rfl : ds = [] := List.length_eq_zero_iff.1 (by omega)
      rw [List.nil_append, valueOf_singleton, padded_of_lt (by omega), digitChar_valueOf hdigit]
      rfl
    | succ width =>
      have hdiv : valueOf (ds ++ [c]) / 10 = valueOf ds := by omega
      have hmod : valueOf (ds ++ [c]) % 10 = c.toNat - '0'.toNat := by omega
      rw [padded_succ, hdiv, hmod, digitChar_valueOf hdigit, ih (by omega) hdigits.1]

/-! ## Order -/

theorem append_lt_append {as bs : List Char} (h : as < bs) (hlength : as.length = bs.length)
    (cs ds : List Char) : as ++ cs < bs ++ ds := by
  induction as generalizing bs with
  | nil =>
    obtain rfl := List.length_eq_zero_iff.1 hlength.symm
    exact absurd h (List.lt_irrefl [])
  | cons a as ih =>
    cases bs with
    | nil => cases hlength
    | cons b bs =>
      rw [List.cons_append, List.cons_append, List.cons_lt_cons_iff]
      rcases List.cons_lt_cons_iff.1 h with h | ⟨heq, h⟩
      · exact .inl h
      · exact .inr ⟨heq, ih h (Nat.succ.inj hlength)⟩

/-- **Numbers of the same width come in the order of their texts.** -/
theorem padded_lt : ∀ {width m n : Nat}, m < n → n < 10 ^ (width + 1) →
    padded (width + 1) m < padded (width + 1) n
  | 0, m, n, h, hn => by
    rw [padded_of_lt (Nat.lt_trans h hn), padded_of_lt hn]
    exact List.cons_lt_cons_iff.2 (.inl (digitChar_lt h hn))
  | width + 1, m, n, h, hn => by
    have hrest : n / 10 < 10 ^ (width + 1) := by
      rw [Nat.pow_succ] at hn
      omega
    rw [padded_succ, padded_succ]
    by_cases hsame : m / 10 = n / 10
    · rw [hsame]
      exact List.append_left_lt (List.cons_lt_cons_iff.2 (.inl (digitChar_lt (by omega) (by omega))))
    · have hlt : m / 10 < n / 10 := by omega
      refine append_lt_append (padded_lt hlt hrest) ?_ _ _
      rw [length_padded hrest, length_padded (Nat.lt_trans hlt hrest)]

/-- Numbers of the same width in front of texts: the numbers decide, and the rest if they are equal. -/
theorem padded_append_lt {width m n : Nat} (hm : m < 10 ^ (width + 1)) (hn : n < 10 ^ (width + 1))
    {cs ds : List Char} (h : m < n ∨ m = n ∧ cs < ds) :
    padded (width + 1) m ++ cs < padded (width + 1) n ++ ds := by
  rcases h with h | ⟨rfl, h⟩
  · refine append_lt_append (padded_lt h hn) ?_ _ _
    rw [length_padded hm, length_padded hn]
  · exact List.append_left_lt h

/-! ## Reading -/

/-- **So many digits are read if and only if they were written.** -/
theorem digits?_eq_some_iff {width n : Nat} {cs rest : List Char} :
    digits? (width + 1) cs = some (n, rest) ↔
      n < 10 ^ (width + 1) ∧ cs = padded (width + 1) n ++ rest := by
  constructor
  · intro h
    unfold digits? at h
    dsimp only at h
    split at h
    · rename_i hds
      rw [Bool.and_eq_true, decide_eq_true_eq, List.all_eq_true] at hds
      obtain ⟨hlength, hdigits⟩ := hds
      cases h
      have hlt := valueOf_lt hdigits
      rw [hlength] at hlt
      refine ⟨hlt, ?_⟩
      rw [padded_valueOf hlength hdigits, List.take_append_drop]
    · cases h
  · rintro ⟨hn, rfl⟩
    have hlength := length_padded hn
    have hall : (padded (width + 1) n).all Char.isDigit = true :=
      List.all_eq_true.2 fun c hc => isDigit_of_mem_padded hc
    unfold digits?
    rw [List.take_left' hlength, List.drop_left' hlength]
    simp [hlength, hall, valueOf_padded]

/-- A number is read as far as its digits go. -/
theorem number?_padded {most width n : Nat} {rest : List Char}
    (hwidth : (padded width n).length ≤ most)
    (hrest : ∀ c cs, rest = c :: cs → c.isDigit = false) :
    number? most (padded width n ++ rest) = some (n, rest) := by
  have hend : ∀ k, (rest.take k).takeWhile Char.isDigit = [] := fun k => by
    cases k with
    | zero => rfl
    | succ k =>
      cases rest with
      | nil => rfl
      | cons c cs => exact List.takeWhile_cons_of_neg (by simp [hrest c cs rfl])
  have htake : ((padded width n ++ rest).take most).takeWhile Char.isDigit = padded width n := by
    rw [List.take_append, List.take_of_length_le hwidth,
      List.takeWhile_append_of_pos fun c hc => isDigit_of_mem_padded hc, hend, List.append_nil]
  unfold number?
  dsimp only
  rw [htake, List.isEmpty_eq_false_iff.2 (padded_ne_nil width n), valueOf_padded,
    List.drop_left' rfl]
  rfl

end Instant
end Schemata
