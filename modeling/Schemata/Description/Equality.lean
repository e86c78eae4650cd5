import Schemata.Description.Basic
/-!
# Equality of descriptions

Equality is decided part by part, through the lists of descriptions below a node.
-/
namespace Schemata

namespace Description

/-- Two optional values are equal when both are absent or both are there and equal. -/
def equalOption? {α : Type} {a b : α} (h : Decidable (a = b)) : Decidable (some a = some b) :=
  match h with
  | .isTrue h => .isTrue (h ▸ rfl)
  | .isFalse h => .isFalse (fun e => h (Option.some.inj e))

/-- Two lists are equal when their heads and their tails are. -/
def equalCons {α : Type} {x y : α} {xs ys : List α} (h : Decidable (x = y))
    (hs : Decidable (xs = ys)) :
    Decidable (x :: xs = y :: ys) :=
  match h, hs with
  | .isTrue h, .isTrue hs => .isTrue (h ▸ hs ▸ rfl)
  | .isFalse h, _ => .isFalse (fun e => h (List.cons.inj e).1)
  | _, .isFalse hs => .isFalse (fun e => hs (List.cons.inj e).2)

mutual

def equal : (a b : Description) → Decidable (a = b)
  | ⟨t, i, o, c, p, a⟩, ⟨t', i', o', c', p', a'⟩ =>
    match decEq t t', equalItems? i i', equalItems? o o', equalChildren? c c',
        equalPatterns? p p', equalBranches? a a' with
    | .isTrue ht, .isTrue hi, .isTrue ho, .isTrue hc, .isTrue hp, .isTrue ha =>
      .isTrue (by subst ht hi ho hc hp ha; rfl)
    | .isFalse h, _, _, _, _, _ => .isFalse (fun e => h (mk.inj e).1)
    | _, .isFalse h, _, _, _, _ => .isFalse (fun e => h (mk.inj e).2.1)
    | _, _, .isFalse h, _, _, _ => .isFalse (fun e => h (mk.inj e).2.2.1)
    | _, _, _, .isFalse h, _, _ => .isFalse (fun e => h (mk.inj e).2.2.2.1)
    | _, _, _, _, .isFalse h, _ => .isFalse (fun e => h (mk.inj e).2.2.2.2.1)
    | _, _, _, _, _, .isFalse h => .isFalse (fun e => h (mk.inj e).2.2.2.2.2)

def equalItems? : (a b : Option (List Description)) → Decidable (a = b)
  | none, none => .isTrue rfl
  | none, some _ => .isFalse nofun
  | some _, none => .isFalse nofun
  | some a, some b => equalOption? (equalItems a b)

def equalItems : (a b : List Description) → Decidable (a = b)
  | [], [] => .isTrue rfl
  | [], _ :: _ => .isFalse nofun
  | _ :: _, [] => .isFalse nofun
  | x :: xs, y :: ys => equalCons (equal x y) (equalItems xs ys)

def equalChildren? : (a b : Option (List (String × Description))) → Decidable (a = b)
  | none, none => .isTrue rfl
  | none, some _ => .isFalse nofun
  | some _, none => .isFalse nofun
  | some a, some b => equalOption? (equalChildren a b)

def equalChildren : (a b : List (String × Description)) → Decidable (a = b)
  | [], [] => .isTrue rfl
  | [], _ :: _ => .isFalse nofun
  | _ :: _, [] => .isFalse nofun
  | (m, x) :: xs, (n, y) :: ys =>
    equalCons
      (match decEq m n, equal x y with
        | .isTrue hn, .isTrue h => .isTrue (hn ▸ h ▸ rfl)
        | .isFalse hn, _ => .isFalse (fun e => hn (Prod.mk.inj e).1)
        | _, .isFalse h => .isFalse (fun e => h (Prod.mk.inj e).2))
      (equalChildren xs ys)

def equalPatterns? : (a b : Option (List (PatternRule Description))) → Decidable (a = b)
  | none, none => .isTrue rfl
  | none, some _ => .isFalse nofun
  | some _, none => .isFalse nofun
  | some a, some b => equalOption? (equalPatterns a b)

def equalPatterns : (a b : List (PatternRule Description)) → Decidable (a = b)
  | [], [] => .isTrue rfl
  | [], _ :: _ => .isFalse nofun
  | _ :: _, [] => .isFalse nofun
  | ⟨r, s, x⟩ :: xs, ⟨r', s', y⟩ :: ys =>
    equalCons
      (match decEq r r', equalSchema? s s', equal x y with
        | .isTrue hr, .isTrue hs, .isTrue h => .isTrue (hr ▸ hs ▸ h ▸ rfl)
        | .isFalse hr, _, _ => .isFalse (fun e => hr (PatternRule.mk.inj e).1)
        | _, .isFalse hs, _ => .isFalse (fun e => hs (PatternRule.mk.inj e).2.1)
        | _, _, .isFalse h => .isFalse (fun e => h (PatternRule.mk.inj e).2.2))
      (equalPatterns xs ys)

def equalSchema? : (a b : Option Description) → Decidable (a = b)
  | none, none => .isTrue rfl
  | none, some _ => .isFalse nofun
  | some _, none => .isFalse nofun
  | some a, some b => equalOption? (equal a b)

def equalBranches? : (a b : Option (List (Alternative Description))) → Decidable (a = b)
  | none, none => .isTrue rfl
  | none, some _ => .isFalse nofun
  | some _, none => .isFalse nofun
  | some a, some b => equalOption? (equalBranches a b)

def equalBranches : (a b : List (Alternative Description)) → Decidable (a = b)
  | [], [] => .isTrue rfl
  | [], _ :: _ => .isFalse nofun
  | _ :: _, [] => .isFalse nofun
  | .conditional _ :: _, .schema _ :: _ => .isFalse nofun
  | .schema _ :: _, .conditional _ :: _ => .isFalse nofun
  | .conditional x :: xs, .conditional y :: ys =>
    equalCons
      (match decEq x y with
        | .isTrue h => .isTrue (h ▸ rfl)
        | .isFalse h => .isFalse (fun e => h (Alternative.conditional.inj e)))
      (equalBranches xs ys)
  | .schema x :: xs, .schema y :: ys =>
    equalCons
      (match equal x y with
        | .isTrue h => .isTrue (h ▸ rfl)
        | .isFalse h => .isFalse (fun e => h (Alternative.schema.inj e)))
      (equalBranches xs ys)

end

end Description

instance : DecidableEq Description := Description.equal

end Schemata
