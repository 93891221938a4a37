import Coercive.Proofs.Matching

namespace Coercive.Grammar

open Source Peg

variable {cs : List Char}

def operators : List Operator :=
  [.ne, .relation .le, .relation .ge, .relation .lt, .relation .gt, .add, .arithmetic .sub,
    .arithmetic .pow, .arithmetic .mul, .arithmetic .div, .arithmetic .rem]

theorem derives_text {r : Rule} {t : List Char} (hkind : r.kind = .plain) (hbody : r.body = .text t)
    (rest : List Char) : Derives .spaced (.rule r) (t ++ rest) (some ([.mk r t []], rest)) := by
  have hmatch : Derives (r.kind.mode .spaced) r.body (t ++ rest) (some ([], rest)) := by
    rw [hbody]
    exact .text rfl
  have hleave : r.leave .spaced (consumed (t ++ rest) rest) [] = [.mk r t []] := by
    simp only [consumed_append, Rule.leave, hkind]
  rw [← hleave]
  exact .rule hmatch

theorem kind_rule (op : Operator) : op.rule.kind = .plain ∧ op.rule.body = .text op.text := by
  cases op with
  | relation r => cases r <;> exact ⟨rfl, rfl⟩
  | arithmetic a => cases a <;> exact ⟨rfl, rfl⟩
  | eq | ne | add => exact ⟨rfl, rfl⟩

theorem derives_operator_one (op : Operator) (cs : List Char) :
    Derives .spaced (.rule op.rule) cs
      (if op.text.isPrefixOf cs then some ([.mk op.rule op.text []], cs.drop op.text.length)
        else none) := by
  obtain ⟨hkind, hbody⟩ := kind_rule op
  split
  · next htext =>
    obtain ⟨tail, rfl⟩ := List.isPrefixOf_iff_prefix.1 htext
    rw [List.drop_left]
    exact derives_text hkind hbody tail
  · next htext =>
    rw [List.isPrefixOf_iff_prefix] at htext
    apply Derives.ruleFail
    rw [hbody]
    exact .textFail htext

theorem derives_oneOf (op : Operator) (ops : List Operator) (cs : List Char) :
    Derives .spaced (oneOf op.rule (ops.map Operator.rule)) cs
      (((op :: ops).find? fun op => op.text.isPrefixOf cs).map fun op =>
        ([.mk op.rule op.text []], cs.drop op.text.length)) := by
  induction ops generalizing op with
  | nil =>
    have hone := derives_operator_one op cs
    rw [List.find?_cons]
    split at hone
    · next h =>
      rw [h]
      exact hone
    · next h =>
      rw [Bool.eq_false_iff.2 h]
      exact hone
  | cons next ops ih =>
    have hone := derives_operator_one op cs
    rw [List.find?_cons]
    split at hone
    · next h =>
      rw [h]
      exact .first hone
    · next h =>
      rw [Bool.eq_false_iff.2 h]
      exact .second hone (ih next)

theorem operator?_text_ne_none (op : Operator) (tail : List Char) :
    operator? (op.text ++ tail) ≠ none := by
  intro h
  unfold operator? at h
  split at h
  all_goals try cases h
  next heq hne hle hge hlt hgt hadd hsub hpow hmul hdiv hrem =>
  cases op with
  | relation r =>
    cases r with
    | lt => exact hlt tail rfl
    | le => exact hle tail rfl
    | gt => exact hgt tail rfl
    | ge => exact hge tail rfl
  | arithmetic a =>
    cases a with
    | sub => exact hsub tail rfl
    | mul => exact hmul tail rfl
    | div => exact hdiv tail rfl
    | rem => exact hrem tail rfl
    | pow => exact hpow tail rfl
  | eq => exact heq tail rfl
  | ne => exact hne tail rfl
  | add => exact hadd tail rfl

theorem operator?_eq_find (cs : List Char) :
    operator? cs = ((.eq :: operators).find? fun op => op.text.isPrefixOf cs).map fun op =>
      (op, cs.drop op.text.length) := by
  have hlonger : ∀ {c : Char} {cs : List Char}, (∀ rest, cs = c :: rest → False) →
      [c].isPrefixOf cs = false := by
    intro c cs h
    rw [Bool.eq_false_iff, ne_eq, List.isPrefixOf_iff_prefix]
    rintro ⟨rest, rfl⟩
    exact h rest rfl
  cases h : operator? cs with
  | none =>
    symm
    rw [Option.map_eq_none_iff, List.find?_eq_none]
    intro op _ hprefix
    obtain ⟨tail, rfl⟩ := List.isPrefixOf_iff_prefix.1 hprefix
    exact operator?_text_ne_none op tail h
  | some found =>
    unfold operator? at h
    split at h
    case h_5 hnext | h_6 hnext | h_10 hnext =>
      cases h
      simp [operators, List.find?, Operator.text, List.isPrefixOf, hlonger hnext]
    all_goals cases h <;> rfl

theorem derives_operator (cs : List Char) :
    Derives .spaced (.rule .operator) cs
      ((operator? cs).map fun p => ([.mk p.1.rule p.1.text []], p.2)) := by
  have hmatch := derives_oneOf .eq operators cs
  rw [operator?_eq_find, Option.map_map]
  cases hfind : (.eq :: operators).find? fun op => op.text.isPrefixOf cs with
  | none =>
    rw [hfind] at hmatch
    exact .ruleFail hmatch
  | some op =>
    rw [hfind] at hmatch
    exact .rule hmatch

theorem derives_sign (s : Sign) (rest : List Char) :
    Derives .spaced (.rule .sign) (s.char :: rest) (some ([.mk s.rule [s.char] []], rest)) := by
  have hsign : Derives .spaced (.rule s.rule) ([s.char] ++ rest)
      (some ([.mk s.rule [s.char] []], rest)) := by
    cases s <;> exact derives_text rfl rfl rest
  cases s with
  | plus => exact .rule (.first hsign)
  | minus => exact .rule (.second (.ruleFail (.textFail (by simp [Sign.char]))) hsign)

theorem derives_sign_none (h : ∀ s : Sign, cs.head? ≠ some s.char) :
    Derives .spaced (.rule .sign) cs none := by
  have hnone : ∀ s : Sign, Derives .spaced (.text [s.char]) cs none := by
    intro s
    apply Derives.textFail
    rintro ⟨tail, rfl⟩
    exact h s rfl
  exact .ruleFail (.second (.ruleFail (hnone .plus)) (.ruleFail (hnone .minus)))

end Coercive.Grammar
