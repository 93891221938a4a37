import Coercive.Proofs.Extent
import Coercive.Source.Parse
import Mathlib.Data.List.Basic

namespace Coercive.Source

theorem scan_closingBrace (cs : List Char) : scan ('\x7d' :: cs) = ([], '\x7d' :: cs) := by
  rw [scan_eq]
  rfl

/-- Scanning up to a brace does not depend on what follows the brace, nor on the brace. -/
theorem scan_brace {cs rest : List Char} {ts : List Token} (h : scan cs = (ts, '\x7d' :: rest)) :
    ∃ pre, cs = pre ++ '\x7d' :: rest ∧ scan pre = (ts, []) ∧
      ∀ after, scan (pre ++ '\x7d' :: after) = (ts, '\x7d' :: after) := by
  obtain ⟨pre, rfl⟩ : '\x7d' :: rest <:+ cs := by
    have hsuffix := scan_suffix cs
    rwa [h] at hsuffix
  have houtside : ∀ comment, skip comment ('\x7d' :: rest) = '\x7d' :: rest → comment = false := by
    intro comment hskip
    cases comment with
    | false => rfl
    | true =>
      have hle := length_skip_le true rest
      have hlength := congrArg List.length hskip
      simp [skip] at hlength
      omega
  have hbrace : ∀ after, Closed ('\x7d' :: after) := .cons (by decide)
  refine ⟨pre, rfl, ?_, fun after => ?_⟩
  · have hend := scan_closed [] (hbrace rest) .nil (fun comment _ => rfl) h
    rwa [List.append_nil, scan_nil, List.append_nil] at hend
  · have hend := scan_closed ('\x7d' :: after) (hbrace rest) (hbrace after)
      (fun comment hskip => by rw [houtside comment hskip]) h
    rwa [scan_closingBrace, List.append_nil] at hend

theorem scan_lineEnd {cs : List Char} {ts : List Token} (h : scan cs = (ts, []))
    (after : List Char) : scan (cs ++ '\n' :: '\x7d' :: after) = (ts, '\x7d' :: after) := by
  rw [scan_line h, scan_closingBrace, List.append_nil]

theorem parse?_of_scan {cs : List Char} {ts : List Token} (h : scan cs = (ts, [])) :
    parse? cs = expr? ts := by
  rw [parse?, h]

theorem parseHole?_of_scan {cs rest : List Char} {ts : List Token}
    (h : scan cs = (ts, '\x7d' :: rest)) :
    parseHole? cs = (expr? ts).map fun e => (e, rest) := by
  simp only [parseHole?, h]

/-- What is read in a hole is the text before a brace, which is an expression by itself, and the
text behind the brace has no part in it. -/
theorem parseHole?_eq_some {cs rest : List Char} {e : Expr} (h : parseHole? cs = some (e, rest)) :
    ∃ pre, cs = pre ++ '\x7d' :: rest ∧ parse? pre = some e ∧
      ∀ after, parseHole? (pre ++ '\x7d' :: after) = some (e, after) := by
  unfold parseHole? at h
  split at h
  · next ts tail hscan =>
    obtain ⟨e', he, hpair⟩ := Option.map_eq_some_iff.1 h
    cases hpair
    obtain ⟨pre, rfl, halone, hbrace⟩ := scan_brace hscan
    refine ⟨pre, rfl, (parse?_of_scan halone).trans he, fun after => ?_⟩
    rw [parseHole?_of_scan (hbrace after), he]
    rfl
  · cases h

theorem parseHole?_lineEnd {cs : List Char} {e : Expr} (h : parse? cs = some e)
    (after : List Char) : parseHole? (cs ++ '\n' :: '\x7d' :: after) = some (e, after) := by
  unfold parse? at h
  split at h
  · next ts hscan =>
    rw [parseHole?_of_scan (scan_lineEnd hscan after), h]
    rfl
  · cases h

theorem ne_nil_of_parse? {cs : List Char} {e : Expr} (h : parse? cs = some e) : cs ≠ [] := by
  rintro rfl
  have hnone : parse? [] = none := parse?_of_scan scan_nil
  rw [hnone] at h
  cases h

theorem parse_eq_ok {s : String} {e : Expr} : parse s = .ok e ↔ parse? s.toList = some e := by
  unfold parse
  cases parse? s.toList <;> simp

theorem parseBraced_eq_ok {s : String} {e : Expr} {n : Nat} :
    parseBraced s = .ok (e, n) ↔ ∃ rest, parseHole? s.toList = some (e, rest) ∧
      s.utf8ByteSize - Text.byteLength rest = n := by
  rw [← Text.byteLength_toList]
  unfold parseBraced parseHole
  cases parseHole? s.toList with
  | none =>
    constructor
    · intro h
      cases h
    · rintro ⟨_, h, _⟩
      cases h
  | some found =>
    constructor
    · intro h
      cases h
      exact ⟨_, rfl, rfl⟩
    · rintro ⟨_, h, rfl⟩
      cases h
      rfl

/-- The place `n` of a text, counted in bytes, is right behind a closing brace, and `before` is the
text in front of the brace. -/
structure BraceAt (s : String) (n : Nat) (before : String) : Prop where
  boundary : String.Pos.Raw.IsValid s ⟨n⟩
  byte : (Text.bytes s.toList)[n - 1]? = some '\x7d'.toUInt8
  beginning : ∃ after, s = before ++ "\x7d" ++ after
  size : before.utf8ByteSize + 1 = n

theorem BraceAt.intro (before after : String) :
    BraceAt (before ++ "\x7d" ++ after) (before.utf8ByteSize + 1) before := by
  have hsize : (before ++ "\x7d").utf8ByteSize = before.utf8ByteSize + 1 := by
    rw [String.utf8ByteSize_append]
    rfl
  refine ⟨?_, ?_, ⟨after, rfl⟩, rfl⟩
  · rw [String.Pos.Raw.isValid_iff_exists_append]
    exact ⟨before ++ "\x7d", after, rfl, String.Pos.Raw.ext hsize.symm⟩
  · have hlength : (Text.bytes before.toList).length = before.utf8ByteSize :=
      Text.byteLength_toList before
    rw [String.toList_append, String.toList_append, Text.bytes_append, Text.bytes_append,
      Nat.add_sub_cancel, ← hlength, List.append_assoc, List.getElem?_append_right (Nat.le_refl _),
      Nat.sub_self]
    rfl

/-- The two readers of expressions agree. What is read up to a closing brace has its brace right
before the place that is counted, spells the same expression alone, and does not depend on what
follows; and every text that spells an expression does so before a line end and a brace. -/
theorem parseBraced_local (s : String) :
    (∀ e n, parseBraced s = .ok (e, n) → 2 ≤ n ∧ n ≤ s.utf8ByteSize ∧
      (∃ before, BraceAt s n before ∧ parse before = .ok e) ∧
      ∀ t, parseBraced (s ++ t) = .ok (e, n)) ∧
    (∀ e, parse s = .ok e → ∀ t,
      parseBraced (s ++ "\n\x7d" ++ t) = .ok (e, s.utf8ByteSize + 2)) := by
  constructor
  · intro e n h
    obtain ⟨rest, hhole, hn⟩ := parseBraced_eq_ok.1 h
    obtain ⟨pre, htext, hparse, hafter⟩ := parseHole?_eq_some hhole
    obtain ⟨before, rfl⟩ : ∃ before : String, before.toList = pre :=
      ⟨.ofList pre, String.toList_ofList⟩
    obtain ⟨after, rfl⟩ : ∃ after : String, after.toList = rest :=
      ⟨.ofList rest, String.toList_ofList⟩
    have hs : s = before ++ "\x7d" ++ after := by
      apply String.toList_injective
      simpa using htext
    have hsize : s.utf8ByteSize = before.utf8ByteSize + 1 + after.utf8ByteSize := by
      rw [hs, String.utf8ByteSize_append, String.utf8ByteSize_append]
      rfl
    rw [Text.byteLength_toList] at hn
    have hbefore : before.utf8ByteSize ≠ 0 := by
      intro hzero
      rw [String.utf8ByteSize_eq_zero_iff.1 hzero] at hparse
      exact ne_nil_of_parse? hparse rfl
    refine ⟨by omega, by omega, ⟨before, ?_, parse_eq_ok.2 hparse⟩, fun t => ?_⟩
    · have hplace : n = before.utf8ByteSize + 1 := by omega
      rw [hs, hplace]
      exact .intro before after
    · refine parseBraced_eq_ok.2 ⟨(after ++ t).toList, ?_, ?_⟩
      · rw [String.toList_append, htext]
        simpa using hafter _
      · rw [Text.byteLength_toList, String.utf8ByteSize_append, String.utf8ByteSize_append]
        omega
  · intro e h t
    refine parseBraced_eq_ok.2 ⟨t.toList, ?_, ?_⟩
    · simpa using parseHole?_lineEnd (parse_eq_ok.1 h) t.toList
    · rw [Text.byteLength_toList, String.utf8ByteSize_append, String.utf8ByteSize_append]
      have hend : "\n\x7d".utf8ByteSize = 2 := rfl
      omega

theorem parseBraced_local_comment :
    parse "a // \x7d" = .ok (.name "a") ∧
      parseBraced "a // \x7d\n\x7d\x7d" = .ok (.name "a", 8) ∧
      (∃ before, BraceAt "a // \x7d\n\x7d\x7d" 8 before ∧ parse before = .ok (.name "a")) ∧
      parseBraced ("a // \x7d\n\x7d\x7d" ++ "'") = .ok (.name "a", 8) ∧
      parseBraced ("a // \x7d" ++ "\n\x7d" ++ "'") =
        .ok (.name "a", "a // \x7d".utf8ByteSize + 2) := by
  have halone : parse "a // \x7d" = .ok (.name "a") := by cbv
  have hbraced : parseBraced "a // \x7d\n\x7d\x7d" = .ok (.name "a", 8) := by cbv
  obtain ⟨_, _, hbefore, hafter⟩ := (parseBraced_local "a // \x7d\n\x7d\x7d").1 _ _ hbraced
  exact ⟨halone, hbraced, hbefore, hafter "'", (parseBraced_local "a // \x7d").2 _ halone "'"⟩

end Coercive.Source
