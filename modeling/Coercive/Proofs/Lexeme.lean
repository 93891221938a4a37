import Coercive.Proofs.Spelling

namespace Coercive

def Operator.text : Operator → List Char
  | .eq => ['=', '=']
  | .ne => ['!', '=']
  | .relation .lt => ['<']
  | .relation .le => ['<', '=']
  | .relation .gt => ['>']
  | .relation .ge => ['>', '=']
  | .add => ['+']
  | .arithmetic .sub => ['-']
  | .arithmetic .mul => ['*']
  | .arithmetic .div => ['/']
  | .arithmetic .rem => ['%']
  | .arithmetic .pow => ['*', '*']

def Sign.operator : Sign → Operator
  | .plus => .add
  | .minus => .arithmetic .sub

namespace Source

def isIdentifier (w : String) : Bool :=
  match w.toList with
  | [] => false
  | c :: cs => isWordStart c && cs.all isWordPart

def escape (quote c : Char) : List Char :=
  if c = quote ∨ c = '\\' then ['\\', c]
  else if c = '\n' then ['\\', 'n']
  else if c = '\r' then ['\\', 'r']
  else if c = '\t' then ['\\', 't']
  else [c]

def quoted (quote : Char) (s : String) : List Char :=
  quote :: (s.toList.flatMap (escape quote) ++ [quote])

theorem scan_eq (cs : List Char) :
    scan cs = match token? (skip false cs) with
      | none => ([], skip false cs)
      | some (t, rest) => (t :: (scan rest).1, (scan rest).2) := by
  rw [scan]
  split <;> simp [*]

theorem scan_nil : scan [] = ([], []) := by
  rw [scan_eq]
  rfl

theorem scan_blank (cs : List Char) : scan (' ' :: cs) = scan cs := by
  rw [scan_eq, scan_eq cs]
  rfl

theorem token?_blank {c : Char} (h : isBlank c = true) (cs : List Char) :
    token? (c :: cs) = none := by
  simp only [isBlank, Bool.or_eq_true, beq_iff_eq] at h
  rcases h with ((rfl | rfl) | rfl) | rfl <;> rfl

theorem skip_of_token? {cs rest : List Char} {t : Token} (h : token? cs = some (t, rest))
    (hcomment : cs.head? = some '/' → rest.head? ≠ some '/') : skip false cs = cs := by
  cases cs with
  | nil => rfl
  | cons c cs =>
    have hblank : isBlank c ≠ true := by
      intro hblank
      rw [token?_blank hblank] at h
      cases h
    have hslash : ¬ (c == '/' && cs.head? == some '/') = true := by
      simp only [Bool.and_eq_true, beq_iff_eq]
      rintro ⟨rfl, hcs⟩
      obtain ⟨tail, rfl⟩ := List.head?_eq_some_iff.1 hcs
      cases h
      exact hcomment rfl rfl
    simp only [skip, Bool.false_eq_true, if_false, if_neg hblank, if_neg hslash]

theorem scan_token {cs rest stop : List Char} {t : Token} {ts : List Token}
    (h : token? cs = some (t, rest)) (hcomment : cs.head? = some '/' → rest.head? ≠ some '/')
    (hrest : scan rest = (ts, stop)) : scan cs = (t :: ts, stop) := by
  rw [scan_eq, skip_of_token? h hcomment, h]
  simp only [hrest]

def marks : List Char := ['.', ',', '(', ')', '[', ']']

theorem token?_cons {c : Char} (hc : c ∉ marks) (cs : List Char) :
    token? (c :: cs) =
      if c == '\'' || c == '"' then
        (string? c cs).map fun (content, rest) => (.atom (.string (String.ofList content)), rest)
      else if isWordStart c then
        some (.atom (.word (String.ofList (c :: cs.takeWhile isWordPart))), cs.dropWhile isWordPart)
      else if Numeral.isDigit c then
        (number? (c :: cs)).map fun (n, rest) => (.atom (.number n), rest)
      else
        (operator? (c :: cs)).map fun (op, rest) => (.atom (.operator op), rest) := by
  unfold token?
  split <;> simp_all [marks]

theorem plain_of_isWordPart {c : Char} (h : isWordPart c = true) :
    c ≠ '/' ∧ c ≠ '\'' ∧ c ≠ '"' ∧ c ∉ marks := by
  have hne : ∀ d, isWordPart d = false → c ≠ d := by
    rintro d hd rfl
    rw [h] at hd
    cases hd
  refine ⟨hne _ rfl, hne _ rfl, hne _ rfl, ?_⟩
  simp only [marks, List.mem_cons, List.not_mem_nil, or_false, not_or]
  exact ⟨hne _ rfl, hne _ rfl, hne _ rfl, hne _ rfl, hne _ rfl, hne _ rfl⟩

theorem isWordStart_of_isDigit {c : Char} (h : Numeral.isDigit c = true) :
    isWordStart c = false := by
  rw [Bool.eq_false_iff]
  intro hstart
  simp only [isWordStart, Bool.or_eq_true, Bool.and_eq_true, decide_eq_true_eq, beq_iff_eq,
    Numeral.isDigit, Char.le_def, UInt32.le_iff_toNat_le] at h hstart
  rcases hstart with (hstart | hstart) | rfl
  · exact absurd (Nat.le_trans hstart.1 h.2) (by decide)
  · exact absurd (Nat.le_trans hstart.1 h.2) (by decide)
  · exact absurd h.2 (by decide)

theorem exists_of_isIdentifier {w : String} (h : isIdentifier w = true) :
    ∃ c cs, w.toList = c :: cs ∧ isWordStart c = true ∧ ∀ d ∈ cs, isWordPart d = true := by
  unfold isIdentifier at h
  split at h
  · cases h
  · next c cs hcs =>
    obtain ⟨hstart, hparts⟩ := Bool.and_eq_true_iff.1 h
    exact ⟨c, cs, hcs, hstart, List.all_eq_true.1 hparts⟩

/-- A word is read in full where the text behind it does not continue it, and is no comment. -/
theorem token?_word {w : String} (hw : isIdentifier w = true) {rest : List Char}
    (hdetached : Detached rest) :
    token? (w.toList ++ rest) = some (.atom (.word w), rest) ∧
      (w.toList ++ rest).head? ≠ some '/' := by
  obtain ⟨c, cs, hcs, hstart, hparts⟩ := exists_of_isIdentifier hw
  obtain ⟨hslash, hsingle, hdouble, hmark⟩ :=
    plain_of_isWordPart (c := c) (by rw [isWordPart, hstart, Bool.true_or])
  obtain ⟨htake, hdrop⟩ := cut_append hparts hdetached.1
  constructor
  · rw [hcs, List.cons_append, token?_cons hmark]
    simp [hsingle, hdouble, hstart, htake, hdrop, ← hcs]
  · rw [hcs]
    intro hhead
    exact absurd (Option.some.inj hhead) hslash

theorem scan_word {w : String} (hw : isIdentifier w = true) {rest stop : List Char}
    {ts : List Token} (hdetached : Detached rest) (hrest : scan rest = (ts, stop)) :
    scan (w.toList ++ rest) = (.atom (.word w) :: ts, stop) := by
  obtain ⟨hword, hslash⟩ := token?_word hw hdetached
  exact scan_token hword (fun hhead => absurd hhead hslash) hrest

theorem token?_number (s : Numeral.Spelling) {rest : List Char} (hdetached : Detached rest) :
    token? (s.text ++ rest) = some (.atom (.number (.signed false s.value)), rest) ∧
      (s.text ++ rest).head? ≠ some '/' := by
  obtain ⟨c, cs, hcs, hdigit⟩ := s.whole.exists_cons
  have htext : s.text = c :: (cs ++ (s.fractionText ++ s.powerText)) := by
    rw [Numeral.Spelling.text, hcs, List.cons_append]
  obtain ⟨hslash, hsingle, hdouble, hmark⟩ := plain_of_isWordPart (isWordPart_of_isDigit hdigit)
  constructor
  · have hread := number?_append s hdetached
    rw [htext, List.cons_append] at hread ⊢
    rw [token?_cons hmark, hread]
    simp [hsingle, hdouble, isWordStart_of_isDigit hdigit, hdigit]
  · rw [htext]
    intro hhead
    exact absurd (Option.some.inj hhead) hslash

theorem scan_number (s : Numeral.Spelling) {rest stop : List Char} {ts : List Token}
    (hdetached : Detached rest) (hrest : scan rest = (ts, stop)) :
    scan (s.text ++ rest) = (.atom (.number (.signed false s.value)) :: ts, stop) := by
  obtain ⟨hnumber, hslash⟩ := token?_number s hdetached
  exact scan_token hnumber (fun hhead => absurd hhead hslash) hrest

theorem string?_close (quote : Char) (rest : List Char) :
    string? quote (quote :: rest) = some ([], rest) := by
  unfold string?
  simp

theorem string?_backslash {quote : Char} (hquote : '\\' ≠ quote) (c : Char) (rest : List Char) :
    string? quote ('\\' :: c :: rest)
      = (string? quote rest).map fun (content, rest) => (unescape c :: content, rest) := by
  rw [string?.eq_def]
  simp [hquote]

theorem string?_plain {quote c : Char} (hc : c ≠ quote ∧ c ≠ '\\' ∧ c ≠ '\n') (rest : List Char) :
    string? quote (c :: rest)
      = (string? quote rest).map fun (content, rest) => (c :: content, rest) := by
  rw [string?.eq_def]
  simp [hc]

theorem string?_escape {quote : Char} (hquote : quote = '\'' ∨ quote = '"') (c : Char)
    (rest : List Char) :
    string? quote (escape quote c ++ rest)
      = (string? quote rest).map fun (content, rest) => (c :: content, rest) := by
  have hslash : '\\' ≠ quote := by rcases hquote with rfl | rfl <;> decide
  have hback := string?_backslash hslash
  rw [escape]
  split
  · next hself =>
    have hplain : unescape c = c := by
      rcases hself with rfl | rfl
      · rcases hquote with rfl | rfl <;> rfl
      · rfl
    exact (hback c rest).trans (by rw [hplain])
  · next hself =>
    split
    · next heq =>
      subst heq
      exact hback 'n' rest
    · next hline =>
      split
      · next heq =>
        subst heq
        exact hback 'r' rest
      · split
        · next heq =>
          subst heq
          exact hback 't' rest
        · exact string?_plain ⟨fun h => hself (.inl h), fun h => hself (.inr h), hline⟩ rest

theorem string?_quoted {quote : Char} (hquote : quote = '\'' ∨ quote = '"') (s rest : List Char) :
    string? quote (s.flatMap (escape quote) ++ quote :: rest) = some (s, rest) := by
  induction s with
  | nil => exact string?_close quote rest
  | cons c s ih =>
    rw [List.flatMap_cons, List.append_assoc, string?_escape hquote, ih]
    rfl

theorem scan_string {quote : Char} (hquote : quote = '\'' ∨ quote = '"') (s : String)
    {rest stop : List Char} {ts : List Token} (hrest : scan rest = (ts, stop)) :
    scan (quoted quote s ++ rest) = (.atom (.string s) :: ts, stop) := by
  have hread := string?_quoted hquote s.toList rest
  have hstring : token? (quoted quote s ++ rest) = some (.atom (.string s), rest) := by
    have hmark : quote ∉ marks := by rcases hquote with rfl | rfl <;> decide
    have hopen : (quote == '\'' || quote == '"') = true := by
      rcases hquote with rfl | rfl <;> rfl
    rw [quoted, List.cons_append, List.append_assoc, List.singleton_append, token?_cons hmark,
      if_pos hopen, hread]
    simp only [Option.map_some, String.ofList_toList]
  apply scan_token hstring _ hrest
  rcases hquote with rfl | rfl <;> simp [quoted]

theorem scan_operator (op : Operator) {rest stop : List Char} {ts : List Token}
    (hrest : scan rest = (ts, stop)) :
    scan (' ' :: op.text ++ ' ' :: rest) = (.atom (.operator op) :: ts, stop) := by
  have hoperator : token? (op.text ++ ' ' :: rest) = some (.atom (.operator op), ' ' :: rest) := by
    cases op with
    | relation r => cases r <;> rfl
    | arithmetic a => cases a <;> rfl
    | eq | ne | add => rfl
  rw [List.cons_append, scan_blank]
  exact scan_token hoperator (by simp) (by rw [scan_blank, hrest])

theorem scan_sign (s : Sign) {rest stop : List Char} {ts : List Token}
    (hrest : scan rest = (ts, stop)) :
    scan (s.char :: rest) = (.atom (.operator s.operator) :: ts, stop) := by
  have hsign : token? (s.char :: rest) = some (.atom (.operator s.operator), rest) := by
    cases s <;> rfl
  apply scan_token hsign _ hrest
  cases s <;> simp [Sign.char]

end Source

end Coercive
