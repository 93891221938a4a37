import Coercive.Proofs.Assembly
import Coercive.Proofs.Insides
import Coercive.Proofs.Literals
import Coercive.Proofs.RoundTrip

namespace Coercive.Grammar

open Source Peg

variable {m : Mode} {cs rest : List Char}

def Begins (cs : List Char) (a : Atom) (rest : List Char) : Prop :=
  match a with
  | .number n => number? cs = some (n, rest)
  | .string s => ∃ quote tail content, (quote = '\'' ∨ quote = '"') ∧ cs = quote :: tail ∧
      string? quote tail = some (content, rest) ∧ s = String.ofList content
  | .word w => ∃ c tail, isWordStart c = true ∧ cs = c :: tail ∧
      w = String.ofList (c :: tail.takeWhile isWordPart) ∧ rest = tail.dropWhile isWordPart
  | .operator op => operator? cs = some (op, rest)
  | .dot => cs = '.' :: rest
  | .comma => cs = ',' :: rest

theorem begins_of_token? {a : Atom} (h : token? cs = some (.atom a, rest)) : Begins cs a rest := by
  cases cs with
  | nil => cases h
  | cons c cs =>
    by_cases hmark : c ∈ marks
    · simp only [marks, List.mem_cons, List.not_mem_nil, or_false] at hmark
      rcases hmark with rfl | rfl | rfl | rfl | rfl | rfl <;> cases h <;> rfl
    · rw [token?_cons hmark] at h
      split at h
      · next hquote =>
        obtain ⟨⟨content, tail⟩, hs, heq⟩ := Option.map_eq_some_iff.1 h
        cases heq
        exact ⟨c, cs, content, by simpa using hquote, rfl, hs, rfl⟩
      · split at h
        · next hstart =>
          cases h
          exact ⟨c, cs, hstart, rfl, rfl, rfl⟩
        · split at h <;> obtain ⟨⟨x, tail⟩, hx, heq⟩ := Option.map_eq_some_iff.1 h <;> cases heq <;>
            exact hx

theorem token?_word_start {c : Char} (hc : isWordStart c = true) (cs : List Char) :
    token? (c :: cs) = some (.atom (.word (String.ofList (c :: cs.takeWhile isWordPart))),
      cs.dropWhile isWordPart) := by
  obtain ⟨-, hsingle, hdouble, hmark⟩ :=
    plain_of_isWordPart (c := c) (by rw [isWordPart, hc, Bool.true_or])
  rw [token?_cons hmark]
  simp [hsingle, hdouble, hc]

theorem token?_of_number? {n : Number} (h : number? cs = some (n, rest)) :
    token? cs = some (.atom (.number n), rest) := by
  obtain ⟨s, -, hcs⟩ := exists_spelling_of_number? h
  obtain ⟨c, tail, htail, hdigit⟩ := s.whole.exists_cons
  obtain ⟨-, hsingle, hdouble, hmark⟩ := plain_of_isWordPart (isWordPart_of_isDigit hdigit)
  rw [Numeral.Spelling.text, htail, List.cons_append, List.cons_append] at hcs
  rw [hcs] at h ⊢
  rw [token?_cons hmark, h]
  simp [hsingle, hdouble, isWordStart_of_isDigit hdigit, hdigit]

theorem token?_of_string? {quote : Char} (hquote : quote = '\'' ∨ quote = '"')
    {content : List Char} (h : string? quote cs = some (content, rest)) :
    token? (quote :: cs) = some (.atom (.string (String.ofList content)), rest) := by
  have hmark : quote ∉ marks := by rcases hquote with rfl | rfl <;> decide
  have hopen : (quote == '\'' || quote == '"') = true := by rcases hquote with rfl | rfl <;> rfl
  rw [token?_cons hmark, if_pos hopen, h]
  rfl

theorem token?_of_operator? {op : Operator} (h : operator? cs = some (op, rest)) :
    token? cs = some (.atom (.operator op), rest) := by
  have htoken : token? cs = (operator? cs).map fun r => (.atom (.operator r.1), r.2) := by
    rw [text_of_operator? h]
    cases op with
    | relation r => cases r <;> rfl
    | arithmetic a => cases a <;> rfl
    | eq | ne | add => rfl
  rw [htoken, h]
  rfl

theorem derives_atomic {r : Rule} (hkind : r.kind = .atomic) (hm : m ≠ .atomic) {t : List Char}
    (h : Derives .atomic r.body (t ++ rest) (some ([], rest))) :
    Derives m (.rule r) (t ++ rest) (some ([.mk r t []], rest)) := by
  have hmode : r.kind.mode m = .atomic := by rw [hkind]; rfl
  have hleave : r.leave m (consumed (t ++ rest) rest) [] = [.mk r t []] := by
    cases m with
    | spaced | compact => simp only [consumed_append, Rule.leave, hkind]
    | atomic => exact absurd rfl hm
  rw [← hleave]
  exact .rule (hmode ▸ h)

theorem derives_atomic_none {r : Rule} (hkind : r.kind = .atomic)
    (h : Derives .atomic r.body cs none) : Derives m (.rule r) cs none := by
  have hmode : r.kind.mode m = .atomic := by rw [hkind]; rfl
  exact .ruleFail (hmode ▸ h)

theorem derives_number_some {n : Number} (h : number? cs = some (n, rest)) :
    ∃ p, Pair.primary p = .ok (.literal (.number n)) ∧
      Derives .spaced (.rule .number) cs (some ([p], rest)) := by
  have hmatch := derives_number cs
  rw [h] at hmatch
  obtain ⟨s, rfl, rfl⟩ := exists_spelling_of_number? h
  refine ⟨.mk .number s.text [], ?_, derives_atomic rfl (by decide) hmatch⟩
  rw [Pair.primary, Numeral.Spelling.unsigned?_text]
  rfl

theorem derives_number_none (h : ∀ n rest, token? cs ≠ some (.atom (.number n), rest)) :
    Derives .spaced (.rule .number) cs none := by
  have hmatch := derives_number cs
  cases hn : number? cs with
  | none =>
    rw [hn] at hmatch
    exact derives_atomic_none rfl hmatch
  | some found => exact absurd (token?_of_number? hn) (h _ _)

theorem derives_number_none_of_token? {t : Token} (h : token? cs = some (t, rest))
    (ht : ∀ n, t ≠ .atom (.number n)) : Derives .spaced (.rule .number) cs none := by
  apply derives_number_none
  intro n tail hn
  rw [h] at hn
  cases hn
  exact ht n rfl

section

variable {quote : Char} {r : Rule}

theorem derives_between (hquote : '\\' ≠ quote) (hkind : r.kind = .atomic)
    (hbody : r.body = .many (quotedPart quote)) {content : List Char}
    (h : string? quote cs = some (content, rest)) :
    ∃ raw, unescapeAll raw = .ok content ∧
      Derives .compact (.seq (.text [quote]) (.seq (.rule r) (.text [quote]))) (quote :: cs)
        (some ([.mk r raw []], rest)) := by
  obtain ⟨mid, hmid, hstring⟩ := derives_quoted hquote .atomic cs
  rw [h] at hstring
  subst hstring
  obtain ⟨parts, rfl, rfl⟩ := exists_parts_of_string? h
  rw [← hbody] at hmid
  exact ⟨_, unescapeAll_parts parts, .seq (.text rfl)
    (.seq (derives_atomic hkind (by decide) hmid) (.text rfl))⟩

theorem derives_between_none (hquote : '\\' ≠ quote) (hkind : r.kind = .atomic)
    (hbody : r.body = .many (quotedPart quote))
    (h : ∀ tail, cs = quote :: tail → string? quote tail = none) :
    Derives .compact (.seq (.text [quote]) (.seq (.rule r) (.text [quote]))) cs none := by
  by_cases hcs : [quote] <+: cs
  · obtain ⟨tail, rfl⟩ := hcs
    obtain ⟨mid, hmid, hstring⟩ := derives_quoted hquote .atomic tail
    rw [h tail rfl] at hstring
    obtain ⟨t, rfl⟩ := hmid.suffix
    rw [← hbody] at hmid
    refine .seqRight (.text rfl) (.seqRight (derives_atomic hkind (by decide) hmid) (.textFail ?_))
    rintro ⟨tail, rfl⟩
    exact hstring rfl
  · exact .seqLeft (.textFail hcs)

end

theorem derives_string_some {s : String} (h : token? cs = some (.atom (.string s), rest)) :
    ∃ p, Pair.primary p = .ok (.literal (.string s)) ∧
      Derives .spaced (.rule .string) cs (some ([p], rest)) := by
  have hread : ∀ {r raw text content}, unescapeAll raw = .ok content →
      Pair.primary (.mk .string text [.mk r raw []]) =
        .ok (.literal (.string (String.ofList content))) := by
    intro r raw text content hraw
    rw [Pair.primary, hraw]
    rfl
  obtain ⟨quote, tail, content, hquote, rfl, hstring, rfl⟩ := begins_of_token? h
  rcases hquote with rfl | rfl
  · obtain ⟨raw, hraw, hmatch⟩ := derives_between (r := .singleQuoted) (by decide) rfl rfl hstring
    exact ⟨_, hread hraw, .rule (.first hmatch)⟩
  · obtain ⟨raw, hraw, hmatch⟩ := derives_between (r := .doubleQuoted) (by decide) rfl rfl hstring
    exact ⟨_, hread hraw, .rule (.second (.seqLeft (.textFail (by simp))) hmatch)⟩

theorem derives_string_none (h : ∀ s rest, token? cs ≠ some (.atom (.string s), rest)) :
    Derives .spaced (.rule .string) cs none := by
  have hnone : ∀ {quote : Char}, quote = '\'' ∨ quote = '"' →
      ∀ tail, cs = quote :: tail → string? quote tail = none := by
    rintro quote hquote tail rfl
    rw [Option.eq_none_iff_forall_ne_some]
    rintro ⟨content, rest⟩ hstring
    exact h _ _ (token?_of_string? hquote hstring)
  exact .ruleFail (.second (derives_between_none (by decide) rfl rfl (hnone (.inl rfl)))
    (derives_between_none (by decide) rfl rfl (hnone (.inr rfl))))

def Continued (m : Mode) (a : Peg) (cs : List Char) : Prop :=
  Derives m a cs none ∨ ∃ c tail, isWordPart c = true ∧ Derives m a cs (some ([], c :: tail))

theorem Continued.keyword {a : Peg} (h : Continued m a cs) : Derives m (keyword a) cs none := by
  rcases h with ha | ⟨c, tail, hc, ha⟩
  · exact .seqLeft ha
  · exact .seqRight ha (.absentFail (.one hc))

theorem Continued.alt {a b : Peg} (ha : Continued m a cs) (hb : Continued m b cs) :
    Continued m (.alt a b) cs := by
  rcases ha with ha | ⟨c, tail, hc, ha⟩
  · rcases hb with hb | ⟨c, tail, hc, hb⟩
    · exact .inl (.second ha hb)
    · exact .inr ⟨c, tail, hc, .second ha hb⟩
  · exact .inr ⟨c, tail, hc, .first ha⟩

section

variable {w : List Char} (hw : ∀ c ∈ w, isWordPart c = true)
  (hrest : ∀ c ∈ rest.head?, isWordPart c = false)

include hw hrest

theorem continued_text {k : List Char} (hk : k.all isWordPart = true) (hne : w ≠ k)
    (m : Mode) : Continued m (.text k) (w ++ rest) := by
  by_cases hprefix : k <+: w ++ rest
  · obtain ⟨tail, htail⟩ := hprefix
    refine .inr ?_
    by_cases hstop : ∀ c ∈ tail.head?, isWordPart c = false
    · have htake := (cut_append hw hrest).1
      rw [← htail, (cut_append (List.all_eq_true.1 hk) hstop).1] at htake
      exact absurd htake.symm hne
    · cases tail with
      | nil => exact absurd (by simp) hstop
      | cons c tail => exact ⟨c, tail, by simpa using hstop, .text htail.symm⟩
  · exact .inl (.textFail hprefix)

theorem derives_keyword {r : Rule} {k : List Char} (hkind : r.kind = .atomic)
    (hbody : r.body = keyword (.text k)) (hk : k.all isWordPart = true) :
    Derives .spaced (.rule r) (w ++ rest) (if w = k then some ([.mk r w []], rest) else none) := by
  split
  · next hword =>
    subst hword
    apply derives_atomic hkind (by decide)
    rw [hbody]
    exact .behind (.text rfl) (.absent (.oneFail hrest))
  · next hne =>
    apply derives_atomic_none hkind
    rw [hbody]
    exact (continued_text hw hrest hk hne _).keyword

theorem derives_boolean :
    Derives .spaced (.rule .boolean) (w ++ rest)
      (if w = "true".toList ∨ w = "false".toList then some ([.mk .boolean w []], rest)
        else none) := by
  split
  · next hword =>
    apply derives_atomic rfl (by decide)
    rcases hword with rfl | rfl
    · exact .behind (.first (.text rfl)) (.absent (.oneFail hrest))
    · exact .behind (.second (.textFail (by simp)) (.text rfl)) (.absent (.oneFail hrest))
  · next hne =>
    rw [not_or] at hne
    apply derives_atomic_none rfl
    apply Continued.keyword
    exact (continued_text hw hrest (by decide) hne.1 _).alt
      (continued_text hw hrest (by decide) hne.2 _)

end

theorem word_of_token? {w : String} (h : token? cs = some (.atom (.word w), rest)) :
    cs = w.toList ++ rest ∧ (∀ c ∈ w.toList, isWordPart c = true) ∧
      (∀ c ∈ rest.head?, isWordPart c = false) ∧
      Derives .spaced (.rule .identifier) cs (some ([.mk .identifier w.toList []], rest)) := by
  obtain ⟨c, tail, hc, rfl, rfl, rfl⟩ := begins_of_token? h
  rw [String.toList_ofList]
  have hsplit : c :: tail = (c :: tail.takeWhile isWordPart) ++ tail.dropWhile isWordPart := by
    rw [List.cons_append, List.takeWhile_append_dropWhile]
  have hmatch : Derives .atomic Rule.identifier.body (c :: tail)
      (some ([], tail.dropWhile isWordPart)) :=
    .seq (.one hc) (derives_many_one _ _ tail)
  refine ⟨hsplit, ?_, ?_, ?_⟩
  · intro d hd
    rcases List.mem_cons.1 hd with rfl | hd
    · rw [isWordPart, hc, Bool.true_or]
    · exact List.all_eq_true.1 List.all_takeWhile d hd
  · intro d hd
    have hhead := List.head?_dropWhile_not isWordPart tail
    rw [Option.mem_def.1 hd] at hhead
    simpa using hhead
  · rw [hsplit] at hmatch ⊢
    exact derives_atomic rfl (by decide) hmatch

theorem derives_primary_of_word {w : String} (h : token? cs = some (.atom (.word w), rest)) :
    (∀ ps, Derives .spaced (oneOf .boolean [.null, .undefined]) cs (some (ps, rest)) →
      Derives .spaced (.rule .primary) cs (some (ps, rest))) ∧
    ∀ ps, Derives .spaced (oneOf .boolean [.null, .undefined]) cs none →
      Derives .spaced (.rule .identifier) cs (some (ps, rest)) →
        Derives .spaced (.rule .primary) cs (some (ps, rest)) := by
  have hnumber := derives_number_none_of_token? h nofun
  have hstring : Derives .spaced (.rule .string) cs none := by
    apply derives_string_none
    intro s tail hs
    rw [h] at hs
    cases hs
  constructor
  · intro ps hkeyword
    exact .rule (.first (.rule (.second hnumber (.second hstring hkeyword))))
  · intro ps hkeyword hname
    exact .rule (.second (.ruleFail (.second hnumber (.second hstring hkeyword))) (.first hname))

theorem derives_primary_word {w : String} (h : token? cs = some (.atom (.word w), rest)) {e : Expr}
    (he : atomOperand? (.word w) = some e) :
    ∃ p, Pair.primary p = .ok e ∧ Derives .spaced (.rule .primary) cs (some ([p], rest)) := by
  obtain ⟨hliteral, hname⟩ := derives_primary_of_word h
  obtain ⟨rfl, hw, hrest, hidentifier⟩ := word_of_token? h
  -- the keywords are tried in their order, and names behind all of them
  have hboolean := derives_boolean hw hrest
  have hnull := derives_keyword (r := .null) hw hrest rfl rfl (by decide)
  have hundefined := derives_keyword (r := .undefined) hw hrest rfl rfl (by decide)
  simp only [String.toList_inj] at hboolean hnull hundefined
  by_cases htruth : w = "true" ∨ w = "false"
  · rw [if_pos htruth] at hboolean
    refine ⟨_, ?_, hliteral _ (.first hboolean)⟩
    rcases htruth with rfl | rfl <;> cases he <;> rfl
  rw [if_neg htruth] at hboolean
  by_cases hnil : w = "null"
  · rw [if_pos hnil] at hnull
    subst hnil
    cases he
    exact ⟨_, rfl, hliteral _ (.second hboolean (.first hnull))⟩
  rw [if_neg hnil] at hnull
  by_cases hvoid : w = "undefined"
  · rw [if_pos hvoid] at hundefined
    subst hvoid
    cases he
    exact ⟨_, rfl, hliteral _ (.second hboolean (.second hnull hundefined))⟩
  rw [if_neg hvoid] at hundefined
  have hkeyword : w ∉ Expr.keywords := by
    rw [not_or] at htruth
    simp only [Expr.keywords, List.mem_cons, List.not_mem_nil, or_false, not_or]
    exact ⟨htruth.1, htruth.2, hnil, hvoid⟩
  rw [atomOperand?_word hkeyword] at he
  cases he
  refine ⟨_, ?_, hname _ (.second hboolean (.second hnull hundefined)) hidentifier⟩
  rw [Pair.primary, String.ofList_toList]

/-- An atom that is an operand is matched by the rule for operands without suffixes. -/
theorem derives_primary_atom {a : Atom} {e : Expr} (h : token? cs = some (.atom a, rest))
    (he : atomOperand? a = some e) :
    ∃ p, Pair.primary p = .ok e ∧ Derives .spaced (.rule .primary) cs (some ([p], rest)) := by
  cases a with
  | number n =>
    cases he
    obtain ⟨p, hp, hmatch⟩ := derives_number_some (begins_of_token? h)
    exact ⟨p, hp, .rule (.first (.rule (.first hmatch)))⟩
  | string s =>
    cases he
    obtain ⟨p, hp, hmatch⟩ := derives_string_some h
    have hnumber := derives_number_none_of_token? h nofun
    exact ⟨p, hp, .rule (.first (.rule (.second hnumber (.first hmatch))))⟩
  | word w => exact derives_primary_word h he
  | operator | dot | comma => cases he

theorem exists_atomOperand?_word (w : String) : ∃ e, atomOperand? (.word w) = some e := by
  unfold atomOperand?
  split <;> simp_all

theorem head_of_no_word (h : ∀ w rest, token? cs ≠ some (.atom (.word w), rest)) :
    ∀ c ∈ cs.head?, isWordStart c = false := by
  intro c hc
  obtain ⟨tail, rfl⟩ := List.head?_eq_some_iff.1 hc
  rw [Bool.eq_false_iff]
  intro hstart
  exact h _ _ (token?_word_start hstart tail)

theorem derives_identifier_none (h : ∀ w rest, token? cs ≠ some (.atom (.word w), rest)) :
    Derives .spaced (.rule .identifier) cs none :=
  derives_atomic_none rfl (.seqLeft (.oneFail (head_of_no_word h)))

theorem derives_letter_none (h : ∀ w rest, token? cs ≠ some (.atom (.word w), rest)) {c : Char}
    (hc : isWordStart c = true) (k : List Char) : Derives .atomic (.text (c :: k)) cs none := by
  apply Derives.textFail
  rintro ⟨tail, rfl⟩
  rw [head_of_no_word h c rfl] at hc
  cases hc

theorem derives_atom_none (h : ∀ a rest, token? cs = some (.atom a, rest) → atomOperand? a = none) :
    Derives .spaced (.rule .literal) cs none ∧ Derives .spaced (.rule .identifier) cs none := by
  have hnumber : Derives .spaced (.rule .number) cs none :=
    derives_number_none fun n rest hn => nomatch h _ rest hn
  have hstring : Derives .spaced (.rule .string) cs none :=
    derives_string_none fun s rest hs => nomatch h _ rest hs
  have hword : ∀ w rest, token? cs ≠ some (.atom (.word w), rest) := by
    intro w rest hw
    obtain ⟨e, he⟩ := exists_atomOperand?_word w
    rw [h _ _ hw] at he
    cases he
  have hboolean : Derives .spaced (.rule .boolean) cs none :=
    derives_atomic_none rfl (.seqLeft (.second (derives_letter_none hword (by decide) _)
      (derives_letter_none hword (by decide) _)))
  have hnull : Derives .spaced (.rule .null) cs none :=
    derives_atomic_none rfl (.seqLeft (derives_letter_none hword (by decide) _))
  have hundefined : Derives .spaced (.rule .undefined) cs none :=
    derives_atomic_none rfl (.seqLeft (derives_letter_none hword (by decide) _))
  exact ⟨.ruleFail (.second hnumber (.second hstring
    (.second hboolean (.second hnull hundefined)))), derives_identifier_none hword⟩

theorem word_or_none (cs : List Char) :
    (∃ w rest, token? cs = some (.atom (.word w), rest)) ∨
      Derives .spaced (.rule .identifier) cs none := by
  by_cases h : ∃ w rest, token? cs = some (.atom (.word w), rest)
  · exact .inl h
  · exact .inr (derives_identifier_none fun w rest hw => h ⟨w, rest, hw⟩)

theorem atom_or_none (cs : List Char) :
    (∃ a rest e, token? cs = some (.atom a, rest) ∧ atomOperand? a = some e) ∨
      Derives .spaced (.rule .literal) cs none ∧ Derives .spaced (.rule .identifier) cs none := by
  by_cases h : ∃ a rest e, token? cs = some (.atom a, rest) ∧ atomOperand? a = some e
  · exact .inl h
  · apply Or.inr
    apply derives_atom_none
    intro a rest ha
    rw [Option.eq_none_iff_forall_ne_some]
    intro e he
    exact h ⟨a, rest, e, ha, he⟩

end Coercive.Grammar
