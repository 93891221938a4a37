import Coercive.Proofs.Acceptance

namespace Coercive.Grammar

open Source Peg

variable {a b : Peg} {r : Rule} {cs : List Char} {n : Nat}

/-- A part matches no text without taking some of it. -/
def Consumes (a : Peg) : Prop := ∀ cs ps rest, Takes a cs ps rest → rest.length < cs.length

theorem consumes_text (c : Char) (t : List Char) : Consumes (.text (c :: t)) :=
  fun _ _ _ => length_lt_of_text

theorem Consumes.before (ha : Consumes a) : Consumes (a.before b) := by
  intro cs ps rest h
  obtain ⟨qs, mid, rs, hmid, hrest, -⟩ := takes_before.1 h
  exact Nat.lt_of_le_of_lt hrest.length_le (ha cs qs mid hmid)

theorem Consumes.alt (ha : Consumes a) (hb : Consumes b) : Consumes (.alt a b) := by
  intro cs ps rest h
  rcases takes_alt.1 h with h | ⟨-, h⟩
  · exact ha cs ps rest h
  · exact hb cs ps rest h

theorem Consumes.rule (hmode : r.kind.mode .spaced = .spaced) (h : Consumes r.body) :
    Consumes (.rule r) := by
  rintro cs ps rest ⟨left, hrule, rfl⟩
  cases hrule with
  | rule hbody => exact h cs _ _ ⟨left, hmode ▸ hbody, rfl⟩

theorem consumes_sign : Consumes (.rule .sign) :=
  .rule rfl (.alt (.rule rfl (consumes_text '+' [])) (.rule rfl (consumes_text '-' [])))

theorem consumes_operator : Consumes (.rule .operator) := by
  intro cs ps rest h
  obtain ⟨op, left, hop, -, rfl⟩ := exists_operator? h
  exact Nat.lt_of_le_of_lt (length_skip_le false _) (length_operator?_lt hop)

theorem consumes_suffix : Consumes (.rule .suffix) := by
  have hmember : Consumes (.rule .member) := .rule rfl (consumes_text '.' []).before
  have hindex : Consumes (.rule .index) := .rule rfl (consumes_text '[' []).before
  have hcall : Consumes (.rule .call) := .rule rfl (consumes_text '(' []).before
  exact .rule rfl (.alt hmember (.alt hindex hcall))

/-- A part either matches or fails at a text. -/
def Settled (a : Peg) (cs : List Char) : Prop := ∃ out, Derives .spaced a cs out

theorem settled_text (t cs : List Char) : Settled (.text t) cs := by
  by_cases h : t <+: cs
  · obtain ⟨rest, rfl⟩ := h
    exact ⟨_, .text rfl⟩
  · exact ⟨none, .textFail h⟩

theorem Settled.before (ha : Settled a cs) (hb : ∀ ps mid, Takes a cs ps mid → Settled b mid) :
    Settled (a.before b) cs := by
  obtain ⟨_ | ⟨ps, left⟩, ha⟩ := ha
  · exact ⟨none, .seqLeft ha⟩
  · obtain ⟨_ | found, hb⟩ := hb ps _ ⟨left, ha, rfl⟩
    · exact ⟨none, .seqRight ha (.seqRight (derives_gap left) hb)⟩
    · exact ⟨_, .seq ha (.seq (derives_gap left) hb)⟩

theorem Settled.alt (ha : Settled a cs) (hb : Settled b cs) : Settled (.alt a b) cs := by
  obtain ⟨_ | found, ha⟩ := ha
  · obtain ⟨out, hb⟩ := hb
    exact ⟨out, .second ha hb⟩
  · exact ⟨_, .first ha⟩

theorem Settled.opt (ha : Settled a cs) : Settled (.opt a) cs := by
  obtain ⟨_ | found, ha⟩ := ha
  · exact ⟨_, .missing ha⟩
  · exact ⟨_, .present ha⟩

theorem Settled.rule (hmode : r.kind.mode .spaced = .spaced) (h : Settled r.body cs) :
    Settled (.rule r) cs := by
  obtain ⟨_ | found, h⟩ := h
  · exact ⟨none, .ruleFail (hmode.symm ▸ h)⟩
  · exact ⟨_, .rule (hmode.symm ▸ h)⟩

/-- A part that always takes something comes to an end of being repeated. -/
theorem exists_repeats (ha : Consumes a) (h : ∀ ds, ds.length ≤ n → Clean ds → Settled a ds)
    (hn : cs.length ≤ n) (hcs : Clean cs) : ∃ ps rest, Repeats a cs ps rest := by
  -- every round leaves less of the text
  induction hlength : cs.length using Nat.strongRecOn generalizing cs with
  | _ length ih =>
    subst hlength
    obtain ⟨_ | ⟨ps, left⟩, hout⟩ := h cs hn hcs
    · exact ⟨[], cs, .stop hout⟩
    · have htakes : Takes a cs ps (skip false left) := ⟨left, hout, rfl⟩
      have hless := ha cs ps _ htakes
      obtain ⟨qs, rest, hrest⟩ := ih _ hless (by omega) (clean_skip left) rfl
      exact ⟨ps ++ qs, rest, .step htakes hrest⟩

theorem settled_repeated (ha : Consumes a) (h : ∀ ds, ds.length ≤ n → Clean ds → Settled a ds)
    (hn : cs.length ≤ n) (hcs : Clean cs) : Settled (repeated a) cs := by
  obtain ⟨ps, rest, hrepeats⟩ := exists_repeats ha h hn hcs
  obtain ⟨left, hleft, -⟩ := (takes_repeated hcs).2 hrepeats
  exact ⟨_, hleft⟩

theorem settled_sign (cs : List Char) : Settled (.rule .sign) cs :=
  .rule rfl (.alt (.rule rfl (settled_text _ _)) (.rule rfl (settled_text _ _)))

theorem settled_identifier (cs : List Char) : Settled (.rule .identifier) cs := by
  rcases word_or_none cs with ⟨w, left, htoken⟩ | hnone
  · exact ⟨_, (word_of_token? htoken).2.2.2⟩
  · exact ⟨none, hnone⟩

theorem settled_behind (c : Char) (hn : cs.length ≤ n)
    (h : ∀ ds : List Char, ds.length < n → Clean ds → Settled a ds) :
    Settled (.before (.text [c]) a) cs := by
  apply (settled_text [c] cs).before
  intro ps mid hmid
  have hless := consumes_text c [] cs ps mid hmid
  exact h mid (Nat.lt_of_lt_of_le hless hn) hmid.clean

section

variable (ih : ∀ ds : List Char, ds.length < n → Clean ds → Settled (.rule .expr) ds)

include ih

theorem settled_bracketed (b : Bracket) (hn : cs.length ≤ n) :
    Settled (.before (.text [b.opening]) (.before (.rule .expr) (.text [b.closing]))) cs :=
  settled_behind b.opening hn fun ds hds hclean =>
    (ih ds hds hclean).before fun _ mid _ => settled_text [b.closing] mid

theorem settled_primary (hn : cs.length ≤ n) : Settled (.rule .primary) cs := by
  rcases atom_or_none cs with ⟨a, left, e, htoken, he⟩ | ⟨hliteral, hidentifier⟩
  · obtain ⟨p, -, hmatch⟩ := derives_primary_atom htoken he
    exact ⟨_, hmatch⟩
  · exact .rule rfl (.alt ⟨_, hliteral⟩ (.alt ⟨_, hidentifier⟩ (settled_bracketed ih .round hn)))

theorem settled_arguments (hn : cs.length < n) (hcs : Clean cs) : Settled arguments cs := by
  apply (ih cs hn hcs).before
  intro ps mid hmid
  have hlength := Nat.lt_of_le_of_lt hmid.length_le hn
  have hitems : Settled (repeated furtherArgument) mid := by
    apply settled_repeated (consumes_text ',' []).before _ (Nat.le_refl _) hmid.clean
    intro ds hds _
    exact settled_behind ',' (Nat.le_of_lt (Nat.lt_of_le_of_lt hds hlength)) ih
  exact hitems.before fun _ last _ => (settled_text [','] last).opt

theorem settled_suffix (hn : cs.length ≤ n) : Settled (.rule .suffix) cs := by
  have hmember : Settled (.rule .member) cs :=
    .rule rfl ((settled_text ['.'] cs).before fun _ mid _ => settled_identifier mid)
  have hindex : Settled (.rule .index) cs := .rule rfl (settled_bracketed ih .square hn)
  have hcall : Settled (.rule .call) cs := .rule rfl <| settled_behind '(' hn
    fun ds hds hclean => (settled_arguments ih hds hclean).opt.before
      fun _ mid _ => settled_text [')'] mid
  exact .rule rfl (.alt hmember (.alt hindex hcall))

theorem settled_signed (hn : cs.length ≤ n) (hcs : Clean cs) : Settled signed cs := by
  have hsigns : Settled (repeated (.rule .sign)) cs :=
    settled_repeated consumes_sign (fun ds _ _ => settled_sign ds) hn hcs
  apply hsigns.before
  intro ps mid hmid
  have hlength := Nat.le_trans hmid.length_le hn
  have hsuffixes : ∀ qs last, Takes (.rule .primary) mid qs last →
      Settled (repeated (.rule .suffix)) last := fun qs last hlast =>
    settled_repeated consumes_suffix (fun ds hds _ => settled_suffix ih hds)
      (Nat.le_trans hlast.length_le hlength) hlast.clean
  exact .rule rfl ((settled_primary ih hlength).before hsuffixes)

theorem settled_step (hn : cs.length ≤ n) (hcs : Clean cs) : Settled (.rule .expr) cs := by
  apply Settled.rule rfl
  apply (settled_signed ih hn hcs).before
  intro ps mid hmid
  apply settled_repeated consumes_operator.before _ (Nat.le_trans hmid.length_le hn) hmid.clean
  intro ds hds hclean
  have hoperator : Settled (.rule .operator) ds := ⟨_, derives_operator ds⟩
  exact hoperator.before fun _ last hlast =>
    settled_signed ih (Nat.le_trans hlast.length_le hds) hlast.clean

end

theorem settled_expr (hcs : Clean cs) : Settled (.rule .expr) cs := by
  induction hn : cs.length using Nat.strongRecOn generalizing cs with
  | _ n ih =>
    subst hn
    exact settled_step (fun ds hds hclean => ih _ hds hclean rfl) (Nat.le_refl _) hcs

theorem settled_ending (cs : List Char) : Settled (.rule .ending) cs := by
  apply Settled.rule rfl
  cases cs with
  | nil => exact ⟨_, .absent (.oneFail fun c hc => by cases hc)⟩
  | cons c cs => exact ⟨none, .absentFail (.one rfl)⟩

theorem settled_start (cs : List Char) (hb : ∀ ds, Settled b ds) :
    Settled (.before (.text []) (.before (.rule .expr) b)) cs :=
  (settled_text [] cs).before fun _ _ hmid =>
    (settled_expr hmid.clean).before fun _ last _ => hb last

theorem settled_program (cs : List Char) : Settled (.rule .program) cs :=
  .rule rfl (settled_start cs settled_ending)

theorem settled_braced (cs : List Char) : Settled (.rule .braced) cs :=
  .rule rfl (settled_start cs (settled_text ['\x7d']))

theorem built_program {s : String} {ps : List Pair} {rest : List Char}
    (h : Derives .spaced (.rule .program) s.toList (some (ps, rest))) :
    ∃ e, buildProgram ps = .ok e ∧ parse s = .ok e := by
  obtain ⟨e, hbuilt, hread⟩ := build_program h
  exact ⟨e, hbuilt, parse_eq_ok.2 hread⟩

theorem built_braced {s : String} {ps : List Pair} {rest : List Char}
    (h : Derives .spaced (.rule .braced) s.toList (some (ps, rest))) :
    ∃ e n, buildBraced ps = .ok (e, n) ∧ parseBraced s = .ok (e, n) := by
  obtain ⟨e, hbuilt, hread⟩ := build_braced h
  rw [Text.byteLength_toList] at hbuilt
  exact ⟨e, _, hbuilt, parseBraced_eq_ok.2 ⟨rest, hread, rfl⟩⟩

/-- A rule that comes out at a text, and matches it when it is read, rejects it when it is not. -/
theorem rejected_iff {α : Type} {result : Except Failure α} (hsettled : Settled (.rule r) cs)
    (hbuilt : ∀ ps rest, Derives .spaced (.rule r) cs (some (ps, rest)) → ∃ x, result = .ok x)
    (hread : ∀ x, result = .ok x → ∃ ps rest, Derives .spaced (.rule r) cs (some (ps, rest))) :
    (∃ failure, result = .error failure) ↔ Derives .spaced (.rule r) cs none := by
  constructor
  · rintro ⟨failure, hfailure⟩
    obtain ⟨_ | ⟨ps, rest⟩, hout⟩ := hsettled
    · exact hout
    · obtain ⟨x, hx⟩ := hbuilt ps rest hout
      rw [hfailure] at hx
      cases hx
  · intro hnone
    cases hresult : result with
    | error failure => exact ⟨failure, rfl⟩
    | ok x =>
      obtain ⟨ps, rest, hmatch⟩ := hread x hresult
      cases hmatch.unique hnone

/-- What the grammar matches is built without a fault, as the expression that is read. A text that
is not read is one that the grammar rejects. -/
theorem built_as_read (s : String) :
    (∀ ps rest, Derives .spaced (.rule .program) s.toList (some (ps, rest)) →
      ∃ e, buildProgram ps = .ok e ∧ parse s = .ok e) ∧
    (∀ ps rest, Derives .spaced (.rule .braced) s.toList (some (ps, rest)) →
      ∃ e n, buildBraced ps = .ok (e, n) ∧ parseBraced s = .ok (e, n)) ∧
    ((∃ failure, parse s = .error failure) ↔ Derives .spaced (.rule .program) s.toList none) ∧
    ((∃ failure, parseBraced s = .error failure) ↔
      Derives .spaced (.rule .braced) s.toList none) := by
  have hprogram : ∀ e, parse s = .ok e →
      ∃ ps rest, Derives .spaced (.rule .program) s.toList (some (ps, rest)) := by
    intro e he
    obtain ⟨ps, hmatch⟩ := derives_program (parse_eq_ok.1 he)
    exact ⟨ps, [], hmatch⟩
  have hbraced : ∀ found, parseBraced s = .ok found →
      ∃ ps rest, Derives .spaced (.rule .braced) s.toList (some (ps, rest)) := by
    rintro ⟨e, n⟩ he
    obtain ⟨rest, hhole, -⟩ := parseBraced_eq_ok.1 he
    obtain ⟨ps, hmatch⟩ := derives_braced hhole
    exact ⟨ps, rest, hmatch⟩
  refine ⟨fun ps rest => built_program, fun ps rest => built_braced, ?_, ?_⟩
  · apply rejected_iff (settled_program _) _ hprogram
    intro ps rest hmatch
    obtain ⟨e, -, hread⟩ := built_program hmatch
    exact ⟨e, hread⟩
  · apply rejected_iff (settled_braced _) _ hbraced
    intro ps rest hmatch
    obtain ⟨e, n, -, hread⟩ := built_braced hmatch
    exact ⟨(e, n), hread⟩

theorem built_as_read_call :
    (∃ ps, Derives .spaced (.rule .program) "-f(a, 'b',).c ** -d".toList (some (ps, [])) ∧
      ∃ e, buildProgram ps = .ok e ∧ parse "-f(a, 'b',).c ** -d" = .ok e) ∧
    ∃ ps, Derives .spaced (.rule .braced) "true[k] // \x7d\n\x7d e".toList (some (ps, [' ', 'e'])) ∧
      ∃ e n, buildBraced ps = .ok (e, n) ∧ parseBraced "true[k] // \x7d\n\x7d e" = .ok (e, n) := by
  have hscan : scan "-f(a, 'b',).c ** -d".toList =
      ([.atom (.operator (.arithmetic .sub)), .atom (.word "f"), .opening .round,
        .atom (.word "a"), .atom .comma, .atom (.string "b"), .atom .comma, .closing .round,
        .atom .dot, .atom (.word "c"), .atom (.operator (.arithmetic .pow)),
        .atom (.operator (.arithmetic .sub)), .atom (.word "d")], []) := by cbv
  have hread : parse? "-f(a, 'b',).c ** -d".toList = some (.unary .minus
      (.binary (.arithmetic .pow)
        (.member (.call (.name "f") [.name "a", .literal (.string "b")]) "c")
        (.unary .minus (.name "d")))) := by
    rw [parse?, hscan]
    rfl
  have hhole : parseHole? "true[k] // \x7d\n\x7d e".toList =
      some (.index (.literal (.bool true)) (.name "k"), [' ', 'e']) := by cbv
  obtain ⟨ps, hprogram⟩ := derives_program hread
  obtain ⟨qs, hbraced⟩ := derives_braced hhole
  obtain ⟨hbuilt, -⟩ := built_as_read "-f(a, 'b',).c ** -d"
  obtain ⟨-, hbuilt', -⟩ := built_as_read "true[k] // \x7d\n\x7d e"
  exact ⟨⟨ps, hprogram, hbuilt ps _ hprogram⟩, qs, hbraced, hbuilt' qs _ hbraced⟩

end Coercive.Grammar
