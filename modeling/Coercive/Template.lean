import Coercive.Evaluation
import Coercive.Source.Parse

namespace Coercive

/-- A text cut at its holes. A hole that spells no expression ends the template. -/
inductive Template where
  | text (cs : List Char)
  | hole (before : List Char) (e : Expr) (rest : Template)
  | malformed (before source : List Char)

namespace Template

def split? : List Char → Option (List Char × List Char)
  | [] => none
  | '$' :: '\x7b' :: rest => some ([], rest)
  | c :: rest => (split? rest).map fun (before, after) => (c :: before, after)

theorem length_split?_lt {cs before after : List Char} (h : split? cs = some (before, after)) :
    after.length < cs.length := by
  fun_induction split? cs generalizing before with
  | case1 => cases h
  | case2 => cases h; simp only [List.length_cons]; omega
  | case3 c rest _ ih =>
    obtain ⟨⟨before', after'⟩, hs, heq⟩ := Option.map_eq_some_iff.1 h
    cases heq
    exact Nat.lt_succ_of_lt (ih hs)

theorem length_parseHole?_lt {cs rest : List Char} {e : Expr}
    (h : Source.parseHole? cs = some (e, rest)) : rest.length < cs.length := by
  have hscan := Source.length_scan_le cs
  unfold Source.parseHole? at h
  split at h
  · next ts tail heq =>
    obtain ⟨e', _, hpair⟩ := Option.map_eq_some_iff.1 h
    cases hpair
    rw [heq] at hscan
    exact hscan
  · cases h

def ofText (cs : List Char) : Template :=
  match _hs : split? cs with
  | none => .text cs
  | some (before, source) =>
    match _hh : Source.parseHole? source with
    | none => .malformed before source
    | some (e, rest) => .hole before e (ofText rest)
termination_by cs.length
decreasing_by
  exact Nat.lt_trans (length_parseHole?_lt _hh) (length_split?_lt _hs)

/-- Evaluates the holes from left to right and puts their strings in their places. -/
def fill (invoke : Invoker) : Template → Run (List Char)
  | .text cs => pure cs
  | .hole before e rest => do
    let v ← e.eval invoke
    let s ← v.toText invoke .stringOutput
    let after ← rest.fill invoke
    return before ++ s.toList ++ after
  | .malformed _ source => .fail (.ofSource .hole source)

end Template

end Coercive
