import Coercive.Source.Token

namespace Coercive

/-- A sequence of atoms and bracketed groups. -/
inductive Forest where
  | nil
  | leaf (a : Atom) (rest : Forest)
  | group (b : Bracket) (inner rest : Forest)
  deriving DecidableEq

namespace Forest

def tokens : Forest → List Token
  | .nil => []
  | .leaf a rest => .atom a :: rest.tokens
  | .group b inner rest => .opening b :: inner.tokens ++ .closing b :: rest.tokens

/-- Puts a token before the groups that are read so far. The groups still waiting for their
opening bracket are kept with their kind and what follows them. -/
def push : Token → Forest × List (Bracket × Forest) → Option (Forest × List (Bracket × Forest))
  | .atom a, (inner, outer) => some (.leaf a inner, outer)
  | .closing b, (inner, outer) => some (.nil, (b, inner) :: outer)
  | .opening b, (inner, (b', rest) :: outer) =>
    if b = b' then some (.group b inner rest, outer) else none
  | .opening _, (_, []) => none

def pushAll : List Token → Option (Forest × List (Bracket × Forest))
  | [] => some (.nil, [])
  | t :: ts => (pushAll ts).bind (push t)

/-- The forest with the given tokens, if their brackets match. -/
def ofTokens? (ts : List Token) : Option Forest :=
  match pushAll ts with
  | some (f, []) => some f
  | _ => none

theorem pushAll_tokens_append (f : Forest) (ts : List Token) (outer : List (Bracket × Forest))
    (h : pushAll ts = some (.nil, outer)) : pushAll (f.tokens ++ ts) = some (f, outer) := by
  induction f generalizing ts outer with
  | nil => exact h
  | leaf a rest ih => simp [tokens, pushAll, ih ts outer h, push]
  | group b inner rest ihi ihr =>
    have hr := ihr ts outer h
    have hi := ihi (.closing b :: (rest.tokens ++ ts)) ((b, rest) :: outer)
      (by simp [pushAll, hr, push])
    simp only [tokens, List.cons_append, List.append_assoc, pushAll] at hi ⊢
    simp [hi, push]

theorem ofTokens?_tokens (f : Forest) : ofTokens? f.tokens = some f := by
  have h := pushAll_tokens_append f [] [] rfl
  simp only [List.append_nil] at h
  simp [ofTokens?, h]

def written : Forest × List (Bracket × Forest) → List Token
  | (inner, outer) => inner.tokens ++ outer.flatMap fun (b, f) => .closing b :: f.tokens

theorem written_push {t : Token} {p q : Forest × List (Bracket × Forest)}
    (h : push t p = some q) : written q = t :: written p := by
  obtain ⟨inner, outer⟩ := p
  cases t with
  | atom a => cases h; rfl
  | closing b => cases h; simp [written, tokens]
  | opening b =>
    cases outer with
    | nil => cases h
    | cons g outer =>
      obtain ⟨b', rest⟩ := g
      simp only [push, Option.ite_none_right_eq_some, Option.some.injEq] at h
      obtain ⟨rfl, rfl⟩ := h
      simp [written, tokens]

theorem written_pushAll {ts : List Token} {p : Forest × List (Bracket × Forest)}
    (h : pushAll ts = some p) : written p = ts := by
  induction ts generalizing p with
  | nil => cases h; rfl
  | cons t ts ih =>
    obtain ⟨q, hq, hp⟩ := Option.bind_eq_some_iff.1 h
    rw [written_push hp, ih hq]

theorem ofTokens?_eq_some_iff {ts : List Token} {f : Forest} :
    ofTokens? ts = some f ↔ ts = f.tokens := by
  constructor
  · intro h
    unfold ofTokens? at h
    split at h
    · next g hg =>
      cases h
      have := written_pushAll hg
      simp only [written, List.flatMap_nil, List.append_nil] at this
      exact this.symm
    · cases h
  · rintro rfl
    exact ofTokens?_tokens f

end Forest

end Coercive
