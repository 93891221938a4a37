import Coercive.Proofs.Closedness
import Coercive.Proofs.Likeness

namespace Coercive

variable {α β γ δ : Type}

def State.assign (s : State) (x : String) (v : Value) : State :=
  { s with scope := s.scope.insert x v }

/-- What a state holds more than another: some objects behind its first ones, and the variables that
bodies may not read. -/
structure Surplus where
  allowance : Allowance
  start : Nat
  objects : List Object

namespace Surplus

variable (p : Surplus)

def place (ref : Nat) : Nat := if ref < p.start then ref else ref + p.objects.length

theorem place_of_lt {ref : Nat} (h : ref < p.start) : p.place ref = ref := if_pos h

theorem place_of_le {ref : Nat} (h : p.start ≤ ref) : p.place ref = ref + p.objects.length :=
  if_neg (Nat.not_lt.2 h)

theorem place_inj {i j : Nat} : p.place i = p.place j ↔ i = j := by
  unfold place
  split <;> split <;> omega

/-- The second state holds what the first one does, and the surplus. Its further objects stand
behind the first ones, and the variables that may be read, the counters, the depth and the trace are
the same. -/
structure Beside (s t : State) : Prop where
  closed : s.Closed p.allowance p.start
  size : p.start ≤ s.objects.size
  objects : t.objects.toList =
    s.objects.toList.take p.start ++ p.objects ++ s.objects.toList.drop p.start
  scope : ∀ x, p.allowance.reads x → t.scope.get? x = s.scope.get? x
  counters : t.counters = s.counters
  depth : t.depth = s.depth
  trace : t.trace = s.trace

namespace Beside

variable {p} {s t : State}

theorem size_right (h : p.Beside s t) : t.objects.size = s.objects.size + p.objects.length := by
  have hlength := congrArg List.length h.objects
  have hsize := h.size
  simp only [List.length_append, List.length_take, List.length_drop, Array.length_toList] at hlength
  omega

theorem object (h : p.Beside s t) (ref : Nat) : t.object (p.place ref) = s.object ref := by
  have hsize := h.size
  have hlength : (s.objects.toList.take p.start).length = p.start := by
    simp [Nat.min_eq_left hsize]
  rw [State.object, State.object, ← Array.getElem?_toList, ← Array.getElem?_toList, h.objects]
  by_cases href : ref < p.start
  · rw [p.place_of_lt href, List.append_assoc, List.getElem?_append_left (by omega),
      List.getElem?_take_of_lt href]
  · have hplace := p.place_of_le (Nat.le_of_not_lt href)
    rw [hplace, List.getElem?_append_right (by simp; omega), List.getElem?_drop]
    congr 2
    simp
    omega

theorem object_spare (h : p.Beside s t) {i : Nat} {o : Object} (ho : p.objects[i]? = some o) :
    t.object (p.start + i) = o := by
  have hsize := h.size
  have hi : i < p.objects.length := (List.getElem?_eq_some_iff.1 ho).1
  have hlength : (s.objects.toList.take p.start).length = p.start := by
    simp [Nat.min_eq_left hsize]
  rw [State.object, ← Array.getElem?_toList, h.objects, List.append_assoc,
    List.getElem?_append_right (by omega), List.getElem?_append_left (by omega), hlength,
    Nat.add_sub_cancel_left, ho]
  rfl

theorem push (h : p.Beside s t) {o : Object} (ho : o.Closed p.allowance p.start) :
    p.Beside { s with objects := s.objects.push o } { t with objects := t.objects.push o } where
  closed := h.closed.push ho
  size := by
    rw [Array.size_push]
    exact Nat.le_succ_of_le h.size
  objects := by
    have hsize := h.size
    simp only [Array.toList_push, h.objects]
    rw [List.take_append_of_le_length (by simpa using hsize),
      List.drop_append_of_le_length (by simpa using hsize), List.append_assoc]
  scope := h.scope
  counters := h.counters
  depth := h.depth
  trace := h.trace

theorem assign (h : p.Beside s t) {x : String} (hx : ¬ p.allowance.reads x) (v : Value) :
    p.Beside s (t.assign x v) :=
  { h with
    scope := fun z hz => by
      have hne : z ≠ x := fun heq => hx (heq ▸ hz)
      exact (Table.get?_insert_of_ne _ v hne).trans (h.scope z hz) }

end Beside

theorem beside_self {p : Surplus} {s : State} (hs : s.Closed p.allowance s.objects.size)
    (hstart : p.start = s.objects.size) (hp : p.objects = []) : p.Beside s s where
  closed := hstart ▸ hs
  size := Nat.le_of_eq hstart
  objects := by rw [hp, List.append_nil, List.take_append_drop]
  scope _ _ := rfl
  counters := rfl
  depth := rfl
  trace := rfl

/-- Two values are the same but for their place, and the first one refers to one of `m` objects. -/
inductive Same (m : Nat) : Value → Value → Prop
  | primitive (q : Primitive) : Same m (.primitive q) (.primitive q)
  | object {ref : Nat} (h : ref < m) : Same m (.object ref) (.object (p.place ref))

theorem Same.mono {p : Surplus} {m m' : Nat} {v w : Value} (h : p.Same m v w) (hle : m ≤ m') :
    p.Same m' v w := by
  cases h with
  | primitive q => exact .primitive q
  | object h => exact .object (Nat.lt_of_lt_of_le h hle)

theorem Same.eq {p : Surplus} {m : Nat} {v w : Value} (h : p.Same m v w)
    (hp : p.objects = []) : v = w := by
  cases h with
  | primitive q => rfl
  | @object ref _ =>
    have hplace : p.place ref = ref := by simp [place, hp]
    rw [hplace]

theorem same_of_below {p : Surplus} {m : Nat} {v : Value} (h : v.Below p.start)
    (hm : p.start ≤ m) : p.Same m v v := by
  cases v with
  | primitive q => exact .primitive q
  | object ref =>
    have hsame := Same.object (p := p) (Nat.lt_of_lt_of_le h hm)
    rwa [p.place_of_lt h] at hsame

/-- Outcomes match when both are related values or both are the same failure. -/
inductive Outcomes (R : α → β → Prop) : Except Stop α → Except Stop β → Prop
  | ok {v : α} {w : β} (h : R v w) : Outcomes R (.ok v) (.ok w)
  | error (e : Stop) : Outcomes R (.error e) (.error e)

theorem Outcomes.stop?_eq {R : α → β → Prop} {r : Except Stop α} {r' : Except Stop β}
    (h : Outcomes R r r') : Run.stop? r' = Run.stop? r := by
  cases h with
  | ok | error => rfl

theorem Outcomes.imp {R R' : α → β → Prop} (himp : ∀ v w, R v w → R' v w) {r : Except Stop α}
    {r' : Except Stop β} (h : Outcomes R r r') : Outcomes R' r r' := by
  cases h with
  | ok h => exact .ok (himp _ _ h)
  | error e => exact .error e

theorem Outcomes.eq {r r' : Except Stop α} (h : Outcomes Eq r r') : r' = r := by
  cases h with
  | ok h => rw [h]
  | error e => rfl

/-- Ends that match, with at least `m` objects. -/
structure Match (m : Nat) (R : Nat → α → β → Prop) (r : Except Stop α × State)
    (r' : Except Stop β × State) : Prop where
  outcome : Outcomes (R r.2.objects.size) r.1 r'.1
  beside : p.Beside r.2 r'.2
  grows : m ≤ r.2.objects.size

/-- Computations that match wherever the first one starts with `m` objects. -/
def Mirrors (m : Nat) (R : Nat → α → β → Prop) (x : Run α) (y : Run β) : Prop :=
  ∀ limit s t, s.objects.size = m → p.Beside s t → p.Match m R (x limit s) (y limit t)

variable {p} {m : Nat} {R : Nat → α → β → Prop} {S : Nat → γ → δ → Prop}

theorem Match.eq {r r' : Except Stop Value × State} (h : p.Match m p.Same r r')
    (hp : p.objects = []) : p.Match m (fun _ => Eq) r r' :=
  ⟨h.outcome.imp fun _ _ hvw => hvw.eq hp, h.beside, h.grows⟩

theorem Match.bind {x : Run α} {y : Run β} {f : α → Run γ} {g : β → Run δ} {limit : Nat}
    {s t : State} (h : p.Match m R (x limit s) (y limit t))
    (hnext : ∀ v w s' t', y limit t = (.ok w, t') → m ≤ s'.objects.size →
      R s'.objects.size v w → p.Beside s' t' →
        p.Match s'.objects.size S (f v limit s') (g w limit t')) :
    p.Match m S ((x >>= f) limit s) ((y >>= g) limit t) := by
  obtain ⟨houtcome, hbeside, hgrows⟩ := h
  rcases hx : x limit s with ⟨outcome, s'⟩
  rcases hy : y limit t with ⟨outcome', t'⟩
  rw [hx, hy] at houtcome hbeside
  rw [hx] at hgrows
  cases houtcome with
  | error e =>
    rw [Run.bind_of_error hx, Run.bind_of_error hy]
    exact ⟨.error e, hbeside, hgrows⟩
  | ok hvw =>
    rw [Run.bind_of_ok hx, Run.bind_of_ok hy]
    obtain ⟨houtcome, hafter, hgrows'⟩ := hnext _ _ s' t' hy hgrows hvw hbeside
    exact ⟨houtcome, hafter, Nat.le_trans hgrows hgrows'⟩

namespace Mirrors

theorem pure {v : α} {w : β} (h : R m v w) : p.Mirrors m R (Pure.pure v) (Pure.pure w) := by
  intro limit s t hm hbeside
  subst hm
  exact ⟨.ok h, hbeside, Nat.le_refl _⟩

theorem stop (e : Stop) : p.Mirrors m R (Run.stop e) (Run.stop e) := by
  intro limit s t hm hbeside
  exact ⟨.error e, hbeside, Nat.le_of_eq hm.symm⟩

theorem fail (f : Failure) : p.Mirrors m R (Run.fail f) (Run.fail f) := stop _

theorem bind {x : Run α} {y : Run β} {f : α → Run γ} {g : β → Run δ} (h : p.Mirrors m R x y)
    (hnext : ∀ m' v w, m ≤ m' → R m' v w → p.Mirrors m' S (f v) (g w)) :
    p.Mirrors m S (x >>= f) (y >>= g) := by
  intro limit s t hm hbeside
  apply (h limit s t hm hbeside).bind
  intro v w s' t' _ hgrows hvw hbeside'
  exact hnext _ v w hgrows hvw limit s' t' rfl hbeside'

theorem bindEq {x y : Run α} {f : α → Run γ} {g : α → Run δ}
    (h : p.Mirrors m (fun _ => Eq) x y)
    (hnext : ∀ m' v, m ≤ m' → p.Mirrors m' S (f v) (g v)) : p.Mirrors m S (x >>= f) (y >>= g) := by
  apply bind h
  intro m' v w hm hvw
  subst hvw
  exact hnext m' v hm

theorem mapEq {x y : Run α} (f : α → γ) (h : p.Mirrors m (fun _ => Eq) x y) :
    p.Mirrors m (fun _ => Eq) (f <$> x) (f <$> y) :=
  bindEq h fun _ _ _ => pure rfl

theorem mapPrimitive {x y : Run Primitive} (h : p.Mirrors m (fun _ => Eq) x y) :
    p.Mirrors m p.Same (.primitive <$> x) (.primitive <$> y) :=
  bindEq h fun _ q _ => pure (.primitive q)

theorem ofExcept (e : Except Failure α) :
    p.Mirrors m (fun _ => Eq) (Run.ofExcept e) (Run.ofExcept e) := by
  cases e with
  | ok v => exact pure rfl
  | error f => exact fail f

theorem ofMismatch (e : Except Mismatch α) :
    p.Mirrors m (fun _ => Eq) (Run.ofMismatch e) (Run.ofMismatch e) := by
  cases e with
  | ok v => exact pure rfl
  | error f => exact fail _

theorem constant {v : Value} (h : v.Below p.start) :
    p.Mirrors m p.Same (Pure.pure v) (Pure.pure v) := by
  intro limit s t hm hbeside
  exact pure (same_of_below h (hm ▸ hbeside.size)) limit s t hm hbeside

theorem object {ref : Nat} {f : Object → Run γ} {g : Object → Run δ}
    (hnext : ∀ o, o.Closed p.allowance p.start → p.Mirrors m S (f o) (g o)) :
    p.Mirrors m S (Run.object ref >>= f) (Run.object (p.place ref) >>= g) := by
  intro limit s t hm hbeside
  have hleft : (Run.object ref >>= f) limit s = f (s.object ref) limit s := rfl
  have hright : (Run.object (p.place ref) >>= g) limit t = g (s.object ref) limit t := by
    rw [← hbeside.object ref]
    rfl
  rw [hleft, hright]
  exact hnext _ (hbeside.closed.object ref) limit s t hm hbeside

theorem lookup {x : String} (hx : p.allowance.reads x) {f : Option Value → Run γ}
    {g : Option Value → Run δ}
    (hnext : ∀ found, (∀ v ∈ found, v.Below p.start) → p.Mirrors m S (f found) (g found)) :
    p.Mirrors m S (Run.lookup? x >>= f) (Run.lookup? x >>= g) := by
  intro limit s t hm hbeside
  have hleft : (Run.lookup? x >>= f) limit s = f (s.scope.get? x) limit s := rfl
  have hright : (Run.lookup? x >>= g) limit t = g (s.scope.get? x) limit t := by
    rw [← hbeside.scope x hx]
    rfl
  rw [hleft, hright]
  exact hnext _ (fun v hv => hbeside.closed.scope hv) limit s t hm hbeside

theorem allocate {o : Object} (ho : o.Closed p.allowance p.start) :
    p.Mirrors m p.Same (Run.allocate o) (Run.allocate o) := by
  intro limit s t hm hbeside
  have hnew : t.objects.size = p.place s.objects.size := by
    rw [hbeside.size_right, p.place_of_le hbeside.size]
  have hsize : (s.objects.push o).size = s.objects.size + 1 := Array.size_push _
  refine ⟨?_, hbeside.push ho, ?_⟩
  · simp only [Run.allocate, hnew, hsize]
    exact .ok (.object (Nat.lt_succ_self _))
  · simp only [Run.allocate, hsize]
    omega

theorem count (counter : Nat) :
    p.Mirrors m (fun _ => Eq) (Run.count counter) (Run.count counter) := by
  intro limit s t hm hbeside
  simp only [Run.count, hbeside.counters]
  exact ⟨.ok rfl, { hbeside with closed := hbeside.closed.of_eq rfl rfl, counters := rfl },
    Nat.le_of_eq hm.symm⟩

theorem depth : p.Mirrors m p.Same (do return Value.number (.ofNat (← Run.get).depth))
    (do return Value.number (.ofNat (← Run.get).depth)) := by
  intro limit s t hm hbeside
  have hright : (do return Value.number (.ofNat (← Run.get).depth) : Run Value) limit t =
      (.ok (.number (.ofNat s.depth)), t) := by
    rw [← hbeside.depth]
    rfl
  rw [hright]
  exact ⟨.ok (.primitive _), hbeside, Nat.le_of_eq hm.symm⟩

theorem nested {x : Run α} {y : Run β} (h : p.Mirrors m R x y) :
    p.Mirrors m R x.nested y.nested := by
  intro limit s t hm hbeside
  by_cases hs : s.depth < limit
  · rw [Run.nested_of_lt x hs, Run.nested_of_lt y (hbeside.depth ▸ hs)]
    have henter : p.Beside s.enter t.enter :=
      { hbeside with
        closed := hbeside.closed.of_eq rfl rfl
        depth := by simp only [State.enter, hbeside.depth]
        trace := by simp only [State.enter, hbeside.depth, hbeside.trace] }
    obtain ⟨houtcome, hinside, hgrows⟩ := h limit s.enter t.enter hm henter
    refine ⟨houtcome, ?_, hgrows⟩
    exact
      { hinside with
        closed := hinside.closed.of_eq rfl rfl
        depth := by simp only [State.leave, hinside.depth]
        trace := by simp only [State.leave, hinside.depth, hinside.trace] }
  · have hs' := Nat.le_of_not_lt hs
    rw [Run.nested_of_le x hs', Run.nested_of_le y (hbeside.depth ▸ hs')]
    exact ⟨.error _, hbeside, Nat.le_of_eq hm.symm⟩

theorem traced (call : Nat → Call) {x y : Run Value} (h : p.Mirrors m p.Same x y) :
    p.Mirrors m p.Same (Run.get >>= fun s => Run.traced (call s.depth) x)
      (Run.get >>= fun s => Run.traced (call s.depth) y) := by
  intro limit s t hm hbeside
  let s' : State := { s with trace := .called (call s.depth) :: s.trace }
  let t' : State := { t with trace := .called (call t.depth) :: t.trace }
  have hcalled : p.Beside s' t' :=
    { hbeside with
      closed := hbeside.closed.of_eq rfl rfl
      trace := by simp only [s', t', hbeside.depth, hbeside.trace] }
  obtain ⟨houtcome, hinside, hgrows⟩ := h limit s' t' hm hcalled
  have htrace : Event.returned (Run.stop? (y limit t').1) :: (y limit t').2.trace =
      .returned (Run.stop? (x limit s').1) :: (x limit s').2.trace := by
    rw [houtcome.stop?_eq, hinside.trace]
  rw [Run.traced_apply, Run.traced_apply]
  exact ⟨houtcome, { hinside with closed := hinside.closed.of_eq rfl rfl, trace := htrace }, hgrows⟩

end Mirrors

end Surplus

end Coercive
