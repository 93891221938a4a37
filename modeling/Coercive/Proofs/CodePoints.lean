import Coercive.Proofs.Order

namespace Coercive

namespace Text

def codePoints (s : String) : List Nat := s.toList.map Char.toNat

/-- A number without its last `k` digits in base 64. -/
def leading : Nat → Nat → Nat
  | 0, v => v
  | k + 1, v => leading k (v / 64)

/-- One byte for the leading digits behind a mark, and `k` bytes for the others. -/
def digitBytes (m : Nat) : Nat → Nat → List UInt8
  | 0, v => [UInt8.ofNat (v + m)]
  | k + 1, v => digitBytes m k (v / 64) ++ [UInt8.ofNat (v % 64 + 128)]

def continuations (v : Nat) : Nat :=
  if v ≤ 127 then 0 else if v ≤ 2047 then 1 else if v ≤ 65535 then 2 else 3

def mark : Nat → Nat
  | 0 => 0
  | 1 => 192
  | 2 => 224
  | _ => 240

def firstByte (v : Nat) : Nat := leading (continuations v) v + mark (continuations v)

def encoded (v : Nat) : List UInt8 := digitBytes (mark (continuations v)) (continuations v) v

theorem toNat_lt (c : Char) : c.toNat < 0x110000 := by
  rcases c.valid with h | ⟨-, h⟩
  · exact Nat.lt_trans h (by decide)
  · exact h

theorem utf8EncodeChar_eq (c : Char) : String.utf8EncodeChar c = encoded c.toNat := by
  have hlt := toNat_lt c
  have hval : c.val.toNat = c.toNat := rfl
  simp only [String.utf8EncodeChar, hval, encoded, continuations]
  -- the highest digit needs no remainder, since each form is used up to its largest number
  split
  · rfl
  split
  · rw [show c.toNat / 64 % 32 = c.toNat / 64 by omega]
    rfl
  split
  · rw [show c.toNat / 4096 % 16 = c.toNat / 64 / 64 by omega]
    rfl
  · rw [show c.toNat / 262144 % 8 = c.toNat / 64 / 64 / 64 by omega,
      show c.toNat / 4096 = c.toNat / 64 / 64 by omega]
    rfl

theorem firstByte_lt {v : Nat} (h : v < 0x110000) : firstByte v < 256 := by
  grind [firstByte, continuations, leading, mark]

theorem lt_of_continuations_lt {v w : Nat} (h : continuations v < continuations w) :
    v < w ∧ firstByte v < firstByte w := by
  grind [firstByte, continuations, leading, mark]

theorem digitBytes_eq_cons (m k v : Nat) :
    ∃ rest, digitBytes m k v = UInt8.ofNat (leading k v + m) :: rest := by
  induction k generalizing v with
  | zero => exact ⟨[], rfl⟩
  | succ k ih =>
    obtain ⟨rest, h⟩ := ih (v / 64)
    exact ⟨rest ++ [UInt8.ofNat (v % 64 + 128)], by rw [digitBytes, h]; rfl⟩

theorem compare_cons {m n : Nat} (hm : m < 256) (hn : n < 256) (xs ys : List UInt8) :
    compare (UInt8.ofNat m :: xs) (UInt8.ofNat n :: ys) = (compare m n).then (compare xs ys) := by
  have hbyte : compare (UInt8.ofNat m) (UInt8.ofNat n) = compare m n := by
    change compareOfLessAndEq _ _ = compareOfLessAndEq m n
    simp only [compareOfLessAndEq, UInt8.lt_iff_toNat_lt, ← UInt8.toNat_inj,
      UInt8.toNat_ofNat_of_lt' hm, UInt8.toNat_ofNat_of_lt' hn]
  rw [List.compare_cons_cons, hbyte]

theorem compare_add (v w m : Nat) : compare (v + m) (w + m) = compare v w := by
  simp only [Nat.compare_eq_ite_lt, Nat.add_lt_add_iff_right]

theorem compare_digits (v w : Nat) :
    compare v w = (compare (v / 64) (w / 64)).then (compare (v % 64) (w % 64)) := by
  rcases Nat.lt_trichotomy v w with h | rfl | h
  · rw [Nat.compare_eq_lt.2 h, eq_comm, Ordering.then_eq_lt, Nat.compare_eq_lt, Nat.compare_eq_eq,
      Nat.compare_eq_lt]
    omega
  · simp only [Std.compare_self, Ordering.then_self]
  · rw [Nat.compare_eq_gt.2 h, eq_comm, Ordering.then_eq_gt, Nat.compare_eq_gt, Nat.compare_eq_eq,
      Nat.compare_eq_gt]
    omega

theorem compare_digitBytes {m k v w : Nat} (hv : leading k v + m < 256)
    (hw : leading k w + m < 256) (xs ys : List UInt8) :
    compare (digitBytes m k v ++ xs) (digitBytes m k w ++ ys) =
      (compare v w).then (compare xs ys) := by
  induction k generalizing v w xs ys with
  | zero =>
    rw [leading] at hv hw
    rw [digitBytes, digitBytes, List.singleton_append, List.singleton_append,
      compare_cons hv hw, compare_add]
  | succ k ih =>
    have hdigit : ∀ n, n % 64 + 128 < 256 := fun n => by omega
    rw [digitBytes, digitBytes, List.append_assoc, List.append_assoc, ih hv hw,
      List.singleton_append, List.singleton_append, compare_cons (hdigit v) (hdigit w),
      compare_add, ← Ordering.then_assoc, ← compare_digits]

/-- First bytes that differ decide, whatever stands behind them. -/
theorem compare_of_firstByte_lt {v w : Nat} (h : firstByte v < firstByte w)
    (hw : firstByte w < 256) (xs ys : List UInt8) :
    compare (encoded v ++ xs) (encoded w ++ ys) = .lt := by
  obtain ⟨rest, hrest⟩ := digitBytes_eq_cons (mark (continuations v)) (continuations v) v
  obtain ⟨rest', hrest'⟩ := digitBytes_eq_cons (mark (continuations w)) (continuations w) w
  have hfirst := compare_cons (Nat.lt_trans h hw) hw (rest ++ xs) (rest' ++ ys)
  rw [Nat.compare_eq_lt.2 h] at hfirst
  rw [encoded, encoded, hrest, hrest']
  exact hfirst

theorem compare_encoded {v w : Nat} (hv : v < 0x110000) (hw : w < 0x110000) (xs ys : List UInt8) :
    compare (encoded v ++ xs) (encoded w ++ ys) = (compare v w).then (compare xs ys) := by
  rcases Nat.lt_trichotomy (continuations v) (continuations w) with h | h | h
  · obtain ⟨hlt, hfirst⟩ := lt_of_continuations_lt h
    rw [compare_of_firstByte_lt hfirst (firstByte_lt hw), Nat.compare_eq_lt.2 hlt]
    rfl
  · have hv' := firstByte_lt hv
    have hw' := firstByte_lt hw
    rw [firstByte] at hv' hw'
    rw [encoded, encoded]
    rw [← h] at hw' ⊢
    exact compare_digitBytes hv' hw' xs ys
  · obtain ⟨hlt, hfirst⟩ := lt_of_continuations_lt h
    have hswapped := compare_of_firstByte_lt hfirst (firstByte_lt hv) ys xs
    rw [Std.OrientedCmp.gt_of_lt hswapped, Nat.compare_eq_gt.2 hlt]
    rfl

theorem compare_bytes (cs ds : List Char) :
    compare (bytes cs) (bytes ds) = compare (cs.map Char.toNat) (ds.map Char.toNat) := by
  have hcons : ∀ (c : Char) (cs : List Char), bytes (c :: cs) = encoded c.toNat ++ bytes cs := by
    intro c cs
    rw [bytes, List.flatMap_cons, utf8EncodeChar_eq, bytes]
  have hfirst : ∀ (c : Char) (cs : List Char), ∃ b rest, bytes (c :: cs) = b :: rest := by
    intro c cs
    obtain ⟨rest, hrest⟩ := digitBytes_eq_cons _ (continuations c.toNat) c.toNat
    exact ⟨_, rest ++ bytes cs, by rw [hcons, encoded, hrest]; rfl⟩
  induction cs generalizing ds with
  | nil =>
    cases ds with
    | nil => rfl
    | cons d ds =>
      obtain ⟨b, rest, h⟩ := hfirst d ds
      rw [h]
      rfl
  | cons c cs ih =>
    cases ds with
    | nil =>
      obtain ⟨b, rest, h⟩ := hfirst c cs
      rw [h]
      rfl
    | cons d ds =>
      rw [hcons, hcons, compare_encoded (toNat_lt c) (toNat_lt d), ih ds, List.map_cons,
        List.map_cons, List.compare_cons_cons]

theorem compareBytes_eq (s t : String) :
    compareBytes s t = compare (codePoints s) (codePoints t) :=
  compare_bytes s.toList t.toList

/-- The units of UTF-16 order these two the other way round. -/
example : compareBytes "\uffff" "😀" = .lt := by decide

theorem bytes_toList (s : String) : bytes s.toList = s.toUTF8.data.toList := by
  rw [String.toUTF8_eq_toByteArray, ← String.utf8Encode_toList]
  exact List.toList_data_toByteArray.symm

/-- Sequences are ordered by the first place where they differ, or by where the shorter one ends. -/
theorem compare_eq_lt_iff {xs ys : List Nat} : compare xs ys = .lt ↔ List.Lex (· < ·) xs ys := by
  induction xs generalizing ys with
  | nil =>
    cases ys with
    | nil => exact iff_of_false nofun nofun
    | cons y ys => exact iff_of_true rfl .nil
  | cons x xs ih =>
    cases ys with
    | nil => exact iff_of_false nofun nofun
    | cons y ys =>
      rw [List.compare_cons_cons, Ordering.then_eq_lt, Nat.compare_eq_lt, Nat.compare_eq_eq, ih,
        List.cons_lex_cons_iff]

theorem compare_eq_gt_iff {xs ys : List Nat} : compare xs ys = .gt ↔ List.Lex (· < ·) ys xs := by
  rw [← compare_eq_lt_iff, Std.OrientedCmp.gt_iff_lt]

end Text

/-- A relation on two strings asks for the order of their UTF-8 bytes. This is the lexicographic
order of their code points, by which a text comes behind its proper beginnings. -/
theorem relate_codePoints (s t : String) :
    (∀ (invoke : Invoker) (r : Relation),
      Value.relate invoke r (.string s) (.string t) =
        pure (r.holds (compare s.toUTF8.data.toList t.toUTF8.data.toList))) ∧
    compare s.toUTF8.data.toList t.toUTF8.data.toList =
      compare (Text.codePoints s) (Text.codePoints t) ∧
    (compare (Text.codePoints s) (Text.codePoints t) = .lt ↔
      List.Lex (· < ·) (Text.codePoints s) (Text.codePoints t)) ∧
    (compare (Text.codePoints s) (Text.codePoints t) = .eq ↔ s = t) ∧
    (compare (Text.codePoints s) (Text.codePoints t) = .gt ↔
      List.Lex (· < ·) (Text.codePoints t) (Text.codePoints s)) := by
  have hbytes : compare s.toUTF8.data.toList t.toUTF8.data.toList = Text.compareBytes s t := by
    rw [← Text.bytes_toList, ← Text.bytes_toList, Text.compareBytes]
  refine ⟨fun invoke r => ?_, ?_, Text.compare_eq_lt_iff, ?_, Text.compare_eq_gt_iff⟩
  · rw [Value.string, Value.string, Value.relate_primitives, Primitive.related_eq,
      Primitive.compare?_strings, hbytes]
    rfl
  · rw [hbytes, Text.compareBytes_eq]
  · rw [← Text.compareBytes_eq, Text.compareBytes_eq_iff]

end Coercive
