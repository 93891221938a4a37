namespace Coercive.Text

def bytes (cs : List Char) : List UInt8 := cs.flatMap String.utf8EncodeChar

def byteLength (cs : List Char) : Nat := (bytes cs).length

theorem bytes_append (cs ds : List Char) : bytes (cs ++ ds) = bytes cs ++ bytes ds :=
  List.flatMap_append

theorem byteLength_toList (s : String) : byteLength s.toList = s.utf8ByteSize := by
  rw [String.utf8ByteSize, ← String.utf8Encode_toList]
  exact List.size_toByteArray.symm

theorem byteLength_cons (c : Char) (cs : List Char) :
    byteLength (c :: cs) = c.utf8Size + byteLength cs := by
  rw [byteLength, bytes, List.flatMap_cons, List.length_append, String.length_utf8EncodeChar]
  rfl

theorem utf8EncodeChar_of_lt {c : Char} (h : c.toNat < 128) :
    String.utf8EncodeChar c = [UInt8.ofNat c.toNat] :=
  if_pos (show c.toNat ≤ 127 by omega)

theorem exists_lead {c : Char} (h : 128 ≤ c.toNat) :
    ∃ lead rest, String.utf8EncodeChar c = lead :: rest ∧ 128 ≤ lead.toNat := by
  have hlead : ∀ n : Nat, 128 ≤ n → n < 256 → 128 ≤ (UInt8.ofNat n).toNat := fun n hn hlt => by
    rwa [UInt8.toNat_ofNat_of_lt' hlt]
  rw [String.utf8EncodeChar, if_neg (show ¬ c.val.toNat ≤ 127 from Nat.not_le_of_lt h)]
  split
  · exact ⟨_, _, rfl, hlead _ (by omega) (by omega)⟩
  · split <;> exact ⟨_, _, rfl, hlead _ (by omega) (by omega)⟩

/-- Splits a text behind a number of bytes, if no character is cut there and the text is as long. -/
def cutAt? : List Char → Nat → Option (List Char × List Char)
  | cs, 0 => some ([], cs)
  | [], _ + 1 => none
  | c :: cs, n + 1 =>
    if c.utf8Size ≤ n + 1 then
      (cutAt? cs (n + 1 - c.utf8Size)).map fun (front, back) => (c :: front, back)
    else none

/-- A text is split in two parts, the first of the given length. -/
theorem cutAt?_eq_some_iff {cs front back : List Char} {n : Nat} :
    cutAt? cs n = some (front, back) ↔ cs = front ++ back ∧ byteLength front = n := by
  fun_induction cutAt? cs n generalizing front with
  | case1 cs =>
    cases front with
    | nil => simp [byteLength, bytes]
    | cons c front =>
      have := c.utf8Size_pos
      rw [byteLength_cons]
      simp
      omega
  | case2 n =>
    constructor
    · exact fun h => nomatch h
    · rintro ⟨h, hlength⟩
      rw [(List.append_eq_nil_iff.1 h.symm).1] at hlength
      cases hlength
  | case3 c cs n hle ih =>
    cases front with
    | nil => simp [byteLength, bytes]
    | cons d front =>
      rw [byteLength_cons, Option.map_eq_some_iff]
      constructor
      · rintro ⟨⟨front, back⟩, hcut, heq⟩
        cases heq
        obtain ⟨rfl, hlength⟩ := ih.1 hcut
        exact ⟨rfl, by omega⟩
      · rintro ⟨heq, hlength⟩
        cases heq
        exact ⟨_, ih.2 ⟨rfl, by omega⟩, rfl⟩
  | case4 c cs n hlt =>
    constructor
    · exact fun h => nomatch h
    · rintro ⟨heq, hlength⟩
      cases front with
      | nil => cases hlength
      | cons d front =>
        cases heq
        rw [byteLength_cons] at hlength
        omega

/-- The order of two texts by their bytes, a proper beginning coming first. -/
def compareBytes (s t : String) : Ordering := compare (bytes s.toList) (bytes t.toList)

end Coercive.Text
