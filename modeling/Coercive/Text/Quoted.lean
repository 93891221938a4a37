import Coercive.Text.Blank

namespace Coercive.Text

/-- An approximation of the characters without a visible form: controls, blanks other than the
space, and format characters. Marks that only extend the character before them and code points that
no character is assigned to are left out, as there is no table of either here. -/
def isHidden (c : Char) : Bool :=
  c.toNat < 0x20 || (0x7f ≤ c.toNat && c.toNat < 0xa0) || (isBlank c && c != ' ')
    || c.toNat == 0xad || (0x200b ≤ c.toNat && c.toNat ≤ 0x200f)
    || (0x202a ≤ c.toNat && c.toNat ≤ 0x202e) || (0x2060 ≤ c.toNat && c.toNat ≤ 0x206f)
    || c.toNat == 0xfeff

def escape (c : Char) : List Char :=
  match c with
  | '"' => ['\\', '"']
  | '\\' => ['\\', '\\']
  | '\n' => ['\\', 'n']
  | '\r' => ['\\', 'r']
  | '\t' => ['\\', 't']
  | '\x00' => ['\\', '0']
  | c =>
    if isHidden c then ['\\', 'u', '\x7b'] ++ Nat.toDigits 16 c.toNat ++ ['\x7d'] else [c]

def quoted (s : String) : String :=
  String.ofList ('"' :: s.toList.flatMap escape ++ ['"'])

end Coercive.Text
