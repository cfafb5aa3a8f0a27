/-!
Blanks are the characters of Unicode's White_Space property; trimming drops them at both ends.
Main statement: `trim_length_le`, by which a
reader may recurse on trimmed pieces.
-/
namespace TickCircuit.Text

def isBlank (c : Char) : Bool :=
  let n := c.toNat
  (0x9 ≤ n && n ≤ 0xD) || n == 0x20 || n == 0x85 || n == 0xA0 || n == 0x1680
    || (0x2000 ≤ n && n ≤ 0x200A) || n == 0x2028 || n == 0x2029 || n == 0x202F
    || n == 0x205F || n == 0x3000

theorem isBlank_of_isWhitespace (c : Char) (h : c.isWhitespace) : isBlank c := by
  simp only [Char.isWhitespace, Bool.or_eq_true, decide_eq_true_eq] at h
  obtain ((rfl | rfl) | rfl) | rfl := h <;> rfl

def trimLeft (s : List Char) : List Char := s.dropWhile isBlank

def trimRight (s : List Char) : List Char := (s.reverse.dropWhile isBlank).reverse

def trim (s : List Char) : List Char := trimRight (trimLeft s)

theorem length_dropWhile_le (p : Char → Bool) (s : List Char) :
    (s.dropWhile p).length ≤ s.length :=
  (List.dropWhile_sublist p).length_le

theorem trim_length_le (s : List Char) : (trim s).length ≤ s.length := by
  have h := length_dropWhile_le isBlank (trimLeft s).reverse
  have h' := length_dropWhile_le isBlank s
  simp only [trim, trimRight, trimLeft, List.length_reverse] at *
  omega

end TickCircuit.Text
