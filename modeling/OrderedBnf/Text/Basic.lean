/-! Texts as lists of characters. Every offset, length and column in this library counts
characters, and a range is a half-open pair of offsets. -/
namespace OrderedBnf

abbrev Text := List Char

namespace Text

/-- The characters of a range; a range reaching past the end is cut there. -/
def window (text : Text) (start stop : Nat) : Text := (text.drop start).take (stop - start)

/-- A signed offset counts from the end when it is negative, and is clipped to the text. -/
def clip (size : Nat) (i : Int) : Nat := if i < 0 then (i + size).toNat else min i.toNat size

def lacks (text : Text) (i stop : Nat) : Bool := i < stop && (text.drop i).isEmpty

def slice (text : Text) (start stop : Int) : Text :=
  text.window (clip text.length start) (clip text.length stop)

section Windows
variable (text : Text) {a b c : Nat}

theorem window_self (i : Nat) : text.window i i = [] := by
  rw [window, Nat.sub_self, List.take_zero]

theorem length_window (start stop : Nat) :
    (text.window start stop).length = min (stop - start) (text.length - start) := by
  simp [window]

theorem window_append (hab : a ≤ b) (hbc : b ≤ c) :
    text.window a c = text.window a b ++ text.window b c := by
  have hsum : c - a = (b - a) + (c - b) := by omega
  rw [window, hsum, List.take_add, List.drop_drop, Nat.add_sub_cancel' hab]
  rfl

theorem drop_window (hab : a ≤ b) : text.drop a = text.window a b ++ text.drop b := by
  obtain ⟨d, rfl⟩ := Nat.exists_eq_add_of_le hab
  rw [window, Nat.add_sub_cancel_left, ← List.drop_drop, List.take_append_drop]

theorem head?_window (h : a < b) : (text.window a b).head? = text[a]? := by
  rw [window, List.head?_take, if_neg (by omega), List.head?_drop]

/-- The ends of the parts of a window. -/
theorem window_parts {front rest : Text} (hab : a ≤ b) (hb : b ≤ text.length)
    (h : text.window a b = front ++ rest) : ∃ m, a + front.length = m ∧ m + rest.length = b ∧
      text.window a m = front ∧ text.window m b = rest := by
  have hlength := congrArg List.length h
  rw [length_window, List.length_append] at hlength
  have hm : a + front.length + rest.length = b := by omega
  have hfront : (text.window a (a + front.length)).length = front.length := by
    rw [length_window]
    omega
  rw [window_append text (Nat.le_add_right a front.length) (by omega)] at h
  obtain ⟨hfront, hrest⟩ := List.append_inj h hfront
  exact ⟨_, rfl, hm, hfront, hrest⟩

theorem window_append_left (before word after : Text) :
    (before ++ word ++ after).window before.length (before.length + word.length) = word := by
  simp [window]

/-- A window past the end of the text is cut there, as a slice is. -/
theorem slice_natCast (a b : Nat) : text.slice a b = text.window a b := by
  have hclip (i : Nat) : clip text.length i = min i text.length := if_neg (by omega)
  rw [slice, hclip, hclip, window, window]
  rcases Nat.le_total a text.length with ha | ha
  · rw [Nat.min_eq_left ha, List.take_eq_take_iff, List.length_drop]
    omega
  · rw [Nat.min_eq_right ha, List.drop_eq_nil_of_le (Nat.le_refl _), List.drop_eq_nil_of_le ha,
      List.take_nil, List.take_nil]

end Windows

def trimLeft (p : Char → Bool) (text : Text) : Text := text.dropWhile p

def trimRight (p : Char → Bool) : Text → Text
  | [] => []
  | c :: rest =>
    match trimRight p rest with
    | [] => if p c then [] else [c]
    | kept => c :: kept

def trim (p : Char → Bool) (text : Text) : Text := trimRight p (trimLeft p text)

def join (between : Text) : List Text → Text
  | [] => []
  | [piece] => piece
  | piece :: rest => piece ++ between ++ join between rest

/-- A text longer than `width` gives up its end for three dots. The number of characters kept is
a signed offset, as in `slice`. -/
def excerpt (width : Int) (text : Text) : Text :=
  if text.length ≤ width then text else text.slice 0 (width - 3) ++ "...".toList

def words (p : Char → Bool) : Text → List Text
  | [] => []
  | [c] => if p c then [] else [[c]]
  | c :: d :: rest =>
    if p c then words p (d :: rest)
    else if p d then [c] :: words p (d :: rest)
    else match words p (d :: rest) with
      | [] => [[c]]
      | word :: others => (c :: word) :: others

def find? (pattern : Text) : Text → Option Nat
  | [] => if pattern.isEmpty then some 0 else none
  | c :: rest =>
    if pattern.isPrefixOf (c :: rest) then some 0 else (find? pattern rest).map (· + 1)

end Text

def isAsciiDigit (c : Char) : Bool := '0' ≤ c && c ≤ '9'

end OrderedBnf
