/-! Text as a list of Unicode code points, and tables of values under texts. Surrogates are code points too: documents
may hold them one by one, and only the step to bytes refuses them. -/

namespace DocPath

/-- A Unicode code point, surrogates included. -/
abbrev CodePoint := Fin 0x110000

/-- A text is any list of code points. -/
abbrev Text := List CodePoint

namespace CodePoint

def ofChar (c : Char) : CodePoint :=
  ⟨c.toNat, by
    have h := c.valid
    simp only [Char.toNat, UInt32.isValidChar, Nat.isValidChar] at *
    omega⟩

/-- U+0000. -/
def nul : CodePoint := ⟨0, by decide⟩

/-- The code point of a number; numbers past the last code point give U+0000. -/
def ofNat (n : Nat) : CodePoint := if h : n < 0x110000 then ⟨n, h⟩ else nul

instance : Coe Char CodePoint := ⟨ofChar⟩

/-- Whether a code point is that of a character. -/
def is (c : CodePoint) (d : Char) : Bool := c == ofChar d

def isSurrogate (c : CodePoint) : Bool := 0xD800 ≤ c.val && c.val ≤ 0xDFFF

/-- One of the digits 0 to 9. -/
def isDigit (c : CodePoint) : Bool := '0' ≤ c && c ≤ '9'

/-- One of the letters a to z and A to Z. -/
def isLetter (c : CodePoint) : Bool := ('a' ≤ c && c ≤ 'z') || ('A' ≤ c && c ≤ 'Z')

/-- The value of a digit in a base up to 36, letters in either case standing for ten and above. -/
def digitValue (c : CodePoint) : Nat :=
  if '0' ≤ c && c ≤ '9' then c.val - 48
  else if 'a' ≤ c && c ≤ 'z' then c.val - 87
  else if 'A' ≤ c && c ≤ 'Z' then c.val - 55
  else 36

def isHexDigit (c : CodePoint) : Bool := c.digitValue < 16

/-- The small form of a letter A to Z; every other code point is left alone. -/
def lowerLetter (c : CodePoint) : CodePoint :=
  if 'A' ≤ c && c ≤ 'Z' then ofNat (c.val + 32) else c

/-- The capital form of a letter a to z; every other code point is left alone. -/
def upperLetter (c : CodePoint) : CodePoint :=
  if 'a' ≤ c && c ≤ 'z' then ofNat (c.val - 32) else c

end CodePoint

namespace Text

def ofString (s : String) : Text := s.toList.map CodePoint.ofChar

instance : Coe String Text := ⟨ofString⟩

/-- The text with every surrogate shown as U+FFFD. -/
def toString (t : Text) : String :=
  String.ofList (t.map fun c => if c.isSurrogate then '\uFFFD' else Char.ofNat c.val)

/-- The digits of a number in a base from 2 to 16, most significant first, without leading zeros. -/
def ofNatBase (base n : Nat) : Text := (Nat.toDigits base n).map CodePoint.ofChar

/-- The decimal digits of a number. -/
def ofNat (n : Nat) : Text := ofNatBase 10 n

/-- Decimal digits with a minus sign in front of negative numbers. -/
def ofInt (i : Int) : Text :=
  if i < 0 then CodePoint.ofChar '-' :: ofNat i.natAbs else ofNat i.natAbs

/-- Fills up on the left to a width. -/
def padLeft (fill : CodePoint) (width : Nat) (t : Text) : Text :=
  List.replicate (width - t.length) fill ++ t

def padRight (fill : CodePoint) (width : Nat) (t : Text) : Text :=
  t ++ List.replicate (width - t.length) fill

/-- Decimal digits, filled up with zeros to a width. -/
def ofNatPadded (width n : Nat) : Text := padLeft '0' width (ofNat n)

/-- Small hexadecimal digits, filled up with zeros to a width. -/
def hex (width n : Nat) : Text := padLeft '0' width (ofNatBase 16 n)

/-- Capital hexadecimal digits, filled up with zeros to a width. -/
def hexCapital (width n : Nat) : Text := (hex width n).map CodePoint.upperLetter

/-- The letters A to Z in small form, everything else as it is. -/
def lowerLetters (t : Text) : Text := t.map CodePoint.lowerLetter

/-- Without the code points of a class at either end. -/
def trim (p : CodePoint → Bool) (t : Text) : Text :=
  ((t.dropWhile p).reverse.dropWhile p).reverse

def startsWith (t p : Text) : Bool := p.isPrefixOf t

def endsWith (t p : Text) : Bool := p.reverse.isPrefixOf t.reverse

/-- Whether a text occurs in another. -/
def contains (t part : Text) : Bool :=
  match t with
  | [] => part.isEmpty
  | _ :: rest => part.isPrefixOf t || contains rest part

/-- The pieces between the occurrences of a separator; never empty. -/
def splitOn (sep : CodePoint) : Text → List Text
  | [] => [[]]
  | c :: rest =>
    if c = sep then [] :: splitOn sep rest
    else match splitOn sep rest with
      | [] => [[c]]
      | piece :: pieces => (c :: piece) :: pieces

/-- The texts one behind the other. -/
def concat (ts : List Text) : Text := ts.flatten

/-- The texts in order with a separator between neighbours. -/
def join (sep : Text) : List Text → Text
  | [] => []
  | [t] => t
  | t :: u :: ts => t ++ sep ++ join sep (u :: ts)

/-- Lexicographic order by code point. -/
def before : Text → Text → Bool
  | [], [] => false
  | [], _ :: _ => true
  | _ :: _, [] => false
  | a :: as, b :: bs => a.val < b.val || (a.val == b.val && before as bs)

end Text

/-- Values under names, in the order in which the names came up first. -/
abbrev Table (α : Type) := List (Text × α)

namespace Table

variable {α : Type}

/-- Puts a value under a name; a name that is there already keeps its place. -/
def put (name : Text) (x : α) : Table α → Table α
  | [] => [(name, x)]
  | (n, y) :: rest => if n = name then (n, x) :: rest else (n, y) :: put name x rest

/-- The table of some entries; of two with one name the later gives the value. -/
def ofEntries (entries : List (Text × α)) : Table α :=
  entries.foldl (fun t e => put e.1 e.2 t) []

end Table

end DocPath
