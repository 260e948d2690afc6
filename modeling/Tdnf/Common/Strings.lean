import Tdnf.Common.Error
import Tdnf.Library.PathText

/-!
# Strings of configuration files and options

Numbers and truth values as the C library reads them, splitting at separators,
and the test for a glob pattern.
-/

namespace Tdnf.Common

open PathText

/-- `strcasecmp` with a lower case text -/
def equalsCase (s lower : Text) : Bool := s.map Char.toLower == lower

/-- The characters `isspace` accepts. -/
def isSpace (c : Char) : Bool := c ∈ [' ', '\t', '\n', '\x0b', '\x0c', '\r']

/-- The number that decimal digits stand for. -/
def digitsValue (digits : Text) : ℕ :=
  digits.foldl (fun n c => 10 * n + (c.toNat - '0'.toNat)) 0

/-- The sign of a number and what follows it. -/
def takeSign : Text → ℤ × Text
  | '-' :: rest => (-1, rest)
  | '+' :: rest => (1, rest)
  | rest => (1, rest)

/-- `strtol` to base 10: the number, from LONG_MIN to LONG_MAX, and the text behind it -/
def strtol (s : Text) : ℤ × Text :=
  let (sign, rest) := takeSign (s.dropWhile isSpace)
  let digits := rest.takeWhile Char.isDigit
  if digits = [] then (0, s)
  else (max (-9223372036854775808) (min (sign * digitsValue digits) 9223372036854775807),
    rest.drop digits.length)

/-- `strtoi`; what does not fit into an `int` counts as 0 -/
def strtoi (s : Text) : ℤ :=
  let (n, rest) := strtol s
  if rest ≠ [] ∨ 2147483647 < n ∨ n < -2147483648 then 0 else n

/-- `isTrue` -/
def isTrue (s : Text) : Bool :=
  if equalsCase s "false".toList then false
  else equalsCase s "true".toList || decide (strtoi s ≠ 0)

/-- `TDNFSplitStringToArray` with one separator -/
def splitStringToArray (s : Text) (sep : Char) : List Text :=
  (s.splitOn sep).filter (· ≠ [])

/-- `strlen`, in bytes -/
def strlen (s : Text) : ℕ := s.foldl (fun n c => n + c.utf8Size) 0

theorem strlen_cons (c : Char) (s : Text) : strlen (c :: s) = c.utf8Size + strlen s := by
  have hfrom (s : Text) (n : ℕ) : s.foldl (fun n c => n + c.utf8Size) n = n + strlen s := by
    induction s generalizing n with
    | nil => rfl
    | cons c s ih =>
        rw [strlen, List.foldl_cons, List.foldl_cons, ih, ih (0 + c.utf8Size)]
        omega
  rw [strlen, List.foldl_cons, hfrom]
  omega

theorem strlen_append (s t : Text) : strlen (s ++ t) = strlen s + strlen t := by
  induction s with
  | nil => exact (Nat.zero_add _).symm
  | cons c s ih =>
      rw [List.cons_append, strlen_cons, strlen_cons, ih]
      omega

/-- `TDNFAllocateString`, with `TDNF_DEFAULT_MAX_STRING_LEN` -/
def allocateString (s : Text) : Except TdnfError Text :=
  if 16384000 < strlen s then .error .stringTooLong else .ok s

theorem allocateString_eq (s : Text) :
    allocateString s = .error .stringTooLong ∨ allocateString s = .ok s := by
  rw [allocateString]
  split
  · exact .inl rfl
  · exact .inr rfl

/-- `TDNFIsGlob` -/
def isGlob (s : Text) : Bool := s.any fun c => c = '*' || c = '?' || c = '['

end Tdnf.Common
