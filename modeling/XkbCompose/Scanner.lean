import XkbCompose.Table

/-!
# XkbCompose.Scanner

The byte cursor that the lexer of `parser.c` reads through, and the functions outside the
repository that the lexer and the parser call.

`scanner-utils.h` and `utils.h` are not part of the sources. Their functions are modelled from
the spec's description of the scanner (section 4.1): `peek` reads the next byte (`0` at the end), `next` consumes it, `eof` is the
end, `eol` a newline or the end, `chr` consumes a given byte, `oct` and `hex` read 1 to 3 octal
or 1 to 2 hex digits into a byte, and `buf_append` adds a byte to the bounded scratch buffer,
failing when it is full. The scanner is the input from the current position on; the scratch
buffer is local to a token and is passed along explicitly. Line and column numbers, kept for
messages only, are left out.
-/

namespace XkbCompose

def ch (c : Char) : UInt8 := c.toNat.toUInt8

/-! ## The character classes of `utils.h`, modelled from the spec -/

def isSpace (b : UInt8) : Bool := b == ch ' ' || (ch '\t' ≤ b && b ≤ ch '\r')

def isDigit (b : UInt8) : Bool := ch '0' ≤ b && b ≤ ch '9'

def isAlpha (b : UInt8) : Bool := (ch 'a' ≤ b && b ≤ ch 'z') || (ch 'A' ≤ b && b ≤ ch 'Z')

def isAlnum (b : UInt8) : Bool := isAlpha b || isDigit b

def isXdigit (b : UInt8) : Bool := isDigit b || (ch 'a' ≤ b && b ≤ ch 'f') || (ch 'A' ≤ b && b ≤ ch 'F')

/-- The functions the lexer and the parser call that are outside the repository. -/
structure Env where
  /-- `sizeof(s->buf)`, the capacity of the scratch buffer. -/
  cap : Nat
  /-- `xkb_keysym_from_name(name, XKB_KEYSYM_NO_FLAGS)`, `NoSymbol` for an unknown name. -/
  keysymFromName : List UInt8 → Keysym
  /-- `is_valid_utf8`. -/
  isValidUtf8 : List UInt8 → Bool
  /-- `secure_getenv("HOME")`. -/
  home : Option (List UInt8)
  /-- `get_locale_compose_file_path(compose->locale)`. -/
  localeComposeFile : Option (List UInt8)
  /-- `get_xlocaledir_path()`. -/
  xlocaledir : List UInt8
  /-- The contents of the file at a path, as `fopen` and `map_file` give it; `none` when it
  cannot be opened or read. -/
  files : List UInt8 → Option (List UInt8)

/-! ## The scanner of `scanner-utils.h`, modelled from the spec -/

/-- Modelled from the spec: `peek`, the next byte, `0` at the end. -/
def peek : List UInt8 → UInt8
  | [] => 0
  | b :: _ => b

/-- Modelled from the spec: `eof`, the end of the input. -/
def eof (s : List UInt8) : Bool := s.isEmpty

/-- Modelled from the spec: `eol`, a newline or the end (spec section 4.1). -/
def eol (s : List UInt8) : Bool := eof s || peek s == ch '\n'

/-- Modelled from the spec: `next`, the next byte, consumed; `0`, and nothing consumed, at the
end. -/
def next : List UInt8 → UInt8 × List UInt8
  | [] => (0, [])
  | b :: s => (b, s)

/-- Modelled from the spec: `chr`, consume the byte `c` when it is next. -/
def chr (c : UInt8) : List UInt8 → Option (List UInt8)
  | [] => none
  | b :: s => if b = c then some s else none

/-- Modelled from the spec: `buf_append`, the buffer with `b` added, or `none` when it is full. -/
def bufAppend (cap : Nat) (buf : List UInt8) (b : UInt8) : Option (List UInt8) :=
  if buf.length + 1 ≥ cap then none else some (buf ++ [b])

/-- Modelled from the spec: `buf_appends`, the buffer with the C string `str` added, or `none`
when it does not fit. -/
def bufAppends (cap : Nat) (buf str : List UInt8) : Option (List UInt8) :=
  if (cstr str).length ≥ cap - buf.length then none else some (buf ++ cstr str)

def octLoop : Nat → UInt8 → List UInt8 → Nat × UInt8 × List UInt8
  | i, out, [] => (i, out, [])
  | i, out, b :: s =>
    if ch '0' ≤ b && b ≤ ch '7' && i < 3 then octLoop (i + 1) (out * 8 + (b - ch '0')) s
    else (i, out, b :: s)

/-- Modelled from the spec: `oct`, the byte of one to three octal digits (`octLoop`), or `none`,
and nothing consumed, when no digit is next. -/
def oct (s : List UInt8) : Option (UInt8 × List UInt8) :=
  match octLoop 0 0 s with
  | (i, out, s) => if i > 0 then some (out, s) else none

def hexDigit (c : UInt8) : UInt8 :=
  c - (if ch '0' ≤ c && c ≤ ch '9' then ch '0'
    else if ch 'a' ≤ c && c ≤ ch 'f' then ch 'a' - 10 else ch 'A' - 10)

def hexLoop : Nat → UInt8 → List UInt8 → Nat × UInt8 × List UInt8
  | i, out, [] => (i, out, [])
  | i, out, b :: s =>
    if isXdigit b && i < 2 then hexLoop (i + 1) (out * 16 + hexDigit b) s else (i, out, b :: s)

/-- Modelled from the spec: `hex`, the byte of one or two hex digits (`hexLoop`, `hexDigit`), or
`none`, and nothing consumed, when no digit is next. -/
def hex (s : List UInt8) : Option (UInt8 × List UInt8) :=
  match hexLoop 0 0 s with
  | (i, out, s) => if i > 0 then some (out, s) else none

/-! ## Bytes as numbers -/

theorem uint8_toNat_add (a b : UInt8) : (a + b).toNat = (a.toNat + b.toNat) % 256 :=
  BitVec.toNat_add _ _

theorem uint8_toNat_mul (a b : UInt8) : (a * b).toNat = a.toNat * b.toNat % 256 :=
  BitVec.toNat_mul _ _

theorem uint8_le_iff {a b : UInt8} : a ≤ b ↔ a.toNat ≤ b.toNat := Iff.rfl

theorem uint8_eq_iff {a b : UInt8} : a = b ↔ a.toNat = b.toNat := ⟨fun h => h ▸ rfl, UInt8.toNat.inj⟩

@[simp] theorem chr_cons_self (c : UInt8) (s : List UInt8) : chr c (c :: s) = some s := by
  simp [chr]

theorem chr_cons_ne {b c : UInt8} (h : b ≠ c) (s : List UInt8) : chr c (b :: s) = none := by
  simp [chr, h]

theorem bufAppend_of_lt {cap : Nat} {buf : List UInt8} (h : buf.length + 1 < cap) (b : UInt8) :
    bufAppend cap buf b = some (buf ++ [b]) := by
  simp [bufAppend]; omega

end XkbCompose
