import Mathlib.Tactic.Common
import Nebulea.PositionalNumerals

/-!
# `doprnt.c`: formatted output

`_doprnt` hands characters to `putc` one after the other; what it hands over
is a list of characters here.  Its arguments are 32-bit words on the stack,
taken one by one, and an argument of `%s` or `%b` is the address of a string.
-/

namespace Nebulea

/-- The code of a character constant. -/
def ascii (c : Char) : BitVec 8 :=
  BitVec.ofNat 8 c.toNat

/-- A C string, without the zero at its end. -/
abbrev Chars := List (BitVec 8)

/-- A string constant. -/
def cString (text : String) : Chars :=
  text.toList.map ascii

/-- `*p`. -/
def firstChar (p : Chars) : BitVec 8 :=
  p.headD 0

/-- The words on the stack and the strings in memory. -/
structure Arguments where
  word : Nat → BitVec 32
  string : BitVec 32 → Chars

/-- `isdigit`. -/
def isdigit (d : BitVec 8) : Bool :=
  48 ≤ d.toNat && d.toNat ≤ 57

/-- `Ctod`. -/
def ctod (c : BitVec 8) : Int :=
  c.toInt - 48

/-- `MAXBUF`. -/
def maxBuf : Nat := 32

/-- `digs[d]` and `digits[d]`. -/
def digitChar (d : Nat) : BitVec 8 :=
  (cString "0123456789abcdef").getD d 0

/-- The loop that fills `buf` from its end. -/
def digitsOf (u base : Nat) : Chars :=
  (Positional.numeral base maxBuf u []).map digitChar

/-- Ways in which `_doprnt` does not come back. -/
inductive FormatFault where
  /-- A division by a radix of zero. -/
  | divide
  /-- A string, a buffer or a table is left. -/
  | overrun
  deriving DecidableEq, Repr

/-- The characters handed to `putc`, and how it ended. -/
structure Printed where
  text : Chars
  fault : Option FormatFault
  deriving DecidableEq, Repr

/-- Characters handed to `putc` earlier. -/
def Printed.after (text : Chars) (rest : Printed) : Printed :=
  ⟨text ++ rest.text, rest.fault⟩

/-- What goes wrong when the digits of `u` are computed.  The table ends with a
zero, which stands for 16. -/
def digitFault (u base : Nat) : Option FormatFault :=
  if base = 0 then some .divide
  else if base = 1 ∧ u ≠ 0 then some .overrun
  else if (Positional.numeral base maxBuf u []).any fun d => 16 < d then
    some .overrun
  else none

/-- `printnum`. -/
def printnum (u base : Nat) : Printed :=
  match digitFault u base with
  | some fault => ⟨[], some fault⟩
  | none => ⟨digitsOf u base, none⟩

/-- The variables a conversion is described by. -/
structure Directive where
  altfmt : Bool
  ladjust : Bool
  /-- `plus_sign`, unless it is 0. -/
  plusSign : Option (BitVec 8)
  padc : BitVec 8
  length : Int
  prec : Int
  deriving DecidableEq, Repr

/-- The values at the start of a conversion. -/
def Directive.start : Directive where
  altfmt := false
  ladjust := false
  plusSign := none
  padc := ascii ' '
  length := 0
  prec := -1

/-- The loop that reads the flags. -/
def readFlags : Chars → Directive → Directive × Chars
  | [], d => (d, [])
  | c :: fmt, d =>
      if c = ascii '#' then readFlags fmt { d with altfmt := true }
      else if c = ascii '-' then readFlags fmt { d with ladjust := true }
      else if c = ascii '+' then
        readFlags fmt { d with plusSign := some (ascii '+') }
      else if c = ascii ' ' then
        readFlags fmt
          { d with plusSign := some (d.plusSign.getD (ascii ' ')) }
      else (d, c :: fmt)

/-- The loops that read a decimal number. -/
def readDecimal : Chars → Int → Int × Chars
  | [], n => (n, [])
  | c :: fmt, n =>
      if isdigit c then readDecimal fmt (10 * n + ctod c) else (n, c :: fmt)

/-- The field width: digits or `*`. -/
def readWidth (args : Arguments) (d : Directive) (fmt : Chars) (next : Nat) :
    Directive × Chars × Nat :=
  if isdigit (firstChar fmt) then
    let (length, fmt) := readDecimal fmt 0
    ({ d with length := length }, fmt, next)
  else if firstChar fmt = ascii '*' then
    let length := (args.word next).toInt
    if length < 0 then
      ({ d with ladjust := !d.ladjust, length := -length }, fmt.tail, next + 1)
    else
      ({ d with length := length }, fmt.tail, next + 1)
  else
    (d, fmt, next)

/-- The precision after a dot. -/
def readPrecision (args : Arguments) (d : Directive) (fmt : Chars)
    (next : Nat) : Directive × Chars × Nat :=
  if firstChar fmt = ascii '.' then
    let fmt := fmt.tail
    if isdigit (firstChar fmt) then
      let (prec, fmt) := readDecimal fmt 0
      ({ d with prec := prec }, fmt, next)
    else if firstChar fmt = ascii '*' then
      ({ d with prec := (args.word next).toInt }, fmt.tail, next + 1)
    else
      (d, fmt, next)
  else
    (d, fmt, next)

/-- Everything between `%` and the conversion character. -/
def readDirective (args : Arguments) (fmt : Chars) (next : Nat) :
    Directive × Chars × Nat :=
  let (d, fmt) := readFlags fmt .start
  let (d, fmt) :=
    if firstChar fmt = ascii '0' then ({ d with padc := ascii '0' }, fmt.tail)
    else (d, fmt)
  let (d, fmt, next) := readWidth args d fmt next
  let (d, fmt, next) := readPrecision args d fmt next
  let fmt := if firstChar fmt = ascii 'l' then fmt.tail else fmt
  (d, fmt, next)

/-! ## Numbers -/

/-- The characters of `while (--length >= 0) putc(c)`. -/
def padding (length : Int) (c : BitVec 8) : Chars :=
  List.replicate length.toNat c

/-- `length` after that loop. -/
def afterPadding (length : Int) : Int :=
  min length 0 - 1

/-- `prefix`. -/
def Directive.altPrefix (d : Directive) (u base : Nat) : Chars :=
  if u ≠ 0 ∧ d.altfmt then
    if base = 8 then cString "0"
    else if base = 16 then cString "0x"
    else []
  else []

/-- `prec` once the digits are known. -/
def Directive.zeros (d : Directive) (u base : Nat) : Int :=
  d.prec - (digitsOf u base).length

/-- `length` once all other characters are known. -/
def Directive.room (d : Directive) (signChar : Option (BitVec 8))
    (u base : Nat) : Int :=
  let length := d.length - (digitsOf u base).length -
    signChar.toList.length - (d.altPrefix u base).length
  if d.zeros u base > 0 then length - d.zeros u base else length

/-- `print_num`, once the digits are known. -/
def numberText (d : Directive) (signChar : Option (BitVec 8)) (u base : Nat) :
    Chars :=
  let length := d.room signChar u base
  let blanks :=
    if d.padc = ascii ' ' ∧ ¬ d.ladjust then padding length (ascii ' ') else []
  let length :=
    if d.padc = ascii ' ' ∧ ¬ d.ladjust then afterPadding length else length
  let zeros := padding (d.zeros u base) (ascii '0')
  let padZeros := if d.padc = ascii '0' then padding length (ascii '0') else []
  let length := if d.padc = ascii '0' then afterPadding length else length
  let trailing := if d.ladjust then padding length (ascii ' ') else []
  blanks ++ signChar.toList ++ d.altPrefix u base ++ zeros ++ padZeros ++
    digitsOf u base ++ trailing

/-- `print_num`. -/
def printNum (d : Directive) (signChar : Option (BitVec 8)) (u base : Nat) :
    Printed :=
  match digitFault u base with
  | some fault => ⟨[], some fault⟩
  | none => ⟨numberText d signChar u base, none⟩

/-- `print_signed`. -/
def printSigned (d : Directive) (n : BitVec 32) (base : Nat) : Printed :=
  if 0 ≤ n.toInt then printNum d d.plusSign n.toNat base
  else printNum d (some (ascii '-')) (-n).toNat base

/-- `print_unsigned`. -/
def printUnsigned (d : Directive) (u : BitVec 32) (base : Nat) : Printed :=
  printNum d none u.toNat base

/-! ## Strings and registers -/

/-- `%s`. -/
def printString (d : Directive) (p : Chars) : Chars :=
  let prec := if d.prec = -1 then 0x7fffffff else d.prec
  let shown := p.take prec.toNat
  let blanks :=
    if 0 < d.length ∧ ¬ d.ladjust then
      padding (d.length - shown.length) (ascii ' ')
    else []
  -- the counter of the loop also counts the character it stops at
  let counted : Int :=
    if max prec 0 < (p.length : Int) then max prec 0 + 1 else p.length
  let trailing :=
    if d.ladjust then padding (d.length - counted) (ascii ' ') else []
  blanks ++ shown ++ trailing

/-- `*p > 32` on a character, which is signed. -/
def isName (c : BitVec 8) : Bool :=
  32 < c.toInt

/-- The amount by which a register is shifted; only its low five bits
count. -/
def shiftAmount (count : Int) : Nat :=
  (count % 32).toNat

/-- The loop of `%b` over the names of the bits. -/
def registerNames (u : BitVec 32) (base : Nat) : Nat → Chars → Bool → Printed
  | 0, _, _ => ⟨[], none⟩
  | fuel + 1, p, any =>
      match p with
      | [] => ⟨if any then cString ">" else [], none⟩
      | i :: p =>
          let mark := cString (if any then "," else "<")
          if ¬ isName (firstChar p) then
            match p with
            | [] => ⟨mark, some .overrun⟩
            | j :: p =>
                let name := p.takeWhile isName
                let field := (u >>> shiftAmount (j.toInt - 1)) &&&
                  ((2#32 <<< shiftAmount (i.toInt - j.toInt)) - 1)
                let value := printnum field.toNat base
                .after (mark ++ name ++ value.text)
                  (registerNames u base fuel (p.dropWhile isName) true)
          else if u &&& (1#32 <<< shiftAmount (i.toInt - 1)) ≠ 0 then
            .after (mark ++ p.takeWhile isName)
              (registerNames u base fuel (p.dropWhile isName) true)
          else
            registerNames u base fuel (p.dropWhile isName) any

/-- `%b`. -/
def printRegister (u : BitVec 32) (p : Chars) : Printed :=
  let base := ((firstChar p).signExtend 32).toNat
  let value := printnum u.toNat base
  if value.fault ≠ none ∨ u = 0 then value
  else .after value.text (registerNames u base p.tail.length p.tail false)

/-! ## The format -/

/-- The cases of the `switch`: what is printed, and the next argument. -/
def convert (args : Arguments) (radix : Nat) (d : Directive) (c : BitVec 8)
    (next : Nat) : Printed × Nat :=
  let word := args.word next
  if c = ascii 'b' ∨ c = ascii 'B' then
    (printRegister word (args.string (args.word (next + 1))), next + 2)
  else if c = ascii 'c' then
    (⟨[word.setWidth 8], none⟩, next + 1)
  else if c = ascii 's' then
    let p := if word = 0 then [] else args.string word
    (⟨printString d p, none⟩, next + 1)
  else if c = ascii 'o' ∨ c = ascii 'O' then
    (printUnsigned d word 8, next + 1)
  else if c = ascii 'd' ∨ c = ascii 'i' ∨ c = ascii 'D' then
    (printSigned d word 10, next + 1)
  else if c = ascii 'u' ∨ c = ascii 'U' then
    (printUnsigned d word 10, next + 1)
  else if c = ascii 'p' then
    (.after (cString "0x")
      (printUnsigned { d with padc := ascii '0', length := 8 } word 16),
      next + 1)
  else if c = ascii 'x' ∨ c = ascii 'X' then
    (printUnsigned d word 16, next + 1)
  else if c = ascii 'z' ∨ c = ascii 'Z' then
    (printSigned d word 16, next + 1)
  else if c = ascii 'r' ∨ c = ascii 'R' then
    (printSigned d word radix, next + 1)
  else if c = ascii 'n' ∨ c = ascii 'N' then
    (printUnsigned d word radix, next + 1)
  else
    (⟨[c], none⟩, next)

/-- The loop of `_doprnt`, for at most `fuel` turns. -/
def doprntLoop (args : Arguments) (radix : Nat) :
    Nat → Chars → Nat → Printed
  | 0, _, _ => ⟨[], none⟩
  | fuel + 1, fmt, next =>
      match fmt with
      | [] => ⟨[], none⟩
      | c :: fmt =>
          if c ≠ ascii '%' then
            .after [c] (doprntLoop args radix fuel fmt next)
          else
            match readDirective args fmt next with
            | (_, [], _) => ⟨[], none⟩
            | (d, c :: fmt, next) =>
                let (printed, next) := convert args radix d c next
                if printed.fault ≠ none then printed
                else .after printed.text (doprntLoop args radix fuel fmt next)

/-- `_doprnt`. -/
def doprnt (fmt : Chars) (args : Arguments) (radix : Nat) : Printed :=
  doprntLoop args radix fmt.length fmt 0

end Nebulea
