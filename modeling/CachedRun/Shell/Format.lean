import CachedRun.Decimal.Layout
import CachedRun.Decimal.Literal
import CachedRun.Shell.Tool

/-!
# Formatted printing

A part of the stand-in for the programs of a host (`CachedRun/Shell.lean`).

`printf` prints a format with its arguments and `echo` prints its arguments. Both know the escapes
that begin with a backslash; numbers are read as decimal, octal or hexadecimal, or as the code of a
character after a quote.

A format is used again as long as arguments are left, and missing arguments count as empty.
-/

set_option autoImplicit false

namespace CachedRun.Shell

/-! ## Escapes -/

/-- The characters that a letter after a backslash stands for. -/
def simpleEscape? (c : Char) : Option Char :=
  match c with
  | 'a' => some '\x07'
  | 'b' => some '\x08'
  | 'f' => some '\x0c'
  | 'n' => some '\n'
  | 'r' => some '\r'
  | 't' => some '\t'
  | 'v' => some '\x0b'
  | '\\' => some '\\'
  | _ => none

def isOctal (c : Char) : Bool := '0' ≤ c && c ≤ '7'

def isHex (c : Char) : Bool := c.isDigit || ('a' ≤ c.toLower && c.toLower ≤ 'f')

/-- The value of digits in a base. -/
def digitsValue (base : Nat) (digits : Raw) : Nat :=
  digits.foldl (fun n c =>
    n * base + (if c.isDigit then c.toNat - '0'.toNat else c.toLower.toNat - 'a'.toNat + 10)) 0

/-- The byte with a number. -/
def byteChar (n : Nat) : Char := Char.ofNat (n % 256)

/-- Reads the octal digits at the beginning, at most as many as the number says. -/
def readOctal (most : Nat) (s : Raw) : Raw × Raw :=
  let digits := (s.take most).takeWhile isOctal
  (digits, s.drop digits.length)

/-- A text with its escapes replaced, up to an escape that ends all printing. Octal numbers have up
to three digits, and with `leadingZero` only those count that begin with a zero. -/
def unescape (leadingZero : Bool) : Nat → Raw → Raw × Bool
  | 0, _ => ([], false)
  | _, [] => ([], false)
  | fuel + 1, '\\' :: c :: rest =>
    let go (front : Raw) (rest : Raw) : Raw × Bool :=
      let (text, stops) := unescape leadingZero fuel rest
      (front ++ text, stops)
    if c = 'c' then ([], true)
    else match simpleEscape? c with
      | some d => go [d] rest
      | none =>
        if isOctal c ∧ (!leadingZero ∨ c = '0') then
          let (digits, rest) := if leadingZero then readOctal 3 rest else readOctal 3 (c :: rest)
          go [byteChar (digitsValue 8 digits)] rest
        else go ['\\', c] rest
  | fuel + 1, c :: rest =>
    let (text, stops) := unescape leadingZero fuel rest
    (c :: text, stops)

/-! ## Numbers -/

/-- The value of an argument as a number; the flag says whether all of it is one. -/
def readNumeral (s : Raw) : Int × Bool :=
  let digits (base : Nat) (isDigit : Char → Bool) (s : Raw) : Int × Bool :=
    let digits := s.takeWhile isDigit
    (digitsValue base digits, digits.length = s.length && digits ≠ [])
  let natural (s : Raw) : Int × Bool :=
    match s with
    | '0' :: x :: rest =>
      if x = 'x' ∨ x = 'X' then
        digits 16 isHex rest
      else digits 8 isOctal (x :: rest)
    | s => digits 10 Char.isDigit s
  match Text.trimStart s with
  | [] => (0, true)
  | '\'' :: c :: _ | '"' :: c :: _ => (c.toNat, true)
  | '-' :: rest => ((natural rest).1 * -1, (natural rest).2)
  | '+' :: rest => natural rest
  | s => natural s

/-! ## Formats -/

/-- How one argument is printed. -/
structure Conversion where
  flags : List Char
  width : Nat
  precision : Option Nat
  letter : Char

/-- Fills a text up to a width. -/
def Conversion.pad (v : Conversion) (s : Raw) : Raw :=
  let fill := v.width - s.length
  if v.flags.contains '-' then s ++ List.replicate fill ' '
  else if v.flags.contains '0' ∧ "diouxXfF".toList.contains v.letter
      ∧ (v.precision = none ∨ v.letter.toLower = 'f') then
    let (sign, digits) := match s with
      | '-' :: rest => (['-'], rest)
      | s => ([], s)
    sign ++ List.replicate fill '0' ++ digits
  else List.replicate fill ' ' ++ s

/-- The text of a number. -/
def Conversion.number (v : Conversion) (i : Int) : Raw :=
  let magnitude : Nat := match v.letter with
    | 'd' | 'i' => i.natAbs
    | _ => (i % (Nat.pow 2 64 : Nat)).toNat
  let digits := match v.letter with
    | 'o' => Nat.toDigits 8 magnitude
    | 'x' => Nat.toDigits 16 magnitude
    | 'X' => (Nat.toDigits 16 magnitude).map Char.toUpper
    | _ => Decimal.digitsText magnitude
  let least := v.precision.getD 1
  let digits := List.replicate (least - digits.length) '0' ++ digits
  let isSigned : Bool := v.letter = 'd' || v.letter = 'i'
  let sign := if isSigned ∧ i < 0 then ['-']
    else if isSigned ∧ v.flags.contains '+' then ['+']
    else if isSigned ∧ v.flags.contains ' ' then [' ']
    else []
  sign ++ digits

/-- The text of a decimal with a fixed number of places; nothing if it is no decimal. -/
def Conversion.fixed? (v : Conversion) (s : Raw) : Option Raw :=
  match Decimal.readDouble s with
  | .ok (.finite negative mantissa exponent) =>
    let places := v.precision.getD 6
    let (numerator, denominator) := match exponent with
      | .ofNat e => (mantissa * Nat.pow 2 e, 1)
      | .negSucc e => (mantissa, Nat.pow 2 (e + 1))
    let digits := Decimal.digitsText
      (Double.roundHalfEven (numerator * Nat.pow 10 places) denominator)
    let digits := List.replicate (places + 1 - digits.length) '0' ++ digits
    let whole := digits.take (digits.length - places)
    let fraction := digits.drop whole.length
    some ((if negative then ['-'] else []) ++ whole
      ++ (if places = 0 then [] else '.' :: fraction))
  | _ => none

/-- Reads a conversion after its percent sign. -/
def readConversion (s : Raw) : Option (Conversion × Raw) :=
  let flags := s.takeWhile fun c => "-+ 0#".toList.contains c
  let s := s.drop flags.length
  let width := s.takeWhile Char.isDigit
  let s := s.drop width.length
  let (precision, s) := match s with
    | '.' :: rest =>
      let digits := rest.takeWhile Char.isDigit
      (some (digitsValue 10 digits), rest.drop digits.length)
    | s => (none, s)
  match s with
  | letter :: rest => some (⟨flags, digitsValue 10 width, precision, letter⟩, rest)
  | [] => none

/-- What printing a format has made so far. -/
structure Printing where
  text : Raw
  status : Nat
  arguments : List Raw
  hasUsed : Bool
  hasStopped : Bool
  /-- Whether the command of the shell prints, and not the program. The program knows hexadecimal
  escapes, and they complain in different words. -/
  inShell : Bool
  /-- The complaints so far, last first. -/
  complaints : List Raw

/-- Complains and goes on. -/
def Printing.complain (p : Printing) (text : String) : Printing :=
  { p with status := 1, complaints := Raw.ofText text :: p.complaints }

/-- Complains about an argument that is no number; some of it may be one. -/
def Printing.complainNumber (p : Printing) (argument : Raw) (isPartly : Bool) : Printing :=
  let shown := argument.toText
  p.complain (
    if p.inShell then
      if isPartly then s!"{shown}: not completely converted"
      else s!"{shown}: expected numeric value"
    else if isPartly then s!"'{shown}': value not completely converted"
    else s!"'{shown}': expected a numeric value")

/-- Stops at a conversion that does not exist. -/
def Printing.refuse (p : Printing) (directive : Raw) : Printing :=
  let text := if p.inShell then s!"{directive.toText}: invalid directive"
    else s!"{directive.toText}: invalid conversion specification"
  { p.complain text with hasStopped := true, status := if p.inShell then 2 else 1 }

/-- Prints one argument. -/
def Printing.convert (p : Printing) (v : Conversion) (directive : Raw) : Printing :=
  let argument := p.arguments.head?.getD []
  let p := { p with arguments := p.arguments.drop 1, hasUsed := true }
  let cut (s : Raw) : Raw := match v.precision with
    | some n => s.take n
    | none => s
  match v.letter with
  | 's' => { p with text := p.text ++ v.pad (cut argument) }
  | 'b' =>
    let (s, stops) := unescape true (argument.length + 1) argument
    { p with text := p.text ++ v.pad (cut s), hasStopped := stops }
  | 'c' => { p with text := p.text ++ v.pad (argument.take 1) }
  | 'd' | 'i' | 'o' | 'u' | 'x' | 'X' =>
    let (i, isNumber) := readNumeral argument
    let p := if isNumber then p
      else p.complainNumber argument ((Text.trimStart argument).any Char.isDigit && i ≠ 0)
    { p with text := p.text ++ v.pad (v.number i) }
  | 'f' | 'F' =>
    match v.fixed? (if argument = [] then ['0'] else argument) with
    | some s => { p with text := p.text ++ v.pad s }
    | none => { p.complainNumber argument false with text := p.text ++ v.pad ['0'] }
  | _ => p.refuse directive

/-- Goes once over a format. -/
def Printing.over (p : Printing) : Nat → Raw → Printing
  | 0, _ => p
  | _, [] => p
  | fuel + 1, c :: rest =>
    if p.hasStopped then p
    else if c = '%' then
      match rest with
      | '%' :: rest => { p with text := p.text ++ ['%'] }.over fuel rest
      | rest =>
        match readConversion rest with
        | some (v, after) =>
          (p.convert v ('%' :: rest.take (rest.length - after.length))).over fuel after
        | none =>
          if p.inShell then
            { p.complain "missing format character" with hasStopped := true, status := 2 }
          else p.refuse ('%' :: rest)
    else if c = '\\' then
      let front := match rest with
        | d :: rest' =>
          let hex := (rest'.take 2).takeWhile isHex
          if isOctal d then
            let (digits, rest) := readOctal 3 (d :: rest')
            (some (byteChar (digitsValue 8 digits)), rest)
          else if d = 'x' ∧ !p.inShell ∧ hex ≠ [] then
            (some (byteChar (digitsValue 16 hex)), rest'.drop hex.length)
          else (simpleEscape? d, rest')
        | [] => (none, [])
      match rest, front with
      | 'c' :: _, _ => { p with hasStopped := true }
      | _, (some d, rest) => { p with text := p.text ++ [d] }.over fuel rest
      | _, (none, _) => { p with text := p.text ++ ['\\'] }.over fuel rest
    else
      let plain := (c :: rest).takeWhile fun c => c ≠ '%' && c ≠ '\\'
      { p with text := p.text ++ plain }.over fuel ((c :: rest).drop plain.length)

/-- Goes over a format until all arguments are used. -/
def Printing.all (format : Raw) : Nat → Printing → Printing
  | 0, p => p
  | fuel + 1, p =>
    let p := { p with hasUsed := false }.over (format.length + 1) format
    if p.hasStopped ∨ p.arguments = [] ∨ !p.hasUsed then p else all format fuel p

/-- Prints a format with arguments. -/
def printf (inShell : Bool) (c : Call) : Result :=
  let arguments := match c.arguments with
    | ['-', '-'] :: rest => rest
    | arguments => arguments
  match arguments with
  | [] =>
    if inShell then (Result.start c).complain 2 "usage: printf format [arg ...]".toList
    else (Result.start c).misused "printf" "missing operand"
  | format :: arguments =>
    let p := Printing.all format (arguments.length + 1)
      ⟨[], 0, arguments, false, false, inShell, []⟩
    let tool := if inShell then [] else "printf: ".toList
    let r := p.complaints.reverse.foldl (fun (r : Result) text => r.complain 1 (tool ++ text))
      (Result.start c)
    let r := r.print p.text
    let r := if inShell ∨ arguments = [] ∨ p.arguments = [] ∨ p.hasStopped then r
      else r.complain 0 ("printf: warning: ignoring excess arguments, starting with '".toList
        ++ p.arguments.head?.getD [] ++ ['\''])
    r.withStatus p.status

/-- Prints arguments with blanks between them. Options are only looked for by the program, and
escapes are only replaced by the command of the shell. -/
def echo (inShell : Bool) (c : Call) : Result :=
  let isOption (a : Raw) : Bool :=
    if inShell then a = ['-', 'n']
    else match a with
      | '-' :: letters => letters ≠ [] && letters.all fun l => l = 'n' || l = 'e' || l = 'E'
      | _ => false
  let options := if inShell then (c.arguments.take 1).takeWhile isOption
    else c.arguments.takeWhile isOption
  let letters := options.flatten
  let text := Text.joinWith [' '] (c.arguments.drop options.length)
  let replaces : Bool := inShell || letters.contains 'e'
  let (text, stops) := if replaces then unescape true (text.length + 1) text else (text, false)
  (Result.start c).print (if stops || letters.contains 'n' then text else text ++ ['\n'])

end CachedRun.Shell
