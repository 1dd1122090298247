import CachedRun.Shell.Format
import CachedRun.Total

/-!
# Filters

A part of the stand-in for the programs of a host (`CachedRun/Shell.lean`).

Tools that read a stream and print a part of it, another form of it, or its measures: `head`, `tr`
and `wc`.
-/

set_option autoImplicit false

namespace CachedRun.Shell

/-! ## Beginnings -/

/-- A number of lines or bytes; a negative one is counted from the end. -/
structure Amount where
  isBytes : Bool
  isNegative : Bool
  count : Nat

/-- Reads an amount with an optional suffix for its unit. -/
def readAmount? (isBytes : Bool) (s : Raw) : Option Amount :=
  let (isNegative, s) := match s with
    | '-' :: rest => (true, rest)
    | s => (false, s)
  let digits := s.takeWhile Char.isDigit
  let unit? : Option Nat := match String.ofList (s.drop digits.length) with
    | "" => some 1
    | "b" => some 512
    | "k" | "K" | "KiB" => some 1024
    | "kB" | "KB" => some 1000
    | "m" | "M" | "MiB" => some (1024 * 1024)
    | "MB" => some (1000 * 1000)
    | _ => none
  if digits = [] then none
  else unit?.map fun unit => ⟨isBytes, isNegative, digitsValue 10 digits * unit⟩

/-- The beginning of a text. -/
def Amount.of (a : Amount) (s : Raw) : Raw :=
  if a.isBytes then s.take (if a.isNegative then s.length - a.count else a.count)
  else
    let ls := linesOf s
    (ls.take (if a.isNegative then ls.length - a.count else a.count)).flatten

/-- Whether a beginning can be known before the stream has ended. -/
def Amount.isKnownIn (a : Amount) (s : Raw) : Bool :=
  !a.isNegative && a.count ≤ (if a.isBytes then s.length else s.count '\n')

/-- What has been read of a call of `head`: the amount, whether names are to be shown, the files. -/
structure HeadCall where
  amount : Amount
  shows : Option Bool
  names : List Raw

/-- Reads the arguments of `head`. -/
def readHead (h : HeadCall) : List Raw → Option HeadCall
  | [] => some { h with names := h.names.reverse }
  | a :: rest =>
    let long? (name : String) : Option Raw := Text.dropStart? name.toList a
    match long? "--lines=", long? "--bytes=" with
    | some s, _ => do readHead { h with amount := ← readAmount? false s } rest
    | _, some s => do readHead { h with amount := ← readAmount? true s } rest
    | none, none =>
      match a, rest with
      | ['-', 'n'], s :: rest => do readHead { h with amount := ← readAmount? false s } rest
      | ['-', 'c'], s :: rest => do readHead { h with amount := ← readAmount? true s } rest
      | ['-', 'q'], rest => readHead { h with shows := some false } rest
      | ['-', 'v'], rest => readHead { h with shows := some true } rest
      | '-' :: 'n' :: s, rest => do readHead { h with amount := ← readAmount? false s } rest
      | '-' :: 'c' :: s, rest => do readHead { h with amount := ← readAmount? true s } rest
      | '-' :: c :: s, rest =>
        if c.isDigit then do readHead { h with amount := ← readAmount? false (c :: s) } rest
        else none
      | a, rest => readHead { h with names := a :: h.names } rest

/-- The bytes that a stream is read by. -/
def bufferSize : Nat := 8192

/-- What `head` leaves of a stream: whole buffers are gone. -/
def afterHead (taken : Nat) (s : Supply) : Supply :=
  s.drop ((taken + bufferSize - 1) / bufferSize * bufferSize)

/-- Prints the beginnings of files. -/
def head (c : Call) : Result :=
  match readHead ⟨⟨false, false, 10⟩, none, []⟩ c.arguments with
  | none => (Result.start c).complain 1 "head: invalid option".toList
  | some h =>
    let names := if h.names = [] then [['-']] else h.names
    let shows := h.shows.getD (names.length > 1)
    let print (r : Result) (isFirst : Bool) (name text : Raw) : Result :=
      let shown := if name = ['-'] then "standard input" else name.toText
      let title := if shows then
          (if isFirst then [] else ['\n']) ++ Raw.ofText s!"==> {shown} <==\n"
        else []
      r.print (title ++ text)
    names.foldl (fun (r : Result) name =>
      let isFirst := r.printed = []
      let least := if h.amount.isBytes then h.amount.count else 0
      match c.source r.stdin name least with
      | .ok s =>
        if s.isEndless ∧ !h.amount.isKnownIn s.text then { r with isEndless := true }
        else
          let text := h.amount.of s.text
          let r := print r isFirst name text
          if isStdin name then { r with stdin := afterHead text.length r.stdin } else r
      | .error flaw => r.complain 1 (Raw.ofText
          s!"head: cannot open '{name.toText}' for reading: {flaw.text}")) (.start c)

/-! ## Other characters -/

/-- The characters with numbers from one to another. -/
def charsBetween (first last : Nat) : Raw :=
  (List.range (last + 1 - first)).map fun n => Char.ofNat (first + n)

/-- The characters of a class. -/
def classOf? (name : String) : Option Raw :=
  let those (p : Char → Bool) : Option Raw := some ((charsBetween 0 127).filter p)
  match name with
  | "lower" => those Char.isLower
  | "upper" => those Char.isUpper
  | "alpha" => those Char.isAlpha
  | "digit" => those Char.isDigit
  | "alnum" => those Char.isAlphanum
  | "space" => those fun c => c = ' ' || ('\t' ≤ c && c ≤ '\r')
  | "blank" => those fun c => c = ' ' || c = '\t'
  | "cntrl" => those fun c => c < ' ' || c = '\x7f'
  | "print" => those fun c => ' ' ≤ c && c < '\x7f'
  | "punct" => those fun c => '!' ≤ c && c < '\x7f' && !c.isAlphanum
  | "xdigit" => those isHex
  | _ => none

/-- Replaces the escapes of a set of characters. -/
def readSetChars : Nat → Raw → Raw
  | 0, _ => []
  | _, [] => []
  | fuel + 1, '\\' :: c :: rest =>
    if isOctal c then
      let (digits, rest) := readOctal 3 (c :: rest)
      byteChar (digitsValue 8 digits) :: readSetChars fuel rest
    else (simpleEscape? c).getD c :: readSetChars fuel rest
  | fuel + 1, c :: rest => c :: readSetChars fuel rest

/-- The characters of a set with its classes and ranges. -/
def expandSet : Nat → Raw → Raw
  | 0, _ => []
  | _, [] => []
  | fuel + 1, '[' :: ':' :: rest =>
    let name := rest.takeWhile (· ≠ ':')
    match classOf? (String.ofList name), rest.drop name.length with
    | some chars, ':' :: ']' :: rest => chars ++ expandSet fuel rest
    | _, _ => '[' :: expandSet fuel (':' :: rest)
  | fuel + 1, a :: '-' :: b :: rest => charsBetween a.toNat b.toNat ++ expandSet fuel rest
  | fuel + 1, c :: rest => c :: expandSet fuel rest

def setOf (s : Raw) : Raw :=
  let chars := readSetChars (s.length + 1) s
  expandSet (chars.length + 1) chars

/-- The character that stands in one set where another stands in the other; the last one stands for
all that follow. -/
def exchange (source target : Raw) (c : Char) : Char :=
  match source.idxOf? c with
  | some n => (target[n]? <|> target.getLast?).getD c
  | none => c

/-- Keeps one of several equal characters of a set that follow each other. -/
def squeeze (set s : Raw) : Raw :=
  s.foldr (fun c more => if set.contains c ∧ more.head? = some c then more else c :: more) []

/-- Replaces, deletes or squeezes characters. -/
def tr (c : Call) : Result :=
  let (letters, sets) := splitOptions c.arguments
  let r := { Result.start c with stdin := .nothing, isEndless := c.stdin.isEndless }
  let first := setOf (sets.head?.getD [])
  let first := if letters.any fun l => l = 'c' || l = 'C' then
      (charsBetween 0 255).filter fun c => !first.contains c
    else first
  let second := setOf ((sets.drop 1).head?.getD [])
  let deletes := letters.contains 'd'
  let squeezes := letters.contains 's'
  if sets = [] then (Result.start c).misused "tr" "missing operand"
  else if sets.length = 1 ∧ !deletes ∧ !squeezes then
    (Result.start c).misused "tr" (s!"missing operand after '{(sets.head?.getD []).toText}'\n"
      ++ "Two strings must be given when translating.")
  else
    let s := if deletes then c.stdin.text.filter fun c => !first.contains c
      else if second = [] then c.stdin.text
      else c.stdin.text.map (exchange first second)
    r.print (if squeezes then squeeze (if second = [] then first else second) s else s)

/-! ## Measures -/

/-- The numbers of lines, words and bytes of a text. -/
def measures (s : Raw) : List Nat :=
  let isSpace (c : Char) : Bool := c = ' ' || ('\t' ≤ c && c ≤ '\r')
  [s.count '\n', (Text.splitRuns isSpace [] s).length, s.length]

/-- Writes a number at the end of a column. -/
def column (width n : Nat) : Raw :=
  let digits := Decimal.digitsText n
  List.replicate (width - digits.length) ' ' ++ digits

/-- Counts the lines, words and bytes of files. -/
def wc (c : Call) : Result :=
  let (letters, names) := splitOptions c.arguments
  let letters := letters.map fun l => if l = 'm' then 'c' else l
  let selected := (if letters = [] then "lwc".toList else "lwc".toList.filter letters.contains)
  let sources := if names = [] then [['-']] else names
  let columns (numbers : List Nat) : List Nat :=
    (("lwc".toList.zip numbers).filter fun (l, _) => selected.contains l).map Prod.snd
  let counted := sources.map fun name => (name, c.source c.stdin name 0)
  let sizes := counted.map fun (name, source) =>
    match source with
    | .ok s => if isStdin name then none else some s.text.length
    | .error _ => some 0
  let width := if names.length ≤ 1 ∧ selected.length = 1 then 1
    else match sizes.mapM id with
      | some sizes => (Decimal.digitsText (total sizes)).length
      | none => 7
  let line (numbers : List Nat) (name : Raw) : Raw :=
    Text.joinWith [' '] (numbers.map (column width)) ++ name ++ ['\n']
  let (r, total) := counted.foldl (fun (r, total) (name, source) =>
    match source with
    | .ok s =>
      if s.isEndless then ({ r with isEndless := true }, total)
      else
        let shown := if names = [] then [] else ' ' :: name
        (r.print (line (columns (measures s.text)) shown),
          List.zipWith (· + ·) total (measures s.text))
    | .error flaw => (r.complain 1 (Raw.ofText s!"wc: {shownName name}: {flaw.text}"), total))
    ({ Result.start c with stdin := if sources.any isStdin then .nothing else c.stdin }, [0, 0, 0])
  if names.length > 1 then r.print (line (columns total) " total".toList) else r

end CachedRun.Shell
