/-!
# Text and its bytes

A program's streams and files are bytes; most of what is made of them is text. Text becomes bytes
by UTF-8. The other way is either *strict* (`decode`: the first place that is no character is the
answer) or *lossy* (`decodeLossy`: each such place becomes one replacement character). Who must
know which places are ill-formed takes the `places` themselves.

**What counts as one place.** Ill-formed input is cut into maximal pieces: from the point where no
character starts or continues, the longest run of bytes that some character begins with, and at
least one byte. `pieces` cuts this way once, and both readers are read off its result.
-/

set_option autoImplicit false

namespace CachedRun

/-- The content of a stream or a file. -/
abbrev Bytes := List UInt8

namespace Text

/-- The UTF-8 bytes of a text. -/
def bytes (s : String) : Bytes := s.toUTF8.data.toList

/-- The ranges that the bytes after a first byte must lie in, in order; `none` if no character
starts with the byte. Overlong forms, surrogates and numbers past the last character are kept out
by the range of the second byte. -/
def followers (first : UInt8) : Option (List (UInt8 × UInt8)) :=
  let any := (0x80, 0xBF)
  if first < 0x80 then some []
  else if first < 0xC2 then none
  else if first < 0xE0 then some [any]
  else if first = 0xE0 then some [(0xA0, 0xBF), any]
  else if first = 0xED then some [(0x80, 0x9F), any]
  else if first < 0xF0 then some [any, any]
  else if first = 0xF0 then some [(0x90, 0xBF), any, any]
  else if first < 0xF4 then some [any, any, any]
  else if first = 0xF4 then some [(0x80, 0x8F), any, any]
  else none

/-- How far the bytes of one character go. -/
inductive Extent where
  /-- All expected bytes are there. -/
  | whole
  /-- This many expected bytes are there, then another byte. -/
  | broken (taken : Nat)
  /-- This many expected bytes are there, then the input ends. -/
  | cut (taken : Nat)
  deriving Repr, DecidableEq

/-- Matches the bytes after a first byte against the ranges they must lie in. -/
def extent : List (UInt8 × UInt8) → Bytes → Extent
  | [], _ => .whole
  | _ :: _, [] => .cut 0
  | (low, high) :: ranges, b :: rest =>
    if low ≤ b && b ≤ high then
      match extent ranges rest with
      | .whole => .whole
      | .broken n => .broken (n + 1)
      | .cut n => .cut (n + 1)
    else .broken 0

/-- One piece of a byte sequence read as text. -/
inductive Piece where
  /-- A character and the number of its bytes. -/
  | char (c : Char) (width : Nat)
  /-- Bytes that start a character and are followed by something else. -/
  | broken (width : Nat)
  /-- Bytes that start a character and end the input. -/
  | cut (width : Nat)
  deriving Repr, DecidableEq

/-- The number of bytes of a piece. -/
def Piece.width : Piece → Nat
  | .char _ w => w
  | .broken w => w
  | .cut w => w

/-- The character number spelled by the first byte and its followers: the low bits of the first
byte, then six bits of each follower. -/
def codePoint (first : UInt8) (rest : Bytes) : Nat :=
  let high := match rest.length with
    | 0 => first.toNat
    | 1 => first.toNat % 32
    | 2 => first.toNat % 16
    | _ => first.toNat % 8
  rest.foldl (fun n b => n * 64 + b.toNat % 64) high

/-- The piece that starts with a given byte. -/
def pieceAt (first : UInt8) (rest : Bytes) : Piece :=
  match followers first with
  | none => .broken 1
  | some ranges =>
    match extent ranges rest with
    | .whole =>
      .char (Char.ofNat (codePoint first (rest.take ranges.length))) (ranges.length + 1)
    | .broken n => .broken (n + 1)
    | .cut n => .cut (n + 1)

/-- Cuts a byte sequence into pieces. The number says how many bytes still belong to the piece
before. -/
def piecesFrom : Nat → Bytes → List Piece
  | _, [] => []
  | skip + 1, _ :: rest => piecesFrom skip rest
  | 0, b :: rest =>
    let piece := pieceAt b rest
    piece :: piecesFrom (piece.width - 1) rest

def pieces (b : Bytes) : List Piece := piecesFrom 0 b

/-- Why a byte sequence is no text: where its first ill-formed piece starts, and how long that is,
or nothing when the input ends inside a character. -/
structure EncodingFlaw where
  index : Nat
  width : Option Nat
  deriving Repr, DecidableEq

def EncodingFlaw.message (flaw : EncodingFlaw) : String :=
  match flaw.width with
  | some w => s!"invalid utf-8 sequence of {w} bytes from index {flaw.index}"
  | none => s!"incomplete utf-8 byte sequence from index {flaw.index}"

/-- The first ill-formed piece, counted from an index. -/
def firstFlaw (index : Nat) : List Piece → EncodingFlaw
  | [] => ⟨index, none⟩
  | .char _ w :: rest => firstFlaw (index + w) rest
  | .broken w :: _ => ⟨index, some w⟩
  | .cut _ :: _ => ⟨index, none⟩

/-- Reads bytes as text. -/
def decode (b : Bytes) : Except EncodingFlaw String :=
  let raw : ByteArray := ⟨b.toArray⟩
  if h : raw.IsValidUTF8 then .ok (String.fromUTF8 raw h)
  else .error (firstFlaw 0 (pieces b))

/-- Reads bytes as text, with one replacement character for each ill-formed piece. -/
def decodeLossy (b : Bytes) : String :=
  String.ofList ((pieces b).map fun
    | .char c _ => c
    | .broken _ => '\uFFFD'
    | .cut _ => '\uFFFD')

/-- A place of a byte sequence: a character, or nothing where the bytes are ill-formed. -/
abbrev Place := Option Char

/-- The places of a text. -/
def placesOf (s : String) : List Place := s.toList.map some

/-- The places of a byte sequence, one for each of its pieces. -/
def places (b : Bytes) : List Place :=
  match decode b with
  | .ok s => placesOf s
  | .error _ => (pieces b).map fun
    | .char c _ => some c
    | .broken _ => none
    | .cut _ => none

theorem bytes_injective {s t : String} (h : bytes s = bytes t) : s = t := by
  have h' : s.toUTF8 = t.toUTF8 := ByteArray.ext (Array.toList_inj.1 h)
  exact String.toByteArray_inj.1 h'

/-- Text reads back from its bytes. -/
theorem decode_bytes (s : String) : decode (bytes s) = .ok s := by
  have valid : (ByteArray.mk s.toByteArray.data).IsValidUTF8 := s.isValidUTF8
  simp [decode, bytes, String.fromUTF8, valid]

theorem places_bytes (s : String) : places (bytes s) = placesOf s := by
  simp [places, decode_bytes]

/-- What is read as text has the bytes that were read. -/
theorem bytes_of_decode {b : Bytes} {s : String} (h : decode b = .ok s) : bytes s = b := by
  simp only [decode] at h
  split at h
  · simp only [Except.ok.injEq] at h
    subst h
    simp [bytes, String.fromUTF8]
  · simp at h

end Text

end CachedRun
