import CachedRun.Handler
import CachedRun.Proofs.Text.Blank
import CachedRun.Proofs.Text.Pieces
import CachedRun.Proofs.Text.Utf8

/-!
# Error lines — where a report begins

A run counts as failed if a line on its error stream begins with `Error`, and what is reported goes
from there to the end. The check does not look at lines for that. It looks for the mark from left to
right, passes over an occurrence that does not begin a line, and goes on behind it. **All the same it
fails exactly if there is such a line, and reports from the first one on** (`finds_error_line`).

Two things have to be seen. No occurrence reaches over the end of a line, so that one that is passed
over hides none that counts (`fromErrorLine?_inside`). And the search may be made in the bytes of the
text, with a look at the byte in front of each occurrence: `searched?` has no answer if it looks
outside the text or cuts a character in two, and it always has one (`searched?_eq`).
-/

set_option autoImplicit false

namespace CachedRun

/-! ## Line by line

The search goes through the characters and knows whether it is at the beginning of a line. Where a
line begins with the mark it stops, with all that is left. -/

section Lines

variable {line rest report : List Char} {lines : List (List Char)}

/-- An occurrence of the mark that begins in a line ends in it. -/
theorem errorMark_prefix_append_iff (hrest : ∀ c ∈ rest.head?, c = '\n') :
    errorMark <+: line ++ rest ↔ errorMark <+: line := by
  constructor
  · intro h
    rcases List.prefix_or_prefix_of_prefix h (List.prefix_append line rest) with hin | ⟨more, hmore⟩
    · exact hin
    · rw [← hmore, List.prefix_append_right_inj] at h
      cases more with
      | nil =>
        exact ⟨[], by rw [List.append_nil, ← hmore, List.append_nil]⟩
      | cons c more =>
        obtain ⟨behind, rfl⟩ := h
        have hc : c = '\n' := hrest c rfl
        have hmem : c ∈ errorMark := by
          rw [← hmore]
          simp
        rw [hc] at hmem
        exact absurd hmem (by decide)
  · intro h
    exact h.trans (List.prefix_append ..)

/-- At the end of a line the search goes on with the next one. -/
theorem fromErrorLine?_end (hrest : ∀ c ∈ rest.head?, c = '\n') (lineStart : Bool) :
    fromErrorLine? lineStart 0 rest = fromErrorLine? true 0 rest.tail := by
  cases rest with
  | nil => rfl
  | cons c rest =>
    rw [hrest c rfl]
    rfl

/-- Inside a line nothing is found. -/
theorem fromErrorLine?_inside (hline : '\n' ∉ line) (hrest : ∀ c ∈ rest.head?, c = '\n')
    {skip : Nat} (hskip : skip ≤ line.length) :
    fromErrorLine? false skip (line ++ rest) = fromErrorLine? true 0 rest.tail := by
  induction line generalizing skip with
  | nil =>
    rw [Nat.le_zero.mp hskip]
    exact fromErrorLine?_end hrest false
  | cons c line ih =>
    rw [List.mem_cons, not_or] at hline
    have hc : (c == '\n') = false := beq_false_of_ne (Ne.symm hline.1)
    rw [List.cons_append]
    cases skip with
    | succ skip =>
      rw [fromErrorLine?, hc]
      exact ih hline.2 (Nat.le_of_succ_le_succ hskip)
    | zero =>
      rw [fromErrorLine?, hc]
      split
      · -- An occurrence inside a line is passed over, and it ends before the line does.
        rename_i hmark
        rw [Text.isSome_dropStart?_iff, ← List.cons_append,
          errorMark_prefix_append_iff hrest] at hmark
        exact ih hline.2 (Nat.le_of_succ_le_succ hmark.length_le)
      · exact ih hline.2 (Nat.zero_le _)

theorem fromErrorLine?_line (hline : '\n' ∉ line) (hrest : ∀ c ∈ rest.head?, c = '\n') :
    fromErrorLine? true 0 (line ++ rest) =
      if errorMark <+: line then some (line ++ rest) else fromErrorLine? true 0 rest.tail := by
  cases line with
  | nil =>
    rw [if_neg (by decide)]
    exact fromErrorLine?_end hrest true
  | cons c line =>
    rw [List.mem_cons, not_or] at hline
    have hc : (c == '\n') = false := beq_false_of_ne (Ne.symm hline.1)
    have hfound : (Text.dropStart? errorMark (c :: (line ++ rest))).isSome = true ↔
        errorMark <+: c :: line := by
      rw [Text.isSome_dropStart?_iff, ← List.cons_append, errorMark_prefix_append_iff hrest]
    rw [List.cons_append, fromErrorLine?, hc]
    by_cases hmark : errorMark <+: c :: line
    · rw [if_pos (hfound.mpr hmark), if_pos rfl, if_pos hmark]
    · rw [if_neg (mt hfound.mp hmark), if_neg hmark]
      exact fromErrorLine?_inside hline.2 hrest (Nat.zero_le _)

/-- **The search finds the first line that begins with the mark.** By induction on the lines, since
a line that does not begin with it is passed as a whole (`fromErrorLine?_line`). -/
theorem fromErrorLine?_joinWith (hlines : ∀ line ∈ lines, '\n' ∉ line) :
    fromErrorLine? true 0 (Text.joinWith ['\n'] lines) = some report ↔
      ∃ before line after, lines = before ++ line :: after ∧
        (∀ other ∈ before, ¬ errorMark <+: other) ∧ errorMark <+: line ∧
        report = Text.joinWith ['\n'] (line :: after) := by
  induction lines with
  | nil => simp [Text.joinWith, fromErrorLine?]
  | cons first lines ih =>
    rw [List.forall_mem_cons] at hlines
    have hwhole : ∃ rest, Text.joinWith ['\n'] (first :: lines) = first ++ rest ∧
        (∀ c ∈ rest.head?, c = '\n') ∧ rest.tail = Text.joinWith ['\n'] lines := by
      cases lines with
      | nil => exact ⟨[], by simp [Text.joinWith], by simp, rfl⟩
      | cons next lines =>
        exact ⟨'\n' :: Text.joinWith ['\n'] (next :: lines), by simp [Text.joinWith], by simp, rfl⟩
    obtain ⟨rest, hjoined, hrest, htail⟩ := hwhole
    rw [hjoined, fromErrorLine?_line hlines.1 hrest, htail]
    split
    -- The first line begins with the mark, so the report is the whole text.
    · rename_i hfirst
      rw [← hjoined, Option.some.injEq]
      constructor
      · intro h
        exact ⟨[], first, lines, rfl, by simp, hfirst, h.symm⟩
      · rintro ⟨before, line, after, hcut, hbefore, -, hreport⟩
        cases before with
        | nil => rw [hreport, hcut, List.nil_append]
        | cons other before =>
          rw [List.cons_append, List.cons.injEq] at hcut
          exact absurd (hcut.1 ▸ hfirst) (hbefore other (List.mem_cons_self ..))
    -- It does not, so it is one of the lines before, and the search goes on behind it.
    · rename_i hfirst
      rw [ih hlines.2]
      constructor
      · rintro ⟨before, line, after, rfl, hbefore, hline, hreport⟩
        exact ⟨first :: before, line, after, rfl, List.forall_mem_cons.mpr ⟨hfirst, hbefore⟩,
          hline, hreport⟩
      · rintro ⟨before, line, after, hcut, hbefore, hline, hreport⟩
        cases before with
        | nil =>
          rw [List.nil_append, List.cons.injEq] at hcut
          exact absurd (hcut.1 ▸ hline) hfirst
        | cons other before =>
          rw [List.cons_append, List.cons.injEq] at hcut
          rw [List.forall_mem_cons] at hbefore
          exact ⟨before, line, after, hcut.2, hbefore.2, hline, hreport⟩

end Lines

/-! ## Byte by byte

The same search over bytes, as a search for text is done: from one occurrence of the mark to the
next, with a look at the byte before. A place between two characters is one between the bytes of
both, and the two searches are compared at such places. -/

/-- Where a mark stands in a text, by the number of bytes in front of it. Places are found from left
to right, and behind each the search goes on after the mark; `skip` says how many bytes of a mark
are still to be passed over. -/
def occurrences (mark : Bytes) (place skip : Nat) : Bytes → List Nat
  | [] => []
  | b :: rest =>
    match skip with
    | skip + 1 => occurrences mark (place + 1) skip rest
    | 0 =>
      if mark <+: b :: rest then place :: occurrences mark (place + 1) (mark.length - 1) rest
      else occurrences mark (place + 1) 0 rest

/-- Whether a line begins at a place of a text, which the byte in front of it tells. There is no
answer if that byte is outside the text. -/
def beginsLine? (text : Bytes) (place : Nat) : Option Bool :=
  if place = 0 then some true else text[place - 1]?.map (· = '\n'.toUInt8)

/-- The first of some places where a line begins, unless the search looks outside the text. -/
def firstAtLine? (text : Bytes) : List Nat → Option (Option Nat)
  | [] => some none
  | place :: places => do
    if ← beginsLine? text place then return some place
    firstAtLine? text places

/-- The text behind a place. There is none if the place is outside the text or inside a
character. -/
def textBehind? (text : Bytes) (place : Nat) : Option String :=
  if place ≤ text.length then (Text.decode (text.drop place)).toOption else none

/-- What a search by bytes says of an error stream, unless it looks or cuts where it cannot. -/
def searched? (stderr : String) : Option (Except Fault Unit) := do
  let text := Text.bytes stderr
  let mark := Text.bytes (String.ofList errorMark)
  match ← firstAtLine? text (occurrences mark 0 0 text) with
  | none => return .ok ()
  | some place => return .error (.stderrReport (← textBehind? text place))

section Bytes

variable {s : List Char} {mark rest : Bytes}

/-- The byte in front of a place is a line break exactly if the character is. -/
theorem beginsLine?_eq (pre s : List Char) :
    beginsLine? ((pre ++ s).flatMap String.utf8EncodeChar)
        (pre.flatMap String.utf8EncodeChar).length =
      some (pre.getLast?.all (· == '\n')) := by
  cases pre using List.reverseRecOn with
  | nil => simp [beginsLine?]
  | append_singleton pre c =>
    obtain ⟨front, last, hlast⟩ := (List.eq_nil_or_concat' (String.utf8EncodeChar c)).resolve_left
      String.utf8EncodeChar_ne_nil
    -- The bytes of a longer character are none of them a line break.
    have hbreak : last = '\n'.toUInt8 ↔ c = '\n' := by
      constructor
      · intro h
        apply Text.eq_of_toUInt8_mem (by decide)
        rw [hlast, h]
        exact List.mem_append_right _ (List.mem_singleton_self _)
      · intro h
        rw [h, Text.encode_of_isAscii (by decide)] at hlast
        simpa [eq_comm] using congrArg List.getLast? hlast
    have hbytes : (pre ++ [c]).flatMap String.utf8EncodeChar =
        pre.flatMap String.utf8EncodeChar ++ front ++ [last] := by
      simp [hlast]
    rw [List.flatMap_append, hbytes, beginsLine?, if_neg (by simp)]
    simp [hbreak, beq_eq_decide]

/-- Bytes that are not the first one of a mark are passed over. -/
theorem occurrences_append {b : UInt8} {tail : Bytes} (hmark : ¬ mark <+: b :: (tail ++ rest))
    (htail : ∀ x ∈ tail, ¬ [x] <+: mark) (hne : mark ≠ []) (place : Nat) :
    occurrences mark place 0 (b :: (tail ++ rest)) =
      occurrences mark (place + (b :: tail).length) 0 rest := by
  rw [occurrences, if_neg hmark, List.length_cons, Nat.add_comm tail.length, ← Nat.add_assoc]
  generalize place + 1 = place
  clear hmark
  induction tail generalizing place with
  | nil => rfl
  | cons x tail ih =>
    rw [List.forall_mem_cons] at htail
    obtain ⟨first, mark, rfl⟩ := List.exists_cons_of_ne_nil hne
    have hx : ¬ first :: mark <+: x :: (tail ++ rest) := by
      intro h
      rw [List.cons_prefix_cons] at h
      apply htail.1
      rw [h.1]
      exact List.prefix_append [x] mark
    rw [List.cons_append, occurrences, if_neg hx, ih htail.2, List.length_cons]
    congr 1
    omega

/-- A place in the bytes of a text and the characters behind it, if there are any. -/
inductive Cuts (text : List Char) : Option Nat → Option (List Char) → Prop where
  | nowhere : Cuts text none none
  | behind {before report : List Char} (h : text = before ++ report) :
    Cuts text (some (before.flatMap String.utf8EncodeChar).length) (some report)

theorem isAscii_of_mem_errorMark : ∀ c ∈ errorMark, Text.IsAscii c := by
  have hall : errorMark.all (fun c => decide (Text.IsAscii c)) = true := by decide
  intro c hc
  exact of_decide_eq_true (List.all_eq_true.mp hall c hc)

/-- No mark begins inside a character. -/
theorem not_first_of_mem_tail {c : Char} {b : UInt8} {tail : Bytes}
    (hb : String.utf8EncodeChar c = b :: tail) :
    ∀ x ∈ tail, ¬ [x] <+: errorMark.flatMap String.utf8EncodeChar := by
  intro x hx hfirst
  have hE : x = 'E'.toUInt8 := by
    obtain ⟨rest, hrest⟩ := hfirst
    exact (List.cons.inj hrest).1
  have hc : c = 'E' := by
    apply Text.eq_of_toUInt8_mem (by decide)
    rw [hb, ← hE]
    exact List.mem_cons_of_mem b hx
  rw [hc, Text.encode_of_isAscii (by decide), List.cons.injEq] at hb
  rw [← hb.2] at hx
  cases hx

/-- **The search by bytes keeps step with the search by characters.** Of the bytes that are still to
be passed over it is known that they are those of a mark. -/
theorem exists_firstAtLine? (pre s : List Char) (skip : Nat)
    (hskip : ∀ c ∈ s.take skip, c ∈ errorMark) :
    ∃ found, firstAtLine? ((pre ++ s).flatMap String.utf8EncodeChar)
        (occurrences (errorMark.flatMap String.utf8EncodeChar)
          (pre.flatMap String.utf8EncodeChar).length skip (s.flatMap String.utf8EncodeChar)) =
        some found ∧
      Cuts (pre ++ s) found (fromErrorLine? (pre.getLast?.all (· == '\n')) skip s) := by
  induction s generalizing pre skip with
  | nil => exact ⟨none, rfl, .nowhere⟩
  | cons c s ih =>
    -- The next character joins those that have been passed.
    have hnext : pre ++ c :: s = pre ++ [c] ++ s := by simp
    have hstart : (pre ++ [c]).getLast?.all (· == '\n') = (c == '\n') := by simp
    have hplace : ((pre ++ [c]).flatMap String.utf8EncodeChar).length =
        (pre.flatMap String.utf8EncodeChar).length + (String.utf8EncodeChar c).length := by
      simp
    have ihc := ih (pre ++ [c])
    rw [← hnext, hstart, hplace] at ihc
    cases skip with
    | succ skip =>
      rw [List.take_succ_cons, List.forall_mem_cons] at hskip
      have hc := Text.encode_of_isAscii (isAscii_of_mem_errorMark c hskip.1)
      have hrest := ihc skip hskip.2
      rw [hc] at hrest
      rw [List.flatMap_cons, hc]
      exact hrest
    | zero =>
      have hfound : (Text.dropStart? errorMark (c :: s)).isSome = true ↔ errorMark <+: c :: s :=
        Text.isSome_dropStart?_iff
      have hbytes := Text.encode_prefix_iff (s := c :: s) isAscii_of_mem_errorMark
      rw [List.flatMap_cons] at hbytes
      rw [List.flatMap_cons, fromErrorLine?]
      by_cases hmark : errorMark <+: c :: s
      · obtain ⟨behind, hbehind⟩ := hmark
        have hcs : c = 'E' ∧ s = errorMark.tail ++ behind := by
          rw [show errorMark = 'E' :: errorMark.tail from rfl, List.cons_append,
            List.cons.injEq] at hbehind
          exact ⟨hbehind.1.symm, hbehind.2.symm⟩
        have hc := Text.encode_of_isAscii (isAscii_of_mem_errorMark c (by rw [hcs.1]; decide))
        rw [if_pos (hfound.mpr ⟨behind, hbehind⟩)]
        rw [hc] at hbytes ihc ⊢
        rw [List.singleton_append] at hbytes ⊢
        rw [occurrences, if_pos (hbytes.mpr ⟨behind, hbehind⟩), firstAtLine?, beginsLine?_eq]
        cases pre.getLast?.all (· == '\n') with
        | true => exact ⟨_, rfl, .behind rfl⟩
        | false =>
          have hlength : (errorMark.flatMap String.utf8EncodeChar).length = errorMark.length := by
            decide
          rw [hlength]
          apply ihc
          intro d hd
          rw [hcs.2, ← List.length_tail, List.take_left' rfl] at hd
          exact List.mem_of_mem_tail hd
      · obtain ⟨b, tail, hb⟩ := List.exists_cons_of_ne_nil (String.utf8EncodeChar_ne_nil (c := c))
        have hrest := ihc 0 (by simp)
        rw [if_neg (mt hfound.mp hmark)]
        rw [hb, List.cons_append] at hbytes ⊢
        rw [occurrences_append (mt hbytes.mp hmark) (not_first_of_mem_tail hb) (by decide), ← hb]
        exact hrest

/-- A place that is found is a place between characters, and the report is what stands behind it. -/
theorem Cuts.textBehind? {text report : List Char} {place : Nat}
    (h : Cuts text (some place) (some report)) :
    textBehind? (text.flatMap String.utf8EncodeChar) place = some (String.ofList report) := by
  cases h with
  | behind h =>
    rw [h, List.flatMap_append, CachedRun.textBehind?, List.length_append,
      if_pos (Nat.le_add_right ..), List.drop_left, ← Text.bytes_ofList, Text.decode_bytes]
    rfl

/-- **The search by bytes never leaves the text**, and says what the check says: the place it stops
at lies behind whole characters, and the rest of the text begins there. -/
theorem searched?_eq (stderr : String) :
    searched? stderr = some (StderrCheck.errorLine.run stderr) := by
  obtain ⟨found, hfound, hcuts⟩ := exists_firstAtLine? [] stderr.toList 0 (by simp)
  have hbytes : stderr.toList.flatMap String.utf8EncodeChar = Text.bytes stderr := by
    rw [← Text.bytes_ofList, String.ofList_toList]
  have hstart : ([] : List Char).getLast?.all (· == '\n') = true := rfl
  rw [List.nil_append, hstart] at hcuts
  rw [List.nil_append, List.flatMap_nil, List.length_nil, hbytes, ← Text.bytes_ofList] at hfound
  unfold searched? StderrCheck.errorLine
  simp only [hfound]
  generalize fromErrorLine? true 0 stderr.toList = report? at hcuts
  -- Both searches find nothing, or the place is where the report begins.
  cases report? with
  | none =>
    cases hcuts
    rfl
  | some report =>
    cases found with
    | none => cases hcuts
    | some place =>
      have hreport := hcuts.textBehind?
      rw [hbytes] at hreport
      change (do return Except.error (Fault.stderrReport
        (← textBehind? (Text.bytes stderr) place))) = _
      rw [hreport]
      rfl

end Bytes

/-! ## The check -/

/-- What the check for error lines says of an error stream. -/
structure FindsErrorLine (stderr : String) : Prop where
  fails : (∃ fault, StderrCheck.errorLine.run stderr = .error fault) ↔
    ∃ line ∈ Text.splitAt '\n' stderr.toList, errorMark <+: line
  /-- The report is what stands behind the lines before the first such line. -/
  report : ∀ fault, StderrCheck.errorLine.run stderr = .error fault ↔
    ∃ before line after report, Text.splitAt '\n' stderr.toList = before ++ line :: after ∧
      (∀ other ∈ before, ¬ errorMark <+: other) ∧ errorMark <+: line ∧
      stderr.toList = before.flatMap (· ++ ['\n']) ++ report ∧
      fault = .stderrReport (String.ofList report)
  /-- A search by bytes finds the same, and looks and cuts only where it can. -/
  searched : searched? stderr = some (StderrCheck.errorLine.run stderr)

/-- What is found begins behind the lines before the first line that begins with the mark. -/
theorem fromErrorLine?_eq_some_iff {s report : List Char} :
    fromErrorLine? true 0 s = some report ↔
      ∃ before line after, Text.splitAt '\n' s = before ++ line :: after ∧
        (∀ other ∈ before, ¬ errorMark <+: other) ∧ errorMark <+: line ∧
        s = before.flatMap (· ++ ['\n']) ++ report := by
  have hlines : ∀ line ∈ Text.splitAt '\n' s, '\n' ∉ line := by
    intro line hline
    exact Text.not_mem_of_mem_splitAt hline
  have hfound : fromErrorLine? true 0 s = some report ↔
      ∃ before line after, Text.splitAt '\n' s = before ++ line :: after ∧
        (∀ other ∈ before, ¬ errorMark <+: other) ∧ errorMark <+: line ∧
        report = Text.joinWith ['\n'] (line :: after) := by
    rw [← fromErrorLine?_joinWith hlines, Text.joinWith_splitAt]
  rw [hfound]
  -- A text is its lines joined, so the lines in front tell the report as well as those behind.
  constructor
  · rintro ⟨before, line, after, hcut, hbefore, hline, rfl⟩
    refine ⟨before, line, after, hcut, hbefore, hline, ?_⟩
    rw [← Text.joinWith_append_cons, ← hcut, Text.joinWith_splitAt]
  · rintro ⟨before, line, after, hcut, hbefore, hline, hwhole⟩
    refine ⟨before, line, after, hcut, hbefore, hline, ?_⟩
    have hjoined := Text.joinWith_splitAt '\n' s
    rw [hcut, Text.joinWith_append_cons] at hjoined
    exact List.append_cancel_left (hwhole.symm.trans hjoined.symm)

theorem isSome_fromErrorLine?_iff {s : List Char} : (fromErrorLine? true 0 s).isSome = true ↔
    ∃ line ∈ Text.splitAt '\n' s, errorMark <+: line := by
  rw [Option.isSome_iff_exists]
  constructor
  · rintro ⟨report, hreport⟩
    obtain ⟨before, line, after, hcut, -, hline, -⟩ := fromErrorLine?_eq_some_iff.mp hreport
    refine ⟨line, ?_, hline⟩
    rw [hcut]
    simp
  · rintro ⟨line, hmem, hline⟩
    -- Of the lines that begin with the mark there is a first one.
    have hsome : ((Text.splitAt '\n' s).find? (errorMark <+: ·)).isSome = true :=
      List.find?_isSome.mpr ⟨line, hmem, decide_eq_true hline⟩
    obtain ⟨first, hfirst⟩ := Option.isSome_iff_exists.mp hsome
    obtain ⟨hmark, before, after, hcut, hbefore⟩ := List.find?_eq_some_iff_append.mp hfirst
    refine ⟨Text.joinWith ['\n'] (first :: after), fromErrorLine?_eq_some_iff.mpr
      ⟨before, first, after, hcut, ?_, of_decide_eq_true hmark, ?_⟩⟩
    · intro other hother
      simpa using hbefore other hother
    · rw [← Text.joinWith_append_cons, ← hcut, Text.joinWith_splitAt]

theorem errorLine_run_eq_error_iff {stderr : String} {fault : Fault} :
    StderrCheck.errorLine.run stderr = .error fault ↔
      ∃ report, fromErrorLine? true 0 stderr.toList = some report ∧
        fault = .stderrReport (String.ofList report) := by
  simp only [StderrCheck.errorLine, reportOf]
  cases fromErrorLine? true 0 stderr.toList with
  | none => simp
  | some report => simp [eq_comm]

/-- **The check for error lines is exact**, line by line and byte by byte. What is found is told by
the lines of the text, while the search goes from one occurrence of the mark to the next by the
places of bytes. So the last part says that no cut it makes falls inside of a character. -/
theorem finds_error_line (stderr : String) : FindsErrorLine stderr where
  fails := by
    rw [← isSome_fromErrorLine?_iff, Option.isSome_iff_exists]
    constructor
    · rintro ⟨fault, hfault⟩
      obtain ⟨report, hreport, -⟩ := errorLine_run_eq_error_iff.mp hfault
      exact ⟨report, hreport⟩
    · rintro ⟨report, hreport⟩
      exact ⟨_, errorLine_run_eq_error_iff.mpr ⟨report, hreport, rfl⟩⟩
  report := by
    intro fault
    rw [errorLine_run_eq_error_iff]
    constructor
    · rintro ⟨report, hreport, hfault⟩
      obtain ⟨before, line, after, hcut, hbefore, hline, hwhole⟩ :=
        fromErrorLine?_eq_some_iff.mp hreport
      exact ⟨before, line, after, report, hcut, hbefore, hline, hwhole, hfault⟩
    · rintro ⟨before, line, after, report, hcut, hbefore, hline, hwhole, hfault⟩
      exact ⟨report, fromErrorLine?_eq_some_iff.mpr
        ⟨before, line, after, hcut, hbefore, hline, hwhole⟩, hfault⟩
  searched := searched?_eq stderr

example : StderrCheck.errorLine.run "ErrError\né Error\nError: \nError" =
    .error (.stderrReport "Error: \nError") := by decide

end CachedRun
