import CachedRun.Proofs.Xml.Lexing

/-!
# Locality — a document is read piece by piece

The lexer finds the end of a piece of markup without looking beyond it. So **what a reader takes off
the front of a text, it takes off whatever follows** (`Local`), and a place between two tokens stays
one when the text behind it is replaced (`Reads.replace`).

`Reads` is the way of the lexer from the beginning of a text to such a place. Every cut through a
text that can be lexed to its end is at or in a run of character data, or inside a piece of markup
(`inData_or_inMarkup`).
-/

set_option autoImplicit false

namespace CachedRun.Xml

/-! ## Readers -/

/-- What a reader takes off the front of a text does not depend on what follows. -/
def Local {α : Type} (read : List Char → Option (α × List Char)) : Prop :=
  ∀ {s after : List Char} {a : α}, read s = some (a, after) →
    ∃ taken, s = taken ++ after ∧ ∀ rest, read (taken ++ rest) = some (a, rest)

theorem Local.map {α β : Type} {read : List Char → Option (α × List Char)} (h : Local read)
    (f : α → β) : Local fun s => (read s).map fun (a, after) => (f a, after) := by
  intro s after b hread
  obtain ⟨⟨a, after'⟩, ha, heq⟩ := Option.map_eq_some_iff.mp hread
  cases heq
  obtain ⟨taken, rfl, hrest⟩ := h ha
  refine ⟨taken, rfl, fun rest => ?_⟩
  simp only [hrest, Option.map_some]

theorem local_readUntil (mark : List Char) : Local (readUntil mark) := by
  intro s after body h
  refine ⟨body ++ mark, by rw [append_of_readUntil h, List.append_assoc], fun rest => ?_⟩
  induction s generalizing body with
  | nil =>
    rw [readUntil] at h
    split at h
    · rename_i hmark
      cases h
      rw [hmark]
      cases rest <;> rfl
    · cases h
  | cons c s ih =>
    rw [readUntil] at h
    split at h
    · rename_i hdrop
      cases h
      cases mark with
      | nil => cases rest <;> rfl
      | cons d mark => rw [List.nil_append, List.cons_append, readUntil, ← List.cons_append,
          Text.dropStart?_append]
    · rename_i hdrop
      obtain ⟨⟨inside, after'⟩, hread, heq⟩ := Option.map_eq_some_iff.mp h
      cases heq
      -- The mark that is found later leaves no room for one that begins here.
      have hnone : Text.dropStart? mark (c :: (inside ++ mark ++ rest)) = none := by
        refine Text.dropStart?_eq_none fun hpre => ?_
        rw [append_of_readUntil hread] at hdrop
        have hshort : mark <+: c :: (inside ++ mark) := by
          refine List.prefix_of_prefix_length_le hpre (List.prefix_append _ rest) ?_
          simp
          omega
        obtain ⟨more, hmore⟩ := hshort
        rw [← List.append_assoc, ← List.cons_append, ← hmore, List.append_assoc,
          Text.dropStart?_append] at hdrop
        cases hdrop
      rw [List.cons_append, List.cons_append, readUntil, hnone, ih hread]
      rfl

/-- A reader that goes from character to character is local. -/
theorem local_of_step {σ : Type} (read : σ → List Char → Option (List Char × List Char))
    (ends : σ → Char → Prop) [∀ state c, Decidable (ends state c)] (next : Char → σ → σ)
    (hnil : ∀ state, read state [] = none)
    (hcons : ∀ state c s, read state (c :: s) = if ends state c then some ([], s)
      else (read (next c state) s).map fun (inside, after) => (c :: inside, after))
    (state : σ) : Local (read state) := by
  intro s after inside h
  induction s generalizing state inside with
  | nil => rw [hnil] at h; cases h
  | cons c s ih =>
    rw [hcons] at h
    split at h
    · rename_i hend
      cases h
      exact ⟨[c], rfl, fun rest => by rw [List.singleton_append, hcons, if_pos hend]⟩
    · rename_i hend
      obtain ⟨⟨inside, after'⟩, hread, heq⟩ := Option.map_eq_some_iff.mp h
      cases heq
      obtain ⟨taken, rfl, hrest⟩ := ih _ hread
      refine ⟨c :: taken, rfl, fun rest => ?_⟩
      rw [List.cons_append, hcons, if_neg hend, hrest, Option.map_some]

/-- The quote that is open behind a character. -/
def quoteBehind (c : Char) : Option Char → Option Char
  | none => if c = '"' ∨ c = '\'' then some c else none
  | some quote => if c = quote then none else some quote

theorem readTag_nil (quote : Option Char) : readTag quote [] = none := by cases quote <;> rfl

theorem readTag_cons (quote : Option Char) (c : Char) (s : List Char) : readTag quote (c :: s) =
    if quote = none ∧ c = '>' then some ([], s)
    else (readTag (quoteBehind c quote) s).map fun (inside, after) => (c :: inside, after) := by
  cases quote <;> rfl

theorem local_readTag (quote : Option Char) : Local (readTag quote) :=
  local_of_step readTag (fun quote c => quote = none ∧ c = '>') quoteBehind readTag_nil readTag_cons
    quote

/-- How many `<` are open behind a character that does not end a document type. -/
def depthBehind (c : Char) (depth : Nat) : Nat :=
  if c = '>' then depth - 1 else if c = '<' then depth + 1 else depth

theorem local_readDoctype (depth : Nat) : Local (readDoctype depth) := by
  refine local_of_step readDoctype (fun depth c => depth = 0 ∧ c = '>') depthBehind
    (by rintro (_ | _) <;> rfl) ?_ depth
  intro depth c s
  by_cases hc : c = '>'
  · cases depth <;> simp [readDoctype, depthBehind, hc]
  · simp [readDoctype, depthBehind, hc]

/-- What cannot be read off nothing takes something. -/
theorem ne_nil_of_taken {α : Type} (read : List Char → Option (α × List Char)) {taken : List Char}
    {a : α} (hnil : read [] = none) (h : ∀ rest, read (taken ++ rest) = some (a, rest)) :
    taken ≠ [] := by
  rintro rfl
  have hnone := h []
  rw [List.nil_append, hnil] at hnone
  cases hnone

theorem local_readDeclaration : Local readDeclaration := by
  intro s after token h
  unfold readDeclaration at h
  split at h
  -- A comment, a section, or a document type.
  · obtain ⟨taken, rfl, hrest⟩ :=
      Local.map (local_readUntil ['-', '-', '>']) (fun _ => Token.aside) h
    exact ⟨'-' :: '-' :: taken, rfl, hrest⟩
  · obtain ⟨body, hbody, hread⟩ := Option.bind_eq_some_iff.mp h
    obtain ⟨⟨inside, after'⟩, hread, heq⟩ := Option.bind_eq_some_iff.mp hread
    cases heq
    obtain ⟨taken, rfl, hrest⟩ := local_readUntil _ hread
    refine ⟨"[CDATA[".toList ++ taken, ?_, fun rest => ?_⟩
    · rw [Text.eq_append_of_dropStart? hbody, List.append_assoc]
    · have hdrop := Text.dropStart?_append "[CDATA[".toList (taken ++ rest)
      have hchars : "[CDATA[".toList = ['[', 'C', 'D', 'A', 'T', 'A', '['] := rfl
      rw [hchars] at hdrop ⊢
      simp only [List.cons_append, List.nil_append] at hdrop ⊢
      simp only [readDeclaration, hchars, hdrop, Option.bind_eq_bind, Option.bind_some, hrest]
      rfl
  · rename_i c tail hcomment hsection
    split at h
    case isFalse => cases h
    case isTrue hc =>
    obtain ⟨⟨inside, after'⟩, hread, hname⟩ := Option.bind_eq_some_iff.mp h
    simp only at hname
    split at hname
    case isFalse => cases hname
    case isTrue hall =>
    cases hname
    obtain ⟨taken, htaken, hrest⟩ := local_readDoctype 0 hread
    obtain ⟨d, taken, rfl⟩ := List.exists_cons_of_ne_nil (ne_nil_of_taken (readDoctype 0) rfl hrest)
    obtain ⟨rfl, rfl⟩ := List.cons.inj htaken
    refine ⟨c :: taken, rfl, fun rest => ?_⟩
    have hread := hrest rest
    rw [List.cons_append] at hread ⊢
    rw [readDeclaration, if_pos hc, hread]
    · exact if_pos hall
    · rintro _ ⟨⟩
      exact absurd hc (by decide)
    · rintro ⟨⟩
      exact absurd hc (by decide)
  · cases h

/-- The token of a closing tag. -/
def closingToken (inside : List Char) : Token :=
  .closing (if Text.dropEndWhile isSpace inside = [] then inside
    else Text.dropEndWhile isSpace inside)

theorem readMarkup_closing (s : List Char) : readMarkup ('/' :: s) =
    (readUntil ['>'] s).map fun (inside, after) => (closingToken inside, after) := rfl

/-- A character of an instruction of its own, for the first `?` does not end it. -/
theorem readMarkup_question (s : List Char) : readMarkup ('?' :: s) =
    if s.head? = some '>' then none
    else (readUntil ['?', '>'] s).map fun (_, after) => (.aside, after) := by
  split
  · rename_i hend
    cases s with
    | nil => cases hend
    | cons c rest =>
      cases hend
      rfl
  · rename_i hend
    rw [readMarkup]
    rintro rest rfl
    exact hend rfl

/-- The first character of markup says what it is. -/
theorem markup_cases (s : List Char) : (∃ rest, s = '!' :: rest) ∨ (∃ rest, s = '?' :: rest) ∨
    (∃ rest, s = '/' :: rest) ∨ ∀ c ∈ s.head?, c ≠ '!' ∧ c ≠ '?' ∧ c ≠ '/' := by
  cases s with
  | nil => exact .inr (.inr (.inr nofun))
  | cons c s =>
    by_cases hdeclaration : c = '!'
    · exact .inl ⟨s, by rw [hdeclaration]⟩
    by_cases hinstruction : c = '?'
    · exact .inr (.inl ⟨s, by rw [hinstruction]⟩)
    by_cases hclosing : c = '/'
    · exact .inr (.inr (.inl ⟨s, by rw [hclosing]⟩))
    refine .inr (.inr (.inr ?_))
    rintro _ ⟨⟩
    exact ⟨hdeclaration, hinstruction, hclosing⟩

theorem local_readMarkup : Local readMarkup := by
  intro s after token h
  rcases markup_cases s with ⟨s, rfl⟩ | ⟨s, rfl⟩ | ⟨s, rfl⟩ | hhead
  -- A declaration, an instruction, an end tag, or any other tag.
  · obtain ⟨taken, rfl, hrest⟩ := local_readDeclaration h
    exact ⟨'!' :: taken, rfl, hrest⟩
  · rw [readMarkup_question] at h
    split at h
    case isTrue => cases h
    case isFalse hend =>
    obtain ⟨taken, rfl, hrest⟩ :=
      Local.map (local_readUntil ['?', '>']) (fun _ => Token.aside) h
    obtain ⟨c, taken, rfl⟩ := List.exists_cons_of_ne_nil
      (ne_nil_of_taken (fun s => (readUntil ['?', '>'] s).map _) rfl hrest)
    refine ⟨'?' :: c :: taken, rfl, fun rest => ?_⟩
    have hsame : ¬ (c :: taken ++ rest).head? = some '>' := hend
    rw [List.cons_append, readMarkup_question, if_neg hsame]
    exact hrest rest
  · obtain ⟨taken, rfl, hrest⟩ := Local.map (local_readUntil ['>']) closingToken h
    exact ⟨'/' :: taken, rfl, hrest⟩
  · rw [readMarkup_tag hhead] at h
    obtain ⟨taken, rfl, hrest⟩ := Local.map (local_readTag none) tagToken h
    obtain ⟨c, taken, rfl⟩ := List.exists_cons_of_ne_nil
      (ne_nil_of_taken (fun s => (readTag none s).map _) rfl hrest)
    refine ⟨c :: taken, rfl, fun rest => ?_⟩
    have htag : readMarkup (c :: taken ++ rest) = _ := readMarkup_tag hhead
    rw [htag]
    exact hrest rest

/-! ## Lexing to the end -/

variable {s rest rest' : List Char} {ts us : List Token} {token : Token}

/-- Markup ends where it ends, whatever follows. -/
theorem exists_markup {after : List Char} (h : readMarkup s = some (token, after)) :
    ∃ taken, s = taken ++ after ∧ ∀ rest, readMarkup (taken ++ rest) = some (token, rest) :=
  local_readMarkup h

/-- Character data goes up to the next markup. -/
theorem exists_data (s : List Char) : ∃ raw rest, s = raw ++ rest ∧ '<' ∉ raw ∧ Opens rest := by
  obtain ⟨raw, rest, hs, hraw, hrest⟩ := Text.exists_run (fun c => decide (c ≠ '<')) s
  refine ⟨raw, rest, hs, fun hmem => ?_, fun c hc => by simpa using hrest c hc⟩
  simpa using hraw _ hmem

theorem Lexes.broken (h : readMarkup s = none) : Lexes ('<' :: s) [.broken] := by
  intro n hn
  cases n with
  | zero => cases hn
  | succ n => rw [tokensWithin, h]

/-- **Every text is read** as some tokens. -/
theorem exists_lexes (s : List Char) : ∃ ts, Lexes s ts := by
  induction hn : s.length using Nat.strongRecOn generalizing s with
  | ind n ih =>
    obtain ⟨raw, rest, rfl, hraw, hopens⟩ := exists_data s
    subst hn
    suffices h : ∃ ts, Lexes rest ts by
      obtain ⟨ts, hts⟩ := h
      exact ⟨_, hts.text hraw hopens⟩
    cases rest with
    | nil => exact ⟨[], .nil⟩
    | cons c rest =>
      cases hopens c rfl
      cases hread : readMarkup rest with
      | none => exact ⟨_, .broken hread⟩
      | some found =>
        obtain ⟨token, after⟩ := found
        obtain ⟨taken, rfl, hlocal⟩ := exists_markup hread
        obtain ⟨ts, hts⟩ := ih after.length (by simp; omega) after rfl
        exact ⟨_, hts.markup (hlocal after)⟩

/-! ## Lexing up to a place -/

/-- A text is read as tokens up to a place from which on the rest stands. -/
inductive Reads : List Char → List Token → List Char → Prop
  | here {s : List Char} : Reads s [] s
  | markup {s after rest : List Char} {token : Token} {ts : List Token}
      (hread : readMarkup s = some (token, after)) (h : Reads after ts rest) :
      Reads ('<' :: s) (token :: ts) rest
  | text {raw after rest : List Char} {ts : List Token} (hraw : '<' ∉ raw) (hopens : Opens after)
      (h : Reads after ts rest) : Reads (raw ++ after) (textTokens raw ++ ts) rest

namespace Reads

/-- **From a place on** the lexer goes on as from the beginning. -/
theorem lexes (h : Reads s ts rest) (hrest : Lexes rest us) : Lexes s (ts ++ us) := by
  induction h with
  | here => exact hrest
  | markup hread _ ih =>
    obtain ⟨taken, rfl, hlocal⟩ := exists_markup hread
    exact (ih hrest).markup (hlocal _)
  | text hraw hopens _ ih =>
    rw [List.append_assoc]
    exact (ih hrest).text hraw hopens

theorem exists_before (h : Reads s ts rest) : ∃ before, s = before ++ rest ∧
    ∀ {rest'}, (Opens rest → Opens rest') → Reads (before ++ rest') ts rest' := by
  induction h with
  | here => exact ⟨[], rfl, fun _ => .here⟩
  | @markup _ _ rest _ _ hread _ ih =>
    obtain ⟨before, rfl, hbefore⟩ := ih
    obtain ⟨taken, rfl, hlocal⟩ := exists_markup hread
    refine ⟨'<' :: (taken ++ before), by simp, fun {rest'} hopens => ?_⟩
    rw [List.cons_append, List.append_assoc]
    exact .markup (hlocal _) (hbefore hopens)
  | @text raw _ rest _ hraw hopens _ ih =>
    obtain ⟨before, rfl, hbefore⟩ := ih
    refine ⟨raw ++ before, (List.append_assoc ..).symm, fun {rest'} hrest => ?_⟩
    rw [List.append_assoc]
    refine .text hraw ?_ (hbefore hrest)
    cases before with
    | nil => exact hrest hopens
    | cons c before => exact fun d hd => hopens d hd

/-- **A place stays one** when the text behind it is replaced. -/
theorem replace {before : List Char} (h : Reads (before ++ rest) ts rest)
    (hopens : Opens rest → Opens rest') : Reads (before ++ rest') ts rest' := by
  obtain ⟨before', heq, hbefore⟩ := h.exists_before
  rw [List.append_cancel_right heq]
  exact hbefore hopens

end Reads

/-! ## Cuts -/

/-- A cut at or in a run of character data, which on both sides goes up to the next markup. -/
def InData (x y : List Char) : Prop :=
  ∃ before left right after ts, x = before ++ left ∧ y = right ++ after ∧
    Reads (x ++ y) ts (left ++ (right ++ after)) ∧ '<' ∉ left ++ right ∧ Opens after

/-- A cut inside a piece of markup. -/
def InMarkup (x y : List Char) : Prop :=
  ∃ before opened closed after ts token, x = before ++ '<' :: opened ∧ y = closed ++ after ∧
    closed ≠ [] ∧ Reads (x ++ y) ts ('<' :: (opened ++ (closed ++ after))) ∧
    readMarkup (opened ++ (closed ++ after)) = some (token, after)

theorem Lexes.unique (h : Lexes s ts) (h' : Lexes s us) : ts = us :=
  (h _ (le_refl _)).symm.trans (h' _ (le_refl _))

/-- A cut is of the kind that it is behind a piece that is taken off. -/
theorem inData_or_inMarkup_append {before x y : List Char}
    (hreads : ∀ {ts rest}, Reads (x ++ y) ts rest → ∃ us, Reads (before ++ x ++ y) us rest)
    (h : InData x y ∨ InMarkup x y) : InData (before ++ x) y ∨ InMarkup (before ++ x) y := by
  rcases h with ⟨b, left, right, after, ts, rfl, rfl, h, hdata⟩ |
    ⟨b, opened, closed, after, ts, token, rfl, rfl, hne, h, hread⟩
  · obtain ⟨us, hus⟩ := hreads h
    exact .inl ⟨before ++ b, left, right, after, us, by simp, rfl, hus, hdata⟩
  · obtain ⟨us, hus⟩ := hreads h
    exact .inr ⟨before ++ b, opened, closed, after, us, token, by simp, rfl, hne, hus, hread⟩

theorem inData_of_run {raw right rest : List Char} (hraw : '<' ∉ raw ++ right) (hopens : Opens rest) :
    InData raw (right ++ rest) :=
  ⟨[], raw, right, rest, [], rfl, rfl, .here, hraw, hopens⟩

/-- What can be lexed begins with a run of character data and, if it goes on, a piece of markup. -/
theorem exists_piece (h : Lexes s ts) (hbroken : .broken ∉ ts) : ∃ raw rest, s = raw ++ rest ∧
    '<' ∉ raw ∧ Opens rest ∧ (rest ≠ [] → ∃ inside after token us, rest = '<' :: (inside ++ after) ∧
      readMarkup (inside ++ after) = some (token, after) ∧ Lexes after us ∧
        ts = textTokens raw ++ token :: us) := by
  obtain ⟨raw, rest, rfl, hraw, hopens⟩ := exists_data s
  refine ⟨raw, rest, rfl, hraw, hopens, fun hne => ?_⟩
  obtain ⟨c, rest, rfl⟩ := List.exists_cons_of_ne_nil hne
  cases hopens c rfl
  cases hread : readMarkup rest with
  | none =>
    rw [h.unique ((Lexes.broken hread).text hraw hopens)] at hbroken
    exact absurd (List.mem_append_right _ (List.mem_singleton.mpr rfl)) hbroken
  | some found =>
    obtain ⟨token, after⟩ := found
    obtain ⟨inside, rfl, hlocal⟩ := exists_markup hread
    obtain ⟨us, hus⟩ := exists_lexes after
    exact ⟨inside, after, token, us, rfl, hread, hus,
      h.unique ((hus.markup (hlocal _)).text hraw hopens)⟩

/-- **Every cut** through what can be lexed to its end is at a run of character data or in markup. -/
theorem inData_or_inMarkup {x y : List Char} (h : Lexes (x ++ y) ts) (hbroken : .broken ∉ ts) :
    InData x y ∨ InMarkup x y := by
  induction hn : (x ++ y).length using Nat.strongRecOn generalizing x y ts with
  | ind n ih =>
    obtain ⟨raw, rest, hrun, hraw, hopens, hpiece⟩ := exists_piece h hbroken
    rcases List.append_eq_append_iff.mp hrun with ⟨right, rfl, rfl⟩ | ⟨left, rfl, hrest⟩
    · exact .inl (inData_of_run hraw hopens)
    cases left with
    | nil =>
      rw [List.append_nil, ← List.nil_append y, ← hrest]
      exact .inl (inData_of_run (by rwa [List.append_nil]) hopens)
    | cons c left =>
    obtain ⟨inside, after, token, us, rfl, hread, hus, rfl⟩ := hpiece (by rw [hrest]; nofun)
    have hmarkup : inside ++ after = left ++ y := (List.cons.inj hrest).2
    cases (List.cons.inj hrest).1
    have hreads {vs : List Token} {r : List Char} (hvs : Reads after vs r) :
        ∃ ws, Reads (raw ++ '<' :: left ++ y) ws r := by
      rw [List.append_assoc, List.cons_append, ← hmarkup]
      exact ⟨_, .text hraw hopens (.markup hread hvs)⟩
    -- Behind the piece, the cut is one through what is left.
    have hbehind (more : List Char) (hleft : left = inside ++ more) (hafter : after = more ++ y) :
        InData (raw ++ '<' :: left) y ∨ InMarkup (raw ++ '<' :: left) y := by
      subst hleft hafter
      rw [List.mem_append, List.mem_cons, not_or, not_or] at hbroken
      have hcut := ih (more ++ y).length (by rw [← hn]; simp; omega) hus hbroken.2.2 rfl
      have hwhole : raw ++ '<' :: (inside ++ more) = (raw ++ '<' :: inside) ++ more := by simp
      rw [hwhole] at hreads ⊢
      exact inData_or_inMarkup_append hreads hcut
    rcases List.append_eq_append_iff.mp hmarkup with ⟨more, hleft, hafter⟩ | ⟨closed, hclosed, hy⟩
    · exact hbehind more hleft hafter
    cases closed with
    | nil => exact hbehind [] (by simpa using hclosed.symm) hy.symm
    | cons d closed =>
      rw [hmarkup, hy] at hread
      have hhere : Reads (raw ++ '<' :: left ++ y) (textTokens raw ++ [])
          ('<' :: (left ++ (d :: closed ++ after))) := by
        rw [List.append_assoc, List.cons_append, ← hy]
        exact .text hraw .cons .here
      exact .inr ⟨raw, left, d :: closed, after, _, token, rfl, hy, nofun, hhere, hread⟩

end CachedRun.Xml
