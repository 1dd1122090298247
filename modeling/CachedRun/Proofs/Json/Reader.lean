import CachedRun.Json.Reader
import CachedRun.Proofs.Json.Token
import CachedRun.Proofs.Json.Tree

/-!
# Reading JSON — what is written is read back

A value is written as a text, the text is cut into tokens, and the machine builds a document of
them. Each of the two steps has an induction over the value: the tokens are those of the value
(`tokens_compactChars`), and the machine takes them to its document whatever containers are open
around it (`foldlM_tokensOf`). So the text of a value holds the document `unread` of the value
(`ofPlaces?_compact`), in which numbers that are not finite are `null`.

That a finite double is read back from its text is asked of the doubles of the value here
(`ReadsBack`, `HasText`). It is so of all doubles that there are, but that takes what is known of
their digits.
-/

set_option autoImplicit false

namespace CachedRun.Json

open Text (Place)

variable {j : Json} {s : List Place} {ts : List Token} {stack : List Frame} {stage : Stage}

/-! ## Doubles -/

/-- A double is read back from its text. -/
def ReadsBack (d : Double) : Prop := read? (String.ofList (doubleText d)) = some (.double d)

theorem readsBack_iff {d : Double} : ReadsBack d ↔
    (match read? (String.ofList (doubleText d)) with
      | some (.double found) => decide (found = d)
      | _ => false) = true := by
  unfold ReadsBack
  split
  · rename_i found heq
    rw [heq, decide_eq_true_eq, Option.some.injEq, Json.double.injEq]
  · rename_i hother
    exact ⟨fun h => absurd h (hother d), nofun⟩

instance (d : Double) : Decidable (ReadsBack d) := decidable_of_iff _ readsBack_iff.symm

example : ReadsBack (.ofDecimal false 15 (-1)) := by decide +kernel

theorem beginsNumeral_positional {digits : List Char} {point : Int} {c : Char}
    (hc : c.isDigit = true) (tail : List Char) (hdigits : digits = c :: tail) :
    BeginsNumeral ((Decimal.positional digits point).map some) := by
  unfold Decimal.positional
  split
  · exact ⟨'0', _, rfl, .inr rfl⟩
  · rename_i hpoint
    obtain ⟨n, hn⟩ : ∃ n, point.natAbs = n + 1 := ⟨point.natAbs - 1, by omega⟩
    rw [hdigits, hn, List.take_succ_cons]
    exact ⟨c, _, rfl, .inr hc⟩

theorem beginsNumeral_positive (layout : Decimal.Layout) (d : Decimal.Digits) :
    BeginsNumeral ((layout.positive d).map some) := by
  obtain ⟨c, tail, htext, hc⟩ := Decimal.exists_digitsText d.digits
  simp only [Decimal.Layout.positive, htext]
  split
  · exact beginsNumeral_positional hc tail rfl
  · unfold Decimal.Layout.scientific
    cases tail with
    | nil => exact ⟨c, _, rfl, .inr hc⟩
    | cons c' tail => exact ⟨c, _, rfl, .inr hc⟩

theorem beginsNumeral_doubleText {d : Double} (hd : d.isFinite = true) :
    BeginsNumeral ((doubleText d).map some) := by
  rw [doubleText, if_pos hd]
  cases d with
  | nan => cases hd
  | infinite negative => cases hd
  | finite negative mantissa exponent =>
    rw [Decimal.Layout.write]
    cases negative with
    | true => exact ⟨'-', _, rfl, .inl rfl⟩
    | false =>
      rw [if_neg Bool.false_ne_true, List.nil_append]
      split
      · exact ⟨'0', _, rfl, .inr rfl⟩
      · exact beginsNumeral_positive ..

/-- The numeral that a finite double is written as. -/
def Numeral.ofDouble (d : Double) : Numeral :=
  match readToken ((doubleText d).map some) with
  | some (.number n, _) => n
  | _ => default

/-- Nothing may come behind a complete document. -/
theorem foldlM_complete {document u : Unread} {s : State}
    (h : ts.foldlM State.step ⟨[], .complete document⟩ = some s) (hs : s.stage = .complete u) :
    ts = [] ∧ u = document := by
  cases ts with
  | nil =>
    cases h
    cases hs
    exact ⟨rfl, rfl⟩
  | cons token ts =>
    rw [List.foldlM_cons] at h
    cases h

/-- A document that begins as a numeral is one, and there may be spaces behind it. -/
theorem exists_numeral_of_read {text : String} {v : Json}
    (htext : BeginsNumeral (Text.placesOf text)) (h : read? text = some v) :
    ∃ n rest, readToken (Text.placesOf text) = some (.number n, rest) ∧
      rest.dropWhile isSpace = [] ∧ n.value? = some v := by
  obtain ⟨document, hdocument, hvalue⟩ := Option.bind_eq_some_iff.mp h
  obtain ⟨ts, htokens, hts⟩ := Option.bind_eq_some_iff.mp hdocument
  obtain ⟨-, hspaces⟩ | ⟨fuel, token, rest, ts, rfl, hread, hrest⟩ := tokensWithin_eq_some htokens
  · rw [htext.dropWhile_eq] at hspaces
    obtain ⟨c, tail, hs, -⟩ := htext
    cases hs.symm.trans hspaces
  rw [htext.dropWhile_eq] at hread
  obtain ⟨negative, s, hnumeral⟩ := htext.exists_read
  have hnumeral := hnumeral []
  rw [List.append_nil, hread] at hnumeral
  obtain ⟨⟨n, rest'⟩, -, heq⟩ := Option.map_eq_some_iff.mp hnumeral.symm
  cases heq
  -- The numeral completes the document, so there are no tokens behind it.
  unfold Unread.ofTokens? at hts
  split at hts
  · rename_i stack found hfold
    cases hts
    obtain ⟨rfl, rfl⟩ := foldlM_complete hfold rfl
    obtain ⟨-, hspaces⟩ | ⟨_, _, _, _, habsurd, _⟩ := tokensWithin_eq_some hrest
    · exact ⟨n, rest, hread, hspaces, hvalue⟩
    · cases habsurd
  · cases hts

/-- **A finite double that is read back is cut off as its numeral.** -/
theorem ReadsBack.numeral {d : Double} (hd : d.isFinite = true) (h : ReadsBack d) :
    (Numeral.ofDouble d).value? = some (.double d) ∧ ∃ rest, rest.dropWhile isSpace = [] ∧
      readToken ((doubleText d).map some) = some (.number (.ofDouble d), rest) := by
  have hplaces : Text.placesOf (String.ofList (doubleText d)) = (doubleText d).map some := by
    rw [Text.placesOf, String.toList_ofList]
  have hbegins := beginsNumeral_doubleText hd
  obtain ⟨n, rest, hread, hspaces, hvalue⟩ := exists_numeral_of_read (hplaces ▸ hbegins) h
  rw [hplaces] at hread
  have hn : Numeral.ofDouble d = n := by
    rw [Numeral.ofDouble, hread]
  rw [hn]
  exact ⟨hvalue, rest, hspaces, hread⟩

/-- The finite doubles inside a value are read back. -/
def HasText : Json → Prop
  | .double d => d.isFinite = true → ReadsBack d
  | _ => True

/-! ## From the text to its tokens

A token is cut off at the front, and what is left is cut further. That nothing runs on into the
next token is the condition `Stops`. -/

mutual

/-- The tokens that a value is written in. -/
def tokensOf : Json → List Token
  | .array items => .openArray :: (itemTokens items ++ [.closeArray])
  | .object fields => .openObject :: (fieldTokens fields ++ [.closeObject])
  | .null => [.null]
  | .bool b => [.bool b]
  | .integer i => [.number (.ofInt i)]
  | .double d => [if d.isFinite then .number (.ofDouble d) else .null]
  | .string s => [.string (.ofString s)]
termination_by structural j => j

def itemTokens : List Json → List Token
  | [] => []
  | [item] => tokensOf item
  | item :: rest => tokensOf item ++ .comma :: itemTokens rest
termination_by structural items => items

def fieldTokens : List (String × Json) → List Token
  | [] => []
  | [(name, value)] => .string (.ofString name) :: .colon :: tokensOf value
  | (name, value) :: rest =>
    .string (.ofString name) :: .colon :: (tokensOf value ++ .comma :: fieldTokens rest)
termination_by structural fields => fields

end

theorem Tokens.mark {place : Place} {token : Token}
    (hread : ∀ s, readToken (place :: s) = some (token, s)) (h : Tokens s ts) :
    Tokens (place :: s) (token :: ts) :=
  @Tokens.cons s [] ts token [place] (List.cons_ne_nil place []) (hread s) rfl h

theorem Tokens.quoted {name : String} (h : Tokens s ts) :
    Tokens ((quoted name).map some ++ s) (.string (.ofString name) :: ts) := by
  refine @Tokens.cons s [] ts _ _ (by simp [Json.quoted]) ?_ rfl h
  rw [Json.quoted, List.map_cons, List.cons_append, readToken, readString_quoted]
  rfl

theorem stops_comma : Stops (some ',' :: s) := by
  rintro place hplace
  cases hplace
  exact .inl rfl

theorem stops_closeArray : Stops (some ']' :: s) := by
  rintro place hplace
  cases hplace
  exact .inr (.inl rfl)

theorem stops_closeObject : Stops (some '\x7d' :: s) := by
  rintro place hplace
  cases hplace
  exact .inr (.inr rfl)

/-- What is written is cut into its tokens, whatever may follow a value behind it. -/
def Cuts (j : Json) : Prop :=
  ∀ ⦃s ts⦄, Stops s → Tokens s ts → Tokens ((compactChars j).map some ++ s) (tokensOf j ++ ts)

theorem tokens_compactItems {items : List Json} (h : ∀ j ∈ items, Cuts j) (hs : Tokens s ts) :
    Tokens ((compactItems items).map some ++ some ']' :: s)
      (itemTokens items ++ .closeArray :: ts) := by
  have hclose : Tokens (some ']' :: s) (.closeArray :: ts) := hs.mark fun _ => rfl
  induction items with
  | nil => exact hclose
  | cons item rest ih =>
    rw [List.forall_mem_cons] at h
    cases rest with
    | nil => exact h.1 stops_closeArray hclose
    | cons next rest =>
      -- The item is followed by the comma in front of the others.
      rw [compactItems, itemTokens, List.map_append, List.append_assoc, List.append_assoc]
      exact h.1 stops_comma ((ih h.2).mark fun _ => rfl)
      all_goals nofun

theorem tokens_compactFields {fields : List (String × Json)} (h : ∀ f ∈ fields, Cuts f.2)
    (hs : Tokens s ts) :
    Tokens ((compactFields fields).map some ++ some '\x7d' :: s)
      (fieldTokens fields ++ .closeObject :: ts) := by
  have hclose : Tokens (some '\x7d' :: s) (.closeObject :: ts) := hs.mark fun _ => rfl
  induction fields with
  | nil => exact hclose
  | cons f rest ih =>
    obtain ⟨name, value⟩ := f
    rw [List.forall_mem_cons] at h
    have hcontent {s : List Place} {ts : List Token} (hstops : Stops s) (hs : Tokens s ts) :
        Tokens ((Json.quoted name ++ ':' :: compactChars value).map some ++ s)
          (.string (.ofString name) :: .colon :: (tokensOf value ++ ts)) := by
      rw [List.map_append, List.append_assoc]
      exact ((h.1 hstops hs).mark fun _ => rfl).quoted
    -- The last field is followed by the brace, any other by a comma.
    cases rest with
    | nil => exact hcontent stops_closeObject hclose
    | cons next rest =>
      have htail := hcontent stops_comma ((ih h.2).mark fun _ => rfl)
      rw [compactFields, fieldTokens]
      · simpa using htail
      all_goals nofun

/-- **A value is cut into its tokens.** What follows has to stop it, as the digits of a number would
else go on. -/
theorem tokens_compactChars (hj : j.All HasText) : Cuts j := by
  induction j using induct_tree with
  | null =>
    intro s ts hstops hs
    exact @Tokens.cons s [] ts _ (['n', 'u', 'l', 'l'].map some) (by decide) rfl rfl hs
  | bool b =>
    intro s ts hstops hs
    cases b with
    | true => exact @Tokens.cons s [] ts _ (['t', 'r', 'u', 'e'].map some) (by decide) rfl rfl hs
    | false =>
      exact @Tokens.cons s [] ts _ (['f', 'a', 'l', 's', 'e'].map some) (by decide) rfl rfl hs
  | integer i =>
    intro s ts hstops hs
    have hbegins := beginsNumeral_intText i
    have hread := readToken_append hbegins hstops (readToken_intText i)
    exact Tokens.cons hbegins.ne_nil hread rfl hs
  | double d =>
    intro s ts hstops hs
    -- What is not finite is written as another token.
    rw [compactChars, scalar, tokensOf]
    split
    · rename_i hd
      have hbegins := beginsNumeral_doubleText hd
      obtain ⟨-, rest, hspaces, hread⟩ := ReadsBack.numeral hd (hj hd)
      exact Tokens.cons hbegins.ne_nil (readToken_append hbegins hstops hread) hspaces hs
    · rename_i hd
      rw [doubleText, if_neg hd]
      exact @Tokens.cons s [] ts _ (['n', 'u', 'l', 'l'].map some) (by decide) rfl rfl hs
  | string text =>
    intro s ts hstops hs
    exact hs.quoted
  | array items ih =>
    intro s ts hstops hs
    rw [all_array_iff] at hj
    have hitems := tokens_compactItems (fun j hmem => ih j hmem (hj.2 j hmem)) hs
    have hopen : Tokens (some '[' :: _) (.openArray :: _) := hitems.mark fun _ => rfl
    simpa [compactChars, tokensOf] using hopen
  | object fields ih =>
    intro s ts hstops hs
    rw [all_object_iff] at hj
    have hfields := tokens_compactFields (fun f hmem => ih f hmem (hj.2 f hmem)) hs
    have hopen : Tokens (some '\x7b' :: _) (.openObject :: _) := hfields.mark fun _ => rfl
    simpa [compactChars, tokensOf] using hopen

/-! ## From the tokens to the document

A machine with a stack of open containers reads the tokens. What is shown of a value is that its
tokens take the machine from any place where it awaits a value to behind it. -/

mutual

/-- The document that is built where a value was written. -/
def unread : Json → Unread
  | .array items => .array (unreadItems items)
  | .object fields => .object (unreadFields fields)
  | .null => .null
  | .bool b => .bool b
  | .integer i => .number (.ofInt i)
  | .double d => if d.isFinite then .number (.ofDouble d) else .null
  | .string s => .string (.ofString s)
termination_by structural j => j

def unreadItems : List Json → List Unread
  | [] => []
  | item :: rest => unread item :: unreadItems rest
termination_by structural items => items

def unreadFields : List (String × Json) → List (Letters × Unread)
  | [] => []
  | (name, value) :: rest => (.ofString name, unread value) :: unreadFields rest
termination_by structural fields => fields

end

theorem unreadItems_eq (items : List Json) : unreadItems items = items.map unread := by
  induction items with
  | nil => rfl
  | cons item rest ih => rw [unreadItems, ih, List.map_cons]

theorem unreadFields_eq (fields : List (String × Json)) :
    unreadFields fields = fields.map fun f => (.ofString f.1, f.2.unread) := by
  induction fields with
  | nil => rfl
  | cons f rest ih => rw [unreadFields, ih, List.map_cons]

/-- A stage at which a value may start. -/
def Stage.AwaitsValue (stage : Stage) : Prop := stage = .value ∨ stage = .itemOrEnd

/-- The machine takes the tokens of a value to the value. -/
def Builds (j : Json) : Prop :=
  ∀ ⦃stage⦄ stack, stage.AwaitsValue →
    (tokensOf j).foldlM State.step ⟨stack, stage⟩ = deliver j.unread stack

theorem step_start {token : Token} (hstage : stage.AwaitsValue) (htoken : token ≠ .closeArray) :
    State.step ⟨stack, stage⟩ token = startValue stack token := by
  rcases hstage with rfl | rfl
  · rfl
  · rw [State.step.eq_def]
    split <;> simp_all

theorem foldlM_start {token : Token} (hstage : stage.AwaitsValue) (htoken : token ≠ .closeArray) :
    (token :: ts).foldlM State.step ⟨stack, stage⟩ =
      (startValue stack token).bind fun s => ts.foldlM State.step s := by
  rw [List.foldlM_cons, step_start hstage htoken]
  rfl

theorem foldlM_scalar {token : Token} (hstage : stage.AwaitsValue) (htoken : token ≠ .closeArray) :
    [token].foldlM State.step ⟨stack, stage⟩ = startValue stack token :=
  (foldlM_start hstage htoken).trans (bind_pure (startValue stack token))

/-- The induction is on the items that are left; those before them are in the open array. -/
theorem foldlM_itemTokens {items : List Json} (h : ∀ j ∈ items, Builds j) {done : List Unread}
    (hstage : if items = [] then stage = .itemOrEnd else stage.AwaitsValue) :
    (itemTokens items ++ [Token.closeArray]).foldlM State.step ⟨.items done :: stack, stage⟩ =
      deliver (.array (done.reverse ++ items.map unread)) stack := by
  induction items generalizing done stage with
  | nil =>
    cases hstage
    simp [itemTokens, State.step]
  | cons item rest ih =>
    rw [List.forall_mem_cons] at h
    rw [if_neg (List.cons_ne_nil _ _)] at hstage
    cases rest with
    | nil =>
      rw [itemTokens, List.foldlM_append, h.1 _ hstage]
      simp [deliver, State.step]
    | cons next rest =>
      have hrest := @ih .value h.2 (item.unread :: done) (.inl rfl)
      rw [itemTokens, List.append_assoc, List.foldlM_append, h.1 _ hstage]
      · simpa [deliver, State.step] using hrest
      · nofun

theorem foldlM_fieldTokens {fields : List (String × Json)} (h : ∀ f ∈ fields, Builds f.2)
    {done : List (Letters × Unread)}
    (hstage : stage = .nameOrEnd ∨ fields ≠ [] ∧ stage = .name) :
    (fieldTokens fields ++ [Token.closeObject]).foldlM State.step ⟨.fields done :: stack, stage⟩ =
      deliver (.object (done.reverse ++ fields.map fun f => (.ofString f.1, f.2.unread)))
        stack := by
  induction fields generalizing done stage with
  | nil =>
    obtain rfl | ⟨hne, -⟩ := hstage
    · simp [fieldTokens, State.step]
    · exact absurd rfl hne
  | cons f rest ih =>
    obtain ⟨name, value⟩ := f
    rw [List.forall_mem_cons] at h
    have hname : ∀ ts, (.string (.ofString name) :: .colon :: ts : List Token).foldlM State.step
        ⟨.fields done :: stack, stage⟩ =
          ts.foldlM State.step ⟨.field done (.ofString name) :: stack, .value⟩ := by
      intro ts
      obtain rfl | ⟨-, rfl⟩ := hstage <;> rfl
    -- Behind the last field the object is closed; behind any other a name is awaited.
    cases rest with
    | nil =>
      rw [fieldTokens, List.cons_append, List.cons_append, hname, List.foldlM_append,
        h.1 _ (.inl rfl)]
      simp [deliver, State.step]
    | cons next rest =>
      have hrest := @ih .name h.2 ((.ofString name, value.unread) :: done) (.inr ⟨by simp, rfl⟩)
      rw [fieldTokens, List.cons_append, List.cons_append, hname, List.append_assoc,
        List.foldlM_append, h.1 _ (.inl rfl)]
      · simpa [deliver, State.step] using hrest
      · nofun

/-- **The machine builds the document of a value from its tokens.** It may be inside of other
containers, which wait on its stack, and it awaits a value there. -/
theorem foldlM_tokensOf (j : Json) : Builds j := by
  induction j using induct_tree with
  | null => exact fun stage stack hstage => foldlM_scalar hstage nofun
  | bool b => exact fun stage stack hstage => foldlM_scalar hstage nofun
  | integer i => exact fun stage stack hstage => foldlM_scalar hstage nofun
  | double d =>
    intro stage stack hstage
    rw [tokensOf, unread]
    split
    · exact foldlM_scalar hstage nofun
    · exact foldlM_scalar hstage nofun
  | string s => exact fun stage stack hstage => foldlM_scalar hstage nofun
  | array items ih =>
    intro stage stack hstage
    -- Behind the bracket an item may start, but nothing else than the end if there is none.
    have hnext : if items = [] then Stage.itemOrEnd = .itemOrEnd
        else Stage.itemOrEnd.AwaitsValue := by
      split
      · rfl
      · exact .inr rfl
    have hitems := @foldlM_itemTokens stack .itemOrEnd items ih [] hnext
    rw [unread, unreadItems_eq]
    exact Eq.trans (foldlM_start hstage nofun) hitems
  | object fields ih =>
    intro stage stack hstage
    have hfields := @foldlM_fieldTokens stack .nameOrEnd fields ih [] (.inl rfl)
    rw [unread, unreadFields_eq]
    exact Eq.trans (foldlM_start hstage nofun) hfields

/-- **The text of a value holds its document.** -/
theorem ofPlaces?_compact (hj : j.All HasText) :
    Unread.ofPlaces? (Text.placesOf j.compact) = some j.unread := by
  have hplaces : Text.placesOf j.compact = (compactChars j).map some := by
    rw [Text.placesOf, compact, String.toList_ofList]
  have hcuts := tokens_compactChars hj (s := []) (by nofun) Tokens.nil
  rw [List.append_nil, List.append_nil] at hcuts
  rw [hplaces, Unread.ofPlaces?, tokens, hcuts _ (le_refl _), Option.bind_some, Unread.ofTokens?,
    State.start, foldlM_tokensOf j [] (.inl rfl)]
  rfl

end CachedRun.Json
