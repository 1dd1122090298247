import CachedRun.Proofs.Json.Alike
import CachedRun.Proofs.Key.Keyable

/-!
# Allowed numbers — which numbers a list of allowed values lets through

A document lists the values that an input may have. The items are kept as texts, numbers among them
as documents spell them, and a value passes if its own text is kept. So a number that is listed lets
through **no other number, but not always itself** (`accepts_number_iff`): an integer is never the
text of a double, and a double is only if it has one text (`Double.SpelledAlike`).
-/

set_option autoImplicit false

namespace CachedRun

open Result
open Double (IsRepresentable)
open Json (IsRepresented)

/-! ## Texts of numbers -/

namespace Decimal

/-- What tells that a text is not the text of an integer. -/
def HasMark (s : List Char) : Prop := ∃ c ∈ s, c.isDigit = false ∧ c ≠ '-'

theorem HasMark.ne_intText {s : List Char} (h : HasMark s) (i : Int) : s ≠ intText i := by
  rintro rfl
  obtain ⟨c, hc, hdigit, hminus⟩ := h
  rcases isDigit_or_of_mem_intText hc with h | h
  · rw [hdigit] at h
    cases h
  · exact hminus h

/-- Every spelling has a point or an exponent. -/
theorem Spelling.hasMark (s : Spelling) : HasMark s.text := by
  cases hfraction : s.fraction with
  | some f =>
    refine ⟨'.', ?_, rfl, by decide⟩
    simp [text, hfraction]
  | none =>
    obtain ⟨i, hpower⟩ := Option.ne_none_iff_exists'.mp (s.marked hfraction)
    obtain ⟨tail, htail⟩ := exists_powerText s.plusSign i
    refine ⟨'e', ?_, rfl, by decide⟩
    simp [text, hpower, htail]

theorem hasMark_write (layout : Layout) {d : Double} (hd : d.IsRepresentable) :
    HasMark (layout.write d) := by
  cases d with
  | nan => exact ⟨'N', List.mem_cons_self .., rfl, by decide⟩
  | infinite negative => exact ⟨'i', by cases negative <;> simp [Layout.write], rfl, by decide⟩
  | finite negative mantissa exponent =>
    obtain ⟨s, htext, -⟩ := exists_write layout negative hd
    obtain ⟨c, hc, hmark⟩ := s.hasMark
    rw [htext]
    exact ⟨c, List.mem_append_right _ hc, hmark⟩

theorem hasMark_doubleText {d : Double} (hd : d.IsRepresentable) : HasMark (Json.doubleText d) := by
  unfold Json.doubleText
  split
  · exact hasMark_write .json hd
  · exact ⟨'n', by decide, rfl, by decide⟩

end Decimal

/-! ## Items of the list -/

/-- A number that there is. -/
inductive Value.IsNumber : Value → Prop
  | int (i : Int) : IsNumber (.int i)
  | double {d : Double} (hd : d.IsRepresentable) : IsNumber (.double d)

/-- An item of the list lets a value through: a text what has that text, and a number itself, but a
double only if it has one text. -/
def Json.Admits : Json → Value → Prop
  | .string s, v => v.literalText? = some s
  | .integer i, .int j => i = j
  | .double d, .double d' => d = d' ∧ d.SpelledAlike
  | _, _ => False

namespace Configuration

/-- A truth value is not the text of a number. -/
theorem compact_bool_ne {b : Bool} {v : Value} (hv : v.IsNumber) :
    v.literalText? ≠ some (Json.bool b).compact := by
  intro h
  cases hv with
  | int i =>
    have hmark : Decimal.HasMark (Json.compactChars (.bool b)) := by
      cases b
      · exact ⟨'f', List.mem_cons_self .., rfl, by decide⟩
      · exact ⟨'t', List.mem_cons_self .., rfl, by decide⟩
    exact hmark.ne_intText i (String.ofList_injective (Option.some.inj h)).symm
  | double hd =>
    have hread := Decimal.readDouble_write .literal hd
    rw [String.ofList_injective (Option.some.inj h)] at hread
    have hflaw : Decimal.readDouble (Json.compactChars (.bool b)) = .error .invalidFloat := by
      cases b <;> decide +kernel
    rw [hflaw] at hread
    cases hread

/-- **What is kept of an item is the text of a number exactly if the item lets it through.** An item
that is a number is kept as its text in a document and the value is shown as its text in a program,
so this is where the two are compared. -/
theorem literalItem_eq_ok_iff {key text : String} {item : Json} {v : Value}
    (hitem : item.All IsRepresented) (hv : v.IsNumber) (htext : v.literalText? = some text) :
    literalItem key item = .ok text ↔ item.Admits v := by
  cases item with
  | null | array items | object fields => exact ⟨nofun, by cases hv <;> exact False.elim⟩
  | string s => rw [literalItem, Json.Admits, htext, Except.ok.injEq, Option.some.injEq, eq_comm]
  | bool b =>
    refine ⟨fun h => ?_, by cases hv <;> exact False.elim⟩
    cases h
    exact absurd htext (compact_bool_ne hv)
  | integer i =>
    rw [literalItem, Except.ok.injEq, ← Option.some.injEq, ← htext]
    cases hv with
    | int j =>
      rw [Value.literalText?, Option.some.injEq, Json.compact, String.ofList_inj]
      exact Decimal.intText_injective.eq_iff
    | double hd =>
      rw [Value.literalText?, Option.some.injEq, Json.compact, Decimal.literalText,
        String.ofList_inj]
      -- The text of a double is marked as one, and that of an integer is not.
      exact iff_of_false ((Decimal.hasMark_write .literal hd).ne_intText i).symm not_false
  | double d =>
    rw [literalItem, Except.ok.injEq, ← Option.some.injEq, ← htext]
    cases hv with
    | int j =>
      rw [Value.literalText?, Option.some.injEq, Json.compact, String.ofList_inj]
      exact iff_of_false ((Decimal.hasMark_doubleText hitem).ne_intText j) not_false
    | double hd =>
      rw [Value.literalText?, Option.some.injEq, Json.compact, Decimal.literalText,
        String.ofList_inj]
      exact Decimal.doubleText_eq_write_iff hitem hd

/-! ## Inputs of a document -/

/-- The items of the list of allowed values. -/
def allowedItems (o : Object) : List Json :=
  match o.find? "allowed" with
  | some (.array items) => items
  | _ => []

/-- The fields of the input that a document lists at a place. -/
def inputFields? (document : String) (i : Nat) : Option Object :=
  match (fields? document).bind (·.find? "input") with
  | some (.array elements) =>
    match elements[i]? with
    | some (.object fields) => some fields
    | _ => none
  | _ => none

variable {registry : Registry} {document : String} {c : Configuration} {p : InputParameter}
  {i : Nat} {o : Object} {v : Value}

/-- The inputs that were read are those of the document, in its order. -/
theorem exists_inputFields (hread : read registry document = .ok c) (hp : c.inputs[i]? = some p) :
    ∃ o, inputFields? document i = some o ∧ readInput o = .ok p := by
  obtain ⟨fields, hfields, hparts⟩ := exists_fields hread
  obtain ⟨elements, helements, hinputs⟩ := bind_eq_ok_iff.mp hparts.inputs
  obtain ⟨element, helement, hinput⟩ := getElem?_of_mapM_ok hinputs hp
  have hlist : fields.find? "input" = some (.array elements) := by
    unfold listKey at helements
    split at helements
    · cases helements
      cases helement
    · rename_i hfound
      cases helements
      exact hfound
    · cases helements
  split at hinput
  · rename_i o
    refine ⟨o, ?_, hinput⟩
    rw [inputFields?, hfields, Option.bind_some, hlist]
    simp only [helement]
  · cases hinput

/-- Doubles in a document are doubles that there are. -/
theorem represented_of_fields? (h : fields? document = some o) :
    (Json.object o).All IsRepresented := by
  unfold fields? at h
  split at h
  · rename_i hcanonical
    cases h
    obtain ⟨j, hj, hcanonical⟩ := Option.map_eq_some_iff.mp hcanonical
    rw [← hcanonical]
    exact (Json.all_of_readAs? Json.aboutDoubles_isRepresented.toAboutNumbers
      Json.represented_of_value? hj).canonical (fun _ => trivial) (fun _ => trivial)
  · cases h

theorem represented_of_inputFields? (h : inputFields? document i = some o) :
    (Json.object o).All IsRepresented := by
  unfold inputFields? at h
  split at h
  · rename_i elements helements
    obtain ⟨fields, hfields, helements⟩ := Option.bind_eq_some_iff.mp helements
    have hall := (represented_of_fields? hfields).of_find? helements
    split at h
    · rename_i helement
      cases h
      exact (Json.all_array_iff.mp hall).2 _ (List.mem_of_getElem? helement)
    · cases h
  · cases h

theorem represented_of_allowedItems (h : (Json.object o).All IsRepresented) :
    ∀ item ∈ allowedItems o, item.All IsRepresented := by
  unfold allowedItems
  split
  · rename_i hitems
    exact (Json.all_array_iff.mp (h.of_find? hitems)).2
  · exact fun item hitem => absurd hitem List.not_mem_nil

theorem mapM_allowedItems {texts : List String} (h : literalsElement o "allowed" = .ok texts) :
    (allowedItems o).mapM (literalItem "allowed") = .ok texts := by
  unfold literalsElement at h
  unfold allowedItems
  split at h
  · rename_i hnone
    rw [hnone]
    exact h
  · rename_i hitems
    rw [hitems]
    exact h
  · cases h

end Configuration

/-- Without a schema the list decides, if it has items. -/
theorem InputParameter.validate_eq_ok_iff {p : InputParameter} {v : Value} {text : String}
    (hbinding : v.binding = p.binding) (hschema : p.declaredSchema = none)
    (htext : v.literalText? = some text) :
    p.validate v = .ok () ↔ p.allowed = [] ∨ text ∈ p.allowed := by
  rw [validate, if_neg (not_not.mpr hbinding), validators, hschema]
  by_cases hempty : p.allowed = []
  · simp [hempty]
  · by_cases hmem : text ∈ p.allowed
    · simp [hempty, hmem, Validator.check, htext]
    · simp [hempty, hmem, Validator.check, htext]

namespace Configuration

variable {registry : Registry} {document : String} {c : Configuration} {p : InputParameter}
  {i : Nat} {v : Value}

/-- **A number passes the checks of an input exactly if the list of the document is empty or has an
item that lets it through**: the number itself, unless it is a double with two texts, or a text that
spells it as values are spelled. -/
theorem accepts_number_iff (hread : read registry document = .ok c) (hp : c.inputs[i]? = some p)
    (hv : v.IsNumber) (hbinding : v.binding = p.binding) (hschema : p.declaredSchema = none) :
    ∃ o, inputFields? document i = some o ∧
      (p.validate v = .ok () ↔ allowedItems o = [] ∨ ∃ item ∈ allowedItems o, item.Admits v) := by
  obtain ⟨o, ho, hinput⟩ := exists_inputFields hread hp
  have hitems := mapM_allowedItems (readsFrom_of_readInput hinput).allowed
  have hrepresented := represented_of_allowedItems (represented_of_inputFields? ho)
  obtain ⟨text, htext⟩ : ∃ text, v.literalText? = some text := by
    cases hv with
    | int j => exact ⟨_, rfl⟩
    | double hd => exact ⟨_, rfl⟩
  have hempty : p.allowed = [] ↔ allowedItems o = [] := by
    rw [← List.length_eq_zero_iff, ← List.length_eq_zero_iff,
      (mapM_ok_iff.mp hitems).length_eq]
  refine ⟨o, ho, ?_⟩
  rw [InputParameter.validate_eq_ok_iff hbinding hschema htext, hempty, mem_iff_of_mapM_ok hitems]
  refine or_congr_right (exists_congr fun item => and_congr_right fun hitem => ?_)
  exact literalItem_eq_ok_iff (hrepresented item hitem) hv htext

/-! A dial may be at three gains. -/

def dialDocument : String :=
  "\x7b\"title\":\"dial\",\"imageId\":\"dial\",\"workingDirectory\":\"/\"," ++
  "\"commandToExecute\":\"dial\",\"input\":[" ++
  "\x7b\"title\":\"gain\",\"useAs\":\"commandLineArgument\",\"type\":\"double\"," ++
  "\"allowed\":[0.5,5,0.00005]\x7d]\x7d"

def gain : InputParameter :=
  ⟨"gain", none, .double, false, none, ["0.5", "5", "0.00005"], [], none, none, some (.argument none)⟩

theorem exists_dial : ∃ c, read .default dialDocument = .ok c ∧ c.inputs = [gain] :=
  map_eq_ok_iff.mp (by decide +kernel)

/-- The number that an item is. -/
def number? : Json → Option (Int ⊕ Double)
  | .integer i => some (.inl i)
  | .double d => some (.inr d)
  | _ => none

theorem exists_gains : ∃ o, inputFields? dialDocument 0 = some o ∧
    .double (.ofDecimal false 5 (-1)) ∈ allowedItems o ∧ .integer 5 ∈ allowedItems o ∧
      .double (.ofDecimal false 5 (-5)) ∈ allowedItems o := by
  have hnumbers : (inputFields? dialDocument 0).map (fun o => (allowedItems o).map number?) =
      some [some (.inr (.ofDecimal false 5 (-1))), some (.inl 5),
        some (.inr (.ofDecimal false 5 (-5)))] := by decide +kernel
  obtain ⟨o, ho, hnumbers⟩ := Option.map_eq_some_iff.mp hnumbers
  have hmem {n : Option (Int ⊕ Double)} (hn : n ∈ (allowedItems o).map number?) :
      ∃ item ∈ allowedItems o, number? item = n := List.mem_map.mp hn
  rw [hnumbers] at hmem
  have hdouble {d : Double} (hd : ∃ item ∈ allowedItems o, number? item = some (.inr d)) :
      .double d ∈ allowedItems o := by
    obtain ⟨item, hitem, hd⟩ := hd
    cases item <;> cases hd
    exact hitem
  have hinteger {j : Int} (hj : ∃ item ∈ allowedItems o, number? item = some (.inl j)) :
      .integer j ∈ allowedItems o := by
    obtain ⟨item, hitem, hj⟩ := hj
    cases item <;> cases hj
    exact hitem
  exact ⟨o, ho, hdouble (hmem (by simp)), hinteger (hmem (by simp)), hdouble (hmem (by simp))⟩

/-- One half has one text. -/
theorem accepts_half : ∃ c o, read .default dialDocument = .ok c ∧ c.inputs[0]? = some gain ∧
    (Value.double (.ofDecimal false 5 (-1))).IsNumber ∧
    (Value.double (.ofDecimal false 5 (-1))).binding = gain.binding ∧
    gain.declaredSchema = none ∧ inputFields? dialDocument 0 = some o ∧
    gain.validate (.double (.ofDecimal false 5 (-1))) = .ok () := by
  obtain ⟨c, hread, hinputs⟩ := exists_dial
  obtain ⟨o, ho, hhalf, -⟩ := exists_gains
  have hp : c.inputs[0]? = some gain := by rw [hinputs]; rfl
  have hnumber : (Value.double (.ofDecimal false 5 (-1))).IsNumber :=
    .double (Double.isRepresentable_ofDecimal ..)
  have halike : (Double.ofDecimal false 5 (-1)).SpelledAlike := by
    have hfinite : Double.ofDecimal false 5 (-1) = .finite false 4503599627370496 (-53) := by
      decide +kernel
    have hup : Decimal.shortest .up 4503599627370496 (-53) = ⟨5, -1⟩ := by decide +kernel
    have heven : Decimal.shortest .even 4503599627370496 (-53) = ⟨5, -1⟩ := by decide +kernel
    rw [hfinite, Double.SpelledAlike, hup, heven, Decimal.Digits.number]
    norm_num
  obtain ⟨o', ho', haccepts⟩ := accepts_number_iff hread hp hnumber rfl rfl
  rw [ho] at ho'
  cases ho'
  exact ⟨c, o, hread, hp, hnumber, rfl, rfl, ho, haccepts.mpr (.inr ⟨_, hhalf, rfl, halike⟩)⟩

/-- The other two gains are written in the document in another way than values are. -/
theorem listed_gains_refused : ∃ c o, read .default dialDocument = .ok c ∧
    c.inputs[0]? = some gain ∧ inputFields? dialDocument 0 = some o ∧
    (.integer 5 ∈ allowedItems o ∧ gain.validate (.double (.ofInt 5)) =
      .error (.invalidInput "gain" "Input is none of the allowed values")) ∧
    (.double (.ofDecimal false 5 (-5)) ∈ allowedItems o ∧
      gain.validate (.double (.ofDecimal false 5 (-5))) =
        .error (.invalidInput "gain" "Input is none of the allowed values")) := by
  obtain ⟨c, hread, hinputs⟩ := exists_dial
  obtain ⟨o, ho, -, hfive, hsmall⟩ := exists_gains
  have hp : c.inputs[0]? = some gain := by rw [hinputs]; rfl
  exact ⟨c, o, hread, hp, ho, ⟨hfive, by decide +kernel⟩, hsmall, by decide +kernel⟩

end Configuration

end CachedRun
