import CachedRun.Proofs.Json.Reader
import Mathlib.Algebra.Group.Int.Defs

/-!
# JSON values in documents — what is left of a value

Two things are lost when a value is written. A number that is not finite is written as `null`
(`asWritten`), and if containers lie deeper in each other than a reader goes, nothing is read at
all. Everything else comes back (`valueWithin?_unread`), if integers are in the range that is kept.

What was read from a document once is of this kind: its numbers are in range and finite
(`kept_of_readBytes?`), and nothing of it is lost but by its depth.
-/

set_option autoImplicit false

namespace CachedRun.Json

variable {j : Json} {n : Nat}

/-! ## Numbers -/

/-- An integer is in the range that is kept as such. -/
def InRange : Json → Prop
  | .integer i => -(2 ^ 63 : Int) ≤ i ∧ i < (2 ^ 64 : Int)
  | _ => True

/-- A number is one that documents hold. -/
def IsKept : Json → Prop
  | .double d => d.isFinite = true
  | j => j.InRange

theorem aboutNumbers_isKept : AboutNumbers IsKept :=
  ⟨trivial, fun _ => trivial, fun _ => trivial, fun _ => trivial, fun _ => trivial⟩

theorem IsKept.inRange (h : j.IsKept) : j.InRange := by
  cases j with
  | double d => trivial
  | null | bool b | integer i | string s | array items | object fields => exact h

theorem value?_ofInt {i : Int} (h : InRange (.integer i)) :
    (Numeral.ofInt i).value? = some (.integer i) := by
  obtain ⟨hleast, hgreatest⟩ := h
  have hvalue (n : Nat) : digitsValue (Decimal.digitsText n) = n := Decimal.value_digitsText
  cases i with
  | ofNat n =>
    have hn : n < Nat.pow 2 64 := by
      change n < 2 ^ 64
      rw [Int.ofNat_eq_natCast] at hgreatest
      omega
    simp only [Numeral.ofInt, Numeral.value?, hvalue, if_pos hn, Bool.false_eq_true, if_false]
    rfl
  | negSucc n =>
    have hn : 0 < n + 1 ∧ n + 1 ≤ Nat.pow 2 63 := by
      change 0 < n + 1 ∧ n + 1 ≤ 2 ^ 63
      rw [Int.negSucc_eq] at hleast
      omega
    simp only [Numeral.ofInt, Numeral.value?, hvalue, if_pos hn, if_true]
    rfl

/-- The value of a numeral: an integer in range, or the double of a decimal. -/
theorem value?_cases {numeral : Numeral} (h : numeral.value? = some j) :
    (∃ i, j = .integer i ∧ InRange (.integer i)) ∨
      ∃ digits exponent, j = .double (.ofDecimal numeral.negative digits exponent) ∧
        (Double.ofDecimal numeral.negative digits exponent).isFinite = true := by
  have hdouble {d : Double} (h : finite? d = some j) : j = .double d ∧ d.isFinite = true := by
    obtain ⟨hd, h⟩ := Option.ite_none_right_eq_some.mp h
    exact ⟨(Option.some.inj h).symm, hd⟩
  -- An integer that is out of range is read as a double, as is any number with a mark.
  unfold Numeral.value? at h
  split at h
  · simp only at h
    split at h
    · rename_i hnegative
      split at h
      · rename_i hsize
        cases h
        have hle : digitsValue numeral.whole ≤ 2 ^ 63 := hsize.2
        refine .inl ⟨_, rfl, ?_⟩
        show -(2 ^ 63 : Int) ≤ _ ∧ _ < (2 ^ 64 : Int)
        omega
      · rw [hnegative]
        exact .inr ⟨_, _, hdouble h⟩
    · rename_i hnegative
      split at h
      · rename_i hsize
        cases h
        have hlt : digitsValue numeral.whole < 2 ^ 64 := hsize
        refine .inl ⟨_, rfl, ?_⟩
        show -(2 ^ 63 : Int) ≤ _ ∧ _ < (2 ^ 64 : Int)
        omega
      · rw [Bool.eq_false_of_not_eq_true hnegative]
        exact .inr ⟨_, _, hdouble h⟩
  · exact .inr ⟨_, _, hdouble h⟩

theorem kept_of_value? {numeral : Numeral} (h : numeral.value? = some j) : j.All IsKept := by
  obtain ⟨i, rfl, hi⟩ | ⟨digits, exponent, rfl, hd⟩ := value?_cases h
  · exact hi
  · exact hd

theorem depth_of_value? {numeral : Numeral} (h : numeral.value? = some j) : j.depth = 0 := by
  obtain ⟨i, rfl, -⟩ | ⟨digits, exponent, rfl, -⟩ := value?_cases h
  · rfl
  · rfl

/-! ## What is read -/

theorem exists_of_itemsWithin? {documents : List Unread} {items : List Json}
    (h : Unread.itemsWithin? n documents = some items) (hj : j ∈ items) :
    ∃ document : Unread, document.valueWithin? n = some j := by
  induction documents generalizing items with
  | nil =>
    cases h
    cases hj
  | cons document rest ih =>
    obtain ⟨item, hitem, h⟩ := Option.bind_eq_some_iff.mp h
    obtain ⟨items, hitems, h⟩ := Option.bind_eq_some_iff.mp h
    cases h
    rcases List.mem_cons.mp hj with rfl | hj
    · exact ⟨document, hitem⟩
    · exact ih hitems hj

theorem exists_of_fieldsWithin? {documents : List (Letters × Unread)}
    {fields : List (String × Json)} {f : String × Json}
    (h : Unread.fieldsWithin? n documents = some fields) (hf : f ∈ fields) :
    ∃ document : Unread, document.valueWithin? n = some f.2 := by
  induction documents generalizing fields with
  | nil =>
    cases h
    cases hf
  | cons document rest ih =>
    obtain ⟨name, -, h⟩ := Option.bind_eq_some_iff.mp h
    obtain ⟨content, hcontent, h⟩ := Option.bind_eq_some_iff.mp h
    obtain ⟨fields, hfields, h⟩ := Option.bind_eq_some_iff.mp h
    cases h
    rcases List.mem_cons.mp hf with rfl | hf
    · exact ⟨document.2, hcontent⟩
    · exact ih hfields hf

/-- Induction over what is read from a document. A container is read with less room for what is in
it, so the induction is on the room. -/
theorem valueWithin?_induct {P : Nat → Json → Prop} (null : ∀ n, P n .null)
    (bool : ∀ n b, P n (.bool b)) (string : ∀ n s, P n (.string s))
    (number : ∀ n numeral j, Numeral.value? numeral = some j → P n j)
    (array : ∀ n items, (∀ j ∈ items, P n j) → P (n + 1) (.array items))
    (object : ∀ n fields, (∀ f ∈ fields, P n f.2) → P (n + 1) (.object fields))
    {document : Unread} (h : document.valueWithin? n = some j) : P n j := by
  induction n generalizing document j with
  | zero =>
    cases document with
    | null => cases h; exact null 0
    | bool b => cases h; exact bool 0 b
    | number numeral => exact number 0 numeral j h
    | string letters =>
      obtain ⟨text, -, rfl⟩ := Option.map_eq_some_iff.mp h
      exact string 0 text
    -- No room is left for what a container holds.
    | array documents | object documents => cases h
  | succ n ih =>
    cases document with
    | null => cases h; exact null _
    | bool b => cases h; exact bool _ b
    | number numeral => exact number _ numeral j h
    | string letters =>
      obtain ⟨text, -, rfl⟩ := Option.map_eq_some_iff.mp h
      exact string _ text
    | array documents =>
      obtain ⟨items, hitems, rfl⟩ := Option.map_eq_some_iff.mp h
      refine array n items fun j hj => ?_
      obtain ⟨document, hdocument⟩ := exists_of_itemsWithin? hitems hj
      exact ih hdocument
    | object documents =>
      obtain ⟨fields, hfields, rfl⟩ := Option.map_eq_some_iff.mp h
      refine object n fields fun f hf => ?_
      obtain ⟨document, hdocument⟩ := exists_of_fieldsWithin? hfields hf
      exact ih hdocument

section

variable {p : Json → Prop} (hp : AboutNumbers p)
  (hnumber : ∀ {numeral : Numeral} {j : Json}, numeral.value? = some j → j.All p)
include hp hnumber

/-- **What is true of the numbers of numerals is true of what is read from a document.** -/
theorem all_of_valueWithin? {document : Unread} (h : document.valueWithin? n = some j) :
    j.All p := by
  refine valueWithin?_induct (P := fun _ j => j.All p) (fun _ => hp.null) (fun _ => hp.bool)
    (fun _ => hp.string) (fun _ _ _ => hnumber) ?_ ?_ h
  · exact fun _ items hitems => all_array_iff.mpr ⟨hp.array items, hitems⟩
  · exact fun _ fields hfields => all_object_iff.mpr ⟨hp.object fields, hfields⟩

theorem all_of_readBytes? {b : Bytes} (h : readBytes? b = some j) : j.All p := by
  obtain ⟨document, -, hvalue⟩ := Option.bind_eq_some_iff.mp h
  exact all_of_valueWithin? hp hnumber hvalue

theorem all_of_readAs? {outline : Unread → Unread} {s : String} (h : readAs? outline s = some j) :
    j.All p := by
  obtain ⟨document, -, hvalue⟩ := Option.bind_eq_some_iff.mp h
  exact all_of_valueWithin? hp hnumber hvalue

end

/-- What is read from a document is no deeper than a reader goes. -/
theorem depth_le_of_valueWithin? {document : Unread} (h : document.valueWithin? n = some j) :
    j.depth ≤ n := by
  refine valueWithin?_induct (P := fun n j => j.depth ≤ n) (fun _ => Nat.zero_le _)
    (fun _ _ => Nat.zero_le _) (fun _ _ => Nat.zero_le _) (fun n numeral j hj => ?_)
    (fun _ _ => depth_array_le_iff.mpr) (fun _ _ => depth_object_le_iff.mpr) h
  rw [depth_of_value? hj]
  exact Nat.zero_le n

theorem depth_le_of_readBytes? {b : Bytes} (h : readBytes? b = some j) :
    j.depth ≤ Unread.depthLimit := by
  obtain ⟨document, -, hvalue⟩ := Option.bind_eq_some_iff.mp h
  exact depth_le_of_valueWithin? hvalue

/-- **What is read from a document has numbers that documents hold.** -/
theorem kept_of_readBytes? {b : Bytes} (h : readBytes? b = some j) : j.All IsKept :=
  all_of_readBytes? aboutNumbers_isKept kept_of_value? h

theorem kept_of_readAs? {outline : Unread → Unread} {s : String} (h : readAs? outline s = some j) :
    j.All IsKept :=
  all_of_readAs? aboutNumbers_isKept kept_of_value? h

/-! ## What is written -/

mutual

/-- The value with `null` for the numbers that are not finite. -/
def asWritten : Json → Json
  | .array items => .array (itemsAsWritten items)
  | .object fields => .object (fieldsAsWritten fields)
  | .double d => if d.isFinite then .double d else .null
  | .null => .null
  | .bool b => .bool b
  | .integer i => .integer i
  | .string s => .string s
termination_by structural j => j

def itemsAsWritten : List Json → List Json
  | [] => []
  | item :: rest => asWritten item :: itemsAsWritten rest
termination_by structural items => items

def fieldsAsWritten : List (String × Json) → List (String × Json)
  | [] => []
  | (name, value) :: rest => (name, asWritten value) :: fieldsAsWritten rest
termination_by structural fields => fields

end

theorem itemsAsWritten_eq (items : List Json) : itemsAsWritten items = items.map asWritten := by
  induction items with
  | nil => rfl
  | cons item rest ih => rw [itemsAsWritten, ih, List.map_cons]

theorem fieldsAsWritten_eq (fields : List (String × Json)) :
    fieldsAsWritten fields = fields.map fun f => (f.1, f.2.asWritten) := by
  induction fields with
  | nil => rfl
  | cons f rest ih => rw [fieldsAsWritten, ih, List.map_cons]

/-- A value whose numbers are finite is written as it is. -/
theorem asWritten_of_kept (h : j.All IsKept) : j.asWritten = j := by
  induction j using induct_tree with
  | null | bool b | integer i | string s => rfl
  | double d => exact if_pos h
  | array items ih =>
    rw [all_array_iff] at h
    rw [asWritten, itemsAsWritten_eq, List.map_congr_left fun j hj => ih j hj (h.2 j hj),
      List.map_id']
  | object fields ih =>
    rw [all_object_iff] at h
    have hfields : (fields.map fun f => (f.1, f.2.asWritten)) = fields := by
      conv_rhs => rw [← List.map_id' fields]
      refine List.map_congr_left fun f hf => ?_
      rw [ih f hf (h.2 f hf)]
    rw [asWritten, fieldsAsWritten_eq, hfields]

/-- What is read of a document where a value was written. -/
def ReadWithin (n : Nat) (j : Json) : Prop :=
  j.unread.valueWithin? n = if j.depth ≤ n then some j.asWritten else none

theorem itemsWithin?_unread {items : List Json} (h : ∀ j ∈ items, j.ReadWithin n) :
    Unread.itemsWithin? n (unreadItems items) =
      if depthOfItems items ≤ n then some (itemsAsWritten items) else none := by
  induction items with
  | nil => rfl
  | cons item rest ih =>
    rw [List.forall_mem_cons] at h
    rw [unreadItems, Unread.itemsWithin?, h.1, ih h.2, depthOfItems, itemsAsWritten]
    by_cases hitem : item.depth ≤ n
    · by_cases hrest : depthOfItems rest ≤ n
      · simp [hitem, hrest]
      · simp [hitem, hrest]
    · simp [hitem]

theorem fieldsWithin?_unread {fields : List (String × Json)}
    (h : ∀ f ∈ fields, f.2.ReadWithin n) :
    Unread.fieldsWithin? n (unreadFields fields) =
      if depthOfFields fields ≤ n then some (fieldsAsWritten fields) else none := by
  induction fields with
  | nil => rfl
  | cons f rest ih =>
    obtain ⟨name, value⟩ := f
    rw [List.forall_mem_cons] at h
    rw [unreadFields, Unread.fieldsWithin?, Letters.text?_ofString, h.1, ih h.2, depthOfFields,
      fieldsAsWritten]
    by_cases hvalue : value.depth ≤ n
    · by_cases hrest : depthOfFields rest ≤ n
      · simp [hvalue, hrest]
      · simp [hvalue, hrest]
    · simp [hvalue]

/-- **A value is read from its document as it was written, if it is not too deep.** As it was
written, not as it was: a double that is not finite is written as `null`. -/
theorem valueWithin?_unread (htext : j.All HasText) (hrange : j.All InRange) (n : Nat) :
    j.ReadWithin n := by
  -- A container takes one from the room of what is in it, as it adds one to its depth.
  induction j using induct_tree generalizing n with
  | null | bool b => rfl
  | integer i => exact value?_ofInt hrange
  | double d =>
    show (unread (.double d)).valueWithin? n = some (asWritten (.double d))
    rw [unread, asWritten]
    split
    · rename_i hd
      exact (ReadsBack.numeral hd (htext hd)).1
    · rfl
  | string s =>
    show (Letters.ofString s).text?.map _ = _
    rw [Letters.text?_ofString]
    rfl
  | array items ih =>
    rw [all_array_iff] at htext hrange
    cases n with
    | zero => rfl
    | succ n =>
      have hitems := itemsWithin?_unread fun j hj => ih j hj (htext.2 j hj) (hrange.2 j hj) n
      rw [ReadWithin, unread, Unread.valueWithin?, hitems, depth, asWritten]
      by_cases hdepth : depthOfItems items ≤ n
      · simp [hdepth]
      · simp [hdepth]
  | object fields ih =>
    rw [all_object_iff] at htext hrange
    cases n with
    | zero => rfl
    | succ n =>
      have hfields := fieldsWithin?_unread fun f hf => ih f hf (htext.2 f hf) (hrange.2 f hf) n
      rw [ReadWithin, unread, Unread.valueWithin?, hfields, depth, asWritten]
      by_cases hdepth : depthOfFields fields ≤ n
      · simp [hdepth]
      · simp [hdepth]

end CachedRun.Json
