import CachedRun.Json.Writer
import CachedRun.Proofs.Dict

/-!
# JSON values — what holds everywhere inside

A value is a tree, and most of what is said of one is said of all values inside it (`All`): that
numbers are in range, that fields are in order. `induct_tree` is the induction that goes with it:
what holds of items holds of their array, and what holds of the contents of fields holds of their
object.

The canonical form is the one in which fields are in order; it is its own canonical form
(`canonical_of_ordered`), and it has the numbers of the value it was made of (`All.canonical`).
-/

set_option autoImplicit false

namespace CachedRun.Json

/-! ## Induction -/

/-- Induction over a value, its items and the contents of its fields. -/
@[elab_as_elim]
theorem induct_tree {P : Json → Prop} (null : P .null) (bool : ∀ b, P (.bool b))
    (integer : ∀ i, P (.integer i)) (double : ∀ d, P (.double d)) (string : ∀ s, P (.string s))
    (array : ∀ items, (∀ j ∈ items, P j) → P (.array items))
    (object : ∀ fields, (∀ f ∈ fields, P f.2) → P (.object fields)) (j : Json) : P j := by
  refine @Json.rec P (fun items => ∀ j ∈ items, P j) (fun fields => ∀ f ∈ fields, P f.2)
    (fun f => P f.2) null bool integer double string array object ?_ ?_ ?_ ?_ ?_ j
  · nofun
  · exact fun item rest hitem hrest => List.forall_mem_cons.mpr ⟨hitem, hrest⟩
  · nofun
  · exact fun f rest hf hrest => List.forall_mem_cons.mpr ⟨hf, hrest⟩
  · exact fun _ _ h => h

/-! ## All values inside -/

mutual

/-- What holds of a value and of all values inside it. -/
def All (p : Json → Prop) : Json → Prop
  | .array items => p (.array items) ∧ AllItems p items
  | .object fields => p (.object fields) ∧ AllFields p fields
  | .null => p .null
  | .bool b => p (.bool b)
  | .integer i => p (.integer i)
  | .double d => p (.double d)
  | .string s => p (.string s)
termination_by structural j => j

def AllItems (p : Json → Prop) : List Json → Prop
  | [] => True
  | item :: rest => All p item ∧ AllItems p rest
termination_by structural items => items

def AllFields (p : Json → Prop) : List (String × Json) → Prop
  | [] => True
  | (_, content) :: rest => All p content ∧ AllFields p rest
termination_by structural fields => fields

end

section

variable {p q : Json → Prop} {items : List Json} {fields : List (String × Json)}

theorem allItems_iff : AllItems p items ↔ ∀ j ∈ items, All p j := by
  induction items with
  | nil => exact ⟨nofun, fun _ => trivial⟩
  | cons item rest ih => rw [AllItems, ih, List.forall_mem_cons]

theorem allFields_iff : AllFields p fields ↔ ∀ f ∈ fields, All p f.2 := by
  induction fields with
  | nil => exact ⟨nofun, fun _ => trivial⟩
  | cons f rest ih => rw [AllFields, ih, List.forall_mem_cons]

theorem all_array_iff : All p (.array items) ↔ p (.array items) ∧ ∀ j ∈ items, All p j := by
  rw [All, allItems_iff]

theorem all_object_iff :
    All p (.object fields) ↔ p (.object fields) ∧ ∀ f ∈ fields, All p f.2 := by
  rw [All, allFields_iff]

theorem All.of_find? {key : String} {j : Json} (h : All p (.object fields))
    (hj : Dict.find? key fields = some j) : All p j :=
  (all_object_iff.mp h).2 _ (Dict.mem_of_find? hj)

theorem All.mono (hpq : ∀ j, p j → q j) {j : Json} (h : All p j) : All q j := by
  induction j using induct_tree with
  | null | bool b | integer i | double d | string s => exact hpq _ h
  | array items ih =>
    rw [all_array_iff] at h ⊢
    exact ⟨hpq _ h.1, fun j hj => ih j hj (h.2 j hj)⟩
  | object fields ih =>
    rw [all_object_iff] at h ⊢
    exact ⟨hpq _ h.1, fun f hf => ih f hf (h.2 f hf)⟩

end

/-- What is said of numbers only: it holds of every value that is none. -/
structure AboutNumbers (p : Json → Prop) : Prop where
  null : p .null
  bool : ∀ b, p (.bool b)
  string : ∀ s, p (.string s)
  array : ∀ items, p (.array items)
  object : ∀ fields, p (.object fields)

/-- What is said of numbers, and goes from an integer to the double nearest to it. -/
structure AboutDoubles (p : Json → Prop) : Prop extends AboutNumbers p where
  ofInt : ∀ i, p (.integer i) → p (.double (.ofInt i))

/-! ## The canonical form -/

theorem canonicalItems_eq (items : List Json) : canonicalItems items = items.map canonical := by
  induction items with
  | nil => rfl
  | cons item rest ih => rw [canonicalItems, ih, List.map_cons]

theorem canonicalFields_eq (fields : List (String × Json)) :
    canonicalFields fields = fields.map fun f => (f.1, f.2.canonical) := by
  induction fields with
  | nil => rfl
  | cons f rest ih => rw [canonicalFields, ih, List.map_cons]

/-- The fields of an object are in order. -/
def HasOrder : Json → Prop
  | .object fields => Dict.Sorted fields
  | _ => True

theorem ordered_canonical (j : Json) : All HasOrder j.canonical := by
  induction j using induct_tree with
  | null | bool b | integer i | double d | string s => trivial
  | array items ih =>
    rw [canonical, canonicalItems_eq, all_array_iff]
    exact ⟨trivial, List.forall_mem_map.mpr ih⟩
  | object fields ih =>
    rw [canonical, canonicalFields_eq, all_object_iff]
    refine ⟨Dict.sorted_ofList, fun f hf => ?_⟩
    obtain ⟨g, hg, rfl⟩ := List.mem_map.mp (Dict.mem_of_mem_ofList hf)
    exact ih g hg

/-- **What is in order is canonical.** -/
theorem canonical_of_ordered {j : Json} (h : All HasOrder j) : j.canonical = j := by
  induction j using induct_tree with
  | null | bool b | integer i | double d | string s => rfl
  | array items ih =>
    rw [all_array_iff] at h
    rw [canonical, canonicalItems_eq, List.map_congr_left fun j hj => ih j hj (h.2 j hj),
      List.map_id']
  | object fields ih =>
    rw [all_object_iff] at h
    have hfields : (fields.map fun f => (f.1, f.2.canonical)) = fields := by
      conv_rhs => rw [← List.map_id' fields]
      refine List.map_congr_left fun f hf => ?_
      rw [ih f hf (h.2 f hf)]
    rw [canonical, canonicalFields_eq, hfields, Dict.ofList_of_sorted h.1]

/-- What is said of the values that hold no others is true of the canonical form too. -/
theorem All.canonical {p : Json → Prop} (harray : ∀ items, p (.array items))
    (hobject : ∀ fields, p (.object fields)) {j : Json} (h : All p j) : All p j.canonical := by
  induction j using induct_tree with
  | null | bool b | integer i | double d | string s => exact h
  | array items ih =>
    rw [all_array_iff] at h
    rw [Json.canonical, canonicalItems_eq, all_array_iff]
    exact ⟨harray _, List.forall_mem_map.mpr fun j hj => ih j hj (h.2 j hj)⟩
  | object fields ih =>
    rw [all_object_iff] at h
    rw [Json.canonical, canonicalFields_eq, all_object_iff]
    refine ⟨hobject _, fun f hf => ?_⟩
    obtain ⟨g, hg, rfl⟩ := List.mem_map.mp (Dict.mem_of_mem_ofList hf)
    exact ih g hg (h.2 g hg)

/-! ## Depth -/

mutual

/-- How many containers lie in each other. -/
def depth : Json → Nat
  | .array items => depthOfItems items + 1
  | .object fields => depthOfFields fields + 1
  | .null => 0
  | .bool _ => 0
  | .integer _ => 0
  | .double _ => 0
  | .string _ => 0
termination_by structural j => j

def depthOfItems : List Json → Nat
  | [] => 0
  | item :: rest => max (depth item) (depthOfItems rest)
termination_by structural items => items

def depthOfFields : List (String × Json) → Nat
  | [] => 0
  | (_, content) :: rest => max (depth content) (depthOfFields rest)
termination_by structural fields => fields

end

theorem depthOfItems_le_iff {items : List Json} {n : Nat} :
    depthOfItems items ≤ n ↔ ∀ j ∈ items, j.depth ≤ n := by
  induction items with
  | nil => exact ⟨nofun, fun _ => Nat.zero_le n⟩
  | cons item rest ih => rw [depthOfItems, Nat.max_le, ih, List.forall_mem_cons]

theorem depthOfFields_le_iff {fields : List (String × Json)} {n : Nat} :
    depthOfFields fields ≤ n ↔ ∀ f ∈ fields, f.2.depth ≤ n := by
  induction fields with
  | nil => exact ⟨nofun, fun _ => Nat.zero_le n⟩
  | cons f rest ih => rw [depthOfFields, Nat.max_le, ih, List.forall_mem_cons]

theorem depth_array_le_iff {items : List Json} {n : Nat} :
    (Json.array items).depth ≤ n + 1 ↔ ∀ j ∈ items, j.depth ≤ n := by
  rw [depth, Nat.add_le_add_iff_right, depthOfItems_le_iff]

theorem depth_object_le_iff {fields : List (String × Json)} {n : Nat} :
    (Json.object fields).depth ≤ n + 1 ↔ ∀ f ∈ fields, f.2.depth ≤ n := by
  rw [depth, Nat.add_le_add_iff_right, depthOfFields_le_iff]

/-- The canonical form is no deeper. Of several fields with one name it has only the last. -/
theorem depth_canonical_le (j : Json) : j.canonical.depth ≤ j.depth := by
  induction j using induct_tree with
  | null | bool b | integer i | double d | string s => exact le_rfl
  | array items ih =>
    rw [canonical, canonicalItems_eq]
    refine depth_array_le_iff.mpr (List.forall_mem_map.mpr fun j hj => ?_)
    exact (ih j hj).trans (depthOfItems_le_iff.mp le_rfl j hj)
  | object fields ih =>
    rw [canonical, canonicalFields_eq]
    refine depth_object_le_iff.mpr fun f hf => ?_
    obtain ⟨g, hg, rfl⟩ := List.mem_map.mp (Dict.mem_of_mem_ofList hf)
    exact (ih g hg).trans (depthOfFields_le_iff.mp le_rfl g hg)

end CachedRun.Json
