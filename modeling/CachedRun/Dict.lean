/-!
# Ordered tables

A table keyed by text, kept as a list of pairs in ascending order of their keys. Text is ordered by
code points, which is also the order of its UTF-8 bytes. The order of the list is the order in
which tables are written, hashed and delivered, so it belongs to the type's operations: `insert`
keeps a sorted list sorted, and `ofList` sorts, the last of several values of one key staying.
-/

set_option autoImplicit false

namespace CachedRun

/-- A table from text to values, in ascending order of its keys. -/
abbrev Dict (α : Type) : Type := List (String × α)

namespace Dict

variable {α β : Type}

/-- The value stored under a key. -/
def find? (key : String) : Dict α → Option α
  | [] => none
  | (k, v) :: rest => if k = key then some v else find? key rest

/-- Stores a value under a key, in place of the value already there. -/
def insert (key : String) (value : α) : Dict α → Dict α
  | [] => [(key, value)]
  | (k, v) :: rest =>
    if k = key then (key, value) :: rest
    else if key < k then (key, value) :: (k, v) :: rest
    else (k, v) :: insert key value rest

def contains (key : String) (table : Dict α) : Bool := (find? key table).isSome

def keys (table : Dict α) : List String := table.map Prod.fst

/-- Stores pairs one after the other. -/
def ofList (pairs : List (String × α)) : Dict α :=
  pairs.foldl (fun table (k, v) => insert k v table) []

@[simp] theorem find?_nil (key : String) : find? key ([] : Dict α) = none := rfl

theorem find?_insert (key other : String) (value : α) (table : Dict α) :
    find? other (insert key value table) =
      if key = other then some value else find? other table := by
  induction table with
  | nil => simp [insert, find?]
  | cons entry rest ih =>
    obtain ⟨k, v⟩ := entry
    by_cases same : k = key
    · subst same
      simp only [insert, if_true, find?]
      split <;> simp_all
    · by_cases before : key < k
      · simp only [insert, if_neg same, if_pos before, find?]
      · simp only [insert, if_neg same, if_neg before, find?, ih]
        by_cases here : k = other
        · have : ¬ key = other := fun h => same (here.trans h.symm)
          simp [here, this]
        · simp [here]

/-- Storing under a key makes it readable there. -/
@[simp] theorem find?_insert_self (key : String) (value : α) (table : Dict α) :
    find? key (insert key value table) = some value := by simp [find?_insert]

end Dict

/-- The ascending list of distinct texts of a list. -/
def sortedDistinct (items : List String) : List String :=
  (Dict.ofList (items.map fun s => (s, ()))).keys

end CachedRun
