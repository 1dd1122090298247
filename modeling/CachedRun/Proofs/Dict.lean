import CachedRun.Dict
import Mathlib.Data.List.Nodup
import Mathlib.Data.String.Basic

/-!
# Ordered tables — order

A table is a list, and it is a table only if its keys ascend (`Sorted`). Storing keeps that, so
`ofList` makes a table of any pairs; and what is a table already, it leaves alone. A list of distinct
texts is the keys of such a table.
-/

set_option autoImplicit false

namespace CachedRun.Dict

variable {α : Type} {key : String} {value : α} {table pairs : Dict α} {e : String × α}

/-- The keys ascend, so no key is there twice. -/
def Sorted (table : Dict α) : Prop := table.Pairwise fun a b => a.1 < b.1

theorem mem_of_find? (h : table.find? key = some value) : (key, value) ∈ table := by
  induction table with
  | nil => cases h
  | cons f table ih =>
    rw [find?] at h
    split at h
    · rename_i hkey
      cases h
      exact hkey ▸ List.mem_cons_self ..
    · exact List.mem_cons_of_mem _ (ih h)

theorem mem_of_mem_insert (h : e ∈ insert key value table) : e = (key, value) ∨ e ∈ table := by
  induction table with
  | nil => exact .inl (List.mem_singleton.mp h)
  | cons f table ih =>
    rw [insert] at h
    split at h
    · rcases List.mem_cons.mp h with h | h
      · exact .inl h
      · exact .inr (List.mem_cons_of_mem _ h)
    · split at h
      · exact List.mem_cons.mp h
      · rcases List.mem_cons.mp h with h | h
        · exact .inr (h ▸ List.mem_cons_self ..)
        · exact (ih h).imp_right (List.mem_cons_of_mem _)

theorem Sorted.insert (h : Sorted table) : Sorted (insert key value table) := by
  induction table with
  | nil => exact List.pairwise_singleton ..
  | cons f table ih =>
    obtain ⟨hfirst, hrest⟩ := List.pairwise_cons.mp h
    rw [Dict.insert]
    split
    · rename_i heq
      rw [Sorted, List.pairwise_cons, ← heq]
      exact ⟨hfirst, hrest⟩
    · split
      · rename_i hne hlt
        refine List.pairwise_cons.mpr ⟨fun e he => ?_, h⟩
        rcases List.mem_cons.mp he with rfl | he
        · exact hlt
        · exact lt_trans hlt (hfirst e he)
      · rename_i hne hlt
        refine List.pairwise_cons.mpr ⟨fun e he => ?_, ih hrest⟩
        rcases mem_of_mem_insert he with rfl | he
        · exact lt_of_le_of_ne (not_lt.mp hlt) hne
        · exact hfirst e he

theorem sorted_foldl (h : Sorted table) :
    Sorted (pairs.foldl (fun table e => insert e.1 e.2 table) table) := by
  induction pairs generalizing table with
  | nil => exact h
  | cons e pairs ih => exact ih h.insert

/-- **Any pairs make a table.** -/
theorem sorted_ofList : Sorted (ofList pairs) := sorted_foldl List.Pairwise.nil

theorem mem_of_mem_foldl (h : e ∈ pairs.foldl (fun table e => insert e.1 e.2 table) table) :
    e ∈ table ∨ e ∈ pairs := by
  induction pairs generalizing table with
  | nil => exact .inl h
  | cons f pairs ih =>
    rcases ih h with h | h
    · rcases mem_of_mem_insert h with rfl | h
      · exact .inr (List.mem_cons_self ..)
      · exact .inl h
    · exact .inr (List.mem_cons_of_mem _ h)

theorem mem_of_mem_ofList (h : e ∈ ofList pairs) : e ∈ pairs := by
  rcases mem_of_mem_foldl h with h | h
  · cases h
  · exact h

/-- The greatest key goes to the end. -/
theorem insert_of_greatest (h : ∀ e ∈ table, e.1 < key) :
    insert key value table = table ++ [(key, value)] := by
  induction table with
  | nil => rfl
  | cons f table ih =>
    rw [List.forall_mem_cons] at h
    rw [insert, if_neg (ne_of_lt h.1), if_neg (lt_asymm h.1), ih h.2]
    rfl

theorem foldl_of_sorted (h : Sorted (table ++ pairs)) :
    pairs.foldl (fun table e => insert e.1 e.2 table) table = table ++ pairs := by
  induction pairs generalizing table with
  | nil => rw [List.append_nil]; rfl
  | cons e pairs ih =>
    have hgreatest : ∀ f ∈ table, f.1 < e.1 := fun f hf =>
      (List.pairwise_append.mp h).2.2 f hf e (List.mem_cons_self ..)
    rw [List.foldl_cons, insert_of_greatest hgreatest, ih (by simpa using h)]
    simp

/-- **A table is made of itself.** -/
theorem ofList_of_sorted (h : Sorted pairs) : ofList pairs = pairs :=
  foldl_of_sorted h

/-- Storing under a key that is new adds to what is there. -/
theorem insert_perm (h : key ∉ table.map Prod.fst) :
    (insert key value table).Perm ((key, value) :: table) := by
  induction table with
  | nil => exact .refl _
  | cons f table ih =>
    rw [List.map_cons, List.mem_cons, not_or] at h
    rw [insert, if_neg (Ne.symm h.1)]
    split
    · exact .refl _
    · exact ((ih h.2).cons f).trans (.swap ..)

theorem foldl_perm (h : ((table ++ pairs).map Prod.fst).Nodup) :
    (pairs.foldl (fun table e => insert e.1 e.2 table) table).Perm (table ++ pairs) := by
  induction pairs generalizing table with
  | nil =>
    rw [List.append_nil]
    exact .refl _
  | cons e pairs ih =>
    have hkeys : (((e :: table) ++ pairs).map Prod.fst).Nodup :=
      (List.perm_middle.map Prod.fst).nodup_iff.mp h
    have hnew : e.1 ∉ table.map Prod.fst := by
      rw [List.cons_append, List.map_cons, List.nodup_cons, List.map_append] at hkeys
      exact fun hmem => hkeys.1 (List.mem_append_left _ hmem)
    have hinsert : (insert e.1 e.2 table ++ pairs).Perm ((e :: table) ++ pairs) :=
      (insert_perm hnew).append_right pairs
    have hrest := ih ((hinsert.map Prod.fst).nodup_iff.mpr hkeys)
    exact hrest.trans (hinsert.trans List.perm_middle.symm)

/-- **Pairs with different keys make a table of themselves**, in another order. -/
theorem ofList_perm (h : (pairs.map Prod.fst).Nodup) : (ofList pairs).Perm pairs := foldl_perm h

theorem Sorted.nodup_keys (h : Sorted table) : (table.map Prod.fst).Nodup :=
  List.pairwise_map.mpr (h.imp ne_of_lt)

/-- What is under distinct keys is found. -/
theorem find?_eq_some_iff (h : (table.map Prod.fst).Nodup) :
    table.find? key = some value ↔ (key, value) ∈ table := by
  refine ⟨mem_of_find?, fun hmem => ?_⟩
  induction table with
  | nil => cases hmem
  | cons f table ih =>
    obtain ⟨hnew, hrest⟩ := List.nodup_cons.mp h
    rw [find?]
    rcases List.mem_cons.mp hmem with rfl | hmem
    · exact if_pos rfl
    · rw [if_neg, ih hrest hmem]
      rintro rfl
      exact hnew (List.mem_map.mpr ⟨_, hmem, rfl⟩)

/-- What is found under distinct keys is all that is there of its key. -/
theorem filter_of_find? (h : (table.map Prod.fst).Nodup) (hfound : table.find? key = some value) :
    table.filter (fun e => e.1 = key) = [(key, value)] := by
  induction table with
  | nil => cases hfound
  | cons f table ih =>
    obtain ⟨hnew, hrest⟩ := List.nodup_cons.mp h
    rw [find?] at hfound
    split at hfound
    · rename_i hkey
      cases hfound
      subst hkey
      rw [List.filter_cons_of_pos (by simp), List.filter_eq_nil_iff.mpr]
      intro e he
      rw [decide_eq_true_eq]
      exact fun hsame => hnew (List.mem_map.mpr ⟨e, he, hsame⟩)
    · rename_i hkey
      rw [List.filter_cons_of_neg (by simpa using hkey), ih hrest hfound]

/-- Keys that are renamed apart are found under their new names. -/
theorem find?_map_keys {f : String → String} (hf : Function.Injective f) :
    find? (f key) (table.map fun e => (f e.1, e.2)) = table.find? key := by
  induction table with
  | nil => rfl
  | cons e table ih => simp only [List.map_cons, find?, hf.eq_iff, ih]

/-- A table has one order only. -/
theorem Sorted.eq_of_perm (ht : Sorted table) (hp : Sorted pairs) (h : table.Perm pairs) :
    table = pairs :=
  h.eq_of_pairwise (fun _ _ _ _ hab hba => absurd hba (lt_asymm hab)) ht hp

/-- What is found decides a table. -/
theorem Sorted.ext (ht : Sorted table) (hp : Sorted pairs)
    (h : ∀ key, table.find? key = pairs.find? key) : table = pairs := by
  refine ht.eq_of_perm hp ((List.perm_ext_iff_of_nodup ?_ ?_).mpr fun e => ?_)
  · exact List.Nodup.of_map Prod.fst ht.nodup_keys
  · exact List.Nodup.of_map Prod.fst hp.nodup_keys
  · rw [← find?_eq_some_iff ht.nodup_keys, ← find?_eq_some_iff hp.nodup_keys, h]

theorem mem_keys_insert {other : String} :
    other ∈ (insert key value table).keys ↔ other = key ∨ other ∈ table.keys := by
  induction table with
  | nil => simp [insert, keys]
  | cons e table ih =>
    rw [insert]
    split
    · rename_i hkey
      simp [keys, hkey]
    · split
      · simp [keys]
      · simp only [keys, List.map_cons, List.mem_cons] at ih ⊢
        rw [ih, or_left_comm]

theorem mem_keys_foldl {other : String} :
    other ∈ (pairs.foldl (fun table e => insert e.1 e.2 table) table).keys ↔
      other ∈ table.keys ∨ other ∈ pairs.map Prod.fst := by
  induction pairs generalizing table with
  | nil => simp
  | cons e pairs ih =>
    rw [List.foldl_cons, ih, mem_keys_insert, List.map_cons, List.mem_cons, or_assoc, or_left_comm]

end CachedRun.Dict

namespace CachedRun

variable {items : List String}

/-- No text is lost, and none is added. -/
theorem mem_sortedDistinct {s : String} : s ∈ sortedDistinct items ↔ s ∈ items := by
  rw [sortedDistinct, Dict.ofList, Dict.mem_keys_foldl]
  simp [Dict.keys]

theorem pairwise_sortedDistinct : (sortedDistinct items).Pairwise (· < ·) :=
  List.pairwise_map.mpr Dict.sorted_ofList

end CachedRun
