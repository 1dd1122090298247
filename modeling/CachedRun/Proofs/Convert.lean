import CachedRun.Proofs.Files
import CachedRun.Proofs.Value.Document
import CachedRun.Run

/-!
# Conversions — what comes out is proper

Whatever a program prints or leaves in its files, a value that is made of it is proper: integers and
times are checked when they are read, JSON is brought to its canonical form and holds no number but
those of documents, and the files of a layer are a table. The exit value has the range of integer
values. So the outputs of a run are a table of proper values (`Run.isProper_of_collect`). A reader
gives a value of the binding it is asked for, which the exit value has only if that is an integer.
-/

set_option autoImplicit false

namespace CachedRun

open Json (HasOrder IsKept InRange Unread)

/-! ## Numbers -/

namespace Decimal

theorem le_of_readDigits {limit n m : Nat} {overflow : Flaw} {s : List Char}
    (h : readDigits limit overflow n s = .ok m) (hn : n ≤ limit) : m ≤ limit := by
  induction s generalizing n with
  | nil =>
    cases h
    exact hn
  | cons c s ih =>
    rw [readDigits] at h
    split at h
    · cases h
    · simp only at h
      split at h
      · cases h
      · rename_i hle
        exact ih h (not_lt.mp hle)

theorem le_of_readNatural {limit n : Nat} {overflow : Flaw} {s : List Char}
    (h : readNatural limit overflow s = .ok n) : n ≤ limit := by
  cases s with
  | nil => cases h
  | cons c s => exact le_of_readDigits h (Nat.zero_le limit)

/-- An integer that was read lies between its bounds. -/
theorem mem_range_of_readInt {least greatest : Nat} {s : List Char} {i : Int}
    (h : readInt least greatest s = .ok i) : -(least : Int) ≤ i ∧ i ≤ greatest := by
  unfold readInt at h
  split at h
  · cases h
  · obtain ⟨n, hn, rfl⟩ := Result.map_eq_ok_iff.mp h
    have hle := le_of_readNatural hn
    rw [Int.ofNat_eq_natCast]
    omega
  · obtain ⟨i, hi, rfl⟩ := Result.map_eq_ok_iff.mp h
    obtain ⟨n, hn, hi⟩ := Result.bind_eq_ok_iff.mp hi
    cases hi
    have hle := le_of_readNatural hn
    omega
  · obtain ⟨n, hn, rfl⟩ := Result.map_eq_ok_iff.mp h
    have hle := le_of_readNatural hn
    rw [Int.ofNat_eq_natCast]
    omega

end Decimal

namespace Double

theorem fitting_le {n : Nat} (h : n.log2 < 65) : fitting n 1 ≤ 13 := by
  have hone : Nat.log2 1 = 0 := rfl
  simp only [fitting, hone]
  split
  · omega
  · omega

theorem isFinite_nearest {negative : Bool} {numerator denominator : Nat}
    (h : fitting numerator denominator < 971) :
    (nearest negative numerator denominator).isFinite = true := by
  -- A double is infinite only if its exponent is too large, and rounding adds no more than one.
  fun_cases nearest negative numerator denominator
  case case1 => rfl
  case case2 hrounded hlarge =>
    exfalso
    split at hrounded
    · cases hrounded
      omega
    · cases hrounded
      omega
  case case3 => rfl

/-- An integer that documents hold goes to a finite double. -/
theorem isFinite_ofInt {i : Int} (h : InRange (.integer i)) : (ofInt i).isFinite = true := by
  obtain ⟨hleast, hgreatest⟩ := h
  by_cases hi : i.natAbs = 0
  · rw [ofInt, hi, nearest, if_pos rfl]
    rfl
  · have hlog : i.natAbs.log2 < 65 := (Nat.log2_lt hi).mpr (by omega)
    have hfit := fitting_le hlog
    exact isFinite_nearest (by omega)

end Double

/-! ## Boxes

An integer of a document is taken for a double in a box, so what is asked of the doubles of a
document has to hold of those too (`AboutDoubles`). -/

namespace Json

variable {j : Json} {fields : List (String × Json)} {name : String}

theorem aboutDoubles_isKept : AboutDoubles IsKept :=
  ⟨aboutNumbers_isKept, fun _ => Double.isFinite_ofInt⟩

section

variable {p : Json → Prop} (hp : AboutDoubles p)
include hp

theorem all_of_asDouble {d : Double} (hj : j.All p) (h : j.asDouble = .ok d) : p (.double d) := by
  cases j with
  | integer i =>
    cases h
    exact hp.ofInt i hj
  | double d' =>
    cases h
    exact hj
  | _ => cases h

theorem all_of_asPair {pair : Double × Double} (hj : j.All p) (h : j.asPair = .ok pair) :
    (ofPair pair).All p := by
  unfold asPair at h
  split at h
  · cases h
  · obtain ⟨-, -, h⟩ := Result.bind_eq_ok_iff.mp h
    cases h
  · rename_i a b rest
    obtain ⟨-, hitems⟩ := all_array_iff.mp hj
    rw [List.forall_mem_cons, List.forall_mem_cons] at hitems
    obtain ⟨first, hfirst, h⟩ := Result.bind_eq_ok_iff.mp h
    obtain ⟨second, hsecond, h⟩ := Result.bind_eq_ok_iff.mp h
    obtain ⟨-, -, h⟩ := Result.bind_eq_ok_iff.mp h
    cases h
    exact ⟨hp.array _, all_of_asDouble hp hitems.1 hfirst,
      all_of_asDouble hp hitems.2.1 hsecond, trivial⟩
  · cases h

end

theorem mem_of_optionalField (h : optionalField name fields = .ok (some j)) :
    (name, j) ∈ fields := by
  unfold optionalField at h
  split at h
  · cases h
  · rename_i found content heq
    cases h
    have hmem : (found, j) ∈ fields.filter fun field => field.1 = name := by
      rw [heq]
      exact List.mem_singleton_self _
    obtain ⟨hmem, hname⟩ := List.mem_filter.mp hmem
    rw [← of_decide_eq_true hname]
    exact hmem
  · cases h

theorem mem_of_requiredField (h : requiredField name fields = .ok j) : (name, j) ∈ fields := by
  obtain ⟨found, hfound, h⟩ := Result.bind_eq_ok_iff.mp h
  cases found with
  | none => cases h
  | some content =>
    cases h
    exact mem_of_optionalField hfound

end Json

theorem BoundingBox.all_of_corners {p : Json → Prop} (hp : Json.AboutNumbers p)
    {box : BoundingBox} (hlower : (Json.ofPair box.lower).All p)
    (hupper : (Json.ofPair box.upper).All p) : box.toJson.All p := by
  refine Json.all_object_iff.mpr ⟨hp.object _, ?_⟩
  rw [List.cons_append, List.cons_append, List.forall_mem_cons, List.forall_mem_cons]
  refine ⟨hlower, hupper, ?_⟩
  split
  · exact List.forall_mem_singleton.mpr (hp.string _)
  · nofun

/-- A box has the numbers of the document that it is read from. -/
theorem BoundingBox.all_of_ofJson {p : Json → Prop} (hp : Json.AboutDoubles p) {j : Json}
    {box : BoundingBox} (hj : j.All p) (h : ofJson j = .ok box) : box.toJson.All p := by
  unfold ofJson at h
  split at h
  · rename_i fields
    obtain ⟨-, hfields⟩ := Json.all_object_iff.mp hj
    obtain ⟨found, -, h⟩ := Result.bind_eq_ok_iff.mp h
    -- With a name for the system or without it, the corners are read in the same way.
    obtain ⟨crs, h⟩ : ∃ crs, (do
        let lower ← (← Json.requiredField "lowerCorner" fields).asPair
        let upper ← (← Json.requiredField "upperCorner" fields).asPair
        return (⟨lower, upper, crs⟩ : BoundingBox)) = .ok box := by
      cases found with
      | none => exact ⟨none, h⟩
      | some content =>
        obtain ⟨crs, -, h⟩ := Result.bind_eq_ok_iff.mp h
        exact ⟨crs, h⟩
    obtain ⟨lower, hlower, h⟩ := Result.bind_eq_ok_iff.mp h
    obtain ⟨lowerPair, hlowerPair, h⟩ := Result.bind_eq_ok_iff.mp h
    obtain ⟨upper, hupper, h⟩ := Result.bind_eq_ok_iff.mp h
    obtain ⟨upperPair, hupperPair, h⟩ := Result.bind_eq_ok_iff.mp h
    cases h
    exact all_of_corners hp.toAboutNumbers
      (Json.all_of_asPair hp (hfields _ (Json.mem_of_requiredField hlower)) hlowerPair)
      (Json.all_of_asPair hp (hfields _ (Json.mem_of_requiredField hupper)) hupperPair)
  · rename_i lower upper rest
    obtain ⟨-, hitems⟩ := Json.all_array_iff.mp hj
    rw [List.forall_mem_cons, List.forall_mem_cons] at hitems
    obtain ⟨lowerPair, hlower, h⟩ := Result.bind_eq_ok_iff.mp h
    obtain ⟨upperPair, hupper, h⟩ := Result.bind_eq_ok_iff.mp h
    obtain ⟨crs, h⟩ : ∃ crs, (do
        Json.noMore (rest.length + 2) (rest.drop 1)
        return (⟨lowerPair, upperPair, crs⟩ : BoundingBox)) = .ok box := by
      cases rest with
      | nil => exact ⟨none, h⟩
      | cons content rest =>
        obtain ⟨crs, -, h⟩ := Result.bind_eq_ok_iff.mp h
        exact ⟨crs, h⟩
    obtain ⟨-, -, h⟩ := Result.bind_eq_ok_iff.mp h
    cases h
    exact all_of_corners hp.toAboutNumbers (Json.all_of_asPair hp hitems.1 hlower)
      (Json.all_of_asPair hp hitems.2.1 hupper)
  · obtain ⟨-, -, h⟩ := Result.bind_eq_ok_iff.mp h
    cases h
  · cases h

/-! ## Values -/

namespace Value

theorem readText_bytes (binding : Binding) (s : String) :
    readText binding (Text.bytes s) = .ok s := by
  rw [readText, Text.decode_bytes]
  rfl

theorem readDocument_eq_ok_iff {binding : Binding} {b : Bytes} {s : String} :
    readDocument binding b = .ok s ↔ b = Text.bytes s ∧
      ∃ canon, Xml.canonical binding.isValidatedXml s = .ok canon := by
  simp only [readDocument, readText, Result.bind_eq_ok_iff, Result.mapError_eq_ok_iff, pure,
    Except.pure, Except.ok.injEq]
  constructor
  · rintro ⟨s, hs, canon, hcanon, rfl⟩
    exact ⟨(Text.bytes_of_decode hs).symm, canon, hcanon⟩
  · rintro ⟨rfl, canon, hcanon⟩
    exact ⟨s, Text.decode_bytes s, canon, hcanon, rfl⟩

/-- A document is read from its own bytes, if it is well formed, and from no others. -/
theorem ofBytes_xml_iff {binding : Binding} (hxml : binding.isXml = true) {b : Bytes} {v : Value} :
    ofBytes binding b = .ok v ↔ v.binding = binding ∧ ∃ s, v.document? = some s ∧
      b = Text.bytes s ∧ ∃ canon, Xml.canonical binding.isValidatedXml s = .ok canon := by
  cases binding with
  | xml | quakeml | nrml | shakemap =>
    simp only [ofBytes, Result.map_eq_ok_iff, readDocument_eq_ok_iff]
    constructor
    · rintro ⟨s, hs, rfl⟩
      exact ⟨rfl, s, rfl, hs⟩
    · rintro ⟨hv, s, hdocument, hs⟩
      cases v <;> cases hv
      cases hdocument
      exact ⟨s, hs, rfl⟩
  | _ => cases hxml

theorem proper_of_json {j : Json} (hj : j.All IsKept) :
    j.canonical.All HasOrder ∧ j.canonical.All IsKept :=
  ⟨j.ordered_canonical, hj.canonical (fun _ => trivial) (fun _ => trivial)⟩

theorem kept_of_readJson {binding : Binding} {b : Bytes} {j : Json}
    (h : readJson binding b = .ok j) : j.All IsKept := by
  unfold readJson at h
  split at h
  · rename_i hread
    cases h
    exact Json.kept_of_readBytes? hread
  · cases h

/-- **What is read from bytes** is of the binding that was asked for, and proper. -/
theorem sound_of_ofBytes {binding : Binding} {b : Bytes} {v : Value}
    (h : ofBytes binding b = .ok v) : v.binding = binding ∧ v.IsProper := by
  cases binding with
  | string | double | xml | quakeml | nrml | shakemap =>
    obtain ⟨s, -, rfl⟩ := Result.map_eq_ok_iff.mp h
    exact ⟨rfl, trivial⟩
  | int =>
    obtain ⟨i, hi, rfl⟩ := Result.map_eq_ok_iff.mp h
    obtain ⟨s, -, hi⟩ := Result.bind_eq_ok_iff.mp hi
    exact ⟨rfl, Decimal.mem_range_of_readInt (Result.mapError_eq_ok_iff.mp hi)⟩
  | boolean =>
    obtain ⟨s, -, h⟩ := Result.bind_eq_ok_iff.mp h
    simp only at h
    split at h
    · cases h
      exact ⟨rfl, trivial⟩
    · split at h
      · cases h
        exact ⟨rfl, trivial⟩
      · cases h
  | datetime =>
    obtain ⟨s, -, h⟩ := Result.bind_eq_ok_iff.mp h
    simp only at h
    split at h
    · rename_i hread
      cases h
      exact ⟨rfl, Time.isProper_of_readStrict hread⟩
    · cases h
  | bbox =>
    obtain ⟨s, -, h⟩ := Result.bind_eq_ok_iff.mp h
    split at h
    · rename_i box hbox
      cases h
      obtain ⟨j, hj, hbox⟩ := Option.map_eq_some_iff.mp hbox
      exact ⟨rfl, BoundingBox.all_of_ofJson Json.aboutDoubles_isKept (Json.kept_of_readAs? hj) hbox⟩
    · cases h
    · cases h
  -- What is kept of a document is proper, whatever is made of it.
  | json =>
    obtain ⟨j, hj, rfl⟩ := Result.map_eq_ok_iff.mp h
    exact ⟨rfl, proper_of_json (kept_of_readJson hj)⟩
  | geojson =>
    obtain ⟨j, hj, h⟩ := Result.bind_eq_ok_iff.mp h
    obtain ⟨-, -, h⟩ := Result.bind_eq_ok_iff.mp h
    cases h
    exact ⟨rfl, proper_of_json (kept_of_readJson hj)⟩
  | geotiff =>
    rw [ofBytes] at h
    split at h
    · cases h
      exact ⟨rfl, trivial⟩
    · cases h
  | shapefile =>
    rw [ofBytes] at h
    split at h
    · cases h
    · cases h
      exact ⟨rfl, List.pairwise_singleton ..⟩
  | file =>
    cases h
    exact ⟨rfl, trivial⟩

/-- **What is read from files** is of the binding that was asked for, and proper. -/
theorem sound_of_ofFiles {binding : Binding} {path : String} {read : String → Id (Option Bytes)}
    {v : Value} (h : (ofFiles binding path read).run = .ok v) :
    v.binding = binding ∧ v.IsProper := by
  by_cases hbinding : binding = .shapefile
  · subst hbinding
    change (if (Shapefile.main? ⟨(readParts read path Shapefile.extensions).run⟩).isNone then _
      else Except.ok (Value.shapefile _)) = Except.ok v at h
    split at h
    · cases h
    · cases h
      exact ⟨rfl, sorted_readParts read path Shapefile.extensions⟩
  · unfold ofFiles at h
    rw [if_neg hbinding] at h
    cases hread : read path with
    | none =>
      simp only [hread] at h
      cases h
    | some content =>
      simp only [hread] at h
      exact sound_of_ofBytes h

end Value

/-! ## Outputs

A value comes from a stream, from a file or from the exit value, and the last one is the only one
that is not read. -/

/-- Outputs in order, all of them proper. -/
structure Outputs.IsProper (outputs : Outputs) : Prop where
  sorted : Dict.Sorted outputs
  proper : ∀ output ∈ outputs, output.2.IsProper

namespace Run

variable {o : RunOutput} {p : OutputParameter} {v : Value} {found outputs : Outputs}

theorem isProper_of_convert (hexit : Value.leastInt ≤ o.exitCode ∧ o.exitCode ≤ Value.greatestInt)
    (h : convert p o = .ok v) : v.IsProper := by
  obtain ⟨collection, -, h⟩ := Result.bind_eq_ok_iff.mp h
  have hvalidated {result : Except Fault Value}
      (h : (do let v ← result; p.validate v; return v) = .ok v) : result = .ok v := by
    obtain ⟨w, hw, h⟩ := Result.bind_eq_ok_iff.mp h
    obtain ⟨-, -, h⟩ := Result.bind_eq_ok_iff.mp h
    cases h
    exact hw
  cases collection with
  | stdout => exact (Value.sound_of_ofBytes (hvalidated h)).2
  | stderr => exact (Value.sound_of_ofBytes (hvalidated h)).2
  | exitValue =>
    cases hvalidated h
    exact hexit
  | file path => exact (Value.sound_of_ofFiles (hvalidated h)).2

/-- **The outputs of a run are proper.** Each value is one that was read, or the exit value, which
has to be a number of thirty-two bits. -/
theorem isProper_of_collect {selected : List OutputParameter}
    (hexit : Value.leastInt ≤ o.exitCode ∧ o.exitCode ≤ Value.greatestInt)
    (h : collect selected o = .ok outputs) : outputs.IsProper := by
  -- The induction needs a table that is already proper, as each output is added to one.
  have hinto : ∀ {selected : List OutputParameter} {found : Outputs}, found.IsProper →
      collectInto o found selected = .ok outputs → outputs.IsProper := by
    intro selected
    induction selected with
    | nil =>
      intro found hfound h
      cases h
      exact hfound
    | cons p rest ih =>
      intro found hfound h
      rw [collectInto] at h
      split at h
      · rename_i v hv
        refine ih ⟨hfound.sorted.insert, fun output hmem => ?_⟩ h
        rcases Dict.mem_of_mem_insert hmem with rfl | hmem
        · exact isProper_of_convert hexit hv
        · exact hfound.proper output hmem
      · split at h
        · exact ih hfound h
        · cases h
  have hempty : Outputs.IsProper [] := ⟨List.Pairwise.nil, List.forall_mem_nil _⟩
  exact hinto hempty h

end Run

end CachedRun
