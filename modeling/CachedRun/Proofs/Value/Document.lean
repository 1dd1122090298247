import CachedRun.Proofs.Json.Written
import CachedRun.Proofs.Time.Rfc3339
import CachedRun.Value.Outline

/-!
# Values in documents — what is written is the value

A value is read from the form that documents hold as the value it was (`Value.ofJson_toJson`). This
is so of values that are `IsProper`: integers and times are in range, a box has finite corners,
tables are in order and JSON is in canonical form. Conversions give no others.

The outlines, which say what is read of a document, leave nothing of a written value out
(`Value.outline_unread`).
-/

set_option autoImplicit false

namespace CachedRun

open Json (HasOrder IsKept InRange Unread)

/-- A value that conversions can give. -/
def Value.IsProper : Value → Prop
  | .int i => Value.leastInt ≤ i ∧ i ≤ Value.greatestInt
  | .datetime time => time.IsProper
  | .bbox box => box.toJson.All IsKept
  | .geojson j | .json j => j.All HasOrder ∧ j.All IsKept
  | .shapefile layer => Dict.Sorted layer.parts
  | _ => True

namespace Json

variable {fields : List (String × Json)} {name : String} {content : Json}

/-! ## Parts of documents -/

theorem kept_ofBytes (b : Bytes) : (ofBytes b).All IsKept := by
  refine all_array_iff.mpr ⟨trivial, List.forall_mem_map.mpr fun byte _ => ?_⟩
  have hbyte := byte.toNat_lt
  show -(2 ^ 63 : Int) ≤ _ ∧ _ < (2 ^ 64 : Int)
  omega

theorem asByte_toNat (byte : UInt8) : asByte (.integer byte.toNat) = .ok byte := by
  have hbyte := byte.toNat_lt
  have hrange : (0 : Int) ≤ byte.toNat ∧ (byte.toNat : Int) ≤ 255 := by omega
  rw [asByte, asInt, if_pos hrange]
  simp [Except.map]

theorem asBytes_ofBytes (b : Bytes) : (ofBytes b).asBytes = .ok b := by
  rw [ofBytes, asBytes]
  induction b with
  | nil => rfl
  | cons byte b ih =>
    rw [List.map_cons, List.mapM_cons, asByte_toNat, ih]
    rfl

end Json

theorem BoundingBox.ofJson_toJson (box : BoundingBox) : ofJson box.toJson = .ok box := by
  obtain ⟨lower, upper, crs⟩ := box
  cases crs with
  | none => rfl
  | some crs => rfl

theorem Shapefile.ofJson_toJson {layer : Shapefile} (h : Dict.Sorted layer.parts) :
    ofJson layer.toJson = .ok layer := by
  have hparts : (layer.parts.map fun part : String × Bytes => (part.1, Json.ofBytes part.2)).mapM
      (fun part : String × Json => part.2.asBytes.map fun b => (part.1, b)) =
        (.ok layer.parts : Except Json.Mismatch (Dict Bytes)) := by
    induction layer.parts with
    | nil => rfl
    | cons part parts ih =>
      rw [List.map_cons, List.mapM_cons, ih]
      simp only [Json.asBytes_ofBytes]
      rfl
  have hread : ofJson layer.toJson =
      ((layer.parts.map fun part : String × Bytes => (part.1, Json.ofBytes part.2)).mapM
        fun part : String × Json => part.2.asBytes.map fun b => (part.1, b)).bind
          fun files => .ok ⟨Dict.ofList files⟩ := rfl
  rw [hread, hparts]
  show Except.ok (Shapefile.mk (Dict.ofList layer.parts)) = _
  rw [Dict.ofList_of_sorted h]

theorem Shapefile.kept_toJson (layer : Shapefile) : layer.toJson.All IsKept := by
  refine Json.all_object_iff.mpr ⟨trivial, List.forall_mem_singleton.mpr ?_⟩
  refine Json.all_object_iff.mpr ⟨trivial, List.forall_mem_map.mpr fun part _ => ?_⟩
  exact Json.kept_ofBytes part.2

/-! ## Values -/

namespace Value

variable {v : Value}

theorem ofContent_contentJson (hv : v.IsProper) : ofContent v.binding v.contentJson = .ok v := by
  cases v with
  | string s | xml s | quakeml s | nrml s | shakemap s | double d | boolean b => rfl
  | int i => exact congrArg (Except.map Value.int) (if_pos hv)
  | datetime t =>
    show (readTime (.string (Time.toShortest t))).map Value.datetime = _
    rw [readTime, Time.readRelaxed_toShortest hv]
    rfl
  | bbox box => exact congrArg (Except.map Value.bbox) box.ofJson_toJson
  | geotiff b => exact congrArg (Except.map Value.geotiff) (Json.asBytes_ofBytes b)
  | file b => exact congrArg (Except.map Value.file) (Json.asBytes_ofBytes b)
  | geojson j => exact congrArg (Except.ok ∘ Value.geojson) (Json.canonical_of_ordered hv.1)
  | json j => exact congrArg (Except.ok ∘ Value.json) (Json.canonical_of_ordered hv.1)
  | shapefile layer => exact congrArg (Except.map Value.shapefile) (Shapefile.ofJson_toJson hv)

theorem bindingOfJson_key (binding : Binding) :
    bindingOfJson (.string binding.key) = .ok binding := by
  rw [bindingOfJson, bindingOfKey, Binding.ofKey?_key]

/-- The two fields of a value are found in it. -/
theorem ofJson_fields (binding : Binding) (content : Json) :
    ofJson (.object [("type", .string binding.key), ("value", content)]) =
      ofContent binding content := by
  have hread : ofJson (.object [("type", .string binding.key), ("value", content)]) =
      (bindingOfJson (.string binding.key)).bind fun binding => ofContent binding content := rfl
  rw [hread, bindingOfJson_key]
  rfl

/-- **A value is read from its document.** -/
theorem ofJson_toJson (hv : v.IsProper) : ofJson v.toJson = .ok v := by
  rw [toJson, ofJson_fields, ofContent_contentJson hv]

/-- No double beyond the finite ones. -/
def isFinite : Value → Bool
  | .double d => d.isFinite
  | _ => true

theorem kept_contentJson (hv : v.IsProper) (hfinite : v.isFinite = true) :
    v.contentJson.All IsKept := by
  cases v with
  | string s | xml s | quakeml s | nrml s | shakemap s | boolean b | datetime t => trivial
  | int i =>
    obtain ⟨hleast, hgreatest⟩ := hv
    rw [leastInt] at hleast
    rw [greatestInt] at hgreatest
    show -(2 ^ 63 : Int) ≤ i ∧ i < (2 ^ 64 : Int)
    omega
  | double d => exact hfinite
  | bbox box => exact hv
  | geotiff b | file b => exact Json.kept_ofBytes b
  | geojson j | json j => exact hv.2
  | shapefile layer => exact layer.kept_toJson

/-- **What is left of a value in a document is the value, if it is finite.** A double that is not is
left as `null`, which is no value of its binding. -/
theorem ofJson?_asWritten (hv : v.IsProper) :
    ofJson? v.toJson.asWritten = if v.isFinite then some v else none := by
  have hread : ofJson? v.toJson.asWritten =
      (ofContent v.binding v.contentJson.asWritten).toOption := by
    rw [← ofJson_fields]
    rfl
  rw [hread]
  by_cases hfinite : v.isFinite = true
  · -- All numbers of it are finite then, also those inside boxes and JSON.
    rw [Json.asWritten_of_kept (kept_contentJson hv hfinite), ofContent_contentJson hv,
      if_pos hfinite]
    rfl
  · rw [if_neg hfinite]
    cases v with
    | double d =>
      have hnull : (Json.double d).asWritten = .null := if_neg hfinite
      rw [contentJson, hnull]
      rfl
    | _ => exact absurd rfl hfinite

theorem inRange_toJson (hv : v.IsProper) : v.toJson.All InRange := by
  refine Json.all_object_iff.mpr ⟨trivial, ?_⟩
  rw [List.forall_mem_cons, List.forall_mem_singleton]
  refine ⟨trivial, ?_⟩
  by_cases hfinite : v.isFinite = true
  · exact (kept_contentJson hv hfinite).mono fun j => IsKept.inRange
  · cases v with
    | double d => trivial
    | _ => exact absurd rfl hfinite

/-! ## Depth -/

/-- How many containers lie in each other in the JSON of a value. -/
def nesting : Value → Nat
  | .geojson j | .json j => j.depth
  | _ => 0

theorem depth_ofBytes_le (b : Bytes) : (Json.ofBytes b).depth ≤ 1 :=
  Json.depth_array_le_iff.mpr (List.forall_mem_map.mpr fun _ _ => le_refl 0)

/-- Values that hold no JSON are written with at most three containers in each other. -/
theorem depth_contentJson_le {n : Nat} (hn : 3 ≤ n) :
    v.contentJson.depth ≤ n ↔ v.nesting ≤ n := by
  -- Where there is no JSON inside, both sides are true.
  have hsmall {m : Nat} (hm : v.contentJson.depth ≤ m) (hle : m ≤ 3) (hv : v.nesting = 0) :
      v.contentJson.depth ≤ n ↔ v.nesting ≤ n := by
    omega
  cases v with
  | string s | xml s | quakeml s | nrml s | shakemap s | int i | double d | boolean b
  | datetime t => exact hsmall (le_refl 0) (by decide) rfl
  | bbox box =>
    obtain ⟨lower, upper, crs⟩ := box
    refine @hsmall 2 ?_ (by decide) rfl
    cases crs with
    | none => exact (by decide : 2 ≤ 2)
    | some crs => exact (by decide : 2 ≤ 2)
  | geotiff b | file b => exact hsmall (depth_ofBytes_le b) (by decide) rfl
  | geojson j | json j => rfl
  | shapefile layer =>
    refine @hsmall 3 ?_ (le_refl 3) rfl
    refine Json.depth_object_le_iff.mpr (List.forall_mem_singleton.mpr ?_)
    refine Json.depth_object_le_iff.mpr (List.forall_mem_map.mpr fun part _ => ?_)
    exact depth_ofBytes_le part.2

theorem depth_toJson_le {n : Nat} (hn : 3 ≤ n) : v.toJson.depth ≤ n + 1 ↔ v.nesting ≤ n := by
  rw [toJson, Json.depth_object_le_iff, List.forall_mem_cons, List.forall_mem_singleton,
    depth_contentJson_le hn]
  exact and_iff_right (Nat.zero_le n)

end Value

/-! ## Outlines -/

/-- An outline that leaves the contents of all fields as they are leaves the object as it is. -/
theorem Json.mapFields_unread {fields : List (String × Json)} {content : String → Unread → Unread}
    (h : ∀ f ∈ fields, content f.1 f.2.unread = f.2.unread) :
    (Json.object fields).unread.mapFields content = (Json.object fields).unread := by
  rw [Json.unread, Json.unreadFields_eq, Unread.mapFields, List.map_map]
  refine congrArg Unread.object (List.map_congr_left fun f hf => ?_)
  rw [Function.comp_apply]
  simp only [Json.Letters.text?_ofString, h f hf]

theorem Json.keeping_unread {fields : List (String × Json)} {names : List String}
    (h : fields.map Prod.fst ⊆ names) :
    (Json.object fields).unread.keeping names = (Json.object fields).unread :=
  Json.mapFields_unread fun _ hf => if_pos (h (List.mem_map_of_mem hf))

theorem BoundingBox.outline_unread (box : BoundingBox) :
    outline box.toJson.unread = box.toJson.unread := by
  obtain ⟨lower, upper, crs⟩ := box
  refine Json.keeping_unread ?_
  cases crs with
  | none =>
    exact (by decide : ["lowerCorner", "upperCorner"] ⊆ ["lowerCorner", "upperCorner", "crs"])
  | some crs => exact List.Subset.refl ["lowerCorner", "upperCorner", "crs"]

theorem Shapefile.outline_unread (layer : Shapefile) :
    outline layer.toJson.unread = layer.toJson.unread :=
  Json.keeping_unread (List.Subset.refl ["parts"])

namespace Value

theorem contentOutline_unread (v : Value) :
    contentOutline (some v.binding) v.contentJson.unread = v.contentJson.unread := by
  cases v with
  | bbox box => exact box.outline_unread
  | shapefile layer => exact layer.outline_unread
  | _ => rfl

theorem namedBinding?_key (binding : Binding) :
    namedBinding? (Json.string binding.key).unread = some binding := by
  have hvalue : (Json.string binding.key).unread.value? = some (.string binding.key) := by
    show (Json.Letters.ofString binding.key).text?.map _ = _
    rw [Json.Letters.text?_ofString]
    rfl
  rw [namedBinding?, hvalue, Option.bind_some, bindingOfJson_key]
  rfl

/-- **Of a written value everything is read.** -/
theorem outline_unread (v : Value) : outline v.toJson.unread = v.toJson.unread := by
  show Unread.object (fieldOutlines none [(.ofString "type", (Json.string v.binding.key).unread),
    (.ofString "value", v.contentJson.unread)]) = _
  rw [fieldOutlines, Json.Letters.text?_ofString]
  simp only
  rw [namedBinding?_key, fieldOutlines, Json.Letters.text?_ofString]
  simp only
  rw [contentOutline_unread]
  rfl

end Value

end CachedRun
