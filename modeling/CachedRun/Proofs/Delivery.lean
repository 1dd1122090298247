import CachedRun.Proofs.Convert
import CachedRun.Proofs.Json.Double
import CachedRun.Proofs.Time.Millis

/-!
# Delivery — what is delivered is read again

The output of one program may be the input of the next, so what a value is delivered as should be
read as the value. For XML that is a matter of its own, since a document is kept as it came and
delivered in canonical form. All other values but times are delivered as bytes that give **the value
itself** (`ofBytes_toBytes`): numbers in their one spelling, boxes and JSON in the form of documents,
and files as they are.
-/

set_option autoImplicit false

namespace CachedRun

open Json (IsKept IsRepresented Unread)

variable {b : Bytes} {v : Value} {binding : Binding}

/-! ## Texts -/

namespace Decimal

theorem not_isBlank_of_mem_intText {i : Int} {c : Char} (hc : c ∈ intText i) :
    Text.isBlank c = false := by
  rcases isDigit_or_of_mem_intText hc with hdigit | rfl
  · exact Text.isBlank_of_isDigit hdigit
  · rfl

theorem Spelling.not_isBlank_of_mem_text {s : Spelling} {c : Char} (hc : c ∈ s.text) :
    Text.isBlank c = false := by
  have hpoint := s.isDigit_fraction
  rw [text, List.mem_append, List.mem_append] at hc
  -- In turn: the whole part, the fraction and the power, of which the last two may be missing.
  rcases hc with hc | hc | hc
  · exact Text.isBlank_of_isDigit (s.isDigit_whole c hc)
  · cases hfraction : s.fraction with
    | none =>
      rw [hfraction] at hc
      cases hc
    | some f =>
      rw [hfraction] at hc hpoint
      rcases List.mem_cons.mp hc with rfl | hc
      · rfl
      · exact Text.isBlank_of_isDigit (hpoint c hc)
  · cases hpower : s.power with
    | none =>
      rw [hpower] at hc
      cases hc
    | some i =>
      rw [hpower, Option.elim_some, powerText, List.mem_append] at hc
      rcases hc with hc | hc
      · split at hc <;> simp only [List.mem_cons, List.not_mem_nil, or_false] at hc
        · rcases hc with rfl | rfl <;> rfl
        · rw [hc]
          rfl
      · exact not_isBlank_of_mem_intText hc

theorem not_isBlank_of_mem_write {layout : Layout} {d : Double} (hd : d.IsRepresentable) {c : Char}
    (hc : c ∈ layout.write d) : Text.isBlank c = false := by
  have hall {s : List Char} (h : s.all (fun c => !Text.isBlank c) = true) (hc : c ∈ s) :
      Text.isBlank c = false := by simpa using List.all_eq_true.mp h c hc
  cases d with
  | nan => exact hall rfl hc
  | infinite negative => cases negative <;> exact hall rfl hc
  | finite negative mantissa exponent =>
    obtain ⟨s, htext, -⟩ := exists_write layout negative hd
    rw [htext, List.mem_append] at hc
    rcases hc with hc | hc
    · cases negative with
      | true => exact hall (by decide) hc
      | false => cases hc
    · exact s.not_isBlank_of_mem_text hc

end Decimal

namespace Value

theorem trimmed_ofList {s : List Char} (h : Text.Trimmed s) :
    Text.trimmed (String.ofList s) = String.ofList s := by
  rw [Text.trimmed, String.toList_ofList, h.trim_eq]

/-- A number is read from the bytes of its text, if its reader takes the text. -/
theorem readNumeral_bytes {α : Type} {read : List Char → Except Decimal.Flaw α} {s : List Char}
    {x : α} (hs : ∀ c ∈ s, Text.isBlank c = false) (hread : read s = .ok x) :
    readNumeral binding read (Text.bytes (String.ofList s)) = .ok x := by
  rw [readNumeral, readText_bytes]
  simp only [bind, Except.bind]
  rw [trimmed_ofList (.of_forall hs), String.toList_ofList, hread]
  rfl

end Value

/-! ## Documents -/

namespace Json

variable {outline : Unread → Unread} {j : Json}

/-- **A value is read from its text**, if it has numbers that documents give and is not too deep. -/
theorem readAs?_compact (hkept : j.All IsKept) (hrepresented : j.All IsRepresented)
    (hdepth : j.depth ≤ Unread.depthLimit) (houtline : outline j.unread = j.unread) :
    readAs? outline j.compact = some j := by
  have htext := hasText_of_represented hrepresented
  have hvalue := valueWithin?_unread htext (hkept.mono fun _ => IsKept.inRange) Unread.depthLimit
  rw [ReadWithin, if_pos hdepth, asWritten_of_kept hkept] at hvalue
  rw [readAs?, ofPlaces?_compact htext, Option.bind_some, houtline, Unread.value?, hvalue]

/-- **The canonical form of what was read is read from its bytes.** -/
theorem readBytes?_canonical (h : readBytes? b = some j) :
    readBytes? (Text.bytes j.canonical.compact) = some j.canonical := by
  have hkept := (kept_of_readBytes? h).canonical (fun _ => trivial) (fun _ => trivial)
  have hrepresented := (all_of_readBytes? aboutDoubles_isRepresented.toAboutNumbers
    represented_of_value? h).canonical (fun _ => trivial) (fun _ => trivial)
  rw [readBytes?, readBytesAs?_bytes]
  exact readAs?_compact hkept hrepresented
    (j.depth_canonical_le.trans (depth_le_of_readBytes? h)) rfl

end Json

namespace Value

theorem readJson_eq_ok_iff {j : Json} : readJson binding b = .ok j ↔ Json.readBytes? b = some j := by
  unfold readJson
  split
  · rename_i found hread
    rw [hread, Except.ok.injEq, Option.some.injEq]
  · rename_i hread
    rw [hread]
    exact ⟨nofun, nofun⟩

/-! ## One binding after the other -/

/-- What a value is delivered as is read as the value. -/
def ComesBack (binding : Binding) (v : Value) : Prop :=
  ∃ y, v.toBytes = .ok y ∧ ofBytes binding y = .ok v

theorem comesBack_string (h : ofBytes .string b = .ok v) : ComesBack .string v := by
  obtain ⟨s, -, rfl⟩ := Result.map_eq_ok_iff.mp h
  refine ⟨_, rfl, ?_⟩
  rw [ofBytes, readText_bytes]
  rfl

theorem comesBack_int (h : ofBytes .int b = .ok v) : ComesBack .int v := by
  obtain ⟨i, hi, rfl⟩ := Result.map_eq_ok_iff.mp h
  obtain ⟨s, -, hi⟩ := Result.bind_eq_ok_iff.mp hi
  obtain ⟨hleast, hgreatest⟩ := Decimal.mem_range_of_readInt (Result.mapError_eq_ok_iff.mp hi)
  refine ⟨_, rfl, ?_⟩
  rw [ofBytes, readNumeral_bytes (fun c => Decimal.not_isBlank_of_mem_intText)
    (Decimal.readInt_intText hleast hgreatest)]
  rfl

theorem comesBack_double (h : ofBytes .double b = .ok v) : ComesBack .double v := by
  obtain ⟨d, hd, rfl⟩ := Result.map_eq_ok_iff.mp h
  obtain ⟨s, -, hd⟩ := Result.bind_eq_ok_iff.mp hd
  have hd := Decimal.isRepresentable_of_readDouble (Result.mapError_eq_ok_iff.mp hd)
  refine ⟨_, rfl, ?_⟩
  rw [ofBytes, Decimal.literalText, readNumeral_bytes
    (fun c => Decimal.not_isBlank_of_mem_write hd) (Decimal.readDouble_write .literal hd)]
  rfl

theorem comesBack_boolean (h : ofBytes .boolean b = .ok v) : ComesBack .boolean v := by
  obtain ⟨s, -, h⟩ := Result.bind_eq_ok_iff.mp h
  simp only at h
  split_ifs at h
  · cases h
    refine ⟨Text.bytes "true", rfl, ?_⟩
    rw [ofBytes, readText_bytes]
    rfl
  · cases h
    refine ⟨Text.bytes "false", rfl, ?_⟩
    rw [ofBytes, readText_bytes]
    rfl

theorem comesBack_bbox (h : ofBytes .bbox b = .ok v) : ComesBack .bbox v := by
  have hkept := (sound_of_ofBytes h).2
  obtain ⟨s, -, h⟩ := Result.bind_eq_ok_iff.mp h
  obtain ⟨box, rfl, hrepresented⟩ : ∃ box, v = .bbox box ∧ box.toJson.All IsRepresented := by
    split at h
    · rename_i box hfound
      cases h
      obtain ⟨j, hj, hbox⟩ := Option.map_eq_some_iff.mp hfound
      exact ⟨box, rfl, BoundingBox.all_of_ofJson Json.aboutDoubles_isRepresented
        (Json.all_of_readAs? Json.aboutDoubles_isRepresented.toAboutNumbers
          Json.represented_of_value? hj) hbox⟩
    · cases h
    · cases h
  have hdepth : box.toJson.depth ≤ Unread.depthLimit :=
    (depth_contentJson_le (v := .bbox box) (by decide)).mpr (Nat.zero_le _)
  have hread := Json.readAs?_compact hkept hrepresented hdepth box.outline_unread
  refine ⟨_, rfl, ?_⟩
  rw [ofBytes, readText_bytes]
  simp only [bind, Except.bind]
  rw [hread, Option.map_some, box.ofJson_toJson]
  rfl

theorem comesBack_json (h : ofBytes .json b = .ok v) : ComesBack .json v := by
  obtain ⟨j, hj, rfl⟩ := Result.map_eq_ok_iff.mp h
  have hread := Json.readBytes?_canonical (readJson_eq_ok_iff.mp hj)
  refine ⟨_, rfl, ?_⟩
  rw [ofBytes, readJson_eq_ok_iff.mpr hread]
  exact congrArg (Except.ok ∘ json) (Json.canonical_of_ordered j.ordered_canonical)

theorem comesBack_geojson (h : ofBytes .geojson b = .ok v) : ComesBack .geojson v := by
  obtain ⟨j, hj, h⟩ := Result.bind_eq_ok_iff.mp h
  obtain ⟨kind, hkind, h⟩ := Result.bind_eq_ok_iff.mp h
  cases h
  have hread := Json.readBytes?_canonical (readJson_eq_ok_iff.mp hj)
  refine ⟨_, rfl, ?_⟩
  rw [ofBytes, readJson_eq_ok_iff.mpr hread]
  simp only [bind, Except.bind]
  rw [Json.canonical_of_ordered j.ordered_canonical, hkind]
  rfl

theorem comesBack_geotiff (h : ofBytes .geotiff b = .ok v) : ComesBack .geotiff v := by
  have hvalue := h
  rw [ofBytes] at hvalue
  split at hvalue
  · cases hvalue
    exact ⟨b, rfl, h⟩
  · cases hvalue

/-- The content of a layer that comes as bytes is its main file, which is all that is delivered. -/
theorem comesBack_shapefile (h : ofBytes .shapefile b = .ok v) : ComesBack .shapefile v := by
  have hvalue := h
  rw [ofBytes] at hvalue
  split at hvalue
  · cases hvalue
  · cases hvalue
    exact ⟨b, rfl, h⟩

/-- **What is delivered is read as the value that it was delivered for**, whatever the value was read
from: text, numbers, boxes and JSON are delivered in their one spelling, which is the spelling of the
same value, and other content as it is. -/
theorem ofBytes_toBytes (hxml : binding.isXml = false) (htime : binding ≠ .datetime)
    (h : ofBytes binding b = .ok v) : ∃ y, v.toBytes = .ok y ∧ ofBytes binding y = .ok v := by
  cases binding with
  | xml | quakeml | nrml | shakemap => cases hxml
  | datetime => exact absurd rfl htime
  | string => exact comesBack_string h
  | int => exact comesBack_int h
  | double => exact comesBack_double h
  | boolean => exact comesBack_boolean h
  | bbox => exact comesBack_bbox h
  | json => exact comesBack_json h
  | geojson => exact comesBack_geojson h
  | geotiff => exact comesBack_geotiff h
  | shapefile => exact comesBack_shapefile h
  | file =>
    cases h
    exact ⟨b, rfl, rfl⟩

/-- A box may come as an array, and with integers. -/
theorem ofBytes_toBytes_box : ∃ v y,
    ofBytes .bbox (Text.bytes "[[47,-8.50],[48,1e1],\"EPSG:4326\"]") = .ok v ∧
      v.text.toOption = some ("\x7b\"lowerCorner\":[47.0,-8.5],\"upperCorner\":[48.0,10.0]," ++
        "\"crs\":\"EPSG:4326\"\x7d") ∧
      v.toBytes = .ok y ∧ ofBytes .bbox y = .ok v := by
  have hmap : (ofBytes .bbox (Text.bytes "[[47,-8.50],[48,1e1],\"EPSG:4326\"]")).map
      (fun v => v.text.toOption) =
        .ok (some ("\x7b\"lowerCorner\":[47.0,-8.5],\"upperCorner\":[48.0,10.0]," ++
          "\"crs\":\"EPSG:4326\"\x7d")) := by decide +kernel
  obtain ⟨v, hv, htext⟩ := Result.map_eq_ok_iff.mp hmap
  obtain ⟨y, hy, hread⟩ := @ofBytes_toBytes _ v .bbox rfl nofun hv
  exact ⟨v, y, hv, htext, hy, hread⟩

/-! ## Times -/

/-- Bytes are read as the time that their text denotes. -/
theorem ofBytes_datetime_iff {w : Value} : ofBytes .datetime b = .ok w ↔
    ∃ s t, Text.decode b = .ok s ∧ Time.readStrict (Text.trimmed s).toList = some t ∧
      w = .datetime t := by
  rw [ofBytes, readText]
  cases Text.decode b with
  | error flaw =>
    constructor
    · rintro ⟨⟩
    · rintro ⟨s, t, ⟨⟩, -⟩
  | ok s =>
    simp only [Except.mapError, bind, Except.bind]
    -- The bytes are text, so it is left to the time whether there is a value.
    cases hread : Time.readStrict (Text.trimmed s).toList with
    | none =>
      constructor
      · rintro ⟨⟩
      · rintro ⟨s', t, ⟨⟩, ht, -⟩
        rw [hread] at ht
        cases ht
    | some t =>
      constructor
      · rintro ⟨⟩
        exact ⟨s, t, rfl, hread, rfl⟩
      · rintro ⟨s', t', ⟨⟩, ht, rfl⟩
        rw [hread] at ht
        cases ht
        rfl

/-- **A time is delivered up to the millisecond, and what is delivered is read again exactly if its
year in UTC has four digits.** With an offset, times of the years 0 and 9999 may lie beyond. -/
theorem ofBytes_toBytes_datetime (h : ofBytes .datetime b = .ok v) : ∃ t y,
    v = .datetime t ∧ v.toBytes = .ok y ∧
      ((∃ w, ofBytes .datetime y = .ok w) ↔ 0 ≤ t.date.year ∧ t.date.year ≤ 9999) ∧
      ∀ w, ofBytes .datetime y = .ok w → w = .datetime t.wholeMillis := by
  obtain ⟨s, t, -, hread, rfl⟩ := ofBytes_datetime_iff.mp h
  have hback := Time.readStrict_toMillis (Time.isProper_of_readStrict hread)
  have hdelivered (w : Value) : ofBytes .datetime (Text.bytes (Time.toMillis t)) = .ok w ↔
      (0 ≤ t.date.year ∧ t.date.year ≤ 9999) ∧ w = .datetime t.wholeMillis := by
    simp only [ofBytes_datetime_iff, Text.decode_bytes, Except.ok.injEq, exists_and_left,
      exists_eq_left', Time.trimmed_toMillis, hback, Option.ite_none_right_eq_some,
      Option.some.injEq]
    constructor
    · rintro ⟨_, ⟨hyear, rfl⟩, rfl⟩
      exact ⟨hyear, rfl⟩
    · rintro ⟨hyear, rfl⟩
      exact ⟨_, ⟨hyear, rfl⟩, rfl⟩
  refine ⟨t, Text.bytes (Time.toMillis t), rfl, rfl, ?_, fun w hw => ((hdelivered w).mp hw).2⟩
  exact ⟨fun ⟨w, hw⟩ => ((hdelivered w).mp hw).1, fun hyear => ⟨_, (hdelivered _).mpr ⟨hyear, rfl⟩⟩⟩

/-- Half past midnight in the zone is half past eleven of the day before, a leap day's eve. -/
theorem ofBytes_toBytes_eve : ∃ y,
    ofBytes .datetime (Text.bytes "2020-02-29T00:30:00.1239+01:00") =
        .ok (.datetime ⟨1582932600, 123900000⟩) ∧
      (Value.datetime ⟨1582932600, 123900000⟩).toBytes = .ok y ∧
      ofBytes .datetime y = .ok (.datetime ⟨1582932600, 123000000⟩) := by
  have hread : ofBytes .datetime (Text.bytes "2020-02-29T00:30:00.1239+01:00") =
      .ok (.datetime ⟨1582932600, 123900000⟩) :=
    ofBytes_datetime_iff.mpr ⟨_, _, Text.decode_bytes _, by decide +kernel, rfl⟩
  obtain ⟨t, y, ht, hy, hyear, hback⟩ := ofBytes_toBytes_datetime hread
  cases ht
  obtain ⟨w, hw⟩ := hyear.mpr (by decide +kernel)
  exact ⟨y, hread, hy, hback w hw ▸ hw⟩

/-- The last hour of the year 9999 west of Greenwich: in UTC the year has five digits and a sign. -/
theorem year_with_sign_refused : ∃ y,
    ofBytes .datetime (Text.bytes "9999-12-31T23:59:59-01:00") =
        .ok (.datetime ⟨253402304399, 0⟩) ∧
      (Value.datetime ⟨253402304399, 0⟩).toBytes = .ok y ∧
      y = Text.bytes "+10000-01-01T00:59:59.000Z" ∧ ∀ w, ofBytes .datetime y ≠ .ok w := by
  have htext : Time.toMillis ⟨253402304399, 0⟩ = "+10000-01-01T00:59:59.000Z" := by decide +kernel
  refine ⟨_, ofBytes_datetime_iff.mpr ⟨_, _, Text.decode_bytes _, by decide +kernel, rfl⟩,
    congrArg (Except.ok ∘ Text.bytes) htext, rfl, fun w hw => ?_⟩
  obtain ⟨s, t, hs, hread, -⟩ := ofBytes_datetime_iff.mp hw
  rw [Text.decode_bytes] at hs
  cases hs
  have hnone : Time.readStrict (Text.trimmed "+10000-01-01T00:59:59.000Z").toList = none := by
    decide +kernel
  rw [hnone] at hread
  cases hread

end Value

end CachedRun
