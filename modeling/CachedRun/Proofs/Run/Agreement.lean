import CachedRun.Proofs.Result
import CachedRun.Proofs.Run.Assembly

/-!
# Agreement — where a key fails, the run fails alike

A key is made before the program is run, by a walk of its own over the inputs and the outputs. If
the two walks judged a request differently, a request could be refused that would have run, or a key
could be made for a request that cannot be run. `key_agrees_with_run` says how far they agree: **if
there is a key there is a run; a value that cannot be converted and an input that is delivered
nowhere are the same fault in both; and without a run there is no key.** What only the key looks at
are generated files that nobody is told of, the outputs that were not asked for, and the names of
the handlers.

The two walks have steps of different shape, so they are compared step by step: `Foretells` is what
one step must do for the other, it composes along binds (`Foretells.bind`), and the walk over the
inputs is an induction that puts `foretells_input` together.
-/

set_option autoImplicit false

namespace CachedRun

open Result

/-- The faults of a request that both walks look for: a value that cannot be converted, and an input
that is delivered nowhere. -/
def Fault.IsOfInput : Fault → Prop
  | .conversion _ _ => True
  | .missingMechanism _ direction => direction = "input"
  | _ => False

/-- One computation tells of another: if it succeeds so does the other, and a fault of an input in it
is the fault of the other. -/
structure Foretells {α β : Type} (x : Except Fault α) (y : Except Fault β) : Prop where
  ok : ∀ a, x = .ok a → ∃ b, y = .ok b
  fault : ∀ fault, fault.IsOfInput → x = .error fault → y = .error fault

namespace Foretells

variable {α β γ δ : Type} {x : Except Fault α} {y : Except Fault β}

theorem refl (x : Except Fault α) : Foretells x x where
  ok a h := ⟨a, h⟩
  fault _ _ h := h

theorem of_ok (a : α) (b : β) : Foretells (.ok a) (.ok b) where
  ok _ _ := ⟨b, rfl⟩
  fault _ _ h := by cases h

theorem map (h : Foretells x y) (f : α → γ) (g : β → δ) : Foretells (x.map f) (y.map g) where
  ok c hc := by
    obtain ⟨a, ha, -⟩ := map_eq_ok_iff.mp hc
    obtain ⟨b, hb⟩ := h.ok a ha
    exact ⟨g b, map_eq_ok_iff.mpr ⟨b, hb, rfl⟩⟩
  fault fault hinput hx := by
    rw [map_eq_error_iff] at hx ⊢
    exact h.fault fault hinput hx

/-- **Binds keep step** if their computations do. -/
theorem bind (h : Foretells x y) {f : α → Except Fault γ} {g : β → Except Fault δ}
    (hrest : ∀ a b, x = .ok a → y = .ok b → Foretells (f a) (g b)) :
    Foretells (x >>= f) (y >>= g) where
  ok c hc := by
    obtain ⟨a, ha, hfa⟩ := bind_eq_ok_iff.mp hc
    obtain ⟨b, hb⟩ := h.ok a ha
    obtain ⟨d, hd⟩ := (hrest a b ha hb).ok c hfa
    exact ⟨d, bind_eq_ok_iff.mpr ⟨b, hb, hd⟩⟩
  fault fault hinput hx := by
    rw [bind_eq_error_iff] at hx ⊢
    rcases hx with hfirst | ⟨a, ha, hfa⟩
    · exact .inl (h.fault fault hinput hfirst)
    · obtain ⟨b, hb⟩ := h.ok a ha
      exact .inr ⟨b, hb, (hrest a b ha hb).fault fault hinput hfa⟩

/-- A step in front that the other computation has no counterpart for. -/
theorem after {f : α → Except Fault γ} (hfault : ∀ fault, x = .error fault → ¬ fault.IsOfInput)
    (hrest : ∀ a, x = .ok a → Foretells (f a) y) : Foretells (x >>= f) y where
  ok c hc := by
    obtain ⟨a, ha, hfa⟩ := bind_eq_ok_iff.mp hc
    exact (hrest a ha).ok c hfa
  fault fault hinput hx := by
    rcases bind_eq_error_iff.mp hx with hfirst | ⟨a, ha, hfa⟩
    · exact absurd hinput (hfault fault hfirst)
    · exact (hrest a ha).fault fault hinput hfa

end Foretells

/-! ## One input -/

/-- Where files are written does not matter to whether they can be. -/
theorem Value.foretells_toFiles (v : Value) (path path' : String) :
    Foretells (v.toFiles path) (v.toFiles path') := by
  by_cases hlayer : v.binding = .shapefile
  · obtain ⟨layer, rfl⟩ := Value.eq_shapefile hlayer
    apply (Foretells.refl (mainFile layer)).bind
    intro _ _ _ _
    exact .of_ok _ _
  · rw [Value.toFiles_of_binding_ne hlayer, Value.toFiles_of_binding_ne hlayer]
    exact (Foretells.refl v.toBytes).map _ _

/-- The content of a value is folded into a key as it is delivered to the program. -/
theorem foretells_content (binding : Binding) (delivery : Delivery) (unique : String) (v : Value) :
    Foretells (Key.contentFields delivery v) (Run.partOf binding delivery unique v) := by
  cases delivery with
  | argument flag => exact (Foretells.refl (v.arguments flag)).map _ _
  | stdin => exact (Foretells.refl v.toBytes).map _ _
  | file path argument =>
    have hfiles := v.foretells_toFiles Key.fileStem (path.resolve binding unique)
    constructor
    · intro l hl
      obtain ⟨files, hkey, -⟩ := map_eq_ok_iff.mp hl
      obtain ⟨moved, hrun⟩ := hfiles.ok files hkey
      exact ⟨_, bind_eq_ok_iff.mpr ⟨moved, hrun, rfl⟩⟩
    · intro fault hinput hl
      apply bind_eq_error_iff.mpr
      exact .inl (hfiles.fault fault hinput (map_eq_error_iff.mp hl))

/-- That a file is told to nobody is no fault of an input. -/
theorem not_isOfInput_of_deliveryField {id : String} {delivery : Delivery} {fault : Fault}
    (h : Key.deliveryField id delivery = .error fault) : ¬ fault.IsOfInput := by
  unfold Key.deliveryField at h
  split at h <;> cases h
  exact not_false

theorem foretells_input (unique : String) (p : InputParameter) (v : Option Value) :
    Foretells (Key.inputFields p v) (Run.inputPart unique p v) := by
  -- Both walks look for the delivery first.
  apply (Foretells.refl p.delivery).bind
  intro delivery delivery' hdelivery hdelivery'
  obtain rfl : delivery = delivery' := by
    rw [hdelivery] at hdelivery'
    exact Except.ok.inj hdelivery'
  apply Foretells.after
  · intro fault hfault
    exact not_isOfInput_of_deliveryField hfault
  intro field _
  cases v with
  | none => exact .of_ok _ _
  | some v =>
    have hvalue := (foretells_content p.binding delivery unique v).map
      (.text "value.binding" v.binding.key :: ·) id
    constructor
    · intro l hl
      obtain ⟨fields, hfields, -⟩ := bind_eq_ok_iff.mp hl
      obtain ⟨part, hpart⟩ := hvalue.ok fields hfields
      obtain ⟨part, hpart, -⟩ := map_eq_ok_iff.mp hpart
      exact ⟨part, hpart⟩
    · intro fault hinput hl
      rcases bind_eq_error_iff.mp hl with hfault | ⟨_, -, hnever⟩
      · exact map_eq_error_iff.mp (hvalue.fault fault hinput hfault)
      · cases hnever

/-! ## All inputs, and the outputs -/

theorem foretells_inputs (unique : Nat → String) (inputs : Inputs) (place : Nat)
    (ps : List InputParameter) :
    Foretells (ps.mapM fun p => Key.inputFields p (inputs.first? p.id))
      (Run.inputParts unique inputs place ps) := by
  induction ps generalizing place with
  | nil => exact .of_ok _ _
  | cons p ps ih =>
    rw [List.mapM_cons, Run.inputParts]
    apply (foretells_input (unique place) p _).bind
    intro _ _ _ _
    apply (ih (place + 1)).bind
    intro _ _ _ _
    exact .of_ok _ _

/-- A fault of an output is not one of an input. -/
theorem not_isOfInput_of_outputFields {p : OutputParameter} {fault : Fault}
    (h : Key.outputFields p = .error fault) : ¬ fault.IsOfInput := by
  rcases bind_eq_error_iff.mp h with hcollection | ⟨_, -, hnever⟩
  · unfold OutputParameter.collection at hcollection
    split at hcollection <;> cases hcollection
    have hother : "output" ≠ "input" := by decide
    exact hother
  · cases hnever

theorem exists_outputFiles {p : OutputParameter} {l : List Key.Field}
    (h : Key.outputFields p = .ok l) : ∃ paths, Run.outputFiles p = .ok paths := by
  obtain ⟨x, hx, -⟩ := Key.outputFields_ok_iff.mp h
  exact ⟨x.paths, Run.outputFiles_of_facts hx⟩

/-- The key folds all outputs and the run fetches some of them. -/
theorem foretells_outputs (ps : List OutputParameter) (asked : OutputParameter → Bool) :
    Foretells (ps.mapM Key.outputFields) ((ps.filter asked).mapM Run.outputFiles) := by
  constructor
  · intro ls hls
    rw [mapM_ok_iff] at hls
    induction hls with
    | nil => exact ⟨[], rfl⟩
    | @cons p l ps ls hp _ ih =>
      obtain ⟨rest, hrest⟩ := ih
      rw [List.filter_cons]
      split
      · obtain ⟨paths, hpaths⟩ := exists_outputFiles hp
        rw [mapM_ok_iff] at hrest
        exact ⟨paths :: rest, mapM_ok_iff.mpr (.cons hpaths hrest)⟩
      · exact ⟨rest, hrest⟩
  · intro fault hinput hls
    obtain ⟨p, -, hp⟩ := mem_of_mapM_error hls
    exact absurd hinput (not_isOfInput_of_outputFields hp)

theorem not_isOfInput_of_handlerFields {registry : Registry} {c : Configuration}
    {slots : List Slot} {fault : Fault}
    (h : (slots.mapM fun slot => Key.handlerField registry slot (c.handlerName slot)) =
      .error fault) : ¬ fault.IsOfInput := by
  obtain ⟨slot, -, hslot⟩ := mem_of_mapM_error h
  unfold Key.handlerField at hslot
  split at hslot
  · cases hslot
  · split at hslot <;> cases hslot
    exact not_false

/-! ## The whole request -/

section

variable (registry : Registry) (c : Configuration) (environment : Key.Environment)
  (inputs : Inputs) (requested : List String) (unique : Nat → String)

theorem foretells_assemble :
    Foretells (Key.ofRequest registry c environment inputs requested)
      (Run.assemble unique c inputs (Run.selected c requested)) := by
  have hfields : Foretells (Key.fields registry c environment inputs requested)
      (Run.assemble unique c inputs (Run.selected c requested)) := by
    apply (foretells_inputs unique inputs 0 c.inputs).bind
    intro _ _ _ _
    apply (foretells_outputs c.outputs _).bind
    intro _ _ _ _
    -- The handlers come last, and the run does not look at their names.
    apply Foretells.after
    · intro fault hfault
      exact not_isOfInput_of_handlerFields hfault
    · intro _ _
      exact .of_ok _ _
  constructor
  · intro key hkey
    obtain ⟨l, hl, -⟩ := map_eq_ok_iff.mp hkey
    exact hfields.ok l hl
  · intro fault hinput hkey
    exact hfields.fault fault hinput (map_eq_error_iff.mp hkey)

/-- **A key and a run agree on faults.** Where there is a key the request can be assembled, whatever
names are generated. A value that cannot be converted, and an input that is delivered nowhere, are
the same fault in both. And where the request cannot be assembled there is no key. -/
theorem key_agrees_with_run :
    (∀ key, Key.ofRequest registry c environment inputs requested = .ok key →
      ∃ request, Run.assemble unique c inputs (Run.selected c requested) = .ok request) ∧
    (∀ fault, (∃ binding reason, fault = .conversion binding reason) ∨
        (∃ id, fault = .missingMechanism id "input") →
      Key.ofRequest registry c environment inputs requested = .error fault →
      Run.assemble unique c inputs (Run.selected c requested) = .error fault) ∧
    (∀ fault, Run.assemble unique c inputs (Run.selected c requested) = .error fault →
      ∃ fault', Key.ofRequest registry c environment inputs requested = .error fault') := by
  have hforetells := foretells_assemble registry c environment inputs requested unique
  refine ⟨hforetells.ok, ?_, ?_⟩
  · intro fault hkind hkey
    apply hforetells.fault fault ?_ hkey
    rcases hkind with ⟨binding, reason, rfl⟩ | ⟨id, rfl⟩
    · exact True.intro
    · exact rfl
  -- A key would be one of a request that can be assembled.
  · intro fault hrun
    cases hkey : Key.ofRequest registry c environment inputs requested with
    | error fault' => exact ⟨fault', rfl⟩
    | ok key =>
      obtain ⟨request, hok⟩ := hforetells.ok key hkey
      rw [hrun] at hok
      cases hok

end

end CachedRun
