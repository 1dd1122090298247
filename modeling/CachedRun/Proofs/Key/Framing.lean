import CachedRun.Key
import Mathlib.Algebra.Group.Nat.Defs

/-!
# Framing — a stream is cut in one way only

`Field.bytes` puts a length before each tag and each value, and `stream` writes the fields one after
the other. This file proves what `Key/Field.lean` says about that: **a byte sequence is the stream
of at most one list of fields**, as long as no length needs more than the eight bytes it is given.

The notion that carries it is `PrefixFree`. It is stated for renderings into lists of anything and
not for bytes, because the same argument is made twice: once for fields among bytes (here), and once
for the parts of a request among fields (`Proofs/Key/Facts.lean`).

The class `P` of a prefix-free rendering is where the eight bytes are accounted for. `bigEndian64`
forgets everything from `2 ^ 64` on, so without it no statement below would hold.
-/

set_option autoImplicit false

namespace CachedRun.Key

/-! ## Prefix-free renderings -/

/-- On the values of a class, a rendering can be split off the front of whatever follows it. -/
def PrefixFree {α β : Type} (P : α → Prop) (f : α → List β) : Prop :=
  ∀ {a b : α} {s t : List β}, P a → P b → f a ++ s = f b ++ t → a = b ∧ s = t

/-- Renderings one after the other, of two lists that are equally long. -/
theorem PrefixFree.counted {α β : Type} {P : α → Prop} {f : α → List β} (hf : PrefixFree P f) :
    ∀ {l m : List α} {s t : List β}, l.length = m.length → (∀ a ∈ l, P a) → (∀ a ∈ m, P a) →
      l.flatMap f ++ s = m.flatMap f ++ t → l = m ∧ s = t
  | [], [], _, _, _, _, _, h => ⟨rfl, by simpa using h⟩
  | [], _ :: _, _, _, hlen, _, _, _ => absurd hlen (by simp)
  | _ :: _, [], _, _, hlen, _, _, _ => absurd hlen (by simp)
  | a :: l, b :: m, s, t, hlen, hl, hm, h => by
    rw [List.flatMap_cons, List.flatMap_cons, List.append_assoc, List.append_assoc] at h
    obtain ⟨hab, hrest⟩ := hf (hl a List.mem_cons_self) (hm b List.mem_cons_self) h
    obtain ⟨htail, hst⟩ := hf.counted (by simpa using hlen)
      (fun x hx => hl x (List.mem_cons_of_mem a hx))
      (fun x hx => hm x (List.mem_cons_of_mem b hx)) hrest
    exact ⟨by rw [hab, htail], hst⟩

/-- Renderings one after the other up to the end. No count is needed when none is empty. -/
theorem PrefixFree.flatMap_inj {α β : Type} {P : α → Prop} {f : α → List β}
    (hf : PrefixFree P f) (hne : ∀ a, f a ≠ []) :
    ∀ {l m : List α}, (∀ a ∈ l, P a) → (∀ a ∈ m, P a) → l.flatMap f = m.flatMap f → l = m
  | [], [], _, _, _ => rfl
  | [], b :: m, _, _, h => by
    rw [List.flatMap_nil, List.flatMap_cons] at h
    exact absurd (List.append_eq_nil_iff.mp h.symm).1 (hne b)
  | a :: l, [], _, _, h => by
    rw [List.flatMap_nil, List.flatMap_cons] at h
    exact absurd (List.append_eq_nil_iff.mp h).1 (hne a)
  | a :: l, b :: m, hl, hm, h => by
    rw [List.flatMap_cons, List.flatMap_cons] at h
    obtain ⟨hab, hrest⟩ := hf (hl a List.mem_cons_self) (hm b List.mem_cons_self) h
    have htail := hf.flatMap_inj hne
      (fun x hx => hl x (List.mem_cons_of_mem a hx))
      (fun x hx => hm x (List.mem_cons_of_mem b hx)) hrest
    rw [hab, htail]

/-! ## Lengths -/

theorem length_bigEndian64 (n : Nat) : (Digest.bigEndian64 n).length = 8 := rfl

theorem shift_eq_of_byte_eq {m n : Nat} (s : Nat) (hhigh : m / 2 ^ (s + 8) = n / 2 ^ (s + 8))
    (hbyte : m / 2 ^ s % 2 ^ 8 = n / 2 ^ s % 2 ^ 8) : m / 2 ^ s = n / 2 ^ s := by
  rw [Nat.pow_add, ← Nat.div_div_eq_div_mul, ← Nat.div_div_eq_div_mul] at hhigh
  omega

/-- Eight bytes tell the numbers below `2 ^ 64` apart. -/
theorem bigEndian64_inj {m n : Nat} (hm : m < 2 ^ 64) (hn : n < 2 ^ 64)
    (h : Digest.bigEndian64 m = Digest.bigEndian64 n) : m = n := by
  simp only [Digest.bigEndian64, List.map_cons, List.map_nil, List.cons.injEq, and_true,
    ← UInt8.toNat_inj, UInt8.toNat_ofNat', Nat.pow_eq] at h
  obtain ⟨h₇, h₆, h₅, h₄, h₃, h₂, h₁, h₀⟩ := h
  -- From the most significant byte down, the numbers agree from there on.
  have htop : m / 2 ^ (56 + 8) = n / 2 ^ (56 + 8) := by
    rw [Nat.div_eq_of_lt hm, Nat.div_eq_of_lt hn]
  have hall := shift_eq_of_byte_eq 0 (shift_eq_of_byte_eq 8 (shift_eq_of_byte_eq 16
    (shift_eq_of_byte_eq 24 (shift_eq_of_byte_eq 32 (shift_eq_of_byte_eq 40
      (shift_eq_of_byte_eq 48 (shift_eq_of_byte_eq 56 htop h₇) h₆) h₅) h₄) h₃) h₂) h₁) h₀
  rwa [Nat.pow_zero, Nat.div_one, Nat.div_one] at hall

theorem sized_prefixFree : PrefixFree (fun b : Bytes => b.length < 2 ^ 64) Field.sized := by
  intro a b s t ha hb h
  simp only [Field.sized, List.append_assoc] at h
  obtain ⟨hsize, hrest⟩ := List.append_inj h (by simp [length_bigEndian64])
  exact List.append_inj hrest (bigEndian64_inj ha hb hsize)

/-! ## Fields -/

/-- Both lengths of a field have room in eight bytes. -/
def Field.Fits (f : Field) : Prop :=
  (Text.bytes f.tag).length < 2 ^ 64 ∧ f.value.length < 2 ^ 64

theorem Field.bytes_prefixFree : PrefixFree Field.Fits Field.bytes := by
  intro a b s t ha hb h
  simp only [Field.bytes, List.append_assoc] at h
  obtain ⟨htag, hrest⟩ := sized_prefixFree ha.1 hb.1 h
  obtain ⟨hvalue, hst⟩ := sized_prefixFree ha.2 hb.2 hrest
  refine ⟨?_, hst⟩
  cases a; cases b
  rw [Field.mk.injEq]
  exact ⟨Text.bytes_injective htag, hvalue⟩

theorem Field.length_bytes (f : Field) :
    f.bytes.length = 16 + (Text.bytes f.tag).length + f.value.length := by
  simp only [Field.bytes, Field.sized, List.length_append, length_bigEndian64]
  omega

theorem Field.bytes_ne_nil (f : Field) : f.bytes ≠ [] := by
  intro h
  have hlen := congrArg List.length h
  rw [Field.length_bytes, List.length_nil] at hlen
  omega

theorem Field.fits_of_length_bytes {f : Field} (h : f.bytes.length < 2 ^ 64) : f.Fits := by
  rw [Field.length_bytes] at h
  constructor <;> omega

/-- Two fields are told apart from two others that are short. The first two need not be short: if
they are not, they are longer. -/
theorem Field.pair_inj {f g f' g' : Field} (hshort : f.bytes.length + g.bytes.length < 2 ^ 64)
    (h : f'.bytes ++ g'.bytes = f.bytes ++ g.bytes) : f' = f ∧ g' = g := by
  have hlength := congrArg List.length h
  rw [List.length_append, List.length_append] at hlength
  have hfits {k : Field} (hk : k.bytes.length ≤ f.bytes.length + g.bytes.length) : k.Fits :=
    Field.fits_of_length_bytes (by omega)
  obtain ⟨rfl, hg⟩ := Field.bytes_prefixFree (hfits (by omega)) (hfits (by omega)) h
  obtain ⟨rfl, -⟩ := Field.bytes_prefixFree (a := g') (b := g) (s := []) (t := [])
    (hfits (by omega)) (hfits (by omega)) (by rw [hg])
  exact ⟨rfl, rfl⟩

/-- **A stream has one list of fields.** -/
theorem stream_inj {l m : List Field} (hl : ∀ f ∈ l, f.Fits) (hm : ∀ f ∈ m, f.Fits)
    (h : stream l = stream m) : l = m :=
  Field.bytes_prefixFree.flatMap_inj Field.bytes_ne_nil hl hm h

/-! ## Fingerprints -/

theorem digitChar_inj : ∀ a b : Fin 16, Nat.digitChar a = Nat.digitChar b → a = b := by decide

theorem hexByte_prefixFree : PrefixFree (fun _ : UInt8 => True)
    (fun b => [Nat.digitChar (b.toNat / 16), Nat.digitChar (b.toNat % 16)]) := by
  intro a b s t _ _ h
  simp only [List.cons_append, List.nil_append, List.cons.injEq] at h
  have ha := a.toNat_lt
  have hb := b.toNat_lt
  have hhigh := digitChar_inj ⟨a.toNat / 16, by omega⟩ ⟨b.toNat / 16, by omega⟩ h.1
  have hlow := digitChar_inj ⟨a.toNat % 16, by omega⟩ ⟨b.toNat % 16, by omega⟩ h.2.1
  rw [Fin.mk.injEq] at hhigh hlow
  exact ⟨UInt8.toNat_inj.mp (by omega), h.2.2⟩

theorem hex_inj {a b : Bytes} (h : Digest.hex a = Digest.hex b) : a = b :=
  hexByte_prefixFree.flatMap_inj (fun _ => nofun) (fun _ _ => trivial) (fun _ _ => trivial) h

/-- A fingerprint shows all of a digest. -/
theorem sha256_eq_of_fingerprint_eq {l m : List Field} (h : fingerprint l = fingerprint m) :
    Digest.sha256 (stream l) = Digest.sha256 (stream m) :=
  hex_inj (String.ofList_injective h)

/-! ## Shapes of fields -/

@[simp] theorem Field.text_inj {tag s t : String} :
    Field.text tag s = Field.text tag t ↔ s = t := by
  constructor
  · intro h
    rw [Field.text, Field.text, Field.mk.injEq] at h
    exact Text.bytes_injective h.2
  · rintro rfl
    rfl

@[simp] theorem Field.flag_inj {tag : String} {a b : Bool} :
    Field.flag tag a = Field.flag tag b ↔ a = b := by
  cases a <;> cases b <;> simp [Field.flag]

@[simp] theorem Field.optional_inj {tag : String} {s t : Option String} :
    Field.optional tag s = Field.optional tag t ↔ s = t := by
  constructor
  · intro h
    cases s <;> cases t <;> simp only [Field.optional, Field.mk.injEq, true_and] at h
    case none.none => rfl
    case some.some => rw [Text.bytes_injective (List.cons.inj h).2]
    all_goals exact absurd (List.cons.inj h).1 (by decide)
  · rintro rfl
    rfl

@[simp] theorem Field.tag_text (tag s : String) : (Field.text tag s).tag = tag := rfl

@[simp] theorem Field.tag_count (tag : String) (n : Nat) : (Field.count tag n).tag = tag := rfl

@[simp] theorem Field.tag_optional (tag : String) (s : Option String) :
    (Field.optional tag s).tag = tag := by
  cases s <;> rfl

theorem Field.count_inj {tag : String} {m n : Nat} (hm : m < 2 ^ 64) (hn : n < 2 ^ 64)
    (h : Field.count tag m = Field.count tag n) : m = n := by
  rw [Field.count, Field.count, Field.mk.injEq] at h
  exact bigEndian64_inj hm hn h.2

/-- Counted fields, with what follows them. -/
theorem counted_fields_inj {α : Type} {P : α → Prop} {f : α → List Field} {tag : String}
    (hf : PrefixFree P f) {l m : List α} {s t : List Field} (hl : ∀ a ∈ l, P a)
    (hm : ∀ a ∈ m, P a) (hln : l.length < 2 ^ 64) (hmn : m.length < 2 ^ 64)
    (h : Field.count tag l.length :: (l.flatMap f ++ s)
      = Field.count tag m.length :: (m.flatMap f ++ t)) : l = m ∧ s = t := by
  rw [List.cons.injEq] at h
  exact hf.counted (Field.count_inj hln hmn h.1) hl hm h.2

theorem text_prefixFree (tag : String) :
    PrefixFree (fun _ : String => True) (fun s => [Field.text tag s]) := by
  intro a b s t _ _ h
  simpa using h

/-- A list of texts can be split off what follows it. -/
theorem Field.list_prefixFree (tag : String) :
    PrefixFree (fun l : List String => l.length < 2 ^ 64) (Field.list tag) := by
  intro l m s t hl hm h
  rw [Field.list, Field.list, List.map_eq_flatMap, List.map_eq_flatMap] at h
  exact counted_fields_inj (text_prefixFree tag) (fun _ _ => trivial) (fun _ _ => trivial) hl hm h

end CachedRun.Key
