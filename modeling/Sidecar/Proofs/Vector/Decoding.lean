import Sidecar.Proofs.Writer.Flush

/-!
# Decoding a value

A value is read back exactly if it is the image of a vector that can be indexed, and then the vector
is unique: four bytes and one number determine each other, so a value whose length is a multiple of
four is the image of its components and of nothing else (`eq_encodeVector_iff`). What is asked beyond
that is asked of the vector: it has a component, all of them are finite, and their number is the
dimension if one is known.

A value that is not read back may have several faults at once, and then one of them is reported.
`ValueFault.At` says which, and it says so of the value alone, in the words of images: a fault in the
dimension or in a component is the fault of a vector, so whatever concerns the value as a whole is in
order there. Since the faults have different texts (`ValueFault.error_injective`), a report that a
component is not finite says also that nothing else is wrong.
-/

set_option autoImplicit false

namespace Sidecar

variable {doc : DocId} {value : Bytes} {expected : Option Nat} {vector : Embedding} {e : Error}

/-! ## Images of vectors -/

theorem eq_encodeVector_iff :
    value = encodeVector vector ↔ value.length % 4 = 0 ∧ componentsOf value = vector := by
  constructor
  · rintro rfl
    rw [length_encodeVector, componentsOf_encodeVector]
    exact ⟨Nat.mul_mod_left _ 4, rfl⟩
  · rintro ⟨hwhole, rfl⟩
    exact (encodeVector_componentsOf hwhole).symm

theorem encodeVector_eq_nil_iff : encodeVector vector = [] ↔ vector = [] := by
  rw [← List.length_eq_zero_iff, length_encodeVector, ← List.length_eq_zero_iff]
  omega

/-- The dimension of a value is that of the vector it is the image of. -/
theorem length_div_of_image (h : value = encodeVector vector) :
    value.length / 4 = vector.length := by
  rw [h, length_encodeVector, Nat.mul_div_cancel _ (by decide)]

namespace Embedding

/-- The vector has the dimension that is expected, if one is. -/
def Fits (vector : Embedding) (expected : Option Nat) : Prop :=
  ∀ fixed ∈ expected, fixed = vector.length

/-- The first component that is not finite stands at a position. -/
structure FailsAt (vector : Embedding) (position : Nat) : Prop where
  inside : position < vector.length
  bad : vector[position].isFinite = false
  first : ∀ i (h : i < position), vector[i].isFinite = true

end Embedding

theorem decodeVector_encodeVector (doc : DocId) (hne : vector ≠ [])
    (hfinite : ∀ x ∈ vector, x.isFinite = true) (hfits : vector.Fits expected) :
    decodeVector doc (encodeVector vector) expected = .ok vector := by
  have hsound : Sound (encodeVector vector) := by
    refine ⟨fun hnil => hne (encodeVector_eq_nil_iff.mp hnil), ?_, ?_⟩
    · exact (eq_encodeVector_iff.mp rfl).1
    · rw [componentsOf_encodeVector]
      exact hfinite
  have hdimension : ∀ fixed ∈ expected, fixed = (encodeVector vector).length / 4 := by
    rw [length_div_of_image rfl]
    exact hfits
  rw [decodeVector_of_sound doc hsound hdimension, componentsOf_encodeVector]

theorem image_of_decodeVector (h : decodeVector doc value expected = .ok vector) :
    value = encodeVector vector ∧ vector ≠ [] ∧ (∀ x ∈ vector, x.isFinite = true) ∧
      vector.Fits expected := by
  rcases decodeVector_cases doc value expected with ⟨e, hfails, -⟩ | ⟨hok, hsound, hfits⟩
  · rw [hfails] at h
    cases h
  · obtain rfl : componentsOf value = vector := Except.ok.inj (hok.symm.trans h)
    have himage : value = encodeVector (componentsOf value) :=
      eq_encodeVector_iff.mpr ⟨hsound.whole, rfl⟩
    refine ⟨himage, fun hnil => hsound.nonempty ?_, hsound.finite, ?_⟩
    · rw [himage, hnil]
      rfl
    · rw [Embedding.Fits, length_componentsOf]
      exact hfits

/-! ## Texts -/

section Texts

variable {s t : String} {c d : Char} {n k : Nat}

theorem head?_append_of_head? (t : String) (h : s.toList.head? = some c) :
    (s ++ t).toList.head? = some c := by
  rw [String.toList_append, List.head?_append, h]
  rfl

theorem ne_of_head? (hs : s.toList.head? = some c) (ht : t.toList.head? = some d) (hne : c ≠ d) :
    s ≠ t := by
  rintro rfl
  exact hne (Option.some.inj (hs.symm.trans ht))

/-- A number between two texts can be read off. -/
theorem number_of_between (h : s ++ toString n ++ t = s ++ toString k ++ t) : n = k := by
  have hrepr : n.repr = k.repr :=
    (String.append_right_inj _).mp ((String.append_left_inj _).mp h)
  have hdigits : Nat.toDigits 10 n = Nat.toDigits 10 k := by
    rw [← Nat.toList_repr, ← Nat.toList_repr, hrepr]
  rw [← @Nat.ofDigitChars_ten_toDigits n, hdigits, Nat.ofDigitChars_ten_toDigits]

theorem head?_raggedText (n : Nat) :
    (s!"value length {n} is not a multiple of 4").toList.head? = some 'v' :=
  head?_append_of_head? _ (head?_append_of_head? _ rfl)

theorem head?_componentText (n : Nat) :
    (s!"component {n} is not finite").toList.head? = some 'c' :=
  head?_append_of_head? _ (head?_append_of_head? _ rfl)

end Texts

/-! ## Faults -/

/-- Why a value is refused. -/
inductive ValueFault where
  | empty
  | ragged (length : Nat)
  | dimension (fixed got : Nat)
  | component (position : Nat)
  deriving DecidableEq, Repr

namespace ValueFault

/-- How a fault of a document's value is reported. -/
def error (doc : DocId) : ValueFault → Error
  | empty => .malformedVector doc "empty value"
  | ragged length => .malformedVector doc s!"value length {length} is not a multiple of 4"
  | dimension fixed got => .dimensionMismatch fixed got
  | component position => .malformedVector doc s!"component {position} is not finite"

/-- A value has the fault, and none that is looked for earlier. -/
def At (value : Bytes) (expected : Option Nat) : ValueFault → Prop
  | empty => value = []
  | ragged length => value.length = length ∧ length % 4 ≠ 0
  | dimension fixed got => ∃ vector, value = encodeVector vector ∧ vector ≠ [] ∧
      vector.length = got ∧ expected = some fixed ∧ fixed ≠ got
  | component position => ∃ vector, value = encodeVector vector ∧ vector.Fits expected ∧
      vector.FailsAt position

variable {fault fault' : ValueFault}

/-- The report of a fault tells which one it is. -/
theorem error_injective (h : fault.error doc = fault'.error doc) : fault = fault' := by
  have hreason : ∀ {s t : String}, Error.malformedVector doc s = .malformedVector doc t → s = t :=
    fun heq => (Error.malformedVector.inj heq).2
  cases fault with
  | empty =>
    cases fault' with
    | empty => rfl
    | ragged k => exact absurd (hreason h) (ne_of_head? rfl (head?_raggedText k) (by decide))
    | dimension _ _ => cases h
    | component k => exact absurd (hreason h) (ne_of_head? rfl (head?_componentText k) (by decide))
  | ragged n =>
    cases fault' with
    | empty => exact absurd (hreason h) (ne_of_head? (head?_raggedText n) rfl (by decide))
    | ragged k => rw [number_of_between (hreason h)]
    | dimension _ _ => cases h
    | component k =>
      exact absurd (hreason h) (ne_of_head? (head?_raggedText n) (head?_componentText k) (by decide))
  | dimension fixed got =>
    cases fault' with
    | dimension _ _ =>
      obtain ⟨rfl, rfl⟩ := Error.dimensionMismatch.inj h
      rfl
    | empty | ragged _ | component _ => cases h
  | component n =>
    cases fault' with
    | empty => exact absurd (hreason h) (ne_of_head? (head?_componentText n) rfl (by decide))
    | ragged k =>
      exact absurd (hreason h) (ne_of_head? (head?_componentText n) (head?_raggedText k) (by decide))
    | dimension _ _ => cases h
    | component k => rw [number_of_between (hreason h)]

/-- An item of a stream that does not go with the others has a fault, if it is a value at all. -/
theorem of_offence (h : Offence expected (.ok (doc, value)) e) :
    ∃ fault : ValueFault, e = fault.error doc ∧ fault.At value expected := by
  cases h with
  | empty => exact ⟨.empty, rfl, rfl⟩
  | ragged hragged => exact ⟨.ragged value.length, rfl, rfl, hragged⟩
  | @dimension _ _ fixed nonempty whole known differs =>
    have himage := eq_encodeVector_iff.mpr ⟨whole, rfl⟩
    refine ⟨.dimension fixed (value.length / 4), rfl, componentsOf value, himage, ?_, ?_, known,
      differs⟩
    · exact fun hnil => nonempty (himage.trans (encodeVector_eq_nil_iff.mpr hnil))
    · exact length_componentsOf value
  | @component _ _ position nonempty whole fits inside bad first =>
    refine ⟨.component position, rfl, componentsOf value, eq_encodeVector_iff.mpr ⟨whole, rfl⟩, ?_,
      inside, bad, first⟩
    rw [Embedding.Fits, length_componentsOf]
    exact fits

theorem offence (doc : DocId) (h : fault.At value expected) :
    Offence expected (.ok (doc, value)) (fault.error doc) := by
  cases fault with
  | empty =>
    obtain rfl : value = [] := h
    exact .empty doc
  | ragged n =>
    obtain ⟨rfl, hragged⟩ := h
    exact .ragged hragged
  | dimension fixed got =>
    obtain ⟨vector, himage, hne, rfl, hknown, hdiffers⟩ := h
    rw [← length_div_of_image himage] at hdiffers ⊢
    refine .dimension (fun hnil => hne ?_) (eq_encodeVector_iff.mp himage).1 hknown hdiffers
    exact encodeVector_eq_nil_iff.mp (himage.symm.trans hnil)
  | component position =>
    obtain ⟨vector, himage, hfits, hinside, hbad, hfirst⟩ := h
    obtain ⟨hwhole, rfl⟩ := eq_encodeVector_iff.mp himage
    refine .component ?_ hwhole ?_ hinside hbad hfirst
    · rintro rfl
      exact absurd hinside (Nat.not_lt_zero position)
    · rw [← length_componentsOf]
      exact hfits

end ValueFault

/-- **Exactly the images of vectors are decoded.** Decoding gives a vector if and only if the value is
that vector encoded, the vector has a component, all its components are finite, and it has the
dimension that is expected, if one is. Every other value is refused for one fault, and it is refused
for a fault exactly if `ValueFault.At` says so. -/
theorem decodeVector_accepts_images (doc : DocId) (value : Bytes) (expected : Option Nat) :
    (∀ vector, decodeVector doc value expected = .ok vector ↔ value = encodeVector vector ∧
      vector ≠ [] ∧ (∀ x ∈ vector, x.isFinite = true) ∧ vector.Fits expected) ∧
    (∀ fault : ValueFault,
      decodeVector doc value expected = .error (fault.error doc) ↔ fault.At value expected) ∧
    ((∃ vector, decodeVector doc value expected = .ok vector) ∨
      ∃ fault : ValueFault, decodeVector doc value expected = .error (fault.error doc)) := by
  refine ⟨fun vector => ⟨image_of_decodeVector, ?_⟩, fun fault => ⟨?_, ?_⟩, ?_⟩
  · rintro ⟨rfl, hne, hfinite, hfits⟩
    exact decodeVector_encodeVector doc hne hfinite hfits
  · intro h
    rcases decodeVector_cases doc value expected with ⟨e, hfails, hoffence⟩ | ⟨hok, -⟩
    · obtain ⟨found, rfl, hfound⟩ := ValueFault.of_offence hoffence
      have hsame : found = fault :=
        ValueFault.error_injective (Except.error.inj (hfails.symm.trans h))
      exact hsame ▸ hfound
    · rw [hok] at h
      cases h
  · exact fun hfault => (ValueFault.offence doc hfault).decodeVector
  · rcases decodeVector_cases doc value expected with ⟨e, hfails, hoffence⟩ | ⟨hok, -⟩
    · obtain ⟨fault, rfl, -⟩ := ValueFault.of_offence hoffence
      exact Or.inr ⟨fault, hfails⟩
    · exact Or.inl ⟨_, hok⟩

/-- A negative zero is kept, a component that is not finite is named, and it is not if the dimension
is wrong as well. -/
theorem decodeVector_accepts_images_of_pair :
    let zero : Embedding := [⟨0x3F800000⟩, ⟨0x80000000⟩]
    let broken : Embedding := [⟨0x3F800000⟩, ⟨0x7FC00000⟩, ⟨0x7F800000⟩]
    decodeVector 7 (encodeVector zero) (some 2) = .ok zero ∧
    decodeVector 7 (encodeVector broken) none
      = .error (.malformedVector 7 "component 1 is not finite") ∧
    decodeVector 7 (encodeVector broken) (some 2) = .error (.dimensionMismatch 2 3) := by
  intro zero broken
  refine ⟨?_, ?_, ?_⟩
  · refine ((decodeVector_accepts_images 7 _ _).1 zero).mpr ⟨rfl, by decide, by decide, ?_⟩
    rintro fixed ⟨⟩
    rfl
  · refine ((decodeVector_accepts_images 7 _ _).2.1 (.component 1)).mpr ⟨broken, rfl, nofun, ?_⟩
    refine ⟨by decide, by decide, fun i hi => ?_⟩
    obtain rfl : i = 0 := by omega
    show Binary32.isFinite ⟨0x3F800000⟩ = true
    decide
  · exact ((decodeVector_accepts_images 7 _ _).2.1 (.dimension 2 3)).mpr
      ⟨broken, rfl, by decide, rfl, rfl, by decide⟩

end Sidecar
