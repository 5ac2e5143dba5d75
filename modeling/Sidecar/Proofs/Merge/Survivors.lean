import Sidecar.Flat.Format
import Sidecar.Proofs.Merge.Merging
import Sidecar.Writer.Sidecar
import Mathlib.Data.List.Sort

/-!
# What survives a merge

A merge whose inputs are in order yields every new number once, in ascending order, with the bytes of
the first value that has it in the first input that has it. The list of these values is
`Merge.survivors`, and it is made in the plainest way: walk through the inputs one after the other
and keep a value unless its number is there already. No input need be in order for that; it is the
merge that needs it.

The proof goes through `Merges`. Its invariant is that nothing before the merge is smaller than what
was yielded last, and from it three things follow at every step: the value taken is larger than the
last one, it comes from the first lane that has its number, and no value that was passed over comes
first for any other number.
-/

set_option autoImplicit false

namespace Sidecar

/-- The values of an input that survive, under their new numbers. -/
def MergeInput.images (input : MergeInput) : List (DocId × Bytes) :=
  input.values.filterMap fun
    | .error _ => none
    | .ok (old, bytes) => (input.docMap.get? old).map fun new => (new, bytes)

namespace Merge

/-! ## The list of survivors -/

/-- The first value that has a new number, in the first input that has it. -/
def firstImage? (inputs : List MergeInput) (doc : DocId) : Option Bytes :=
  inputs.findSome? fun input => input.images.lookup doc

/-- Puts a value where it belongs in an ascending list, unless its number is there already. -/
def keep : List (DocId × Bytes) → DocId × Bytes → List (DocId × Bytes)
  | [], x => [x]
  | y :: rest, x =>
    if x.1 < y.1 then x :: y :: rest
    else if x.1 = y.1 then y :: rest
    else y :: keep rest x

def survivors (inputs : List MergeInput) : List (DocId × Bytes) :=
  (inputs.flatMap MergeInput.images).foldl keep []

abbrev Ascending (kept : List (DocId × Bytes)) : Prop := kept.Pairwise fun a b => a.1 < b.1

variable {kept : List (DocId × Bytes)} {x y : DocId × Bytes}

theorem lt_of_not_lt {a b : DocId} (h : ¬ a < b) (hne : a ≠ b) : b < a := by
  rw [UInt32.not_lt] at h
  exact UInt32.lt_of_le_of_ne h hne.symm

theorem mem_keep (h : Ascending kept) :
    y ∈ keep kept x ↔ y ∈ kept ∨ y = x ∧ ∀ z ∈ kept, z.1 ≠ x.1 := by
  induction kept with
  | nil => simp [keep]
  | cons first rest ih =>
    rw [Ascending, List.pairwise_cons] at h
    unfold keep
    split
    · next hlt =>
      have hfree : ∀ z ∈ first :: rest, z.1 ≠ x.1 := by
        intro z hz heq
        rcases List.mem_cons.mp hz with rfl | hz
        · exact UInt32.lt_irrefl _ (heq ▸ hlt)
        · exact UInt32.lt_irrefl _ (heq ▸ UInt32.lt_trans hlt (h.1 z hz))
      rw [List.mem_cons, or_comm, and_iff_left hfree]
    · next hnot =>
      split
      · next heq =>
        refine ⟨Or.inl, ?_⟩
        rintro (hmem | ⟨-, hfree⟩)
        · exact hmem
        · exact absurd heq.symm (hfree first List.mem_cons_self)
      · next hne =>
        rw [List.mem_cons, ih h.2, List.mem_cons, List.forall_mem_cons]
        have hfirst : first.1 ≠ x.1 := Ne.symm hne
        tauto

theorem ascending_keep (h : Ascending kept) (x : DocId × Bytes) : Ascending (keep kept x) := by
  induction kept with
  | nil => exact List.pairwise_singleton _ _
  | cons first rest ih =>
    have hfull := h
    rw [Ascending, List.pairwise_cons] at h
    unfold keep
    split
    · next hlt =>
      refine List.pairwise_cons.mpr ⟨?_, hfull⟩
      intro z hz
      rcases List.mem_cons.mp hz with rfl | hz
      · exact hlt
      · exact UInt32.lt_trans hlt (h.1 z hz)
    · next hnot =>
      split
      · exact hfull
      · next hne =>
        refine List.pairwise_cons.mpr ⟨?_, ih h.2⟩
        intro z hz
        rcases (mem_keep h.2).mp hz with hold | ⟨rfl, -⟩
        · exact h.1 z hold
        · exact lt_of_not_lt hnot hne

theorem ascending_foldl_keep (xs : List (DocId × Bytes)) (h : Ascending kept) :
    Ascending (xs.foldl keep kept) := by
  induction xs generalizing kept with
  | nil => exact h
  | cons x rest ih => exact ih (ascending_keep h x)

theorem known_keep (h : Ascending kept) (x : DocId × Bytes) : ∃ z ∈ keep kept x, z.1 = x.1 := by
  by_cases hknown : ∃ z ∈ kept, z.1 = x.1
  · obtain ⟨z, hz, heq⟩ := hknown
    exact ⟨z, (mem_keep h).mpr (Or.inl hz), heq⟩
  · have hfree : ∀ z ∈ kept, z.1 ≠ x.1 := fun z hz heq => hknown ⟨z, hz, heq⟩
    exact ⟨x, (mem_keep h).mpr (Or.inr ⟨rfl, hfree⟩), rfl⟩

theorem mem_foldl_keep (xs : List (DocId × Bytes)) (h : Ascending kept) {doc : DocId}
    {bytes : Bytes} : (doc, bytes) ∈ xs.foldl keep kept ↔
      (doc, bytes) ∈ kept ∨ (∀ z ∈ kept, z.1 ≠ doc) ∧ xs.lookup doc = some bytes := by
  induction xs generalizing kept with
  | nil => simp
  | cons x rest ih =>
    obtain ⟨new, image⟩ := x
    rw [List.foldl_cons, ih (ascending_keep h _), mem_keep h, Prod.mk.injEq]
    by_cases hdoc : doc = new
    · subst hdoc
      obtain ⟨z, hz, heq⟩ := known_keep h (doc, image)
      have hknown : ¬ ∀ z ∈ keep kept (doc, image), z.1 ≠ doc := fun hfree => hfree z hz heq
      rw [List.lookup_cons_self, Option.some.injEq]
      constructor
      · rintro ((hold | ⟨⟨-, rfl⟩, hfree⟩) | ⟨hfree, -⟩)
        · exact Or.inl hold
        · exact Or.inr ⟨hfree, rfl⟩
        · exact absurd hfree hknown
      · rintro (hold | ⟨hfree, rfl⟩)
        · exact Or.inl (Or.inl hold)
        · exact Or.inl (Or.inr ⟨⟨rfl, rfl⟩, hfree⟩)
    · have hfree : (∀ z ∈ keep kept (new, image), z.1 ≠ doc) ↔ ∀ z ∈ kept, z.1 ≠ doc := by
        constructor
        · exact fun hall z hz => hall z ((mem_keep h).mpr (Or.inl hz))
        · intro hall z hz
          rcases (mem_keep h).mp hz with hold | ⟨rfl, -⟩
          · exact hall z hold
          · exact Ne.symm hdoc
      have hlookup : ((new, image) :: rest).lookup doc = rest.lookup doc := by
        rw [List.lookup_cons, beq_false_of_ne hdoc]
      rw [hfree, hlookup]
      tauto

theorem lookup_flatMap_images (inputs : List MergeInput) (doc : DocId) :
    (inputs.flatMap MergeInput.images).lookup doc = firstImage? inputs doc := by
  induction inputs with
  | nil => rfl
  | cons input rest ih =>
    rw [List.flatMap_cons, List.lookup_append, ih, firstImage?, firstImage?, List.findSome?_cons]
    cases input.images.lookup doc <;> rfl

theorem ascending_survivors (inputs : List MergeInput) : Ascending (survivors inputs) :=
  ascending_foldl_keep _ List.Pairwise.nil

theorem mem_survivors (inputs : List MergeInput) {doc : DocId} {bytes : Bytes} :
    (doc, bytes) ∈ survivors inputs ↔ firstImage? inputs doc = some bytes := by
  rw [survivors, mem_foldl_keep _ List.Pairwise.nil, lookup_flatMap_images]
  simp

theorem Ascending.eq_survivors (h : Ascending kept) {inputs : List MergeInput}
    (hmem : ∀ doc bytes, (doc, bytes) ∈ kept ↔ firstImage? inputs doc = some bytes) :
    kept = survivors inputs := by
  have hasymm : Std.Asymm fun a b : DocId × Bytes => a.1 < b.1 := ⟨fun a b => UInt32.lt_asymm⟩
  refine List.Pairwise.eq_of_mem_iff h (ascending_survivors inputs) ?_
  rintro ⟨doc, bytes⟩
  rw [hmem, mem_survivors]

theorem Ascending.mem_iff_lookup (h : Ascending kept) {doc : DocId} {bytes : Bytes} :
    (doc, bytes) ∈ kept ↔ kept.lookup doc = some bytes := by
  induction kept with
  | nil => simp
  | cons first rest ih =>
    obtain ⟨new, image⟩ := first
    obtain ⟨hfirst, hrest⟩ := List.pairwise_cons.mp h
    rw [List.mem_cons, Prod.mk.injEq]
    by_cases hdoc : doc = new
    · subst hdoc
      have hfree : (doc, bytes) ∉ rest := fun hmem => UInt32.lt_irrefl doc (hfirst (doc, bytes) hmem)
      rw [List.lookup_cons_self, Option.some.injEq]
      simp [hfree, eq_comm]
    · rw [List.lookup_cons, beq_false_of_ne hdoc, ← ih hrest]
      simp [hdoc]

/-- Inputs whose values are in order one after the other lose none. -/
theorem survivors_eq_images {inputs : List MergeInput}
    (h : Ascending (inputs.flatMap MergeInput.images)) :
    survivors inputs = inputs.flatMap MergeInput.images := by
  refine (h.eq_survivors fun doc bytes => ?_).symm
  rw [h.mem_iff_lookup, lookup_flatMap_images]

/-! ## Errors are found -/

variable {lanes : List ValueStream} {i : Nat} {doc : DocId} {bytes : Bytes} {rest out : ValueStream}
  {last : Option DocId} {n : Nat}

/-- Taking a value off a lane takes no error off. -/
theorem Least.exists_error (h : Least lanes i doc bytes rest)
    (herror : ∃ lane ∈ lanes, ∃ e, .error e ∈ lane) :
    ∃ lane ∈ lanes.set i rest, ∃ e, .error e ∈ lane := by
  obtain ⟨lane, hlane, e, he⟩ := herror
  obtain ⟨j, hj⟩ := List.mem_iff_getElem?.mp hlane
  by_cases hji : j = i
  · subst hji
    rw [h.lane, Option.some.injEq] at hj
    rw [← hj, List.mem_cons] at he
    have hlt : j < lanes.length := (List.getElem?_eq_some_iff.mp h.lane).1
    exact ⟨rest, List.mem_set hlt rest, e, he.resolve_left nofun⟩
  · refine ⟨lane, List.mem_iff_getElem?.mpr ⟨j, ?_⟩, e, he⟩
    rw [List.getElem?_set_ne (Ne.symm hji)]
    exact hj

theorem Merges.exists_error (h : Merges lanes last out n)
    (herror : ∃ lane ∈ lanes, ∃ e, .error e ∈ lane) : ∃ e, .error e ∈ out := by
  induction h with
  | done ended =>
    obtain ⟨lane, hlane, e, he⟩ := herror
    rw [ended lane hlane] at he
    exact absurd he List.not_mem_nil
  | @fail _ _ _ _ _ e _ _ => exact ⟨e, List.mem_singleton_self _⟩
  | skip least _ ih => exact ih (least.exists_error herror)
  | take least _ _ ih =>
    obtain ⟨e, he⟩ := ih (least.exists_error herror)
    exact ⟨e, List.mem_cons_of_mem _ he⟩

/-! ## Lanes in order -/

def okays (lane : ValueStream) : List (DocId × Bytes) := lane.filterMap Except.toOption

def firstIn? (lanes : List ValueStream) (doc : DocId) : Option Bytes :=
  lanes.findSome? fun lane => (okays lane).lookup doc

@[simp] theorem okays_ok (x : DocId × Bytes) (rest : ValueStream) :
    okays (.ok x :: rest) = x :: okays rest := rfl

/-- Lanes that hold values only, each in order, and none that is smaller than the last one. -/
structure InOrder (lanes : List ValueStream) (last : Option DocId) : Prop where
  clean : ∀ lane ∈ lanes, ∀ e, .error e ∉ lane
  ordered : ∀ lane ∈ lanes, (okays lane).Pairwise fun a b => a.1 ≤ b.1
  above : ∀ doc, last = some doc → ∀ lane ∈ lanes, ∀ x ∈ okays lane, doc ≤ x.1

theorem exists_of_firstIn (h : firstIn? lanes doc = some bytes) :
    ∃ lane ∈ lanes, (doc, bytes) ∈ okays lane := by
  obtain ⟨lane, hlane, hlookup⟩ := List.exists_of_findSome?_eq_some h
  obtain ⟨front, back, heq, -⟩ := List.lookup_eq_some_iff.mp hlookup
  exact ⟨lane, hlane, heq ▸ List.mem_append_right _ List.mem_cons_self⟩

/-- A lane holds nothing that comes before the least value. -/
theorem Least.le_mem (h : Least lanes i doc bytes rest) (ho : InOrder lanes last) {j : Nat}
    {lane : ValueStream} (hj : lanes[j]? = some lane) {x : DocId × Bytes} (hx : x ∈ okays lane) :
    doc < x.1 ∨ doc = x.1 ∧ i ≤ j := by
  have hmem : lane ∈ lanes := List.mem_iff_getElem?.mpr ⟨j, hj⟩
  cases lane with
  | nil => exact absurd hx List.not_mem_nil
  | cons first tail =>
    cases first with
    | error e => exact absurd List.mem_cons_self (ho.clean _ hmem e)
    | ok y =>
      obtain ⟨doc', bytes'⟩ := y
      have hordered := ho.ordered _ hmem
      rw [okays_ok, List.pairwise_cons] at hordered
      rw [okays_ok, List.mem_cons] at hx
      have hle : doc' ≤ x.1 := by
        rcases hx with rfl | hx
        · exact UInt32.le_refl _
        · exact hordered.1 x hx
      rcases h.le j doc' bytes' tail hj with hlt | ⟨rfl, hij⟩
      · exact Or.inl (UInt32.lt_of_lt_of_le hlt hle)
      · exact (UInt32.lt_or_eq_of_le hle).imp_right fun heq => ⟨heq, hij⟩

/-- What is left after the least value was taken is in order above it. -/
theorem InOrder.set (ho : InOrder lanes last) (h : Least lanes i doc bytes rest) :
    InOrder (lanes.set i rest) (some doc) := by
  have hfull : .ok (doc, bytes) :: rest ∈ lanes := List.mem_iff_getElem?.mpr ⟨i, h.lane⟩
  have hlow : ∀ lane ∈ lanes, ∀ x ∈ okays lane, doc ≤ x.1 := by
    intro lane hlane x hx
    obtain ⟨j, hj⟩ := List.mem_iff_getElem?.mp hlane
    rcases h.le_mem ho hj hx with hlt | ⟨heq, -⟩
    · exact UInt32.le_of_lt hlt
    · exact heq ▸ UInt32.le_refl _
  refine ⟨?_, ?_, ?_⟩
  · intro lane hlane e he
    rcases List.mem_or_eq_of_mem_set hlane with hold | rfl
    · exact ho.clean lane hold e he
    · exact ho.clean _ hfull e (List.mem_cons_of_mem _ he)
  · intro lane hlane
    rcases List.mem_or_eq_of_mem_set hlane with hold | rfl
    · exact ho.ordered lane hold
    · exact (List.pairwise_cons.mp (ho.ordered _ hfull)).2
  · intro doc' hdoc lane hlane x hx
    rw [Option.some.injEq] at hdoc
    rw [← hdoc]
    rcases List.mem_or_eq_of_mem_set hlane with hold | rfl
    · exact hlow lane hold x hx
    · exact hlow _ hfull x (List.mem_cons_of_mem _ hx)

theorem Least.firstIn (h : Least lanes i doc bytes rest) (ho : InOrder lanes last) :
    firstIn? lanes doc = some bytes := by
  refine List.findSome?_eq_some_iff.mpr ⟨_, _, _, eq_take_append h.lane, ?_, ?_⟩
  · rw [okays_ok, List.lookup_cons_self]
  · intro lane hmem
    obtain ⟨j, hj⟩ := List.mem_iff_getElem?.mp hmem
    rw [List.getElem?_take] at hj
    split at hj
    · next hji =>
      cases hlookup : (okays lane).lookup doc with
      | none => rfl
      | some b =>
        obtain ⟨front, back, heq, -⟩ := List.lookup_eq_some_iff.mp hlookup
        have hx : (doc, b) ∈ okays lane := heq ▸ List.mem_append_right _ List.mem_cons_self
        rcases h.le_mem ho hj hx with hlt' | ⟨-, hij⟩
        · exact absurd hlt' (UInt32.lt_irrefl _)
        · omega
    · exact absurd hj nofun

theorem Least.firstIn_set (h : Least lanes i doc bytes rest) {doc' : DocId} (hne : doc' ≠ doc) :
    firstIn? (lanes.set i rest) doc' = firstIn? lanes doc' := by
  have hlt : i < lanes.length := (List.getElem?_eq_some_iff.mp h.lane).1
  have hsame : (okays (.ok (doc, bytes) :: rest)).lookup doc' = (okays rest).lookup doc' := by
    rw [okays_ok, List.lookup_cons, beq_false_of_ne hne]
  unfold firstIn?
  conv_rhs => rw [eq_take_append h.lane]
  rw [List.set_eq_take_append_cons_drop, if_pos hlt, List.findSome?_append, List.findSome?_append,
    List.findSome?_cons, List.findSome?_cons, hsame]

/-- From lanes in order every number comes out once, in ascending order, with the value that comes
first for it. -/
theorem Merges.ascending (h : Merges lanes last out n) (ho : InOrder lanes last) :
    ∃ kept, out = kept.map .ok ∧ Ascending kept ∧
      (∀ x ∈ kept, ∀ doc, last = some doc → doc < x.1) ∧
      ∀ doc bytes, (doc, bytes) ∈ kept ↔ last ≠ some doc ∧ firstIn? lanes doc = some bytes := by
  induction h with
  | @done lanes last ended =>
    refine ⟨[], rfl, List.Pairwise.nil, nofun, ?_⟩
    intro doc bytes
    refine ⟨nofun, ?_⟩
    rintro ⟨-, hfirst⟩
    obtain ⟨lane, hlane, hmem⟩ := exists_of_firstIn hfirst
    rw [ended lane hlane] at hmem
    exact absurd hmem List.not_mem_nil
  | @fail lanes last i doc bytes e rest least =>
    have hmem := List.mem_iff_getElem?.mpr ⟨i, least.lane⟩
    exact absurd (List.mem_cons_of_mem _ List.mem_cons_self) (ho.clean _ hmem e)
  | @skip lanes i doc bytes rest out n least more ih =>
    obtain ⟨kept, hout, hasc, habove, hmem⟩ := ih (ho.set least)
    refine ⟨kept, hout, hasc, habove, ?_⟩
    intro doc' bytes'
    rw [hmem]
    refine and_congr_right fun hne => ?_
    rw [least.firstIn_set fun heq => hne (heq ▸ rfl)]
  | @take lanes last i doc bytes rest out n least fresh more ih =>
    obtain ⟨kept, hout, hasc, habove, hmem⟩ := ih (ho.set least)
    have hfull : .ok (doc, bytes) :: rest ∈ lanes := List.mem_iff_getElem?.mpr ⟨i, least.lane⟩
    -- The invariant says at least as large, and the number is not the last one.
    have hlast : ∀ doc', last = some doc' → doc' < doc := by
      intro doc' heq
      have hle : doc' ≤ doc := ho.above doc' heq _ hfull (doc, bytes) List.mem_cons_self
      exact UInt32.lt_of_le_of_ne hle fun hsame => fresh (hsame ▸ heq)
    refine ⟨(doc, bytes) :: kept, by rw [hout]; rfl, ?_, ?_, ?_⟩
    · exact List.pairwise_cons.mpr ⟨fun x hx => habove x hx doc rfl, hasc⟩
    · intro x hx doc' heq
      rcases List.mem_cons.mp hx with rfl | hx
      · exact hlast doc' heq
      · exact UInt32.lt_trans (hlast doc' heq) (habove x hx doc rfl)
    · intro doc' bytes'
      rw [List.mem_cons, hmem, Prod.mk.injEq]
      by_cases hdoc : doc' = doc
      · subst hdoc
        rw [least.firstIn ho, Option.some.injEq]
        constructor
        · rintro (⟨-, rfl⟩ | ⟨hne, -⟩)
          · exact ⟨fresh, rfl⟩
          · exact absurd rfl hne
        · rintro ⟨-, rfl⟩
          exact Or.inl ⟨rfl, rfl⟩
      · rw [least.firstIn_set hdoc]
        constructor
        · rintro (⟨heq, -⟩ | ⟨-, hfirst⟩)
          · exact absurd heq hdoc
          · refine ⟨fun heq => ?_, hfirst⟩
            -- Nothing before the merge has the number that was yielded last.
            obtain ⟨lane, hlane, hx⟩ := exists_of_firstIn hfirst
            obtain ⟨j, hj⟩ := List.mem_iff_getElem?.mp hlane
            have hlow := hlast doc' heq
            rcases least.le_mem ho hj hx with hlt | ⟨hsame, -⟩
            · exact absurd (UInt32.lt_trans hlow hlt) (UInt32.lt_irrefl _)
            · exact hdoc hsame.symm
        · rintro ⟨-, hfirst⟩
          refine Or.inr ⟨fun heq => ?_, hfirst⟩
          exact hdoc (Option.some.inj heq).symm

/-! ## The stream of some inputs -/

theorem error_mem_relabel {map : DocMap} {values : ValueStream} {e : Error} :
    .error e ∈ map.relabel values ↔ .error e ∈ values := by
  rw [DocMap.relabel, List.mem_filterMap]
  constructor
  · rintro ⟨e' | ⟨old, bytes⟩, hmem, heq⟩
    · rw [Option.some.injEq] at heq
      exact heq ▸ hmem
    · obtain ⟨new, -, hcon⟩ := Option.map_eq_some_iff.mp heq
      cases hcon
  · exact fun hmem => ⟨_, hmem, rfl⟩

theorem okays_lane (input : MergeInput) : okays input.lane = input.images := by
  rw [okays, MergeInput.lane, DocMap.relabel, List.filterMap_filterMap]
  refine List.filterMap_congr ?_
  rintro (e | ⟨old, bytes⟩) -
  · rfl
  · show ((input.docMap.get? old).map fun new => .ok (new, bytes)).bind Except.toOption
      = (input.docMap.get? old).map fun new => (new, bytes)
    cases input.docMap.get? old <;> rfl

theorem firstIn_lanes (inputs : List MergeInput) (doc : DocId) :
    firstIn? (inputs.map MergeInput.lane) doc = firstImage? inputs doc := by
  rw [firstIn?, firstImage?, List.findSome?_map]
  congr 1
  funext input
  exact congrArg (·.lookup doc) (okays_lane input)

theorem stream_eq_survivors {inputs : List MergeInput}
    (hordered : ∀ input ∈ inputs, input.images.Pairwise fun a b => a.1 ≤ b.1)
    (hclean : ∀ input ∈ inputs, ∀ e, .error e ∉ input.values) :
    stream inputs = (survivors inputs).map .ok := by
  have hlanes : ∀ lane ∈ inputs.map MergeInput.lane, ∀ e, .error e ∉ lane := by
    intro lane hlane e he
    obtain ⟨input, hinput, rfl⟩ := List.mem_map.mp hlane
    exact hclean input hinput e (error_mem_relabel.mp he)
  have ho : InOrder (inputs.map MergeInput.lane) none := by
    refine ⟨hlanes, ?_, nofun⟩
    intro lane hlane
    obtain ⟨input, hinput, rfl⟩ := List.mem_map.mp hlane
    rw [okays_lane]
    exact hordered input hinput
  rcases stream_cases inputs with ⟨e, _, lane, hlane, he⟩ | ⟨n, hmerges⟩
  · exact absurd he (hlanes lane hlane e)
  · obtain ⟨kept, hout, hasc, -, hmem⟩ := hmerges.ascending ho
    rw [hout, hasc.eq_survivors]
    intro doc bytes
    rw [hmem, firstIn_lanes]
    exact and_iff_right nofun

theorem exists_error_stream {inputs : List MergeInput}
    (herror : ∃ input ∈ inputs, ∃ e, .error e ∈ input.values) : ∃ e, .error e ∈ stream inputs := by
  rcases stream_cases inputs with ⟨e, heq, _⟩ | ⟨n, hmerges⟩
  · rw [heq]
    exact ⟨e, List.mem_singleton_self _⟩
  · obtain ⟨input, hinput, e, he⟩ := herror
    exact hmerges.exists_error ⟨input.lane, List.mem_map_of_mem hinput, e, error_mem_relabel.mpr he⟩

end Merge

/-! ## Writing what survives -/

namespace Writer

theorem exists_error_collect {values : ValueStream} (h : ∃ e, .error e ∈ values)
    (dimension : Option Nat) : ∃ e, collect dimension values = .error e := by
  obtain ⟨e, he⟩ := h
  induction values generalizing dimension with
  | nil => exact absurd he List.not_mem_nil
  | cons first rest ih =>
    rcases first with e' | ⟨doc, bytes⟩
    · exact ⟨e', rfl⟩
    · rw [List.mem_cons] at he
      unfold collect
      cases hdecode : decodeVector doc bytes dimension with
      | error e' => exact ⟨e', rfl⟩
      | ok vector =>
        obtain ⟨e', heq⟩ := ih (some (dimension.getD vector.length)) (he.resolve_left nofun)
        exact ⟨e', by simp only [bind, Except.bind, heq]⟩

variable {ε : Type} (run : BuildJob → FileTree × ε → BuildOutcome × (FileTree × ε))
  (tag : Option String) (target : SegmentTarget) (state : FileTree × ε)

theorem write_of_error {values : ValueStream} (h : ∃ e, .error e ∈ values) :
    ∃ e, write run tag target values state = (.error e, state) := by
  obtain ⟨e, heq⟩ := exists_error_collect h none
  exact ⟨e, by rw [write, heq]⟩

/-- **A merge writes what a flush of the survivors writes.** The survivors of inputs in order are
listed in ascending order, each with the first value that has its number in the first input that has
it. Unless there is an error in a stream, a merge does what a flush of that list does, on the file
tree and on whatever else a build changes. If there is an error, wherever it stands, the merge ends
with an error and has changed neither. -/
theorem writeMerge_eq_write (inputs : List MergeInput)
    (hordered : ∀ input ∈ inputs, input.images.Pairwise fun a b => a.1 ≤ b.1) :
    Merge.Ascending (Merge.survivors inputs) ∧
    (∀ doc bytes, (doc, bytes) ∈ Merge.survivors inputs ↔
      Merge.firstImage? inputs doc = some bytes) ∧
    ((∀ input ∈ inputs, ∀ e, .error e ∉ input.values) →
      writeMerge run tag target inputs state
        = write run tag target ((Merge.survivors inputs).map .ok) state) ∧
    ((∃ input ∈ inputs, ∃ e, .error e ∈ input.values) →
      ∃ e, writeMerge run tag target inputs state = (.error e, state)) := by
  refine ⟨Merge.ascending_survivors inputs, fun _ _ => Merge.mem_survivors inputs, ?_, ?_⟩
  · intro hclean
    rw [writeMerge, Merge.stream_eq_survivors hordered hclean]
  · intro herror
    exact write_of_error run tag target state (Merge.exists_error_stream herror)

/-- Three inputs of which the second is empty. The first has one number twice, and the third has it
once more, with bytes that nobody could read; the value of the deleted document is no better. -/
def overlapping (tail : ValueStream) : List MergeInput :=
  [{ values := [.ok (0, [0, 0, 128, 63]), .ok (1, [0, 0, 0, 64]), .ok (2, [])]
     docMap := ⟨[some 1, some 1, none]⟩ },
   { values := [], docMap := ⟨[]⟩ },
   { values := [.ok (0, [7]), .ok (1, [0, 0, 64, 64])] ++ tail
     docMap := ⟨[some 1, some 2]⟩ }]

/-- A build that writes its index and takes note of the job. -/
def buildAndNote (job : BuildJob) (state : FileTree × List BuildJob) :
    BuildOutcome × (FileTree × List BuildJob) :=
  match FlatIndex.build state.1 job.ids job.vectors job.temporary with
  | .ok files => (.ended (.ok ()), files, job :: state.2)
  | .error e => (.ended (.error e), state.1, job :: state.2)

/-- A directory with a file of the segment that is merged into. -/
def mergeDesk : FileTree where
  workingDirectory := ["w"]
  nodes := [(["w"], .directory), (["w", "d"], .directory), (["w", "d", "s.si"], .file [7])]

/-- The merge builds what the two survivors build, and an error after the last of them stops it. -/
theorem writeMerge_of_overlapping :
    let target : SegmentTarget := ⟨⟨"d"⟩, "s"⟩
    let state : FileTree × List BuildJob := (mergeDesk, [])
    let merged := writeMerge buildAndNote none target (overlapping []) state
    Merge.survivors (overlapping []) = [(1, [0, 0, 128, 63]), (2, [0, 0, 64, 64])] ∧
    merged = write buildAndNote none target [.ok (1, [0, 0, 128, 63]), .ok (2, [0, 0, 64, 64])]
      state ∧
    merged.1 = .ok (some ⟨target.sidecarPath none, "s", 2, 1⟩) ∧
    merged.2.1.read (target.sidecarPath none)
      = .ok (FlatIndex.encode [1, 2] [[⟨0x3F800000⟩], [⟨0x40400000⟩]]) ∧
    merged.2.2.length = 1 ∧
    ∃ e, writeMerge buildAndNote none target (overlapping [.error .shutDown]) state
      = (.error e, state) := by
  intro target state merged
  have hsurvivors :
      Merge.survivors (overlapping []) = [(1, [0, 0, 128, 63]), (2, [0, 0, 64, 64])] := rfl
  have hordered : ∀ tail : ValueStream, tail = [] ∨ tail = [.error .shutDown] →
      ∀ input ∈ overlapping tail, input.images.Pairwise fun a b => a.1 ≤ b.1 := by
    rintro tail (rfl | rfl) <;> simp [overlapping, MergeInput.images, DocMap.get?]
  have hmerge := writeMerge_eq_write buildAndNote none target state (overlapping [])
    (hordered [] (Or.inl rfl))
  have hfail := writeMerge_eq_write buildAndNote none target state (overlapping [.error .shutDown])
    (hordered _ (Or.inr rfl))
  rw [hsurvivors] at hmerge
  have hwritten : merged = write buildAndNote none target
      [.ok (1, [0, 0, 128, 63]), .ok (2, [0, 0, 64, 64])] state :=
    hmerge.2.2.1 (by simp [overlapping])
  refine ⟨hsurvivors, hwritten, ?_, ?_, ?_, hfail.2.2.2 ?_⟩
  · rw [hwritten]
    decide +kernel
  · rw [hwritten]
    decide +kernel
  · rw [hwritten]
    decide +kernel
  · exact ⟨_, List.mem_cons_of_mem _ (List.mem_cons_of_mem _ List.mem_cons_self), .shutDown,
      by simp⟩

end Writer

end Sidecar
