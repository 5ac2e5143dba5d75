import Sidecar.Proofs.Merge.Survivors

/-!
# A merge of inputs in any order

Document maps need not keep the order of documents, and values need not come in order either. Then
the numbers that a merge yields do not ascend, a number may come out several times, and which value it
comes out with first says nothing about the inputs. What still holds is that the merge loses nothing,
and the reason is that a merge is first of all an interleaving: it *draws* one value after the other,
always at the least of the heads of its lanes (`Draws`), and a lane is never anything but the rest of
its input. So the draws from one input are the surviving values of that input, all of them and in
their order (`Draws.lane`), whatever their numbers are.

What is yielded are the draws whose number is not that of the draw before (`fresh`). The others are
the duplicates, so nothing is lost without being counted.
-/

set_option autoImplicit false

namespace Sidecar.Merge

/-! ## Drawing from lanes -/

/-- A value that is taken off a lane. -/
structure Draw where
  /-- The number of the lane. -/
  input : Nat
  doc : DocId
  bytes : Bytes

def Draw.value (d : Draw) : DocId × Bytes := (d.doc, d.bytes)

/-- Some lanes are drawn from, always at the least head, until nothing is left. -/
inductive Draws : List ValueStream → List Draw → Prop where
  | done {lanes} (ended : ∀ lane ∈ lanes, lane = []) : Draws lanes []
  | draw {lanes i doc bytes rest drawn} (least : Least lanes i doc bytes rest)
      (more : Draws (lanes.set i rest) drawn) : Draws lanes (⟨i, doc, bytes⟩ :: drawn)

variable {lanes : List ValueStream} {drawn : List Draw} {last : Option DocId} {i : Nat}

/-- What is drawn from one lane is what the lane holds, in its order. -/
theorem Draws.of_lane (h : Draws lanes drawn) {lane : ValueStream} (hi : lanes[i]? = some lane) :
    (drawn.filter (·.input == i)).map Draw.value = okays lane := by
  induction h generalizing lane with
  | done ended =>
    rw [ended lane (List.mem_iff_getElem?.mpr ⟨i, hi⟩)]
    rfl
  | @draw lanes j doc bytes rest drawn least more ih =>
    by_cases hji : j = i
    · subst hji
      have hlane : lane = .ok (doc, bytes) :: rest := Option.some.inj (hi.symm.trans least.lane)
      have hlt : j < lanes.length := (List.getElem?_eq_some_iff.mp hi).1
      rw [List.filter_cons_of_pos (by simp), List.map_cons,
        ih (List.getElem?_set_self hlt), hlane, okays_ok]
      rfl
    · rw [List.filter_cons_of_neg (by simpa using hji)]
      exact ih (by rw [List.getElem?_set_ne hji, hi])

theorem Draws.mem (h : Draws lanes drawn) {d : Draw} (hd : d ∈ drawn) :
    ∃ lane, lanes[d.input]? = some lane ∧ d.value ∈ okays lane := by
  have hlt : d.input < lanes.length := by
    induction h with
    | done _ => exact absurd hd List.not_mem_nil
    | @draw lanes j doc bytes rest drawn least more ih =>
      rcases List.mem_cons.mp hd with rfl | hd
      · exact (List.getElem?_eq_some_iff.mp least.lane).1
      · rw [← List.length_set (i := j) (a := rest)]
        exact ih hd
  have hi : lanes[d.input]? = some lanes[d.input] := List.getElem?_eq_getElem hlt
  refine ⟨_, hi, ?_⟩
  rw [← h.of_lane hi]
  exact List.mem_map_of_mem (List.mem_filter.mpr ⟨hd, beq_self_eq_true d.input⟩)

/-- Every value of every lane is drawn, and it is drawn once. -/
theorem Draws.perm (h : Draws lanes drawn) :
    (drawn.map Draw.value).Perm (lanes.flatMap okays) := by
  induction h with
  | @done lanes ended =>
    rw [List.flatMap_eq_nil_iff.mpr fun lane hlane => by rw [ended lane hlane]; rfl]
    exact List.Perm.refl _
  | @draw lanes j doc bytes rest drawn least more ih =>
    have hlt : j < lanes.length := (List.getElem?_eq_some_iff.mp least.lane).1
    rw [List.set_eq_take_append_cons_drop, if_pos hlt, List.flatMap_append, List.flatMap_cons] at ih
    conv_rhs => rw [eq_take_append least.lane]
    rw [List.flatMap_append, List.flatMap_cons, okays_ok, List.cons_append]
    exact (ih.cons (doc, bytes)).trans List.perm_middle.symm

/-! ## Passing over repeated numbers -/

/-- The draws that are yielded after a number: those that do not repeat the number before them. -/
def fresh : Option DocId → List Draw → List Draw
  | _, [] => []
  | last, d :: rest =>
    if last = some d.doc then fresh last rest else d :: fresh (some d.doc) rest

theorem fresh_sublist (last : Option DocId) (drawn : List Draw) :
    (fresh last drawn).Sublist drawn := by
  induction drawn generalizing last with
  | nil => exact List.Sublist.slnil
  | cons d rest ih =>
    unfold fresh
    split
    · exact (ih last).cons d
    · exact (ih (some d.doc)).cons_cons d

/-- No number is yielded twice in a row, nor right after itself. -/
theorem isChain_fresh (last : Option DocId) (drawn : List Draw) :
    (last.toList ++ (fresh last drawn).map Draw.doc).IsChain (· ≠ ·) := by
  induction drawn generalizing last with
  | nil => cases last <;> simp [fresh]
  | cons d rest ih =>
    unfold fresh
    split
    · exact ih last
    · next hnew =>
      have htail := ih (some d.doc)
      cases last with
      | none => exact htail
      | some doc =>
        refine List.isChain_cons_cons.mpr ⟨fun heq => hnew (congrArg some heq), htail⟩

/-- A number that is passed over was yielded before. -/
theorem doc_mem_fresh (last : Option DocId) {d : Draw} (hd : d ∈ drawn) :
    last = some d.doc ∨ ∃ x ∈ fresh last drawn, x.doc = d.doc := by
  induction drawn generalizing last with
  | nil => exact absurd hd List.not_mem_nil
  | cons first rest ih =>
    unfold fresh
    split
    · next hsame =>
      rcases List.mem_cons.mp hd with rfl | hd
      · exact Or.inl hsame
      · exact ih last hd
    · rcases List.mem_cons.mp hd with rfl | hd
      · exact Or.inr ⟨d, List.mem_cons_self, rfl⟩
      · rcases ih (some first.doc) hd with heq | ⟨x, hx, heq⟩
        · exact Or.inr ⟨first, List.mem_cons_self, Option.some.inj heq⟩
        · exact Or.inr ⟨x, List.mem_cons_of_mem _ hx, heq⟩

/-- An error that is in no lane is not in the rest of one. -/
theorem Least.clean_set {doc : DocId} {bytes : Bytes} {rest : ValueStream}
    (h : Least lanes i doc bytes rest) (hclean : ∀ lane ∈ lanes, ∀ e, .error e ∉ lane) :
    ∀ lane ∈ lanes.set i rest, ∀ e, .error e ∉ lane := by
  intro lane hlane e he
  rcases List.mem_or_eq_of_mem_set hlane with hold | rfl
  · exact hclean lane hold e he
  · exact hclean _ (List.mem_iff_getElem?.mpr ⟨i, h.lane⟩) e (List.mem_cons_of_mem _ he)

/-- Lanes without errors are drawn from to their end. The merge yields what is fresh and counts the
others. -/
theorem Merges.draws {out : ValueStream} {n : Nat} (h : Merges lanes last out n)
    (hclean : ∀ lane ∈ lanes, ∀ e, .error e ∉ lane) :
    ∃ drawn, Draws lanes drawn ∧ out = (fresh last drawn).map (fun d => .ok d.value) ∧
      (fresh last drawn).length + n = drawn.length := by
  induction h with
  | done ended => exact ⟨[], .done ended, rfl, rfl⟩
  | @fail lanes last i doc bytes e rest least =>
    have hlane := List.mem_iff_getElem?.mpr ⟨i, least.lane⟩
    exact absurd (List.mem_cons_of_mem _ List.mem_cons_self) (hclean _ hlane e)
  | @skip lanes i doc bytes rest out n least more ih =>
    obtain ⟨drawn, hdraws, hout, hcount⟩ := ih (least.clean_set hclean)
    refine ⟨⟨i, doc, bytes⟩ :: drawn, .draw least hdraws, ?_, ?_⟩
    · rw [fresh, if_pos rfl, hout]
    · rw [fresh, if_pos rfl, List.length_cons, ← hcount, Nat.add_assoc]
  | @take lanes last i doc bytes rest out n least hfresh more ih =>
    obtain ⟨drawn, hdraws, hout, hcount⟩ := ih (least.clean_set hclean)
    refine ⟨⟨i, doc, bytes⟩ :: drawn, .draw least hdraws, ?_, ?_⟩
    · rw [fresh, if_neg hfresh, List.map_cons, hout]
      rfl
    · rw [fresh, if_neg hfresh, List.length_cons, List.length_cons, ← hcount, Nat.add_right_comm]

/-! ## The end -/

theorem isStarted_turn {m m' : Merge} {head : DocId × Option Bytes} {result : Except Error Unit}
    (h : m.turn = some (head, result, m')) : m'.isStarted = m.isStarted := by
  unfold turn at h
  split at h
  · exact absurd h nofun
  · next doc i queue hqueue =>
    have hrest := refill_rest { m with queue, heads := m.heads.set i none } i
    rw [Option.some.injEq, Prod.mk.injEq] at h
    rw [h.2] at hrest
    exact hrest.2.1

theorem isStarted_refillAll {m m' : Merge} {is : List Nat} {result : Except Error Unit}
    (h : m.refillAll is = (result, m')) : m'.isStarted = m.isStarted := by
  fun_induction refillAll m is with
  | case1 m =>
    rw [Prod.mk.injEq] at h
    rw [h.2]
  | case2 m i rest m₁ hfill ih =>
    have hrest := refill_rest m i
    rw [hfill] at hrest
    exact (ih h).trans hrest.2.1
  | case3 m i rest e m₁ hfill =>
    have hrest := refill_rest m i
    rw [hfill] at hrest
    rw [Prod.mk.injEq] at h
    rw [← h.2]
    exact hrest.2.1

theorem advance_of_turn_none {m : Merge} (h : m.turn = none) : m.advance = (none, m) := by
  unfold advance
  split
  · rfl
  · next hturn =>
    rw [h] at hturn
    cases hturn
  · next hturn =>
    rw [h] at hturn
    cases hturn

theorem turn_of_advance_none {m m' : Merge} (h : m.advance = (none, m')) :
    m'.turn = none ∧ m'.isStarted = m.isStarted := by
  fun_induction Merge.advance m with
  | case1 m hturn =>
    obtain rfl : m = m' := (Prod.mk.inj h).2
    exact ⟨hturn, rfl⟩
  | case2 m head e m₁ hturn => cases h
  | case3 m doc head m₁ hturn hlast ih =>
    exact (ih h).imp_right fun hsame : m'.isStarted = m₁.isStarted =>
      hsame.trans (isStarted_turn hturn)
  | case4 m doc m₁ hfresh bytes hturn => cases h
  | case5 m doc m₁ hfresh _ hturn ih =>
    exact (ih h).imp_right fun hsame => hsame.trans (isStarted_turn hturn)

/-- A merge that has ended stays as it is. -/
theorem next_of_next_none {m m' : Merge} (h : m.next = (none, m')) : m'.next = (none, m') := by
  have hended : m'.turn = none ∧ m'.isStarted = true := by
    unfold next at h
    split at h
    · next hstarted => exact (turn_of_advance_none h).imp_right (·.trans hstarted)
    · split at h
      · exact absurd (Prod.mk.inj h).1 nofun
      · next m₁ hfill =>
        exact (turn_of_advance_none h).imp_right (·.trans (isStarted_refillAll hfill))
  rw [next_of_started hended.2]
  exact advance_of_turn_none hended.1

theorem next_run {m : Merge} (hclean : ∀ e, .error e ∉ m.run.1) :
    m.run.2.next = (none, m.run.2) := by
  fun_induction Merge.run m with
  | case1 m m' hnext => exact next_of_next_none hnext
  | case2 m e m' hnext => exact absurd List.mem_cons_self (hclean e)
  | case3 m value m' hnext more ended hrun ih =>
    rw [hrun] at ih
    exact ih fun e he => hclean e (List.mem_cons_of_mem _ he)

/-! ## Inputs in any order -/

theorem mem_images {input : MergeInput} {doc : DocId} {bytes : Bytes} :
    (doc, bytes) ∈ input.images ↔
      ∃ old, .ok (old, bytes) ∈ input.values ∧ input.docMap.get? old = some doc := by
  rw [MergeInput.images, List.mem_filterMap]
  constructor
  · rintro ⟨e | ⟨old, bytes'⟩, hmem, heq⟩
    · cases heq
    · obtain ⟨new, hget, heq⟩ := Option.map_eq_some_iff.mp heq
      obtain ⟨rfl, rfl⟩ := Prod.mk.inj heq
      exact ⟨old, hmem, hget⟩
  · rintro ⟨old, hmem, hget⟩
    exact ⟨.ok (old, bytes), hmem, Option.map_eq_some_iff.mpr ⟨doc, hget, rfl⟩⟩

section Inputs

variable {inputs : List MergeInput} (h : Draws (inputs.map MergeInput.lane) drawn)

include h

/-- What is drawn from an input is what survives of it, in its order. -/
theorem Draws.of_input {input : MergeInput} (hi : inputs[i]? = some input) :
    (drawn.filter (·.input == i)).map Draw.value = input.images := by
  rw [← okays_lane input]
  refine h.of_lane ?_
  rw [List.getElem?_map, hi]
  rfl

theorem Draws.exists_document {d : Draw} (hd : d ∈ drawn) :
    ∃ input old, inputs[d.input]? = some input ∧ .ok (old, d.bytes) ∈ input.values ∧
      input.docMap.get? old = some d.doc := by
  obtain ⟨lane, hlane, hvalue⟩ := h.mem hd
  rw [List.getElem?_map, Option.map_eq_some_iff] at hlane
  obtain ⟨input, hinput, rfl⟩ := hlane
  rw [okays_lane] at hvalue
  obtain ⟨old, hmem, hget⟩ := mem_images.mp hvalue
  exact ⟨input, old, hinput, hmem, hget⟩

theorem Draws.perm_images : (drawn.map Draw.value).Perm (inputs.flatMap MergeInput.images) := by
  have hsame : (inputs.map MergeInput.lane).flatMap okays = inputs.flatMap MergeInput.images := by
    rw [List.flatMap_map]
    exact congrArg (inputs.flatMap ·) (funext okays_lane)
  exact hsame ▸ h.perm

end Inputs

/-- **A merge of inputs in any order loses nothing.** Whatever the document maps are and however the
values are ordered, a merge of streams without errors comes to an end and stays there. It has drawn
from its inputs, always at the least of their heads, and has yielded every draw whose number was not
that of the draw before. So the numbers that come out are exactly those of the documents that survive;
every value that comes out is that of a surviving document of the input it was drawn from, under that
document's number; the values from one input come in the order of the input; no number comes out twice
in a row; and what came out and what was counted as a duplicate make up the surviving documents. -/
theorem nothing_lost (inputs : List MergeInput)
    (hclean : ∀ input ∈ inputs, ∀ e, .error e ∉ input.values) :
    ∃ drawn, Draws (inputs.map MergeInput.lane) drawn ∧
      let kept := fresh none drawn
      let ended := (ofInputs inputs).run.2
      stream inputs = kept.map (fun d => .ok d.value) ∧
      ended.next = (none, ended) ∧
      (∀ doc, (∃ d ∈ kept, d.doc = doc) ↔ ∃ input ∈ inputs, ∃ old bytes,
        .ok (old, bytes) ∈ input.values ∧ input.docMap.get? old = some doc) ∧
      (∀ d ∈ kept, ∃ input old, inputs[d.input]? = some input ∧
        .ok (old, d.bytes) ∈ input.values ∧ input.docMap.get? old = some d.doc) ∧
      (∀ i input, inputs[i]? = some input →
        ((kept.filter (·.input == i)).map Draw.value).Sublist input.images) ∧
      (kept.map Draw.doc).IsChain (· ≠ ·) ∧
      kept.length + ended.duplicates = (inputs.flatMap MergeInput.images).length := by
  have hlanes : ∀ lane ∈ inputs.map MergeInput.lane, ∀ e, .error e ∉ lane := by
    intro lane hlane e he
    obtain ⟨input, hinput, rfl⟩ := List.mem_map.mp hlane
    exact hclean input hinput e (error_mem_relabel.mp he)
  have hmerges : Merges (inputs.map MergeInput.lane) none (stream inputs)
      (ofInputs inputs).run.2.duplicates := by
    rcases run_cases inputs with ⟨e, -, lane, hlane, he⟩ | hmerges
    · exact absurd he (hlanes lane hlane e)
    · exact hmerges
  obtain ⟨drawn, hdraws, hout, hcount⟩ := hmerges.draws hlanes
  have hkept : ∀ d ∈ fresh none drawn, d ∈ drawn := fun d hd =>
    (fresh_sublist none drawn).subset hd
  refine ⟨drawn, hdraws, hout, next_run ?_, ?_, fun d hd => hdraws.exists_document (hkept d hd), ?_,
    isChain_fresh none drawn, ?_⟩
  · intro e he
    have hmem : .error e ∈ stream inputs := he
    rw [hout] at hmem
    obtain ⟨d, -, heq⟩ := List.mem_map.mp hmem
    exact absurd heq nofun
  · intro doc
    constructor
    · rintro ⟨d, hd, rfl⟩
      obtain ⟨input, old, hinput, hmem, hget⟩ := hdraws.exists_document (hkept d hd)
      exact ⟨input, List.mem_iff_getElem?.mpr ⟨d.input, hinput⟩, old, d.bytes, hmem, hget⟩
    · rintro ⟨input, hinput, old, bytes, hmem, hget⟩
      have himage : (doc, bytes) ∈ inputs.flatMap MergeInput.images :=
        List.mem_flatMap.mpr ⟨input, hinput, mem_images.mpr ⟨old, hmem, hget⟩⟩
      -- The document was drawn, and a draw that is not yielded repeats one that is.
      obtain ⟨d, hd, heq⟩ := List.mem_map.mp (hdraws.perm_images.mem_iff.mpr himage)
      obtain ⟨x, hx, hdoc⟩ := (doc_mem_fresh none hd).resolve_left nofun
      exact ⟨x, hx, hdoc.trans (Prod.mk.inj heq).1⟩
  · intro i input hinput
    rw [← hdraws.of_input hinput]
    exact ((fresh_sublist none drawn).filter _).map _
  · rw [hcount, ← hdraws.perm_images.length_eq, List.length_map]

/-- Two inputs whose maps give their documents no order: one number comes first, third and from the
other input as well, and the last document read comes before a deleted one. -/
def scattered : List MergeInput :=
  [{ values := [.ok (0, [1]), .ok (1, [2]), .ok (2, [3])]
     docMap := ⟨[some 7, some 3, some 7]⟩ },
   { values := [.ok (0, [4]), .ok (2, [5]), .ok (1, [6])]
     docMap := ⟨[some 7, some 3, none]⟩ }]

theorem nothing_lost_of_scattered :
    (∀ input ∈ scattered, ∀ e, .error e ∉ input.values) ∧
    stream scattered = [.ok (7, [1]), .ok (3, [2]), .ok (7, [3]), .ok (3, [6])] ∧
    (ofInputs scattered).run.2.duplicates = 1 ∧
    ∃ drawn, Draws (scattered.map MergeInput.lane) drawn ∧
      stream scattered = (fresh none drawn).map (fun d => .ok d.value) ∧
      (fresh none drawn).length + (ofInputs scattered).run.2.duplicates
        = (scattered.flatMap MergeInput.images).length := by
  have hclean : ∀ input ∈ scattered, ∀ e, .error e ∉ input.values := by simp [scattered]
  obtain ⟨drawn, hdraws, hout, -, -, -, -, -, hcount⟩ := nothing_lost scattered hclean
  exact ⟨hclean, by decide +kernel, by decide +kernel, drawn, hdraws, hout, hcount⟩

end Sidecar.Merge
