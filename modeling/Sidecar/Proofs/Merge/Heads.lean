import Sidecar.Proofs.Merge.Interleaving

/-!
# Which bytes go with a queue element

The queue of a merge holds numbers, and the bytes that they belong to are among the heads. The two
are changed apart from each other: a turn takes the queue element, then the head, and then reads on,
and an error may end the call in between. The lanes do not help here: what is proved with them ends
at the first error, and a lane does not know which document its first value was.

This module accounts for the inputs one by one instead (`Held`): the values of an input that were
read are a beginning of it, and if something is waiting for it, then it is the number and the bytes
of the last document read. Reading on in an input for which nothing is waiting keeps the account, an
error included (`Accounted.refill`), and so does a turn (`Accounted.turn`), since it first takes
away what is waiting. So the account is right whenever a call ends, and it is right before every
turn inside a call, which `nextTurns` writes down.
-/

set_option autoImplicit false

namespace Sidecar.Merge

/-! ## Calls and turns -/

/-- A merge of some inputs after so many calls of `next`, whatever the calls gave. -/
def afterCalls (inputs : List MergeInput) : Nat → Merge
  | 0 => ofInputs inputs
  | n + 1 => (afterCalls inputs n).next.2

/-- `advance`, with the states in which it takes its turns. -/
def advanceTurns (m : Merge) : List Merge × Option (Except Error (DocId × Bytes)) × Merge :=
  match _ : m.turn with
  | none => ([], none, m)
  | some (_, .error e, m') => ([m], some (.error e), m')
  | some ((doc, bytes), .ok (), m') =>
    if m'.last = some doc then
      let (turns, result) := advanceTurns { m' with duplicates := m'.duplicates + 1 }
      (m :: turns, result)
    else match bytes with
      | some bytes => ([m], some (.ok (doc, bytes)), { m' with last := some doc })
      | none =>
        let (turns, result) := advanceTurns m'
        (m :: turns, result)
  termination_by m.pending
  decreasing_by
    all_goals
      have less := pending_turn ‹m.turn = some _›
      exact less

/-- `next`, with the states in which it takes its turns. -/
def nextTurns (m : Merge) : List Merge × Option (Except Error (DocId × Bytes)) × Merge :=
  if m.isStarted then m.advanceTurns
  else match { m with isStarted := true }.refillAll (List.range m.inputs.length) with
    | (.error e, m) => ([], some (.error e), m)
    | (.ok (), m) => m.advanceTurns

theorem advance_eq (m : Merge) : m.advance = match m.turn with
    | none => (none, m)
    | some (_, .error e, m') => (some (.error e), m')
    | some ((doc, head), .ok (), m') =>
      if m'.last = some doc then advance { m' with duplicates := m'.duplicates + 1 }
      else match head with
        | some bytes => (some (.ok (doc, bytes)), { m' with last := some doc })
        | none => m'.advance := by
  rw [advance]
  split
  · next hturn => rw [hturn]
  · next hturn => rw [hturn]
  · next doc head m' hturn =>
    cases head <;> simp only [hturn]

theorem advanceTurns_snd (m : Merge) : m.advanceTurns.2 = m.advance := by
  fun_induction advanceTurns m with
  | case1 m hturn => rw [advance_eq, hturn]
  | case2 m head e m' hturn => rw [advance_eq, hturn]
  | case3 m doc head m' hturn hlast turns result heq ih =>
    rw [advance_eq, hturn]
    simp only [if_pos hlast]
    rw [← ih, heq]
  | case4 m doc m' hfresh bytes hturn =>
    rw [advance_eq, hturn]
    simp only [if_neg hfresh]
  | case5 m doc m' hfresh _ turns result heq hturn ih =>
    rw [advance_eq, hturn]
    simp only [if_neg hfresh]
    rw [← ih, heq]

/-- Writing the turns down changes nothing. -/
theorem nextTurns_snd (m : Merge) : m.nextTurns.2 = m.next := by
  unfold nextTurns next
  split
  · exact advanceTurns_snd m
  · generalize { m with isStarted := true }.refillAll (List.range m.inputs.length) = filled
    obtain ⟨e | _, m'⟩ := filled
    · rfl
    · exact advanceTurns_snd m'

theorem isStarted_advance (m : Merge) : m.advance.2.isStarted = m.isStarted := by
  fun_induction Merge.advance m with
  | case1 m hturn => rfl
  | case2 m head e m' hturn => exact isStarted_turn hturn
  | case3 m doc head m' hturn hlast ih =>
    have hsame : m'.isStarted = m.isStarted := isStarted_turn hturn
    exact ih.trans hsame
  | case4 m doc m' hfresh bytes hturn =>
    have hsame : m'.isStarted = m.isStarted := isStarted_turn hturn
    exact hsame
  | case5 m doc m' hfresh _ hturn ih => exact ih.trans (isStarted_turn hturn)

theorem isStarted_next (m : Merge) : m.next.2.isStarted = true := by
  unfold next
  split
  · next hstarted => rw [isStarted_advance, hstarted]
  · split
    · next hfill => exact isStarted_refillAll hfill
    · next hfill => rw [isStarted_advance, isStarted_refillAll hfill]

/-! ## The account of an input -/

/-- What is read ahead in an input of which some values are left: nothing, or the bytes and the new
number of the document that was read last. -/
inductive Held (i : Nat) (input : MergeInput) :
    ValueStream → Option Bytes → List (DocId × Nat) → Prop where
  | nothing {rest} (left : rest <:+ input.values) : Held i input rest none []
  | document {before old bytes rest doc}
      (values : input.values = before ++ .ok (old, bytes) :: rest)
      (survives : input.docMap.get? old = some doc) : Held i input rest (some bytes) [(doc, i)]

/-- Reading stops at the next document that survives, or else it finds none: then it is at an error
or at the end. -/
theorem pull_position (map : DocMap) (values : ValueStream) :
    (∃ before old bytes rest doc, values = before ++ .ok (old, bytes) :: rest ∧
      map.get? old = some doc ∧ pull map values = (.ok (some (doc, bytes)), rest)) ∨
    (∃ e rest, pull map values = (.error e, rest) ∧ rest <:+ values) ∨
    ∃ rest, pull map values = (.ok none, rest) ∧ rest <:+ values := by
  fun_induction pull map values with
  | case1 => exact Or.inr (Or.inr ⟨[], rfl, List.suffix_refl []⟩)
  | case2 e rest => exact Or.inr (Or.inl ⟨e, rest, rfl, List.suffix_cons _ rest⟩)
  | case3 old bytes rest new hget => exact Or.inl ⟨[], old, bytes, rest, new, rfl, hget, rfl⟩
  | case4 old bytes rest hget ih =>
    rcases ih with ⟨before, old', bytes', rest', doc, heq, hget', hpull⟩ |
      ⟨e, rest', hpull, hleft⟩ | ⟨rest', hpull, hleft⟩
    · refine Or.inl ⟨.ok (old, bytes) :: before, old', bytes', rest', doc, ?_, hget', hpull⟩
      rw [heq, List.cons_append]
    · exact Or.inr (Or.inl ⟨e, rest', hpull, hleft.trans (List.suffix_cons _ rest)⟩)
    · exact Or.inr (Or.inr ⟨rest', hpull, hleft.trans (List.suffix_cons _ rest)⟩)

/-- A merge in which there is an account of every input. -/
structure Accounted (inputs : List MergeInput) (m : Merge) : Prop where
  inputCount : m.inputs.length = inputs.length
  headCount : m.heads.length = inputs.length
  known : ∀ x ∈ m.queue, x.2 < inputs.length
  account : ∀ i input, inputs[i]? = some input → ∃ rest head,
    m.inputs[i]? = some { input with values := rest } ∧ m.heads[i]? = some head ∧
      Held i input rest head (m.waiting i)

variable {inputs : List MergeInput} {m m' : Merge} {i : Nat}

theorem accounted_ofInputs (inputs : List MergeInput) : Accounted inputs (ofInputs inputs) := by
  refine ⟨rfl, List.length_map _, nofun, ?_⟩
  intro i input hi
  have hhead : (inputs.map fun _ => (none : Option Bytes))[i]? = some none := by
    rw [List.getElem?_map, hi]
    rfl
  exact ⟨input.values, none, hi, hhead, .nothing (List.suffix_refl _)⟩

/-- What the account does not mention. -/
theorem Accounted.note (h : Accounted inputs m) (isStarted : Bool) (last : Option DocId)
    (duplicates : Nat) : Accounted inputs { m with isStarted, last, duplicates } :=
  ⟨h.inputCount, h.headCount, h.known, h.account⟩

/-- One input has a new account, and the others stay. -/
theorem Accounted.update (h : Accounted inputs m) {input : MergeInput} {rest : ValueStream}
    {head : Option Bytes} (hi : inputs[i]? = some input)
    (hinputs : m'.inputs = m.inputs.set i { input with values := rest })
    (hheads : m'.heads = m.heads.set i head) (hqueue : ∀ x ∈ m'.queue, x.2 = i ∨ x ∈ m.queue)
    (hother : ∀ j, j ≠ i → m'.waiting j = m.waiting j)
    (hheld : Held i input rest head (m'.waiting i)) : Accounted inputs m' := by
  have hlt : i < inputs.length := (List.getElem?_eq_some_iff.mp hi).1
  refine ⟨?_, ?_, ?_, ?_⟩
  · rw [hinputs, List.length_set]
    exact h.inputCount
  · rw [hheads, List.length_set]
    exact h.headCount
  · intro x hx
    rcases hqueue x hx with heq | hold
    · exact heq ▸ hlt
    · exact h.known x hold
  · intro j input' hj
    rw [hinputs, hheads]
    by_cases hji : j = i
    · subst hji
      obtain rfl : input = input' := Option.some.inj (hi.symm.trans hj)
      exact ⟨rest, head, List.getElem?_set_self (h.inputCount ▸ hlt),
        List.getElem?_set_self (h.headCount ▸ hlt), hheld⟩
    · rw [List.getElem?_set_ne (Ne.symm hji), List.getElem?_set_ne (Ne.symm hji), hother j hji]
      exact h.account j input' hj

/-! ## Reading on -/

section Input

variable (h : Accounted inputs m) {input : MergeInput} {values rest : ValueStream}
  (hi : inputs[i]? = some input) (hwait : m.waiting i = []) (hvalues : values <:+ input.values)

include h hi hwait hvalues

/-- Values are taken off an input for which nothing is waiting. -/
theorem Accounted.leave (hhead : m.heads[i]? = some none) (hrest : rest <:+ values) :
    Accounted inputs (m.leave i { input with values } rest) := by
  refine h.update hi rfl (set_eq_self hhead).symm (fun x hx => Or.inr hx) (fun j _ => rfl) ?_
  have hsame : (m.leave i { input with values } rest).waiting i = [] := hwait
  rw [hsame]
  exact .nothing (hrest.trans hvalues)

theorem Accounted.readAhead {before : ValueStream} {old doc : DocId} {bytes : Bytes}
    (heq : values = before ++ .ok (old, bytes) :: rest) (hget : input.docMap.get? old = some doc) :
    Accounted inputs { m.leave i { input with values } rest with
      heads := m.heads.set i (some bytes)
      queue := enqueue (doc, i) m.queue } := by
  refine h.update hi rfl rfl ?_ ?_ ?_
  · intro x hx
    exact (mem_enqueue.mp hx).imp_left (congrArg Prod.snd)
  · intro j hj
    exact filter_enqueue_of_neg (by simpa using Ne.symm hj) m.queue
  · show Held i input rest (some bytes) ((enqueue (doc, i) m.queue).filter (·.2 == i))
    rw [filter_enqueue_of_pos (by simp) hwait]
    -- What was read before comes first, so the document has its place in the whole input.
    obtain ⟨read, hread⟩ := hvalues
    have hplace : input.values = (read ++ before) ++ .ok (old, bytes) :: rest := by
      rw [← hread, heq, List.append_assoc]
    exact .document hplace hget

end Input

/-- An input for which nothing is waiting is read on, be it to an error. -/
theorem Accounted.refill (h : Accounted inputs m) (hwait : m.waiting i = []) :
    Accounted inputs (m.refill i).2 ∧ ∀ j, j ≠ i → (m.refill i).2.waiting j = m.waiting j := by
  cases hi : inputs[i]? with
  | none =>
    have hnone : m.inputs[i]? = none := by
      rw [List.getElem?_eq_none_iff, h.inputCount]
      exact List.getElem?_eq_none_iff.mp hi
    simp only [Merge.refill, hnone]
    exact ⟨h, fun _ _ => trivial⟩
  | some input =>
    obtain ⟨values, head, hinput, hhead, hheld⟩ := h.account i input hi
    rw [hwait] at hheld
    cases hheld with
    | nothing hvalues =>
    rcases pull_position input.docMap values with
      ⟨before, old, bytes, rest, doc, heq, hget, hpull⟩ | ⟨e, rest, hpull, hrest⟩ |
      ⟨rest, hpull, hrest⟩
    · simp only [Merge.refill, hinput, hpull]
      refine ⟨h.readAhead hi hwait hvalues heq hget, fun j hj => ?_⟩
      exact filter_enqueue_of_neg (by simpa using Ne.symm hj) m.queue
    · simp only [Merge.refill, hinput, hpull]
      exact ⟨h.leave hi hwait hvalues hhead hrest, fun _ _ => rfl⟩
    · simp only [Merge.refill, hinput, hpull]
      exact ⟨h.leave hi hwait hvalues hhead hrest, fun _ _ => rfl⟩

/-- The first look keeps the account, also if an error ends it before the last input. -/
theorem Accounted.refillAll {is : List Nat} (h : Accounted inputs m) (hdistinct : is.Nodup)
    (hwait : ∀ i ∈ is, m.waiting i = []) : Accounted inputs (m.refillAll is).2 := by
  fun_induction Merge.refillAll m is with
  | case1 m => exact h
  | case2 m i rest m' hfill ih =>
    rw [List.nodup_cons] at hdistinct
    obtain ⟨hm', hother⟩ := h.refill (hwait i List.mem_cons_self)
    rw [hfill] at hm' hother
    refine ih hm' hdistinct.2 fun j hj => ?_
    rw [hother j fun hji => hdistinct.1 (hji ▸ hj)]
    exact hwait j (List.mem_cons_of_mem _ hj)
  | case3 m i rest e m' hfill =>
    have hm' := (h.refill (hwait i List.mem_cons_self)).1
    rw [hfill] at hm'
    exact hm'

/-! ## Queue and heads -/

/-- The document that was read last in an input has the bytes given, and its new number is `doc`. -/
def ReadLast (inputs : List MergeInput) (m : Merge) (i : Nat) (doc : DocId) (bytes : Bytes) :
    Prop :=
  ∃ input before old rest, inputs[i]? = some input ∧
    input.values = before ++ .ok (old, bytes) :: rest ∧ input.docMap.get? old = some doc ∧
    m.inputs[i]? = some { input with values := rest }

/-- The queue of a merge and its heads belong together. -/
structure Paired (inputs : List MergeInput) (m : Merge) : Prop where
  /-- At most one queue element is of one input. -/
  one : ∀ i, (m.waiting i).length ≤ 1
  /-- An input has a head exactly if the queue has an element of it. -/
  present : ∀ i, (∃ bytes, m.heads[i]? = some (some bytes)) ↔ ∃ doc, (doc, i) ∈ m.queue
  /-- The element has the number of the document that the head is from. -/
  image : ∀ i doc bytes, (doc, i) ∈ m.queue → m.heads[i]? = some (some bytes) →
    ReadLast inputs m i doc bytes

/-- The next turn takes a number off the queue, and a head with the bytes that go with it. -/
def Pops (inputs : List MergeInput) (m : Merge) (doc : DocId) (bytes : Bytes) : Prop :=
  ∃ i queue, m.queue = (doc, i) :: queue ∧ m.heads[i]? = some (some bytes) ∧
    ReadLast inputs m i doc bytes

theorem mem_waiting {doc : DocId} : (doc, i) ∈ m.waiting i ↔ (doc, i) ∈ m.queue := by
  rw [waiting, List.mem_filter]
  exact and_iff_left (beq_self_eq_true i)

/-- A queue element is all that is waiting for its input, and the input has a head. Both are of the
document that was read last. -/
theorem Accounted.of_mem (h : Accounted inputs m) {doc : DocId} (hmem : (doc, i) ∈ m.queue) :
    m.waiting i = [(doc, i)] ∧
      ∃ bytes, m.heads[i]? = some (some bytes) ∧ ReadLast inputs m i doc bytes := by
  have hi := List.getElem?_eq_getElem (h.known _ hmem)
  obtain ⟨rest, head, hinput, hhead, hheld⟩ := h.account i _ hi
  have hmem := mem_waiting.mpr hmem
  generalize m.waiting i = waiting at hheld hmem ⊢
  cases hheld with
  | nothing hleft => exact absurd hmem List.not_mem_nil
  | @document before old bytes rest doc' hvalues hget =>
    obtain rfl : doc = doc' := (Prod.mk.inj (List.mem_singleton.mp hmem)).1
    exact ⟨rfl, bytes, hhead, _, before, old, rest, hi, hvalues, hget, hinput⟩

theorem Accounted.of_head (h : Accounted inputs m) {bytes : Bytes}
    (hhead : m.heads[i]? = some (some bytes)) : ∃ doc, (doc, i) ∈ m.queue := by
  have hlt : i < inputs.length := h.headCount ▸ (List.getElem?_eq_some_iff.mp hhead).1
  obtain ⟨rest, head, -, hhead', hheld⟩ := h.account i _ (List.getElem?_eq_getElem hlt)
  obtain rfl : some bytes = head := Option.some.inj (hhead.symm.trans hhead')
  generalize hwait : m.waiting i = waiting at hheld
  cases hheld with
  | @document before old bytes rest doc hvalues hget =>
    refine ⟨doc, mem_waiting.mp ?_⟩
    rw [hwait]
    exact List.mem_singleton_self _

theorem Accounted.paired (h : Accounted inputs m) : Paired inputs m := by
  refine ⟨fun i => ?_, fun i => ⟨?_, ?_⟩, ?_⟩
  · cases hwait : m.waiting i with
    | nil => exact Nat.zero_le 1
    | cons x others =>
      obtain ⟨doc, j⟩ := x
      have hx : (doc, j) ∈ m.waiting i := hwait ▸ List.mem_cons_self
      obtain ⟨hmem, heq⟩ := List.mem_filter.mp hx
      obtain rfl : j = i := beq_iff_eq.mp heq
      rw [← hwait, (h.of_mem hmem).1]
      exact Nat.le_refl 1
  · rintro ⟨bytes, hhead⟩
    exact h.of_head hhead
  · rintro ⟨doc, hmem⟩
    obtain ⟨-, bytes, hhead, -⟩ := h.of_mem hmem
    exact ⟨bytes, hhead⟩
  · intro i doc bytes hmem hhead
    obtain ⟨-, bytes', hhead', hread⟩ := h.of_mem hmem
    obtain rfl : bytes = bytes' :=
      Option.some.inj (Option.some.inj (hhead.symm.trans hhead'))
    exact hread

/-! ## Turns -/

/-- Nothing is waiting for the input of the first queue element when the element is taken away with
its head. -/
theorem Accounted.pop (h : Accounted inputs m) {doc : DocId} {queue : List (DocId × Nat)}
    (hqueue : m.queue = (doc, i) :: queue) :
    queue.filter (·.2 == i) = [] ∧
      Accounted inputs { m with queue, heads := m.heads.set i none } := by
  obtain ⟨hwait, bytes, -, hread⟩ := h.of_mem (hqueue ▸ List.mem_cons_self)
  have hnone : queue.filter (·.2 == i) = [] := by
    have hfirst : m.waiting i = (doc, i) :: queue.filter (·.2 == i) := by
      rw [waiting, hqueue]
      exact List.filter_cons_of_pos (beq_self_eq_true i)
    exact (List.cons.inj (hfirst.symm.trans hwait)).2
  obtain ⟨input, before, old, rest, hi, hvalues, -, hinput⟩ := hread
  refine ⟨hnone, h.update hi (set_eq_self hinput).symm rfl ?_ ?_ ?_⟩
  · intro x hx
    rw [hqueue]
    exact Or.inr (List.mem_cons_of_mem _ hx)
  · intro j hj
    rw [waiting, waiting, hqueue]
    exact (List.filter_cons_of_neg (by simpa using Ne.symm hj)).symm
  · have hleft : rest <:+ input.values := by
      rw [hvalues]
      exact (List.suffix_cons _ rest).trans (List.suffix_append before _)
    show Held i input rest none (queue.filter (·.2 == i))
    rw [hnone]
    exact .nothing hleft

/-- A turn finds the bytes of its queue element, and the account is right after it, also if reading
on fails. -/
theorem Accounted.turn (h : Accounted inputs m) {doc : DocId} {head : Option Bytes}
    {result : Except Error Unit} (hturn : m.turn = some ((doc, head), result, m')) :
    (∃ bytes, head = some bytes ∧ Pops inputs m doc bytes) ∧ Accounted inputs m' := by
  unfold Merge.turn at hturn
  split at hturn
  · exact absurd hturn nofun
  · next doc' i queue hqueue =>
    rw [Option.some.injEq, Prod.mk.injEq, Prod.mk.injEq] at hturn
    obtain ⟨⟨rfl, hhead⟩, hrefill⟩ := hturn
    obtain ⟨-, bytes, hbytes, hread⟩ := h.of_mem (hqueue ▸ List.mem_cons_self)
    obtain ⟨hnone, hpop⟩ := h.pop hqueue
    have hm' := (hpop.refill hnone).1
    rw [hrefill] at hm'
    refine ⟨⟨bytes, ?_, i, queue, hqueue, hbytes, hread⟩, hm'⟩
    rw [← hhead, hbytes]
    rfl

/-- The turns of a call find what goes together, and what the call yields is what its last turn
found. -/
structure TurnsPaired (inputs : List MergeInput) (turns : List Merge)
    (answer : Option (Except Error (DocId × Bytes))) : Prop where
  paired : ∀ s ∈ turns, Paired inputs s ∧ ∃ doc bytes, Pops inputs s doc bytes
  yielded : ∀ doc bytes, answer = some (.ok (doc, bytes)) →
    ∃ before s, turns = before ++ [s] ∧ Pops inputs s doc bytes

theorem TurnsPaired.cons {turns : List Merge} {answer : Option (Except Error (DocId × Bytes))}
    (h : TurnsPaired inputs turns answer) (hm : Accounted inputs m) {doc : DocId} {bytes : Bytes}
    (hpops : Pops inputs m doc bytes) : TurnsPaired inputs (m :: turns) answer := by
  refine ⟨fun s hs => ?_, fun doc' bytes' heq => ?_⟩
  · rcases List.mem_cons.mp hs with rfl | hs
    · exact ⟨hm.paired, doc, bytes, hpops⟩
    · exact h.paired s hs
  · obtain ⟨before, s, rfl, hlast⟩ := h.yielded doc' bytes' heq
    exact ⟨m :: before, s, rfl, hlast⟩

theorem Accounted.advanceTurns (h : Accounted inputs m) :
    TurnsPaired inputs m.advanceTurns.1 m.advanceTurns.2.1 ∧
      Accounted inputs m.advanceTurns.2.2 := by
  fun_induction Merge.advanceTurns m with
  | case1 m hturn => exact ⟨⟨nofun, nofun⟩, h⟩
  | case2 m head e m' hturn =>
    obtain ⟨⟨bytes, -, hpops⟩, hm'⟩ := h.turn hturn
    exact ⟨.cons ⟨nofun, nofun⟩ h hpops, hm'⟩
  | case3 m doc head m' hturn hlast turns result heq ih =>
    obtain ⟨⟨bytes, -, hpops⟩, hm'⟩ := h.turn hturn
    have hrest := ih (hm'.note m'.isStarted m'.last (m'.duplicates + 1))
    rw [heq] at hrest
    exact ⟨hrest.1.cons h hpops, hrest.2⟩
  | case4 m doc m' hfresh bytes hturn =>
    obtain ⟨⟨bytes', heq, hpops⟩, hm'⟩ := h.turn hturn
    obtain rfl : bytes = bytes' := Option.some.inj heq
    refine ⟨⟨fun s hs => ?_, fun doc' bytes' heq => ?_⟩,
      hm'.note m'.isStarted (some doc) m'.duplicates⟩
    · obtain rfl := List.mem_singleton.mp hs
      exact ⟨h.paired, doc, bytes, hpops⟩
    · rw [Option.some.injEq, Except.ok.injEq, Prod.mk.injEq] at heq
      exact ⟨[], m, rfl, heq.1 ▸ heq.2 ▸ hpops⟩
  | case5 m doc m' hfresh _ turns result heq hturn ih =>
    -- A queue element without bytes: the account has none.
    obtain ⟨⟨bytes, hnone, -⟩, -⟩ := h.turn hturn
    cases hnone

/-- A call keeps the account, unless there is something in the queue before the first look. -/
theorem Accounted.nextTurns (h : Accounted inputs m) (hqueue : m.isStarted = false → m.queue = []) :
    TurnsPaired inputs m.nextTurns.1 m.nextTurns.2.1 ∧ Accounted inputs m.nextTurns.2.2 := by
  unfold Merge.nextTurns
  split
  · exact h.advanceTurns
  · next hstart =>
    have hempty := hqueue (Bool.eq_false_iff.mpr hstart)
    have hfill := (h.note true m.last m.duplicates).refillAll
      (List.nodup_range (n := m.inputs.length)) fun i _ => by
        show m.queue.filter (·.2 == i) = []
        rw [hempty]
        rfl
    split
    · next heq =>
      rw [heq] at hfill
      exact ⟨⟨nofun, nofun⟩, hfill⟩
    · next heq =>
      rw [heq] at hfill
      exact hfill.advanceTurns

/-! ## Any number of calls -/

theorem accounted_afterCalls (inputs : List MergeInput) (n : Nat) :
    Accounted inputs (afterCalls inputs n) ∧
      ((afterCalls inputs n).isStarted = false → (afterCalls inputs n).queue = []) := by
  induction n with
  | zero => exact ⟨accounted_ofInputs inputs, fun _ => rfl⟩
  | succ n ih =>
    have hnext := (ih.1.nextTurns ih.2).2
    rw [nextTurns_snd] at hnext
    refine ⟨hnext, fun hstart => ?_⟩
    rw [afterCalls, isStarted_next] at hstart
    cases hstart

/-- **Queue and heads belong together in every state of a merge**, whatever the inputs and their
document maps are, and also after errors. Between two calls of `next` the queue has at most one
element of an input, the input has a head exactly if there is one, and the number of the element is
that of the document which the head was read from. The same holds whenever a call takes a turn; so
every turn finds the bytes of its queue element, also those whose bytes are dropped for a duplicate
or for an error, and the number and the bytes that a call yields are those of one document. -/
theorem heads_match_queue (inputs : List MergeInput) (n : Nat) :
    let m := afterCalls inputs n
    Paired inputs m ∧ m.nextTurns.2 = m.next ∧
      (∀ s ∈ m.nextTurns.1, Paired inputs s ∧ ∃ doc bytes, Pops inputs s doc bytes) ∧
      ∀ doc bytes, m.next.1 = some (.ok (doc, bytes)) →
        ∃ before s, m.nextTurns.1 = before ++ [s] ∧ Pops inputs s doc bytes := by
  intro m
  obtain ⟨hm, hqueue⟩ := accounted_afterCalls inputs n
  obtain ⟨hturns, -⟩ := hm.nextTurns hqueue
  have hsame : m.nextTurns.2 = m.next := nextTurns_snd m
  refine ⟨hm.paired, hsame, hturns.paired, fun doc bytes heq => hturns.yielded doc bytes ?_⟩
  rw [hsame]
  exact heq

/-- Two inputs that begin with the same number. The first one has an error behind it, and the second
one a deleted document. -/
def broken : List MergeInput :=
  [{ values := [.ok (0, [1]), .error .shutDown, .ok (1, [2])]
     docMap := ⟨[some 4, some 5]⟩ },
   { values := [.ok (0, [9]), .ok (1, [8]), .ok (2, [7])]
     docMap := ⟨[some 4, none, some 6]⟩ }]

/-- The first call takes the number off the queue, meets the error and drops the bytes. The next one
yields the same number, with the bytes of the other input. -/
theorem heads_match_queue_of_broken :
    (afterCalls broken 0).next.1 = some (.error .shutDown) ∧
    (afterCalls broken 1).queue = [(4, 1)] ∧ (afterCalls broken 1).heads = [none, some [9]] ∧
    (∀ i, (∃ bytes, (afterCalls broken 1).heads[i]? = some (some bytes)) ↔
      ∃ doc, (doc, i) ∈ (afterCalls broken 1).queue) ∧
    (afterCalls broken 1).next.1 = some (.ok (4, [9])) ∧
    ∃ before s, (afterCalls broken 1).nextTurns.1 = before ++ [s] ∧ Pops broken s 4 [9] := by
  have hyielded : (afterCalls broken 1).next.1 = some (.ok (4, [9])) := by decide +kernel
  obtain ⟨hpaired, -, -, hpops⟩ := heads_match_queue broken 1
  exact ⟨by decide +kernel, by decide +kernel, by decide +kernel, hpaired.present, hyielded,
    hpops 4 [9] hyielded⟩

end Sidecar.Merge
