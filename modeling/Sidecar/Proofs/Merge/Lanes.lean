import Sidecar.Writer.Merge
import Mathlib.Data.List.Basic

/-!
# What a merge has before it

A merge keeps three things about an input, and keeps them apart: the values that were not read yet,
the bytes that were read ahead, and a queue element with the number that goes with the bytes. Put
together again they are the *lane* of the input: what the merge has still to deal with there, deleted
documents left out and numbers translated.

`Tracks` says that a merge stands before certain lanes, and the two theorems to use are about the two
things that a merge does. Reading ahead (`Tracks.refill`) changes no lane, except that it takes off
an error that it meets. A turn (`Ready.turn_cases`) takes the first value off one lane, and it is the
lane whose head is least.
-/

set_option autoImplicit false

namespace Sidecar

/-! ## Lanes -/

/-- The values of a stream under their new numbers; those of deleted documents are left out. -/
def DocMap.relabel (map : DocMap) (values : ValueStream) : ValueStream :=
  values.filterMap fun
    | .error e => some (.error e)
    | .ok (old, bytes) => (map.get? old).map fun new => .ok (new, bytes)

/-- The lane of an input that is read from the start. -/
def MergeInput.lane (input : MergeInput) : ValueStream := input.docMap.relabel input.values

namespace Merge

/-- Pulling takes the first item off the relabelled stream. -/
theorem pull_cases (map : DocMap) (values : ValueStream) :
    (map.relabel values = [] ∧ pull map values = (.ok none, [])) ∨
    (∃ e rest, map.relabel values = .error e :: map.relabel rest ∧
      pull map values = (.error e, rest)) ∨
    ∃ new bytes rest, map.relabel values = .ok (new, bytes) :: map.relabel rest ∧
      pull map values = (.ok (some (new, bytes)), rest) := by
  fun_induction pull map values with
  | case1 => exact Or.inl ⟨rfl, rfl⟩
  | case2 e rest => exact Or.inr (Or.inl ⟨e, rest, rfl, rfl⟩)
  | case3 old bytes rest new h =>
    refine Or.inr (Or.inr ⟨new, bytes, rest, ?_, rfl⟩)
    simp [DocMap.relabel, h]
  | case4 old bytes rest h ih =>
    have hskip : map.relabel (.ok (old, bytes) :: rest) = map.relabel rest := by
      simp [DocMap.relabel, h]
    rw [hskip]
    exact ih

/-! ## The queue -/

def waiting (m : Merge) (i : Nat) : List (DocId × Nat) := m.queue.filter (·.2 == i)

theorem mem_enqueue {x y : DocId × Nat} {queue : List (DocId × Nat)} :
    y ∈ enqueue x queue ↔ y = x ∨ y ∈ queue := by
  induction queue with
  | nil => simp [enqueue]
  | cons z rest ih =>
    unfold enqueue
    split
    · simp
    · rw [List.mem_cons, ih, List.mem_cons]
      tauto

theorem before_trans {a b c : DocId × Nat} (h : before a b = true) (h' : before b c = true) :
    before a c = true := by
  simp only [before, Bool.or_eq_true, Bool.and_eq_true, decide_eq_true_eq, beq_iff_eq] at *
  rcases h with h | ⟨heq, h⟩
  · rcases h' with h' | ⟨heq', _⟩
    · exact Or.inl (UInt32.lt_trans h h')
    · exact Or.inl (heq' ▸ h)
  · rcases h' with h' | ⟨heq', h'⟩
    · exact Or.inl (heq ▸ h')
    · exact Or.inr ⟨heq.trans heq', Nat.lt_trans h h'⟩

/-- Elements of different inputs are in order, one way or the other. -/
theorem before_of_not_before {a b : DocId × Nat} (h : ¬ before a b = true) (hne : a.2 ≠ b.2) :
    before b a = true := by
  simp only [before, Bool.or_eq_true, Bool.and_eq_true, decide_eq_true_eq, beq_iff_eq] at *
  rcases Nat.lt_trichotomy a.1.toNat b.1.toNat with hlt | heq | hlt
  · exact absurd (Or.inl (UInt32.lt_iff_toNat_lt.mpr hlt)) h
  · have hdoc : a.1 = b.1 := UInt32.toNat_inj.mp heq
    have hle : ¬ a.2 < b.2 := fun hlt => h (Or.inr ⟨hdoc, hlt⟩)
    exact Or.inr ⟨hdoc.symm, by omega⟩
  · exact Or.inl (UInt32.lt_iff_toNat_lt.mpr hlt)

theorem ordered_enqueue {x : DocId × Nat} {queue : List (DocId × Nat)}
    (h : queue.Pairwise fun a b => before a b = true) (hnew : ∀ y ∈ queue, y.2 ≠ x.2) :
    (enqueue x queue).Pairwise fun a b => before a b = true := by
  induction queue with
  | nil => exact List.pairwise_singleton _ _
  | cons y rest ih =>
    rw [List.pairwise_cons] at h
    unfold enqueue
    split
    · next hbefore =>
      refine List.pairwise_cons.mpr ⟨?_, List.pairwise_cons.mpr h⟩
      intro z hz
      rcases List.mem_cons.mp hz with rfl | hz
      · exact hbefore
      · exact before_trans hbefore (h.1 z hz)
    · next hnot =>
      refine List.pairwise_cons.mpr ⟨?_, ih h.2 fun z hz => hnew z (List.mem_cons_of_mem _ hz)⟩
      intro z hz
      rcases mem_enqueue.mp hz with rfl | hz
      · exact before_of_not_before hnot (hnew y List.mem_cons_self).symm
      · exact h.1 z hz

theorem filter_enqueue_of_neg {p : DocId × Nat → Bool} {x : DocId × Nat} (h : p x = false)
    (queue : List (DocId × Nat)) : (enqueue x queue).filter p = queue.filter p := by
  induction queue with
  | nil => simp [enqueue, h]
  | cons y rest ih =>
    unfold enqueue
    split
    · rw [List.filter_cons_of_neg (by simp [h])]
    · rw [List.filter_cons, List.filter_cons, ih]

theorem filter_enqueue_of_pos {p : DocId × Nat → Bool} {x : DocId × Nat} (h : p x = true)
    {queue : List (DocId × Nat)} (hnone : queue.filter p = []) :
    (enqueue x queue).filter p = [x] := by
  induction queue with
  | nil => simp [enqueue, h]
  | cons y rest ih =>
    have hy : p y = false := by
      rw [List.filter_eq_nil_iff] at hnone
      simpa using hnone y List.mem_cons_self
    rw [List.filter_cons_of_neg (by simp [hy])] at hnone
    unfold enqueue
    split
    · rw [List.filter_cons_of_pos h, List.filter_cons_of_neg (by simp [hy]), hnone]
    · rw [List.filter_cons_of_neg (by simp [hy]), ih hnone]

/-! ## A merge and its lanes -/

/-- How one input looks when the merge has read ahead in it, and when it has not. What comes after
is the same in both cases, so this is what a lane is. -/
inductive Lookahead (i : Nat) (coming : ValueStream) :
    Option Bytes → List (DocId × Nat) → ValueStream → Prop where
  | behind : Lookahead i coming none [] coming
  | ahead (doc : DocId) (bytes : Bytes) :
      Lookahead i coming (some bytes) [(doc, i)] (.ok (doc, bytes) :: coming)

/-- A merge has certain lanes before it. -/
structure Tracks (m : Merge) (lanes : List ValueStream) : Prop where
  inputs : m.inputs.length = lanes.length
  heads : m.heads.length = lanes.length
  ordered : m.queue.Pairwise fun a b => before a b = true
  known : ∀ x ∈ m.queue, x.2 < lanes.length
  lane : ∀ i lane, lanes[i]? = some lane → ∃ input head, m.inputs[i]? = some input ∧
    m.heads[i]? = some head ∧ Lookahead i input.lane head (m.waiting i) lane

/-- A merge that has read ahead wherever there was something to read. -/
structure Ready (m : Merge) (lanes : List ValueStream) : Prop extends Tracks m lanes where
  started : m.isStarted = true
  settled : ∀ i lane, lanes[i]? = some lane → m.waiting i = [] → lane = []

variable {m m' : Merge} {lanes : List ValueStream} {i : Nat}

/-- One input changes with its lane, and the others stay. -/
theorem Tracks.update (h : Tracks m lanes) {input : MergeInput} {head : Option Bytes}
    {lane : ValueStream} (hinputs : m'.inputs = m.inputs.set i input)
    (hheads : m'.heads = m.heads.set i head)
    (hordered : m'.queue.Pairwise fun a b => before a b = true)
    (hqueue : ∀ x ∈ m'.queue, x.2 = i ∧ i < lanes.length ∨ x ∈ m.queue)
    (hother : ∀ j, j ≠ i → m'.waiting j = m.waiting j)
    (hlane : Lookahead i input.lane head (m'.waiting i) lane) :
    Tracks m' (lanes.set i lane) := by
  refine ⟨?_, ?_, hordered, ?_, ?_⟩
  · rw [hinputs, List.length_set, List.length_set]
    exact h.inputs
  · rw [hheads, List.length_set, List.length_set]
    exact h.heads
  · intro x hx
    rw [List.length_set]
    rcases hqueue x hx with ⟨heq, hlt⟩ | hold
    · exact heq ▸ hlt
    · exact h.known x hold
  · intro j lane' hj
    rw [hinputs, hheads]
    by_cases hji : j = i
    · subst hji
      have hlt : j < lanes.length := by
        rw [← List.length_set (i := j) (a := lane)]
        exact (List.getElem?_eq_some_iff.mp hj).1
      rw [List.getElem?_set_self hlt, Option.some.injEq] at hj
      rw [← hj]
      exact ⟨input, head, List.getElem?_set_self (h.inputs ▸ hlt),
        List.getElem?_set_self (h.heads ▸ hlt), hlane⟩
    · rw [List.getElem?_set_ne (Ne.symm hji)] at hj
      rw [List.getElem?_set_ne (Ne.symm hji), List.getElem?_set_ne (Ne.symm hji), hother j hji]
      exact h.lane j lane' hj

/-! ## Reading ahead -/

theorem eq_take_append {α : Type} {l : List α} {i : Nat} {a : α} (h : l[i]? = some a) :
    l = l.take i ++ a :: l.drop (i + 1) := by
  obtain ⟨hlt, heq⟩ := List.getElem?_eq_some_iff.mp h
  rw [← heq, List.getElem_cons_drop, List.take_append_drop]

theorem set_eq_self {α : Type} {l : List α} {a : α} (h : l[i]? = some a) : l.set i a = l := by
  obtain ⟨hlt, heq⟩ := List.getElem?_eq_some_iff.mp h
  rw [← heq]
  exact List.set_getElem_self hlt

theorem refill_rest (m : Merge) (i : Nat) :
    (m.refill i).2.last = m.last ∧ (m.refill i).2.isStarted = m.isStarted ∧
      (m.refill i).2.duplicates = m.duplicates := by
  unfold refill leave
  split
  · exact ⟨rfl, rfl, rfl⟩
  · split <;> exact ⟨rfl, rfl, rfl⟩

section Input

variable (h : Tracks m lanes) (hwait : m.waiting i = []) (input : MergeInput)

include h hwait

/-- Values are taken off an input in which nothing is read ahead. -/
theorem Tracks.leave (hhead : m.heads[i]? = some none) (values : ValueStream) :
    Tracks (m.leave i input values) (lanes.set i (input.docMap.relabel values)) := by
  refine h.update rfl (set_eq_self hhead).symm
    h.ordered (fun x hx => Or.inr hx) (fun j _ => rfl) ?_
  have hsame : (m.leave i input values).waiting i = [] := hwait
  rw [hsame]
  exact .behind

theorem Tracks.readAhead (hlt : i < lanes.length) (new : DocId) (bytes : Bytes)
    (rest : ValueStream) :
    Tracks { m.leave i input rest with
        heads := m.heads.set i (some bytes)
        queue := enqueue (new, i) m.queue }
      (lanes.set i (.ok (new, bytes) :: input.docMap.relabel rest)) := by
  refine h.update rfl rfl ?_ ?_ ?_ ?_
  · refine ordered_enqueue h.ordered fun y hy heq => ?_
    have hmem : y ∈ m.waiting i := List.mem_filter.mpr ⟨hy, by simpa using heq⟩
    rw [hwait] at hmem
    exact absurd hmem List.not_mem_nil
  · intro x hx
    rcases mem_enqueue.mp hx with rfl | hold
    · exact Or.inl ⟨rfl, hlt⟩
    · exact Or.inr hold
  · intro j hj
    exact filter_enqueue_of_neg (by simpa using Ne.symm hj) m.queue
  · have hone : (enqueue (new, i) m.queue).filter (·.2 == i) = [(new, i)] :=
      filter_enqueue_of_pos (by simp) hwait
    show Lookahead i _ _ ((enqueue (new, i) m.queue).filter (·.2 == i)) _
    rw [hone]
    exact .ahead new bytes

end Input

/-- An input that was not read ahead is read ahead, unless nothing is left there; or there is an
error, which is thereby gone. -/
theorem Tracks.refill (h : Tracks m lanes) {lane : ValueStream} (hi : lanes[i]? = some lane)
    (hwait : m.waiting i = []) :
    (∃ e rest m', m.refill i = (.error e, m') ∧ lane = .error e :: rest ∧
      Tracks m' (lanes.set i rest)) ∨
    ∃ m', m.refill i = (.ok (), m') ∧ Tracks m' lanes ∧ (m'.waiting i = [] → lane = []) ∧
      ∀ j, j ≠ i → m'.waiting j = m.waiting j := by
  obtain ⟨input, head, hinput, hhead, hlook⟩ := h.lane i lane hi
  have hlt : i < lanes.length := (List.getElem?_eq_some_iff.mp hi).1
  rw [hwait] at hlook
  cases hlook
  rcases pull_cases input.docMap input.values with ⟨hlane, hpull⟩ | ⟨e, rest, hlane, hpull⟩ |
    ⟨new, bytes, rest, hlane, hpull⟩
  · have hleave : Tracks (m.leave i input []) (lanes.set i []) :=
      h.leave hwait input hhead []
    rw [MergeInput.lane, hlane] at hi ⊢
    refine Or.inr ⟨m.leave i input [], by simp only [Merge.refill, hinput, hpull], ?_,
      fun _ => rfl, fun j _ => rfl⟩
    exact set_eq_self hi ▸ hleave
  · exact Or.inl ⟨e, input.docMap.relabel rest, m.leave i input rest,
      by simp only [Merge.refill, hinput, hpull], hlane, h.leave hwait input hhead rest⟩
  · rw [MergeInput.lane, hlane] at hi
    have hahead := h.readAhead hwait input hlt new bytes rest
    rw [set_eq_self hi] at hahead
    refine Or.inr ⟨_, by simp only [Merge.refill, hinput, hpull], hahead, ?_, ?_⟩
    · intro hempty
      have hmem : (new, i) ∈ enqueue (new, i) m.queue := mem_enqueue.mpr (Or.inl rfl)
      exact absurd (beq_self_eq_true i) (List.filter_eq_nil_iff.mp hempty _ hmem)
    · intro j hj
      exact filter_enqueue_of_neg (by simpa using Ne.symm hj) m.queue

/-- The first look at every input finds an error, or it leaves the merge ready. -/
theorem Tracks.refillAll {is : List Nat} (h : Tracks m lanes) (hdistinct : is.Nodup)
    (hfresh : ∀ i ∈ is, i < lanes.length ∧ m.waiting i = []) :
    (∃ e m', m.refillAll is = (.error e, m') ∧ ∃ lane ∈ lanes, .error e ∈ lane) ∨
    ∃ m', m.refillAll is = (.ok (), m') ∧ Tracks m' lanes ∧
      (∀ i ∈ is, ∀ lane, lanes[i]? = some lane → m'.waiting i = [] → lane = []) ∧
      (∀ j, j ∉ is → m'.waiting j = m.waiting j) ∧
      m'.last = m.last ∧ m'.isStarted = m.isStarted ∧ m'.duplicates = m.duplicates := by
  induction is generalizing m with
  | nil => exact Or.inr ⟨m, rfl, h, nofun, fun _ _ => rfl, rfl, rfl, rfl⟩
  | cons i rest ih =>
    rw [List.nodup_cons] at hdistinct
    obtain ⟨hlt, hwait⟩ := hfresh i List.mem_cons_self
    have hi : lanes[i]? = some lanes[i] := List.getElem?_eq_getElem hlt
    rcases h.refill hi hwait with ⟨e, tail, m', heq, hlane, -⟩ | ⟨m', heq, hm', hsettled, hother⟩
    · refine Or.inl ⟨e, m', by simp only [Merge.refillAll, heq], lanes[i], List.getElem_mem hlt, ?_⟩
      rw [hlane]
      exact List.mem_cons_self
    · have hrest := refill_rest m i
      rw [heq] at hrest
      -- Only one input was touched, and it does not come again.
      have hfresh' : ∀ j ∈ rest, j < lanes.length ∧ m'.waiting j = [] := by
        intro j hj
        have hne : j ≠ i := fun hji => hdistinct.1 (hji ▸ hj)
        rw [hother j hne]
        exact hfresh j (List.mem_cons_of_mem _ hj)
      have hstep : m.refillAll (i :: rest) = m'.refillAll rest := by
        simp only [Merge.refillAll, heq]
      rw [hstep]
      rcases ih hm' hdistinct.2 hfresh' with hfail | ⟨m'', heq', hm'', hdone, hkept, hlast, hstart, hdups⟩
      · exact Or.inl hfail
      · refine Or.inr ⟨m'', heq', hm'', ?_, ?_, hlast.trans hrest.1, hstart.trans hrest.2.1,
          hdups.trans hrest.2.2⟩
        · intro j hj lane hlane hempty
          rcases List.mem_cons.mp hj with rfl | hj
          · rw [hkept j hdistinct.1] at hempty
            rw [hi, Option.some.injEq] at hlane
            exact hlane ▸ hsettled hempty
          · exact hdone j hj lane hlane hempty
        · intro j hj
          rw [List.mem_cons, not_or] at hj
          rw [hkept j hj.2, hother j hj.1]

/-! ## Turns -/

/-- A lane whose first value is least: no other lane begins with a smaller number, and no earlier
lane with the same. -/
structure Least (lanes : List ValueStream) (i : Nat) (doc : DocId) (bytes : Bytes)
    (rest : ValueStream) : Prop where
  lane : lanes[i]? = some (.ok (doc, bytes) :: rest)
  le : ∀ j doc' bytes' rest', lanes[j]? = some (.ok (doc', bytes') :: rest') →
    doc < doc' ∨ doc = doc' ∧ i ≤ j

/-- What was yielded is of no concern to what is before the merge. -/
theorem Ready.note (h : Ready m lanes) (last : Option DocId) (duplicates : Nat) :
    Ready { m with last, duplicates } lanes :=
  ⟨⟨h.inputs, h.heads, h.ordered, h.known, h.lane⟩, h.started, h.settled⟩

theorem Ready.lane_cases (h : Ready m lanes) {lane : ValueStream} (hi : lanes[i]? = some lane) :
    lane = [] ∨ ∃ doc bytes rest, lane = .ok (doc, bytes) :: rest ∧ (doc, i) ∈ m.queue := by
  obtain ⟨input, head, _, _, hlook⟩ := h.lane i lane hi
  generalize hw : m.waiting i = w at hlook
  cases hlook with
  | behind => exact Or.inl (h.settled i _ hi hw)
  | ahead doc bytes =>
    have hmem : (doc, i) ∈ m.waiting i := by
      rw [hw]
      exact List.mem_singleton_self _
    exact Or.inr ⟨doc, bytes, input.lane, rfl, (List.mem_filter.mp hmem).1⟩

section First

variable {doc : DocId} {queue : List (DocId × Nat)} (hqueue : m.queue = (doc, i) :: queue)

include hqueue

/-- The first queue element has its bytes among the heads, and no other element has its input. -/
theorem Tracks.first (h : Tracks m lanes) : ∃ input bytes, m.inputs[i]? = some input ∧
    m.heads[i]? = some (some bytes) ∧ lanes[i]? = some (.ok (doc, bytes) :: input.lane) ∧
    queue.filter (·.2 == i) = [] := by
  have hlt : i < lanes.length := h.known (doc, i) (hqueue ▸ List.mem_cons_self)
  have hi : lanes[i]? = some lanes[i] := List.getElem?_eq_getElem hlt
  obtain ⟨input, head, hinput, hhead, hlook⟩ := h.lane i lanes[i] hi
  have hfirst : m.waiting i = (doc, i) :: queue.filter (·.2 == i) := by
    rw [waiting, hqueue]
    exact List.filter_cons_of_pos (beq_self_eq_true i)
  rw [hfirst] at hlook
  generalize hlane : lanes[i] = lane at hlook hi
  generalize hothers : queue.filter (·.2 == i) = others at hlook
  cases hlook with
  | ahead _ bytes => exact ⟨input, bytes, hinput, hhead, hi, rfl⟩

theorem Tracks.pop (h : Tracks m lanes) {input : MergeInput} (hinput : m.inputs[i]? = some input)
    (hnone : queue.filter (·.2 == i) = []) :
    Tracks { m with queue, heads := m.heads.set i none } (lanes.set i input.lane) := by
  refine h.update (set_eq_self hinput).symm rfl ?_ ?_ ?_ ?_
  · have hordered := h.ordered
    rw [hqueue, List.pairwise_cons] at hordered
    exact hordered.2
  · intro x hx
    rw [hqueue]
    exact Or.inr (List.mem_cons_of_mem _ hx)
  · intro j hj
    rw [waiting, waiting, hqueue]
    exact (List.filter_cons_of_neg (by simpa using Ne.symm hj)).symm
  · show Lookahead i input.lane none (queue.filter (·.2 == i)) input.lane
    rw [hnone]
    exact .behind

theorem Ready.least (h : Ready m lanes) {bytes : Bytes} {rest : ValueStream}
    (hlane : lanes[i]? = some (.ok (doc, bytes) :: rest)) : Least lanes i doc bytes rest := by
  refine ⟨hlane, ?_⟩
  intro j doc' bytes' rest' hj
  rcases h.lane_cases hj with hempty | ⟨_, _, _, heq, hmem⟩
  · exact absurd hempty nofun
  · rw [List.cons.injEq, Except.ok.injEq, Prod.mk.injEq] at heq
    rw [hqueue, List.mem_cons, ← heq.1.1] at hmem
    rcases hmem with hsame | hlater
    · rw [Prod.mk.injEq] at hsame
      exact Or.inr ⟨hsame.1.symm, Nat.le_of_eq hsame.2.symm⟩
    · have hordered := h.ordered
      rw [hqueue, List.pairwise_cons] at hordered
      have hbefore := hordered.1 _ hlater
      simp only [before, Bool.or_eq_true, Bool.and_eq_true, decide_eq_true_eq,
        beq_iff_eq] at hbefore
      exact hbefore.imp_right fun h => ⟨h.1, Nat.le_of_lt h.2⟩

end First

theorem Ready.of_turn_none (h : Ready m lanes) (hturn : m.turn = none) :
    ∀ lane ∈ lanes, lane = [] := by
  intro lane hlane
  obtain ⟨i, hi⟩ := List.mem_iff_getElem?.mp hlane
  refine h.settled i lane hi ?_
  unfold turn at hturn
  split at hturn
  · next hqueue =>
    rw [waiting, hqueue]
    rfl
  · exact absurd hturn nofun

/-- A turn takes the least value off its lane. If the lane goes on with an error, the turn finds it,
and else the merge is ready again. -/
theorem Ready.of_turn (h : Ready m lanes) {doc : DocId} {head : Option Bytes}
    {result : Except Error Unit} (hturn : m.turn = some ((doc, head), result, m')) :
    ∃ i bytes rest, head = some bytes ∧ Least lanes i doc bytes rest ∧ m'.last = m.last ∧
      m'.duplicates = m.duplicates ∧
      (∀ e, result = .error e → ∃ rest', rest = .error e :: rest') ∧
      (result = .ok () → Ready m' (lanes.set i rest)) := by
  unfold turn at hturn
  split at hturn
  · exact absurd hturn nofun
  · next doc' i queue hqueue =>
    rw [Option.some.injEq, Prod.mk.injEq, Prod.mk.injEq] at hturn
    obtain ⟨⟨rfl, hhead'⟩, hrefill⟩ := hturn
    obtain ⟨input, bytes, hinput, hhead, hlane, hnone⟩ := h.toTracks.first hqueue
    have hpop := h.toTracks.pop hqueue hinput hnone
    have hlt : i < lanes.length := (List.getElem?_eq_some_iff.mp hlane).1
    have hi : (lanes.set i input.lane)[i]? = some input.lane := List.getElem?_set_self hlt
    have hsame := refill_rest { m with queue, heads := m.heads.set i none } i
    rw [hrefill] at hsame
    refine ⟨i, bytes, input.lane, by rw [← hhead', hhead]; rfl, h.least hqueue hlane, hsame.1,
      hsame.2.2, ?_⟩
    rcases hpop.refill hi hnone with ⟨e, rest', m'', heq, hrest, -⟩ |
      ⟨m'', heq, hm', hsettled, hother⟩
    · rw [hrefill, Prod.mk.injEq] at heq
      obtain ⟨rfl, rfl⟩ := heq
      refine ⟨?_, nofun⟩
      intro e' he'
      rw [Except.error.injEq] at he'
      exact he' ▸ ⟨rest', hrest⟩
    · rw [hrefill, Prod.mk.injEq] at heq
      obtain ⟨rfl, rfl⟩ := heq
      refine ⟨nofun, fun _ => ⟨hm', hsame.2.1.trans h.started, ?_⟩⟩
      -- The lane that was read is settled by the refill, the others as they were.
      intro j lane hj hempty
      by_cases hji : j = i
      · subst hji
        rw [hi, Option.some.injEq] at hj
        exact hj ▸ hsettled hempty
      · rw [List.getElem?_set_ne (Ne.symm hji)] at hj
        refine h.settled j lane hj ?_
        rw [← hempty, hother j hji, waiting, waiting, hqueue]
        exact List.filter_cons_of_neg (by simpa using Ne.symm hji)

end Merge

end Sidecar
