import Sidecar.Writer.DocMap

/-!
# Merging value streams

A merge reads several streams of field values at once and yields the surviving values in the order
of their new document numbers. It looks one survivor ahead in every input: the *head* of an input is
that survivor's bytes, and the *queue* holds its new number together with the number of the input,
smallest first. Yielding takes the first element of the queue and refills from its input.

When several inputs produce the same number, the first of them is kept, because it stands first in
the queue; the others are counted as duplicates. An error in a stream is yielded as soon as the
merge looks at it, which may be one survivor early.

Every turn of the merge uses up a queue element or a value of a stream, and never makes two of one
(`Merge.pending`), so a merge ends.
-/

set_option autoImplicit false

namespace Sidecar

/-- The field values of a segment, document by document; reading may fail on the way. -/
abbrev ValueStream := List (Except Error (DocId × Bytes))

/-- A segment that is merged away. -/
structure MergeInput where
  /-- The values that were not read yet. -/
  values : ValueStream
  docMap : DocMap
  deriving Inhabited

/-- The state of a merge. -/
structure Merge where
  inputs : List MergeInput
  /-- For each input, the bytes of the survivor that was read ahead. -/
  heads : List (Option Bytes)
  /-- The new numbers of the survivors read ahead, with the number of their input. -/
  queue : List (DocId × Nat) := []
  /-- Whether every input was looked at once. -/
  isStarted : Bool := false
  /-- The number that was yielded last. -/
  last : Option DocId := none
  /-- How many survivors were dropped because their number had been yielded. -/
  duplicates : Nat := 0
  deriving Inhabited

namespace Merge

/-- The merge of some inputs, before it has looked at any. -/
def ofInputs (inputs : List MergeInput) : Merge := { inputs, heads := inputs.map fun _ => none }

/-- Reads a stream up to its next survivor, or to an error. -/
def pull (docMap : DocMap) : ValueStream → Except Error (Option (DocId × Bytes)) × ValueStream
  | [] => (.ok none, [])
  | .error e :: rest => (.error e, rest)
  | .ok (old, bytes) :: rest =>
    match docMap.get? old with
    | some new => (.ok (some (new, bytes)), rest)
    | none => pull docMap rest

/-- Whether a queue element comes before another: by number, then by input. -/
def before (a b : DocId × Nat) : Bool := a.1 < b.1 || (a.1 == b.1 && a.2 < b.2)

/-- Puts an element into the queue. -/
def enqueue (x : DocId × Nat) : List (DocId × Nat) → List (DocId × Nat)
  | [] => [x]
  | y :: rest => if before x y then x :: y :: rest else y :: enqueue x rest

/-- The merge after an input was read up to the values given. -/
def leave (m : Merge) (i : Nat) (input : MergeInput) (values : ValueStream) : Merge :=
  { m with inputs := m.inputs.set i { input with values } }

/-- Reads ahead in one input. -/
def refill (m : Merge) (i : Nat) : Except Error Unit × Merge :=
  match m.inputs[i]? with
  | none => (.ok (), m)
  | some input =>
    match pull input.docMap input.values with
    | (.error e, values) => (.error e, m.leave i input values)
    | (.ok none, values) => (.ok (), m.leave i input values)
    | (.ok (some (new, bytes)), values) =>
      (.ok (), { m.leave i input values with
        heads := m.heads.set i (some bytes)
        queue := enqueue (new, i) m.queue })

/-- Reads ahead in some inputs, up to the first error. -/
def refillAll (m : Merge) : List Nat → Except Error Unit × Merge
  | [] => (.ok (), m)
  | i :: rest =>
    match m.refill i with
    | (.ok (), m) => refillAll m rest
    | (.error e, m) => (.error e, m)

/-! ## A merge uses up what it reads -/

/-- The number of values left in some inputs. -/
def unread (inputs : List MergeInput) : Nat :=
  inputs.foldr (fun input n => input.values.length + n) 0

/-- What a merge has left to do: values to read, and survivors to yield. -/
def pending (m : Merge) : Nat := unread m.inputs + m.queue.length

@[simp] theorem length_enqueue (x : DocId × Nat) (queue : List (DocId × Nat)) :
    (enqueue x queue).length = queue.length + 1 := by
  induction queue with
  | nil => rfl
  | cons y rest ih => by_cases h : before x y <;> simp [enqueue, h, ih]

/-- Reading uses up a value for every survivor or error, and never adds one. -/
theorem pull_length (docMap : DocMap) (values : ValueStream) :
    (pull docMap values).2.length
        + (match (pull docMap values).1 with | .ok none => 0 | _ => 1) ≤ values.length := by
  fun_induction pull docMap values with
  | case1 => simp
  | case2 => simp
  | case3 => simp
  | case4 old bytes rest h ih => simp only [List.length_cons]; omega

theorem unread_set {inputs : List MergeInput} {i : Nat} {input : MergeInput}
    (h : inputs[i]? = some input) (values : ValueStream) :
    unread (inputs.set i { input with values }) + input.values.length
      = unread inputs + values.length := by
  induction inputs generalizing i with
  | nil => simp at h
  | cons first rest ih =>
    cases i with
    | zero =>
      simp only [List.getElem?_cons_zero, Option.some.injEq] at h
      subst h
      simp only [unread, List.set_cons_zero, List.foldr_cons]
      omega
    | succ i =>
      simp only [List.getElem?_cons_succ] at h
      have := ih h
      simp only [unread, List.set_cons_succ, List.foldr_cons] at this ⊢
      omega

/-- Reading ahead leaves no more to do, and an error leaves less. -/
theorem pending_refill (m : Merge) (i : Nat) :
    (m.refill i).2.pending + (match (m.refill i).1 with | .ok () => 0 | .error _ => 1)
      ≤ m.pending := by
  unfold refill
  cases h : m.inputs[i]? with
  | none => simp
  | some input =>
    have length := pull_length input.docMap input.values
    simp only
    generalize pull input.docMap input.values = pulled at length
    obtain ⟨e | _ | ⟨new, bytes⟩, values⟩ := pulled <;>
      have sum := unread_set h values <;>
      simp only [leave, pending, length_enqueue] at * <;> omega

theorem pending_refillAll (m : Merge) (is : List Nat) :
    (m.refillAll is).2.pending + (match (m.refillAll is).1 with | .ok () => 0 | .error _ => 1)
      ≤ m.pending := by
  fun_induction refillAll m is with
  | case1 => simp
  | case2 m i rest m' h ih =>
    have := pending_refill m i
    rw [h] at this
    simp only at this
    omega
  | case3 m i rest e m' h =>
    have := pending_refill m i
    rw [h] at this
    exact this

/-! ## Yielding -/

/-- One turn: takes the first element of the queue with the bytes of its input, and reads ahead in
that input. -/
def turn (m : Merge) : Option ((DocId × Option Bytes) × Except Error Unit × Merge) :=
  match m.queue with
  | [] => none
  | (doc, i) :: rest =>
    some ((doc, m.heads[i]?.join), { m with queue := rest, heads := m.heads.set i none }.refill i)

theorem pending_turn {m m' : Merge} {head : DocId × Option Bytes} {result : Except Error Unit}
    (h : m.turn = some (head, result, m')) : m'.pending < m.pending := by
  unfold turn at h
  split at h
  · exact absurd h nofun
  · rename_i doc i rest hq
    simp only [Option.some.injEq, Prod.mk.injEq] at h
    have refilled := pending_refill { m with queue := rest, heads := m.heads.set i none } i
    rw [h.2] at refilled
    simp only [pending, hq, List.length_cons] at *
    omega

/-- Yields the next survivor from the queue, passing over duplicates. -/
def advance (m : Merge) : Option (Except Error (DocId × Bytes)) × Merge :=
  match _ : m.turn with
  | none => (none, m)
  | some (_, .error e, m') => (some (.error e), m')
  | some ((doc, bytes), .ok (), m') =>
    if m'.last = some doc then advance { m' with duplicates := m'.duplicates + 1 }
    else match bytes with
      | some bytes => (some (.ok (doc, bytes)), { m' with last := some doc })
      -- Every queue element has its bytes among the heads, so a merge does not come here.
      | none => advance m'
  termination_by m.pending
  decreasing_by
    all_goals
      have less := pending_turn ‹m.turn = some _›
      exact less

/-- Yields the next survivor; the first call looks at every input. -/
def next (m : Merge) : Option (Except Error (DocId × Bytes)) × Merge :=
  if m.isStarted then m.advance
  else match { m with isStarted := true }.refillAll (List.range m.inputs.length) with
    | (.error e, m) => (some (.error e), m)
    | (.ok (), m) => m.advance

theorem pending_advance (m : Merge) (h : m.advance.1.isSome) : m.advance.2.pending < m.pending := by
  fun_induction advance m with
  | case1 => simp at h
  | case2 m _ e m' turned => exact pending_turn turned
  | case3 m doc bytes m' turned _ ih =>
    have less := pending_turn turned
    exact Nat.lt_trans (ih h) less
  | case4 m doc m' _ bytes turned =>
    have less := pending_turn turned
    exact less
  | case5 m doc m' _ _ turned ih => exact Nat.lt_trans (ih h) (pending_turn turned)

theorem pending_next (m : Merge) (h : m.next.1.isSome) : m.next.2.pending < m.pending := by
  unfold next at *
  by_cases started : m.isStarted
  · simp only [started, if_true] at *
    exact pending_advance m h
  · simp only [started] at *
    have refilled := pending_refillAll { m with isStarted := true } (List.range m.inputs.length)
    rcases hr : { m with isStarted := true }.refillAll (List.range m.inputs.length) with ⟨e | _, m'⟩
    · rw [hr] at refilled
      simp only [hr, pending] at *
      exact Nat.lt_of_succ_le refilled
    · rw [hr] at refilled
      simp only [hr] at *
      exact Nat.lt_of_lt_of_le (pending_advance m' h) refilled

/-- Everything a merge yields, up to its end or the first error, and the state it ends in. -/
def run (m : Merge) : ValueStream × Merge :=
  match _ : m.next with
  | (none, m') => ([], m')
  | (some (.error e), m') => ([.error e], m')
  | (some (.ok value), m') =>
    let (more, ended) := run m'
    (.ok value :: more, ended)
  termination_by m.pending
  decreasing_by
    have yielded := ‹m.next = _›
    have less := pending_next m (by rw [yielded]; rfl)
    rw [yielded] at less
    exact less

/-- The stream of the surviving values of some inputs. -/
def stream (inputs : List MergeInput) : ValueStream := (ofInputs inputs).run.1

end Merge

end Sidecar
