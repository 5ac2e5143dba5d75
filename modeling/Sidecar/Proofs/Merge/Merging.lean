import Sidecar.Proofs.Merge.Lanes

/-!
# What a merge yields

`Merges` says what comes out of some lanes, and it knows no queue and no heads: take the least value
off its lane, pass over it if its number was yielded last, and go on with what is left. It is a
relation and not a second program because nothing ever runs it. Whoever wants to know something about
the output of a merge does an induction on it.

The merge agrees with it by `Ready.run`, from which `run_cases` follows for a merge from the start,
and `stream_cases` where the count of duplicates is of no interest. There the first look at the inputs
may already find an error; this is the one case in which the stream is not read off `Merges`.
-/

set_option autoImplicit false

namespace Sidecar.Merge

/-- Some lanes yield a stream, after a number that was yielded before, and with some duplicates
passed over. -/
inductive Merges : List ValueStream → Option DocId → ValueStream → Nat → Prop where
  | done {lanes last} (ended : ∀ lane ∈ lanes, lane = []) : Merges lanes last [] 0
  /-- The value before an error is lost. -/
  | fail {lanes last i doc bytes e rest} (least : Least lanes i doc bytes (.error e :: rest)) :
      Merges lanes last [.error e] 0
  | skip {lanes i doc bytes rest out n} (least : Least lanes i doc bytes rest)
      (more : Merges (lanes.set i rest) (some doc) out n) : Merges lanes (some doc) out (n + 1)
  | take {lanes last i doc bytes rest out n} (least : Least lanes i doc bytes rest)
      (fresh : last ≠ some doc) (more : Merges (lanes.set i rest) (some doc) out n) :
      Merges lanes last (.ok (doc, bytes) :: out) n

variable {m : Merge} {lanes : List ValueStream}

/-! ## The merge does what the relation says -/

/-- A merge that is asked once answers with the beginning of what its lanes yield, and the rest is
what it yields as the merge that it has become. -/
inductive Advances (lanes : List ValueStream) (last : Option DocId) (m' : Merge) (n : Nat) :
    Option (Except Error (DocId × Bytes)) → Prop where
  | ended (whole : Merges lanes last [] n) : Advances lanes last m' n none
  | failed {e} (whole : Merges lanes last [.error e] n) :
      Advances lanes last m' n (some (.error e))
  | yielded {value lanes'} (ready : Ready m' lanes')
      (whole : ∀ out k, Merges lanes' m'.last out k → Merges lanes last (.ok value :: out) (k + n)) :
      Advances lanes last m' n (some (.ok value))

theorem Ready.advance (h : Ready m lanes) : ∃ n, m.advance.2.duplicates = m.duplicates + n ∧
    Advances lanes m.last m.advance.2 n m.advance.1 := by
  fun_induction Merge.advance m generalizing lanes with
  | case1 m hturn => exact ⟨0, rfl, .ended (.done (h.of_turn_none hturn))⟩
  | case2 m head e m' hturn =>
    obtain ⟨i, bytes, rest, _, hleast, _, hdups, herror, _⟩ := h.of_turn hturn
    obtain ⟨rest', rfl⟩ := herror e rfl
    exact ⟨0, hdups, .failed (.fail hleast)⟩
  | case3 m doc head m' hturn hlast ih =>
    obtain ⟨i, bytes, rest, _, hleast, hsame, hdups, _, hready⟩ := h.of_turn hturn
    -- Whatever comes out of the rest comes out of the whole, with one duplicate more.
    have hskip : ∀ out k, Merges (lanes.set i rest) m'.last out k →
        Merges lanes m.last out (k + 1) := by
      intro out k hmore
      rw [hlast] at hmore
      rw [← hsame, hlast]
      exact .skip hleast hmore
    obtain ⟨n, hcount, hmore⟩ := ih ((hready rfl).note m'.last (m'.duplicates + 1))
    refine ⟨n + 1, by dsimp only at hcount; omega, ?_⟩
    generalize Merge.advance { m' with duplicates := m'.duplicates + 1 } = next at hmore ⊢
    obtain ⟨answer, m''⟩ := next
    cases hmore with
    | ended hwhole => exact .ended (hskip _ _ hwhole)
    | failed hwhole => exact .failed (hskip _ _ hwhole)
    | yielded hready' hwhole =>
      exact .yielded hready' fun out k hout => hskip _ _ (hwhole out k hout)
  | case4 m doc m' hfresh bytes hturn =>
    obtain ⟨i, bytes', rest, hhead, hleast, hsame, hdups, _, hready⟩ := h.of_turn hturn
    obtain rfl : bytes = bytes' := Option.some.inj hhead
    refine ⟨0, hdups, .yielded ((hready rfl).note (some doc) m'.duplicates) ?_⟩
    exact fun out k hmore => .take hleast (hsame ▸ hfresh) hmore
  | case5 m doc m' hfresh hturn ih =>
    -- A queue element without bytes: a merge that is ready has none.
    obtain ⟨i, bytes, rest, hhead, _⟩ := h.of_turn hturn
    cases hhead

theorem run_eq (m : Merge) : m.run = match m.next with
    | (none, m') => ([], m')
    | (some (.error e), m') => ([.error e], m')
    | (some (.ok value), m') => (.ok value :: m'.run.1, m'.run.2) := by
  rw [run]
  split <;> simp_all

theorem next_of_started (h : m.isStarted = true) : m.next = m.advance := by
  unfold next
  rw [if_pos h]

/-- A merge that is ready yields what its lanes yield, and counts the duplicates. -/
theorem Ready.run (h : Ready m lanes) :
    ∃ n, Merges lanes m.last m.run.1 n ∧ m.run.2.duplicates = m.duplicates + n := by
  fun_induction Merge.run m generalizing lanes with
  | case1 m m' hnext =>
    obtain ⟨n, hcount, hmore⟩ := h.advance
    rw [← next_of_started h.started, hnext] at hcount hmore
    cases hmore with
    | ended hwhole => exact ⟨n, hwhole, hcount⟩
  | case2 m e m' hnext =>
    obtain ⟨n, hcount, hmore⟩ := h.advance
    rw [← next_of_started h.started, hnext] at hcount hmore
    cases hmore with
    | failed hwhole => exact ⟨n, hwhole, hcount⟩
  | case3 m value m' hnext more ended hrun ih =>
    obtain ⟨n, hcount, hmore⟩ := h.advance
    rw [← next_of_started h.started, hnext] at hcount hmore
    cases hmore with
    | yielded hready hwhole =>
      obtain ⟨k, hrest, hcount'⟩ := ih hready
      rw [hrun] at hrest hcount'
      exact ⟨k + n, hwhole _ _ hrest, by dsimp only at hcount hcount' ⊢; omega⟩

/-! ## From the start -/

theorem tracks_ofInputs (inputs : List MergeInput) :
    Tracks { ofInputs inputs with isStarted := true } (inputs.map MergeInput.lane) := by
  refine ⟨by simp [ofInputs], by simp [ofInputs], List.Pairwise.nil, nofun, ?_⟩
  intro i lane hi
  rw [List.getElem?_map, Option.map_eq_some_iff] at hi
  obtain ⟨input, hinput, rfl⟩ := hi
  have hhead : (inputs.map fun _ => (none : Option Bytes))[i]? = some none := by
    rw [List.getElem?_map, hinput]
    rfl
  exact ⟨input, none, hinput, hhead, .behind⟩

/-- A merge of some inputs ends with the error that the first look finds, or else it yields what
their lanes yield and counts the duplicates. -/
theorem run_cases (inputs : List MergeInput) :
    (∃ e, (ofInputs inputs).run.1 = [.error e] ∧
      ∃ lane ∈ inputs.map MergeInput.lane, .error e ∈ lane) ∨
    Merges (inputs.map MergeInput.lane) none (ofInputs inputs).run.1
      (ofInputs inputs).run.2.duplicates := by
  have hfresh : ∀ i ∈ List.range (ofInputs inputs).inputs.length, i < (inputs.map MergeInput.lane).length ∧
      Merge.waiting { ofInputs inputs with isStarted := true } i = [] := by
    intro i hi
    rw [List.length_map]
    exact ⟨List.mem_range.mp hi, rfl⟩
  rcases (tracks_ofInputs inputs).refillAll List.nodup_range hfresh with ⟨e, m', heq, hlane⟩ |
    ⟨m', heq, hm', hsettled, -, hlast, hstart, hdups⟩
  · have hnext : (ofInputs inputs).next = (some (.error e), m') := by
      unfold next
      rw [if_neg (by simp [ofInputs]), heq]
    refine Or.inl ⟨e, ?_, hlane⟩
    rw [run_eq, hnext]
  · have hready : Ready m' (inputs.map MergeInput.lane) := by
      refine ⟨hm', hstart, ?_⟩
      intro i lane hi hempty
      have hlt : i < inputs.length := by
        rw [← List.length_map MergeInput.lane]
        exact (List.getElem?_eq_some_iff.mp hi).1
      exact hsettled i (List.mem_range.mpr hlt) lane hi hempty
    have hnext : (ofInputs inputs).next = m'.next := by
      rw [next_of_started hready.started]
      unfold next
      rw [if_neg (by simp [ofInputs]), heq]
    obtain ⟨n, hrun, hcount⟩ := hready.run
    have hn : m'.run.2.duplicates = n := by
      rw [hcount, hdups]
      exact Nat.zero_add n
    rw [hlast, ← hn] at hrun
    refine Or.inr ?_
    rw [run_eq, hnext, ← run_eq]
    exact hrun

/-- The stream of some inputs is the error that the first look finds, or else what their lanes
yield. -/
theorem stream_cases (inputs : List MergeInput) :
    (∃ e, stream inputs = [.error e] ∧ ∃ lane ∈ inputs.map MergeInput.lane, .error e ∈ lane) ∨
    ∃ n, Merges (inputs.map MergeInput.lane) none (stream inputs) n :=
  (run_cases inputs).imp_right fun hmerges => ⟨_, hmerges⟩

end Sidecar.Merge
