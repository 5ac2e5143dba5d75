import Sidecar.Proofs.Search.Scores

/-!
# Reading a scorer

A scorer is read like a postings list, and it is read to a great extent by skipping: `advance` finds
the document to go to by halving what is left. That this is nothing but a quicker way of going there
step by step is `advance_eq_seek`, for every place of the cursor, in front of the documents and past
them too. The reason is that both end at a `Landing`, the first position after the cursor where
nothing lies before the target any more, and there is only one.

Every move goes forward (`perform_eq`). So whatever the calls are, they meet documents of the scorer
in ascending order for a while, and then, once there is none, they meet none any more.

The end is told by a document number (`noMoreDocs`), the largest one. A loop that goes by the answers
alone therefore stops in front of a document that has this number (`visits_eq_filter`), while `docId` still
tells it from the end.
-/

set_option autoImplicit false

namespace Sidecar.Scorer

variable {s : Scorer} {target : DocId} {p q : Nat}

/-! ## Moves -/

theorem docId_moveTo (s : Scorer) (p : Nat) :
    (s.moveTo p).2.docId = (s.hits[p]?).map Match.doc := rfl

theorem answer_moveTo (s : Scorer) (p : Nat) :
    (s.moveTo p).1 = (s.moveTo p).2.docId.getD noMoreDocs := rfl

theorem following_moveTo (s : Scorer) (p : Nat) :
    (s.moveTo p).2.following = min (p + 1) s.hits.length := rfl

theorem moveTo_moveTo (s : Scorer) (p q : Nat) : (s.moveTo p).2.moveTo q = s.moveTo q := rfl

theorem following_le (s : Scorer) : s.following ≤ s.hits.length := Nat.min_le_right _ _

theorem scoreOf_of_mem {m : Match} (hm : m ∈ s.hits) : s.scoreOf m.doc = some m.score :=
  (scoreIn_eq_some_iff s.ascending).mpr hm

theorem score_moveTo (s : Scorer) {p : Nat} {m : Match} (hp : s.hits[p]? = some m) :
    (s.moveTo p).2.score = some m.score := by
  have hdoc : (s.moveTo p).2.docId = some m.doc := by
    rw [docId_moveTo, hp]
    rfl
  rw [score, hdoc]
  exact scoreOf_of_mem (List.mem_iff_getElem?.mpr ⟨p, hp⟩)

/-! ## Landing -/

theorem liesBefore_iff :
    s.liesBefore target p = true ↔ ∃ m, s.hits[p]? = some m ∧ m.doc < target := by
  unfold liesBefore
  cases s.hits[p]? <;> simp

/-- The first position after the cursor that does not lie before a target. -/
structure Landing (s : Scorer) (target : DocId) (p : Nat) : Prop where
  ahead : s.following ≤ p
  passed : ∀ i, s.following ≤ i → i < p → s.liesBefore target i = true
  stops : s.liesBefore target p = false

theorem Landing.unique (h : Landing s target p) (h' : Landing s target q) : p = q := by
  rcases Nat.lt_trichotomy p q with hlt | heq | hlt
  · exact absurd (h'.passed p h.ahead hlt) (by simp [h.stops])
  · exact heq
  · exact absurd (h.passed q h'.ahead hlt) (by simp [h'.stops])

/-- Documents ascend, so what comes before a document that lies before the target does so too. -/
theorem liesBefore_of_le (hle : p ≤ q) (h : s.liesBefore target q = true) :
    s.liesBefore target p = true := by
  obtain ⟨m, hq, hm⟩ := liesBefore_iff.mp h
  obtain ⟨hlt, rfl⟩ := List.getElem?_eq_some_iff.mp hq
  have hp : s.hits[p]? = some s.hits[p] := List.getElem?_eq_getElem (Nat.lt_of_le_of_lt hle hlt)
  refine liesBefore_iff.mpr ⟨_, hp, ?_⟩
  rcases Nat.lt_or_eq_of_le hle with hless | rfl
  · exact UInt32.lt_trans (List.pairwise_iff_getElem.mp s.ascending p q _ hlt hless) hm
  · exact hm

/-- Halving finds the place where a test begins to fail. -/
theorem bisect_spec {passes : Nat → Bool} (hdown : ∀ i j, i ≤ j → passes j = true → passes i = true)
    {low high : Nat} (hle : low ≤ high) :
    low ≤ bisect passes low high ∧ bisect passes low high ≤ high ∧
      (∀ i, low ≤ i → i < bisect passes low high → passes i = true) ∧
      ∀ i, bisect passes low high ≤ i → i < high → passes i = false := by
  fun_induction bisect passes low high with
  | case1 low high hlt middle hpass ih =>
    have hmiddle : middle = (low + high) / 2 := rfl
    obtain ⟨hlow, hhigh, hpassed, hfailed⟩ := ih (by omega)
    refine ⟨by omega, hhigh, fun i hi hless => ?_, hfailed⟩
    by_cases hhalf : i ≤ middle
    · exact hdown i middle hhalf hpass
    · exact hpassed i (by omega) hless
  | case2 low high hlt middle hfail ih =>
    have hmiddle : middle = (low + high) / 2 := rfl
    obtain ⟨hlow, hhigh, hpassed, hfailed⟩ := ih (by omega)
    refine ⟨hlow, by omega, hpassed, fun i hi hless => ?_⟩
    by_cases hhalf : middle ≤ i
    · cases hi' : passes i with
      | false => rfl
      | true => exact absurd (hdown middle i hhalf hi') hfail
    · exact hfailed i hi (by omega)
  | case3 low high hnot =>
    exact ⟨Nat.le_refl _, hle, fun i hi hless => absurd hless (Nat.not_lt.mpr hi),
      fun i hi hless => absurd (Nat.lt_of_le_of_lt hi hless) hnot⟩

theorem advance_landing (s : Scorer) (target : DocId) :
    ∃ p, s.advance target = s.moveTo p ∧ Landing s target p := by
  obtain ⟨hlow, hhigh, hpassed, hfailed⟩ :=
    @bisect_spec (s.liesBefore target) (fun _ _ => liesBefore_of_le) _ _ s.following_le
  refine ⟨_, rfl, hlow, hpassed, ?_⟩
  rcases Nat.lt_or_eq_of_le hhigh with hlt | heq
  · exact hfailed _ (Nat.le_refl _) hlt
  · rw [heq, liesBefore, List.getElem?_eq_none (Nat.le_refl _)]
    rfl

/-! ## Going step by step -/

theorem liesBefore_nextDoc (s : Scorer) (target : DocId) :
    s.nextDoc.2.docId.any (· < target) = s.liesBefore target s.following := by
  rw [nextDoc, docId_moveTo, liesBefore, Option.any_map]

theorem following_nextDoc {m : Match} (h : s.hits[s.following]? = some m) :
    s.nextDoc.2.following = s.following + 1 := by
  rw [nextDoc, following_moveTo]
  exact Nat.min_eq_left (List.getElem?_eq_some_iff.mp h).1

/-- A step onto a document leaves less to read. -/
theorem remaining_nextDoc {m : Match} (h : s.hits[s.following]? = some m) :
    s.nextDoc.2.hits.length - s.nextDoc.2.following < s.hits.length - s.following := by
  have hlt : s.following < s.hits.length := (List.getElem?_eq_some_iff.mp h).1
  have hsame : s.nextDoc.2.hits = s.hits := rfl
  rw [following_nextDoc h, hsame]
  omega

/-- Moves to the next document, and on as long as the document is one before the target. -/
def seek (s : Scorer) (target : DocId) : DocId × Scorer :=
  if s.nextDoc.2.docId.any (· < target) then s.nextDoc.2.seek target else s.nextDoc
  termination_by s.hits.length - s.following
  decreasing_by
    rename_i hbefore
    rw [liesBefore_nextDoc] at hbefore
    obtain ⟨m, hm, -⟩ := liesBefore_iff.mp hbefore
    exact remaining_nextDoc hm

theorem seek_landing (s : Scorer) (target : DocId) :
    ∃ p, s.seek target = s.moveTo p ∧ Landing s target p := by
  fun_induction seek s target with
  | case1 s hbefore ih =>
    rw [liesBefore_nextDoc] at hbefore
    obtain ⟨m, hm, -⟩ := liesBefore_iff.mp hbefore
    have hnext := following_nextDoc hm
    obtain ⟨p, hseek, hlanding⟩ := ih
    have hahead := hlanding.ahead
    rw [hnext] at hahead
    refine ⟨p, hseek.trans (moveTo_moveTo s _ p), by omega, fun i hi hless => ?_, hlanding.stops⟩
    rcases Nat.lt_or_eq_of_le hi with hlater | rfl
    · exact hlanding.passed i (by rw [hnext]; exact hlater) hless
    · exact hbefore
  | case2 s hstop =>
    rw [liesBefore_nextDoc, Bool.not_eq_true] at hstop
    exact ⟨s.following, rfl, Nat.le_refl _, fun i hi hless => absurd hless (Nat.not_lt.mpr hi), hstop⟩

/-- Skipping is going step by step. -/
theorem advance_eq_seek (s : Scorer) (target : DocId) : s.advance target = s.seek target := by
  obtain ⟨p, hadvance, hlanding⟩ := s.advance_landing target
  obtain ⟨q, hseek, hlanding'⟩ := s.seek_landing target
  rw [hadvance, hseek, hlanding.unique hlanding']

/-! ## Calls in a row -/

/-- What can be asked of a scorer. -/
inductive Call where
  | nextDoc
  | advance (target : DocId)
  deriving DecidableEq, Repr

def perform (s : Scorer) : Call → DocId × Scorer
  | .nextDoc => s.nextDoc
  | .advance target => s.advance target

/-- The scorer after some calls. -/
def after (s : Scorer) (calls : List Call) : Scorer :=
  calls.foldl (fun s call => (s.perform call).2) s

/-- What can be seen of a scorer right after a call. -/
structure Reading where
  answer : DocId
  doc : Option DocId
  score : Option Binary32
  deriving DecidableEq, Repr

/-- What is seen in the course of some calls. -/
def readings (s : Scorer) : List Call → List Reading
  | [] => []
  | call :: rest =>
    let (answer, s') := s.perform call
    ⟨answer, s'.docId, s'.score⟩ :: s'.readings rest

/-- What is seen of a match. -/
def readingOf (m : Match) : Reading := ⟨m.doc, some m.doc, some m.score⟩

/-- What is seen when the matches are used up. -/
def atEnd : Reading := ⟨noMoreDocs, none, none⟩

/-- Every call moves forward. -/
theorem perform_eq (s : Scorer) (call : Call) :
    ∃ p, s.following ≤ p ∧ s.perform call = s.moveTo p := by
  cases call with
  | nextDoc => exact ⟨s.following, Nat.le_refl _, rfl⟩
  | advance target =>
    obtain ⟨p, heq, hlanding⟩ := s.advance_landing target
    exact ⟨p, hlanding.ahead, heq⟩

theorem hits_after (s : Scorer) (calls : List Call) : (s.after calls).hits = s.hits := by
  induction calls generalizing s with
  | nil => rfl
  | cons call rest ih =>
    obtain ⟨p, -, heq⟩ := s.perform_eq call
    show ((s.perform call).2.after rest).hits = s.hits
    rw [ih, heq]
    rfl

theorem readings_cons (s : Scorer) {call : Call} (hcall : s.perform call = s.moveTo p)
    (rest : List Call) : s.readings (call :: rest)
      = (((s.hits[p]?).map readingOf).getD atEnd) :: (s.moveTo p).2.readings rest := by
  rw [readings, hcall]
  show Reading.mk (s.moveTo p).1 (s.moveTo p).2.docId (s.moveTo p).2.score :: _ = _
  rw [answer_moveTo, docId_moveTo]
  cases hp : s.hits[p]? with
  | none =>
    have hscore : (s.moveTo p).2.score = none := by
      rw [score, docId_moveTo, hp]
      rfl
    rw [hscore]
    rfl
  | some m =>
    rw [s.score_moveTo hp]
    rfl

/-- Some calls meet matches that have not been passed, in their order, and after that nothing. -/
theorem readings_eq (s : Scorer) (calls : List Call) : ∃ (found : List Match) (n : Nat),
    s.readings calls = found.map readingOf ++ List.replicate n atEnd ∧
    found.Sublist (s.hits.drop s.following) := by
  induction calls generalizing s with
  | nil => exact ⟨[], 0, rfl, List.nil_sublist _⟩
  | cons call rest ih =>
    obtain ⟨p, hle, hcall⟩ := s.perform_eq call
    obtain ⟨found, n, heq, hfound⟩ := ih (s.moveTo p).2
    rw [readings_cons s hcall, heq]
    have hfound' : found.Sublist (s.hits.drop (min (p + 1) s.hits.length)) := hfound
    cases hp : s.hits[p]? with
    | none =>
      have hend : s.hits.length ≤ p := List.getElem?_eq_none_iff.mp hp
      rw [Nat.min_eq_right (by omega), List.drop_length, List.sublist_nil] at hfound'
      subst hfound'
      exact ⟨[], n + 1, rfl, List.nil_sublist _⟩
    | some m =>
      obtain ⟨hlt, rfl⟩ := List.getElem?_eq_some_iff.mp hp
      rw [Nat.min_eq_left hlt] at hfound'
      refine ⟨s.hits[p] :: found, n, rfl, ?_⟩
      have hdrop : (s.hits[p] :: found).Sublist (s.hits.drop p) := by
        rw [List.drop_eq_getElem_cons hlt]
        exact hfound'.cons_cons _
      exact hdrop.trans (List.drop_sublist_drop_left _ hle)

/-- The match under the cursor comes before everything that has not been passed. -/
theorem sublist_of_current {found : List Match} (h : found.Sublist (s.hits.drop s.following)) :
    (s.current.toList ++ found).Sublist s.hits := by
  cases hcursor : s.cursor with
  | none =>
    have hcurrent : s.current = none := by rw [current, hcursor]; rfl
    rw [hcurrent]
    exact h.trans (List.drop_sublist _ _)
  | some c =>
    have hcurrent : s.current = s.hits[c]? := by rw [current, hcursor]; rfl
    rw [hcurrent]
    cases hc : s.hits[c]? with
    | none => exact h.trans (List.drop_sublist _ _)
    | some m =>
      obtain ⟨hlt, rfl⟩ := List.getElem?_eq_some_iff.mp hc
      have hfollowing : s.following = c + 1 := by
        rw [following, hcursor]
        exact Nat.min_eq_left hlt
      rw [hfollowing] at h
      have hdrop : (s.hits[c] :: found).Sublist (s.hits.drop c) := by
        rw [List.drop_eq_getElem_cons hlt]
        exact h.cons_cons _
      exact hdrop.trans (List.drop_sublist _ _)

/-- **A scorer that skips is a scorer that is read step by step.** After any calls, advancing to a
target does what moving to the next document does, and on as long as the document is one before the
target: the same answer and the same scorer. In the course of any calls a scorer meets documents in
strictly ascending order, beyond the one it stood on, answers with them and gives each the score that
it has for it; and once it stands on no document it never does again, and every call is answered with
`noMoreDocs`. -/
theorem readings_of_calls (s : Scorer) (calls : List Call) :
    (∀ target, (s.after calls).advance target = (s.after calls).seek target) ∧
    (s.after calls).score = (s.after calls).docId.bind s.scoreOf ∧
    ∃ (found : List Match) (n : Nat),
      s.readings calls = found.map readingOf ++ List.replicate n atEnd ∧
      (s.docId.toList ++ found.map Match.doc).Pairwise (· < ·) ∧
      ∀ m ∈ found, s.scoreOf m.doc = some m.score := by
  refine ⟨(s.after calls).advance_eq_seek, ?_, ?_⟩
  · have hscores : (s.after calls).scoreOf = s.scoreOf := by
      funext doc
      rw [scoreOf, hits_after]
      rfl
    rw [score, hscores]
  · obtain ⟨found, n, heq, hfound⟩ := s.readings_eq calls
    refine ⟨found, n, heq, ?_, fun m hm => ?_⟩
    · have hdocs : s.docId.toList ++ found.map Match.doc
          = (s.current.toList ++ found).map Match.doc := by
        rw [List.map_append, docId]
        cases s.current <;> rfl
      rw [hdocs]
      exact List.pairwise_map.mpr (s.ascending.sublist (sublist_of_current hfound))
    · exact scoreOf_of_mem ((hfound.trans (List.drop_sublist _ _)).subset hm)

/-! ## Going by the answers -/

/-- The answer of a step tells it from the end only if the document it leads to is not the last
one. -/
theorem more_iff : s.nextDoc.1 ≠ noMoreDocs ↔
    ∃ m, s.hits[s.following]? = some m ∧ m.doc ≠ noMoreDocs := by
  rw [nextDoc, answer_moveTo, docId_moveTo]
  cases s.hits[s.following]? <;> simp

/-- What a loop visits that moves to the next document until it is answered with `noMoreDocs`: the
document and the score under the cursor in each round. -/
def visits (s : Scorer) : List (Option DocId × Option Binary32) :=
  if s.nextDoc.1 = noMoreDocs then []
  else (s.nextDoc.2.docId, s.nextDoc.2.score) :: s.nextDoc.2.visits
  termination_by s.hits.length - s.following
  decreasing_by
    rename_i hmore
    obtain ⟨m, hm, -⟩ := more_iff.mp hmore
    exact remaining_nextDoc hm

/-- What is visited of a match. -/
def visitOf (m : Match) : Option DocId × Option Binary32 := (some m.doc, some m.score)

/-- The loop visits what has not been passed, up to a document with the number of the end. -/
theorem visits_eq_takeWhile (s : Scorer) :
    s.visits = ((s.hits.drop s.following).takeWhile (·.doc != noMoreDocs)).map visitOf := by
  fun_induction visits s with
  | case1 s hend =>
    have hnone : (s.hits.drop s.following).takeWhile (·.doc != noMoreDocs) = [] := by
      cases hdrop : s.hits.drop s.following with
      | nil => rfl
      | cons m rest =>
        have hm : s.hits[s.following]? = some m := by
          rw [← List.head?_drop, hdrop]
          rfl
        have hdoc : m.doc = noMoreDocs := by
          by_contra hdoc
          exact more_iff.mpr ⟨m, hm, hdoc⟩ hend
        exact List.takeWhile_cons_of_neg (by simp [hdoc])
    rw [hnone]
    rfl
  | case2 s hmore ih =>
    obtain ⟨m, hm, hdoc⟩ := more_iff.mp hmore
    obtain ⟨hlt, rfl⟩ := List.getElem?_eq_some_iff.mp hm
    have hscore : s.nextDoc.2.score = some s.hits[s.following].score := s.score_moveTo hm
    have hdocId : s.nextDoc.2.docId = some s.hits[s.following].doc := by
      rw [nextDoc, docId_moveTo, hm]
      rfl
    have hsame : s.nextDoc.2.hits = s.hits := rfl
    rw [ih, hscore, hdocId, hsame, following_nextDoc hm, List.drop_eq_getElem_cons hlt,
      List.takeWhile_cons_of_pos (by simpa using hdoc)]
    rfl

/-- No document comes after one with the largest number. -/
theorem takeWhile_eq_filter {found : List Match} (h : Ascending found) :
    found.takeWhile (·.doc != noMoreDocs) = found.filter (·.doc != noMoreDocs) := by
  induction found with
  | nil => rfl
  | cons m rest ih =>
    obtain ⟨hbelow, hrest⟩ := List.pairwise_cons.mp h
    by_cases hdoc : m.doc = noMoreDocs
    · have hnone : rest = [] := by
        refine List.eq_nil_iff_forall_not_mem.mpr fun x hx => ?_
        have hlt : noMoreDocs < x.doc := hdoc ▸ hbelow x hx
        have hmost : x.doc.toNat < 4294967296 := x.doc.toNat_lt
        rw [UInt32.lt_iff_toNat_lt] at hlt
        have hlargest : noMoreDocs.toNat = 4294967295 := rfl
        omega
      rw [List.takeWhile_cons_of_neg (by simp [hdoc]), List.filter_cons_of_neg (by simp [hdoc]),
        hnone]
      rfl
    · rw [List.takeWhile_cons_of_pos (by simpa using hdoc),
        List.filter_cons_of_pos (by simpa using hdoc), ih hrest]

theorem visits_eq_filter (results : List Match) : (ofResults results).visits
    = ((ofResults results).hits.filter (·.doc != noMoreDocs)).map visitOf := by
  have hstart : (ofResults results).following = 0 := Nat.zero_min _
  rw [visits_eq_takeWhile, hstart, List.drop_zero, takeWhile_eq_filter (ofResults results).ascending]

/-- **A loop that goes by the answers visits all documents but one.** From a scorer of any results the
loop visits, in ascending order and each once, the documents of the results other than `noMoreDocs`,
every one with the score it has in the scorer. So it visits all matches exactly if no result is about
the document with that number. -/
theorem visits_of_results (results : List Match) :
    let s := ofResults results
    ∃ visited : List Match, s.visits = visited.map visitOf ∧
      (visited.map Match.doc).Pairwise (· < ·) ∧
      (∀ doc, doc ∈ visited.map Match.doc ↔ doc ∈ results.map Match.doc ∧ doc ≠ noMoreDocs) ∧
      (∀ m ∈ visited, s.scoreOf m.doc = some m.score) ∧
      (visited = s.hits ↔ noMoreDocs ∉ results.map Match.doc) := by
  have hasc := ascending_gather results
  refine ⟨_, visits_eq_filter results, List.pairwise_map.mpr (hasc.filter _), fun doc => ?_,
    fun m hm => scoreOf_of_mem (List.mem_filter.mp hm).1, ?_⟩
  · have hdocs : doc ∈ results.map Match.doc ↔ doc ∈ (ofResults results).hits.map Match.doc :=
      doc_mem_gather.symm
    rw [hdocs, List.mem_map, List.mem_map]
    constructor
    · rintro ⟨m, hm, rfl⟩
      obtain ⟨hm, hdoc⟩ := List.mem_filter.mp hm
      exact ⟨⟨m, hm, rfl⟩, by simpa using hdoc⟩
    · rintro ⟨⟨m, hm, rfl⟩, hdoc⟩
      exact ⟨m, List.mem_filter.mpr ⟨hm, by simpa using hdoc⟩, rfl⟩
  · rw [List.filter_eq_self, ← doc_mem_gather, List.mem_map]
    constructor
    · rintro hall ⟨m, hm, hdoc⟩
      exact absurd (hall m hm) (by simp [hdoc])
    · intro hnone m hm
      have hdoc : m.doc ≠ noMoreDocs := fun heq => hnone ⟨m, hm, heq⟩
      simpa using hdoc

/-- The last document is matched and found under the cursor, but the loop is over before it. -/
theorem last_document_not_visited :
    let s := ofResults [⟨0xFFFFFFFF, ⟨0x3F800000⟩⟩, ⟨0, ⟨0x40000000⟩⟩]
    s.hits = [⟨0, ⟨0x40000000⟩⟩, ⟨0xFFFFFFFF, ⟨0x3F800000⟩⟩] ∧
    s.visits = [(some 0, some ⟨0x40000000⟩)] ∧
    s.nextDoc.2.nextDoc.1 = noMoreDocs ∧ s.nextDoc.2.nextDoc.2.docId = some 0xFFFFFFFF := by
  refine ⟨rfl, ?_, rfl, rfl⟩
  rw [visits_eq_filter]
  rfl

end Sidecar.Scorer
