import Sidecar.Search.Match

/-!
# Scorers

The matches of one segment, read in the order of documents. An engine may report a document several
times; the scorer keeps the best score of each. It is read like a postings list: `nextDoc` and
`advance` move a cursor forward and answer with the document it stands on, or with `noMoreDocs`
when the matches are used up.

The matches are kept strictly ascending by document, and the type says so.
-/

set_option autoImplicit false

namespace Sidecar

/-- The answer of a scorer that is used up. It is the largest document number. -/
def noMoreDocs : DocId := 0xFFFFFFFF

namespace Scorer

/-- Adds a match to matches that ascend by document; a document that is there keeps the lesser
score. -/
def add : List Match → Match → List Match
  | [], m => [m]
  | first :: rest, m =>
    if m.doc < first.doc then m :: first :: rest
    else if m.doc = first.doc then { first with score := first.score.least m.score } :: rest
    else first :: add rest m

/-- The matches of some results, one for each document, ascending. -/
def gather (results : List Match) : List Match := results.foldl add []

theorem doc_of_mem_add {found : List Match} {m x : Match} (h : x ∈ add found m) :
    x.doc = m.doc ∨ ∃ y ∈ found, y.doc = x.doc := by
  induction found with
  | nil => simp_all [add]
  | cons first rest ih =>
    simp only [add] at h
    split at h
    · rcases List.mem_cons.1 h with rfl | h
      · exact .inl rfl
      · exact .inr ⟨x, h, rfl⟩
    · split at h
      · rcases List.mem_cons.1 h with rfl | h
        · exact .inr ⟨first, List.mem_cons_self, rfl⟩
        · exact .inr ⟨x, List.mem_cons_of_mem _ h, rfl⟩
      · rcases List.mem_cons.1 h with rfl | h
        · exact .inr ⟨x, List.mem_cons_self, rfl⟩
        · rcases ih h with h | ⟨y, hy, hd⟩
          · exact .inl h
          · exact .inr ⟨y, List.mem_cons_of_mem _ hy, hd⟩

theorem ascending_add {found : List Match} (m : Match)
    (h : found.Pairwise (fun a b => a.doc < b.doc)) :
    (add found m).Pairwise (fun a b => a.doc < b.doc) := by
  induction found with
  | nil => simp [add]
  | cons first rest ih =>
    obtain ⟨below, tail⟩ := List.pairwise_cons.1 h
    simp only [add]
    split
    · rename_i less
      refine List.pairwise_cons.2 ⟨fun x hx => ?_, h⟩
      rcases List.mem_cons.1 hx with rfl | hx
      · exact less
      · exact UInt32.lt_trans less (below x hx)
    · split
      · exact List.pairwise_cons.2 ⟨below, tail⟩
      · rename_i notLess notEqual
        refine List.pairwise_cons.2 ⟨fun x hx => ?_, ih tail⟩
        rcases doc_of_mem_add hx with hd | ⟨y, hy, hd⟩
        · rw [hd]
          exact UInt32.lt_of_le_of_ne (UInt32.not_lt.1 notLess) (Ne.symm notEqual)
        · rw [← hd]
          exact below y hy

theorem ascending_foldl_add (results found : List Match)
    (h : found.Pairwise (fun a b => a.doc < b.doc)) :
    (results.foldl add found).Pairwise (fun a b => a.doc < b.doc) := by
  induction results generalizing found with
  | nil => exact h
  | cons m rest ih => exact ih _ (ascending_add m h)

end Scorer

/-- The matches of one segment with a cursor. -/
structure Scorer where
  /-- The matches, one for each document. -/
  hits : List Match
  /-- The position that was moved to last; past the end once the matches are used up. -/
  cursor : Option Nat := none
  ascending : hits.Pairwise (fun a b => a.doc < b.doc)

namespace Scorer

/-- The scorer without matches. -/
def empty : Scorer := { hits := [], ascending := List.Pairwise.nil }

/-- The scorer of an engine's results, in whatever order they come. -/
def ofResults (results : List Match) : Scorer :=
  { hits := gather results, ascending := ascending_foldl_add results [] List.Pairwise.nil }

/-- The number of matched documents. -/
def size (s : Scorer) : Nat := s.hits.length

/-- The match the cursor stands on. -/
def current (s : Scorer) : Option Match := s.cursor.bind fun i => s.hits[i]?

/-- The document the cursor stands on: none before the first move and after the last. -/
def docId (s : Scorer) : Option DocId := s.current.map (·.doc)

/-- The score of a matched document. -/
def scoreOf (s : Scorer) (doc : DocId) : Option Binary32 :=
  (s.hits.find? (·.doc == doc)).map (·.score)

/-- The score of the document the cursor stands on. -/
def score (s : Scorer) : Option Binary32 := s.docId.bind s.scoreOf

/-- Puts the cursor on a position and answers with the document there. -/
def moveTo (s : Scorer) (position : Nat) : DocId × Scorer :=
  (((s.hits[position]?).map (·.doc)).getD noMoreDocs, { s with cursor := some position })

/-- The position after the cursor, at most the end. -/
def following (s : Scorer) : Nat := min (s.cursor.elim 0 (· + 1)) s.hits.length

/-- Moves to the next document. -/
def nextDoc (s : Scorer) : DocId × Scorer := s.moveTo s.following

/-- Whether there is a document at a position and it lies before a target. -/
def liesBefore (s : Scorer) (target : DocId) (position : Nat) : Bool :=
  (s.hits[position]?).any (·.doc < target)

/-- The first position between two bounds at which a test fails, found by halving. The test is one
that fails from some position on. -/
def bisect (passes : Nat → Bool) (low high : Nat) : Nat :=
  if low < high then
    let middle := (low + high) / 2
    if passes middle then bisect passes (middle + 1) high else bisect passes low middle
  else low
  termination_by high - low
  decreasing_by all_goals omega

/-- Moves to the first document at or after a target, always past the cursor. -/
def advance (s : Scorer) (target : DocId) : DocId × Scorer :=
  s.moveTo (bisect (s.liesBefore target) s.following s.hits.length)

end Scorer

end Sidecar
