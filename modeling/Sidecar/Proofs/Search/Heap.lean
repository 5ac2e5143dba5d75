import Sidecar.Proofs.Flat.RoundTrip
import Sidecar.Proofs.Search.Ranking

/-!
# Searching with a heap

The shortlist of a search need not be in order while it fills up. All that is ever asked of it is
its length and the match that ranks last, so a heap with that match on top does as well: it takes
matches while there is room, and after that it replaces its top by a match that ranks before it.

What a heap is, is said here by what its operations do to the matches in it (`MaxHeap`); where it
keeps them is its own affair. Step by step such a heap holds the matches of the ranked shortlist in
some order (`offer_perm`). The only point of choice is which match leaves, and there is no choice:
two matches that both rank last have one key, so they are one match.

The matches themselves are read off the file. A file that can be loaded is a header, the ids, the
vectors and the checksum, so the matches are the ids, each with the distance of its vector, in the
order of the file (`candidates_eq`), and a document that is stored twice is measured twice.
-/

set_option autoImplicit false

namespace Sidecar

/-! ## Heaps -/

/-- A heap of matches with the one that ranks last on top. -/
structure MaxHeap where
  Carrier : Type
  content : Carrier → List Match
  empty : Carrier
  push : Match → Carrier → Carrier
  peek : Carrier → Option Match
  pop : Carrier → Carrier
  content_empty : content empty = []
  content_push : ∀ m h, (content (push m h)).Perm (m :: content h)
  content_of_peek_none : ∀ h, peek h = none → content h = []
  key_le_peek : ∀ h top, peek h = some top → ∀ m ∈ content h, m.key ≤ top.key
  content_pop : ∀ h top, peek h = some top → (content h).Perm (top :: content (pop h))

namespace MaxHeap

variable {heap : MaxHeap} {h : heap.Carrier} {ms : List Match} {k : Nat}

/-- Takes a match into a heap that holds at most `k`. -/
def offer (heap : MaxHeap) (k : Nat) (h : heap.Carrier) (m : Match) : heap.Carrier :=
  if (heap.content h).length < k then heap.push m h
  else match heap.peek h with
    | some worst => if m.key < worst.key then heap.push m (heap.pop h) else h
    | none => h

/-- The `k` nearest vectors of an index, in the order in which the heap holds them. -/
def nearest (heap : MaxHeap) (metric : Metric) (index : FlatIndex) (query : Embedding) (k : Nat) :
    Except Error (List Match) :=
  if query.length ≠ index.dimension then
    .error (.dimensionMismatch index.dimension query.length)
  else if k = 0 then .ok []
  else .ok (heap.content ((index.candidates metric query).foldl (heap.offer k) heap.empty))

/-- The top of a heap is the last match of the ranking. -/
theorem peek_eq_getLast? (hperm : (heap.content h).Perm ms) (hranked : Match.Ranked ms) :
    heap.peek h = ms.getLast? := by
  cases htop : heap.peek h with
  | none =>
    rw [heap.content_of_peek_none h htop, List.nil_perm] at hperm
    rw [hperm, List.getLast?_nil]
  | some top =>
    have htopmem : top ∈ ms :=
      hperm.mem_iff.mp ((heap.content_pop h top htop).mem_iff.mpr List.mem_cons_self)
    cases hlast : ms.getLast? with
    | none =>
      rw [List.getLast?_eq_none_iff] at hlast
      subst hlast
      cases htopmem
    | some worst =>
      obtain ⟨init, rfl⟩ := List.getLast?_eq_some_iff.mp hlast
      have hworst : worst.key ≤ top.key :=
        heap.key_le_peek h top htop worst (hperm.mem_iff.mpr (by simp))
      have htop' : top.key ≤ worst.key := by
        rcases List.mem_append.mp htopmem with hinit | hsingle
        · exact (List.pairwise_append.mp hranked).2.2 top hinit worst List.mem_cons_self
        · rw [List.mem_singleton.mp hsingle]
      rw [Match.key_injective (Nat.le_antisymm htop' hworst)]

theorem push_perm (hperm : (heap.content h).Perm ms) (m : Match) :
    (heap.content (heap.push m h)).Perm (m.insert ms) :=
  (heap.content_push m h).trans ((hperm.cons m).trans (Match.insert_perm m ms).symm)

theorem pop_perm {worst : Match} (hperm : (heap.content h).Perm ms)
    (htop : heap.peek h = some worst) (hlast : ms.getLast? = some worst) :
    (heap.content (heap.pop h)).Perm ms.dropLast := by
  obtain ⟨init, rfl⟩ := List.getLast?_eq_some_iff.mp hlast
  rw [List.dropLast_concat]
  have hcons : (worst :: heap.content (heap.pop h)).Perm (worst :: init) :=
    (heap.content_pop h worst htop).symm.trans
      (hperm.trans (List.perm_append_singleton worst init))
  exact hcons.cons_inv

/-- One match goes the same way into a heap and into a ranked shortlist. -/
theorem offer_perm (hperm : (heap.content h).Perm ms) (hranked : Match.Ranked ms) (m : Match) :
    (heap.content (heap.offer k h m)).Perm (Shortlist.offer k ms m) := by
  have htop : heap.peek h = ms.getLast? := peek_eq_getLast? hperm hranked
  unfold offer Shortlist.offer
  rw [htop, hperm.length_eq]
  split
  · exact push_perm hperm m
  · cases hlast : ms.getLast? with
    | none => exact hperm
    | some worst =>
      dsimp only
      split
      · exact push_perm (pop_perm hperm (htop.trans hlast) hlast) m
      · exact hperm

theorem foldl_offer_perm (heap : MaxHeap) (k : Nat) {h : heap.Carrier} (ns ms : List Match)
    (hperm : (heap.content h).Perm (Match.best k ms)) :
    (heap.content (ns.foldl (heap.offer k) h)).Perm (Match.best k (ns ++ ms)) := by
  induction ns generalizing h ms with
  | nil => exact hperm
  | cons n ns ih =>
    have hstep := offer_perm (k := k) hperm (Match.best_ranked k ms) n
    rw [Match.offer_eq (Match.best_ranked k ms) (Match.length_best_le k ms), ← Match.best_cons]
      at hstep
    have hmiddle : (ns ++ n :: ms).Perm (n :: ns ++ ms) := List.perm_middle
    rw [← Match.best_congr hmiddle]
    exact ih (n :: ms) hstep

/-- A heap finds what the shortlist finds, in an order of its own. -/
theorem nearest_perm (heap : MaxHeap) (metric : Metric) {index : FlatIndex} {query : Embedding}
    (hdimension : query.length = index.dimension) (k : Nat) :
    ∃ found, heap.nearest metric index query k = .ok found ∧
      found.Perm (Match.best k (index.candidates metric query)) := by
  unfold nearest
  rw [if_neg (not_not.mpr hdimension)]
  split
  · next hk => exact ⟨[], rfl, by rw [hk, Match.best, List.take_zero]⟩
  · have hempty : (heap.content heap.empty).Perm (Match.best k []) := by
      rw [heap.content_empty, Match.best, Match.rank, List.mergeSort_nil, List.take_nil]
    have hall := foldl_offer_perm heap k (index.candidates metric query) [] hempty
    rw [List.append_nil] at hall
    exact ⟨_, rfl, hall⟩

/-- Matches in a heap, lying as they came. The top is looked for when it is needed. -/
def bag : MaxHeap where
  Carrier := List Match
  content ms := ms
  empty := []
  push := List.cons
  peek ms := (Match.rank ms).getLast?
  pop ms := (Match.rank ms).dropLast
  content_empty := rfl
  content_push _ _ := List.Perm.refl _
  content_of_peek_none ms h := by
    rw [List.getLast?_eq_none_iff] at h
    exact List.perm_nil.mp (h ▸ (Match.rank_perm ms).symm)
  key_le_peek ms top h m hm := by
    obtain ⟨init, hrank⟩ := List.getLast?_eq_some_iff.mp h
    have hranked : Match.Ranked (init ++ [top]) := hrank ▸ Match.rank_ranked ms
    have hmem : m ∈ init ++ [top] := hrank ▸ (Match.rank_perm ms).mem_iff.mpr hm
    rcases List.mem_append.mp hmem with hinit | hsingle
    · exact (List.pairwise_append.mp hranked).2.2 m hinit top List.mem_cons_self
    · rw [List.mem_singleton.mp hsingle]
  content_pop ms top h := by
    obtain ⟨init, hrank⟩ := List.getLast?_eq_some_iff.mp h
    rw [hrank, List.dropLast_concat]
    exact (Match.rank_perm ms).symm.trans (hrank ▸ List.perm_append_singleton top init)

end MaxHeap

/-! ## What a file holds -/

namespace FlatIndex

variable {index : FlatIndex} {files : FileTree} {path : Path}

/-- The bytes of an index are made of these ids and vectors. -/
structure Lists (index : FlatIndex) (ids : List DocId) (vectors : List Bytes) : Prop where
  length_ids : ids.length = index.count
  length_vectors : vectors.length = index.count
  stride : ∀ vector ∈ vectors, vector.length = index.dimension * 4
  bytes : index.bytes = close (header index.dimension index.count
    ++ ids.flatMap (fun id => Word.encode 4 id.toNat) ++ vectors.flatten)

/-- The matches of some documents: each with the distance of the vector at its place. -/
def measure (metric : Metric) (query : Embedding) (ids : List DocId) (vectors : List Bytes) :
    List Match :=
  ids.zipWith (fun id vector => ⟨id, metric vector query⟩) vectors

theorem candidates_eq (metric : Metric) (index : FlatIndex) (query : Embedding) :
    index.candidates metric query = measure metric query index.docs index.rows := by
  rw [measure, docs, rows, List.zipWith_map, List.zipWith_self]
  rfl

theorem Formed.lists {announced : Bytes} (h : Formed announced index) :
    index.Lists index.docs index.rows := by
  refine ⟨by simp [docs], by simp [rows], fun vector hvector => ?_, ?_⟩
  · obtain ⟨i, hi, rfl⟩ := List.mem_map.mp hvector
    exact h.length_vectorBytes (List.mem_range.mp hi)
  · rw [h.flatMap_docs, h.flatten_rows, List.append_assoc, List.take_append_drop]
    exact h.bytes

/-- **An index that was loaded answers with the nearest of everything in its file.** The order is
that of the distances and, at equal distance, of the documents. What is found are the first `k` of
all matches in this order, or all of them if there are fewer, and documents that are stored more
than once are there as often. A heap in place of the ranked shortlist finds the same. A query of
another dimension is refused. -/
theorem nearest_of_load (hload : FlatIndex.load files path = .ok index) :
    ∃ (ids : List DocId) (vectors : List Bytes),
      files.map path = .ok index.bytes ∧ index.Lists ids vectors ∧
      ∀ (metric : Metric) (query : Embedding) (k : Nat),
        (query.length = index.dimension → ∃ sorted results : List Match,
          sorted.Perm (measure metric query ids vectors) ∧ sorted.Pairwise Match.Precedes ∧
          index.nearest metric query k = .ok results ∧
          results.Perm (sorted.take (min k index.count)) ∧
          ∀ heap : MaxHeap, ∃ found, heap.nearest metric index query k = .ok found ∧
            found.Perm results) ∧
        (query.length ≠ index.dimension →
          index.nearest metric query k
            = .error (.dimensionMismatch index.dimension query.length) ∧
          ∀ heap : MaxHeap, heap.nearest metric index query k
            = .error (.dimensionMismatch index.dimension query.length)) := by
  obtain ⟨bytes, hmap, hdecode⟩ := load_eq_ok_iff_map.mp hload
  obtain ⟨rfl, -, -, announced, hlength, hbytes⟩ := decode_eq_ok_iff.mp hdecode
  have hlists : index.Lists index.docs index.rows := Formed.lists ⟨hbytes, hlength⟩
  refine ⟨index.docs, index.rows, hmap, hlists, fun metric query k => ⟨?_, ?_⟩⟩
  · intro hdimension
    have hnearest := nearest_eq_best metric index query k
    rw [if_pos hdimension] at hnearest
    have hcount : (Match.rank (index.candidates metric query)).length = index.count := by
      rw [(Match.rank_perm _).length_eq, candidates, List.length_map, List.length_range]
    have hsorted : (Match.rank (index.candidates metric query)).Pairwise Match.Precedes :=
      (Match.rank_ranked _).imp Match.key_le_iff.mp
    refine ⟨Match.rank (index.candidates metric query), _, ?_, hsorted, hnearest, ?_, ?_⟩
    · rw [← candidates_eq]
      exact Match.rank_perm _
    · rw [← hcount, ← List.take_eq_take_min]
      rfl
    · exact fun heap => heap.nearest_perm metric hdimension k
  · intro hdimension
    refine ⟨?_, fun heap => ?_⟩
    · rw [nearest_eq_best, if_neg hdimension]
    · rw [MaxHeap.nearest, if_pos hdimension]

/-- Four vectors of one number each. Three are as far away, and two of these are of one document. -/
theorem nearest_of_load_of_ties :
    let files : FileTree := { workingDirectory := ["w"], nodes := [(["w"], .directory),
      (["w", "x"], .file (encode [5, 3, 5, 4] [[⟨2⟩], [⟨1⟩], [⟨2⟩], [⟨2⟩]]))] }
    let metric : Metric := fun stored _ => ⟨UInt32.ofNat (stored.headD 0).toNat⟩
    ∃ index found, load files ⟨"x"⟩ = .ok index ∧
      MaxHeap.bag.nearest metric index [⟨0⟩] 3 = .ok found ∧
      found.Perm [⟨3, ⟨1⟩⟩, ⟨4, ⟨2⟩⟩, ⟨5, ⟨2⟩⟩] ∧
      MaxHeap.bag.nearest metric index [] 3 = .error (.dimensionMismatch 1 0) := by
  intro files metric
  let index : FlatIndex := ⟨encode [5, 3, 5, 4] [[⟨2⟩], [⟨1⟩], [⟨2⟩], [⟨2⟩]], 1, 4⟩
  have hload : load files ⟨"x"⟩ = .ok index := by decide +kernel
  obtain ⟨ids, vectors, -, -, hall⟩ := nearest_of_load hload
  obtain ⟨_, results, -, -, hnearest, -, hheap⟩ := (hall metric [⟨0⟩] 3).1 rfl
  obtain ⟨found, hfound, hperm⟩ := hheap MaxHeap.bag
  have hresults : index.nearest metric [⟨0⟩] 3 = .ok [⟨3, ⟨1⟩⟩, ⟨4, ⟨2⟩⟩, ⟨5, ⟨2⟩⟩] := by
    decide +kernel
  rw [hnearest, Except.ok.injEq] at hresults
  exact ⟨index, found, hload, hfound, hresults ▸ hperm, ((hall metric [] 3).2 (by decide)).2 _⟩

end FlatIndex

end Sidecar
