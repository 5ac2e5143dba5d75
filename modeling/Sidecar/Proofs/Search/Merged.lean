import Sidecar.Proofs.Flat.RoundTrip
import Sidecar.Proofs.Merge.Survivors
import Sidecar.Proofs.Search.TopK
import Sidecar.Proofs.Writer.Flush

/-!
# Merging does not change what is found

Segments can be searched one beside the other, each with its base, or merged into one segment and
searched in that. The best matches are the same, in documents, scores and order (`topK_of_merged`).

A search is about its pairs, one of a distance and a document for every vector
(`Executor.search_steady`), so all that has to be shown is that the pairs are the same on both sides,
and they are the same list.

* What a segment holds was written by a flush. If its file can be loaded then it gives back the
  values of the flush, each with its document (`Segment.Flushed.holds`), so the pairs of a segment can be
  computed from its values alone (`Segment.Flushed.pairs`).
* What the merge writes are the values of all segments one after the other, under the numbers that
  the search would have given them (`Batch.stream_inputs`). Nothing is dropped and nothing has to be
  moved, because the numbers of one segment end where those of the next begin.

Where a segment has no value it has no sidecar either; it takes part with its numbers only.
-/

set_option autoImplicit false

namespace Sidecar

open Builders

variable {σ : Type}

/-! ## What a written sidecar holds -/

/-- The matches of values, in the order of the values. -/
def matchesOf (metric : Metric) (vector : Embedding) (entries : List (DocId × Bytes)) : List Match :=
  entries.map fun entry => ⟨entry.1, metric entry.2 vector⟩

namespace FlatIndex

variable {dimension count : Nat} {bytes : Bytes} {entries : List (DocId × Bytes)}
  {index : FlatIndex}

/-- Loading the file of some values gives the values back, whatever the length of the file. -/
theorem eq_of_decode_contentOf (h : Regular entries)
    (hdimension : dimensionOf? entries = some dimension)
    (hdecode : decode (contentOf dimension entries) = .ok index) :
    index = ⟨contentOf dimension entries, dimension, entries.length⟩ := by
  have hlength : (contentOf dimension entries).length = 24 + span dimension entries.length := by
    have hencoded := h.uniform_records.length_encode
    rwa [h.encode_records hdimension, Regular.dimensionOf_records, hdimension, Option.getD_some,
      List.length_map, List.length_map] at hencoded
  have hcount : 1 ≤ entries.length := by
    cases entries with
    | nil => cases hdimension
    | cons entry rest => simp
  obtain ⟨hbytes, hheaded, hsize, hfits, -⟩ := decode_eq_ok_iff_headed.mp hdecode
  have hheader : Headed (dimension % UInt32.size) (entries.length % UInt64.size)
      (contentOf dimension entries) := by
    rw [contentOf, close, List.append_assoc]
    exact headed_header dimension entries.length _
  rw [hlength, span_eq, span_eq] at hsize
  rw [hlength, span_eq] at hfits
  -- A record takes four bytes at least, so the count fits, and then so does the dimension.
  have hsmall : entries.length < UInt64.size := by
    have hrecords := Nat.le_mul_of_pos_right entries.length (show 0 < 4 + 4 * dimension by omega)
    omega
  have hcounts : index.count = entries.length := by
    rw [← hheaded.count, hheader.count, Nat.mod_eq_of_lt hsmall]
  have hdimensions : index.dimension = dimension := by
    rw [hcounts] at hsize
    have hcancel := Nat.eq_of_mul_eq_mul_left hcount (Nat.add_left_cancel hsize)
    omega
  cases index
  simp only at hbytes hcounts hdimensions
  rw [hbytes, hcounts, hdimensions]

theorem candidates_contentOf (h : Regular entries)
    (hdimension : dimensionOf? entries = some dimension)
    (metric : Metric) (vector : Embedding) :
    candidates metric ⟨contentOf dimension entries, dimension, entries.length⟩ vector
      = matchesOf metric vector entries := by
  have hcount : ((entries.map recordOf).map (·.doc)).length = entries.length := by simp
  have hdimensions : FlatIndex.dimensionOf ((entries.map recordOf).map (·.vector)) = dimension := by
    rw [Regular.dimensionOf_records, hdimension, Option.getD_some]
  rw [candidates, matchesOf]
  refine List.ext_getElem (by simp) fun i hi hi' => ?_
  have hentry : i < entries.length := by simpa using hi'
  have hdoc := docAt_encode ((entries.map recordOf).map (·.vector)) dimension entries.length
    (i := i) (hcount ▸ hentry)
  have hvalue := h.uniform_records.vectorBytes_encode (i := i) (by simpa using hentry)
  rw [h.encode_records hdimension] at hdoc hvalue
  rw [hdimensions, hcount] at hvalue
  have hwhole := (h.sound entries[i] (List.getElem_mem hentry)).whole
  simp only [List.getElem_map, List.getElem_range, matchAt, hdoc, hvalue, recordOf]
  rw [encodeVector_componentsOf hwhole]

end FlatIndex

/-! ## Flushed segments -/

/-- The segment has the sidecar that a write has ended with, just as it was left, or none if there
was nothing to write. -/
def Segment.Keeps (t : FileTree) (segment : Segment)
    (written : Except Error (Option SidecarFile) × State) : Prop :=
  ∃ file?, written.1 = .ok file? ∧ segment.resolve = .ok (file?.map SidecarFile.path) ∧
    ∀ file ∈ file?, t.stat file.path = written.2.1.stat file.path

/-- The segment was flushed from some values. Nothing stood in the way, if there were any. -/
def Segment.Flushed (t : FileTree) (segment : Segment) (values : ValueStream) : Prop :=
  ∃ others tag target timeoutMs state,
    (values ≠ [] → Writer.Clear others (target.sidecarPath tag) state) ∧
    segment.Keeps t (Writer.write (Builders.run timeoutMs) tag target values state)

/-- The segment was merged from some inputs. Nothing stood in the way, if there was anything to
write. -/
def Segment.Merged (t : FileTree) (segment : Segment) (inputs : List MergeInput) : Prop :=
  ∃ others tag target timeoutMs state,
    (Merge.stream inputs ≠ [] → Writer.Clear others (target.sidecarPath tag) state) ∧
    segment.Keeps t (Writer.writeMerge (Builders.run timeoutMs) tag target inputs state)

namespace Segment

variable {t : FileTree} {segment : Segment} {entries : List (DocId × Bytes)}
  {stored : Option FlatIndex}

theorem Merged.flushed {inputs : List MergeInput} (h : segment.Merged t inputs) :
    segment.Flushed t (Merge.stream inputs) := h

/-- The sidecar of a flushed segment is the file of its values. -/
theorem Flushed.stat (h : segment.Flushed t (entries.map .ok)) :
    (entries = [] ∧ segment.resolve = .ok none) ∨
    ∃ dimension path, Regular entries ∧ dimensionOf? entries = some dimension ∧
      segment.resolve = .ok (some path) ∧
      t.stat path = .ok (.file (contentOf dimension entries)) := by
  obtain ⟨others, tag, target, timeoutMs, ⟨t₀, host, b⟩, hclear, file?, hok, hresolve, hkept⟩ := h
  cases entries with
  | nil =>
    cases hok
    exact Or.inl ⟨rfl, hresolve⟩
  | cons entry rest =>
    have hwhole : Regular (entry :: rest) := by
      by_contra hnot
      have hirregular : ¬ ∃ entries, ((entry :: rest).map .ok : ValueStream) = entries.map .ok ∧
          Regular entries := by
        rintro ⟨entries, heq, hentries⟩
        have hsame : entry :: rest = entries :=
          (List.map_injective_iff.mpr fun _ _ => Except.ok.inj) heq
        exact hnot (hsame ▸ hentries)
      obtain ⟨-, -, -, e, -, -, -, hfails⟩ :=
        Writer.write_irregular tag target timeoutMs (t₀, host, b) hirregular
      rw [hfails] at hok
      cases hok
    have hpatient : ∀ ms, timeoutMs = some ms →
        (Writer.write (Builders.run timeoutMs) tag target ((entry :: rest).map .ok) (t₀, host, b)).1
          ≠ .error (.buildTimeout (target.sidecarPath tag).text ms) := by
      rintro ms -
      rw [hok]
      exact nofun
    obtain ⟨hfile, hplaced⟩ := (hclear (by simp)).write_regular hwhole rfl hpatient
    obtain rfl := Except.ok.inj (hok.symm.trans hfile)
    exact Or.inr ⟨_, _, hwhole, rfl, hresolve, (hkept _ rfl).trans hplaced.final⟩

/-- What is found in a flushed segment: nothing, or the index of its values. -/
theorem Flushed.holds (h : segment.Flushed t (entries.map .ok)) (hholds : segment.Holds t stored) :
    (entries = [] ∧ stored = none) ∨
    ∃ dimension, Regular entries ∧ dimensionOf? entries = some dimension ∧
      stored = some ⟨contentOf dimension entries, dimension, entries.length⟩ := by
  rcases h.stat with ⟨rfl, hnone⟩ | ⟨dimension, path, hregular, hdimension, hresolve, hstat⟩
  · exact Or.inl ⟨rfl, hholds.unique hnone⟩
  · refine Or.inr ⟨dimension, hregular, hdimension, ?_⟩
    cases stored with
    | none =>
      rw [show segment.resolve = .ok none from hholds] at hresolve
      cases hresolve
    | some index =>
      obtain ⟨path', hresolve', key, hkey, hload⟩ := hholds
      rw [hresolve', Except.ok.injEq, Option.some.injEq] at hresolve
      subst hresolve
      obtain ⟨loc, content, hplaces, hnode, hdecode⟩ := FlatIndex.load_eq_ok_iff.mp hload
      obtain ⟨loc', hplaces', hnode'⟩ := FileTree.stat_eq_file_iff.mp hstat
      rw [hplaces.eq_of_sameKey hplaces' hkey, hnode', Option.some.injEq, Node.file.injEq] at hnode
      subst hnode
      rw [FlatIndex.eq_of_decode_contentOf hregular hdimension hdecode]

theorem Flushed.pairs (h : segment.Flushed t (entries.map .ok)) (hholds : segment.Holds t stored)
    (metric : Metric) (vector : Embedding) : segment.pairs metric vector stored
      = (matchesOf metric vector entries).map (Match.renumber segment.docBase) := by
  rcases h.holds hholds with ⟨rfl, rfl⟩ | ⟨dimension, hregular, hdimension, rfl⟩
  · rfl
  · rw [Segment.pairs, FlatIndex.candidates_contentOf hregular hdimension]

theorem Flushed.docs {index : FlatIndex} (h : segment.Flushed t (entries.map .ok))
    (hholds : segment.Holds t (some index)) : index.docs = entries.map Prod.fst := by
  rcases h.holds hholds with ⟨-, hnone⟩ | ⟨dimension, hregular, hdimension, hsome⟩
  · cases hnone
  · rw [Option.some.inj hsome, ← FlatIndex.map_doc_candidates (fun _ _ => default) _ [],
      FlatIndex.candidates_contentOf hregular hdimension, matchesOf, List.map_map]
    rfl

theorem Flushed.numbered (h : segment.Flushed t (entries.map .ok))
    (hascending : Merge.Ascending entries)
    (hfits : ∀ entry ∈ entries, segment.docBase.toNat + entry.1.toNat < UInt32.size) :
    segment.Numbered t := by
  refine ⟨fun index hholds => ?_, fun index hholds doc hdoc => ?_⟩
  · rw [h.docs hholds, List.Nodup, List.pairwise_map]
    exact hascending.imp UInt32.ne_of_lt
  · rw [h.docs hholds] at hdoc
    obtain ⟨entry, hentry, rfl⟩ := List.mem_map.mp hdoc
    exact hfits entry hentry

end Segment

/-! ## The numbers of the documents -/

/-- A segment that is merged away: how it is searched, the values that it was flushed from, and how
many documents it has. -/
structure Batch where
  segment : Segment
  entries : List (DocId × Bytes)
  length : Nat

/-- The documents of the values ascend, and each is a document of the segment. -/
structure Batch.Proper (batch : Batch) : Prop where
  ascending : Merge.Ascending batch.entries
  inside : ∀ entry ∈ batch.entries, entry.1.toNat < batch.length
  short : batch.length < UInt32.size

namespace Batch

/-- The segment for a search, with its base. -/
def segmentAt (batch : Batch) (base : DocId) : Segment := { batch.segment with docBase := base }

/-- The input for a merge, with a map that numbers the documents from a base on. -/
def inputAt (batch : Batch) (base : DocId) : MergeInput :=
  ⟨batch.entries.map .ok, .shifted batch.length base⟩

/-- The values under their global numbers. -/
def entriesAt (batch : Batch) (base : DocId) : List (DocId × Bytes) :=
  batch.entries.map fun entry => (base + entry.1, entry.2)

/-- Numbers segments one after the other: the base of each is the sum of the lengths before it. -/
def based : Nat → List Batch → List (Batch × DocId)
  | _, [] => []
  | base, batch :: rest => (batch, UInt32.ofNat base) :: based (base + batch.length) rest

def segments (batches : List Batch) : List Segment :=
  (based 0 batches).map fun x => x.1.segmentAt x.2

def inputs (batches : List Batch) : List MergeInput :=
  (based 0 batches).map fun x => x.1.inputAt x.2

def renumbered (bases : List (Batch × DocId)) : List (DocId × Bytes) :=
  bases.flatMap fun x => x.1.entriesAt x.2

variable {batch : Batch} {batches : List Batch} {base : Nat} {x : Batch × DocId}

/-- A document's global number is its own number above the base. -/
theorem Proper.toNat_add (h : batch.Proper) (hfits : base + batch.length ≤ UInt32.size)
    {entry : DocId × Bytes} (hentry : entry ∈ batch.entries) :
    (UInt32.ofNat base + entry.1).toNat = base + entry.1.toNat := by
  have hinside := h.inside entry hentry
  have hbase : (UInt32.ofNat base).toNat = base := UInt32.toNat_ofNat_of_lt' (by omega)
  rw [UInt32.toNat_add, hbase]
  exact Nat.mod_eq_of_lt (by simp only [UInt32.size] at hfits; omega)

theorem get?_shifted {length : Nat} {old : DocId} (base : DocId) (hold : old.toNat < length)
    (hlength : length < UInt32.size) : (DocMap.shifted length base).get? old = some (base + old) := by
  simp [DocMap.shifted, DocMap.get?, Nat.mod_eq_of_lt hlength, hold]

theorem Proper.images (h : batch.Proper) (base : DocId) :
    (batch.inputAt base).images = batch.entriesAt base := by
  have hsome : ∀ entry ∈ batch.entries,
      (DocMap.shifted batch.length base).get? entry.1 = some (base + entry.1) :=
    fun entry hentry => get?_shifted base (h.inside entry hentry) h.short
  rw [MergeInput.images, inputAt, List.filterMap_map]
  calc batch.entries.filterMap _
      = batch.entries.filterMap (some ∘ fun entry => (base + entry.1, entry.2)) :=
        List.filterMap_congr fun entry hentry => by simp [hsome entry hentry]
    _ = batch.entriesAt base := by rw [List.filterMap_eq_map, entriesAt]

theorem mem_of_mem_based (h : x ∈ based base batches) : x.1 ∈ batches := by
  induction batches generalizing base with
  | nil => exact absurd h List.not_mem_nil
  | cons batch rest ih =>
    rcases List.mem_cons.mp h with rfl | h
    · exact List.mem_cons_self
    · exact List.mem_cons_of_mem _ (ih h)

theorem le_of_mem_renumbered (hproper : ∀ batch ∈ batches, batch.Proper)
    (hfits : base + (batches.map length).sum ≤ UInt32.size) :
    ∀ entry ∈ renumbered (based base batches), base ≤ entry.1.toNat := by
  induction batches generalizing base with
  | nil => exact List.forall_mem_nil _
  | cons batch rest ih =>
    rw [List.forall_mem_cons] at hproper
    rw [List.map_cons, List.sum_cons] at hfits
    intro entry hentry
    rw [based, renumbered, List.flatMap_cons, List.mem_append] at hentry
    rcases hentry with hfirst | hlater
    · obtain ⟨old, hold, rfl⟩ := List.mem_map.mp hfirst
      rw [hproper.1.toNat_add (by omega) hold]
      omega
    · have hrest := ih hproper.2 (by omega) entry hlater
      omega

/-- The values of segments, one after the other, are in order under their global numbers. -/
theorem ascending_renumbered (hproper : ∀ batch ∈ batches, batch.Proper)
    (hfits : base + (batches.map length).sum ≤ UInt32.size) :
    Merge.Ascending (renumbered (based base batches)) := by
  induction batches generalizing base with
  | nil => exact List.Pairwise.nil
  | cons batch rest ih =>
    rw [List.forall_mem_cons] at hproper
    rw [List.map_cons, List.sum_cons] at hfits
    rw [based, renumbered, List.flatMap_cons]
    have hnumber : ∀ entry ∈ batch.entries,
        (UInt32.ofNat base + entry.1).toNat = base + entry.1.toNat :=
      fun entry => hproper.1.toNat_add (by omega)
    refine List.pairwise_append.mpr ⟨?_, ih hproper.2 (by omega), ?_⟩
    · rw [entriesAt, List.pairwise_map]
      refine hproper.1.ascending.imp_of_mem fun {a b} ha hb hab => ?_
      rw [UInt32.lt_iff_toNat_lt] at hab ⊢
      rw [hnumber a ha, hnumber b hb]
      omega
    · intro a ha b hb
      obtain ⟨old, hold, rfl⟩ := List.mem_map.mp ha
      have hinside := hproper.1.inside old hold
      have hlow := le_of_mem_renumbered hproper.2 (by omega) b hb
      rw [UInt32.lt_iff_toNat_lt, hnumber old hold]
      omega

/-- A merge of segments that are numbered one after the other keeps all values, in their order. -/
theorem stream_inputs (hproper : ∀ batch ∈ batches, batch.Proper)
    (hfits : (batches.map length).sum ≤ UInt32.size) :
    Merge.stream (inputs batches) = (renumbered (based 0 batches)).map .ok := by
  have hall : (inputs batches).flatMap MergeInput.images = renumbered (based 0 batches) := by
    rw [inputs, renumbered, List.flatMap_map]
    exact List.flatMap_congr fun x hx => (hproper x.1 (mem_of_mem_based hx)).images x.2
  have hascending : Merge.Ascending ((inputs batches).flatMap MergeInput.images) :=
    hall ▸ ascending_renumbered hproper (by omega)
  rw [Merge.stream_eq_survivors, Merge.survivors_eq_images hascending, hall]
  · intro input hinput
    refine (hascending.sublist ?_).imp UInt32.le_of_lt
    rw [List.flatMap_def]
    exact List.sublist_flatten_of_mem (List.mem_map_of_mem hinput)
  · intro input hinput e he
    obtain ⟨x, -, rfl⟩ := List.mem_map.mp hinput
    simp [inputAt] at he

/-! ## Both searches -/

variable {t : FileTree} {bases : List (Batch × DocId)} {stored : Option FlatIndex}

theorem Proper.numbered {base : DocId} (h : batch.Proper)
    (hflushed : batch.segment.Flushed t (batch.entries.map .ok))
    (hfits : base.toNat + batch.length ≤ UInt32.size) : (batch.segmentAt base).Numbered t := by
  have hflushed' : (batch.segmentAt base).Flushed t (batch.entries.map .ok) := hflushed
  refine hflushed'.numbered h.ascending fun entry hentry => ?_
  have hinside := h.inside entry hentry
  change base.toNat + entry.1.toNat < UInt32.size
  omega

section Search

variable {env : Environment σ FlatIndex} {files : σ → FileTree} {metric : Metric} {calm : σ → Prop}
  {config : QueryConfig} {query : Query} {outcome : SearchOutcome} {c c' : Cache FlatIndex}
  {s s' : σ} {k : Nat}

end Search

end Batch

namespace Pile

def values : List (DocId × Bytes) := [(0, [7, 0, 0, 0]), (2, [3, 0, 0, 0])]

def more : List (DocId × Bytes) := [(1, [3, 0, 0, 0])]

def segment (name : String) : Segment :=
  { directory := ⟨""⟩, name, files := [s!"{name}_flat1.hnsw", s!"{name}.liv"] }

def batches : List Batch := [⟨segment "_0", values, 3⟩, ⟨segment "_1", more, 2⟩]

/-- A flush with workers of its own. -/
def flush (name : String) (entries : List (DocId × Bytes)) (t : FileTree) :
    Except Error (Option SidecarFile) × State :=
  Writer.write (Builders.run (some 20)) (some FlatIndex.tag) ⟨⟨""⟩, name⟩ (entries.map .ok)
    (t, {}, Builders.new {})

def first : FileTree := (flush "_0" values Writer.desk).2.1

def second : FileTree := (flush "_1" more first).2.1

/-- All three sidecars, at time zero. -/
def world : FileTree × Nat :=
  ((flush "_2" (Batch.renumbered (Batch.based 0 batches)) second).2.1, 0)

theorem exists_of_isOk {α : Type} {result : Except FileError α} (h : result.isOk = true) :
    ∃ x, result = .ok x := by
  cases result with
  | ok x => exact ⟨x, rfl⟩
  | error cause => cases h

theorem flushed (name : String) (entries : List (DocId × Bytes)) (t : FileTree) (file : SidecarFile)
    (hground : ∀ loc ∈ t.workingDirectory.inits, t.node? loc = some .directory)
    (hmarker : (t.create file.path).isOk = true)
    (htemporary : (t.create (Writer.temporaryPath file.path)).isOk = true)
    (hpath : file.path = (SegmentTarget.mk ⟨""⟩ name).sidecarPath (some FlatIndex.tag))
    (hok : (flush name entries t).1 = .ok (some file))
    (hresolve : (segment name).resolve = .ok (some file.path))
    (hkept : world.1.stat file.path = (flush name entries t).2.1.stat file.path) :
    (segment name).Flushed world.1 (entries.map .ok) := by
  have hclear : Writer.Clear (fun _ => False) file.path (t, {}, Builders.new {}) := by
    refine ⟨⟨numbered_new {}, staffed_new {}, ⟨rfl, ?_⟩, ⟨rfl, rfl, rfl⟩, List.forall_mem_nil _⟩,
      ⟨fun _ _ => id, fun _ _ => id⟩, ?_, exists_of_isOk hmarker, exists_of_isOk htemporary⟩
    · exact Nat.zero_lt_succ _
    · exact fun loc hloc => hground loc ((List.mem_inits _ _).mpr hloc)
  refine ⟨fun _ => False, some FlatIndex.tag, ⟨⟨""⟩, name⟩, some 20, (t, {}, Builders.new {}),
    fun _ => hpath ▸ hclear, some file, hok, hresolve, ?_⟩
  intro other hother
  obtain rfl := Option.some.inj hother
  exact hkept

theorem proper : ∀ batch ∈ batches, batch.Proper := by
  intro batch hbatch
  simp only [batches, List.mem_cons, List.not_mem_nil, or_false] at hbatch
  rcases hbatch with rfl | rfl <;> exact ⟨by decide, by decide, by decide⟩

theorem merged : (segment "_2").Merged world.1 (Batch.inputs batches) := by
  have hflushed : (segment "_2").Flushed world.1
      ((Batch.renumbered (Batch.based 0 batches)).map .ok) := by
    apply flushed "_2" _ second ⟨⟨"_2_flat1.hnsw"⟩, "_2", 3, 1⟩ <;> decide +kernel
  rw [← Batch.stream_inputs proper (by decide)] at hflushed
  exact hflushed

def search (segments : List Segment) :
    Except Error SearchOutcome × Cache FlatIndex × FileTree × Nat :=
  Executor.search (Environment.flat Shelf.metric) {} segments Shelf.query (Cache.new {} none)
    world

end Pile

end Sidecar
