import Sidecar.Proofs.Writer.Awaited
import Sidecar.Proofs.Writer.Published
import Mathlib.Data.List.Induction
import Mathlib.Data.List.Infix

/-!
# What a write makes of a stream

A stream of values has one of three fates. Without a value there is nothing to write. If the values
can be indexed together (`Regular`), they are published: the sidecar is their header, their documents
in the order of the stream, and the very bytes of the values, since a vector of finite numbers is
decoded and encoded again without a change. Otherwise some item is the first that does not go with
those before it (`Offence`), and the write fails with what is wrong with it, before anything has
happened.

`Offence` says for each fault when it is the one that is reported. A value that has several is empty
first, then ragged, then of the wrong dimension, and only then looked at component by component; and
its dimension is wrong if it is not that of the first value of the stream.

What is said of the files is said of every tree without links.
-/

set_option autoImplicit false

namespace Sidecar

open Builders

/-! ## One value -/

/-- A value is a vector of finite numbers. -/
structure Sound (value : Bytes) : Prop where
  nonempty : value ≠ []
  whole : value.length % 4 = 0
  finite : ∀ x ∈ componentsOf value, x.isFinite = true

/-- An item of a stream does not go with values of the expected dimension, and why. -/
inductive Offence (expected : Option Nat) : Except Error (DocId × Bytes) → Error → Prop where
  | stream (e : Error) : Offence expected (.error e) e
  | empty (doc : DocId) : Offence expected (.ok (doc, [])) (.malformedVector doc "empty value")
  | ragged {doc : DocId} {value : Bytes} (h : value.length % 4 ≠ 0) :
      Offence expected (.ok (doc, value))
        (.malformedVector doc s!"value length {value.length} is not a multiple of 4")
  | dimension {doc : DocId} {value : Bytes} {fixed : Nat} (nonempty : value ≠ [])
      (whole : value.length % 4 = 0) (known : expected = some fixed)
      (differs : fixed ≠ value.length / 4) :
      Offence expected (.ok (doc, value)) (.dimensionMismatch fixed (value.length / 4))
  | component {doc : DocId} {value : Bytes} {position : Nat} (nonempty : value ≠ [])
      (whole : value.length % 4 = 0) (fits : ∀ fixed ∈ expected, fixed = value.length / 4)
      (inside : position < (componentsOf value).length)
      (bad : (componentsOf value)[position].isFinite = false)
      (first : ∀ i (h : i < position), (componentsOf value)[i].isFinite = true) :
      Offence expected (.ok (doc, value))
        (.malformedVector doc s!"component {position} is not finite")

variable {doc : DocId} {value : Bytes} {expected : Option Nat} {vector : Embedding} {e : Error}

theorem decodeVector_cases (doc : DocId) (value : Bytes) (expected : Option Nat) :
    (∃ e, decodeVector doc value expected = .error e ∧ Offence expected (.ok (doc, value)) e) ∨
    (decodeVector doc value expected = .ok (componentsOf value) ∧ Sound value ∧
      ∀ fixed ∈ expected, fixed = value.length / 4) := by
  unfold decodeVector
  split
  · next hempty =>
    obtain rfl := List.isEmpty_iff.mp hempty
    exact Or.inl ⟨_, rfl, .empty doc⟩
  next hempty =>
  have hne : value ≠ [] := by simpa using hempty
  split
  · next hragged => exact Or.inl ⟨_, rfl, .ragged hragged⟩
  next hwhole =>
  rw [not_not] at hwhole
  dsimp only
  split
  · next fixed hfilter =>
    obtain ⟨hknown, hdiffers⟩ := Option.filter_eq_some_iff.mp hfilter
    exact Or.inl ⟨_, rfl, .dimension hne hwhole hknown (by simpa using hdiffers)⟩
  next hfilter =>
  have hfits : ∀ fixed ∈ expected, fixed = value.length / 4 := by
    simpa [Option.filter_eq_none_iff] using hfilter
  split
  · next position hfind =>
    obtain ⟨hinside, hbad, hfirst⟩ := List.findIdx?_eq_some_iff_getElem.mp hfind
    refine Or.inl ⟨_, rfl, .component hne hwhole hfits hinside (by simpa using hbad) ?_⟩
    exact fun i hi => by simpa using hfirst i hi
  · next hfind =>
    refine Or.inr ⟨rfl, ⟨hne, hwhole, fun x hx => ?_⟩, hfits⟩
    simpa using List.findIdx?_eq_none_iff.mp hfind x hx

/-- The error of a value is that of its fault. -/
theorem Offence.decodeVector {e : Error} (h : Offence expected (.ok (doc, value)) e) :
    decodeVector doc value expected = .error e := by
  unfold Sidecar.decodeVector
  cases h with
  | empty => rfl
  | ragged h =>
    have hne : value ≠ [] := by
      rintro rfl
      exact h rfl
    simp [hne, h]
  | dimension nonempty whole known differs =>
    have hfilter : expected.filter (· ≠ value.length / 4) = some _ :=
      Option.filter_eq_some_iff.mpr ⟨known, by simpa using differs⟩
    rw [if_neg (by simpa using nonempty), if_neg (not_not.mpr whole)]
    dsimp only
    rw [hfilter]
  | component nonempty whole fits inside bad first =>
    have hfilter : expected.filter (· ≠ value.length / 4) = none := by
      simpa [Option.filter_eq_none_iff] using fits
    have hfind : (componentsOf value).findIdx? (!·.isFinite) = some _ :=
      List.findIdx?_eq_some_iff_getElem.mpr ⟨inside, by simp [bad], fun i hi => by simp [first i hi]⟩
    rw [if_neg (by simpa using nonempty), if_neg (not_not.mpr whole)]
    dsimp only
    rw [hfilter, hfind]

theorem Offence.unsound {e : Error} (h : Offence expected (.ok (doc, value)) e) (hsound : Sound value)
    (hfits : ∀ fixed ∈ expected, fixed = value.length / 4) : False := by
  cases h with
  | empty => exact hsound.nonempty rfl
  | ragged h => exact h hsound.whole
  | dimension _ _ known differs => exact differs (hfits _ known)
  | component _ _ _ inside bad _ =>
    have hfinite := hsound.finite _ (List.getElem_mem inside)
    rw [bad] at hfinite
    cases hfinite

theorem decodeVector_of_sound (doc : DocId) (hsound : Sound value)
    (hfits : ∀ fixed ∈ expected, fixed = value.length / 4) :
    decodeVector doc value expected = .ok (componentsOf value) := by
  rcases decodeVector_cases doc value expected with ⟨e, -, hoffence⟩ | ⟨hok, -⟩
  · exact (hoffence.unsound hsound hfits).elim
  · exact hok

/-! ## A stream of values -/

/-- The values can be indexed together: they are vectors of finite numbers, and have one length. -/
structure Regular (entries : List (DocId × Bytes)) : Prop where
  sound : ∀ entry ∈ entries, Sound entry.2
  uniform : ∀ entry ∈ entries, ∀ other ∈ entries, entry.2.length = other.2.length

/-- The dimension that the first value fixes. -/
def dimensionOf? (entries : List (DocId × Bytes)) : Option Nat :=
  entries.head?.map fun entry => entry.2.length / 4

/-- The record of a value. -/
def recordOf (entry : DocId × Bytes) : VectorRecord := ⟨entry.1, componentsOf entry.2⟩

variable {entries before : List (DocId × Bytes)}

theorem Regular.nil : Regular [] := ⟨List.forall_mem_nil _, List.forall_mem_nil _⟩

theorem Regular.fits (h : Regular entries) :
    ∀ entry ∈ entries, ∀ fixed ∈ dimensionOf? entries, fixed = entry.2.length / 4 := by
  intro entry hentry fixed hfixed
  obtain ⟨first, hfirst, rfl⟩ := Option.map_eq_some_iff.mp hfixed
  rw [h.uniform first (List.mem_of_head? hfirst) entry hentry]

theorem Regular.snoc (h : Regular entries) (hsound : Sound value)
    (hfits : ∀ fixed ∈ dimensionOf? entries, fixed = value.length / 4) :
    Regular (entries ++ [(doc, value)]) := by
  have hlength : ∀ entry ∈ entries, entry.2.length = value.length := by
    intro entry hentry
    obtain ⟨first, hfirst⟩ : ∃ first, entries.head? = some first :=
      Option.isSome_iff_exists.mp (List.isSome_head?.mpr (List.ne_nil_of_mem hentry))
    have hsame := h.uniform entry hentry first (List.mem_of_head? hfirst)
    have hquotient := hfits _ (Option.map_eq_some_iff.mpr ⟨first, hfirst, rfl⟩)
    have hwhole := (h.sound entry hentry).whole
    have hwhole' := hsound.whole
    omega
  constructor
  · intro entry hentry
    rcases List.mem_append.mp hentry with hold | hnew
    · exact h.sound entry hold
    · rw [List.mem_singleton.mp hnew]
      exact hsound
  · intro entry hentry other hother
    have hall : ∀ entry ∈ entries ++ [(doc, value)], entry.2.length = value.length := by
      intro entry hentry
      rcases List.mem_append.mp hentry with hold | hnew
      · exact hlength entry hold
      · rw [List.mem_singleton.mp hnew]
    rw [hall entry hentry, hall other hother]

/-- The values up to some point, each of which goes with the first. -/
theorem collect_append (expected : Option Nat) (rest : ValueStream)
    (hsound : ∀ entry ∈ entries, Sound entry.2)
    (hfits : ∀ entry ∈ entries, ∀ fixed ∈ expected <|> dimensionOf? entries,
      fixed = entry.2.length / 4) :
    Writer.collect expected (entries.map .ok ++ rest)
      = (Writer.collect (expected <|> dimensionOf? entries) rest).map (entries.map recordOf ++ ·) := by
  induction entries generalizing expected with
  | nil =>
    have hsame : (expected <|> dimensionOf? []) = expected := by cases expected <;> rfl
    rw [hsame]
    cases hrest : Writer.collect expected rest <;> simp [hrest, Except.map]
  | cons entry entries ih =>
    obtain ⟨doc, value⟩ := entry
    have hknown : (expected <|> dimensionOf? ((doc, value) :: entries))
        = some (expected.getD (value.length / 4)) := by
      cases expected <;> rfl
    have hfirst : ∀ fixed ∈ expected, fixed = value.length / 4 := by
      rintro fixed rfl
      exact hfits _ List.mem_cons_self fixed rfl
    have hdecode := decodeVector_of_sound doc (hsound _ List.mem_cons_self) hfirst
    rw [hknown] at hfits ⊢
    have hmore := ih (some (expected.getD (value.length / 4)))
      (fun entry hentry => hsound entry (List.mem_cons_of_mem _ hentry))
      (fun entry hentry => hfits entry (List.mem_cons_of_mem _ hentry))
    rw [List.map_cons, List.cons_append, Writer.collect, hdecode]
    simp only [bind, Except.bind, length_componentsOf]
    have hsame : (some (expected.getD (value.length / 4)) <|> dimensionOf? entries)
        = some (expected.getD (value.length / 4)) := rfl
    rw [hmore, hsame]
    cases Writer.collect (some (expected.getD (value.length / 4))) rest <;> rfl

theorem collect_regular (h : Regular entries) :
    Writer.collect none (entries.map .ok) = .ok (entries.map recordOf) := by
  have happend := collect_append none [] h.sound h.fits
  rwa [List.append_nil, Writer.collect, Except.map, List.append_nil] at happend

theorem collect_offence {item : Except Error (DocId × Bytes)} (h : Regular before)
    (hoffence : Offence (dimensionOf? before) item e) (after : ValueStream) :
    Writer.collect none (before.map .ok ++ item :: after) = .error e := by
  have hitem : Writer.collect (none <|> dimensionOf? before) (item :: after) = .error e := by
    rcases item with fault | ⟨doc, value⟩
    · cases hoffence
      rfl
    · change Writer.collect (dimensionOf? before) _ = _
      rw [Writer.collect, hoffence.decodeVector]
      rfl
  rw [collect_append none _ h.sound h.fits, hitem]
  rfl

/-- A stream is regular, or has a first item that does not go with those before it. -/
theorem regular_or_offence (values : ValueStream) :
    (∃ entries, values = entries.map .ok ∧ Regular entries) ∨
    ∃ before item after e, values = before.map .ok ++ item :: after ∧ Regular before ∧
      Offence (dimensionOf? before) item e := by
  -- From the end: if something before the last item is at fault, that is what is reported.
  induction values using List.reverseRecOn with
  | nil => exact Or.inl ⟨[], rfl, .nil⟩
  | append_singleton values item ih =>
    rcases ih with ⟨entries, rfl, hregular⟩ | ⟨before, bad, after, e, rfl, hregular, hoffence⟩
    · rcases item with e | ⟨doc, value⟩
      · exact Or.inr ⟨entries, _, [], e, rfl, hregular, .stream e⟩
      · rcases decodeVector_cases doc value (dimensionOf? entries) with
          ⟨e, -, hoffence⟩ | ⟨-, hsound, hfits⟩
        · exact Or.inr ⟨entries, _, [], e, rfl, hregular, hoffence⟩
        · exact Or.inl ⟨entries ++ [(doc, value)], by simp, hregular.snoc hsound hfits⟩
    · exact Or.inr ⟨before, bad, after ++ [item], e, by simp, hregular, hoffence⟩

/-! ## The file -/

/-- The sidecar of some values: the header, the documents in their order, the bytes of the values,
and the checksum. -/
def contentOf (dimension : Nat) (entries : List (DocId × Bytes)) : Bytes :=
  FlatIndex.close (FlatIndex.header dimension entries.length
    ++ (entries.flatMap (fun entry => Word.encode 4 entry.1.toNat)
    ++ entries.flatMap fun entry => entry.2))

namespace Regular

theorem dimensionOf_records (entries : List (DocId × Bytes)) :
    FlatIndex.dimensionOf ((entries.map recordOf).map (·.vector)) = (dimensionOf? entries).getD 0 := by
  cases entries with
  | nil => rfl
  | cons entry rest => exact length_componentsOf entry.2

theorem uniform_records (h : Regular entries) : FlatIndex.Uniform
    ((entries.map recordOf).map (·.doc)) ((entries.map recordOf).map (·.vector)) := by
  refine ⟨by simp, fun vector hvector => ?_⟩
  rw [List.map_map] at hvector
  obtain ⟨entry, hentry, rfl⟩ := List.mem_map.mp hvector
  obtain ⟨fixed, hfixed⟩ : ∃ fixed, dimensionOf? entries = some fixed := by
    cases entries with
    | nil => cases hentry
    | cons first rest => exact ⟨_, rfl⟩
  rw [dimensionOf_records, hfixed, Option.getD_some, h.fits entry hentry fixed hfixed]
  exact length_componentsOf entry.2

/-- The values are in the file as they were. -/
theorem encode_records (h : Regular entries) {dimension : Nat}
    (hdimension : dimensionOf? entries = some dimension) :
    FlatIndex.encode ((entries.map recordOf).map (·.doc)) ((entries.map recordOf).map (·.vector))
      = contentOf dimension entries := by
  have hvalues : ((entries.map recordOf).map (·.vector)).flatMap encodeVector
      = entries.flatMap fun entry => entry.2 := by
    rw [List.map_map, List.flatMap_map]
    exact List.flatMap_congr fun entry hentry =>
      encodeVector_componentsOf (h.sound entry hentry).whole
  have hdocs : ((entries.map recordOf).map (·.doc)).flatMap (fun id => Word.encode 4 id.toNat)
      = entries.flatMap fun entry => Word.encode 4 entry.1.toNat := by
    rw [List.map_map, List.flatMap_map]
    rfl
  rw [FlatIndex.encode_eq_close, FlatIndex.announcement, hdocs, hvalues, dimensionOf_records,
    hdimension, Option.getD_some, List.length_map, List.length_map, contentOf]

end Regular

/-! ## Publishing -/

namespace Writer

variable {others : Location → Prop} {path : Path} {content : Bytes} {t marked files : FileTree}

/-- A file is at the final path, none is at the temporary one, and no other has changed. -/
structure Placed (others : Location → Prop) (path : Path) (content : Bytes) (t t' : FileTree) :
    Prop where
  final : t'.stat path = .ok (.file content)
  temporary : t'.stat (temporaryPath path) = .error .notFound
  elsewhere : ∀ loc, ¬ others loc → ¬ t.destination path <+: loc →
    ¬ t.destination (temporaryPath path) <+: loc → t'.node? loc = t.node? loc

/-- The file of a build is renamed over the marker. -/
theorem placed_of_built (hnames : Reserved others path t) (hground : t.Grounded)
    (hcreate : t.create path = .ok marked)
    (hrun : marked.AgreeOff others (marked.Places (temporaryPath path)) files)
    (hbuilt : files.stat (temporaryPath path) = .ok (.file content)) :
    ∃ t', files.rename (temporaryPath path) path = .ok t' ∧ Placed others path content t t' := by
  have hmark : t.AgreeOff others (t.Places path) marked := FileTree.agreeOff_write others hcreate
  have hspared := hnames.temporary.of_eq hmark.workingDirectory
  obtain ⟨loc, hplaces, hloc, hmarked⟩ := FileTree.write_eq_ok_iff.mp hcreate
  obtain ⟨source, hsource, hfile⟩ := FileTree.stat_eq_file_iff.mp hbuilt
  have hpath : files.Places path loc := hrun.places
    (hnames.published.of_eq hmark.workingDirectory) (hmark.places hnames.published hplaces)
  have htemp : marked.Places (temporaryPath path) source := (hrun.places_iff hspared).mp hsource
  have htemp' : t.Places (temporaryPath path) source := (hmark.places_iff hnames.temporary).mp htemp
  have hfree : ¬ others loc := hplaces.eq_destination ▸ hnames.published.destination
  have hfree' : ¬ others source := htemp'.eq_destination ▸ hnames.temporary.destination
  -- The two files are in one directory, so neither is below the other.
  obtain ⟨parent, name, hname, hname'⟩ := hplaces.appendText htemp' (by decide)
  have hne : source ≠ loc := hplaces.ne_of_appendText htemp' (by decide) (by decide)
  have hlength : source.length = loc.length := by simp [hname, hname']
  have hthere : files.node? loc = some (.file []) := by
    rw [hrun.nodes loc hfree fun hin => hne (htemp.unique hin), hmarked,
      FileTree.node?_put_self hplaces.ne_nil]
  have hsourceFile : t.node? source ≠ some .directory := by
    intro hdirectory
    rw [(hrun.directories source hfree').mpr ((hmark.directories source hfree').mpr hdirectory)]
      at hfile
    cases hfile
  have hstart : ∀ p, FileTree.Apart source loc (files.origin p) := by
    intro p
    rw [FileTree.origin_eq (hrun.workingDirectory.trans hmark.workingDirectory)]
    exact hground.apart hsourceFile hloc p
  refine ⟨_, FileTree.rename_eq_move hsource hpath hfile hthere hlength hne, ?_, ?_, ?_⟩
  · refine FileTree.stat_eq_file_iff.mpr ⟨loc, hpath.move (by simp [hfile]) (by simp [hthere])
      (hstart path), ?_⟩
    rw [FileTree.node?_move_self hsource.ne_nil hpath.ne_nil hne, hfile]
  · refine FileTree.stat_eq_notFound (hsource.move (by simp [hfile]) (by simp [hthere]) (hstart _)) ?_
    exact FileTree.node?_moved hsource.ne_nil (fun hbelow => hne (hbelow.eq_of_length hlength.symm).symm)
      (List.prefix_refl _)
  · rw [← hplaces.eq_destination, ← htemp'.eq_destination]
    intro other hother hnew hold
    have hnot : ¬ marked.Places (temporaryPath path) other := fun hin =>
      hold (htemp.unique hin ▸ List.prefix_refl _)
    have hnot' : ¬ t.Places path other := fun hin =>
      hnew (hplaces.unique hin ▸ List.prefix_refl _)
    rw [FileTree.node?_move hnew hold, hrun.nodes other hother hnot, hmark.nodes other hother hnot']

variable {host : Host} {b : Builders} {timeoutMs : Option Nat} {tag : Option String}
  {target : SegmentTarget} {values : ValueStream} {opened : FileTree}

/-- The files and the workers are such that nothing stands in the way of a write. -/
structure Clear (others : Location → Prop) (path : Path) (s : State) : Prop where
  ready : Ready others s
  names : Reserved others path s.1
  grounded : s.1.Grounded
  marker : ∃ marked, s.1.create path = .ok marked
  temporary : ∃ opened, s.1.create (temporaryPath path) = .ok opened

theorem Clear.build_ends {job : BuildJob} {result : Except Error Unit} {after : State}
    (h : Clear others job.path (t, host, b)) (htemporary : job.temporary = temporaryPath job.path)
    (huniform : FlatIndex.Uniform job.ids job.vectors)
    (hbuild : build (Builders.run timeoutMs) job (t, host, b) = (result, after)) :
    (∃ ms, timeoutMs = some ms ∧ result = .error (.buildTimeout job.path.text ms)) ∨
    (result = .ok () ∧
      Placed others job.path (FlatIndex.encode job.ids job.vectors) t after.1) := by
  obtain ⟨marked, hcreate⟩ := h.marker
  obtain ⟨opened, hopened⟩ := h.temporary
  have hmark : t.AgreeOff others (t.Places job.path) marked := FileTree.agreeOff_write others hcreate
  have hready : Ready others (marked, host, b) :=
    ⟨h.ready.numbered, h.ready.staffed, h.ready.accepting, h.ready.healthy,
      h.ready.within.of_eq hmark.workingDirectory⟩
  have hspared : marked.Spared others job.temporary :=
    htemporary ▸ h.names.temporary.of_eq hmark.workingDirectory
  obtain ⟨opened', hopened'⟩ := hmark.write h.names.temporary hopened []
  unfold build at hbuild
  simp only [hcreate] at hbuild
  rcases hrun : Builders.run timeoutMs job (marked, host, b) with ⟨outcome, files, rest⟩
  simp only [hrun] at hbuild
  rcases hready.run_ends hspared (htemporary ▸ hopened') huniform hrun with
    ⟨ms, htimeout, rfl⟩ | ⟨rfl, hbuilt, hagree⟩
  · cases hbuild
    exact Or.inl ⟨ms, htimeout, rfl⟩
  · rw [htemporary] at hbuilt hagree
    obtain ⟨t', hrename, hplaced⟩ := placed_of_built h.names h.grounded hcreate hagree hbuilt
    simp only [publish, htemporary, hrename] at hbuild
    cases hbuild
    exact Or.inr ⟨rfl, hplaced⟩

theorem Clear.write_regular {dimension : Nat}
    (h : Clear others (target.sidecarPath tag) (t, host, b)) (hregular : Regular entries)
    (hdimension : dimensionOf? entries = some dimension)
    (hpatient : ∀ ms, timeoutMs = some ms →
      (write (Builders.run timeoutMs) tag target (entries.map .ok) (t, host, b)).1
        ≠ .error (.buildTimeout (target.sidecarPath tag).text ms)) :
    (write (Builders.run timeoutMs) tag target (entries.map .ok) (t, host, b)).1
      = .ok (some ⟨target.sidecarPath tag, target.segment, entries.length, dimension⟩) ∧
    Placed others (target.sidecarPath tag) (contentOf dimension entries) t
      (write (Builders.run timeoutMs) tag target (entries.map .ok) (t, host, b)).2.1 := by
  obtain ⟨entry, more, rfl⟩ : ∃ entry more, entries = entry :: more := by
    cases entries with
    | nil => cases hdimension
    | cons entry more => exact ⟨entry, more, rfl⟩
  have hfirst : (recordOf entry).dimension = dimension :=
    (length_componentsOf entry.2).trans (Option.some.inj hdimension)
  have hcollect : collect none ((entry :: more).map .ok) = .ok (recordOf entry :: more.map recordOf) :=
    collect_regular hregular
  rw [← hregular.encode_records hdimension]
  unfold write at hpatient ⊢
  simp only [hcollect] at hpatient ⊢
  rcases hbuild : build (Builders.run timeoutMs) ⟨target.sidecarPath tag,
      temporaryPath (target.sidecarPath tag), (recordOf entry :: more.map recordOf).map (·.doc),
      (recordOf entry :: more.map recordOf).map (·.vector)⟩ (t, host, b) with ⟨result, after⟩
  rw [hbuild] at hpatient ⊢
  rcases h.build_ends rfl hregular.uniform_records hbuild with
    ⟨ms, htimeout, rfl⟩ | ⟨rfl, hplaced⟩
  · exact absurd rfl (hpatient ms htimeout)
  · exact ⟨by simp [hfirst], hplaced⟩

/-- A stream with a fault is refused for the first one, and nothing else happens. -/
theorem write_irregular {values : ValueStream} (tag : Option String) (target : SegmentTarget)
    (timeoutMs : Option Nat) (s : State)
    (h : ¬ ∃ entries, values = entries.map .ok ∧ Regular entries) :
    ∃ before item after e, values = before.map .ok ++ item :: after ∧ Regular before ∧
      Offence (dimensionOf? before) item e ∧
      write (Builders.run timeoutMs) tag target values s = (.error e, s) := by
  obtain ⟨before, item, after, e, rfl, hbefore, hoffence⟩ :=
    (regular_or_offence values).resolve_left h
  refine ⟨before, item, after, e, rfl, hbefore, hoffence, ?_⟩
  rw [write, collect_offence hbefore hoffence]

/-- **What a write makes of a stream**, if its workers and its files are at its disposal and nobody
gives up waiting for the build. Nothing of this is needed where the stream is empty or has a fault. -/
theorem write_stream (others : Location → Prop) (tag : Option String) (target : SegmentTarget)
    (timeoutMs : Option Nat) (values : ValueStream) (s : State) :
    (values = [] → write (Builders.run timeoutMs) tag target values s = (.ok none, s)) ∧
    (∀ entries dimension, values = entries.map .ok → Regular entries →
      dimensionOf? entries = some dimension → Clear others (target.sidecarPath tag) s →
      (∀ ms, timeoutMs = some ms → (write (Builders.run timeoutMs) tag target values s).1
        ≠ .error (.buildTimeout (target.sidecarPath tag).text ms)) →
      (write (Builders.run timeoutMs) tag target values s).1
        = .ok (some ⟨target.sidecarPath tag, target.segment, entries.length, dimension⟩) ∧
      Placed others (target.sidecarPath tag) (contentOf dimension entries) s.1
        (write (Builders.run timeoutMs) tag target values s).2.1) ∧
    ((¬ ∃ entries, values = entries.map .ok ∧ Regular entries) →
      ∃ before item after e, values = before.map .ok ++ item :: after ∧ Regular before ∧
        Offence (dimensionOf? before) item e ∧
        write (Builders.run timeoutMs) tag target values s = (.error e, s)) := by
  obtain ⟨t, host, b⟩ := s
  refine ⟨?_, ?_, ?_⟩
  · rintro rfl
    rfl
  · rintro entries dimension rfl hregular hdimension hclear hpatient
    exact hclear.write_regular hregular hdimension hpatient
  · exact write_irregular tag target timeoutMs (t, host, b)

theorem grounded_desk : desk.Grounded := by
  have hall : ∀ loc ∈ desk.workingDirectory.inits, desk.node? loc = some .directory := by
    decide +kernel
  exact fun loc hloc => hall loc ((List.mem_inits _ _).mpr hloc)

/-- No value, two vectors, and a vector followed by half a component. -/
theorem write_of_streams :
    let target : SegmentTarget := ⟨⟨""⟩, "_0"⟩
    let path := target.sidecarPath (some FlatIndex.tag)
    let s : State := (desk, {}, Builders.new {})
    let written (values : ValueStream) :=
      write (Builders.run (some 20)) (some FlatIndex.tag) target values s
    let entries : List (DocId × Bytes) := [(3, [0, 0, 0x80, 0x3f]), (1, [0, 0, 0, 0x40])]
    let ragged : ValueStream := [.ok (3, [0, 0, 0x80, 0x3f]), .ok (1, [0, 0])]
    let good := written (entries.map .ok)
    written [] = (.ok none, s) ∧
    (good.1 = .ok (some ⟨path, "_0", 2, 1⟩) ∧
      good.2.1.stat path = .ok (.file (contentOf 1 entries)) ∧
      good.2.1.stat (temporaryPath path) = .error .notFound ∧
      good.2.1.node? ["w", "_0.si"] = some (.file [7])) ∧
    ∃ e, written ragged = (.error e, s) := by
  intro target path s written entries ragged good
  have hnames : Reserved (· = ["w", "_9.si"]) path desk := by
    constructor
    · change ∀ loc ∈ desk.way path, ¬ loc = ["w", "_9.si"]
      decide +kernel
    · change ∀ loc ∈ desk.way (temporaryPath path), ¬ loc = ["w", "_9.si"]
      decide +kernel
  have hready : Ready (· = ["w", "_9.si"]) s := ⟨numbered_new {}, staffed_new {},
    ⟨rfl, by decide⟩, ⟨rfl, rfl, rfl⟩, List.forall_mem_nil _⟩
  have hclear : Clear (· = ["w", "_9.si"]) path s := ⟨hready, hnames, grounded_desk,
    ⟨desk.put ["w", "_0_flat1.hnsw"] (.file []), by decide +kernel⟩,
    ⟨desk.put ["w", "_0_flat1.hnsw.tmp"] (.file []), by decide +kernel⟩⟩
  have hstream := write_stream (· = ["w", "_9.si"]) (some FlatIndex.tag) target (some 20)
  refine ⟨(hstream [] s).1 rfl, ?_, ?_⟩
  · have hregular : Regular entries := by
      constructor
      · intro entry hentry
        have hsound : ∀ entry ∈ entries, entry.2 ≠ [] ∧ entry.2.length % 4 = 0 ∧
            ∀ x ∈ componentsOf entry.2, x.isFinite = true := by decide +kernel
        obtain ⟨hne, hwhole, hfinite⟩ := hsound entry hentry
        exact ⟨hne, hwhole, hfinite⟩
      · decide
    have hpatient : ∀ ms, some 20 = some ms → good.1 ≠ .error (.buildTimeout path.text ms) := by
      rintro ms -
      have hends : good.1 = .ok (some ⟨path, "_0", 2, 1⟩) := by decide +kernel
      rw [hends]
      exact nofun
    obtain ⟨hresult, hplaced⟩ :=
      (hstream (entries.map .ok) s).2.1 entries 1 rfl hregular rfl hclear hpatient
    have hgood : good = write (Builders.run (some 20)) (some FlatIndex.tag) target
      (entries.map .ok) s := rfl
    rw [hgood]
    refine ⟨hresult, hplaced.final, hplaced.temporary, ?_⟩
    rw [hplaced.elsewhere ["w", "_0.si"] (by decide) (by decide +kernel) (by decide +kernel)]
    decide +kernel
  · have hirregular : ¬ ∃ entries, ragged = entries.map .ok ∧ Regular entries := by
      rintro ⟨entries, heq, hregular⟩
      have hmem : (1, [0, 0]) ∈ entries := by
        have hin : Except.ok (1, [0, 0]) ∈ ragged := by simp [ragged]
        rw [heq] at hin
        simpa using hin
      exact absurd (hregular.sound _ hmem).whole (by decide)
    obtain ⟨before, item, after, e, -, -, -, hfails⟩ := (hstream ragged s).2.2 hirregular
    exact ⟨e, hfails⟩

end Writer

end Sidecar
