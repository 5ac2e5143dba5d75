import Sidecar.Proofs.Cache.Idle
import Sidecar.Proofs.Writer.Published
import Sidecar.Search.Query
import Sidecar.Writer.Compound

/-!
# Names that writers and searches agree on

A writer spells the name of a sidecar out of parts; a search is given the files of a segment and
picks the sidecar among them by its extension. The two go by different rules. An extension is what
follows the *last* dot of a file name, provided that something stands before that dot; and a path
ends in a file name only if its last step is neither `.` nor `..`. A segment or a tag may have dots
and underscores of its own, or nothing but dots.

What makes them agree is that every name a writer uses is a *dotted* name: a stem that is not empty,
a dot, and an extension without a dot (`dotted`). Such a name is too long to be `.` or `..`, whatever
its stem is, and its last dot is the one that was put there. The final name, the name of the twin of a
compound segment and the temporary name are dotted with the extensions `hnsw`, `hnswc` and `tmp`; the
stem of the temporary name is the whole final name.

The names of two segments differ as long as the tag is one and the same. Without a tag the segment
`a_b` has the name that `a` has under the tag `b`.
-/

set_option autoImplicit false

namespace Sidecar

namespace Path

/-! ## A stem and an extension -/

def dotted (stem extension : String) : String := stem ++ "." ++ extension

/-- An extension that is read back as it was written. -/
structure IsPlain (extension : String) : Prop where
  nonempty : extension ≠ ""
  noDot : '.' ∉ extension.toList
  noSlash : '/' ∉ extension.toList

theorem isPlain_layout (layout : Layout) : IsPlain layout.extension := by
  cases layout <;> exact ⟨by decide, by decide, by decide⟩

theorem isPlain_tmp : IsPlain "tmp" := ⟨by decide, by decide, by decide⟩

theorem toList_dotted (stem extension : String) :
    (dotted stem extension).toList = stem.toList ++ '.' :: extension.toList := by
  simp [dotted]

theorem cutAtLastDot_dotted {stem extension : List Char} (hstem : stem ≠ [])
    (hdot : '.' ∉ extension) :
    cutAtLastDot (stem ++ '.' :: extension) = some (stem, extension) := by
  have hreverse : (stem ++ '.' :: extension).reverse = extension.reverse ++ '.' :: stem.reverse := by
    simp
  have hplain : ∀ c ∈ extension.reverse, decide (c ≠ '.') = true := by
    intro c hc
    rw [decide_eq_true_iff]
    rintro rfl
    exact hdot (List.mem_reverse.mp hc)
  unfold cutAtLastDot
  rw [hreverse, List.takeWhile_append_of_pos hplain, List.dropWhile_append_of_pos hplain]
  have hshorter : extension.length ≠ stem.length + (extension.length + 1) := by omega
  simp [hstem, hshorter]

variable {stem extension : String}

theorem noSlash_dotted (hstem : '/' ∉ stem.toList) (hplain : IsPlain extension) :
    '/' ∉ (dotted stem extension).toList := by
  simp [toList_dotted, hstem, hplain.noSlash]

theorem length_dotted (hne : stem ≠ "") (hplain : IsPlain extension) :
    3 ≤ (dotted stem extension).length := by
  have hstem : stem.length ≠ 0 := fun h => hne (String.length_eq_zero_iff.mp h)
  have hextension : extension.length ≠ 0 :=
    fun h => hplain.nonempty (String.length_eq_zero_iff.mp h)
  have hdot : ".".length = 1 := rfl
  rw [dotted, String.length_append, String.length_append, hdot]
  omega

/-- A dotted name names a file, in whatever directory. -/
theorem fileName_join_dotted (directory : Path) (hne : stem ≠ "") (hstem : '/' ∉ stem.toList)
    (hplain : IsPlain extension) :
    (directory.join (dotted stem extension)).fileName = some (dotted stem extension) := by
  have hlong := length_dotted hne hplain
  refine fileName_of_last (getLast_steps_join directory (noSlash_dotted hstem hplain) ?_) ?_ ?_ <;>
  · intro heq
    rw [heq] at hlong
    exact absurd hlong (by decide)

theorem join_empty (name : String) : (Path.mk "").join name = ⟨name⟩ := by
  unfold join
  split
  · rfl
  · simp

theorem fileName_dotted (hne : stem ≠ "") (hstem : '/' ∉ stem.toList) (hplain : IsPlain extension) :
    (Path.mk (dotted stem extension)).fileName = some (dotted stem extension) :=
  join_empty (dotted stem extension) ▸ fileName_join_dotted ⟨""⟩ hne hstem hplain

theorem extension_dotted (hne : stem ≠ "") (hstem : '/' ∉ stem.toList)
    (hplain : IsPlain extension) :
    (Path.mk (dotted stem extension)).extension = some extension := by
  have hcut := cutAtLastDot_dotted (by simpa using hne : stem.toList ≠ []) hplain.noDot
  rw [Path.extension, fileName_dotted hne hstem hplain, Option.bind_some, toList_dotted, hcut,
    Option.map_some, String.ofList_toList]

/-! ## Names joined to a directory -/

/-- What stands before a name that is joined to the directory. -/
def lead (directory : Path) : String :=
  if directory.text.isEmpty || directory.endsInSlash then directory.text else directory.text ++ "/"

theorem join_eq_lead (directory : Path) {name : String} (h : '/' ∉ name.toList) :
    directory.join name = ⟨directory.lead ++ name⟩ := by
  unfold join lead
  rw [if_neg (by simp [isAbsolute_of_no_slash h])]
  split <;> rfl

theorem dropTrailing_of_head {c : Char} {rest : List Char} (hslash : c ≠ '/') (hdot : c ≠ '.') :
    dropTrailing (c :: rest) = c :: rest := by
  unfold dropTrailing
  split
  · next heq => exact absurd (List.cons.inj heq).1 hslash
  · next heq => exact absurd (List.cons.inj heq).1 hdot
  · rfl

/-- Replacing the extension of a dotted name leaves its stem and the directory. -/
theorem withExtension_join_dotted (directory : Path) {other : String} (hne : stem ≠ "")
    (hstem : '/' ∉ stem.toList) (hplain : IsPlain extension) (hother : IsPlain other) :
    (directory.join (dotted stem extension)).withExtension other
      = directory.join (dotted stem other) := by
  have hjoin := join_eq_lead directory (noSlash_dotted hstem hplain)
  have hcut := cutAtLastDot_dotted (by simpa using hne : stem.toList ≠ []) hplain.noDot
  have hchars : (directory.join (dotted stem extension)).text.toList
      = (directory.lead ++ stem).toList ++ '.' :: extension.toList := by
    simp [hjoin, toList_dotted]
  have hcount : ((directory.lead ++ stem).toList ++ '.' :: extension.toList).length
      - (extension.toList.length + 1) = (directory.lead ++ stem).toList.length := by
    rw [List.length_append, List.length_cons]
    exact Nat.add_sub_cancel _ _
  have hkept : (dropTrailing (directory.join (dotted stem extension)).text.toList.reverse).reverse
      = (directory.lead ++ stem).toList ++ '.' :: extension.toList := by
    cases hlast : extension.toList.reverse with
    | nil => exact absurd (by simpa using hlast) hplain.nonempty
    | cons c rest =>
      have hc : c ∈ extension.toList := by
        rw [← List.mem_reverse, hlast]
        exact List.mem_cons_self
      have hbehind : ((directory.lead ++ stem).toList ++ '.' :: extension.toList).reverse
          = c :: (rest ++ '.' :: (directory.lead ++ stem).toList.reverse) := by
        rw [List.reverse_append, List.reverse_cons, hlast]
        simp
      rw [hchars, hbehind, dropTrailing_of_head (fun h => hplain.noSlash (h ▸ hc))
        (fun h => hplain.noDot (h ▸ hc)), ← hbehind, List.reverse_reverse]
  have hnonempty : other.isEmpty = false := by simpa using hother.nonempty
  rw [withExtension, fileName_join_dotted directory hne hstem hplain]
  simp only [hkept, toList_dotted, hcut, hnonempty, hcount, List.take_left, String.ofList_toList,
    Bool.false_eq_true, if_false]
  rw [join_eq_lead directory (noSlash_dotted hstem hother)]
  simp only [dotted, String.append_assoc]

end Path

/-! ## The names of a segment -/

namespace Naming

open Sidecar.Path

/-- The name of a segment's sidecar, without the extension. -/
def stem (segment : String) (tag : Option String) : String :=
  match tag.filter (!·.isEmpty) with
  | some tag => segment ++ "_" ++ tag
  | none => segment

variable {segment : String} {tag : Option String}

theorem sidecarName_eq_dotted (segment : String) (tag : Option String) (layout : Layout) :
    sidecarName segment tag layout = dotted (stem segment tag) layout.extension := by
  unfold sidecarName stem
  cases tag.filter (!·.isEmpty) <;> rfl

theorem stem_ne (h : segment ≠ "") : stem segment tag ≠ "" := by
  unfold stem
  split
  · simp [h]
  · exact h

theorem noSlash_stem (hsegment : '/' ∉ segment.toList) (htag : ∀ t ∈ tag, '/' ∉ t.toList) :
    '/' ∉ (stem segment tag).toList := by
  unfold stem
  split
  · next t heq =>
    have hmem : t ∈ tag := (Option.filter_eq_some_iff.mp heq).1
    simp [hsegment, htag t hmem]
  · exact hsegment

theorem stem_injective {other : String} (h : stem segment tag = stem other tag) :
    segment = other := by
  unfold stem at h
  split at h
  · rwa [String.append_left_inj, String.append_left_inj] at h
  · exact h

/-- Under two tags, two segments may share a name. -/
example : sidecarName "a_b" none .regular = sidecarName "a" (some "b") .regular := rfl

theorem isSidecarName_dotted {stem extension : String} (hne : stem ≠ "")
    (hslash : '/' ∉ stem.toList) (hplain : IsPlain extension) (layout : Layout) :
    isSidecarName (dotted stem extension) layout = true ↔ extension = layout.extension := by
  rw [isSidecarName, extension_dotted hne hslash hplain, beq_iff_eq, Option.some.injEq]

theorem extension_injective {layout other : Layout} (h : layout.extension = other.extension) :
    other = layout := by
  revert h
  cases layout <;> cases other <;> decide

end Naming

/-! ## Finding a sidecar by its name -/

theorem Segment.resolve_of_single {context : Segment} {name : String}
    (hname : Naming.isSidecarName name context.layout = true) (honce : context.files.count name = 1)
    (hothers : ∀ other ∈ context.files, other ≠ name →
      Naming.isSidecarName other context.layout = false) :
    context.resolve = .ok (some (context.directory.join name)) := by
  have hfiltered : context.files.filter (Naming.isSidecarName · context.layout) = [name] := by
    calc context.files.filter (Naming.isSidecarName · context.layout)
        = context.files.filter (· == name) := by
          refine List.filter_congr fun other hmem => ?_
          by_cases heq : other = name
          · rw [heq, hname, beq_self_eq_true]
          · rw [hothers other hmem heq, beq_eq_false_iff_ne.mpr heq]
      _ = [name] := by rw [List.filter_beq, honce, List.replicate_one]
  rw [resolve, hfiltered]

namespace Writer

open Sidecar.Path Naming

/-- The paths that writing the sidecar of a segment uses. -/
def paths (target : SegmentTarget) (tag : Option String) : List Path :=
  [target.sidecarPath tag, temporaryPath (target.sidecarPath tag)]

section

variable {tag : Option String} {target : SegmentTarget}

/-- The temporary path is a dotted name beside the final one. -/
theorem temporaryPath_eq_join (hslash : '/' ∉ target.segment.toList)
    (htag : ∀ t ∈ tag, '/' ∉ t.toList) :
    temporaryPath (target.sidecarPath tag)
      = target.directory.join (dotted (sidecarName target.segment tag .regular) "tmp") := by
  have hfinal : '/' ∉ (sidecarName target.segment tag .regular).toList :=
    sidecarName_eq_dotted .. ▸ noSlash_dotted (noSlash_stem hslash htag) (isPlain_layout .regular)
  rw [SegmentTarget.sidecarPath, sidecarPath, join_eq_lead _ hfinal,
    join_eq_lead _ (noSlash_dotted hfinal isPlain_tmp)]
  simp [temporaryPath, appendText, dotted, String.append_assoc]

/-- The paths of a segment end in names that begin with its stem. -/
theorem fileName_of_mem_paths (hne : target.segment ≠ "") (hslash : '/' ∉ target.segment.toList)
    (htag : ∀ t ∈ tag, '/' ∉ t.toList) {p : Path} (h : p ∈ paths target tag) :
    ∃ ending, (ending = ".hnsw" ∨ ending = ".hnsw.tmp") ∧
      p.fileName = some (stem target.segment tag ++ ending) := by
  have hstem := noSlash_stem hslash htag
  have hplain := isPlain_layout .regular
  have hfinal := sidecarName_eq_dotted target.segment tag .regular
  have hnonempty : stem target.segment tag ≠ "" := stem_ne hne
  simp only [paths, List.mem_cons, List.not_mem_nil, or_false] at h
  rcases h with rfl | rfl
  · refine ⟨".hnsw", Or.inl rfl, ?_⟩
    rw [SegmentTarget.sidecarPath, sidecarPath, hfinal,
      fileName_join_dotted _ hnonempty hstem hplain, dotted, String.append_assoc]
    rfl
  · refine ⟨".hnsw.tmp", Or.inr rfl, ?_⟩
    have hlong : sidecarName target.segment tag .regular ≠ "" := by
      rw [hfinal]
      simp [dotted, hnonempty]
    rw [temporaryPath_eq_join hslash htag,
      fileName_join_dotted _ hlong (hfinal ▸ noSlash_dotted hstem hplain) isPlain_tmp, hfinal]
    simp only [dotted, String.append_assoc]
    rfl

/-- Two segments of one directory do not get into each other's way. -/
theorem sameKey_paths {other : String} (hne : target.segment ≠ "")
    (hslash : '/' ∉ target.segment.toList) (htag : ∀ t ∈ tag, '/' ∉ t.toList)
    (hdiffer : other ≠ target.segment) (hne' : other ≠ "") (hslash' : '/' ∉ other.toList)
    {p q : Path} (hp : p ∈ paths target tag) (hq : q ∈ paths ⟨target.directory, other⟩ tag) :
    p.sameKey q = false := by
  rw [Bool.eq_false_iff]
  intro hkey
  obtain ⟨ending, hending, hname⟩ := fileName_of_mem_paths hne hslash htag hp
  obtain ⟨ending', hending', hname'⟩ := fileName_of_mem_paths hne' hslash' htag hq
  rw [fileName_of_sameKey hkey, hname', Option.some.injEq] at hname
  -- A final name is no temporary one, because their last letters differ.
  have hsame : ending' = ending := by
    have hlast := congrArg (fun name : String => name.toList.getLast?) hname
    simp only [String.toList_append, List.getLast?_append] at hlast
    rcases hending with rfl | rfl <;> rcases hending' with rfl | rfl
    · rfl
    · simp at hlast
    · simp at hlast
    · rfl
  rw [hsame, String.append_left_inj] at hname
  exact hdiffer (stem_injective hname)

/-! ## The agreement -/

/-- **Writers and searches agree on names.** A search that is given the name of the written file, and
no other sidecar, finds the file that was written; each layout knows its own names and no temporary
one; and two segments of one directory share no path. -/
theorem names_agree {ε : Type} (run : BuildJob → FileTree × ε → BuildOutcome × (FileTree × ε))
    (tag : Option String) (target : SegmentTarget) (state : FileTree × ε)
    (hne : target.segment ≠ "") (hslash : '/' ∉ target.segment.toList)
    (htag : ∀ t ∈ tag, '/' ∉ t.toList) :
    let nameIn := sidecarName target.segment tag
    (∀ (source : Source) (file : SidecarFile),
      (source.write run tag target state).1 = .ok (some file) →
      ∃ name, file.fileName = some name ∧ ∀ context : Segment,
        context.directory = target.directory → context.layout = .regular →
        context.files.count name = 1 →
        (∀ other ∈ context.files, other ≠ name → isSidecarName other .regular = false) →
        context.resolve = .ok (some file.path)) ∧
    (∀ layout other, isSidecarName (nameIn layout) other = true ↔ other = layout) ∧
    (Path.mk (nameIn .regular)).withExtension Layout.compound.extension = ⟨nameIn .compound⟩ ∧
    twin (target.sidecarPath tag) = target.directory.join (nameIn .compound) ∧
    (∃ name, (temporaryPath (target.sidecarPath tag)).fileName = some name ∧
      ∀ layout, isSidecarName name layout = false) ∧
    (∀ other, other ≠ target.segment → other ≠ "" → '/' ∉ other.toList →
      ∀ p ∈ paths target tag, ∀ q ∈ paths ⟨target.directory, other⟩ tag, p.sameKey q = false) := by
  intro nameIn
  have hstem : stem target.segment tag ≠ "" := stem_ne hne
  have hplain := noSlash_stem hslash htag
  have hnames : ∀ layout, nameIn layout = dotted (stem target.segment tag) layout.extension :=
    fun layout => sidecarName_eq_dotted target.segment tag layout
  have hknown : ∀ layout other, isSidecarName (nameIn layout) other = true ↔ other = layout := by
    intro layout other
    rw [hnames, isSidecarName_dotted hstem hplain (isPlain_layout layout)]
    exact ⟨extension_injective, fun h => h ▸ rfl⟩
  have htwin : ∀ directory : Path, (directory.join (nameIn .regular)).withExtension
      Layout.compound.extension = directory.join (nameIn .compound) := by
    intro directory
    rw [hnames, hnames]
    exact withExtension_join_dotted directory hstem hplain (isPlain_layout _) (isPlain_layout _)
  refine ⟨?found, hknown, ?replaced, htwin target.directory, ?temporary, ?apart⟩
  case found =>
    intro source file hwrite
    rw [Source.write_eq] at hwrite
    obtain ⟨hpath, -⟩ := write_ok (Prod.ext hwrite rfl)
    refine ⟨nameIn .regular, ?_, ?_⟩
    · rw [SidecarFile.fileName, hpath, SegmentTarget.sidecarPath, sidecarPath, hnames .regular,
        sidecarName_eq_dotted]
      exact fileName_join_dotted target.directory hstem hplain (isPlain_layout .regular)
    · rintro ⟨directory, segment, files, layout, docBase⟩ rfl rfl honce hothers
      rw [hpath]
      exact Segment.resolve_of_single ((hknown .regular .regular).mpr rfl) honce hothers
  case replaced =>
    have hjoined := htwin ⟨""⟩
    rwa [join_empty, join_empty] at hjoined
  case temporary =>
    have hlong : nameIn .regular ≠ "" := by
      rw [hnames]
      simp [dotted, hstem]
    have hnoSlash : '/' ∉ (nameIn .regular).toList :=
      hnames .regular ▸ noSlash_dotted hplain (isPlain_layout .regular)
    refine ⟨dotted (nameIn .regular) "tmp", ?_, fun layout => ?_⟩
    · rw [temporaryPath_eq_join hslash htag]
      exact fileName_join_dotted target.directory hlong hnoSlash isPlain_tmp
    · rw [Bool.eq_false_iff, Ne, isSidecarName_dotted hlong hnoSlash isPlain_tmp]
      cases layout <;> decide
  case apart =>
    intro other hdiffer hne' hslash' p hp q hq
    exact sameKey_paths hne hslash htag hdiffer hne' hslash' hp hq

/-- A segment that is called like the parent directory, under a tag that is a dot. -/
theorem names_agree_on_dots :
    let target : SegmentTarget := ⟨⟨"."⟩, ".."⟩
    let written := oneVector.write (Builders.run none) (some ".") target (desk, {}, Builders.new {})
    let file : SidecarFile := ⟨⟨"./.._..hnsw"⟩, "..", 1, 1⟩
    let context : Segment :=
      { directory := ⟨"."⟩, name := "..", files := ["_0.si", ".._..hnsw", "x.hnswc"] }
    target.segment ≠ "" ∧ '/' ∉ target.segment.toList ∧ (∀ t ∈ some ".", '/' ∉ t.toList) ∧
    written.1 = .ok (some file) ∧ context.resolve = .ok (some file.path) ∧
    (Path.mk ".._..hnsw").withExtension "hnswc" = ⟨".._..hnswc"⟩ ∧
    ∀ p ∈ paths target (some "."), ∀ q ∈ paths ⟨target.directory, "."⟩ (some "."),
      p.sameKey q = false := by
  intro target written file context
  have hwritten : written.1 = .ok (some file) := by decide +kernel
  obtain ⟨hfound, -, hreplaced, -, -, hapart⟩ := names_agree (Builders.run none) (some ".") target
    (desk, {}, Builders.new {}) (by decide) (by decide) (by decide)
  obtain ⟨name, hname, hresolves⟩ := hfound oneVector file hwritten
  obtain rfl : ".._..hnsw" = name := Option.some.inj ((by decide +kernel :
    some ".._..hnsw" = file.fileName).trans hname)
  refine ⟨by decide, by decide, by decide, hwritten, ?_, hreplaced, ?_⟩
  · exact hresolves context rfl rfl (by decide) (by decide +kernel)
  · exact hapart "." (by decide) (by decide) (by decide)

end

end Writer

end Sidecar
