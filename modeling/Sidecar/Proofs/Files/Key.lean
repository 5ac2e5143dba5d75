import Sidecar.Naming
import Sidecar.Proofs.Files.Address

/-!
# Keys and addresses

A path is read in two ways: as a key, by its components, and as an address, by its steps. Two paths
with one key walk alike, because a `.` stays where it is and everything else that components leave
out is no step at all. They do not always place a file alike: a trailing slash asks for a directory, a
trailing `/.` enters one, and an address of 4096 bytes is too long, whatever its steps are.
`Places.of_sameKey` says that this is all.

The sidecar of a segment is a name joined to a directory. Such a path ends in that name, however the
directory is spelled (`steps_join`), so of the three differences only the length is left. Text
appended to a path makes the last name longer and leaves the rest (`getLast_steps_appendText`), so a
file and the temporary file beside it are never in one place.
-/

set_option autoImplicit false

namespace Sidecar

namespace Path

/-! ## The steps behind a key -/

def walked (p : Path) : List String := p.steps.filter (· ≠ ".")

def named (p : Path) : List Component := p.steps.filterMap Component.ofStep?

def Component.step : Component → String
  | root => "/"
  | here => "."
  | up => ".."
  | name text => text

def Component.isStep : Component → Bool
  | root | here => false
  | up | name _ => true

theorem ofStep_cases (step : String) :
    (step = "." ∧ Component.ofStep? step = none) ∨
    (step ≠ "." ∧ ∃ c, Component.ofStep? step = some c ∧ c.isStep = true ∧ c.step = step) := by
  unfold Component.ofStep?
  by_cases hdot : step = "."
  · exact Or.inl ⟨hdot, if_pos hdot⟩
  · refine Or.inr ⟨hdot, ?_⟩
    by_cases hup : step = ".."
    · exact ⟨.up, by rw [if_neg hdot, if_pos hup], rfl, hup.symm⟩
    · exact ⟨.name step, by rw [if_neg hdot, if_neg hup], rfl, rfl⟩

theorem isStep_of_mem_named {p : Path} {c : Component} (h : c ∈ p.named) : c.isStep = true := by
  obtain ⟨step, -, hstep⟩ := List.mem_filterMap.mp h
  rcases ofStep_cases step with ⟨-, hnone⟩ | ⟨-, c', hsome, his, -⟩
  · rw [hnone] at hstep
    cases hstep
  · rw [hsome, Option.some.injEq] at hstep
    exact hstep ▸ his

theorem map_step_named (p : Path) : p.named.map Component.step = p.walked := by
  unfold named walked
  induction p.steps with
  | nil => rfl
  | cons step rest ih =>
    rcases ofStep_cases step with ⟨hdot, hnone⟩ | ⟨hdot, c, hsome, -, hstep⟩
    · simp [hdot, Component.ofStep?, ih]
    · simp [hdot, hsome, hstep, ih]

theorem components_cases (p : Path) :
    (p.isAbsolute = true ∧ p.components = .root :: p.named) ∨
    (p.isAbsolute = false ∧ (p.components = .here :: p.named ∨ p.components = p.named)) := by
  unfold components
  cases p.isAbsolute with
  | true => exact Or.inl ⟨rfl, rfl⟩
  | false =>
    refine Or.inr ⟨rfl, ?_⟩
    by_cases hhead : p.steps.head? = some "."
    · simp [hhead, named]
    · simp [hhead, named]

theorem filter_components (p : Path) : p.components.filter Component.isStep = p.named := by
  have hall : p.named.filter Component.isStep = p.named :=
    List.filter_eq_self.mpr fun _ => isStep_of_mem_named
  rcases p.components_cases with ⟨-, heq⟩ | ⟨-, heq | heq⟩ <;>
    simp [heq, Component.isStep, hall]

theorem root_mem_components (p : Path) : .root ∈ p.components ↔ p.isAbsolute = true := by
  have hnot : Component.root ∉ p.named := fun h => Bool.noConfusion (isStep_of_mem_named h)
  rcases p.components_cases with ⟨habs, heq⟩ | ⟨habs, heq | heq⟩ <;> simp [habs, heq, hnot]

/-- Paths with one key start in one place and take the same steps, apart from those that stay. -/
theorem walked_of_sameKey {p q : Path} (h : p.sameKey q = true) :
    p.isAbsolute = q.isAbsolute ∧ p.walked = q.walked := by
  have heq : p.components = q.components := by simpa [sameKey] using h
  constructor
  · rw [Bool.eq_iff_iff, ← root_mem_components, ← root_mem_components, heq]
  · rw [← map_step_named, ← map_step_named, ← filter_components, ← filter_components, heq]

/-! ## The letters of a path -/

theorem pieces_ne_nil (cs : List Char) : pieces cs ≠ [] := by
  cases cs with
  | nil => simp [pieces]
  | cons c rest =>
    unfold pieces
    split
    · simp
    · split <;> simp

theorem mem_pieces {cs : List Char} {c : Char} :
    (∃ piece ∈ pieces cs, c ∈ piece) ↔ c ∈ cs ∧ c ≠ '/' := by
  induction cs with
  | nil => simp [pieces]
  | cons first rest ih =>
    unfold pieces
    split
    · next hslash =>
      subst hslash
      simp only [List.mem_cons, exists_eq_or_imp, List.not_mem_nil, false_or, ih]
      constructor
      · exact fun h => ⟨Or.inr h.1, h.2⟩
      · exact fun h => ⟨h.1.resolve_left h.2, h.2⟩
    · next hslash =>
      cases hpieces : pieces rest with
      | nil => exact absurd hpieces (pieces_ne_nil rest)
      | cons piece more =>
        rw [hpieces] at ih
        simp only [List.mem_cons, exists_eq_or_imp] at ih ⊢
        constructor
        · rintro ((rfl | h) | h)
          · exact ⟨Or.inl rfl, hslash⟩
          · exact (ih.mp (Or.inl h)).imp_left Or.inr
          · exact (ih.mp (Or.inr h)).imp_left Or.inr
        · rintro ⟨rfl | hmem, hne⟩
          · exact Or.inl (Or.inl rfl)
          · exact (ih.mpr ⟨hmem, hne⟩).imp_left Or.inr

theorem mem_steps {p : Path} {c : Char} :
    (∃ step ∈ p.steps, c ∈ step.toList) ↔ c ∈ p.text.toList ∧ c ≠ '/' := by
  rw [← mem_pieces]
  unfold steps
  constructor
  · rintro ⟨step, hstep, hc⟩
    obtain ⟨piece, hpiece, rfl⟩ := List.mem_map.mp hstep
    exact ⟨piece, (List.mem_filter.mp hpiece).1, by simpa using hc⟩
  · rintro ⟨piece, hpiece, hc⟩
    refine ⟨String.ofList piece, List.mem_map_of_mem (List.mem_filter.mpr ⟨hpiece, ?_⟩), ?_⟩
    swap
    · simpa using hc
    cases piece with
    | nil => exact absurd hc List.not_mem_nil
    | cons _ _ => rfl

/-- What a letter that ends a path for the system is in, it is in for every spelling of the key. -/
theorem nul_of_sameKey {p q : Path} (hkey : p.sameKey q = true) (h : '\x00' ∉ p.text.toList) :
    '\x00' ∉ q.text.toList := by
  intro hnul
  obtain ⟨step, hstep, hc⟩ := mem_steps.mpr ⟨hnul, by decide⟩
  have hdot : step ≠ "." := by
    rintro rfl
    exact absurd hc (by decide)
  have hwalked : step ∈ p.walked := by
    rw [(walked_of_sameKey hkey).2]
    exact List.mem_filter.mpr ⟨hstep, by simpa using hdot⟩
  exact h (mem_steps.mp ⟨step, (List.mem_filter.mp hwalked).1, hc⟩).1

end Path

namespace FileTree

variable {t : FileTree} {p q : Path} {loc : Location}

/-! ## One key, one place -/

theorem enter_here (t : FileTree) (loc : Location) : t.enter loc "." = .ok loc := by
  simp [enter, pure, Except.pure]

theorem foldlM_enter_filter (t : FileTree) (steps : List String) (loc : Location) :
    (steps.filter (· ≠ ".")).foldlM t.enter loc = steps.foldlM t.enter loc := by
  induction steps generalizing loc with
  | nil => rfl
  | cons step rest ih =>
    by_cases hdot : step = "."
    · rw [List.filter_cons_of_neg (by simp [hdot]), ih, List.foldlM_cons, hdot, enter_here]
      rfl
    · rw [List.filter_cons_of_pos (by simp [hdot]), List.foldlM_cons, List.foldlM_cons]
      cases t.enter loc step with
      | error e => rfl
      | ok next => exact ih next

theorem walked_of_last {name : String} (h : p.steps.getLast? = some name) (hdot : name ≠ ".") :
    p.walked = p.steps.dropLast.filter (· ≠ ".") ++ [name] := by
  obtain ⟨init, hinit⟩ := List.getLast?_eq_some_iff.mp h
  simp [Path.walked, hinit, hdot]

theorem Places.of_sameKey (h : t.Places p loc) (hkey : p.sameKey q = true)
    (hend : q.steps.getLast? ≠ some ".") (hslash : q.endsInSlash = false)
    (hshort : q.text.utf8ByteSize < 4096) : t.Places q loc := by
  obtain ⟨parent, name, hlast, hdot, hup, hname, hwalk, hloc⟩ := h.last
  obtain ⟨habs, hwalked⟩ := Path.walked_of_sameKey hkey
  have hstart : t.origin q = t.origin p := by rw [origin, origin, habs]
  have hmem : ∀ step, step ≠ "." → (step ∈ q.steps ↔ step ∈ p.steps) := by
    intro step hstep
    have hfilter : step ∈ p.walked ↔ step ∈ q.walked := by rw [hwalked]
    simpa [Path.walked, hstep] using hfilter.symm
  have hnameq : name ∈ q.steps := (hmem name hdot).mpr (List.mem_of_getLast? hlast)
  have hlastq : q.steps.getLast? = some name ∧
      q.steps.dropLast.filter (· ≠ ".") = p.steps.dropLast.filter (· ≠ ".") := by
    cases hq : q.steps.getLast? with
    | none =>
      rw [List.getLast?_eq_none_iff] at hq
      rw [hq] at hnameq
      exact absurd hnameq List.not_mem_nil
    | some other =>
      have hother : other ≠ "." := fun heq => hend (by rw [hq, heq])
      rw [walked_of_last hlast hdot, walked_of_last hq hother] at hwalked
      obtain ⟨hinit, htail⟩ := List.append_inj' hwalked rfl
      exact ⟨congrArg some (List.singleton_inj.mp htail).symm, hinit.symm⟩
  have hchars : '\x00' ∉ q.text.toList := Path.nul_of_sameKey hkey h.addressable.nul
  have hnonempty : q.text.isEmpty = false := by
    rw [Bool.eq_false_iff]
    intro hempty
    have hnone : q.steps = [] := by simp [Path.steps, String.isEmpty_iff.mp hempty, Path.pieces]
    rw [hnone] at hnameq
    exact absurd hnameq List.not_mem_nil
  refine ⟨⟨hchars, hnonempty, hshort⟩, hslash, parent, name, hlastq.1, hdot, hup, hname, ?_, hloc⟩
  rw [← foldlM_enter_filter, hlastq.2, foldlM_enter_filter, hstart, hwalk]

theorem Places.eq_of_sameKey {loc' : Location} (h : t.Places p loc) (h' : t.Places q loc')
    (hkey : p.sameKey q = true) : loc = loc' := by
  obtain ⟨_, name, hlast, hdot, -⟩ := h'.last
  have hend : q.steps.getLast? ≠ some "." := by
    rw [hlast]
    simpa using hdot
  exact (h.of_sameKey hkey hend h'.noSlash h'.addressable.short).unique h'

end FileTree

/-! ## The path of a sidecar -/

namespace Path

theorem pieces_append_slash (as bs : List Char) :
    pieces (as ++ '/' :: bs) = pieces as ++ pieces bs := by
  induction as with
  | nil => simp [pieces]
  | cons a as ih =>
    rw [List.cons_append, pieces, ih]
    conv_rhs => rw [pieces]
    split
    · rfl
    · cases hpieces : pieces as with
      | nil => exact absurd hpieces (pieces_ne_nil as)
      | cons piece more => rfl

theorem pieces_of_no_slash {cs : List Char} (h : '/' ∉ cs) : pieces cs = [cs] := by
  induction cs with
  | nil => rfl
  | cons c rest ih =>
    rw [List.mem_cons, not_or] at h
    rw [pieces, if_neg (Ne.symm h.1), ih h.2]

theorem filter_pieces_slashes (n : Nat) (cs : List Char) :
    (pieces (List.replicate n '/' ++ cs)).filter (fun piece => !piece.isEmpty)
      = (pieces cs).filter (fun piece => !piece.isEmpty) := by
  induction n with
  | zero => rfl
  | succ n ih =>
    rw [List.replicate_succ, List.cons_append, pieces, if_pos rfl,
      List.filter_cons_of_neg (by simp), ih]

/-- A path with slashes at its end, which take up a byte each. -/
def slashed (text : String) (slashes : Nat) : Path :=
  ⟨text ++ String.ofList (List.replicate slashes '/')⟩

theorem utf8ByteSize_slashed (text : String) (n : Nat) :
    (slashed text n).text.utf8ByteSize = text.utf8ByteSize + n := by
  have hslashes : (String.ofList (List.replicate n '/')).utf8ByteSize = n := by
    induction n with
    | zero => rfl
    | succ n ih =>
      rw [List.replicate_succ', String.ofList_append, String.utf8ByteSize_append, ih]
      rfl
  rw [slashed, String.utf8ByteSize_append, hslashes]

theorem isEmpty_slashed {text : String} (hne : text.isEmpty = false) (n : Nat) :
    (slashed text n).text.isEmpty = false := by
  rw [Bool.eq_false_iff] at hne ⊢
  simp_all [slashed]

theorem endsInSlash_slashed (text : String) (n : Nat) :
    (slashed text (n + 1)).endsInSlash = true := by
  rw [endsInSlash, slashed, String.toList_append, String.toList_ofList, List.replicate_succ',
    ← List.append_assoc, List.getLast?_concat]
  rfl

theorem steps_slashed (text : String) (n : Nat) : (slashed text n).steps = (Path.mk text).steps := by
  cases n with
  | zero => simp [slashed, steps]
  | succ n =>
    have hslashes := filter_pieces_slashes n []
    rw [List.append_nil] at hslashes
    rw [steps, slashed, String.toList_append, String.toList_ofList, List.replicate_succ,
      pieces_append_slash, List.filter_append, hslashes]
    simp [steps, pieces]

/-- They change nothing about the key. -/
theorem components_slashed {text : String} (hne : text.isEmpty = false) (n : Nat) :
    (slashed text n).components = (Path.mk text).components := by
  have habsolute : (slashed text n).isAbsolute = (Path.mk text).isAbsolute := by
    have hchars : text.toList ≠ [] := by simpa using hne
    rw [isAbsolute, isAbsolute, slashed, String.toList_append,
      List.head?_append_of_ne_nil _ hchars]
  unfold components
  simp only [steps_slashed, habsolute]

variable (directory : Path) {name : String}

theorem isAbsolute_of_no_slash (h : '/' ∉ name.toList) : (Path.mk name).isAbsolute = false := by
  unfold isAbsolute
  cases hname : name.toList with
  | nil => rfl
  | cons c rest =>
    rw [hname, List.mem_cons, not_or] at h
    simpa using Ne.symm h.1

/-- A relative name stands at the end of the path, alone or behind a slash. -/
theorem toList_join_of_relative (h : (Path.mk name).isAbsolute = false) :
    (directory.join name).text.toList = name.toList ∨
    ∃ front, (directory.join name).text.toList = front ++ '/' :: name.toList := by
  unfold join
  simp only [h, Bool.false_eq_true, if_false]
  by_cases hempty : directory.text.isEmpty = true
  · left
    simp [String.isEmpty_iff.mp hempty]
  · right
    by_cases hslash : directory.endsInSlash = true
    · obtain ⟨front, hfront⟩ := List.getLast?_eq_some_iff.mp (by simpa [endsInSlash] using hslash)
      exact ⟨front, by simp [hslash, hfront]⟩
    · exact ⟨directory.text.toList, by simp [hempty, hslash]⟩

theorem toList_join (h : '/' ∉ name.toList) :
    (directory.join name).text.toList = name.toList ∨
    ∃ front, (directory.join name).text.toList = front ++ '/' :: name.toList :=
  toList_join_of_relative directory (isAbsolute_of_no_slash h)

theorem getLast_steps_of_toList {p : Path} {last : List Char} (hslash : '/' ∉ last)
    (hne : last ≠ []) (h : p.text.toList = last ∨ ∃ front, p.text.toList = front ++ '/' :: last) :
    p.steps.getLast? = some (String.ofList last) := by
  have hpiece : last.isEmpty = false := by simpa using hne
  unfold steps
  rcases h with heq | ⟨front, heq⟩
  · simp [heq, pieces_of_no_slash hslash, hpiece]
  · simp [heq, pieces_append_slash, pieces_of_no_slash hslash, hpiece]

theorem steps_join (h : '/' ∉ name.toList) (hne : name ≠ "") :
    (directory.join name).steps = directory.steps ++ [name] := by
  have hpiece : name.toList.isEmpty = false := by simpa using hne
  unfold join
  simp only [isAbsolute_of_no_slash h, Bool.false_eq_true, if_false]
  by_cases hempty : directory.text.isEmpty = true
  · simp [steps, String.isEmpty_iff.mp hempty, pieces_of_no_slash h, hne, pieces]
  · by_cases hslash : directory.endsInSlash = true
    · obtain ⟨front, hfront⟩ := List.getLast?_eq_some_iff.mp (by simpa [endsInSlash] using hslash)
      simp [steps, hslash, hfront, pieces_append_slash, pieces_of_no_slash h, hne, pieces]
    · simp [steps, hempty, hslash, pieces_append_slash, pieces_of_no_slash h, hne]

theorem getLast_steps_join (h : '/' ∉ name.toList) (hne : name ≠ "") :
    (directory.join name).steps.getLast? = some name := by
  rw [steps_join directory h hne, List.getLast?_concat]

theorem isAbsolute_join (h : '/' ∉ name.toList) :
    (directory.join name).isAbsolute = directory.isAbsolute := by
  have hname := isAbsolute_of_no_slash h
  unfold join
  simp only [hname, Bool.false_eq_true, if_false]
  by_cases hempty : directory.text.isEmpty = true
  · have hdirectory : directory.isAbsolute = false := by
      simp [isAbsolute, String.isEmpty_iff.mp hempty]
    rw [hdirectory, if_pos (by simp [hempty]), String.isEmpty_iff.mp hempty, String.empty_append]
    exact hname
  · have hne : directory.text.toList ≠ [] := by simpa using hempty
    split <;> simp [isAbsolute, List.head?_append_of_ne_nil _ hne]

/-- A name comes last in a key. -/
theorem components_join (h : '/' ∉ name.toList) (hne : name ≠ "") (hdot : name ≠ ".")
    (hup : name ≠ "..") :
    (directory.join name).components = directory.components ++ [.name name] := by
  have hsteps := steps_join directory h hne
  have hlast : Component.ofStep? name = some (.name name) := by simp [Component.ofStep?, hdot, hup]
  have hnamed : (directory.steps ++ [name]).filterMap Component.ofStep?
      = directory.steps.filterMap Component.ofStep? ++ [.name name] := by
    simp [hlast]
  have hhead : (directory.steps ++ [name]).head? = some "." ↔ directory.steps.head? = some "." := by
    cases directory.steps <;> simp [hdot]
  unfold components
  simp only [hsteps, isAbsolute_join directory h, hnamed, hhead]
  split
  · rfl
  · split <;> rfl

/-- Directories of one key give paths of one key. -/
theorem sameKey_join {directory elsewhere : Path} (hkey : elsewhere.sameKey directory = true)
    (h : '/' ∉ name.toList) (hne : name ≠ "") (hdot : name ≠ ".") (hup : name ≠ "..") :
    (elsewhere.join name).sameKey (directory.join name) = true := by
  have heq : elsewhere.components = directory.components := by simpa [sameKey] using hkey
  simp [sameKey, components_join _ h hne hdot hup, heq]

theorem endsInSlash_join (h : '/' ∉ name.toList) (hne : name ≠ "") :
    (directory.join name).endsInSlash = false := by
  have hlast : ∃ c, name.toList.getLast? = some c ∧ c ≠ '/' := by
    cases hc : name.toList.getLast? with
    | none => exact absurd (by simpa using hc) hne
    | some c => exact ⟨c, rfl, fun heq => h (heq ▸ List.mem_of_getLast? hc)⟩
  obtain ⟨c, hc, hslash⟩ := hlast
  unfold endsInSlash
  rcases toList_join directory h with heq | ⟨front, heq⟩
  · rw [heq, hc]
    simpa using hslash
  · rw [heq, List.getLast?_append, List.getLast?_cons, hc]
    simpa using hslash

/-- The file name is the last named step, whatever the path begins with. -/
theorem fileName_eq_some_iff {p : Path} :
    p.fileName = some name ↔ p.named.getLast? = some (.name name) := by
  have hlast : p.fileName = some name ↔ p.components.getLast? = some (.name name) := by
    unfold fileName
    split
    · next text heq => simp [heq]
    · next hnot => simpa using hnot name
  rw [hlast]
  rcases p.components_cases with ⟨-, heq⟩ | ⟨-, heq | heq⟩
  · rw [heq, List.getLast?_cons]
    cases p.named.getLast? <;> simp
  · rw [heq, List.getLast?_cons]
    cases p.named.getLast? <;> simp
  · rw [heq]

/-- Joining a name that names a file gives a path that names this file, slashes and all. -/
theorem fileName_join {file : String} (h : (Path.mk name).fileName = some file) :
    (directory.join name).fileName = some file := by
  cases habs : (Path.mk name).isAbsolute with
  | true => rwa [join, if_pos habs]
  | false =>
    rw [fileName_eq_some_iff] at h ⊢
    unfold named steps at h ⊢
    rcases toList_join_of_relative directory habs with heq | ⟨front, heq⟩
    · rwa [heq]
    · rw [heq, pieces_append_slash, List.filter_append, List.map_append, List.filterMap_append,
        List.getLast?_append, h]
      rfl

theorem fileName_of_last {p : Path} (h : p.steps.getLast? = some name) (hdot : name ≠ ".")
    (hup : name ≠ "..") : p.fileName = some name := by
  obtain ⟨init, hinit⟩ := List.getLast?_eq_some_iff.mp h
  have hnamed : p.named = init.filterMap Component.ofStep? ++ [.name name] := by
    simp [named, hinit, Component.ofStep?, hdot, hup]
  have hlast : p.components.getLast? = some (.name name) := by
    rcases p.components_cases with ⟨-, heq⟩ | ⟨-, heq | heq⟩ <;>
      simp [heq, hnamed, List.getLast?_cons]
  rw [fileName, hlast]

/-! ## Appending to a path -/

theorem exists_last_piece (cs : List Char) : ∃ last, '/' ∉ last ∧
    (cs = last ∨ ∃ front, cs = front ++ '/' :: last) := by
  by_cases hmem : '/' ∈ cs
  · obtain ⟨back, front, hsplit, hback⟩ := List.eq_append_cons_of_mem (List.mem_reverse.mpr hmem)
    refine ⟨back.reverse, by simpa using hback, Or.inr ⟨front.reverse, ?_⟩⟩
    rw [← List.reverse_reverse cs, hsplit]
    simp
  · exact ⟨cs, hmem, Or.inl rfl⟩

/-- Text after a path makes the last step longer. -/
theorem steps_appendText {p : Path} {suffix : String} (hlast : p.steps.getLast? = some name)
    (hend : p.endsInSlash = false) (hsuffix : '/' ∉ suffix.toList) :
    ∃ init, p.steps = init ++ [name] ∧ (p.appendText suffix).steps = init ++ [name ++ suffix] := by
  obtain ⟨last, hslash, htext⟩ := exists_last_piece p.text.toList
  have hne : last ≠ [] := by
    rintro rfl
    rcases htext with heq | ⟨front, heq⟩
    · simp [steps, heq, pieces] at hlast
    · simp [endsInSlash, heq] at hend
  have hname : String.ofList last = name := by
    rw [getLast_steps_of_toList hslash hne htext, Option.some.injEq] at hlast
    exact hlast
  have happended : (p.appendText suffix).text.toList = p.text.toList ++ suffix.toList :=
    String.toList_append
  have hslash' : '/' ∉ last ++ suffix.toList := by simp [hslash, hsuffix]
  have hlonger : String.ofList (last ++ suffix.toList) = name ++ suffix := by
    rw [String.ofList_append, String.ofList_toList, hname]
  unfold steps
  rw [happended]
  rcases htext with heq | ⟨front, heq⟩
  · refine ⟨[], ?_, ?_⟩
    · simp [heq, pieces_of_no_slash hslash, hne, hname]
    · rw [heq, pieces_of_no_slash hslash']
      simp [hne, ← hlonger]
  · refine ⟨((pieces front).filter fun piece => !piece.isEmpty).map String.ofList, ?_, ?_⟩
    · simp [heq, pieces_append_slash, pieces_of_no_slash hslash, hne, hname]
    · rw [heq, List.append_assoc, List.cons_append, pieces_append_slash, pieces_of_no_slash hslash']
      simp [hne, ← hlonger]

theorem isAbsolute_appendText {p : Path} (hne : p.text.isEmpty = false) (suffix : String) :
    (p.appendText suffix).isAbsolute = p.isAbsolute := by
  have hne' : p.text.toList ≠ [] := by simpa using hne
  have happended : (p.appendText suffix).text.toList = p.text.toList ++ suffix.toList :=
    String.toList_append
  rw [isAbsolute, isAbsolute, happended, List.head?_append_of_ne_nil _ hne']

end Path

/-- Text after a file name makes it the name of another file in the same directory. -/
theorem FileTree.Places.appendText {t : FileTree} {p : Path} {suffix : String}
    {loc loc' : Location} (h : t.Places p loc) (h' : t.Places (p.appendText suffix) loc')
    (hsuffix : '/' ∉ suffix.toList) :
    ∃ parent name, loc = parent ++ [name] ∧ loc' = parent ++ [name ++ suffix] := by
  obtain ⟨parent, name, hlast, -, -, -, hwalk, rfl⟩ := h.last
  obtain ⟨parent', name', hlast', -, -, -, hwalk', rfl⟩ := h'.last
  obtain ⟨init, hsteps, hsteps'⟩ := Path.steps_appendText hlast h.noSlash hsuffix
  rw [hsteps', List.getLast?_concat, Option.some.injEq] at hlast'
  rw [hsteps, List.dropLast_concat] at hwalk
  rw [hsteps', List.dropLast_concat, origin,
    Path.isAbsolute_appendText h.addressable.nonempty] at hwalk'
  obtain rfl : parent = parent' := Except.ok.inj (hwalk.symm.trans hwalk')
  exact ⟨parent, name, rfl, by rw [hlast']⟩

theorem FileTree.Places.ne_of_appendText {t : FileTree} {p : Path} {suffix : String}
    {loc loc' : Location} (h : t.Places p loc) (h' : t.Places (p.appendText suffix) loc')
    (hne : suffix ≠ "") (hsuffix : '/' ∉ suffix.toList) : loc' ≠ loc := by
  obtain ⟨parent, name, rfl, rfl⟩ := h.appendText h' hsuffix
  intro heq
  have hname : name ++ suffix = name := List.singleton_inj.mp (List.append_inj_right' heq rfl)
  have hlength := congrArg String.length hname
  rw [String.length_append] at hlength
  exact hne (String.length_eq_zero_iff.mp (by omega))

end Sidecar
