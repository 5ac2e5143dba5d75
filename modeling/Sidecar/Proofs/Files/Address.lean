import Sidecar.FileTree
import Mathlib.Data.List.Basic

/-!
# Where a path leads

What the operations on files make of an address is always the same place, and `FileTree.Places` says
which: a path places a file at a location if it can be handed to the system, does not ask for a
directory, and its steps up to the last go through directories. Reading, writing and removing are
characterised by it (`stat_eq_file_iff`, `write_eq_ok_iff`, `remove_eq_ok_iff`), and nobody walks an
address again.
-/

set_option autoImplicit false

namespace Sidecar

namespace FileTree

/-! ## Walking -/

variable {t : FileTree} {p q : Path} {loc : Location} {content : Bytes}

def origin (t : FileTree) (p : Path) : Location := if p.isAbsolute then [] else t.workingDirectory

/-- What the system takes for an address at all. -/
structure Addressable (p : Path) : Prop where
  nul : '\x00' ∉ p.text.toList
  nonempty : p.text.isEmpty = false
  short : p.text.utf8ByteSize < 4096

def spotOf (p : Path) (start parent : Location) : Spot :=
  match p.steps.getLast? with
  | none => ⟨start, none, start, true⟩
  | some "." => ⟨parent, none, parent, true⟩
  | some ".." => ⟨parent, none, parent.dropLast, true⟩
  | some name => ⟨parent, some name, parent ++ [name], p.endsInSlash⟩

theorem addressable_of_locate {spot : Spot} (h : t.locate p = .ok spot) : Addressable p := by
  unfold locate at h
  by_cases hnul : '\x00' ∈ p.text.toList
  · simp [hnul, bind, Except.bind, throw, throwThe, MonadExceptOf.throw] at h
  · by_cases hempty : p.text.isEmpty = true
    · simp [hnul, hempty, bind, Except.bind, throw, throwThe, MonadExceptOf.throw] at h
    · by_cases hlong : 4096 ≤ p.text.utf8ByteSize
      · simp [hnul, hempty, hlong, bind, Except.bind, throw, throwThe, MonadExceptOf.throw] at h
      · exact ⟨hnul, by simpa using hempty, by omega⟩

/-- A path that is too long leads nowhere, and not to nothing either. -/
theorem stat_of_long (hnul : '\x00' ∉ p.text.toList) (hnonempty : p.text.isEmpty = false)
    (hlong : 4096 ≤ p.text.utf8ByteSize) : t.stat p = .error .nameTooLong := by
  unfold stat locate
  simp [hnul, hnonempty, hlong, bind, Except.bind, throw, throwThe, MonadExceptOf.throw]

theorem locate_eq (h : Addressable p) :
    t.locate p = (p.steps.dropLast.foldlM t.enter (t.origin p)).map (spotOf p (t.origin p)) := by
  have hshort : ¬ 4096 ≤ p.text.utf8ByteSize := Nat.not_le.mpr h.short
  unfold locate origin
  cases hwalk : p.steps.dropLast.foldlM t.enter
      (if p.isAbsolute then [] else t.workingDirectory) with
  | error e => simp [h.nul, h.nonempty, hshort, hwalk, bind, Except.bind, Except.map]
  | ok parent =>
    simp only [List.contains_iff_mem, h.nul, h.nonempty, hshort, hwalk, bind, Except.bind, spotOf,
      Except.map, if_false, Bool.false_eq_true]
    split <;> simp [*, pure, Except.pure]

/-- The path places a file at the location. -/
structure Places (t : FileTree) (p : Path) (loc : Location) : Prop where
  addressable : Addressable p
  noSlash : p.endsInSlash = false
  last : ∃ parent name, p.steps.getLast? = some name ∧ name ≠ "." ∧ name ≠ ".." ∧
    name.utf8ByteSize ≤ 255 ∧ p.steps.dropLast.foldlM t.enter (t.origin p) = .ok parent ∧
    loc = parent ++ [name]

theorem Places.ne_nil (h : t.Places p loc) : loc ≠ [] := by
  obtain ⟨parent, name, -, -, -, -, -, rfl⟩ := h.last
  simp

theorem Places.unique {loc' : Location} (h : t.Places p loc) (h' : t.Places p loc') :
    loc = loc' := by
  obtain ⟨parent, name, hlast, -, -, -, hwalk, rfl⟩ := h.last
  obtain ⟨parent', name', hlast', -, -, -, hwalk', rfl⟩ := h'.last
  rw [hlast, Option.some.injEq] at hlast'
  rw [hwalk, Except.ok.injEq] at hwalk'
  rw [hlast', hwalk']

/-- What the operations see of a path that places a file. -/
theorem Places.locate (h : t.Places p loc) :
    ∃ spot : Spot, t.locate p = .ok spot ∧ spot.location = loc ∧ spot.slash = false ∧
      spot.name.isNone = false ∧ t.lookUp spot = .ok (t.node? loc) := by
  obtain ⟨parent, name, hlast, hdot, hup, hshort, hwalk, rfl⟩ := h.last
  have hspot : spotOf p (t.origin p) parent = ⟨parent, some name, parent ++ [name], false⟩ := by
    unfold spotOf
    rw [hlast]
    split
    · simp_all
    · simp_all
    · simp_all
    · next heq =>
      rw [Option.some.injEq] at heq
      rw [heq, h.noSlash]
  refine ⟨_, by rw [locate_eq h.addressable, hwalk, Except.map, hspot], rfl, rfl, rfl, ?_⟩
  have hlong : ¬ 255 < name.utf8ByteSize := Nat.not_lt.mpr hshort
  simp [lookUp, checkName, hlong, bind, Except.bind, pure, Except.pure]

/-- A path that places no file asks for a directory, or does not get as far as a look-up. -/
theorem places_or {spot : Spot} {node : Option Node} (hl : t.locate p = .ok spot)
    (hn : t.lookUp spot = .ok node) : spot.slash = true ∨
      (t.Places p spot.location ∧ node = t.node? spot.location) := by
  have haddr := addressable_of_locate hl
  rw [locate_eq haddr] at hl
  cases hwalk : p.steps.dropLast.foldlM t.enter (t.origin p) with
  | error e => simp [hwalk, Except.map] at hl
  | ok parent =>
    rw [hwalk, Except.map, Except.ok.injEq] at hl
    unfold spotOf at hl
    split at hl
    · exact Or.inl (by rw [← hl])
    · exact Or.inl (by rw [← hl])
    · exact Or.inl (by rw [← hl])
    · next name hdot hup hlast =>
      subst hl
      cases hslash : p.endsInSlash with
      | true => exact Or.inl rfl
      | false =>
        refine Or.inr ?_
        by_cases hlong : 255 < name.utf8ByteSize
        · simp [lookUp, checkName, hlong, bind, Except.bind] at hn
        · simp only [lookUp, checkName, hlong, if_false, bind, Except.bind, pure, Except.pure,
            Except.ok.injEq] at hn
          exact ⟨⟨haddr, hslash, parent, name, hlast, hdot, hup, by omega, hwalk, rfl⟩, hn.symm⟩

/-! ## Reading, writing, removing -/

theorem stat_eq_file_iff : t.stat p = .ok (.file content) ↔
    ∃ loc, t.Places p loc ∧ t.node? loc = some (.file content) := by
  constructor
  · intro h
    unfold stat at h
    cases hl : t.locate p with
    | error e => simp [hl, bind, Except.bind] at h
    | ok spot =>
      cases hn : t.lookUp spot with
      | error e => simp [hl, hn, bind, Except.bind] at h
      | ok node =>
        rcases node with _ | _ | bytes
        · simp [hl, hn, bind, Except.bind] at h
        · simp [hl, hn, bind, Except.bind, pure, Except.pure] at h
        · rcases places_or hl hn with hslash | ⟨hplaces, hnode⟩
          · simp [hl, hn, hslash, bind, Except.bind] at h
          · cases hslash : spot.slash with
            | true => simp [hl, hn, hslash, bind, Except.bind] at h
            | false =>
              simp only [hl, hn, hslash, bind, Except.bind, pure, Except.pure, Bool.false_eq_true,
                if_false, Except.ok.injEq, Node.file.injEq] at h
              exact ⟨_, hplaces, by rw [← hnode, h]⟩
  · rintro ⟨loc, hplaces, hnode⟩
    obtain ⟨spot, hl, -, hslash, -, hn⟩ := hplaces.locate
    rw [hnode] at hn
    simp [stat, hl, hn, hslash, bind, Except.bind, pure, Except.pure]

theorem write_eq_ok_iff {t' : FileTree} : t.write p content = .ok t' ↔
    ∃ loc, t.Places p loc ∧ t.node? loc ≠ some .directory ∧ t' = t.put loc (.file content) := by
  constructor
  · intro h
    unfold write at h
    cases hl : t.locate p with
    | error e => simp [hl, bind, Except.bind] at h
    | ok spot =>
      cases hslash : spot.slash with
      | true => simp [hl, hslash, bind, Except.bind, throw, throwThe, MonadExceptOf.throw] at h
      | false =>
        cases hn : t.lookUp spot with
        | error e => simp [hl, hslash, hn, bind, Except.bind] at h
        | ok node =>
          obtain ⟨hplaces, hnode⟩ := (places_or hl hn).resolve_left (by simp [hslash])
          by_cases hdir : node = some .directory
          · simp [hl, hslash, hn, hdir, bind, Except.bind] at h
          · refine ⟨spot.location, hplaces, hnode ▸ hdir, ?_⟩
            rcases node with _ | _ | bytes
            · simpa [hl, hslash, hn, bind, Except.bind, pure, Except.pure, eq_comm] using h
            · exact absurd rfl hdir
            · simpa [hl, hslash, hn, bind, Except.bind, pure, Except.pure, eq_comm] using h
  · rintro ⟨loc, hplaces, hnode, rfl⟩
    obtain ⟨spot, hl, hloc, hslash, -, hn⟩ := hplaces.locate
    rcases hcase : t.node? loc with _ | _ | bytes
    · simp [write, hl, hslash, hn, hcase, hloc, bind, Except.bind, pure, Except.pure]
    · exact absurd hcase hnode
    · simp [write, hl, hslash, hn, hcase, hloc, bind, Except.bind, pure, Except.pure]

theorem remove_eq_ok_iff {t' : FileTree} : t.remove p = .ok t' ↔
    ∃ loc, t.Places p loc ∧ (∃ content, t.node? loc = some (.file content)) ∧ t' = t.erase loc := by
  constructor
  · intro h
    unfold remove at h
    cases hl : t.locate p with
    | error e => simp [hl, bind, Except.bind] at h
    | ok spot =>
      cases hname : spot.name.isNone with
      | true =>
        simp only [hl, hname, bind, Except.bind, throw, throwThe, MonadExceptOf.throw, if_true] at h
        cases h
      | false =>
        cases hn : t.lookUp spot with
        | error e => simp [hl, hname, hn, bind, Except.bind] at h
        | ok node =>
          rcases node with _ | _ | bytes
          · simp [hl, hname, hn, bind, Except.bind] at h
          · simp [hl, hname, hn, bind, Except.bind] at h
          · cases hslash : spot.slash with
            | true => simp [hl, hname, hn, hslash, bind, Except.bind] at h
            | false =>
              obtain ⟨hplaces, hnode⟩ := (places_or hl hn).resolve_left (by simp [hslash])
              refine ⟨spot.location, hplaces, ⟨bytes, hnode.symm⟩, ?_⟩
              simpa [hl, hname, hn, hslash, bind, Except.bind, pure, Except.pure, eq_comm] using h
  · rintro ⟨loc, hplaces, ⟨bytes, hnode⟩, rfl⟩
    obtain ⟨spot, hl, hloc, hslash, hname, hn⟩ := hplaces.locate
    rw [hnode] at hn
    simp [remove, hl, hname, hn, hslash, hloc, bind, Except.bind, pure, Except.pure]

theorem read_eq_ok_iff : t.read p = .ok content ↔
    ∃ loc, t.Places p loc ∧ t.node? loc = some (.file content) := by
  rw [← stat_eq_file_iff]
  unfold read
  cases t.stat p with
  | error e => simp [bind, Except.bind]
  | ok node =>
    cases node <;> simp [bind, Except.bind, pure, Except.pure, throw, throwThe, MonadExceptOf.throw]

theorem map_eq_ok_iff : t.map p = .ok content ↔ t.stat p = .ok (.file content) := by
  unfold map
  cases t.stat p with
  | error e => simp [bind, Except.bind]
  | ok node => cases node <;> simp [bind, Except.bind, pure, Except.pure]

end FileTree

end Sidecar
