import Sidecar.Proofs.Files.Changes

/-!
# Renaming a file

A rename onto a file takes everything that is at or below the one location to the other, and leaves
the rest (`node?_move`). For two files this is what one would expect: the content of the one is at the
place of the other (`node?_move_self`), nothing is at its own (`node?_moved`), and other paths lead
where they did (`Places.move`).

*Below* is there because a tree is a list, and nothing in its type says that there is nothing below a
file. A rename would take that along, so a path that begins below a file may lose its way.
-/

set_option autoImplicit false

namespace Sidecar

namespace FileTree

variable {t t' : FileTree} {p q : Path} {source target loc other next : Location} {content : Bytes}

/-! ## Renaming a file -/

theorem find?_move (hother : ¬ target <+: other) (hsource : ¬ source <+: other)
    (nodes : List (Location × Node)) :
    (nodes.map fun entry =>
      if source.isPrefixOf entry.1 then (target ++ entry.1.drop source.length, entry.2)
      else entry).find? (·.1 == other) = nodes.find? (·.1 == other) := by
  induction nodes with
  | nil => rfl
  | cons entry rest ih =>
    rw [List.map_cons, List.find?_cons, List.find?_cons, ih]
    by_cases hmoved : source.isPrefixOf entry.1 = true
    · have hnew : (target ++ entry.1.drop source.length == other) = false := by
        rw [beq_eq_false_iff_ne]
        rintro rfl
        exact hother (List.prefix_append _ _)
      have hold : (entry.1 == other) = false := by
        rw [beq_eq_false_iff_ne]
        rintro rfl
        exact hsource (List.isPrefixOf_iff_prefix.mp hmoved)
      simp only [hmoved, if_true, hnew, hold]
    · simp only [hmoved, Bool.false_eq_true, if_false]

theorem find?_moved (hother : ¬ target <+: other) (hsource : source <+: other)
    (nodes : List (Location × Node)) :
    (nodes.map fun entry =>
      if source.isPrefixOf entry.1 then (target ++ entry.1.drop source.length, entry.2)
      else entry).find? (·.1 == other) = none := by
  rw [List.find?_eq_none]
  intro entry hentry
  obtain ⟨before, -, rfl⟩ := List.mem_map.mp hentry
  rw [beq_iff_eq]
  split
  · rintro rfl
    exact hother (List.prefix_append _ _)
  · next hstays =>
    rintro rfl
    exact hstays (List.isPrefixOf_iff_prefix.mpr hsource)

theorem node?_move (hother : ¬ target <+: other) (hsource : ¬ source <+: other) :
    (t.move source target).node? other = t.node? other := by
  have hne : other ≠ target := fun heq => hother (heq ▸ List.prefix_refl _)
  unfold node?
  by_cases hroot : other = []
  · rw [if_pos hroot, if_pos hroot]
  · rw [if_neg hroot, if_neg hroot, move, find?_move hother hsource, find?_erase t hne]

theorem node?_moved (hroot : source ≠ []) (hother : ¬ target <+: other) (hsource : source <+: other) :
    (t.move source target).node? other = none := by
  have hne : other ≠ [] := by
    rintro rfl
    exact hroot (List.prefix_nil.mp hsource)
  rw [node?, if_neg hne, move, find?_moved hother hsource]
  rfl

theorem node_of_lookUp {spot : Spot} {node : Option Node} (h : t.lookUp spot = .ok node) :
    node = t.node? spot.location := by
  unfold lookUp at h
  rcases hname : spot.name with _ | name
  · simpa [hname, bind, Except.bind, pure, Except.pure, eq_comm] using h
  · cases hcheck : checkName name with
    | error e => simp [hname, hcheck, bind, Except.bind] at h
    | ok _ => simpa [hname, hcheck, bind, Except.bind, pure, Except.pure, eq_comm] using h

/-- What a rename onto a file does. -/
theorem rename_cases (h : t.rename p q = .ok t') (hq : t.Places q loc)
    (hnode : t.node? loc = some (.file content)) :
    ∃ source, t.Places p source ∧ (source = loc ∨ t' = t.move source loc) := by
  obtain ⟨new, hnew, hloc, hslash, hname, hthere⟩ := hq.locate
  rw [hnode] at hthere
  unfold rename at h
  cases hl : t.locate p with
  | error e => simp [hl, bind, Except.bind] at h
  | ok old =>
    cases hname' : old.name.isNone with
    | true => simp [hl, hnew, hname', bind, Except.bind, throw, throwThe, MonadExceptOf.throw] at h
    | false =>
      cases hn : t.lookUp old with
      | error e => simp [hl, hnew, hname, hname', hn, bind, Except.bind] at h
      | ok found =>
        rcases found with _ | node
        · simp [hl, hnew, hname, hname', hn, bind, Except.bind, throw, throwThe,
            MonadExceptOf.throw] at h
        · simp only [hl, hnew, hname, hname', hn, hthere, hslash, bind, Except.bind, pure,
            Except.pure, throw, throwThe, MonadExceptOf.throw, Bool.or_false, Bool.false_eq_true,
            if_false] at h
          have hfile : node.isDirectory = false → old.slash = false → t.Places p old.location := by
            intro _ hopen
            exact ((places_or hl hn).resolve_left (by simp [hopen])).1
          split_ifs at h with hslash' hsame hbelow habove hdirectory
          · have hnode' := node_of_lookUp hn
            rw [hsame, hloc, hnode, Option.some.injEq] at hnode'
            subst hnode'
            refine ⟨old.location, hfile rfl ?_, Or.inl (hsame.trans hloc)⟩
            simpa [Node.isDirectory] using hslash'
          · refine ⟨old.location, hfile ?_ ?_, Or.inr (by rw [← Except.ok.inj h, hloc])⟩
            · simpa using hdirectory
            · simpa [hdirectory] using hslash'

theorem find?_move_self (nodes : List (Location × Node)) (h : ∀ entry ∈ nodes, entry.1 ≠ target) :
    (nodes.map fun entry =>
      if source.isPrefixOf entry.1 then (target ++ entry.1.drop source.length, entry.2)
      else entry).find? (·.1 == target)
      = (nodes.find? (·.1 == source)).map fun entry => (target, entry.2) := by
  induction nodes with
  | nil => rfl
  | cons entry rest ih =>
    rw [List.map_cons, List.find?_cons, List.find?_cons,
      ih fun other hother => h other (List.mem_cons_of_mem _ hother)]
    by_cases hmoved : source.isPrefixOf entry.1 = true
    · obtain ⟨below, hbelow⟩ := List.isPrefixOf_iff_prefix.mp hmoved
      have hkeys : (target ++ entry.1.drop source.length == target) = (entry.1 == source) := by
        rw [← hbelow, List.drop_left, Bool.eq_iff_iff, beq_iff_eq, beq_iff_eq,
          List.append_right_eq_self, List.append_right_eq_self]
      simp only [hmoved, if_true, hkeys]
      cases hkey : entry.1 == source with
      | true => simp [beq_iff_eq.mp hkey]
      | false => rfl
    · have hsource : (entry.1 == source) = false := by
        rw [beq_eq_false_iff_ne]
        rintro heq
        exact hmoved (List.isPrefixOf_iff_prefix.mpr (heq ▸ List.prefix_refl _))
      have htarget : (entry.1 == target) = false :=
        beq_eq_false_iff_ne.mpr (h entry List.mem_cons_self)
      simp [hmoved, hsource, htarget]

/-- What was moved is at the target. -/
theorem node?_move_self (hsource : source ≠ []) (htarget : target ≠ []) (hne : source ≠ target) :
    (t.move source target).node? target = t.node? source := by
  have hkept : ∀ entry ∈ t.nodes.filter (fun entry => entry.1 != target), entry.1 ≠ target :=
    fun entry hentry => by simpa using (List.mem_filter.mp hentry).2
  rw [node?, if_neg htarget, move, find?_move_self _ hkept, find?_erase t hne, Option.map_map, node?,
    if_neg hsource]
  rfl

/-- A file can take the place of another one in the same directory. -/
theorem rename_eq_move {content' : Bytes} (hp : t.Places p source) (hq : t.Places q loc)
    (hfile : t.node? source = some (.file content)) (hthere : t.node? loc = some (.file content'))
    (hlength : source.length = loc.length) (hne : source ≠ loc) :
    t.rename p q = .ok (t.move source loc) := by
  obtain ⟨old, hold, rfl, hslash, hname, hfound⟩ := hp.locate
  obtain ⟨new, hnew, rfl, hslash', hname', hfound'⟩ := hq.locate
  rw [hfile] at hfound
  rw [hthere] at hfound'
  have hbelow : old.location.isPrefixOf new.location = false := by
    rw [Bool.eq_false_iff, ne_eq, List.isPrefixOf_iff_prefix]
    exact fun h => hne (h.eq_of_length hlength)
  have habove : new.location.isPrefixOf old.location = false := by
    rw [Bool.eq_false_iff, ne_eq, List.isPrefixOf_iff_prefix]
    exact fun h => hne (h.eq_of_length hlength.symm).symm
  simp [rename, hold, hnew, hname, hname', hfound, hfound', hslash, hslash', hne, hbelow, habove,
    Node.isDirectory, bind, Except.bind, pure, Except.pure]

/-! ## The way of other paths -/

/-- The location is not at one of two others, and not below. -/
structure Apart (source target loc : Location) : Prop where
  source : ¬ source <+: loc
  target : ¬ target <+: loc

theorem Apart.step {name : String} (h : Apart source target loc) (hsource : loc ++ [name] ≠ source)
    (htarget : loc ++ [name] ≠ target) : Apart source target (loc ++ [name]) := by
  constructor
  · intro hunder
    rcases List.prefix_concat_iff.mp hunder with heq | hbelow
    · exact hsource heq.symm
    · exact h.source hbelow
  · intro hunder
    rcases List.prefix_concat_iff.mp hunder with heq | hbelow
    · exact htarget heq.symm
    · exact h.target hbelow

theorem enter_move {step : String} (hsource : t.node? source ≠ some .directory)
    (htarget : t.node? target ≠ some .directory) (hloc : Apart source target loc)
    (h : t.enter loc step = .ok next) :
    (t.move source target).enter loc step = .ok next ∧ Apart source target next := by
  unfold enter at h ⊢
  by_cases hdot : step = "."
  · obtain rfl : next = loc := by simpa [hdot, pure, Except.pure, eq_comm] using h
    exact ⟨by simp [hdot, pure, Except.pure], hloc⟩
  · by_cases hup : step = ".."
    · obtain rfl : next = loc.dropLast := by simpa [hdot, hup, pure, Except.pure, eq_comm] using h
      refine ⟨by simp [hup, pure, Except.pure], ?_, ?_⟩
      · exact fun hunder => hloc.source (hunder.trans loc.dropLast_prefix)
      · exact fun hunder => hloc.target (hunder.trans loc.dropLast_prefix)
    · cases hcheck : checkName step with
      | error e => simp [hdot, hup, hcheck, bind, Except.bind] at h
      | ok _ =>
        rcases hnode : t.node? (loc ++ [step]) with _ | _ | bytes
        · simp [hdot, hup, hcheck, hnode, bind, Except.bind] at h
        · obtain rfl : next = loc ++ [step] := by
            simpa [hdot, hup, hcheck, hnode, bind, Except.bind, pure, Except.pure, eq_comm] using h
          have hapart : Apart source target (loc ++ [step]) := hloc.step
            (fun heq => hsource (heq ▸ hnode)) (fun heq => htarget (heq ▸ hnode))
          have hnode' := (node?_move (t := t) hapart.target hapart.source).trans hnode
          exact ⟨by simp [hdot, hup, hnode', bind, Except.bind, pure, Except.pure], hapart⟩
        · simp [hdot, hup, hcheck, hnode, bind, Except.bind] at h

theorem walk_move (hsource : t.node? source ≠ some .directory)
    (htarget : t.node? target ≠ some .directory) (steps : List String)
    (hloc : Apart source target loc) (h : steps.foldlM t.enter loc = .ok next) :
    steps.foldlM (t.move source target).enter loc = .ok next := by
  -- Every step has to end apart from the two files again, so the way never passes through them.
  induction steps generalizing loc with
  | nil => exact h
  | cons step rest ih =>
    rw [List.foldlM_cons] at h ⊢
    cases hfirst : t.enter loc step with
    | error e =>
      rw [hfirst] at h
      cases h
    | ok middle =>
      rw [hfirst] at h
      obtain ⟨hmoved, hmiddle⟩ := enter_move hsource htarget hloc hfirst
      rw [hmoved]
      exact ih hmiddle h

/-- A path leads where it did, unless it begins below what is moved or replaced. -/
theorem Places.move (h : t.Places p loc) (hsource : t.node? source ≠ some .directory)
    (htarget : t.node? target ≠ some .directory) (hstart : Apart source target (t.origin p)) :
    (t.move source target).Places p loc := by
  obtain ⟨parent, name, hlast, hdot, hup, hshort, hwalk, hloc⟩ := h.last
  exact ⟨h.addressable, h.noSlash, parent, name, hlast, hdot, hup, hshort,
    walk_move hsource htarget _ hstart hwalk, hloc⟩

theorem eq_move_of_rename (h : t.rename p q = .ok t') :
    (t.destination p = t.destination q ∧ t' = t) ∨
    t' = t.move (t.destination p) (t.destination q) := by
  unfold rename at h
  cases hl : t.locate p with
  | error e => simp [hl, bind, Except.bind] at h
  | ok old =>
    cases hl' : t.locate q with
    | error e => simp [hl, hl', bind, Except.bind] at h
    | ok new =>
      cases hnames : old.name.isNone || new.name.isNone with
      | true => simp [hl, hl', hnames, bind, Except.bind, throw, throwThe, MonadExceptOf.throw] at h
      | false =>
        rw [Bool.or_eq_false_iff] at hnames
        rw [← location_eq_destination hl hnames.1, ← location_eq_destination hl' hnames.2]
        simp only [hl, hl', hnames, bind, Except.bind, pure, Except.pure, throw, throwThe,
          MonadExceptOf.throw, Bool.or_false, Bool.false_eq_true, if_false] at h
        -- What is left are the refusals, the rename of a file to itself, and three moves.
        repeat' split at h
        all_goals first
          | exact Or.inl ⟨‹_›, (Except.ok.inj h).symm⟩
          | exact Or.inr (Except.ok.inj h).symm
          | cases h

/-- A rename among free places is of no account to others. -/
theorem agreeOff_rename {free : Location → Prop}
    (hbelow : ∀ loc other, free loc → loc <+: other → free other) (hp : free (t.destination p))
    (hq : free (t.destination q)) (h : t.rename p q = .ok t') :
    AgreeOff free (fun _ => False) t t' := by
  rcases eq_move_of_rename h with ⟨-, rfl⟩ | rfl
  · exact .refl _ _ _
  · have hnodes : ∀ loc, ¬ free loc →
        (t.move (t.destination p) (t.destination q)).node? loc = t.node? loc :=
      fun loc hfree => node?_move (fun hunder => hfree (hbelow _ _ hq hunder))
        (fun hunder => hfree (hbelow _ _ hp hunder))
    exact ⟨rfl, fun loc hfree => by rw [hnodes loc hfree], fun loc hfree _ => hnodes loc hfree⟩

/-- The working directory exists, and so do those above it. -/
def Grounded (t : FileTree) : Prop :=
  ∀ loc, loc <+: t.workingDirectory → t.node? loc = some .directory

theorem Grounded.apart (h : t.Grounded) (hsource : t.node? source ≠ some .directory)
    (htarget : t.node? target ≠ some .directory) (p : Path) :
    Apart source target (t.origin p) := by
  have hroot : ([] : Location) <+: t.workingDirectory := List.nil_prefix
  have hbegin : t.origin p <+: t.workingDirectory := by
    unfold origin
    split
    · exact hroot
    · exact List.prefix_refl _
  exact ⟨fun hunder => hsource (h _ (hunder.trans hbegin)),
    fun hunder => htarget (h _ (hunder.trans hbegin))⟩

end FileTree

end Sidecar
