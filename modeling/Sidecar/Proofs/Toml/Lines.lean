import Sidecar.Proofs.Toml.Values

/-!
# Documents of plain lines

Most documents are simpler than the format allows: their lines are headers, keys with a value, and empty
ones, and all names are written without quotes (`Key.Bare`). Of such a document it can be said what it
describes without reading it.

A `Line` is read by itself, whatever follows it. So a text of lines is read line by line (`Spells.read`),
and since reading is bounded by the length of the text, and every line has a character, the bound is never
met. If no name is used twice the statements are carried out by putting one thing behind the other
(`foldlM_of_nodup`), keys into tables and tables into the document (`table_statementsOf`).
-/

set_option autoImplicit false

namespace Sidecar.Toml

open Scan

theorem skipBlanks_cons {c : Char} (hc : isBlank c = false) (rest : List Char) :
    skipBlanks (c :: rest) = c :: rest := by
  rw [skipBlanks, List.dropWhile_cons_of_neg]
  simp [hc]

/-! ## Keys -/

namespace Key

/-- The key can be written without quotes. -/
def Bare (name : String) : Prop := name ≠ "" ∧ name.toList.all isBare = true

instance : DecidablePred Bare := fun name =>
  inferInstanceAs (Decidable (name ≠ "" ∧ name.toList.all isBare = true))

variable {name : String}

theorem Bare.isBare_of_mem (h : Bare name) : ∀ c ∈ name.toList, isBare c = true :=
  List.all_eq_true.mp h.2

theorem Bare.cons (h : Bare name) : ∃ c cs, name.toList = c :: cs ∧ isBare c = true := by
  rcases hchars : name.toList with _ | ⟨c, cs⟩
  · exact absurd (by simpa using hchars) h.1
  · exact ⟨c, cs, rfl, h.isBare_of_mem c (hchars ▸ List.mem_cons_self)⟩

theorem Bare.skipBlanks (h : Bare name) (rest : List Char) :
    skipBlanks (name.toList ++ rest) = name.toList ++ rest := by
  obtain ⟨c, cs, hchars, hc⟩ := h.cons
  have hspace : c ≠ ' ' := ne_of_class hc rfl
  have htab : c ≠ '\t' := ne_of_class hc rfl
  rw [hchars, List.cons_append, skipBlanks_cons (by simp [isBlank, hspace, htab])]

/-- A key ends where the first character is that is not bare. -/
theorem Bare.read (h : Bare name) {c : Char} {rest : List Char} (hc : isBare c = false)
    (hdot : ∀ more, Scan.skipBlanks (c :: rest) ≠ '.' :: more) :
    Key.read (name.toList ++ c :: rest) = some (([], name), Scan.skipBlanks (c :: rest)) := by
  have htake : (name.toList ++ c :: rest).takeWhile isBare = name.toList := by
    rw [List.takeWhile_append_of_pos h.isBare_of_mem, List.takeWhile_cons_of_neg (by simp [hc]),
      List.append_nil]
  have hdrop : (name.toList ++ c :: rest).dropWhile isBare = c :: rest := by
    rw [List.dropWhile_append_of_pos h.isBare_of_mem, List.dropWhile_cons_of_neg (by simp [hc])]
  have hpart : part (name.toList ++ c :: rest) = some (name, c :: rest) := by
    obtain ⟨d, ds, hchars, -⟩ := h.cons
    unfold part
    rw [htake, hdrop, hchars]
    dsimp only
    rw [← hchars, String.ofList_toList]
  have hparts : parts maxParts (name.toList ++ c :: rest)
      = some ([name], Scan.skipBlanks (c :: rest)) := by
    rw [maxParts, parts, h.skipBlanks, hpart]
    simp only [Option.bind_eq_bind, Option.bind_some]
    rfl
  simp [Key.read, hparts]

end Key

/-! ## Lines -/

/-- The characters are a line with a statement or without, whatever follows it. -/
structure Line (chars : List Char) (held : Option Statement) : Prop where
  nonempty : chars ≠ []
  read : ∀ rest, Document.statement (chars ++ rest) = some (held, rest)

theorem endOfLine_newline (rest : List Char) : endOfLine ('\n' :: rest) = some rest := rfl

/-- A line that starts with a key does not end there. -/
theorem endOfLine_bare {key : String} (hkey : Key.Bare key) (rest : List Char) :
    endOfLine (key.toList ++ rest) = none := by
  obtain ⟨c, cs, hchars, hc⟩ := hkey.cons
  rw [endOfLine, hkey.skipBlanks, hchars, List.cons_append]
  split
  · next heq => exact absurd (List.cons.inj heq).1 (ne_of_class hc rfl)
  · rw [if_neg (by simp)]
    unfold newline?
    split
    · next heq => exact absurd (List.cons.inj heq).1 (ne_of_class hc rfl)
    · next heq => exact absurd (List.cons.inj heq).1 (ne_of_class hc rfl)
    · rfl

theorem line_blank : Line ['\n'] none := ⟨by simp, fun _ => rfl⟩

theorem line_header {name : String} (hname : Key.Bare name) :
    Line ('[' :: name.toList ++ [']', '\n']) (some (.header [] name)) := by
  refine ⟨by simp, fun rest => ?_⟩
  have hkey : Key.read (name.toList ++ ']' :: '\n' :: rest)
      = some (([], name), ']' :: '\n' :: rest) :=
    hname.read rfl (by simp [skipBlanks, isBlank])
  have htext : skipBlanks ('[' :: name.toList ++ [']', '\n'] ++ rest)
      = '[' :: (name.toList ++ ']' :: '\n' :: rest) := by
    simp [skipBlanks, isBlank]
  obtain ⟨c, cs, hchars, hc⟩ := hname.cons
  rw [Document.statement, htext]
  split
  · next heq =>
    rw [hchars] at heq
    exact absurd (List.cons.inj (List.cons.inj heq).2).1 (ne_of_class hc rfl)
  · next heq =>
    obtain ⟨-, rfl⟩ := List.cons.inj heq
    simp [hkey, expect, endOfLine_newline]
  · next hother => exact absurd rfl (hother _)

theorem line_assign {key : String} {value : List Char} {item : Item} (hkey : Key.Bare key)
    (hvalue : Reads value item) :
    Line (key.toList ++ [' ', '=', ' '] ++ value ++ ['\n']) (some (.assign [] key item)) := by
  refine ⟨by simp, fun rest => ?_⟩
  have htext : key.toList ++ [' ', '=', ' '] ++ value ++ ['\n'] ++ rest
      = key.toList ++ ' ' :: '=' :: ' ' :: (value ++ '\n' :: rest) := by
    simp
  have hread : Key.read (key.toList ++ ' ' :: '=' :: ' ' :: (value ++ '\n' :: rest))
      = some (([], key), '=' :: ' ' :: (value ++ '\n' :: rest)) :=
    hkey.read rfl (by simp [skipBlanks, isBlank])
  have hgap : skipBlanks (' ' :: (value ++ '\n' :: rest)) = value ++ '\n' :: rest := by
    obtain ⟨c, cs, hchars, hc⟩ := hvalue.head
    have hspace : ∀ text, skipBlanks (' ' :: text) = skipBlanks text := fun _ => rfl
    rw [hspace, hchars, List.cons_append, skipBlanks_cons hc]
  have hkeyed : Value.keyed (Value.read Value.maxDepth)
      (key.toList ++ ' ' :: '=' :: ' ' :: (value ++ '\n' :: rest))
        = some ((([], key), item), '\n' :: rest) := by
    have hend : skipBlanks ('\n' :: rest) = '\n' :: rest := rfl
    simp [Value.keyed, hread, expect, hgap, hvalue.read, hend]
  obtain ⟨c, cs, hchars, hc⟩ := hkey.cons
  rw [Document.statement, htext, hkey.skipBlanks]
  split
  · next heq =>
    rw [hchars] at heq
    exact absurd (List.cons.inj heq).1 (ne_of_class hc rfl)
  · next heq =>
    rw [hchars] at heq
    exact absurd (List.cons.inj heq).1 (ne_of_class hc rfl)
  · simp [endOfLine_bare hkey, hkeyed, endOfLine_newline]

/-- The text consists of lines, and these are the statements on them. -/
inductive Spells : List Char → List Statement → Prop where
  | nil : Spells [] []
  | line {chars : List Char} {held : Option Statement} {text : List Char}
      {statements : List Statement} (first : Line chars held) (rest : Spells text statements) :
      Spells (chars ++ text) (held.toList ++ statements)

namespace Spells

variable {text text' : List Char} {all all' : List Statement}

theorem append (h : Spells text all) (h' : Spells text' all') :
    Spells (text ++ text') (all ++ all') := by
  induction h with
  | nil => exact h'
  | line first _ ih =>
    rw [List.append_assoc, List.append_assoc]
    exact .line first ih

/-- A text of lines is read line by line. -/
theorem read (h : Spells text all) {fuel : Nat} (hfuel : text.length < fuel) :
    Document.statements fuel text = some all := by
  induction h generalizing fuel with
  | nil =>
    obtain ⟨fuel, rfl⟩ := Nat.exists_eq_succ_of_ne_zero (Nat.ne_zero_of_lt hfuel)
    rfl
  | @line chars held text statements first rest ih =>
    obtain ⟨fuel, rfl⟩ := Nat.exists_eq_succ_of_ne_zero (Nat.ne_zero_of_lt hfuel)
    have hlength := List.length_pos_iff.mpr first.nonempty
    rw [List.length_append] at hfuel
    have hrest : Document.statements fuel text = some statements := ih (by omega)
    have hne : (chars ++ text).isEmpty = false := by
      simp [first.nonempty]
    rw [Document.statements, hne, first.read]
    simp [hrest]

/-- No line starts with a byte order mark. -/
theorem head_ne_mark (h : Spells text all) : text.head? ≠ some '\ufeff' := by
  cases h with
  | nil => nofun
  | @line chars held text statements first rest =>
    rcases hchars : chars with _ | ⟨c, cs⟩
    · exact absurd hchars first.nonempty
    · -- Nothing starts with the mark, not even an empty line.
      intro hhead
      obtain rfl : c = '\ufeff' := by simpa using hhead
      have hread := first.read []
      have hnone : Document.statement ('\ufeff' :: (cs ++ [])) = none := rfl
      rw [hchars, List.cons_append, hnone] at hread
      cases hread

end Spells

/-! ## Tables -/

/-- The statements of a section: its header, and its keys. -/
def statementsOf (part : String × List (String × Item)) : List Statement :=
  .header [] part.1 :: part.2.map fun setting => .assign [] setting.1 setting.2

theorem sections_append_assigns (settings : List (String × Item)) (rest : List Statement) :
    Document.sections
        (settings.map (fun setting => Statement.assign [] setting.1 setting.2) ++ rest)
      = (settings.map (fun setting => ([], setting.1, setting.2)) ++ (Document.sections rest).1,
        (Document.sections rest).2) := by
  induction settings with
  | nil => rfl
  | cons setting settings ih =>
    rw [List.map_cons, List.cons_append, Document.sections, ih]
    rfl

theorem sections_statementsOf (parts : List (String × List (String × Item))) :
    Document.sections (parts.flatMap statementsOf) = ([], parts.map fun part =>
      ⟨false, [], part.1, part.2.map fun setting => ([], setting.1, setting.2)⟩) := by
  induction parts with
  | nil => rfl
  | cons part rest ih =>
    rw [List.flatMap_cons, statementsOf, List.cons_append, Document.sections,
      sections_append_assigns, ih]
    simp

theorem lookup_eq_none {entries : Entries} {key : String} (h : key ∉ entries.map Prod.fst) :
    entries.lookup key = none := by
  rw [List.lookup_eq_none_iff]
  intro entry hentry
  have hne : key ≠ entry.1 := fun heq => h (heq ▸ List.mem_map_of_mem hentry)
  simpa using hne

/-- Steps that put new keys behind those that are there, one after the other. -/
theorem foldlM_of_nodup {α : Type} {step : Entries → α → Option Entries} {key : α → String}
    {item : α → Item} {xs : List α} {entries : Entries}
    (hstep : ∀ x ∈ xs, ∀ entries : Entries, key x ∉ entries.map Prod.fst →
      step entries x = some (entries ++ [(key x, item x)]))
    (h : (entries.map Prod.fst ++ xs.map key).Nodup) :
    xs.foldlM step entries = some (entries ++ xs.map fun x => (key x, item x)) := by
  induction xs generalizing entries with
  | nil => simp
  | cons x rest ih =>
    have hnew : key x ∉ entries.map Prod.fst :=
      fun hmem => (List.nodup_append.mp h).2.2 _ hmem _ List.mem_cons_self rfl
    have hrest : rest.foldlM step (entries ++ [(key x, item x)])
        = some (entries ++ [(key x, item x)] ++ rest.map fun x => (key x, item x)) :=
      ih (fun y hy => hstep y (List.mem_cons_of_mem x hy)) (by simpa using h)
    rw [List.foldlM_cons, hstep x List.mem_cons_self entries hnew]
    simpa using hrest

theorem fill_of_nodup {settings : List (String × Item)} (h : (settings.map Prod.fst).Nodup) :
    Document.fill (settings.map fun setting => ([], setting.1, setting.2)) [] = some settings := by
  have hfold : settings.foldlM
      (fun (entries : Entries) setting => entries.insertNew setting.1 setting.2) []
        = some ([] ++ settings.map fun setting => (setting.1, setting.2)) :=
    foldlM_of_nodup (fun _ _ _ hnew => by simp [Entries.insertNew, lookup_eq_none hnew])
      (by simpa using h)
  simpa [Document.fill, List.foldlM_map, Entries.assign] using hfold

theorem carryOut_of_new {entries : Entries} {part : String × List (String × Item)}
    (hnew : part.1 ∉ entries.map Prod.fst) (hkeys : (part.2.map Prod.fst).Nodup) :
    Document.carryOut entries
        ⟨false, [], part.1, part.2.map fun setting => ([], setting.1, setting.2)⟩
      = some (entries ++ [(part.1, .table .header part.2)]) := by
  simp [Document.carryOut, Entries.within, Entries.openHeader, Entries.get?, Entries.set,
    lookup_eq_none hnew, fill_of_nodup hkeys]

/-- Sections with different names make a document of as many tables. -/
theorem table_statementsOf {parts : List (String × List (String × Item))}
    (hnames : (parts.map Prod.fst).Nodup) (hkeys : ∀ part ∈ parts, (part.2.map Prod.fst).Nodup) :
    Document.table (parts.flatMap statementsOf)
      = some (parts.map fun part => (part.1, .table .header part.2)) := by
  have hfold : parts.foldlM (fun entries part => Document.carryOut entries
      ⟨false, [], part.1, part.2.map fun setting => ([], setting.1, setting.2)⟩) []
        = some ([] ++ parts.map fun part => (part.1, Item.table .header part.2)) :=
    foldlM_of_nodup (fun part hpart _ hnew => carryOut_of_new hnew (hkeys part hpart))
      (by simpa using hnames)
  rw [Document.table, sections_statementsOf]
  simpa [Document.fill, List.foldlM_map] using hfold

/-- A document of lines is the table of their statements. -/
theorem Spells.read_document {text : String} {all : List Statement} (h : Spells text.toList all) :
    Document.read text = Document.table all := by
  have hread := h.read (Nat.lt_add_one text.toList.length)
  have hmark := h.head_ne_mark
  unfold Document.read
  split
  · next heq =>
    rw [heq] at hmark
    exact absurd rfl hmark
  · dsimp only
    rw [hread]
    rfl

end Sidecar.Toml
