import Sidecar.Config.File
import Sidecar.Proofs.Files.Changes
import Sidecar.Proofs.Toml.Lines

/-!
# A configuration and its file

A configuration that is written is read back as it was, in every format that is faithful to its documents
(`readFile_of_writeFile`): `Format.Faithful` says that groups of plain settings come back as tables of the
same items, and that a number of more than 63 bits cannot be printed. Nothing else is asked of a format.
What there is to show about configurations is that

* their names are plain and never given twice (`plain_written`), so nothing is refused and nothing is put
  in place of something else;
* every setting is looked up under the name under which it is written (`ofDocument_written`), so a default
  can come in only for one that is not written, and those have no value.

The format of configuration files is faithful (`faithful_toml`). Its texts have no other shape than the one
that `groupsText?` gives them, so what there is to know about reading them is known of documents of plain
lines, and a number that is too large spoils the whole text (`groupsText_eq_none`).
-/

set_option autoImplicit false

namespace Sidecar

namespace Config

open Toml

/-! ## Settings -/

namespace Written

/-- What a written setting is read as. -/
def item : Written → Item
  | switch value => .boolean value
  | count value => .integer value
  | choice name => .text name

/-- The setting is not a number of more than 63 bits, and a name in it needs no escapes. -/
def Legible : Written → Prop
  | switch _ => True
  | count value => value < 2 ^ 63
  | choice name => name.toList.all Key.isBare = true

theorem Legible.reads {value : Written} (h : value.Legible) :
    ∃ text, value.text? = some text ∧ Reads text.toList value.item := by
  cases value with
  | switch value =>
    cases value with
    | true => exact ⟨_, rfl, reads_true⟩
    | false => exact ⟨_, rfl, reads_false⟩
  | count value => exact ⟨_, if_pos h, reads_count h⟩
  | choice name => exact ⟨_, rfl, reads_quoted (List.all_eq_true.mp h)⟩

end Written

/-- The settings of a group, as they are read. -/
def itemsOf (settings : List (String × Written)) : Entries :=
  settings.map fun setting => (setting.1, setting.2.item)

theorem map_fst_itemsOf (settings : List (String × Written)) :
    (itemsOf settings).map Prod.fst = settings.map Prod.fst := by
  simp [itemsOf]

/-- The document that groups of settings are written as. -/
def documentOf (groups : List (String × List (String × Written))) : Entries :=
  groups.map fun group => (group.1, .table .header (itemsOf group.2))

/-! ## What is expected of a format -/

/-- All names are plain, and no two groups have one name, nor two settings of one group. -/
structure Plain (groups : List (String × List (String × Written))) : Prop where
  names : ∀ group ∈ groups, Key.Bare group.1
  keys : ∀ group ∈ groups, ∀ setting ∈ group.2, Key.Bare setting.1
  apart : (groups.map Prod.fst).Nodup
  keys_apart : ∀ group ∈ groups, (group.2.map Prod.fst).Nodup

/-- The format prints what it can hold so that it reads it back, and holds integers of 64 bits with a
sign. -/
structure Format.Faithful (format : Format) : Prop where
  read_print : ∀ groups, Plain groups →
    (∀ group ∈ groups, ∀ setting ∈ group.2, setting.2.Legible) →
    ∃ text, format.print groups = .ok text ∧ format.read text = some (documentOf groups)
  refuse : ∀ groups, (∃ group ∈ groups, ∃ setting ∈ group.2, ∃ n, setting.2 = .count n ∧ 2 ^ 63 ≤ n) →
    ∃ cause, format.print groups = .error cause

/-! ## The text of a document -/

def settingText? (setting : String × Written) : Option String := do
  let value ← setting.2.text?
  return setting.1 ++ " = " ++ value ++ "\n"

theorem spells_settings {settings : List (String × Written)}
    (hkeys : ∀ setting ∈ settings, Key.Bare setting.1)
    (hvalues : ∀ setting ∈ settings, setting.2.Legible) :
    ∃ lines, settings.mapM settingText? = some lines ∧
      Spells (String.join lines).toList
        ((itemsOf settings).map fun setting => .assign [] setting.1 setting.2) := by
  induction settings with
  | nil => exact ⟨[], rfl, .nil⟩
  | cons setting rest ih =>
    obtain ⟨lines, hlines, hspells⟩ :=
      ih (fun other hother => hkeys other (List.mem_cons_of_mem setting hother))
        (fun other hother => hvalues other (List.mem_cons_of_mem setting hother))
    obtain ⟨value, hvalue, hreads⟩ := (hvalues setting List.mem_cons_self).reads
    have hline := line_assign (hkeys setting List.mem_cons_self) hreads
    refine ⟨(setting.1 ++ " = " ++ value ++ "\n") :: lines, ?_, ?_⟩
    · simp [List.mapM_cons, settingText?, hvalue, hlines]
    · rw [String.join_cons, String.toList_append]
      have hspelled := Spells.line hline hspells
      simpa [itemsOf] using hspelled

theorem groupText_eq (name : String) (settings : List (String × Written)) :
    groupText? name settings = (settings.mapM settingText?).map fun lines =>
      "[" ++ name ++ "]\n" ++ String.join lines := by
  have hsame : groupText? name settings = do
    let lines ← settings.mapM settingText?
    return "[" ++ name ++ "]\n" ++ String.join lines := rfl
  rw [hsame]
  cases settings.mapM settingText? <;> rfl

theorem groupsText_eq (groups : List (String × List (String × Written))) :
    groupsText? groups = (groups.mapM fun group => groupText? group.1 group.2).map
      "\n".intercalate := by
  have hsame : groupsText? groups = do
    let texts ← groups.mapM fun group => groupText? group.1 group.2
    return "\n".intercalate texts := rfl
  rw [hsame]
  cases groups.mapM fun group => groupText? group.1 group.2 <;> rfl

theorem spells_group {name : String} {settings : List (String × Written)} (hname : Key.Bare name)
    (hkeys : ∀ setting ∈ settings, Key.Bare setting.1)
    (hvalues : ∀ setting ∈ settings, setting.2.Legible) :
    ∃ text, groupText? name settings = some text ∧
      Spells text.toList (statementsOf (name, itemsOf settings)) := by
  obtain ⟨lines, hlines, hspells⟩ := spells_settings hkeys hvalues
  refine ⟨"[" ++ name ++ "]\n" ++ String.join lines, ?_, ?_⟩
  · rw [groupText_eq, hlines, Option.map_some]
  · have hspelled := Spells.line (line_header hname) hspells
    simpa [statementsOf] using hspelled

theorem spells_groups {groups : List (String × List (String × Written))}
    (hnames : ∀ group ∈ groups, Key.Bare group.1)
    (hkeys : ∀ group ∈ groups, ∀ setting ∈ group.2, Key.Bare setting.1)
    (hvalues : ∀ group ∈ groups, ∀ setting ∈ group.2, setting.2.Legible) :
    ∃ texts, groups.mapM (fun group => groupText? group.1 group.2) = some texts ∧
      Spells ("\n".intercalate texts).toList
        ((groups.map fun group => (group.1, itemsOf group.2)).flatMap statementsOf) := by
  induction groups with
  | nil => exact ⟨[], rfl, .nil⟩
  | cons group rest ih =>
    obtain ⟨texts, htexts, hspells⟩ :=
      ih (fun other hother => hnames other (List.mem_cons_of_mem group hother))
        (fun other hother => hkeys other (List.mem_cons_of_mem group hother))
        (fun other hother => hvalues other (List.mem_cons_of_mem group hother))
    obtain ⟨text, htext, hgroup⟩ := spells_group (hnames group List.mem_cons_self)
      (hkeys group List.mem_cons_self) (hvalues group List.mem_cons_self)
    refine ⟨text :: texts, by simp [List.mapM_cons, htext, htexts], ?_⟩
    rw [List.map_cons, List.flatMap_cons]
    rcases texts with _ | ⟨second, others⟩
    · -- There is no empty line after the last group.
      have hspelled := hgroup.append hspells
      simpa using hspelled
    · have hspelled := hgroup.append (.line line_blank hspells)
      rw [String.intercalate_cons_cons]
      simpa using hspelled

theorem mapM_eq_none {α β : Type} {f : α → Option β} {xs : List α} {x : α} (hx : x ∈ xs)
    (h : f x = none) : xs.mapM f = none := by
  induction xs with
  | nil => cases hx
  | cons y rest ih =>
    rw [List.mapM_cons]
    rcases List.mem_cons.mp hx with rfl | hx
    · rw [h]
      rfl
    · rw [ih hx]
      cases f y <;> rfl

/-- A number that the format cannot hold spoils the whole text. -/
theorem groupsText_eq_none {groups : List (String × List (String × Written))}
    (h : ∃ group ∈ groups, ∃ setting ∈ group.2, ∃ n, setting.2 = .count n ∧ 2 ^ 63 ≤ n) :
    groupsText? groups = none := by
  obtain ⟨group, hgroup, setting, hsetting, n, hvalue, hlarge⟩ := h
  have hnone : settingText? setting = none := by
    have htext : setting.2.text? = none := by
      rw [hvalue]
      exact if_neg (Nat.not_lt.mpr hlarge)
    simp [settingText?, htext]
  have hgroupText : groupText? group.1 group.2 = none := by
    rw [groupText_eq, mapM_eq_none hsetting hnone, Option.map_none]
  rw [groupsText_eq, mapM_eq_none hgroup hgroupText, Option.map_none]

/-- **What is printed is read.** -/
theorem faithful_toml : Format.toml.Faithful := by
  refine ⟨fun groups hplain hlegible => ?_, fun groups hlarge => ?_⟩
  · obtain ⟨texts, htexts, hspells⟩ := spells_groups hplain.names hplain.keys hlegible
    have htable : Document.table ((groups.map fun group =>
        (group.1, itemsOf group.2)).flatMap statementsOf) = some (documentOf groups) := by
      rw [table_statementsOf]
      · simp [documentOf]
      · simpa [Function.comp_def] using hplain.apart
      · simp only [List.forall_mem_map, map_fst_itemsOf]
        exact hplain.keys_apart
    have htext : groupsText? groups = some ("\n".intercalate texts) := by
      rw [groupsText_eq, htexts, Option.map_some]
    refine ⟨"\n".intercalate texts, by simp only [Format.toml, htext], ?_⟩
    exact hspells.read_document.trans htable
  · refine ⟨"out-of-range value for u64 type", ?_⟩
    simp only [Format.toml, groupsText_eq_none hlarge]

/-! ## Configurations -/

/-- The numbers of a configuration. -/
def numbers (config : Config) : List Nat :=
  [config.cache.maxWeightBytes, config.cache.idleTimeoutMs, config.cache.sweepIntervalMs,
    config.cache.releaseQueueDepth, config.writer.buildThreads, config.writer.buildQueueDepth,
    config.query.maxK, config.query.evictionRetries]
  ++ config.watcher.intervalMs.toList ++ config.writer.buildTimeoutMs.toList

theorem plain_written (config : Config) : Plain config.written := by
  have hbare : ∀ names ∈ config.written.map (fun group => group.1 :: group.2.map Prod.fst),
      (∀ name ∈ names, Key.Bare name) ∧ names.Nodup := by
    -- Which settings are written depends on the two that have no default.
    cases hinterval : config.watcher.intervalMs <;> cases htimeout : config.writer.buildTimeoutMs <;>
      simp only [written, hinterval, htimeout, Option.toList_none, Option.toList_some, List.map_cons,
        List.map_nil, List.cons_append, List.nil_append] <;> decide
  simp only [List.mem_map, forall_exists_index, and_imp, forall_apply_eq_imp_iff₂] at hbare
  refine ⟨?_, ?_, by simp [written], ?_⟩
  · exact fun group hgroup => (hbare group hgroup).1 _ List.mem_cons_self
  · exact fun group hgroup setting hsetting => (hbare group hgroup).1 _
      (List.mem_cons_of_mem _ (List.mem_map_of_mem hsetting))
  · exact fun group hgroup => (List.nodup_cons.mp (hbare group hgroup).2).2

theorem mem_numbers {config : Config} {n : Nat} :
    n ∈ config.numbers ↔ ∃ group ∈ config.written, ∃ setting ∈ group.2, setting.2 = .count n := by
  cases hinterval : config.watcher.intervalMs <;> cases htimeout : config.writer.buildTimeoutMs <;>
    simp [numbers, written, hinterval, htimeout] <;> grind

theorem choice_written {config : Config} {name : String}
    (h : ∃ group ∈ config.written, ∃ setting ∈ group.2, setting.2 = .choice name) :
    name = config.watcher.frequency.name := by
  cases hinterval : config.watcher.intervalMs <;> cases htimeout : config.writer.buildTimeoutMs <;>
    simp [written, hinterval, htimeout] at h <;> exact h

theorem legible_written {config : Config} (h : ∀ n ∈ config.numbers, n < 2 ^ 63) :
    ∀ group ∈ config.written, ∀ setting ∈ group.2, setting.2.Legible := by
  intro group hgroup setting hsetting
  rcases hvalue : setting.2 with value | n | name
  · trivial
  · exact h n (mem_numbers.mpr ⟨group, hgroup, setting, hsetting, hvalue⟩)
  · have hname := choice_written ⟨group, hgroup, setting, hsetting, hvalue⟩
    show name.toList.all Key.isBare = true
    rw [hname]
    cases config.watcher.frequency <;> decide

theorem ofName_name (frequency : WatchFrequency) :
    WatchFrequency.ofName? frequency.name = some frequency := by
  cases frequency <;> decide

/-- What is written is what is looked up, whatever the defaults are. -/
theorem ofDocument_written (config : Config) :
    ofDocument (documentOf config.written) = some config := by
  obtain ⟨cache, watcher, writer, query⟩ := config
  obtain ⟨enabled, frequency, interval⟩ := watcher
  obtain ⟨threads, depth, timeout⟩ := writer
  -- The two settings without a default are written only if they have a value.
  cases interval <;> cases timeout <;>
    simp [ofDocument, documentOf, groupNamed, Entries.get?, written, groupOf, cacheOf, watcherOf, writerOf,
      queryOf, setting, itemsOf, List.lookup, Written.item, switchOf, countOf, frequencyOf,
      ofName_name]

theorem ofText_print {format : Format} (hformat : format.Faithful) {config : Config}
    (h : ∀ n ∈ config.numbers, n < 2 ^ 63) :
    ∃ text, format.print config.written = .ok text ∧ ofText format text = some config := by
  obtain ⟨text, hprint, hread⟩ :=
    hformat.read_print config.written config.plain_written (legible_written h)
  exact ⟨text, hprint, by rw [ofText, hread, Option.bind_some, ofDocument_written]⟩

end Config

/-! ## Files -/

theorem toList_eq_data (bytes : ByteArray) : bytes.toList = bytes.data.toList := by
  have hsize : bytes.data.toList.length = bytes.size := rfl
  have hloop : ∀ (left i : Nat) (read : List UInt8), bytes.size - i = left →
      ByteArray.toList.loop bytes i read = read.reverse ++ bytes.data.toList.drop i := by
    intro left
    induction left with
    | zero =>
      intro i read hleft
      rw [ByteArray.toList.loop, if_neg (by omega), List.drop_eq_nil_of_le (by omega),
        List.append_nil]
    | succ left ih =>
      intro i read hleft
      have hi : i < bytes.data.toList.length := by omega
      have hget : bytes.get! i = bytes.data.toList[i] :=
        getElem!_pos bytes.data i hi
      rw [ByteArray.toList.loop, if_pos (by omega), ih _ _ (by omega),
        List.drop_eq_getElem_cons hi, hget]
      simp
  rw [ByteArray.toList, hloop _ 0 [] rfl]
  rfl

theorem fromUTF8_toUTF8 (text : String) :
    String.fromUTF8? ⟨text.toUTF8.toList.toArray⟩ = some text := by
  have hbytes : (⟨text.toUTF8.toList.toArray⟩ : ByteArray) = text.toByteArray := by
    rw [toList_eq_data]
    rfl
  rw [hbytes, String.fromUTF8?, dif_pos text.isValidUTF8]
  rfl

namespace Config

/-- What is read from a file that was written with the text of a configuration. -/
theorem readFile_of_write {format : Format} {config : Config} {files files' : FileTree} {path : Path}
    {text : String} (htext : ofText format text = some config)
    (hwrite : files.write path text.toUTF8.toList = .ok files') :
    readFile format files' path = config.validate.map fun _ => config := by
  have hread : files'.readText path = .ok text := by
    have hbytes : files'.read path = .ok text.toUTF8.toList :=
      FileTree.read_eq_ok_iff.mpr (FileTree.stat_eq_file_iff.mp (FileTree.stat_of_write hwrite))
    simp only [FileTree.readText, hbytes, fromUTF8_toUTF8, bind, Except.bind, pure, Except.pure]
  rw [readFile, hread]
  simp only [htext]
  cases config.validate <;> rfl

/-- **A configuration comes back from its file.** In a faithful format and wherever a file can be made, a
configuration whose numbers fit into 64 bits with a sign is written, and reading the file gives it back,
or the failure of its validation. With a larger number it is refused, and every file is left as it was,
the one at the path among them. -/
theorem readFile_of_writeFile {format : Format} (hformat : format.Faithful) (config : Config)
    (files : FileTree) (path : Path) :
    ((∀ n ∈ config.numbers, n ≤ 2 ^ 63 - 1) → (∃ opened, files.create path = .ok opened) →
      ∃ files', config.writeFile format files path = (.ok (), files') ∧
        readFile format files' path = config.validate.map fun _ => config) ∧
    ((∃ n ∈ config.numbers, 2 ^ 63 - 1 < n) → ∃ reason,
      config.writeFile format files path = (.error (.invalidConfig reason), files)) := by
  constructor
  · rintro hfit ⟨opened, hopened⟩
    obtain ⟨text, hprint, hread⟩ :=
      ofText_print hformat fun n hn => Nat.lt_of_le_of_lt (hfit n hn) (by decide)
    obtain ⟨files', hwrite⟩ := (FileTree.AgreeOff.refl (fun _ => False) (fun _ => False)
      files).write (fun _ _ => id) hopened text.toUTF8.toList
    refine ⟨files', ?_, readFile_of_write hread hwrite⟩
    rw [writeFile, hprint]
    simp only [hwrite]
  · rintro ⟨n, hn, hlarge⟩
    obtain ⟨group, hgroup, setting, hsetting, hvalue⟩ := mem_numbers.mp hn
    obtain ⟨cause, hprint⟩ :=
      hformat.refuse config.written ⟨group, hgroup, setting, hsetting, n, hvalue, hlarge⟩
    exact ⟨_, by rw [writeFile, hprint]⟩

/-! ## The largest number -/

namespace Largest

/-- There is a file at the path, which is not a configuration. -/
def files : FileTree := (FileTree.empty ["w"]).put ["w", "knn.toml"] (.file [104, 105])

/-- It has the largest number that can be written, and an interval that is refused. -/
def config : Config where
  cache := { weightCircuitBreaker := true, maxWeightBytes := 9223372036854775807 }
  watcher := { frequency := .low, intervalMs := some 0 }
  writer := { buildTimeoutMs := some 10 }

def larger : Config := { config with query := { maxK := 9223372036854775808 } }

/-- The configuration is written and refused when it is read. The one with a larger number is not
written, and the old file is still there. -/
theorem readFile_of_writeFile_of_largest :
    Format.toml.Faithful ∧
    (∃ files', config.writeFile .toml files ⟨"knn.toml"⟩ = (.ok (), files') ∧
      readFile .toml files' ⟨"knn.toml"⟩
        = .error (.invalidConfig "watcher.interval_ms must be > 0")) ∧
    ∃ reason files', larger.writeFile .toml files ⟨"knn.toml"⟩
        = (.error (.invalidConfig reason), files') ∧
      files'.read ⟨"knn.toml"⟩ = .ok [104, 105] := by
  refine ⟨faithful_toml, ?_, ?_⟩
  · have hopened : ∃ opened, files.create ⟨"knn.toml"⟩ = .ok opened :=
      ⟨files.put ["w", "knn.toml"] (.file []), by decide +kernel⟩
    exact (readFile_of_writeFile faithful_toml config files ⟨"knn.toml"⟩).1 (by decide) hopened
  · obtain ⟨reason, hrefused⟩ := (readFile_of_writeFile faithful_toml larger files ⟨"knn.toml"⟩).2
      ⟨9223372036854775808, by decide, by decide⟩
    exact ⟨reason, files, hrefused, by decide +kernel⟩

end Largest

end Config

end Sidecar
