import Sidecar.Proofs.Cache.Release
import Mathlib.Algebra.BigOperators.Group.List.Basic
import Mathlib.Algebra.Ring.Nat
import Mathlib.Data.List.Nodup

/-!
# The live entries

What every operation relies on: each key has at most one entry, and the weight on the books is the
sum of the sizes of the entries (`Sound`). Both are about the same two fields, and both are needed
together, because removing an entry subtracts one size while it filters by key.

The working fact is `Sound.split`: taking out the entries that share the key of a live entry takes
out that entry and no other, so a list that stood as `front ++ e :: back` is left as `front ++ back`.
Every statement about removal is read off that.
-/

set_option autoImplicit false

namespace Sidecar

/-! ## Keys -/

namespace Path

theorem sameKey_iff {p q : Path} : p.sameKey q = true ↔ p.components = q.components := by
  simp [sameKey]

@[simp] theorem sameKey_refl (p : Path) : p.sameKey p = true := sameKey_iff.mpr rfl

theorem sameKey_comm {p q : Path} (h : p.sameKey q = true) : q.sameKey p = true :=
  sameKey_iff.mpr (sameKey_iff.mp h).symm

theorem sameKey_trans {p q r : Path} (h : p.sameKey q = true) (h' : q.sameKey r = true) :
    p.sameKey r = true :=
  sameKey_iff.mpr ((sameKey_iff.mp h).trans (sameKey_iff.mp h'))

theorem sameKey_symm (p q : Path) : p.sameKey q = q.sameKey p :=
  Bool.eq_iff_iff.mpr ⟨sameKey_comm, sameKey_comm⟩

theorem sameKey_congr {p q : Path} (h : p.sameKey q = true) (r : Path) :
    p.sameKey r = q.sameKey r :=
  Bool.eq_iff_iff.mpr ⟨sameKey_trans (sameKey_comm h), sameKey_trans h⟩

end Path

def Entry.key {ι : Type} (e : Entry ι) : List Path.Component := e.handle.path.components

theorem Entry.sameKey_iff {ι : Type} {a b : Entry ι} :
    a.handle.path.sameKey b.handle.path = true ↔ a.key = b.key :=
  Path.sameKey_iff

namespace Cache

variable {ι : Type}

/-! ## Finding an entry -/

theorem mem_of_found {c : Cache ι} {path : Path} {e : Entry ι} (h : c.entry? path = some e) :
    e ∈ c.entries :=
  List.mem_of_find?_eq_some h

theorem key_of_found {c : Cache ι} {path : Path} {e : Entry ι} (h : c.entry? path = some e) :
    e.handle.path.sameKey path = true := by
  have := List.find?_some h
  exact this

theorem vacant_iff {c : Cache ι} {path : Path} :
    c.entry? path = none ↔ ∀ e ∈ c.entries, e.handle.path.sameKey path = false := by
  unfold entry?
  simp

/-- Without the entry of a path, and whatever shares its key, nothing is found under the path. -/
theorem vacant_filter {c : Cache ι} {path : Path} {e : Entry ι} (h : c.entry? path = some e) :
    ∀ e' ∈ c.entries.filter (!·.handle.path.sameKey e.handle.path),
      e'.handle.path.sameKey path = false := by
  intro e' he'
  rw [List.mem_filter, Bool.not_eq_true'] at he'
  rw [Bool.eq_false_iff]
  intro hsame
  have hcon := Path.sameKey_trans hsame (Path.sameKey_comm (key_of_found h))
  rw [he'.2] at hcon
  exact absurd hcon nofun

theorem vacant_expel {c : Cache ι} {path : Path} {e : Entry ι} (h : c.entry? path = some e)
    (reason : RemovalReason) : entry? (c.expel reason e) path = none := by
  rw [vacant_iff, expel_entries]
  exact vacant_filter h

theorem vacant_remove (c : Cache ι) (path : Path) (reason : RemovalReason) :
    entry? (c.remove path reason).2 path = none := by
  unfold remove
  split
  · next hnone => exact hnone
  · next e he => exact vacant_expel he reason

theorem vacant_of_subset {c c' : Cache ι} {path : Path} (h : c.entry? path = none)
    (hsub : c'.entries ⊆ c.entries) : c'.entry? path = none := by
  rw [vacant_iff] at h ⊢
  exact fun e he => h e (hsub he)

/-! ## Entries apart, and their weight -/

def total (es : List (Entry ι)) : Nat := (es.map (·.handle.size)).sum

@[simp] theorem total_nil : total ([] : List (Entry ι)) = 0 := rfl

@[simp] theorem total_cons (e : Entry ι) (es : List (Entry ι)) :
    total (e :: es) = e.handle.size + total es := by
  simp [total]

@[simp] theorem total_append (es es' : List (Entry ι)) : total (es ++ es') = total es + total es' := by
  simp [total]

/-- No two entries share a key, and the weight is theirs. -/
structure Sound (c : Cache ι) : Prop where
  apart : (c.entries.map Entry.key).Nodup
  weight : c.weight = total c.entries

theorem Sound.of_frame {c c' : Cache ι} (h : c.Sound) (hf : Frame c c') : c'.Sound :=
  ⟨by rw [hf.entries]; exact h.apart, by rw [hf.entries, hf.weight]; exact h.weight⟩

theorem filter_of_apart {e : Entry ι} {es : List (Entry ι)} (h : e.key ∉ es.map Entry.key) :
    es.filter (!·.handle.path.sameKey e.handle.path) = es := by
  rw [List.filter_eq_self]
  intro e' he'
  rw [Bool.not_eq_true', Bool.eq_false_iff]
  intro hsame
  exact h (List.mem_map.mpr ⟨e', he', Entry.sameKey_iff.mp hsame⟩)

/-- An entry can be taken out by its key. -/
theorem Sound.split {c : Cache ι} (h : c.Sound) {e : Entry ι} (he : e ∈ c.entries) :
    ∃ front back, c.entries = front ++ e :: back ∧
      c.entries.filter (!·.handle.path.sameKey e.handle.path) = front ++ back := by
  obtain ⟨front, back, hsplit⟩ := List.append_of_mem he
  refine ⟨front, back, hsplit, ?_⟩
  have hapart := h.apart
  rw [hsplit, List.map_append, List.map_cons, List.nodup_middle, List.nodup_cons,
    ← List.map_append] at hapart
  rw [hsplit, List.filter_append, List.filter_cons_of_neg (by simp), ← List.filter_append]
  exact filter_of_apart hapart.1

theorem Sound.size_le {c : Cache ι} (h : c.Sound) {e : Entry ι} (he : e ∈ c.entries) :
    e.handle.size ≤ c.weight := by
  obtain ⟨front, back, hsplit, -⟩ := h.split he
  rw [h.weight, hsplit, total_append, total_cons]
  omega

/-! ## The elementary changes -/

theorem Sound.expel {c : Cache ι} (h : c.Sound) (reason : RemovalReason) {e : Entry ι}
    (he : e ∈ c.entries) : (c.expel reason e).Sound := by
  obtain ⟨front, back, hsplit, hfilter⟩ := h.split he
  refine ⟨?_, ?_⟩
  · rw [expel_entries]
    exact h.apart.sublist (List.filter_sublist.map _)
  · rw [expel_entries, expel_weight, hfilter, h.weight, hsplit, total_append, total_append,
      total_cons]
    omega

theorem touch_entries (c : Cache ι) (now : Nat) (e : Entry ι) :
    (c.touch now e).entries = c.entries.filter (!·.handle.path.sameKey e.handle.path)
      ++ [{ e with lastAccess := now }] :=
  rfl

theorem Sound.touch {c : Cache ι} (h : c.Sound) (now : Nat) {e : Entry ι} (he : e ∈ c.entries) :
    (c.touch now e).Sound := by
  obtain ⟨front, back, hsplit, hfilter⟩ := h.split he
  refine ⟨?_, ?_⟩
  · have hapart := h.apart
    rw [hsplit] at hapart
    rw [touch_entries, hfilter]
    have hkeys : ((e :: (front ++ back)).map Entry.key).Nodup :=
      (List.perm_middle.map _).nodup_iff.mp hapart
    exact ((List.perm_append_singleton _ _).map _).nodup_iff.mpr hkeys
  · rw [touch_entries, hfilter]
    have hweight := h.weight
    rw [hsplit] at hweight
    simp only [Cache.touch, total_append, total_cons, total_nil] at hweight ⊢
    omega

theorem Sound.discard {c : Cache ι} (h : c.Sound) (handle : Handle ι) :
    (c.discard handle).Sound := by
  have hmarked : (c.markInvalidated handle.id).Sound := ⟨h.apart, h.weight⟩
  exact hmarked.of_frame (c.frame_discard handle)

theorem Sound.insert {c : Cache ι} (h : c.Sound) (now : Nat) {handle : Handle ι}
    (hfree : c.entry? handle.path = none) : (c.insert now handle).Sound := by
  rw [vacant_iff] at hfree
  refine ⟨?_, ?_⟩
  · simp only [Cache.insert, List.map_append, List.map_cons, List.map_nil]
    refine (List.perm_append_singleton _ _).nodup_iff.mpr (List.nodup_cons.mpr ⟨?_, h.apart⟩)
    intro hmem
    obtain ⟨e, he, hkey⟩ := List.mem_map.mp hmem
    have hsame : e.handle.path.sameKey handle.path = true := Path.sameKey_iff.mpr hkey
    rw [hfree e he] at hsame
    exact absurd hsame nofun
  · simp only [Cache.insert, total_append, total_cons, total_nil, h.weight]
    omega

end Cache

end Sidecar
