import Sidecar.Search.Scorer
import Mathlib.Data.List.Sort
import Mathlib.Order.Monotone.Basic

/-!
# The scores of a scorer

An engine may report a document several times, in any order, and a scorer keeps the least of its
scores. What "least" means is said here without the order of ranks that `Binary32.least` goes by: a
number stands for a value (`Binary32.value`), NaNs stand for none, and a minimum of some scores is one
of them that no other undercuts, and a NaN only if there is nothing else (`IsMinimum`).

So stated, a minimum depends on which scores there are and not on their order or number, and it is
unique up to two things that values do not tell apart: which NaN it is, and which zero. The first is
settled by taking all NaNs as one (`Binary32.canonical`), the second by asking that no document has
both zeros. That a scorer does not depend on the order of the results, nor on repetitions, follows
from this and needs no law of the minimum as an operation. It would not be easy to come by: because
NaNs give way, the operation is no meet of any order.
-/

set_option autoImplicit false

namespace Sidecar

namespace Binary32

/-! ## Values -/

/-- The value of a number without its sign, in units of the smallest one, from the bits that are not
the sign. An infinity counts as the power of two after the largest number. -/
def magnitude (code : Nat) : Nat :=
  if code / 0x800000 = 0 then code % 0x800000
  else (0x800000 + code % 0x800000) * Nat.pow 2 (code / 0x800000 - 1)

/-- The value of a number in units of the smallest one. It has no meaning for a NaN. -/
def value (x : Binary32) : Int :=
  if x.bits.toNat < 0x80000000 then magnitude x.bits.toNat
  else -magnitude (x.bits.toNat - 0x80000000)

def positiveZero : Binary32 := ⟨0⟩

/-- All NaNs taken as one. -/
def canonical (x : Binary32) : Binary32 := if x.isNaN then ⟨0x7FC00000⟩ else x

theorem magnitude_strictMono : StrictMono magnitude := by
  refine strictMono_nat_of_lt_succ fun code => ?_
  unfold magnitude
  by_cases hcarry : code % 0x800000 = 0x7FFFFF
  · -- The fraction is full, so the next number begins the next power of two.
    have hfraction : (code + 1) % 0x800000 = 0 := by omega
    have hexponent : (code + 1) / 0x800000 = code / 0x800000 + 1 := by omega
    rw [hcarry, hfraction, hexponent, if_neg (Nat.succ_ne_zero (code / 0x800000)),
      Nat.add_sub_cancel]
    split
    · next hzero => simp [hzero]
    · next hpos =>
      obtain ⟨e, he⟩ := Nat.exists_eq_add_one_of_ne_zero hpos
      have hpow : Nat.pow 2 (e + 1) = 2 * Nat.pow 2 e := Nat.mul_comm _ _
      have hunit : 0 < Nat.pow 2 e := Nat.pow_pos (by decide)
      rw [he, Nat.add_sub_cancel, hpow]
      omega
  · have hfraction : (code + 1) % 0x800000 = code % 0x800000 + 1 := by omega
    have hexponent : (code + 1) / 0x800000 = code / 0x800000 := by omega
    rw [hfraction, hexponent]
    split
    · omega
    · exact Nat.mul_lt_mul_of_pos_right (by omega) (Nat.pow_pos (by decide))

/-- The order of ranks respects values. -/
theorem value_le_of_rank_le {x y : Binary32} (h : x.rank ≤ y.rank) : x.value ≤ y.value := by
  have hx : x.bits.toNat < 4294967296 := x.bits.toNat_lt
  have hy : y.bits.toNat < 4294967296 := y.bits.toNat_lt
  unfold rank at h
  unfold value
  split at h <;> split at h
  · have hle := magnitude_strictMono.monotone (show x.bits.toNat ≤ y.bits.toNat by omega)
    omega
  · omega
  · omega
  · have hle := magnitude_strictMono.monotone
      (show y.bits.toNat - 0x80000000 ≤ x.bits.toNat - 0x80000000 by omega)
    omega

theorem eq_of_toNat {x : Binary32} {n : Nat} (h : x.bits.toNat = n) : x = ⟨UInt32.ofNat n⟩ := by
  rw [← h, UInt32.ofNat_toNat]

/-- Only the two zeros have one value. -/
theorem eq_or_zeros_of_value_eq {x y : Binary32} (h : x.value = y.value) :
    x = y ∨ x = positiveZero ∧ y = negativeZero ∨ x = negativeZero ∧ y = positiveZero := by
  have hzero : magnitude 0 = 0 := rfl
  have hinj := magnitude_strictMono.injective
  unfold value at h
  split at h <;> split at h
  · have heq := hinj (Int.ofNat.inj h)
    exact Or.inl ((eq_of_toNat heq).trans (by rw [UInt32.ofNat_toNat]))
  · have hx : x.bits.toNat = 0 := hinj (by omega)
    have hy : y.bits.toNat - 0x80000000 = 0 := hinj (by omega)
    exact Or.inr (Or.inl ⟨eq_of_toNat hx, eq_of_toNat (n := 0x80000000) (by omega)⟩)
  · have hx : x.bits.toNat - 0x80000000 = 0 := hinj (by omega)
    have hy : y.bits.toNat = 0 := hinj (by omega)
    exact Or.inr (Or.inr ⟨eq_of_toNat (n := 0x80000000) (by omega), eq_of_toNat hy⟩)
  · have heq := hinj (Int.ofNat.inj (Int.neg_inj.mp h))
    have hsame : x.bits.toNat = y.bits.toNat := by omega
    exact Or.inl ((eq_of_toNat hsame).trans (by rw [UInt32.ofNat_toNat]))

theorem canonical_of_isNaN {x : Binary32} (h : x.isNaN = true) : x.canonical = ⟨0x7FC00000⟩ := by
  rw [canonical, if_pos h]

theorem canonical_of_number {x : Binary32} (h : x.isNaN = false) : x.canonical = x := by
  rw [canonical, if_neg (by simp [h])]

theorem isNaN_canonical (x : Binary32) : x.canonical.isNaN = x.isNaN := by
  cases h : x.isNaN with
  | false => rw [canonical_of_number h, h]
  | true =>
    rw [canonical_of_isNaN h]
    rfl

/-! ## Minima -/

/-- One of some scores that is least among those that are numbers, and a NaN only if none is. -/
structure IsMinimum (scores : List Binary32) (v : Binary32) : Prop where
  mem : ∃ x ∈ scores, x.canonical = v.canonical
  le : ∀ x ∈ scores, x.isNaN = false → v.isNaN = false ∧ v.value ≤ x.value

variable {scores : List Binary32} {v w : Binary32}

theorem IsMinimum.least (h : IsMinimum scores v) (w : Binary32) :
    IsMinimum (scores ++ [w]) (v.least w) := by
  have hold : ∃ x ∈ scores ++ [w], x.canonical = v.canonical := by
    obtain ⟨x, hx, heq⟩ := h.mem
    exact ⟨x, List.mem_append_left _ hx, heq⟩
  have hnew : ∃ x ∈ scores ++ [w], x.canonical = w.canonical := ⟨w, by simp, rfl⟩
  unfold Binary32.least
  split
  · next hv =>
    refine ⟨hnew, fun x hx hnumber => ?_⟩
    rcases List.mem_append.mp hx with hx | hx
    · exact absurd (h.le x hx hnumber).1 (by simp [hv])
    · obtain rfl := List.mem_singleton.mp hx
      exact ⟨hnumber, Int.le_refl _⟩
  · next hv =>
    split
    · next hw =>
      refine ⟨hold, fun x hx hnumber => ?_⟩
      rcases List.mem_append.mp hx with hx | hx
      · exact h.le x hx hnumber
      · obtain rfl := List.mem_singleton.mp hx
        exact absurd hnumber (by simp [hw])
    · next hw =>
      split
      · next hlt =>
        have hle : w.value ≤ v.value := value_le_of_rank_le (Nat.le_of_lt hlt)
        refine ⟨hnew, fun x hx hnumber => ⟨by simpa using hw, ?_⟩⟩
        rcases List.mem_append.mp hx with hx | hx
        · exact Int.le_trans hle (h.le x hx hnumber).2
        · obtain rfl := List.mem_singleton.mp hx
          exact Int.le_refl _
      · next hnot =>
        have hle : v.value ≤ w.value := value_le_of_rank_le (Nat.le_of_not_lt hnot)
        refine ⟨hold, fun x hx hnumber => ⟨by simpa using hv, ?_⟩⟩
        rcases List.mem_append.mp hx with hx | hx
        · exact (h.le x hx hnumber).2
        · obtain rfl := List.mem_singleton.mp hx
          exact hle

theorem IsMinimum.foldl (h : IsMinimum scores v) (more : List Binary32) :
    IsMinimum (scores ++ more) (more.foldl Binary32.least v) := by
  induction more generalizing scores v with
  | nil => rwa [List.append_nil]
  | cons w rest ih =>
    rw [List.append_cons]
    exact ih (h.least w)

theorem isMinimum_singleton (v : Binary32) : IsMinimum [v] v := by
  refine ⟨⟨v, List.mem_singleton_self v, rfl⟩, fun x hx hnumber => ?_⟩
  obtain rfl := List.mem_singleton.mp hx
  exact ⟨hnumber, Int.le_refl _⟩

/-- A minimum depends on which scores there are. -/
theorem IsMinimum.of_mem_iff (h : IsMinimum scores v) {scores' : List Binary32}
    (hsame : ∀ x, x ∈ scores ↔ x ∈ scores') : IsMinimum scores' v := by
  refine ⟨?_, fun x hx => h.le x ((hsame x).mpr hx)⟩
  obtain ⟨x, hx, heq⟩ := h.mem
  exact ⟨x, (hsame x).mp hx, heq⟩

/-- Without two zeros among the scores there is one minimum, all NaNs taken as one. -/
theorem IsMinimum.unique (h : IsMinimum scores v) (h' : IsMinimum scores w)
    (hzeros : ¬ (positiveZero ∈ scores ∧ negativeZero ∈ scores)) : v.canonical = w.canonical := by
  obtain ⟨x, hx, hxv⟩ := h.mem
  obtain ⟨y, hy, hyw⟩ := h'.mem
  have hxnan : x.isNaN = v.isNaN := by rw [← isNaN_canonical x, hxv, isNaN_canonical]
  have hynan : y.isNaN = w.isNaN := by rw [← isNaN_canonical y, hyw, isNaN_canonical]
  cases hv : v.isNaN with
  | true =>
    cases hw : w.isNaN with
    | true => rw [canonical_of_isNaN hv, canonical_of_isNaN hw]
    | false => exact absurd (h.le y hy (hynan.trans hw)).1 (by simp [hv])
  | false =>
    cases hw : w.isNaN with
    | true => exact absurd (h'.le x hx (hxnan.trans hv)).1 (by simp [hw])
    | false =>
      rw [canonical_of_number hv, canonical_of_number (hxnan.trans hv)] at hxv
      rw [canonical_of_number hw, canonical_of_number (hynan.trans hw)] at hyw
      subst hxv hyw
      have hle := (h.le y hy hw).2
      have hge := (h'.le x hx hv).2
      rcases eq_or_zeros_of_value_eq (Int.le_antisymm hle hge) with rfl | ⟨rfl, rfl⟩ | ⟨rfl, rfl⟩
      · rfl
      · exact absurd ⟨hx, hy⟩ hzeros
      · exact absurd ⟨hy, hx⟩ hzeros

end Binary32

/-! ## The scores of a document -/

/-- The scores that some results give a document. -/
def scoresOf (results : List Match) (doc : DocId) : List Binary32 :=
  (results.filter (·.doc == doc)).map Match.score

theorem mem_scoresOf {results : List Match} {doc : DocId} {score : Binary32} :
    score ∈ scoresOf results doc ↔ ⟨doc, score⟩ ∈ results := by
  rw [scoresOf, List.mem_map]
  constructor
  · rintro ⟨m, hm, rfl⟩
    obtain ⟨hm, hdoc⟩ := List.mem_filter.mp hm
    exact eq_of_beq hdoc ▸ hm
  · exact fun hm => ⟨⟨doc, score⟩, List.mem_filter.mpr ⟨hm, beq_self_eq_true doc⟩, rfl⟩

namespace Scorer

abbrev Ascending (found : List Match) : Prop := found.Pairwise fun a b => a.doc < b.doc

/-- The score of a document in a list of matches. -/
def scoreIn? (found : List Match) (doc : DocId) : Option Binary32 :=
  (found.find? (·.doc == doc)).map Match.score

/-- A score is found, after a score that may have been found before. -/
def lower (best : Option Binary32) (score : Binary32) : Option Binary32 :=
  some (best.elim score (·.least score))

variable {found : List Match} {doc : DocId} {score : Binary32}

theorem scoreIn_cons (m : Match) (found : List Match) (doc : DocId) :
    scoreIn? (m :: found) doc = if m.doc = doc then some m.score else scoreIn? found doc := by
  rw [scoreIn?, List.find?_cons]
  by_cases h : m.doc = doc
  · rw [if_pos h, h, beq_self_eq_true]
    rfl
  · rw [if_neg h, beq_false_of_ne h]
    rfl

theorem scoreIn_eq_none (h : ∀ m ∈ found, m.doc ≠ doc) : scoreIn? found doc = none := by
  rw [scoreIn?, List.find?_eq_none.mpr fun m hm => by simpa using h m hm]
  rfl

theorem scoreIn_eq_some_iff (h : Ascending found) :
    scoreIn? found doc = some score ↔ ⟨doc, score⟩ ∈ found := by
  induction found with
  | nil => exact ⟨nofun, nofun⟩
  | cons m rest ih =>
    obtain ⟨hbelow, hrest⟩ := List.pairwise_cons.mp h
    rw [scoreIn_cons, List.mem_cons]
    by_cases hdoc : m.doc = doc
    · have hnot : ⟨doc, score⟩ ∉ rest := fun hmem => by
        have hlt : m.doc < doc := hbelow ⟨doc, score⟩ hmem
        exact UInt32.lt_irrefl doc (hdoc ▸ hlt)
      rw [if_pos hdoc, or_iff_left hnot, Option.some.injEq, ← hdoc]
      exact ⟨fun hscore => hscore ▸ rfl, fun heq => (congrArg Match.score heq).symm⟩
    · have hne : (⟨doc, score⟩ : Match) ≠ m := fun heq => hdoc (congrArg Match.doc heq).symm
      rw [if_neg hdoc, or_iff_right hne]
      exact ih hrest

/-- A match that is added counts for its document and for no other. -/
theorem scoreIn_add (h : Ascending found) (m : Match) (doc : DocId) :
    scoreIn? (add found m) doc
      = if m.doc = doc then lower (scoreIn? found doc) m.score else scoreIn? found doc := by
  induction found with
  | nil => exact scoreIn_cons m [] doc
  | cons first rest ih =>
    obtain ⟨hbelow, hrest⟩ := List.pairwise_cons.mp h
    unfold add
    split
    · next hlt =>
      rw [scoreIn_cons]
      -- The document is new: what is found already lies above it.
      have hnew : m.doc = doc → scoreIn? (first :: rest) doc = none := by
        rintro rfl
        refine scoreIn_eq_none fun x hx heq => ?_
        rcases List.mem_cons.mp hx with rfl | hx
        · exact UInt32.lt_irrefl _ (heq ▸ hlt)
        · exact UInt32.lt_irrefl _ (heq ▸ UInt32.lt_trans hlt (hbelow x hx))
      split
      · next hdoc =>
        rw [hnew hdoc]
        rfl
      · rfl
    · split
      · next hsame =>
        rw [scoreIn_cons, scoreIn_cons, hsame]
        split <;> rfl
      · next hne =>
        rw [scoreIn_cons, scoreIn_cons, ih hrest]
        by_cases hdoc : first.doc = doc
        · rw [if_pos hdoc, if_neg fun heq => hne (heq.trans hdoc.symm), if_pos hdoc]
        · rw [if_neg hdoc, if_neg hdoc]

theorem scoreIn_foldl_add (results : List Match) (h : Ascending found) (doc : DocId) :
    scoreIn? (results.foldl add found) doc
      = (scoresOf results doc).foldl lower (scoreIn? found doc) := by
  induction results generalizing found with
  | nil => rfl
  | cons m rest ih =>
    rw [List.foldl_cons, ih (ascending_add m h), scoreIn_add h, scoresOf, scoresOf,
      List.filter_cons]
    by_cases hdoc : m.doc = doc
    · rw [if_pos hdoc, hdoc, beq_self_eq_true]
      rfl
    · rw [if_neg hdoc, beq_false_of_ne hdoc]
      rfl

theorem foldl_lower (score : Binary32) (rest : List Binary32) :
    (score :: rest).foldl lower none = some (rest.foldl Binary32.least score) := by
  rw [List.foldl_cons]
  show rest.foldl lower (some score) = _
  induction rest generalizing score with
  | nil => rfl
  | cons next rest ih => exact ih (score.least next)

/-- Exactly the documents with a score are found, each with the minimum of its scores. -/
theorem scoreIn_gather (results : List Match) (doc : DocId) :
    (scoresOf results doc = [] ∧ scoreIn? (gather results) doc = none) ∨
    ∃ score, scoreIn? (gather results) doc = some score ∧
      Binary32.IsMinimum (scoresOf results doc) score := by
  have hfold := scoreIn_foldl_add results (List.Pairwise.nil : Ascending []) doc
  cases hscores : scoresOf results doc with
  | nil =>
    rw [hscores] at hfold
    exact Or.inl ⟨rfl, hfold⟩
  | cons first rest =>
    rw [hscores] at hfold
    refine Or.inr ⟨_, hfold.trans (foldl_lower first rest), ?_⟩
    exact (Binary32.isMinimum_singleton first).foldl rest

/-! ## The scorer of some results -/

theorem ascending_gather (results : List Match) : Ascending (gather results) :=
  ascending_foldl_add results [] List.Pairwise.nil

theorem isMinimum_of_mem_gather {results : List Match} {m : Match} (hm : m ∈ gather results) :
    Binary32.IsMinimum (scoresOf results m.doc) m.score := by
  have hfound := (scoreIn_eq_some_iff (ascending_gather results)).mpr hm
  rcases scoreIn_gather results m.doc with ⟨-, hnone⟩ | ⟨score, hsome, hminimum⟩
  · exact absurd (hfound.symm.trans hnone) nofun
  · exact Option.some.inj (hfound.symm.trans hsome) ▸ hminimum

theorem doc_mem_gather {results : List Match} {doc : DocId} :
    doc ∈ (gather results).map Match.doc ↔ doc ∈ results.map Match.doc := by
  have hasc := ascending_gather results
  rw [List.mem_map, List.mem_map]
  constructor
  · rintro ⟨m, hm, rfl⟩
    obtain ⟨score, hscore, -⟩ := (isMinimum_of_mem_gather hm).mem
    exact ⟨⟨m.doc, score⟩, mem_scoresOf.mp hscore, rfl⟩
  · rintro ⟨m, hm, rfl⟩
    rcases scoreIn_gather results m.doc with ⟨hempty, -⟩ | ⟨score, hsome, -⟩
    · have hscore : m.score ∈ scoresOf results m.doc := mem_scoresOf.mpr hm
      rw [hempty] at hscore
      exact absurd hscore List.not_mem_nil
    · exact ⟨_, (scoreIn_eq_some_iff hasc).mp hsome, rfl⟩

end Scorer

def Match.canonical (m : Match) : Match := { m with score := m.score.canonical }

namespace Scorer

/-- The same documents with the same scores and the same cursor, all NaNs taken as one. -/
structure Alike (s t : Scorer) : Prop where
  hits : s.hits.map Match.canonical = t.hits.map Match.canonical
  cursor : s.cursor = t.cursor

/-- No document is given both zeros. -/
def ZerosApart (results : List Match) : Prop :=
  ∀ a ∈ results, ∀ b ∈ results, a.doc = b.doc →
    ¬ (a.score = Binary32.positiveZero ∧ b.score = Binary32.negativeZero)

variable {results results' : List Match}

theorem ZerosApart.of_mem_iff (h : ZerosApart results) (hsame : ∀ m, m ∈ results ↔ m ∈ results') :
    ZerosApart results' :=
  fun a ha b hb => h a ((hsame a).mpr ha) b ((hsame b).mpr hb)

/-- What is found among some results is found among the same results in other order and number. -/
theorem exists_mem_gather (hzeros : ZerosApart results)
    (hsame : ∀ m, m ∈ results ↔ m ∈ results') {m : Match} (hm : m ∈ gather results) :
    ∃ m' ∈ gather results', m'.canonical = m.canonical := by
  have hdoc : m.doc ∈ (gather results').map Match.doc := by
    have hmem : m.doc ∈ (gather results).map Match.doc := List.mem_map_of_mem hm
    rw [doc_mem_gather, List.mem_map] at hmem ⊢
    obtain ⟨x, hx, heq⟩ := hmem
    exact ⟨x, (hsame x).mp hx, heq⟩
  obtain ⟨m', hm', heq⟩ := List.mem_map.mp hdoc
  have hscores : ∀ score, score ∈ scoresOf results' m'.doc ↔ score ∈ scoresOf results m.doc := by
    intro score
    rw [heq, mem_scoresOf, mem_scoresOf, hsame]
  have hscore : m'.score.canonical = m.score.canonical := by
    refine ((isMinimum_of_mem_gather hm').of_mem_iff hscores).unique (isMinimum_of_mem_gather hm) ?_
    rintro ⟨hpositive, hnegative⟩
    exact hzeros _ (mem_scoresOf.mp hpositive) _ (mem_scoresOf.mp hnegative) rfl ⟨rfl, rfl⟩
  refine ⟨m', hm', ?_⟩
  rw [Match.canonical, Match.canonical, heq, hscore]

theorem alike_of_mem_iff (hzeros : ZerosApart results) (hsame : ∀ m, m ∈ results ↔ m ∈ results') :
    Alike (ofResults results) (ofResults results') := by
  have hasymm : Std.Asymm fun a b : Match => a.doc < b.doc := ⟨fun a b => UInt32.lt_asymm⟩
  have hcanonical : ∀ {found : List Match}, Ascending found → Ascending (found.map Match.canonical) :=
    fun h => List.pairwise_map.mpr h
  refine ⟨?_, rfl⟩
  refine List.Pairwise.eq_of_mem_iff (hcanonical (ascending_gather results))
    (hcanonical (ascending_gather results')) fun x => ?_
  rw [List.mem_map, List.mem_map]
  constructor
  · rintro ⟨m, hm, rfl⟩
    exact exists_mem_gather hzeros hsame hm
  · rintro ⟨m, hm, rfl⟩
    exact exists_mem_gather (hzeros.of_mem_iff hsame) (fun m => (hsame m).symm) hm

/-- **A scorer keeps the minimum of each document's scores, whatever order the results come in.**
Whenever no document is given both zeros, every document of the results is matched once, in strictly
ascending order, with the minimum of its scores, a NaN giving way to any number; and the same results
in another order, with some of them repeated or no longer repeated, make the same scorer, all NaNs
taken as one. -/
theorem minimum_of_results (results : List Match) (hzeros : ZerosApart results) :
    let s := ofResults results
    (s.hits.map Match.doc).Pairwise (· < ·) ∧
    (∀ doc, doc ∈ s.hits.map Match.doc ↔ doc ∈ results.map Match.doc) ∧
    (∀ m ∈ s.hits, Binary32.IsMinimum (scoresOf results m.doc) m.score ∧
      s.scoreOf m.doc = some m.score) ∧
    ∀ results', (∀ m, m ∈ results ↔ m ∈ results') → Alike s (ofResults results') := by
  have hasc := ascending_gather results
  refine ⟨List.pairwise_map.mpr hasc, fun doc => doc_mem_gather, fun m hm => ?_,
    fun results' hsame => alike_of_mem_iff hzeros hsame⟩
  exact ⟨isMinimum_of_mem_gather hm, (scoreIn_eq_some_iff hasc).mpr hm⟩

/-- One document with 1, a NaN and 0.5, and one with two different NaNs. -/
def mixed : List Match :=
  [⟨5, ⟨0x3F800000⟩⟩, ⟨2, ⟨0x7FC00001⟩⟩, ⟨5, ⟨0x7FC00000⟩⟩, ⟨5, ⟨0x3F000000⟩⟩, ⟨2, ⟨0xFFC00000⟩⟩]

/-- Backwards and forwards once more: the second document then keeps another of its NaNs. -/
theorem minimum_of_mixed :
    ZerosApart mixed ∧
    (ofResults mixed).hits = [⟨2, ⟨0xFFC00000⟩⟩, ⟨5, ⟨0x3F000000⟩⟩] ∧
    (ofResults mixed.reverse).hits = [⟨2, ⟨0x7FC00001⟩⟩, ⟨5, ⟨0x3F000000⟩⟩] ∧
    Binary32.IsMinimum [⟨0x3F800000⟩, ⟨0x7FC00000⟩, ⟨0x3F000000⟩] ⟨0x3F000000⟩ ∧
    Alike (ofResults mixed) (ofResults (mixed.reverse ++ mixed)) := by
  have hzeros : ZerosApart mixed := by
    rintro a ha b - - ⟨hpositive, -⟩
    revert a
    simp [mixed, Binary32.positiveZero]
  obtain ⟨-, -, hminimum, halike⟩ := minimum_of_results mixed hzeros
  have hmem : (⟨5, ⟨0x3F000000⟩⟩ : Match) ∈ (ofResults mixed).hits := by decide
  refine ⟨hzeros, rfl, rfl, (hminimum _ hmem).1, halike _ fun m => ?_⟩
  rw [List.mem_append, List.mem_reverse, or_self]

end Scorer

end Sidecar
