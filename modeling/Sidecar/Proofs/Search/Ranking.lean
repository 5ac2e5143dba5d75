import Sidecar.Flat.Nearest
import Mathlib.Data.List.Sort

/-!
# Ranking matches

A ranking is a sorted list, and which list that is depends on the matches alone: the rank of a score
has one number for each bit pattern, so the key of a match determines the match and a sorted
permutation is unique (`eq_rank`). Everything here follows from that.

The `best k` matches of a list are the first `k` of its ranking. Two facts make them composable:

* adding a match needs the best so far and nothing else (`best_cons`), which is why a shortlist of
  `k` matches is enough to read an index once (`foldl_offer`, `nearest_eq_best`);
* the best of a part may stand for the part (`best_append`), also if more of them are kept than are
  asked for in the end. So segments can be searched one by one.

Ties need no case of their own. A tie that was broken differently in two places would need two
matches with one key.
-/

set_option autoImplicit false

namespace Sidecar

theorem Binary32.rank_injective : Function.Injective Binary32.rank := by
  intro x y h
  have hx : x.bits.toNat < 4294967296 := x.bits.toNat_lt
  have hy : y.bits.toNat < 4294967296 := y.bits.toNat_lt
  have hbits : x.bits.toNat = y.bits.toNat := by
    unfold rank at h
    split at h <;> split at h <;> omega
  cases x
  cases y
  simpa using UInt32.toNat.inj hbits

namespace Match

/-- Closer, or as close and with a document that is not larger. -/
def Precedes (a b : Match) : Prop :=
  a.score.rank < b.score.rank ∨ (a.score.rank = b.score.rank ∧ a.doc ≤ b.doc)

theorem key_le_iff {a b : Match} : a.key ≤ b.key ↔ a.Precedes b := by
  have ha : a.doc.toNat < UInt32.size := a.doc.toNat_lt
  have hb : b.doc.toNat < UInt32.size := b.doc.toNat_lt
  unfold key Precedes
  rw [UInt32.le_iff_toNat_le]
  simp only [UInt32.size] at *
  omega

theorem key_injective : Function.Injective key := by
  intro a b h
  have hab := key_le_iff.mp (Nat.le_of_eq h)
  have hba := key_le_iff.mp (Nat.le_of_eq h.symm)
  unfold Precedes at hab hba
  have hscore : a.score = b.score := Binary32.rank_injective (by omega)
  have hdoc : a.doc = b.doc := by
    rw [hscore] at hab hba
    simp only [Nat.lt_irrefl, false_or, true_and] at hab hba
    exact UInt32.le_antisymm hab hba
  cases a
  cases b
  simp_all

/-! ## Sorted lists -/

abbrev Ranked (ms : List Match) : Prop := ms.Pairwise fun a b => a.key ≤ b.key

theorem rank_perm (ms : List Match) : (rank ms).Perm ms := List.mergeSort_perm _ _

theorem rank_ranked (ms : List Match) : Ranked (rank ms) := by
  have htrans : ∀ a b c : Match, decide (a.key ≤ b.key) = true → decide (b.key ≤ c.key) = true →
      decide (a.key ≤ c.key) = true := by
    intro a b c hab hbc
    simp only [decide_eq_true_eq] at *
    omega
  have htotal : ∀ a b : Match, (decide (a.key ≤ b.key) || decide (b.key ≤ a.key)) = true := by
    intro a b
    simp only [Bool.or_eq_true, decide_eq_true_eq]
    omega
  have h : (rank ms).Pairwise fun a b => decide (a.key ≤ b.key) = true :=
    List.pairwise_mergeSort htrans htotal ms
  simpa [Ranked] using h

/-- There is one way to rank some matches. -/
theorem eq_rank {ms ns : List Match} (hp : ns.Perm ms) (hs : Ranked ns) : ns = rank ms := by
  apply List.Perm.eq_of_pairwise _ hs (rank_ranked ms) (hp.trans (rank_perm ms).symm)
  intro a b _ _ hab hba
  exact key_injective (Nat.le_antisymm hab hba)

theorem rank_congr {ms ns : List Match} (h : ms.Perm ns) : rank ms = rank ns :=
  eq_rank ((rank_perm ms).trans h) (rank_ranked ms)

theorem rank_map {f : Match → Match} {ms : List Match}
    (hf : ∀ a ∈ ms, ∀ b ∈ ms, a.key ≤ b.key → (f a).key ≤ (f b).key) :
    rank (ms.map f) = (rank ms).map f := by
  symm
  apply eq_rank ((rank_perm ms).map f)
  rw [Ranked, List.pairwise_map]
  apply (rank_ranked ms).imp_of_mem
  intro a b ha hb hab
  exact hf a ((rank_perm ms).mem_iff.mp ha) b ((rank_perm ms).mem_iff.mp hb) hab

theorem insert_perm (m : Match) (ms : List Match) : (insert m ms).Perm (m :: ms) := by
  induction ms with
  | nil => rfl
  | cons first rest ih =>
    simp only [insert]
    split
    · rfl
    · exact (ih.cons first).trans (List.Perm.swap m first rest)

theorem insert_ranked {m : Match} {ms : List Match} (h : Ranked ms) : Ranked (insert m ms) := by
  induction ms with
  | nil => simp [insert, Ranked]
  | cons first rest ih =>
    obtain ⟨hfirst, hrest⟩ := List.pairwise_cons.mp h
    simp only [insert]
    split
    · next hlt =>
      refine List.pairwise_cons.mpr ⟨?_, h⟩
      intro x hx
      rcases List.mem_cons.mp hx with rfl | hx
      · exact Nat.le_of_lt hlt
      · exact Nat.le_trans (Nat.le_of_lt hlt) (hfirst x hx)
    · next hle =>
      refine List.pairwise_cons.mpr ⟨?_, ih hrest⟩
      intro x hx
      rcases List.mem_cons.mp ((insert_perm m rest).mem_iff.mp hx) with rfl | hx
      · exact Nat.not_lt.mp hle
      · exact hfirst x hx

theorem rank_cons (m : Match) (ms : List Match) : rank (m :: ms) = insert m (rank ms) := by
  symm
  exact eq_rank ((insert_perm m _).trans ((rank_perm ms).cons m)) (insert_ranked (rank_ranked ms))

/-! ## The best matches -/

def best (k : Nat) (ms : List Match) : List Match := (rank ms).take k

theorem best_congr {k : Nat} {ms ns : List Match} (h : ms.Perm ns) : best k ms = best k ns := by
  rw [best, best, rank_congr h]

theorem best_subset (k : Nat) (ms : List Match) : best k ms ⊆ ms := fun _ h =>
  (rank_perm ms).mem_iff.mp ((List.take_sublist k _).subset h)

theorem best_ranked (k : Nat) (ms : List Match) : Ranked (best k ms) :=
  (rank_ranked ms).sublist (List.take_sublist k _)

theorem best_map {k : Nat} {f : Match → Match} {ms : List Match}
    (hf : ∀ a ∈ ms, ∀ b ∈ ms, a.key ≤ b.key → (f a).key ≤ (f b).key) :
    best k (ms.map f) = (best k ms).map f := by
  rw [best, best, rank_map hf, List.map_take]

/-- What comes after the first `k` has no say in what the first `k` are. -/
theorem take_insert (k : Nat) (m : Match) (ms : List Match) :
    (insert m (ms.take k)).take k = (insert m ms).take k := by
  induction ms generalizing k with
  | nil => simp
  | cons first rest ih =>
    cases k with
    | zero => simp
    | succ k =>
      simp only [List.take_succ_cons, insert]
      split
      · cases k with
        | zero => simp
        | succ k => simp [List.take_take]
      · simp [ih]

theorem best_cons (k : Nat) (m : Match) (ms : List Match) :
    best k (m :: ms) = (insert m (best k ms)).take k := by
  rw [best, best, rank_cons, take_insert]

theorem best_best {k q : Nat} (h : k ≤ q) (ms : List Match) : best k (best q ms) = best k ms := by
  have hsame : rank (best q ms) = best q ms :=
    (eq_rank (List.Perm.refl _) (best_ranked q ms)).symm
  rw [best, hsame, best, best, List.take_take, Nat.min_eq_left h]

theorem best_append_best {k q : Nat} (h : k ≤ q) (ms ns : List Match) :
    best k (ms ++ best q ns) = best k (ms ++ ns) := by
  induction ms with
  | nil => exact best_best h ns
  | cons m ms ih => rw [List.cons_append, List.cons_append, best_cons, best_cons, ih]

theorem best_append {k : Nat} {ms ms' ns ns' : List Match} (h : best k ms = best k ms')
    (h' : best k ns = best k ns') : best k (ms ++ ns) = best k (ms' ++ ns') := by
  calc best k (ms ++ ns)
      = best k (ms ++ best k ns') := by rw [← best_append_best (Nat.le_refl k), h']
    _ = best k (ns' ++ best k ms) := by
        rw [best_append_best (Nat.le_refl k), best_append_best (Nat.le_refl k)]
        exact best_congr List.perm_append_comm
    _ = best k (ns' ++ ms') := by rw [h, best_append_best (Nat.le_refl k)]
    _ = best k (ms' ++ ns') := best_congr List.perm_append_comm

/-! ## The shortlist -/

theorem insert_of_last_le {m : Match} {ms : List Match} (h : ∀ x ∈ ms, x.key ≤ m.key) :
    insert m ms = ms ++ [m] := by
  induction ms with
  | nil => rfl
  | cons first rest ih =>
    have hfirst : ¬ m.key < first.key := Nat.not_lt.mpr (h first List.mem_cons_self)
    rw [insert, if_neg hfirst, ih fun x hx => h x (List.mem_cons_of_mem _ hx), List.cons_append]

theorem insert_before_last {m worst : Match} (h : m.key < worst.key) (ms : List Match) :
    insert m (ms ++ [worst]) = insert m ms ++ [worst] := by
  induction ms with
  | nil => simp [insert, h]
  | cons first rest ih =>
    simp only [List.cons_append, insert]
    split
    · rfl
    · rw [ih, List.cons_append]

theorem length_insert (m : Match) (ms : List Match) : (insert m ms).length = ms.length + 1 :=
  (insert_perm m ms).length_eq

/-- A full shortlist gives up its last match for one that ranks before it. -/
theorem offer_eq {k : Nat} {ms : List Match} (hs : Ranked ms) (hlen : ms.length ≤ k) (m : Match) :
    Shortlist.offer k ms m = (insert m ms).take k := by
  unfold Shortlist.offer
  split
  · next hroom =>
    rw [List.take_of_length_le]
    rw [length_insert]
    omega
  · next hfull =>
    have hk : k = ms.length := by omega
    cases hlast : ms.getLast? with
    | none =>
      rw [List.getLast?_eq_none_iff] at hlast
      subst hlast
      simp [hk]
    | some worst =>
      obtain ⟨init, rfl⟩ := List.getLast?_eq_some_iff.mp hlast
      have hle : ∀ x ∈ init ++ [worst], x.key ≤ worst.key := by
        intro x hx
        rcases List.mem_append.mp hx with hx | hx
        · exact (List.pairwise_append.mp hs).2.2 x hx worst (List.mem_singleton_self _)
        · rw [List.mem_singleton.mp hx]
      have hlength : k = init.length + 1 := by simpa using hk
      simp only [List.dropLast_concat]
      split
      · next hbefore =>
        have hk' : k = (insert m init).length := by rw [length_insert, hlength]
        rw [insert_before_last hbefore, hk', List.take_left]
      · next hafter =>
        have hall : ∀ x ∈ init ++ [worst], x.key ≤ m.key := fun x hx =>
          Nat.le_trans (hle x hx) (Nat.not_lt.mp hafter)
        rw [insert_of_last_le hall, hk, List.take_left]

theorem length_best_le (k : Nat) (ms : List Match) : (best k ms).length ≤ k := by
  rw [best, List.length_take]
  exact Nat.min_le_left _ _

theorem foldl_offer (k : Nat) (ms ns : List Match) :
    ms.foldl (Shortlist.offer k) (best k ns) = best k (ms ++ ns) := by
  induction ms generalizing ns with
  | nil => rfl
  | cons m ms ih =>
    rw [List.foldl_cons, offer_eq (best_ranked k ns) (length_best_le k ns), ← best_cons, ih]
    exact best_congr List.perm_middle

end Match

/-! ## Searching an index -/

namespace FlatIndex

/-- An index is searched by reading it once, and what comes out is the head of the full ranking. -/
theorem nearest_eq_best (metric : Metric) (index : FlatIndex) (query : Embedding) (k : Nat) :
    index.nearest metric query k
      = if query.length = index.dimension then .ok (Match.best k (index.candidates metric query))
        else .error (.dimensionMismatch index.dimension query.length) := by
  have hall : (index.candidates metric query).foldl (Shortlist.offer k) []
      = Match.best k (index.candidates metric query) := by
    have h := Match.foldl_offer k (index.candidates metric query) []
    rw [List.append_nil] at h
    rw [← h, Match.best, Match.rank, List.mergeSort_nil, List.take_nil]
  unfold nearest
  rw [hall]
  simp only [ne_eq, ite_not]

end FlatIndex

end Sidecar
