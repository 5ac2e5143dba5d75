import Sidecar.Proofs.Cache.Alike
import Sidecar.Proofs.Search.TopK
import Sidecar.Proofs.Search.Transparency

/-!
# Searches with what is there, and afresh

A search asks the cache for one segment after the other, and what it finds it keeps. So whether it
answers as with an empty cache has to be seen for a cache that changes while it goes on. What does not
change is that the cache is *in order*: its entries are held in the files, its books are right, and it
has the same configuration and the same files throughout (`Cache.InOrder`).

The answer for a path can then be told from the files and the configuration alone
(`InOrder.queryPath_eq`), and two caches in order of which this is the same answer alike
(`InOrder.search_eq`), whatever they hold.
-/

set_option autoImplicit false

namespace Sidecar

variable {σ : Type}

/-- The cache without its entries. -/
def Cache.emptied {ι : Type} (c : Cache ι) : Cache ι :=
  { Cache.new c.config c.observer with isShutDown := c.isShutDown }

/-- The segment lists names for its files, and its sidecar has an address. -/
structure Segment.Addressed (segment : Segment) : Prop where
  names : ∀ name ∈ segment.files, '/' ∉ name.toList
  short : ∀ path, segment.resolve = .ok (some path) → path.text.utf8ByteSize < 4096

section Search

variable {env : Environment σ FlatIndex} {files : σ → FileTree} {metric : Metric} {calm : σ → Prop}
  {t : FileTree} {config : CacheConfig} {shut : Bool} {c c' : Cache FlatIndex} {s s' : σ}
  {path : Path}

namespace Cache

/-- The entries are those of the files, the books are right, and the rest is as told. -/
structure InOrder (files : σ → FileTree) (calm : σ → Prop) (t : FileTree) (config : CacheConfig)
    (shut : Bool) (c : Cache FlatIndex) (s : σ) : Prop where
  settled : Settled files calm c s
  files_eq : files s = t
  sound : c.Sound
  within : c.WithinBudget
  ledger : ∃ n, Stage.Ledger ⟨c, [], n⟩
  config_eq : c.config = config
  isShutDown_eq : c.isShutDown = shut

theorem InOrder.emptied (h : InOrder files calm t config shut c s) :
    InOrder files calm t config shut c.emptied s := by
  refine ⟨⟨h.settled.calm, List.forall_mem_nil _⟩, h.files_eq, ⟨List.nodup_nil, rfl⟩,
    fun _ _ => Nat.zero_le _, ⟨0, .refl _, fun _ => Iff.rfl, nofun, ⟨rfl, Or.inl Nat.one_pos⟩, rfl⟩,
    h.config_eq, h.isShutDown_eq⟩

/-- Whatever becomes of the world, the files are the same. -/
theorem InOrder.of_files (h : InOrder files calm t config shut c s) (hcalm : calm s')
    (hfiles : files s' = t) : InOrder files calm t config shut c s' := by
  refine ⟨⟨hcalm, ?_⟩, hfiles, h.sound, h.within, h.ledger, h.config_eq, h.isShutDown_eq⟩
  rw [hfiles, ← h.files_eq]
  exact h.settled.held

theorem InOrder.get (heng : env.Exact files metric calm)
    (h : InOrder files calm t config shut c s) (path : Path) :
    InOrder files calm t config shut (c.get env path s).2.1 (c.get env path s).2.2 := by
  obtain ⟨hsettled, hfiles⟩ := h.settled.get heng path
  obtain ⟨n, hledger⟩ := h.ledger
  have hmoves := get_moves (p := []) (n := n) env path s h.sound
  exact ⟨hsettled, hfiles.trans h.files_eq, Moves.sound hmoves h.sound,
    hmoves.preserve (P := fun t => t.cache.WithinBudget) Move.withinBudget h.within,
    ⟨n, Moves.ledger hmoves h.sound hledger⟩, (Moves.config hmoves).trans h.config_eq,
    (isShutDown_get env c path s).trans h.isShutDown_eq⟩

end Cache

namespace Executor

open Cache

/-- The matches for a path, without a cache. -/
def answer (t : FileTree) (metric : Metric) (config : CacheConfig) (limits : QueryConfig)
    (shut : Bool) (path : Path) (query : Query) : Except Error (List Match) :=
  if attempts limits = 0 then .error (.evictionRace path.text 0)
  else if shut then .error .shutDown
  else match FlatIndex.loadWithin t config.weightBudget path with
    | .error e => .error e
    | .ok index => match index.nearest metric query.vector query.k with
      | .error e => .error (asQueryFailure path e)
      | .ok results => .ok results

/-- The answer for a path depends on no entry but its own. -/
theorem queryPath_of_held (heng : env.Exact files metric calm) (hcalm : calm s)
    (hheld : c.Each fun h => h.path.sameKey path = true → Held (files s) h) (hsound : c.Sound)
    (hwithin : c.WithinBudget) {n : Nat} (hledger : Stage.Ledger ⟨c, [], n⟩) (limits : QueryConfig)
    (query : Query) (hpath : path.Proper) (hshort : path.text.utf8ByteSize < 4096) :
    ∃ c'' s'', queryPath env limits path query c s
        = (answer (files s) metric c.config limits c.isShutDown path query, c'', s'') ∧
      (c'' = c ∨ c'' = (c.get env path s).2.1) ∧ calm s'' ∧ files s'' = files s := by
  have hworld := calm_get heng hcalm c path
  unfold Executor.queryPath answer
  rcases attempts limits with _ | left
  · exact ⟨c, s, rfl, Or.inl rfl, hcalm, rfl⟩
  rw [attempt, if_neg (Nat.succ_ne_zero left)]
  cases hshut : c.isShutDown with
  | true =>
    have hget : c.get env path s = (.error .shutDown, c, s) := by
      rw [Cache.get, request, if_pos hshut]
    rw [hget]
    exact ⟨c, s, rfl, Or.inl rfl, hcalm, rfl⟩
  | false =>
    have hget := get_eq_loadWithin_of_held heng hcalm hheld hsound hwithin hshut hpath hshort
    rcases hcase : c.get env path s with ⟨e | handle, c', s'⟩
    · rw [hcase] at hget hworld
      simp only [← hget, Except.map, Bool.false_eq_true, if_false]
      exact ⟨c', s', rfl, Or.inr rfl, hworld⟩
    · obtain ⟨s'', hquery, hcalm'', hfiles''⟩ :=
        query_of_calm_get heng hcalm hsound hledger hcase query.vector query.k
      rw [hcase] at hget hworld
      have hafter : calm s'' ∧ files s'' = files s := ⟨hcalm'', hfiles''.trans hworld.2⟩
      simp only [hquery, ← hget, Except.map, Bool.false_eq_true, if_false]
      cases hnearest : handle.index.nearest metric query.vector query.k with
      | ok results => exact ⟨c', s'', rfl, Or.inr rfl, hafter⟩
      | error e =>
        rw [FlatIndex.error_of_nearest hnearest]
        exact ⟨c', s'', rfl, Or.inr rfl, hafter⟩

theorem InOrder.queryPath_eq (heng : env.Exact files metric calm)
    (h : InOrder files calm t config shut c s) (limits : QueryConfig) (query : Query)
    (hpath : path.Proper) (hshort : path.text.utf8ByteSize < 4096) :
    (queryPath env limits path query c s).1 = answer t metric config limits shut path query ∧
      InOrder files calm t config shut (queryPath env limits path query c s).2.1
        (queryPath env limits path query c s).2.2 := by
  obtain ⟨n, hledger⟩ := h.ledger
  obtain ⟨c'', s'', heq, hcache, hcalm, hfiles⟩ := queryPath_of_held heng h.settled.calm
    (fun e he _ => h.settled.held e he) h.sound h.within hledger limits query hpath hshort
  rw [heq, h.files_eq, h.config_eq, h.isShutDown_eq]
  rw [h.files_eq] at hfiles
  refine ⟨rfl, ?_⟩
  rcases hcache with rfl | rfl
  · exact h.of_files hcalm hfiles
  · exact (h.get heng path).of_files hcalm hfiles

/-- Caches that are in order give the same answer for a segment, and are in order after it. -/
theorem InOrder.searchSegment_eq (heng : env.Exact files metric calm)
    (h : InOrder files calm t config shut c s) (h' : InOrder files calm t config shut c' s')
    (limits : QueryConfig) (query : Query) {segment : Segment} (hsegment : segment.Addressed) :
    (searchSegment env limits segment query c s).1
        = (searchSegment env limits segment query c' s').1 ∧
      InOrder files calm t config shut (searchSegment env limits segment query c s).2.1
        (searchSegment env limits segment query c s).2.2 ∧
      InOrder files calm t config shut (searchSegment env limits segment query c' s').2.1
        (searchSegment env limits segment query c' s').2.2 := by
  unfold Executor.searchSegment
  cases checkK limits query with
  | error e => exact ⟨rfl, h, h'⟩
  | ok _ =>
    rcases hresolve : segment.resolve with e | _ | path
    · exact ⟨rfl, h, h'⟩
    · exact ⟨rfl, h, h'⟩
    · have hproper := Segment.proper_of_resolve hsegment.names hresolve
      have hshort := hsegment.short path hresolve
      obtain ⟨hanswer, hkept⟩ := InOrder.queryPath_eq heng h limits query hproper hshort
      obtain ⟨hanswer', hkept'⟩ := InOrder.queryPath_eq heng h' limits query hproper hshort
      rw [← hanswer'] at hanswer
      dsimp only
      revert hanswer hkept hkept'
      generalize queryPath env limits path query c s = after
      generalize queryPath env limits path query c' s' = after'
      intro hsame hkept hkept'
      obtain ⟨result, d, w⟩ := after
      obtain ⟨result', d', w'⟩ := after'
      obtain rfl : result = result' := hsame
      cases result with
      | error e => exact ⟨rfl, hkept, hkept'⟩
      | ok results => exact ⟨rfl, hkept, hkept'⟩

theorem InOrder.searchAll_eq (heng : env.Exact files metric calm) (limits : QueryConfig)
    (query : Query) {segments : List Segment} (hsegments : ∀ segment ∈ segments, segment.Addressed)
    (outcome : SearchOutcome) (h : InOrder files calm t config shut c s)
    (h' : InOrder files calm t config shut c' s') :
    (searchAll env limits query segments outcome c s).1
      = (searchAll env limits query segments outcome c' s').1 := by
  induction segments generalizing outcome c s c' s' with
  | nil => rfl
  | cons segment rest ih =>
    obtain ⟨hsame, hkept, hkept'⟩ := InOrder.searchSegment_eq heng h h' limits query
      (hsegments segment List.mem_cons_self)
    have hrest : ∀ segment ∈ rest, segment.Addressed :=
      fun other hother => hsegments other (List.mem_cons_of_mem segment hother)
    rw [searchAll, searchAll]
    revert hsame hkept hkept'
    generalize searchSegment env limits segment query c s = after
    generalize searchSegment env limits segment query c' s' = after'
    intro hsame hkept hkept'
    obtain ⟨result, d, w⟩ := after
    obtain ⟨result', d', w'⟩ := after'
    obtain rfl : result = result' := hsame
    cases result with
    | error e =>
      dsimp only
      split
      · exact ih hrest _ hkept hkept'
      · rfl
    | ok scorer => exact ih hrest _ hkept hkept'

/-- What a cache holds does not show in a search, if it is in order. -/
theorem InOrder.search_eq (heng : env.Exact files metric calm)
    (h : InOrder files calm t config shut c s) (h' : InOrder files calm t config shut c' s')
    (limits : QueryConfig) (query : Query) {segments : List Segment}
    (hsegments : ∀ segment ∈ segments, segment.Addressed) :
    (search env limits segments query c s).1 = (search env limits segments query c' s').1 := by
  unfold search
  cases checkK limits query with
  | error e => rfl
  | ok _ => exact InOrder.searchAll_eq heng limits query hsegments {} h h'

end Executor

/-- Whatever has happened to a cache, its books are right. -/
theorem Service.books_of_run {ι : Type} {env : Environment σ ι} {observer : Option (Watcher Unit)}
    {world : σ} {actions : List (Action σ ι)} {s : Service σ ι}
    (hrun : s = (start config observer world).run env actions) :
    s.cache.Sound ∧ s.cache.WithinBudget ∧ (∃ n, Stage.Ledger ⟨s.cache, [], n⟩) ∧
      s.cache.config = config := by
  have hsound := start_sound (ι := ι) config observer world
  have hledger := run_ledger env actions hsound (start_ledger config observer world)
  have hmoves := run_moves env actions hsound 0
  rw [← hrun] at hledger hmoves
  exact ⟨Moves.sound hmoves hsound,
    hmoves.preserve (P := fun t => t.cache.WithinBudget) Move.withinBudget fun _ _ => Nat.zero_le _,
    ⟨_, hledger⟩, Moves.config hmoves⟩

/-- A cache is in order while its entries are current and weigh what their indexes weigh. -/
theorem Service.inOrder_of_current {observer : Option (Watcher Unit)} {world : σ}
    {actions : List (Action σ FlatIndex)} {s : Service σ FlatIndex}
    (hrun : s = (start config observer world).run env actions) (hcalm : calm s.world)
    (hweighed : s.cache.Each fun h => h.size = h.index.size)
    (hcurrent : s.cache.Current (files s.world)) :
    Cache.InOrder files calm (files s.world) config s.cache.isShutDown s.cache s.world := by
  obtain ⟨hsound, hwithin, hledger, hconfig⟩ := books_of_run hrun
  have hheld : s.cache.Each (Held (files s.world)) :=
    fun e he => ⟨hweighed e he, fun _ => hcurrent e he⟩
  exact ⟨⟨hcalm, hheld⟩, rfl, hsound, hwithin, hledger, hconfig, rfl⟩

end Search

end Sidecar
